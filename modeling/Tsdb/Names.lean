/-
The names of the files: of the log (`file_name`, `parse_id` and `list` of
`storage/wal/segment.rs`), and of the segments (the loop of
`SegmentStore::open`, `storage/segment.rs`).

Both write a number with leading zeros up to a width, and both read it with
`str::parse`, which takes more than is ever written. `open` writes the
number again and compares; `parse_id` does not. So `open` knows a segment by
one name, and `parse_id` takes names that `file_name` does not write
(`Misspelled`). In a directory without any of these the two correspond one
to one, and `list` is strictly ascending (`file_names`).

# Paths

A path is a list of components, and a file name bytes that need not be
text, so that what `to_str` refuses is there to be refused. `read_dir`
yields each name once (`Listing`), in any order, and may fail at any
entry. The two loops are translated with their error paths; what they
return on a listing without failures is `list_ok` and `scan_ok`.

# One name

`parseId_eq_some` takes `parse_id` apart: the affixes are stripped
(`strip_eq_some`) and what is between them is read by `str::parse`, whose
grammar is `Lib.Text`'s. The text between the affixes is then either what
`file_name` writes for the number read, or it has a sign, too few digits,
or a zero in front of eight or more; `parseId_exact_iff` says that these
are all the ways. For segments the comparison decides, and the same
lemma about `str::parse` shows that nothing written is refused.

# A directory

The loops visit the entries in the order of the listing, so their
results are compared by what is in them (`names_of_collect`) before
they are sorted. Elsewhere a log directory is a list of files with ids,
and a directory of segments a map from `DataName`. That is what is left
of the names: `Names.list_dir`, `scan_numbers`.
-/
import Tsdb.Lib.Text
import Tsdb.Storage.Segment
import Tsdb.Wal.Codec
import Tsdb.Wal.Reader

namespace Tsdb

open Lib (Ascending Bytes Digits decimal padded parseUnsigned stripPrefix
  stripSuffix)
open Wal (asBytes)

-- ================================================================== paths

/-- A file name, as the system has it. -/
abbrev OsStr := Bytes

/-- `to_str`. -/
def OsStr.toStr (name : OsStr) : Option String :=
  String.fromUTF8? ⟨name.toArray⟩

inductive Component
  | root
  | current
  | parent
  | normal (name : OsStr)
deriving DecidableEq, Repr

/-- A path by its components. -/
abbrev Path := List Component

/-- `Path::file_name`. -/
def Path.fileName (path : Path) : Option OsStr :=
  match path.getLast? with
  | some (.normal name) => some name
  | _ => none

/-- `DirEntry::path`. -/
def Path.join (dir : Path) (name : OsStr) : Path := dir ++ [.normal name]

inductive IoError
  | notFound
  | other
deriving DecidableEq, Repr

/-- What `read_dir` goes through: a name comes once. -/
structure Listing where
  entries : List (Except IoError OsStr)
  distinct : (entries.filterMap Except.toOption).Nodup

@[simp] theorem Path.fileName_join (dir : Path) (name : OsStr) :
    (dir.join name).fileName = some name := by
  rw [fileName, join, List.getLast?_concat]

@[simp] theorem OsStr.toStr_asBytes (s : String) :
    OsStr.toStr (asBytes s) = some s := Wal.fromUTF8?_asBytes s

theorem OsStr.toStr_eq_some {name : OsStr} {s : String} :
    OsStr.toStr name = some s ↔ name = asBytes s := by
  constructor
  · intro h
    exact (Wal.asBytes_of_fromUTF8? h).symm
  · intro h
    rw [h, toStr_asBytes]

theorem asBytes_inj {s t : String} : asBytes s = asBytes t ↔ s = t := by
  constructor
  · intro h
    have := congrArg OsStr.toStr h
    rwa [OsStr.toStr_asBytes, OsStr.toStr_asBytes, Option.some.injEq] at this
  · intro h
    rw [h]

/-- A text between two affixes. -/
def between (front raw back : List Char) : String :=
  String.ofList (front ++ raw ++ back)

theorem between_inj {front back raw raw' : List Char} :
    between front raw back = between front raw' back ↔ raw = raw' := by
  rw [between, between, String.ofList_inj, List.append_assoc,
    List.append_assoc, List.append_cancel_left_eq, List.append_cancel_right_eq]

/-- What is left of a string when both affixes are stripped. -/
def strip (front back : List Char) (name : String) : Option (List Char) :=
  (stripPrefix front name.toList).bind (stripSuffix back)

theorem strip_eq_some {front back raw : List Char} {name : String} :
    strip front back name = some raw ↔ name = between front raw back := by
  rw [strip, Option.bind_eq_some_iff, between]
  constructor
  · intro h
    obtain ⟨rest, hrest, hraw⟩ := h
    rw [Lib.stripPrefix_eq_some] at hrest
    rw [Lib.stripSuffix_eq_some] at hraw
    rw [List.append_assoc, ← hraw, ← hrest, String.ofList_toList]
  · intro h
    refine ⟨raw ++ back, ?_, Lib.stripSuffix_eq_some.mpr rfl⟩
    rw [Lib.stripPrefix_eq_some, h, String.toList_ofList, List.append_assoc]

-- ==================================================== the files of the log

namespace Wal.Names

/-- `segment::file_name`. -/
def fileName (id : UInt64) : String :=
  between "wal-".toList (padded 8 id.toNat) ".log".toList

/-- `segment::parse_id`. -/
def parseId (path : Path) : Option UInt64 := do
  let name ← (← path.fileName).toStr
  let raw ← strip "wal-".toList ".log".toList name
  let id ← parseUnsigned (2 ^ 64) raw
  return .ofNat id

structure SegmentInfo where
  id : UInt64
  path : Path
deriving DecidableEq, Repr

/-- The loop of `list` over the entries of `dir`. -/
def collect (dir : Path) :
    List (Except IoError OsStr) → Except IoError (List SegmentInfo)
  | [] => .ok []
  | .error e :: _ => .error e
  | .ok name :: entries =>
      let path := dir.join name
      match parseId path with
      | some id => (collect dir entries).map (⟨id, path⟩ :: ·)
      | none => collect dir entries

/-- `segment::list`, of what `read_dir` returns. -/
def list (dir : Path) :
    Except IoError (List (Except IoError OsStr)) →
      Except IoError (List SegmentInfo)
  | .error .notFound => .ok []
  | .error e => .error e
  | .ok entries =>
      (collect dir entries).map fun out => out.mergeSort fun a b => a.id ≤ b.id

/-- A number between the affixes that is not written as `file_name` writes
it: it has a sign, or less than eight digits, or more of them and a zero in
front. -/
def Misspelled (name : OsStr) : Prop :=
  ∃ raw ds, name = asBytes (between "wal-".toList raw ".log".toList)
    ∧ ds ≠ [] ∧ Digits ds ∧ decimal ds < 2 ^ 64
    ∧ (raw = '+' :: ds
      ∨ raw = ds ∧ (ds.length < 8 ∨ 8 < ds.length ∧ ds.head? = some '0'))

-- ------------------------------------------------------------- one by one

theorem parseId_eq_some {path : Path} {id : UInt64} :
    parseId path = some id
      ↔ ∃ raw ds, path.fileName
          = some (asBytes (between "wal-".toList raw ".log".toList))
        ∧ (raw = ds ∨ raw = '+' :: ds) ∧ ds ≠ [] ∧ Digits ds
        ∧ decimal ds = id.toNat := by
  unfold parseId
  constructor
  · intro h
    obtain ⟨name, hname, h⟩ := Option.bind_eq_some_iff.mp h
    obtain ⟨s, hs, h⟩ := Option.bind_eq_some_iff.mp h
    obtain ⟨raw, hraw, h⟩ := Option.bind_eq_some_iff.mp h
    obtain ⟨n, hn, h⟩ := Option.bind_eq_some_iff.mp h
    obtain ⟨ds, hcs, hne, hdigits, hvalue, hlt⟩ :=
      (Lib.parseUnsigned_eq_some (by decide)).mp hn
    have hid : UInt64.ofNat n = id := by simpa using h
    refine ⟨raw, ds, ?_, hcs, hne, hdigits, ?_⟩
    · rw [hname, ← strip_eq_some.mp hraw, ← OsStr.toStr_eq_some.mp hs]
    · rw [hvalue, ← hid, UInt64.toNat_ofNat_of_lt' hlt]
  · intro h
    obtain ⟨raw, ds, hname, hcs, hne, hdigits, hvalue⟩ := h
    have hparse : parseUnsigned (2 ^ 64) raw = some id.toNat :=
      (Lib.parseUnsigned_eq_some (by decide)).mpr
        ⟨ds, hcs, hne, hdigits, hvalue, id.toNat_lt⟩
    rw [hname]
    simp only [Option.bind_eq_bind, Option.bind_some, OsStr.toStr_asBytes,
      strip_eq_some.mpr rfl, hparse, UInt64.ofNat_toNat, Option.pure_def]

/-- What is written is read. -/
theorem parseId_fileName (dir : Path) (id : UInt64) :
    parseId (dir.join (asBytes (fileName id))) = some id :=
  parseId_eq_some.mpr ⟨padded 8 id.toNat, _,
    by rw [Path.fileName_join, fileName], .inl rfl, Lib.padded_ne_nil _ _, Lib.digits_padded _ _,
    Lib.decimal_padded _ _⟩

/-- What is read was written unless it is misspelled. Of a name that is read
the digits are known, with a sign or without; the name written for their
number has no sign, at least eight digits, and beyond eight no leading zero.
`Misspelled` says that one of these fails. -/
theorem parseId_exact_iff (path : Path) :
    (∀ id, parseId path = some id → path.fileName = some (asBytes (fileName id)))
      ↔ ∀ name, path.fileName = some name → ¬ Misspelled name := by
  constructor
  · intro h name hname hbad
    obtain ⟨raw, ds, rfl, hne, hdigits, hlt, hform⟩ := hbad
    have htoNat : (UInt64.ofNat (decimal ds)).toNat = decimal ds :=
      UInt64.toNat_ofNat_of_lt' hlt
    have hraw := h (.ofNat (decimal ds)) (parseId_eq_some.mpr
      ⟨raw, ds, hname, hform.symm.imp_left And.left, hne, hdigits,
        htoNat.symm⟩)
    rw [hname, Option.some.injEq, asBytes_inj, fileName, between_inj, htoNat]
      at hraw
    rcases hform with rfl | ⟨rfl, hform⟩
    · have hplus := Lib.digits_padded 8 (decimal ds) '+'
        (hraw ▸ List.mem_cons_self)
      exact absurd hplus (by decide)
    · obtain ⟨hwidth, hzero⟩ :=
        (Digits.eq_padded_iff (by decide) hdigits).mp hraw
      rcases hform with hshort | ⟨hlong, hhead⟩
      · omega
      · exact hzero hlong hhead
  · intro h id hid
    obtain ⟨raw, ds, hname, hcs, hne, hdigits, hvalue⟩ := parseId_eq_some.mp hid
    have hgood := h _ hname
    have hlt : decimal ds < 2 ^ 64 := hvalue ▸ id.toNat_lt
    rcases hcs with rfl | rfl
    · have hform : ¬ (raw.length < 8
          ∨ 8 < raw.length ∧ raw.head? = some '0') := fun hform =>
        hgood ⟨raw, raw, rfl, hne, hdigits, hlt, .inr ⟨rfl, hform⟩⟩
      have hexact := (Digits.eq_padded_iff (by decide : 0 < 8) hdigits).mpr
        ⟨by omega, fun hlong hzero => hform (.inr ⟨hlong, hzero⟩)⟩
      rw [hname, fileName, ← hvalue, ← hexact]
    · exact absurd ⟨_, ds, rfl, hne, hdigits, hlt, .inl rfl⟩ hgood

-- -------------------------------------------------------- a directory

/-- What `list` makes of one name. -/
def found (dir : Path) (name : OsStr) : Option SegmentInfo :=
  (parseId (dir.join name)).map fun id => ⟨id, dir.join name⟩

theorem collect_ok (dir : Path) (names : List OsStr) :
    collect dir (names.map .ok) = .ok (names.filterMap (found dir)) := by
  induction names with
  | nil => rfl
  | cons name names ih =>
      rw [List.map_cons, collect, ih]
      cases hid : parseId (dir.join name) with
      | none =>
          rw [List.filterMap_cons_none (by rw [found, hid]; rfl)]
      | some id =>
          rw [List.filterMap_cons_some (by rw [found, hid]; rfl)]
          rfl

theorem names_of_collect {dir : Path}
    {entries : List (Except IoError OsStr)} {out : List SegmentInfo}
    (h : collect dir entries = .ok out) :
    ∃ names : List OsStr, entries = names.map .ok := by
  induction entries generalizing out with
  | nil => exact ⟨[], rfl⟩
  | cons entry entries ih =>
      cases entry with
      | error e => cases h
      | ok name =>
          rw [collect] at h
          have hrest : ∃ out', collect dir entries = .ok out' := by
            split at h
            · cases hcollect : collect dir entries with
              | error e =>
                  rw [hcollect] at h
                  cases h
              | ok out' => exact ⟨out', rfl⟩
            · exact ⟨out, h⟩
          obtain ⟨out', hout'⟩ := hrest
          obtain ⟨names, rfl⟩ := ih hout'
          exact ⟨name :: names, rfl⟩

/-- The listing that is sorted. -/
theorem list_ok {dir : Path} {entries : List (Except IoError OsStr)}
    {infos : List SegmentInfo} (h : list dir (.ok entries) = .ok infos) :
    ∃ names : List OsStr, entries = names.map .ok
      ∧ infos = (names.filterMap (found dir)).mergeSort
        fun a b => a.id ≤ b.id := by
  rw [list] at h
  cases hcollect : collect dir entries with
  | error e =>
      rw [hcollect] at h
      cases h
  | ok out =>
      obtain ⟨names, rfl⟩ := names_of_collect hcollect
      rw [collect_ok] at h
      cases h
      exact ⟨names, rfl, rfl⟩

theorem nodup_of_listing {listing : Listing} {names : List OsStr}
    (h : listing.entries = names.map .ok) : names.Nodup := by
  have hnd := listing.distinct
  rw [h, List.filterMap_map] at hnd
  have hself : names.filterMap (Except.toOption ∘ Except.ok (ε := IoError))
      = names := by
    rw [show (Except.toOption ∘ Except.ok (ε := IoError))
      = (some : OsStr → Option OsStr) from rfl, List.filterMap_some]
  rwa [hself] at hnd

/-- Names that are read as they are written are listed in the order of
their ids, none of them twice. -/
theorem list_ascending {dir : Path} {listing : Listing}
    (hexact : ∀ name, .ok name ∈ listing.entries → ∀ id,
      parseId (dir.join name) = some id → name = asBytes (fileName id))
    {infos : List SegmentInfo}
    (h : list dir (.ok listing.entries) = .ok infos) :
    Ascending SegmentInfo.id infos := by
  obtain ⟨names, hnames, rfl⟩ := list_ok h
  have hname : ∀ name ∈ names, ∀ info, found dir name = some info →
      name = asBytes (fileName info.id) := by
    intro name hin info hinfo
    obtain ⟨id, hid, rfl⟩ := Option.map_eq_some_iff.mp hinfo
    refine hexact name ?_ id hid
    rw [hnames]
    exact List.mem_map_of_mem hin
  refine Lib.ascending_mergeSort (List.pairwise_map.mpr ?_)
  refine List.pairwise_filterMap.mpr ?_
  refine (nodup_of_listing hnames).imp_of_mem fun {a b} ha hb hne => ?_
  intro i hi j hj hid
  refine hne ?_
  rw [hname a ha i hi, hname b hb j hj, hid]

/-- `replay` takes one segment for the last one. -/
theorem last_only {infos : List SegmentInfo}
    (h : Ascending SegmentInfo.id infos) :
    infos.filter (fun s => some s.id = infos.getLast?.map SegmentInfo.id)
      = infos.getLast?.toList := by
  induction infos using List.reverseRecOn with
  | nil => rfl
  | append_singleton infos last _ =>
      have hbelow := (List.pairwise_append.mp h).2.2
      have hnone : infos.filter (fun s => s.id = last.id) = [] := by
        refine List.filter_eq_nil_iff.mpr fun s hs heq => ?_
        have hlt := hbelow s hs last List.mem_cons_self
        rw [of_decide_eq_true heq] at hlt
        exact lt_irrefl _ hlt
      rw [List.getLast?_concat, List.filter_append]
      simp [hnone]

/-- The file of an id. -/
def infoOf (dir : Path) (f : SegmentFile) : SegmentInfo :=
  ⟨.ofNat f.id, dir.join (asBytes (fileName (.ofNat f.id)))⟩

/-- On a directory of files that the log has named, `list` is the one of
`Dir`. -/
theorem list_dir (dir : Path) (files : Dir) (h : ∀ f ∈ files, f.id < 2 ^ 64) :
    list dir (.ok ((files.map fun f => asBytes (fileName (.ofNat f.id))).map .ok))
      = .ok ((Wal.list files).map (infoOf dir)) := by
  have hfound : (files.map fun f => asBytes (fileName (.ofNat f.id))).filterMap
      (found dir) = files.map (infoOf dir) := by
    rw [List.filterMap_map, ← List.filterMap_eq_map]
    refine List.filterMap_congr fun f _ => ?_
    rw [Function.comp_apply, found, parseId_fileName]
    rfl
  have hsort : ((files.map (infoOf dir)).mergeSort fun a b => a.id ≤ b.id)
      = (Wal.list files).map (infoOf dir) := by
    refine (List.map_mergeSort fun a ha b hb => ?_).symm
    refine decide_eq_decide.mpr ?_
    rw [UInt64.le_iff_toNat_le, infoOf, infoOf,
      UInt64.toNat_ofNat_of_lt' (h a ha), UInt64.toNat_ofNat_of_lt' (h b hb)]
  rw [list, collect_ok, hfound]
  exact congrArg Except.ok hsort

end Wal.Names

-- ============================================= the files of the segments

/-- `format!("segment-{number:020}.seg")`. -/
def segmentName (number : Nat) : String :=
  between "segment-".toList (padded 20 number) ".seg".toList

/-- The name `flush` writes to first. -/
def temporaryName (number : Nat) : String :=
  between "segment-".toList (padded 20 number) ".tmp".toList

inductive ScanError
  | io (e : IoError)
  | corruptSegment (path : Path)
deriving DecidableEq, Repr

namespace SegmentStore

/-- The loop of `open` over the entries of the directory. -/
def collect (dir : Path) :
    List (Except IoError OsStr) → Except ScanError (List (Nat × Path))
  | [] => .ok []
  | .error e :: _ => .error (.io e)
  | .ok entry :: entries =>
      let path := dir.join entry
      match path.fileName.bind OsStr.toStr with
      | none => collect dir entries
      | some name =>
          match strip "segment-".toList ".seg".toList name with
          | none => collect dir entries
          | some rawNumber =>
              match parseUnsigned (2 ^ 64) rawNumber with
              | none => .error (.corruptSegment path)
              | some number =>
                  if name ≠ segmentName number then
                    .error (.corruptSegment path)
                  else (collect dir entries).map ((number, path) :: ·)

/-- The files `open` reads, in their order. -/
def scan (dir : Path) (entries : List (Except IoError OsStr)) :
    Except ScanError (List (Nat × Path)) :=
  (collect dir entries).map fun files =>
    files.mergeSort fun a b => a.1 ≤ b.1

/-- What `open` does with a name, if it goes on: it takes a name that is the
one of a number, and passes over one that is the name of none. The cases are
those of the code, and in each that goes on the name is compared with the
one written for what was parsed. -/
private theorem collect_cons {dir : Path} {entry : OsStr}
    {entries : List (Except IoError OsStr)} {files : List (Nat × Path)}
    (h : collect dir (.ok entry :: entries) = .ok files) :
    (∃ number files', entry = asBytes (segmentName number) ∧ number < 2 ^ 64
      ∧ collect dir entries = .ok files'
      ∧ files = (number, dir.join entry) :: files')
    ∨ (∀ number, number < 2 ^ 64 → entry ≠ asBytes (segmentName number))
      ∧ collect dir entries = .ok files := by
  rw [collect] at h
  simp only [Path.fileName_join, Option.bind_some] at h
  have hstrip : ∀ number, strip "segment-".toList ".seg".toList
      (segmentName number) = some (padded 20 number) := fun number =>
    strip_eq_some.mpr rfl
  cases hstr : OsStr.toStr entry with
  | none =>
      rw [hstr] at h
      refine .inr ⟨fun number _ he => ?_, h⟩
      rw [he, OsStr.toStr_asBytes] at hstr
      cases hstr
  | some name =>
      rw [hstr] at h
      have hentry := OsStr.toStr_eq_some.mp hstr
      cases hraw : strip "segment-".toList ".seg".toList name with
      | none =>
          simp only [hraw] at h
          refine .inr ⟨fun number _ he => ?_, h⟩
          rw [hentry, asBytes_inj] at he
          rw [he, hstrip] at hraw
          cases hraw
      | some raw =>
          simp only [hraw] at h
          cases hnumber : parseUnsigned (2 ^ 64) raw with
          | none =>
              rw [hnumber] at h
              cases h
          | some number =>
              simp only [hnumber] at h
              obtain ⟨_, _, _, _, _, hlt⟩ :=
                (Lib.parseUnsigned_eq_some (by decide)).mp hnumber
              split at h
              · cases h
              · rename_i hname
                cases hcollect : collect dir entries with
                | error e =>
                    rw [hcollect] at h
                    cases h
                | ok files' =>
                    rw [hcollect] at h
                    cases h
                    refine .inl ⟨number, files', ?_, hlt, rfl, rfl⟩
                    rw [hentry, not_not.mp hname]

theorem segmentName_inj {m n : Nat} (h : segmentName m = segmentName n) :
    m = n := by
  have hpadded := between_inj.mp h
  rw [← Lib.decimal_padded 20 m, hpadded, Lib.decimal_padded]

/-- `open` knows each segment by the name `flush` has written it under. No
name stands twice in a directory, and a name is that of one number, so no
number stands twice in what is collected. -/
theorem collect_ok {dir : Path} {entries : List (Except IoError OsStr)}
    (hnd : (entries.filterMap Except.toOption).Nodup)
    {files : List (Nat × Path)} (h : collect dir entries = .ok files) :
    (files.map Prod.fst).Nodup
      ∧ ∀ number path, (number, path) ∈ files
        ↔ number < 2 ^ 64 ∧ .ok (asBytes (segmentName number)) ∈ entries
          ∧ path = dir.join (asBytes (segmentName number)) := by
  induction entries generalizing files with
  | nil =>
      cases h
      exact ⟨List.nodup_nil, by simp⟩
  | cons entry entries ih =>
      cases entry with
      | error e => cases h
      | ok entry =>
          rw [List.filterMap_cons_some (f := Except.toOption) (b := entry) rfl,
            List.nodup_cons] at hnd
          rcases collect_cons h with hfound | hskip
          · obtain ⟨number, files', rfl, hlt, hfiles', rfl⟩ := hfound
            obtain ⟨hnumbers, hmem⟩ := ih hnd.2 hfiles'
            have hnew : .ok (asBytes (segmentName number)) ∉ entries :=
              fun hin => hnd.1 (List.mem_filterMap.mpr ⟨_, hin, rfl⟩)
            refine ⟨?_, fun n path => ?_⟩
            · rw [List.map_cons, List.nodup_cons]
              refine ⟨fun hin => ?_, hnumbers⟩
              obtain ⟨⟨n, path⟩, hfile, rfl⟩ := List.mem_map.mp hin
              exact hnew ((hmem n path).mp hfile).2.1
            · rw [List.mem_cons, hmem, List.mem_cons]
              constructor
              · intro hin
                rcases hin with heq | hin
                · cases heq
                  exact ⟨hlt, .inl rfl, rfl⟩
                · exact ⟨hin.1, .inr hin.2.1, hin.2.2⟩
              · intro hin
                obtain ⟨hn, hin | hin, rfl⟩ := hin
                · rw [Except.ok.injEq, asBytes_inj] at hin
                  rw [segmentName_inj hin]
                  exact .inl rfl
                · exact .inr ⟨hn, hin, rfl⟩
          · obtain ⟨hother, hfiles⟩ := hskip
            obtain ⟨hnumbers, hmem⟩ := ih hnd.2 hfiles
            refine ⟨hnumbers, fun n path => ?_⟩
            rw [hmem, List.mem_cons]
            constructor
            · intro hin
              exact ⟨hin.1, .inr hin.2.1, hin.2.2⟩
            · intro hin
              obtain ⟨hn, hin | hin, hpath⟩ := hin
              · rw [Except.ok.injEq] at hin
                exact absurd hin.symm (hother n hn)
              · exact ⟨hn, hin, hpath⟩

theorem scan_ok {dir : Path} {listing : Listing} {files : List (Nat × Path)}
    (h : scan dir listing.entries = .ok files) :
    Ascending Prod.fst files
      ∧ ∀ number path, (number, path) ∈ files
        ↔ number < 2 ^ 64
          ∧ .ok (asBytes (segmentName number)) ∈ listing.entries
          ∧ path = dir.join (asBytes (segmentName number)) := by
  rw [scan] at h
  cases hcollect : collect dir listing.entries with
  | error e =>
      rw [hcollect] at h
      cases h
  | ok out =>
      rw [hcollect] at h
      cases h
      obtain ⟨hnd, hmem⟩ := collect_ok listing.distinct hcollect
      refine ⟨Lib.ascending_mergeSort hnd, fun number path => ?_⟩
      rw [List.mem_mergeSort, hmem]

end SegmentStore

/-- What `DataName` says of a name. -/
def DataName.ofName (name : String) : DataName :=
  match strip "segment-".toList ".seg".toList name with
  | some rawNumber =>
      match parseUnsigned (2 ^ 64) rawNumber with
      | some number =>
          if name = segmentName number then .segment number
          else .misnamed (String.ofList rawNumber)
      | none => .misnamed (String.ofList rawNumber)
  | none =>
      match (strip "segment-".toList ".tmp".toList name).bind
          (parseUnsigned (2 ^ 64)) with
      | some number =>
          if name = temporaryName number then .temporary number else .other name
      | none => .other name

private theorem toOption_map {ε α β : Type} (f : α → β) (e : Except ε α) :
    (e.map f).toOption = e.toOption.map f := by
  cases e with
  | error e => rfl
  | ok a => rfl

/-- Of the names `open` is left with what `segmentNumbers` makes of them:
the model of the directory sorts a name into a temporary one, a segment's or
a misspelled one, and goes on or fails where `open` does on the text. -/
theorem scan_numbers (dir : Path) (names : List String) :
    (SegmentStore.collect dir (names.map fun name => .ok (asBytes name))
      ).toOption.map (·.map Prod.fst)
      = (segmentNumbers (names.map DataName.ofName)).toOption := by
  induction names with
  | nil => rfl
  | cons name names ih =>
      rw [List.map_cons, List.map_cons, SegmentStore.collect]
      simp only [Path.fileName_join, Option.bind_some, OsStr.toStr_asBytes,
        DataName.ofName]
      cases strip "segment-".toList ".seg".toList name with
      | none =>
          simp only
          rw [ih]
          cases (strip "segment-".toList ".tmp".toList name).bind
              (parseUnsigned (2 ^ 64)) with
          | none => rfl
          | some number =>
              by_cases hname : name = temporaryName number
              · simp only [hname, if_true]
                rfl
              · simp only [hname, if_false]
                rfl
      | some raw =>
          simp only
          cases parseUnsigned (2 ^ 64) raw with
          | none => rfl
          | some number =>
              by_cases hname : name = segmentName number
              · simp only [hname, if_true, ne_eq, not_true, if_false,
                  segmentNumbers]
                rw [toOption_map, toOption_map, ← ih, Option.map_map,
                  Option.map_map]
                rfl
              · simp only [hname, ne_eq, not_false_eq_true, if_true, if_false]
                rfl

-- ============================================================= one to one

namespace Wal.Names

/-- In a directory the names and the ids correspond one to one, those of
the log and those of the segments. -/
structure OneToOne (dir : Path) (listing : Listing) : Prop where
  read : ∀ id, parseId (dir.join (asBytes (fileName id))) = some id
  written : ∀ name, .ok name ∈ listing.entries →
    ∀ id, parseId (dir.join name) = some id → name = asBytes (fileName id)
  ascending : ∀ infos, list dir (.ok listing.entries) = .ok infos →
    Ascending SegmentInfo.id infos
  last : ∀ infos, list dir (.ok listing.entries) = .ok infos →
    infos.filter (fun s => some s.id = infos.getLast?.map SegmentInfo.id)
      = infos.getLast?.toList
  segments : ∀ files, SegmentStore.scan dir listing.entries = .ok files →
    Ascending Prod.fst files
      ∧ ∀ number path, (number, path) ∈ files
        ↔ number < 2 ^ 64
          ∧ .ok (asBytes (segmentName number)) ∈ listing.entries
          ∧ path = dir.join (asBytes (segmentName number))

/-- A path is read for an id it is not written for exactly if its name is
misspelled; and in a directory names and ids correspond one to one exactly
if none of the names is. -/
theorem file_names (path dir : Path) (listing : Listing) :
    ((∀ id, parseId path = some id →
        path.fileName = some (asBytes (fileName id)))
      ↔ ∀ name, path.fileName = some name → ¬ Misspelled name)
    ∧ (OneToOne dir listing
      ↔ ∀ name, .ok name ∈ listing.entries → ¬ Misspelled name) := by
  refine ⟨parseId_exact_iff path, ?_⟩
  have hexact : ∀ name : OsStr, (∀ id, parseId (dir.join name) = some id →
      name = asBytes (fileName id)) ↔ ¬ Misspelled name := by
    intro name
    have h := parseId_exact_iff (dir.join name)
    simp only [Path.fileName_join, Option.some.injEq, forall_eq'] at h
    exact h
  constructor
  · intro h name hin
    exact (hexact name).mp (h.written name hin)
  · intro h
    have hwritten : ∀ name, .ok name ∈ listing.entries → ∀ id,
        parseId (dir.join name) = some id → name = asBytes (fileName id) :=
      fun name hin => (hexact name).mpr (h name hin)
    exact ⟨parseId_fileName dir, hwritten,
      fun infos hlist => list_ascending hwritten hlist,
      fun infos hlist => last_only (list_ascending hwritten hlist),
      fun files hscan => SegmentStore.scan_ok hscan⟩

/-- Two names for the id five, of which only the first is written. `list`
reads both, and its result has the id twice: it is not ascending, and the
names are not one to one with the ids. -/
theorem file_names_signed :
    parseId [.root, .normal (asBytes "wal-+5.log")] = some 5
      ∧ fileName 5 = "wal-00000005.log"
      ∧ ∃ (listing : Listing) (infos : List SegmentInfo),
        listing.entries
          = [.ok (asBytes "wal-00000005.log"), .ok (asBytes "wal-+5.log")]
        ∧ list [.root] (.ok listing.entries) = .ok infos
        ∧ infos.map SegmentInfo.id = [5, 5]
        ∧ ¬ Ascending SegmentInfo.id infos
        ∧ ¬ OneToOne [.root] listing := by
  have hplus : parseId (Path.join [.root] (asBytes "wal-+5.log")) = some 5 :=
    parseId_eq_some.mpr
      ⟨['+', '5'], ['5'], rfl, .inr rfl, by decide, by decide, by decide⟩
  have hdigits : padded 8 (5 : UInt64).toNat
      = ['0', '0', '0', '0', '0', '0', '0', '5'] := by decide
  have hname : fileName 5 = "wal-00000005.log" := by
    rw [fileName, hdigits]
    rfl
  have hne : asBytes "wal-00000005.log" ≠ asBytes "wal-+5.log" := by
    rw [ne_eq, asBytes_inj]
    decide
  have hpadded := parseId_fileName [.root] 5
  rw [hname] at hpadded
  let listing : Listing :=
    ⟨[.ok (asBytes "wal-00000005.log"), .ok (asBytes "wal-+5.log")],
      List.nodup_cons.mpr ⟨fun hin => hne (List.mem_singleton.mp hin),
        List.nodup_singleton _⟩⟩
  have hlist : list [.root] (.ok listing.entries)
      = .ok [⟨5, Path.join [.root] (asBytes "wal-00000005.log")⟩,
        ⟨5, Path.join [.root] (asBytes "wal-+5.log")⟩] := by
    simp only [list, listing, collect, hpadded, hplus]
    exact congrArg Except.ok (List.mergeSort_of_pairwise (by simp))
  refine ⟨hplus, hname, listing, _, rfl, hlist, rfl, by simp [Ascending],
    fun h => ?_⟩
  exact absurd (h.ascending _ hlist) (by simp [Ascending])

end Wal.Names

end Tsdb
