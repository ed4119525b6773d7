/-
What `serde_json` may be: formats for segments.

The store writes and reads segments through `serde_json`, which stands in
the model as a parameter (`Json`) with two properties: it reads back what
it wrote (`Json.Lawful`), and writing does not fail (`Json.Total`). Every
theorem about the store is for all such parameters. This module has ones
to run it with.

# A table of texts

`Json.knowing` writes the segments of a table as the texts given for them,
and every other segment as a number of zero bytes, by the code of the
segment. The texts start with a brace, so no two segments are written
alike, whatever the table: within the table by what is asked of it,
outside because the code is injective (`Segment.code_injective`), and
across because no zero byte is a brace. That is `knowing_lawful`;
`knowing_total` needs nothing, since every segment has a text.

With the texts `serde_json` has for its segments, the format is
`serde_json` wherever a run keeps to the table (`Json.sample`). The
reading of a text of the table looks it up, so a run over it computes, and
no number is decoded on the way.

# The runs that use it

The table of `Json.sample` has the segments of one sample of one series,
at the timestamps the runs write. Their texts are what the source's
`Segment` derives: the members in the order of the fields, a label with
its name and its value, a sample as its timestamp and its value's bits.
-/
import Mathlib.Logic.Equiv.List
import Tsdb.Storage.Segment

namespace Tsdb

open Lib (Bytes)

/-- `to_vec` does not fail. -/
def Json.Total (json : Json) : Prop :=
  ∀ seg, ∃ bytes, json.toVec seg = some bytes

/-- A segment as numbers. -/
def Segment.code (seg : Segment) :
    List (List (List Nat × List Nat) × List (Nat × Nat)) :=
  seg.series.map fun series =>
    (series.labels.labels.map fun l =>
      (l.name.toList.map Char.toNat, l.value.toList.map Char.toNat),
    series.samples.map fun sample => (sample.1.toNat, sample.2.toNat))

theorem Segment.code_injective : Function.Injective Segment.code := by
  have hchars : Function.Injective fun s : String => s.toList.map Char.toNat :=
    (List.map_injective_iff.mpr fun c c' h => Char.toNat_inj.mp h).comp
      fun s s' h => String.toList_inj.mp h
  have hlabel : Function.Injective fun l : Label =>
      (l.name.toList.map Char.toNat, l.value.toList.map Char.toNat) := by
    intro l l' h
    obtain ⟨name, value⟩ := l
    obtain ⟨name', value'⟩ := l'
    obtain ⟨hname, hvalue⟩ := Prod.mk.inj h
    obtain rfl : name = name' := hchars hname
    obtain rfl : value = value' := hchars hvalue
    rfl
  have hsample : Function.Injective fun sample : UInt64 × UInt64 =>
      (sample.1.toNat, sample.2.toNat) := by
    intro sample sample' h
    obtain ⟨htime, hvalue⟩ := Prod.mk.inj h
    exact Prod.ext (UInt64.toNat_inj.mp htime) (UInt64.toNat_inj.mp hvalue)
  intro seg seg' h
  obtain ⟨series⟩ := seg
  obtain ⟨series'⟩ := seg'
  refine congrArg Segment.mk (List.map_injective_iff.mpr ?_ h)
  intro s s' h
  obtain ⟨⟨labels⟩, samples⟩ := s
  obtain ⟨⟨labels'⟩, samples'⟩ := s'
  obtain ⟨hlabels, hsamples⟩ := Prod.mk.inj h
  obtain rfl : labels = labels' := List.map_injective_iff.mpr hlabel hlabels
  obtain rfl : samples = samples' :=
    List.map_injective_iff.mpr hsample hsamples
  rfl

section

variable (known : List (Segment × Bytes))

/-- A text that stands in no table. -/
def Segment.zeros (seg : Segment) : Bytes :=
  .replicate (Encodable.encode seg.code) 0

theorem Segment.zeros_injective : Function.Injective Segment.zeros := by
  intro seg seg' h
  have hlen := congrArg List.length h
  rw [zeros, zeros, List.length_replicate, List.length_replicate] at hlen
  exact code_injective (Encodable.encode_injective hlen)

theorem Segment.zeros_head (seg : Segment) :
    seg.zeros.head? ≠ some 0x7B := by
  rw [zeros, List.head?_replicate]
  split <;> simp

/-- The format that writes the segments of a table as the table has it. -/
noncomputable def Json.knowing : Json where
  toVec seg := some (((known.find? (·.1 = seg)).map Prod.snd).getD seg.zeros)
  fromSlice text :=
    match known.find? (·.2 = text) with
    | some e => some e.1
    | none => Function.partialInv Segment.zeros text

variable {known}

theorem Json.knowing_total : (Json.knowing known).Total := fun _ => ⟨_, rfl⟩

theorem Json.knowing_lawful (htexts : (known.map Prod.snd).Nodup)
    (hbrace : ∀ e ∈ known, e.2.head? = some 0x7B) :
    (Json.knowing known).Lawful := by
  intro seg bytes h
  obtain rfl := Option.some.inj h
  simp only [knowing]
  cases hfind : known.find? (·.1 = seg) with
  | some e =>
      -- a text of the table: it is looked up, and stands there once
      have he := List.mem_of_find?_eq_some hfind
      have hseg : e.1 = seg := by simpa using List.find?_some hfind
      rw [Option.map_some, Option.getD_some]
      cases hback : known.find? (·.2 = e.2) with
      | none =>
          have hmissed := List.find?_eq_none.mp hback e he
          simp at hmissed
      | some e' =>
          have htext : e'.2 = e.2 := by simpa using List.find?_some hback
          have hsame : e' = e := List.inj_on_of_nodup_map htexts
            (List.mem_of_find?_eq_some hback) he htext
          exact congrArg some (hsame ▸ hseg)
  | none =>
      rw [Option.map_none, Option.getD_none]
      have hback : known.find? (·.2 = seg.zeros) = none := by
        rw [List.find?_eq_none]
        intro e he heq
        have htext : e.2 = seg.zeros := by simpa using heq
        exact seg.zeros_head (htext ▸ hbrace e he)
      rw [hback]
      exact Function.partialInv_left Segment.zeros_injective seg

end

/-- A segment with one sample, at time `t`. -/
def Segment.sample (t : UInt64) : Segment :=
  ⟨[⟨⟨[⟨"host", "a"⟩]⟩, [(t, 7)]⟩]⟩

/-- What `serde_json` makes of it. -/
def Segment.sampleText (t : String) : Bytes :=
  ("\x7b\"series\":[\x7b\"labels\":\x7b\"labels\":[\x7b\"name\":\"host\","
    ++ "\"value\":\"a\"\x7d]\x7d,\"samples\":[[" ++ t
    ++ ",7]]\x7d]\x7d").toList.map fun c => UInt8.ofNat c.toNat

/-- `serde_json`, as far as these segments go. -/
noncomputable def Json.sample : Json :=
  .knowing [(.sample 5, Segment.sampleText "5"),
    (.sample 8, Segment.sampleText "8")]

theorem Json.sample_lawful : Json.sample.Lawful :=
  Json.knowing_lawful (by decide +kernel) (by decide +kernel)

theorem Json.sample_total : Json.sample.Total := Json.knowing_total

end Tsdb
