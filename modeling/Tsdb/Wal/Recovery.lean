/-
Recovery (`replay` of `storage/wal/reader.rs`): read every segment file
in id order, decode its records and hand them to the sink; cut what is
torn off the end of the last file, refuse anything torn elsewhere.

# What replay does

`Recovers segs recs` is the condition under which replay succeeds, and
with which records: every file but the last is whole records, the last
one starts with whole records, and all of them decode. `replay_ok` and
`replay_error` together say that this is all there is to it, with the
report, the sink and the directory left behind.

# How the proof goes

There are two loops, over the records of a file and over the files, and
what they have in hand is one structure (`Replaying`). The inner loop
follows the scan of the file's bytes into frames. Its three lemmas are one
for each way a scan goes on: it is at the end (`replaySegment_done`),
there is a frame (`replaySegment_frame`), there is something else
(`replaySegment_bad`). By induction on the frames, a file either decodes
(`replaySegment_decodes`) or has a record that does not
(`replaySegment_undecodable`).

The outer loop follows `Recovers`, whose constructors are the cases of the
list of files: the last file, and one with another behind it. Torn bytes
are an error in the latter and a repair in the former. That one of the
two results applies is decided by the files alone, so success and failure
are each other's negation and no file is half replayed into a success.

# What is left behind

Everything replay does to a directory is `repair`: the last file cut
behind its whole records. On an error nothing has been changed. The sink
has seen the records up to the error, so what a sink keeps is stated for
both results (`replay_keeps`).
-/
import Tsdb.Wal.Reader

namespace Tsdb.Wal

open Lib (Bytes Framing)

variable {σ : Type}

-- ================================================================ replay

structure RecoveryReport where
  segments : Nat := 0
  lastSegment : Option Nat := none
  records : Nat := 0
  truncated : Option (Nat × Nat × Nat) := none
  series : ResolveStats := {}
deriving DecidableEq, Repr

/-- The id `Wal::open` gives the segment it creates. -/
def nextId (lastSegment : Option Nat) : Nat :=
  match lastSegment with
  | none => 1
  | some id => id + 1

/-- What `replay` has in hand: the files, the report so far, the resolver
and the sink. -/
structure Replaying (σ : Type) where
  dir : Dir
  report : RecoveryReport
  resolver : Resolver
  sink : σ

/-- Take in one decoded record. -/
def Replaying.absorb (ops : ReplaySink σ) (st : Replaying σ)
    (rec : WalRecord) : Replaying σ :=
  let (resolver, sink) := Resolver.apply ops (st.resolver, st.sink) rec
  { st with
    resolver, sink
    report := { st.report with records := st.report.records + 1 } }

/-- The loop over the records of one file. -/
def replaySegment (ops : ReplaySink σ) (seg : SegmentFile) (r : FileReader)
    (offset : Nat) (st : Replaying σ) : Except WalError Unit × Replaying σ :=
  match _h : readRecord r with
  | (.ok none, _) => (.ok (), st)
  | (.ok (some (kind, payload)), r') =>
      match decode kind payload with
      | .error e => (.error (.corrupt seg.id offset (.invalidPayload e)), st)
      | .ok rec =>
          replaySegment ops seg r'
            (offset + (RecordHeader.encodedLen + payload.length))
            (st.absorb ops rec)
  | (.error reason, _) =>
      if some seg.id = st.report.lastSegment then
        let (dropped, dir) := truncate st.dir seg offset
        (.ok (), { st with
          dir
          report := { st.report with
            truncated := some (seg.id, offset, dropped) } })
      else (.error (.corrupt seg.id offset reason), st)
termination_by r.left.length
decreasing_by
  have hnext := readRecord_eq r
  rw [_h] at hnext
  split at hnext
  · cases hnext
  · cases hnext
  · rename_i hf
    rw [hnext.2]
    exact Framing.rest_length_lt hf

/-- The loop over the files; `reads` is how each of them hands out its
bytes. -/
def replaySegments (ops : ReplaySink σ) (reads : Nat → Nat → Nat) :
    List SegmentFile → Replaying σ → Except WalError Unit × Replaying σ
  | [], st => (.ok (), st)
  | seg :: segs, st =>
      match replaySegment ops seg ⟨seg.bytes, reads seg.id⟩ 0 st with
      | (.error e, st) => (.error e, st)
      | (.ok (), st) => replaySegments ops reads segs st

/-- `reader::replay`: the result, the directory and the sink left
behind. -/
def replay (ops : ReplaySink σ) (reads : Nat → Nat → Nat) (dir : Dir)
    (sink : σ) : Except WalError RecoveryReport × Dir × σ :=
  let segments := list dir
  let report : RecoveryReport :=
    { segments := segments.length
      lastSegment := segments.getLast?.map SegmentFile.id }
  match replaySegments ops reads segments
      { dir, report, resolver := {}, sink } with
  | (.error e, st) => (.error e, st.dir, st.sink)
  | (.ok (), st) =>
      (.ok { st.report with series := st.resolver.finish }, st.dir, st.sink)

/-- What taking in a record keeps, and truncating a file, the loops keep. -/
private theorem replaySegments_keeps (ops : ReplaySink σ)
    {P : Replaying σ → Prop}
    (habsorb : ∀ st rec, P st → P (st.absorb ops rec))
    (htruncate : ∀ (st : Replaying σ) dir truncated, P st →
      P { st with dir, report := { st.report with truncated } })
    (reads : Nat → Nat → Nat) (segs : List SegmentFile) (st : Replaying σ)
    (h : P st) : P (replaySegments ops reads segs st).2 := by
  have hsegment : ∀ seg r offset (st : Replaying σ), P st →
      P (replaySegment ops seg r offset st).2 := by
    intro seg r offset st h
    fun_induction replaySegment ops seg r offset st with
    | case1 => exact h
    | case2 => exact h
    | case3 _ _ st _ _ _ _ rec _ ih => exact ih (habsorb st rec h)
    | case4 => exact htruncate _ _ _ h
    | case5 => exact h
  induction segs generalizing st with
  | nil => exact h
  | cons seg segs ih =>
      have hfirst := hsegment seg ⟨seg.bytes, reads seg.id⟩ 0 st h
      unfold replaySegments
      split
      · rename_i heq
        rwa [heq] at hfirst
      · rename_i heq
        rw [heq] at hfirst
        exact ih _ hfirst

/-- What the calls of a sink keep, a replay keeps, whatever it finds. -/
theorem replay_keeps (ops : ReplaySink σ) {P : σ → Prop}
    (hseries : ∀ ls sink, P sink → P (ops.series ls sink).2)
    (hsamples : ∀ id xs sink, P sink → P (ops.samples id xs sink))
    (reads : Nat → Nat → Nat) (dir : Dir) {sink : σ} (h : P sink) :
    P (replay ops reads dir sink).2.2 := by
  have hall := replaySegments_keeps ops (P := fun st => P st.sink)
    (fun st rec h => Resolver.apply_keeps ops hseries hsamples
      (st.resolver, st.sink) rec h)
    (fun _ _ _ h => h) reads (list dir) {
      dir
      report := {
        segments := (list dir).length
        lastSegment := (list dir).getLast?.map SegmentFile.id }
      resolver := {}
      sink } h
  unfold replay
  simp only
  split
  · rename_i heq
    rwa [heq] at hall
  · rename_i heq
    rwa [heq] at hall

/-- With no segment there is nothing to replay. -/
theorem replay_none (ops : ReplaySink σ) {reads : Nat → Nat → Nat}
    {dir dir' : Dir} {sink sink' : σ} {report : RecoveryReport}
    (h : replay ops reads dir sink = (.ok report, dir', sink'))
    (hlast : report.lastSegment = none) : sink' = sink := by
  have hkept := replaySegments_keeps ops
    (P := fun st => st.report.lastSegment
      = (list dir).getLast?.map SegmentFile.id)
    (fun _ _ h => h) (fun _ _ _ h => h) reads (list dir) {
      dir
      report := {
        segments := (list dir).length
        lastSegment := (list dir).getLast?.map SegmentFile.id }
      resolver := {}
      sink } rfl
  unfold replay at h
  simp only at h
  split at h
  · cases h
  · rename_i st heq
    rw [heq] at hkept
    cases h
    rw [hkept, Option.map_eq_none_iff, List.getLast?_eq_none_iff] at hlast
    rw [hlast] at heq
    cases heq
    rfl

-- ========================================================= recoverability

/-- The records decode, to `recs`. -/
def Decodes (items : List (RecordKind × Bytes)) (recs : List WalRecord) :
    Prop :=
  List.Forall₂ (fun item rec => decode item.1 item.2 = .ok rec) items recs

/-- The bytes are whole records that decode, to `recs`. -/
def Whole (bytes : Bytes) (recs : List WalRecord) : Prop :=
  ∃ items, records.Framed bytes items ∧ Decodes items recs

/-- Replay of these files, in this order, succeeds with `recs`. -/
inductive Recovers : List SegmentFile → List WalRecord → Prop
  | none : Recovers [] []
  | last {seg : SegmentFile} {recs : List WalRecord} :
      Decodes (records.scan seg.bytes).items recs → Recovers [seg] recs
  | more {seg next : SegmentFile} {segs : List SegmentFile}
      {recs recs' : List WalRecord} :
      Whole seg.bytes recs → Recovers (next :: segs) recs' →
        Recovers (seg :: next :: segs) (recs ++ recs')

/-- What `report.truncated` is to say: the leftover of the last file. -/
def torn (segs : List SegmentFile) : Option (Nat × Nat × Nat) :=
  segs.getLast?.bind fun seg =>
    let s := records.scan seg.bytes
    if s.stop = none then none
    else some (seg.id, s.used.length, seg.bytes.length - s.used.length)

/-- Cut a file to its leading whole records. -/
def SegmentFile.cutTorn (f : SegmentFile) : SegmentFile :=
  { f with bytes := (records.scan f.bytes).used }

/-- The directory with its last file cut. -/
def repair (dir : Dir) : Dir :=
  match (list dir).getLast? with
  | none => dir
  | some seg => dir.map fun f => if f.id = seg.id then f.cutTorn else f

theorem Decodes.append {items items' : List (RecordKind × Bytes)}
    {recs recs' : List WalRecord} (h : Decodes items recs)
    (h' : Decodes items' recs') : Decodes (items ++ items') (recs ++ recs') :=
  List.rel_append h h'

theorem Whole.nil : Whole [] [] := ⟨[], .nil, .nil⟩

/-- There are no bytes where there are no records, and no others. -/
theorem Whole.eq_nil_iff {bytes : Bytes} {recs : List WalRecord}
    (h : Whole bytes recs) : bytes = [] ↔ recs = [] := by
  obtain ⟨items, hf, hd⟩ := h
  constructor
  · intro hnil
    have hscan := hf.scan
    rw [hnil, Framing.scan_nil] at hscan
    cases hscan
    cases hd
    rfl
  · intro hnil
    subst hnil
    cases hd
    cases hf
    rfl

theorem Whole.append {us vs : Bytes} {recs recs' : List WalRecord}
    (h : Whole us recs) (h' : Whole vs recs') :
    Whole (us ++ vs) (recs ++ recs') := by
  obtain ⟨items, hf, hd⟩ := h
  obtain ⟨items', hf', hd'⟩ := h'
  exact ⟨items ++ items', hf.append hf', hd.append hd'⟩

/-- A file of whole records may stand last, too. -/
theorem Whole.scan {bytes : Bytes} {recs : List WalRecord}
    (h : Whole bytes recs) : Decodes (records.scan bytes).items recs := by
  obtain ⟨items, hf, hd⟩ := h
  rw [hf.scan]
  exact hd

/-- What a scan used is whole. -/
theorem Decodes.whole_used {bytes : Bytes} {recs : List WalRecord}
    (h : Decodes (records.scan bytes).items recs) :
    Whole (records.scan bytes).used recs :=
  ⟨_, records.scan_framed bytes, h⟩

theorem whole_iff {bytes : Bytes} {recs : List WalRecord} :
    Whole bytes recs ↔ (records.scan bytes).stop = none
      ∧ Decodes (records.scan bytes).items recs := by
  constructor
  · intro h
    refine ⟨?_, h.scan⟩
    obtain ⟨items, hf, -⟩ := h
    rw [hf.scan]
  · rintro ⟨hstop, hd⟩
    have := hd.whole_used
    rwa [Framing.stop_eq_none.mp hstop] at this

-- =============================================================== the loop

section Loop

variable (ops : ReplaySink σ)

/-- Take in records one after the other. -/
def Replaying.absorbAll (st : Replaying σ) (recs : List WalRecord) :
    Replaying σ :=
  recs.foldl (Replaying.absorb ops) st

theorem Replaying.absorbAll_eq (st : Replaying σ) (recs : List WalRecord) :
    st.absorbAll ops recs
      = { dir := st.dir
          report := { st.report with
            records := st.report.records + recs.length }
          resolver :=
            (Resolver.applyAll ops (st.resolver, st.sink) recs).1
          sink := (Resolver.applyAll ops (st.resolver, st.sink) recs).2 } := by
  induction recs generalizing st with
  | nil => rfl
  | cons rec recs ih =>
      show (st.absorb ops rec).absorbAll ops recs = _
      rw [ih]
      simp only [Replaying.absorb, Resolver.applyAll_cons, List.length_cons,
        Nat.add_assoc, Nat.add_comm recs.length 1]

/-- At the end of the file the loop stops. -/
private theorem replaySegment_done {seg : SegmentFile} {r : FileReader}
    {offset : Nat} {st : Replaying σ} (h : r.left = []) :
    replaySegment ops seg r offset st = (.ok (), st) := by
  have hnext := readRecord_eq r
  rw [h, records.next_nil] at hnext
  rw [replaySegment]
  split
  · rfl
  · rename_i hr
    rw [hr] at hnext
    cases hnext
  · rename_i hr
    rw [hr] at hnext
    cases hnext

/-- Something that is not a record is cut off the last file, and is an
error in any other. -/
private theorem replaySegment_bad {seg : SegmentFile} {r : FileReader}
    {offset : Nat} {st : Replaying σ} {why : Corruption}
    (h : records.next r.left = .bad why) :
    replaySegment ops seg r offset st
      = if some seg.id = st.report.lastSegment then
          (.ok (), { st with
            dir := (truncate st.dir seg offset).2
            report := { st.report with
              truncated := some
                (seg.id, offset, (truncate st.dir seg offset).1) } })
        else (.error (.corrupt seg.id offset why), st) := by
  have hnext := readRecord_eq r
  rw [h] at hnext
  rw [replaySegment]
  split
  · rename_i hr
    rw [hr] at hnext
    cases hnext
  · rename_i hr
    rw [hr] at hnext
    cases hnext
  · rename_i hr
    rw [hr] at hnext
    cases hnext
    rfl

/-- A record is decoded and taken in. -/
private theorem replaySegment_frame (seg : SegmentFile) {r : FileReader}
    (offset : Nat) (st : Replaying σ) {used rest : Bytes}
    {item : RecordKind × Bytes} (hf : records.IsFrame used item)
    (h : r.left = used ++ rest) :
    ∃ r' : FileReader, r'.left = rest
      ∧ replaySegment ops seg r offset st
        = match decode item.1 item.2 with
          | .error e =>
              (.error (.corrupt seg.id offset (.invalidPayload e)), st)
          | .ok rec =>
              replaySegment ops seg r' (offset + used.length)
                (st.absorb ops rec) := by
  have hnext := readRecord_eq r
  rw [h, hf.2] at hnext
  refine ⟨(readRecord r).2, hnext.2, ?_⟩
  rw [replaySegment]
  split
  · rename_i hr
    rw [hr] at hnext
    cases hnext.1
  · rename_i kind payload r' hr
    rw [hr] at hnext ⊢
    cases hnext.1
    rw [frame_length hf]
  · rename_i hr
    rw [hr] at hnext
    cases hnext.1

/-- Whole records that decode are all taken in. -/
private theorem replaySegment_frames (seg : SegmentFile)
    {us rest : Bytes} {items : List (RecordKind × Bytes)}
    {recs : List WalRecord} (hf : records.Framed us items)
    (hd : Decodes items recs) {r : FileReader} (offset : Nat)
    (st : Replaying σ) (h : r.left = us ++ rest) :
    ∃ r' : FileReader, r'.left = rest
      ∧ replaySegment ops seg r offset st
        = replaySegment ops seg r' (offset + us.length)
            (st.absorbAll ops recs) := by
  induction hf generalizing recs r offset st with
  | nil =>
      cases hd
      exact ⟨r, h, rfl⟩
  | @cons used ts item items hframe _ ih =>
      cases hd with
      | @cons _ rec _ recs hdec hd =>
          rw [List.append_assoc] at h
          obtain ⟨r₁, hr₁, heq₁⟩ :=
            replaySegment_frame ops seg offset st hframe h
          obtain ⟨r₂, hr₂, heq₂⟩ := ih hd _ (st.absorb ops rec) hr₁
          refine ⟨r₂, hr₂, ?_⟩
          rw [heq₁, hdec]
          simp only
          rw [heq₂, List.length_append, Nat.add_assoc]
          rfl

/-- Either all items decode, or there is a first that does not. -/
private theorem decodes_or (items : List (RecordKind × Bytes)) :
    (∃ recs, Decodes items recs) ∨
      ∃ good item more recs e, items = good ++ item :: more
        ∧ Decodes good recs ∧ decode item.1 item.2 = .error e := by
  induction items with
  | nil => exact Or.inl ⟨[], .nil⟩
  | cons item items ih =>
      cases hdec : decode item.1 item.2 with
      | error e => exact Or.inr ⟨[], item, items, [], e, rfl, .nil, hdec⟩
      | ok rec =>
          rcases ih with ⟨recs, hd⟩ | ⟨good, bad, more, recs, e, rfl, hd, he⟩
          · exact Or.inl ⟨rec :: recs, .cons hdec hd⟩
          · exact Or.inr ⟨item :: good, bad, more, rec :: recs, e, rfl,
              .cons hdec hd, he⟩

/-- A file that has a record that does not decode is an error, and the
directory is as it was. -/
private theorem replaySegment_undecodable (seg : SegmentFile)
    (r : FileReader) (st : Replaying σ) (hr : r.left = seg.bytes)
    (h : ∀ recs, ¬Decodes (records.scan seg.bytes).items recs) :
    ∃ offset why st', replaySegment ops seg r 0 st
        = (.error (.corrupt seg.id offset why), st')
      ∧ st'.dir = st.dir := by
  rcases decodes_or (records.scan seg.bytes).items with
    ⟨recs, hd⟩ | ⟨good, item, more, recs, e, heq, hd, he⟩
  · exact absurd hd (h recs)
  · have hf := records.scan_framed seg.bytes
    rw [heq] at hf
    obtain ⟨us, vs, hus, hgood, hbad⟩ := hf.split
    obtain ⟨tail, hsplit, -, -⟩ := records.scan_split seg.bytes
    cases hbad with
    | @cons used ts _ _ hframe _ =>
        rw [hus] at hsplit
        have hleft : r.left = us ++ (used ++ (ts ++ tail)) := by
          rw [hr, hsplit]
          simp only [List.append_assoc]
        obtain ⟨r₁, hr₁, heq₁⟩ :=
          replaySegment_frames ops seg hgood hd 0 st hleft
        obtain ⟨r₂, -, heq₂⟩ := replaySegment_frame ops seg (0 + us.length)
          (st.absorbAll ops recs) hframe hr₁
        refine ⟨0 + us.length, .invalidPayload e, st.absorbAll ops recs,
          ?_, ?_⟩
        · rw [heq₁, heq₂, he]
        · rw [Replaying.absorbAll_eq]

/-- A file that decodes is taken in, and its leftover is cut off if it is
the last file, refused if not. -/
private theorem replaySegment_decodes (seg : SegmentFile) (r : FileReader)
    (st : Replaying σ) {recs : List WalRecord} (hr : r.left = seg.bytes)
    (hd : Decodes (records.scan seg.bytes).items recs) :
    let s := records.scan seg.bytes
    let st' := st.absorbAll ops recs
    replaySegment ops seg r 0 st
      = match s.stop with
        | none => (.ok (), st')
        | some why =>
            if some seg.id = st.report.lastSegment then
              (.ok (), { st' with
                dir := (truncate st.dir seg s.used.length).2
                report := { st'.report with
                  truncated := some (seg.id, s.used.length,
                    seg.bytes.length - s.used.length) } })
            else (.error (.corrupt seg.id s.used.length why), st') := by
  intro s st'
  obtain ⟨tail, hsplit, hnone, hbad⟩ := records.scan_split seg.bytes
  obtain ⟨r', hr', heq⟩ := replaySegment_frames ops seg
    (records.scan_framed seg.bytes) hd 0 st (hr.trans hsplit)
  rw [heq, Nat.zero_add]
  have hlast : (st.absorbAll ops recs).report.lastSegment
      = st.report.lastSegment := by
    rw [Replaying.absorbAll_eq]
  have hdir : (st.absorbAll ops recs).dir = st.dir := by
    rw [Replaying.absorbAll_eq]
  cases hstop : s.stop with
  | none =>
      rw [hnone.mp hstop] at hr'
      rw [replaySegment_done ops hr']
  | some why =>
      have hnext := hbad why hstop
      rw [← hr'] at hnext
      rw [replaySegment_bad ops hnext, hlast, hdir]
      rfl

/-- The state behind a successful pass over `segs`. -/
private def passed (st : Replaying σ) (segs : List SegmentFile)
    (recs : List WalRecord) : Replaying σ :=
  let st := st.absorbAll ops recs
  match segs.getLast? with
  | none => st
  | some seg =>
      let s := records.scan seg.bytes
      if s.stop = none then st
      else { st with
        dir := (truncate st.dir seg s.used.length).2
        report := { st.report with
          truncated := some (seg.id, s.used.length,
            seg.bytes.length - s.used.length) } }

private theorem replaySegments_ok (reads : Nat → Nat → Nat)
    {segs : List SegmentFile} {recs : List WalRecord}
    (h : Recovers segs recs) {st : Replaying σ}
    (hlast : st.report.lastSegment = segs.getLast?.map SegmentFile.id) :
    replaySegments ops reads segs st = (.ok (), passed ops st segs recs) := by
  induction h generalizing st with
  | none => rfl
  | @last seg recs hd =>
      have heq := replaySegment_decodes ops seg ⟨seg.bytes, reads seg.id⟩ st
        rfl hd
      rw [replaySegments, heq]
      cases hstop : (records.scan seg.bytes).stop with
      | none => simp [replaySegments, passed, hstop]
      | some why =>
          simp [replaySegments, passed, hstop, hlast,
            Replaying.absorbAll_eq]
  | @more seg next segs recs recs' hw _ ih =>
      obtain ⟨hstop, hd⟩ := whole_iff.mp hw
      have heq := replaySegment_decodes ops seg ⟨seg.bytes, reads seg.id⟩ st
        rfl hd
      simp only [hstop] at heq
      rw [replaySegments, heq]
      simp only
      rw [ih (by rw [Replaying.absorbAll_eq, hlast,
        List.getLast?_cons_cons])]
      simp only [passed, List.getLast?_cons_cons, Replaying.absorbAll,
        List.foldl_append]

/-- Files that do not recover are an error at the first one that has a
record which does not decode, or that is torn with another file behind it.
Up to there nothing has been truncated, since only the last file ever is. -/
private theorem replaySegments_error (reads : Nat → Nat → Nat)
    {segs : List SegmentFile} (hnd : (segs.map SegmentFile.id).Nodup)
    (h : ∀ recs, ¬Recovers segs recs) {st : Replaying σ}
    (hlast : st.report.lastSegment = segs.getLast?.map SegmentFile.id) :
    ∃ id offset why st', replaySegments ops reads segs st
        = (.error (.corrupt id offset why), st')
      ∧ st'.dir = st.dir := by
  induction segs generalizing st with
  | nil => exact absurd .none (h [])
  | cons seg segs ih =>
      rw [replaySegments]
      -- this file decodes, or the error is here
      by_cases hd : ∃ recs, Decodes (records.scan seg.bytes).items recs
      · obtain ⟨recs, hd⟩ := hd
        have heq := replaySegment_decodes ops seg ⟨seg.bytes, reads seg.id⟩
          st rfl hd
        have hdir : (st.absorbAll ops recs).dir = st.dir := by
          rw [Replaying.absorbAll_eq]
        cases segs with
        | nil => exact absurd (.last hd) (h recs)
        | cons next segs =>
            rw [heq]
            cases hstop : (records.scan seg.bytes).stop with
            | none =>
                have hw : Whole seg.bytes recs := whole_iff.mpr ⟨hstop, hd⟩
                simp only
                rw [← hdir]
                refine ih (List.nodup_cons.mp hnd).2
                  (fun recs' hr => h _ (.more hw hr)) ?_
                rw [Replaying.absorbAll_eq, hlast, List.getLast?_cons_cons]
            | some why =>
                -- an id of its own: this is not the last file
                have hne : ¬some seg.id = st.report.lastSegment := by
                  rw [hlast, List.getLast?_cons_cons]
                  intro he
                  refine (List.nodup_cons.mp hnd).1 ?_
                  obtain ⟨last, hl, hid⟩ := Option.map_eq_some_iff.mp he.symm
                  rw [← hid]
                  exact List.mem_map_of_mem (List.mem_of_getLast? hl)
                simp only [if_neg hne]
                exact ⟨_, _, _, _, rfl, hdir⟩
      · obtain ⟨offset, why, st', heq, hdir⟩ := replaySegment_undecodable ops
          seg ⟨seg.bytes, reads seg.id⟩ st rfl
          (fun recs hr => hd ⟨recs, hr⟩)
        rw [heq]
        exact ⟨_, _, _, _, rfl, hdir⟩

end Loop

-- ============================================================ the results

/-- Cutting at the end of the whole records is the repair. -/
private theorem truncate_eq_repair {dir : Dir} {seg : SegmentFile}
    (hnd : (dir.map SegmentFile.id).Nodup)
    (hlast : (list dir).getLast? = some seg) :
    (truncate dir seg (records.scan seg.bytes).used.length).2
      = repair dir := by
  have hmem : seg ∈ dir :=
    (list_perm dir).subset (List.mem_of_getLast? hlast)
  rw [repair, hlast, truncate]
  refine List.map_congr_left fun f hf => ?_
  by_cases hid : f.id = seg.id
  · have hfs : f = seg := List.inj_on_of_nodup_map hnd hf hmem hid
    have hpre := records.used_prefix seg.bytes
    rw [if_pos hid, if_pos hid, hfs, SegmentFile.cutTorn, setLen,
      ← List.prefix_iff_eq_take.mp hpre, Nat.sub_eq_zero_of_le hpre.length_le,
      List.replicate_zero, List.append_nil]
  · rw [if_neg hid, if_neg hid]

/-- With nothing to cut, the repair changes nothing. -/
theorem repair_of_stop {dir : Dir} {seg : SegmentFile}
    (hnd : (dir.map SegmentFile.id).Nodup)
    (hlast : (list dir).getLast? = some seg)
    (hstop : (records.scan seg.bytes).stop = none) : repair dir = dir := by
  have hmem : seg ∈ dir :=
    (list_perm dir).subset (List.mem_of_getLast? hlast)
  rw [repair, hlast]
  refine (List.map_congr_left fun f hf => ?_).trans (List.map_id _)
  by_cases hid : f.id = seg.id
  · have hfs : f = seg := List.inj_on_of_nodup_map hnd hf hmem hid
    rw [if_pos hid, hfs, SegmentFile.cutTorn, Framing.stop_eq_none.mp hstop]
    rfl
  · rw [if_neg hid]
    rfl

/-- What a successful replay reports. -/
def reportOf (ops : ReplaySink σ) (dir : Dir) (recs : List WalRecord)
    (sink : σ) : RecoveryReport where
  segments := dir.length
  lastSegment := (list dir).getLast?.map SegmentFile.id
  records := recs.length
  truncated := torn (list dir)
  series := (Resolver.applyAll ops ({}, sink) recs).1.finish

/-- A recoverable directory: replay succeeds, hands over exactly its
records, and repairs it. -/
theorem replay_ok (ops : ReplaySink σ) (reads : Nat → Nat → Nat)
    {dir : Dir} {recs : List WalRecord}
    (hnd : (dir.map SegmentFile.id).Nodup) (h : Recovers (list dir) recs)
    (sink : σ) :
    replay ops reads dir sink
      = (.ok (reportOf ops dir recs sink), repair dir,
        (Resolver.applyAll ops ({}, sink) recs).2) := by
  rw [replay]
  simp only
  rw [replaySegments_ok ops reads h rfl]
  simp only [passed, reportOf, torn]
  have hlen : (list dir).length = dir.length := (list_perm dir).length_eq
  cases hlast : (list dir).getLast? with
  | none =>
      rw [repair, hlast]
      simp [Replaying.absorbAll_eq, hlen]
  | some seg =>
      by_cases hstop : (records.scan seg.bytes).stop = none
      · simp [Replaying.absorbAll_eq, hlen, hstop,
          repair_of_stop hnd hlast hstop]
      · simp [Replaying.absorbAll_eq, hlen, hstop,
          truncate_eq_repair hnd hlast]

/-- Any other directory: replay reports corruption and has changed
nothing. -/
theorem replay_error (ops : ReplaySink σ) (reads : Nat → Nat → Nat)
    {dir : Dir} (hnd : (dir.map SegmentFile.id).Nodup)
    (h : ∀ recs, ¬Recovers (list dir) recs) (sink : σ) :
    (∃ id offset why,
        (replay ops reads dir sink).1 = .error (.corrupt id offset why))
      ∧ (replay ops reads dir sink).2.1 = dir := by
  have hnd' : ((list dir).map SegmentFile.id).Nodup :=
    ((list_perm dir).map _).nodup_iff.mpr hnd
  let start : Replaying σ := {
    dir
    report := {
      segments := (list dir).length
      lastSegment := (list dir).getLast?.map SegmentFile.id }
    resolver := {}
    sink }
  have hlast : start.report.lastSegment
      = (list dir).getLast?.map SegmentFile.id := rfl
  obtain ⟨id, offset, why, st', heq, hdir⟩ :=
    replaySegments_error ops reads hnd' h hlast
  rw [replay]
  simp only
  rw [heq]
  exact ⟨⟨id, offset, why, rfl⟩, hdir⟩

end Tsdb.Wal
