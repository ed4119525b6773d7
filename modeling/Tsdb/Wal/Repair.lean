/-
The repair (`replay` of `storage/wal/reader.rs`, once more): what becomes
of a damaged log.

# Idempotence

`Intact segs recs`: every file is whole records. What recovers is intact
once repaired (`Recovers.repaired`), and what is intact recovers with
nothing to cut, also with a fresh file behind it (`Intact.recovers`,
`Intact.torn_eq`, `Intact.fresh`). Hence `replay_repairs`, over arbitrary
bytes: a log that replays once replays again, with the same records and
an empty repair, and `Wal::open` may create its file in between.

The two conditions differ in the last file only, so the proofs split off
that file (`recovers_concat`) and have nothing to say about the others.
Files are compared as they are listed; the repair changes no id, so the
listing of the repaired directory is the repaired listing (`list_repair`).

# Torn tails

A log of encoded records cut at any byte of its last file recovers with
exactly the records wholly below the cut (`replay_torn_tail`). A frame is
recognised by its own bytes, so the records below the cut are scanned as
before; what is left of the next one is a proper prefix of a frame, and
that it is never taken for a record is the framing's `scan_take`. The
leftover is then cut off, with its length in the report.

The records must be such as `append_with` accepts: with ids that are
64-bit words, not empty, and within the size limit. They are then frames
that decode (`accepted_frames`), to themselves as they read back. How the
records are divided into files does not matter, as long as no file but the
last is cut.
-/
import Tsdb.Wal.Recovery

namespace Tsdb.Wal

open Lib (Ascending Bytes Framing)

variable {σ : Type}

-- ========================================================== intact files

/-- Every file is whole. -/
inductive Intact : List SegmentFile → List WalRecord → Prop
  | nil : Intact [] []
  | cons {seg : SegmentFile} {segs : List SegmentFile}
      {recs recs' : List WalRecord} :
      Whole seg.bytes recs → Intact segs recs' →
        Intact (seg :: segs) (recs ++ recs')

theorem Intact.append {segs segs' : List SegmentFile}
    {recs recs' : List WalRecord} (h : Intact segs recs)
    (h' : Intact segs' recs') : Intact (segs ++ segs') (recs ++ recs') := by
  induction h with
  | nil => exact h'
  | cons hw _ ih =>
      rw [List.append_assoc]
      exact .cons hw ih

theorem Intact.single {seg : SegmentFile} {recs : List WalRecord}
    (h : Whole seg.bytes recs) : Intact [seg] recs := by
  have := Intact.cons h .nil
  rwa [List.append_nil] at this

/-- A file created and not yet written to changes nothing. -/
theorem Intact.fresh {segs : List SegmentFile} {recs : List WalRecord}
    (h : Intact segs recs) (id : Nat) :
    Intact (segs ++ [⟨id, []⟩]) recs := by
  have hempty : Intact [⟨id, []⟩] [] := .single Whole.nil
  have := h.append hempty
  rwa [List.append_nil] at this

/-- What recovers is whole up to its last file, which decodes as far as
it goes. -/
theorem recovers_concat {front : List SegmentFile} {last : SegmentFile}
    {recs : List WalRecord} :
    Recovers (front ++ [last]) recs
      ↔ ∃ recs₁ recs₂, Intact front recs₁
          ∧ Decodes (records.scan last.bytes).items recs₂
          ∧ recs = recs₁ ++ recs₂ := by
  induction front generalizing recs with
  | nil =>
      constructor
      · rintro (_ | hd)
        exact ⟨[], recs, .nil, hd, rfl⟩
      · rintro ⟨_, recs₂, ⟨⟩, hd, rfl⟩
        exact .last hd
  | cons seg front ih =>
      obtain ⟨next, segs, hne⟩ : ∃ next segs, front ++ [last] = next :: segs :=
        List.exists_cons_of_ne_nil (by simp)
      rw [List.cons_append, hne]
      constructor
      · intro h
        cases h with
        | more hw hr =>
            rw [← hne, ih] at hr
            obtain ⟨recs₁, recs₂, hi, hd, rfl⟩ := hr
            exact ⟨_, recs₂, .cons hw hi, hd, by rw [List.append_assoc]⟩
      · rintro ⟨_, recs₂, hi, hd, rfl⟩
        cases hi with
        | cons hw hi =>
            rw [List.append_assoc]
            refine .more hw ?_
            rw [← hne, ih]
            exact ⟨_, recs₂, hi, hd, rfl⟩

theorem Intact.recovers {segs : List SegmentFile} {recs : List WalRecord}
    (h : Intact segs recs) : Recovers segs recs := by
  induction h with
  | nil => exact .none
  | @cons seg segs recs recs' hw hi ih =>
      cases segs with
      | nil =>
          cases hi
          rw [List.append_nil]
          exact .last hw.scan
      | cons next segs => exact .more hw ih

theorem Intact.torn_eq {segs : List SegmentFile} {recs : List WalRecord}
    (h : Intact segs recs) : torn segs = none := by
  induction h with
  | nil => rfl
  | @cons seg segs recs recs' hw hi ih =>
      cases segs with
      | nil => simp [torn, (whole_iff.mp hw).1]
      | cons next segs => rwa [torn, List.getLast?_cons_cons]

/-- The condition in terms of the files. -/
theorem recovers_iff {segs : List SegmentFile} :
    (∃ recs, Recovers segs recs)
      ↔ (∀ seg ∈ segs.dropLast, ∃ recs, Whole seg.bytes recs)
        ∧ ∀ seg, segs.getLast? = some seg →
            ∃ recs, Decodes (records.scan seg.bytes).items recs := by
  induction segs with
  | nil => exact ⟨fun _ => by simp, fun _ => ⟨[], .none⟩⟩
  | cons seg segs ih =>
      cases segs with
      | nil =>
          constructor
          · rintro ⟨recs, _ | hd⟩
            exact ⟨by simp, fun _ he => ⟨recs, by
              rw [List.getLast?_singleton, Option.some.injEq] at he
              rwa [← he]⟩⟩
          · rintro ⟨-, h⟩
            obtain ⟨recs, hd⟩ := h seg rfl
            exact ⟨recs, .last hd⟩
      | cons next segs =>
          rw [List.dropLast_cons_cons, List.getLast?_cons_cons]
          constructor
          · rintro ⟨_, hr⟩
            cases hr with
            | more hw hr =>
                obtain ⟨hfront, hlast⟩ := ih.mp ⟨_, hr⟩
                refine ⟨fun f hf => ?_, hlast⟩
                rcases List.mem_cons.mp hf with rfl | hf
                · exact ⟨_, hw⟩
                · exact hfront f hf
          · rintro ⟨hfront, hlast⟩
            obtain ⟨recs, hw⟩ := hfront seg List.mem_cons_self
            obtain ⟨recs', hr⟩ := ih.mpr
              ⟨fun f hf => hfront f (List.mem_cons_of_mem _ hf), hlast⟩
            exact ⟨_, .more hw hr⟩

theorem repair_ids (dir : Dir) :
    (repair dir).map SegmentFile.id = dir.map SegmentFile.id := by
  rw [repair]
  split
  · rfl
  · rw [List.map_map]
    refine List.map_congr_left fun f _ => ?_
    simp only [Function.comp_apply]
    split <;> rfl

/-- The repair on the files as listed. -/
theorem list_repair {dir : Dir} {front : List SegmentFile}
    {last : SegmentFile} (hnd : (dir.map SegmentFile.id).Nodup)
    (h : list dir = front ++ [last]) :
    list (repair dir) = front ++ [last.cutTorn] := by
  have hlast : (list dir).getLast? = some last := by simp [h]
  have hcut : (list dir).map (fun f =>
      if f.id = last.id then f.cutTorn else f) = front ++ [last.cutTorn] := by
    have hnd' : ((front ++ [last]).map SegmentFile.id).Nodup := by
      rw [← h]
      exact ((list_perm dir).map _).nodup_iff.mpr hnd
    rw [h, List.map_append, List.map_singleton, if_pos rfl]
    congr 1
    refine (List.map_congr_left fun f hf => ?_).trans (List.map_id _)
    rw [if_neg]
    · rfl
    · intro hid
      rw [List.map_append, List.nodup_append] at hnd'
      exact hnd'.2.2 f.id (List.mem_map_of_mem hf) last.id (by simp) hid
  rw [repair, hlast, ← hcut]
  refine (List.map_mergeSort fun a _ b _ => ?_).symm
  have hkeep : ∀ f : SegmentFile,
      (if f.id = last.id then f.cutTorn else f).id = f.id := by
    intro f
    split <;> rfl
  rw [hkeep, hkeep]

/-- What recovers is intact once repaired. -/
theorem Recovers.repaired {dir : Dir} {recs : List WalRecord}
    (hnd : (dir.map SegmentFile.id).Nodup) (h : Recovers (list dir) recs) :
    Intact (list (repair dir)) recs := by
  rcases List.eq_nil_or_concat' (list dir) with hnil | ⟨front, last, hcat⟩
  · have hrep : repair dir = dir := by rw [repair, hnil]; rfl
    rw [hnil] at h
    cases h
    rw [hrep, hnil]
    exact .nil
  · rw [hcat, recovers_concat] at h
    obtain ⟨recs₁, recs₂, hi, hd, rfl⟩ := h
    rw [list_repair hnd hcat]
    exact hi.append (.single hd.whole_used)

/-- A new file, above all others, is listed last. -/
theorem list_fresh {dir : Dir} (hnd : (dir.map SegmentFile.id).Nodup)
    {id : Nat} (hid : ∀ f ∈ dir, f.id < id) :
    list (dir ++ [⟨id, []⟩]) = list dir ++ [⟨id, []⟩] := by
  refine list_eq ((list_perm dir).symm.append_right _) ?_
  refine List.pairwise_append.mpr
    ⟨list_ascending hnd, List.pairwise_singleton _ _, ?_⟩
  intro a ha b hb
  rw [List.mem_singleton.mp hb]
  exact hid a ((list_perm dir).subset ha)

-- =========================================================== idempotence

/-- An intact directory needs no repair. -/
theorem Intact.repair_eq {dir : Dir} {recs : List WalRecord}
    (hnd : (dir.map SegmentFile.id).Nodup) (h : Intact (list dir) recs) :
    repair dir = dir := by
  cases hlast : (list dir).getLast? with
  | none => rw [repair, hlast]
  | some seg =>
      refine repair_of_stop hnd hlast ?_
      have htorn := h.torn_eq
      rw [torn, hlast, Option.bind_some] at htorn
      simp only at htorn
      by_contra hstop
      rw [if_neg hstop] at htorn
      cases htorn

/-- Replay of an intact directory: all records, and nothing else
happens. -/
theorem replay_intact (ops : ReplaySink σ) (reads : Nat → Nat → Nat)
    {dir : Dir} {recs : List WalRecord}
    (hnd : (dir.map SegmentFile.id).Nodup) (h : Intact (list dir) recs)
    (sink : σ) :
    ∃ report, replay ops reads dir sink
        = (.ok report, dir, (Resolver.applyAll ops ({}, sink) recs).2)
      ∧ report.truncated = none := by
  refine ⟨reportOf ops dir recs sink, ?_, h.torn_eq⟩
  rw [replay_ok ops reads hnd h.recovers, h.repair_eq hnd]

/-- The records of each file of a directory that recovers. -/
private theorem Recovers.parts {segs : List SegmentFile}
    {recs : List WalRecord} (h : Recovers segs recs) :
    ∃ parts : List (List WalRecord),
      List.Forall₂ (fun seg => Decodes (records.scan seg.bytes).items)
        segs parts
      ∧ recs = parts.flatten := by
  induction h with
  | none => exact ⟨[], .nil, rfl⟩
  | @last seg recs hd => exact ⟨[recs], .cons hd .nil, by simp⟩
  | @more seg next segs recs recs' hw _ ih =>
      obtain ⟨parts, hparts, rfl⟩ := ih
      exact ⟨recs :: parts, .cons hw.scan hparts, rfl⟩

/-- Replay of arbitrary files succeeds exactly if every file but the last is
whole records and the records the last one starts with decode; it then hands
over these records, cuts the last file to them and has nothing left to do a
second time. Otherwise it changes nothing.

The condition is `Recovers`, said of the files. What recovers is intact once
repaired, with the same records, and an intact directory replays to these
with nothing to cut, a fresh file behind it or none. -/
theorem replay_repairs (ops : ReplaySink σ) (reads : Nat → Nat → Nat)
    (dir : Dir) (hnd : (dir.map SegmentFile.id).Nodup) (sink : σ) :
    ((∃ report, (replay ops reads dir sink).1 = .ok report)
      ↔ (∀ seg ∈ (list dir).dropLast, ∃ recs, Whole seg.bytes recs)
        ∧ ∀ seg, (list dir).getLast? = some seg →
            ∃ recs, Decodes (records.scan seg.bytes).items recs)
    ∧ (∀ report dir' sink',
        replay ops reads dir sink = (.ok report, dir', sink') →
          (∃ parts : List (List WalRecord),
            List.Forall₂ (fun seg => Decodes (records.scan seg.bytes).items)
              (list dir) parts
            ∧ sink' = (Resolver.applyAll ops ({}, sink) parts.flatten).2)
          ∧ dir' = repair dir
          ∧ (∀ reads', ∃ again,
              replay ops reads' dir' sink = (.ok again, dir', sink')
                ∧ again.truncated = none)
          ∧ ∀ id, (∀ f ∈ dir, f.id < id) → ∀ reads', ∃ again,
              replay ops reads' (dir' ++ [⟨id, []⟩]) sink
                  = (.ok again, dir' ++ [⟨id, []⟩], sink')
                ∧ again.truncated = none)
    ∧ ∀ e dir' sink',
        replay ops reads dir sink = (.error e, dir', sink') → dir' = dir := by
  have hids : ((repair dir).map SegmentFile.id).Nodup := by
    rwa [repair_ids]
  -- it recovers, or the replay is an error
  by_cases hrec : ∃ recs, Recovers (list dir) recs
  · have hiff := recovers_iff.mp hrec
    obtain ⟨recs, h⟩ := hrec
    have heq := replay_ok ops reads hnd h sink
    have hi := h.repaired hnd
    refine ⟨⟨fun _ => hiff, fun _ => ⟨_, by rw [heq]⟩⟩, ?_, ?_⟩
    · intro report dir' sink' hrun
      rw [heq, Prod.mk.injEq, Prod.mk.injEq] at hrun
      obtain ⟨-, rfl, rfl⟩ := hrun
      obtain ⟨parts, hparts, rfl⟩ := h.parts
      refine ⟨⟨parts, hparts, rfl⟩, rfl,
        fun reads' => replay_intact ops reads' hids hi sink,
        fun id hid reads' => ?_⟩
      have hid' : ∀ f ∈ repair dir, f.id < id := by
        intro f hf
        have hmem : f.id ∈ dir.map SegmentFile.id := by
          rw [← repair_ids]
          exact List.mem_map_of_mem hf
        obtain ⟨g, hg, hgid⟩ := List.mem_map.mp hmem
        rw [← hgid]
        exact hid g hg
      refine replay_intact ops reads' ?_ ?_ sink
      · rw [List.map_append, List.nodup_append]
        refine ⟨hids, by simp, fun a ha b hb => ?_⟩
        obtain ⟨f, hf, rfl⟩ := List.mem_map.mp ha
        rw [List.map_singleton, List.mem_singleton] at hb
        rw [hb]
        exact Nat.ne_of_lt (hid' f hf)
      · rw [list_fresh hids hid']
        exact hi.fresh id
    · intro e dir' sink' hrun
      rw [heq, Prod.mk.injEq] at hrun
      cases hrun.1
  · have hno : ∀ recs, ¬Recovers (list dir) recs :=
      fun recs h => hrec ⟨recs, h⟩
    obtain ⟨⟨id, offset, why, herr⟩, hdir⟩ :=
      replay_error ops reads hnd hno sink
    refine ⟨⟨?_, fun h => absurd (recovers_iff.mpr h) hrec⟩, ?_, ?_⟩
    · rintro ⟨report, hok⟩
      rw [herr] at hok
      cases hok
    · intro report dir' sink' hrun
      rw [hrun] at herr
      cases herr
    · intro e dir' sink' hrun
      rw [hrun] at hdir
      exact hdir

/-- Two stray bytes in the last file are cut off. -/
theorem replay_repairs_stray : ∃ report,
    (replay recording (fun _ _ => 1) [⟨3, [1, 2]⟩, ⟨1, []⟩] []).1
      = .ok report := by
  have hlist : list [⟨3, [1, 2]⟩, ⟨1, []⟩] = [⟨1, []⟩, ⟨3, [1, 2]⟩] :=
    list_eq (List.Perm.swap _ _ _) (by decide)
  refine (replay_repairs recording (fun _ _ => 1) [⟨3, [1, 2]⟩, ⟨1, []⟩]
    (by decide) []).1.mpr ?_
  rw [hlist]
  refine ⟨fun seg hseg => ⟨[], ?_⟩, fun seg hseg => ⟨[], ?_⟩⟩
  · rw [List.mem_singleton.mp hseg]
    exact Whole.nil
  · cases hseg
    rw [Framing.scan_bad (e := .truncated) (by decide)]
    exact .nil

-- ============================================================= torn tails

/-- A log of accepted records, as files. -/
def fileOf (seg : Nat × List WalRecord) : SegmentFile :=
  ⟨seg.1, logBytes seg.2⟩

theorem logBytes_eq (recs : List WalRecord) :
    logBytes recs = (recs.map recordBytes).flatten := by
  rw [logBytes]
  congr 1
  exact List.map_congr_left fun rec _ => by rw [encode_eq]

private theorem accepted_fits {rec : WalRecord} (h : rec.Accepted) :
    (payloadBytes rec).length ≤ maxRecordBytes := by
  have := h.2.2
  rwa [encode_eq] at this

/-- Accepted records, one after the other, are frames that decode. -/
private theorem accepted_frames {recs : List WalRecord}
    (h : ∀ rec ∈ recs, rec.Accepted) :
    List.Forall₂ records.IsFrame (recs.map recordBytes)
        (recs.map fun rec => (.write, payloadBytes rec))
      ∧ Decodes (recs.map fun rec => (.write, payloadBytes rec))
        (recs.map WalRecord.logged) := by
  refine ⟨?_, ?_⟩
  · rw [List.forall₂_map_left_iff, List.forall₂_map_right_iff,
      List.forall₂_same]
    exact fun rec hrec => recordBytes_isFrame (accepted_fits (h rec hrec))
  · rw [Decodes, List.forall₂_map_left_iff, List.forall₂_map_right_iff,
      List.forall₂_same]
    exact fun rec hrec =>
      decode_encode (h rec hrec).1 (accepted_fits (h rec hrec))

/-- Accepted records are whole ones. -/
theorem Whole.accepted {recs : List WalRecord}
    (h : ∀ rec ∈ recs, rec.Accepted) :
    Whole (logBytes recs) (recs.map WalRecord.logged) := by
  obtain ⟨hframes, hd⟩ := accepted_frames h
  rw [logBytes_eq]
  exact ⟨_, .of_forall₂ hframes, hd⟩

theorem Intact.accepted {segs : List (Nat × List WalRecord)}
    (h : ∀ seg ∈ segs, ∀ rec ∈ seg.2, rec.Accepted) :
    Intact (segs.map fileOf)
      ((segs.map Prod.snd).flatten.map WalRecord.logged) := by
  induction segs with
  | nil => exact .nil
  | cons seg segs ih =>
      rw [List.map_cons, List.map_cons, List.flatten_cons, List.map_append]
      exact .cons (.accepted (h seg List.mem_cons_self))
        (ih fun s hs => h s (List.mem_cons_of_mem _ hs))

/-- A scan of accepted records cut at any byte finds those wholly below
the cut. -/
theorem scan_cut {recs : List WalRecord} (h : ∀ rec ∈ recs, rec.Accepted)
    {cut : Nat} (hcut : cut ≤ (logBytes recs).length) :
    ∃ k, k ≤ recs.length ∧ (logBytes (recs.take k)).length ≤ cut
      ∧ (k < recs.length → cut < (logBytes (recs.take (k + 1))).length)
      ∧ (records.scan ((logBytes recs).take cut)).used
        = logBytes (recs.take k)
      ∧ Decodes (records.scan ((logBytes recs).take cut)).items
        ((recs.take k).map WalRecord.logged)
      ∧ ((records.scan ((logBytes recs).take cut)).stop = none
        ↔ cut = (logBytes (recs.take k)).length) := by
  obtain ⟨hframes, hd⟩ := accepted_frames h
  obtain ⟨hitems, hused, hstop⟩ := Framing.scan_take hframes cut
  obtain ⟨hle, hlt⟩ := Framing.wholeBelow_spec (recs.map recordBytes) cut
  have hk := Framing.wholeBelow_le (recs.map recordBytes) cut
  set k := Framing.wholeBelow (recs.map recordBytes) cut
  rw [← logBytes_eq, ← List.map_take, ← logBytes_eq, List.length_take,
    Nat.min_eq_left hcut] at hstop
  rw [← logBytes_eq] at hitems hused
  rw [← List.map_take, ← logBytes_eq] at hused hle
  rw [← List.map_take, ← logBytes_eq, List.length_map] at hlt
  rw [List.length_map] at hk
  refine ⟨k, hk, hle, hlt, hused, ?_, hstop⟩
  rw [hitems, List.map_take]
  exact List.forall₂_take k hd

/-- Accepted records in files with ascending ids, the last file cut to `cut`
bytes: replay succeeds with the records of the files in front and the `k`
records of the last one that end at or below the cut, reports a truncation
exactly if something is left of the next one, and leaves the `k` records.

The directory may return the files in any order; listed, they are those in
front and the one that was cut. The scan of the latter is `scan_cut`, and
the rest is `replay_ok` with the repair computed. -/
theorem replay_torn_tail (ops : ReplaySink σ) (reads : Nat → Nat → Nat)
    (front : List (Nat × List WalRecord)) (last : Nat)
    (recs : List WalRecord)
    (hids : Ascending Prod.fst (front ++ [(last, recs)]))
    (hacc : ∀ seg ∈ front ++ [(last, recs)], ∀ rec ∈ seg.2, rec.Accepted)
    (cut : Nat) (hcut : cut ≤ (logBytes recs).length) (dir : Dir)
    (hdir : dir.Perm
      (front.map fileOf ++ [⟨last, (logBytes recs).take cut⟩]))
    (sink : σ) :
    ∃ k offset report dir', k ≤ recs.length
      ∧ offset = (logBytes (recs.take k)).length ∧ offset ≤ cut
      ∧ (k < recs.length → cut < (logBytes (recs.take (k + 1))).length)
      ∧ replay ops reads dir sink
        = (.ok report, dir',
          (Resolver.applyAll ops ({}, sink)
            (((front.map Prod.snd).flatten ++ recs.take k).map
              WalRecord.logged)).2)
      ∧ report.truncated
        = (if offset < cut then some (last, offset, cut - offset) else none)
      ∧ list dir'
        = front.map fileOf ++ [⟨last, logBytes (recs.take k)⟩] := by
  have hrecs : ∀ rec ∈ recs, rec.Accepted :=
    hacc (last, recs) (List.mem_append_right _ List.mem_cons_self)
  obtain ⟨k, hk, hle, hlt, hused, hdec, hstop⟩ := scan_cut hrecs hcut
  -- the files, listed
  have hasc : Ascending SegmentFile.id
      (front.map fileOf ++ [⟨last, (logBytes recs).take cut⟩]) := by
    have hmap : (front.map fileOf
        ++ [(⟨last, (logBytes recs).take cut⟩ : SegmentFile)]).map
          SegmentFile.id
        = (front ++ [(last, recs)]).map Prod.fst := by
      simp [fileOf, Function.comp_def]
    refine List.pairwise_map.mp ?_
    rw [hmap]
    exact List.pairwise_map.mpr hids
  have hlist := list_eq hdir hasc
  have hnd : (dir.map SegmentFile.id).Nodup :=
    (hdir.map _).nodup_iff.mpr (ids_nodup hasc)
  have hrec : Recovers (list dir)
      (((front.map Prod.snd).flatten ++ recs.take k).map
        WalRecord.logged) := by
    rw [hlist, recovers_concat, List.map_append]
    exact ⟨_, _, .accepted fun seg hs =>
      hacc seg (List.mem_append_left _ hs), hdec, rfl⟩
  refine ⟨k, _, reportOf ops dir _ sink, repair dir, hk, rfl, hle, hlt,
    replay_ok ops reads hnd hrec sink, ?_, ?_⟩
  · show torn (list dir) = _
    rw [hlist, torn, List.getLast?_concat, Option.bind_some]
    simp only [hused, hstop, List.length_take, Nat.min_eq_left hcut]
    by_cases heq : cut = (logBytes (recs.take k)).length
    · rw [if_pos heq, if_neg (by omega)]
    · rw [if_neg heq, if_pos (by omega)]
  · rw [list_repair hnd hlist, SegmentFile.cutTorn, hused]

/-- Two files, the second cut inside the header of its second record. -/
theorem replay_torn_tail_in_header :
    let rec₁ : WalRecord := ⟨[⟨0, ⟨[]⟩⟩], [⟨0, [⟨1, 2⟩]⟩]⟩
    let rec₂ : WalRecord := ⟨[], [⟨0, [⟨3, 4⟩]⟩]⟩
    ∃ k offset report dir', k ≤ 2
      ∧ offset = (logBytes ([rec₂, rec₂].take k)).length ∧ offset ≤ 50
      ∧ (k < 2 → 50 < (logBytes ([rec₂, rec₂].take (k + 1))).length)
      ∧ replay recording (fun _ _ => 3)
          [⟨2, (logBytes [rec₂, rec₂]).take 50⟩, ⟨1, logBytes [rec₁]⟩] []
        = (.ok report, dir',
          (Resolver.applyAll recording ({}, [])
            (([rec₁] ++ [rec₂, rec₂].take k).map WalRecord.logged)).2)
      ∧ report.truncated
        = (if offset < 50 then some (2, offset, 50 - offset) else none)
      ∧ list dir'
        = [⟨1, logBytes [rec₁]⟩, ⟨2, logBytes ([rec₂, rec₂].take k)⟩] :=
  replay_torn_tail recording (fun _ _ => 3)
    [(1, [⟨[⟨0, ⟨[]⟩⟩], [⟨0, [⟨1, 2⟩]⟩]⟩])] 2
    [⟨[], [⟨0, [⟨3, 4⟩]⟩]⟩, ⟨[], [⟨0, [⟨3, 4⟩]⟩]⟩]
    (by decide) (by decide +kernel) 50 (by decide +kernel) _
    (List.Perm.swap _ _ _) []

end Tsdb.Wal
