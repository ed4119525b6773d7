/-
Reading the log (`storage/wal/reader.rs`, `storage/wal/segment.rs`): the
segment files of a directory, and the record at the front of an open
file.

# The file system

A log directory is the list of its segment files, in whatever order
`read_dir` returns them. A read returns some of the bytes wanted, at
least one unless the file is at its end, and how many is up to the file
(`FileReader.sizes`); `readFull` loops, so nothing depends on it
(`readFull_eq`, by induction on what is still wanted). Reads of a file
that is there do not fail here, and a read that was interrupted is the
read that is tried again.

# One record

`readRecord` is the source's: a header, or the end of the file exactly in
front of one; the kind; the length against the largest record; the
payload; the checksum. Each of the five may be what is wrong, and the
error says which, the two that were cut short alike.

# The framing

`records` is the framing behind `readRecord`, in the sense of
`Lib.Frames`: what it finds depends on the bytes of the record only
(`readRecord_eq`). An encoded record within the size limit is a frame of
it (`recordBytes_isFrame`). From here on no proof looks at a read again:
the bytes of a file are scanned into frames and a leftover, and the
library has the rules by which scans are joined and cut.

# Listing

Files have ids of their own, so `list`, which sorts by id, returns one
list for a directory however `read_dir` goes through it (`list_eq`).
-/
import Tsdb.Lib.Frames
import Tsdb.Wal.Codec
import Tsdb.Wal.Replay

namespace Tsdb.Wal

open Lib (Ascending Bytes Next Framing)

variable {σ : Type}

-- ============================================================= the files

structure SegmentFile where
  id : Nat
  bytes : Bytes
deriving DecidableEq, Repr

abbrev Dir := List SegmentFile

/-- `segment::list`. -/
def list (dir : Dir) : List SegmentFile :=
  dir.mergeSort fun a b => a.id ≤ b.id

theorem list_perm (dir : Dir) : (list dir).Perm dir :=
  List.mergeSort_perm _ _

/-- Files with ids of their own are listed in ascending order. -/
theorem list_ascending {dir : Dir}
    (h : (dir.map SegmentFile.id).Nodup) :
    Ascending SegmentFile.id (list dir) :=
  Lib.ascending_mergeSort h

theorem ids_nodup {segs : List SegmentFile}
    (h : Ascending SegmentFile.id segs) :
    (segs.map SegmentFile.id).Nodup :=
  (List.pairwise_map.mpr h).imp Nat.ne_of_lt

/-- However a directory returns its files, they are listed in order. -/
theorem list_eq {dir segs : Dir} (hp : dir.Perm segs)
    (h : Ascending SegmentFile.id segs) : list dir = segs := by
  have hnd : (dir.map SegmentFile.id).Nodup :=
    (hp.map _).nodup_iff.mpr (ids_nodup h)
  refine List.Perm.eq_of_pairwise (fun a b _ _ hab hba => ?_)
    (list_ascending hnd) h ((list_perm dir).trans hp)
  exact absurd (Nat.lt_trans hab hba) (Nat.lt_irrefl _)

/-- `File::set_len`. -/
def setLen (bytes : Bytes) (len : Nat) : Bytes :=
  bytes.take len ++ List.replicate (len - bytes.length) 0

/-- `truncate`: the bytes cut off, and the directory with the file
shortened. -/
def truncate (dir : Dir) (seg : SegmentFile) (offset : Nat) : Nat × Dir :=
  (seg.bytes.length - offset,
    dir.map fun f =>
      if f.id = seg.id then { f with bytes := setLen f.bytes offset } else f)

-- =============================================================== reading

/-- An open file: the bytes ahead, and how much each coming read returns
at most. -/
structure FileReader where
  left : Bytes
  sizes : Nat → Nat

/-- `Read::read` into a buffer of `want` bytes. -/
def FileReader.read (r : FileReader) (want : Nat) : Bytes × FileReader :=
  let k := min (max (r.sizes 0) 1) want
  (r.left.take k, { left := r.left.drop k, sizes := fun i => r.sizes (i + 1) })

/-- `read_full` into a buffer of `want` bytes. -/
def readFull (r : FileReader) (want : Nat) : Bytes × FileReader :=
  if want = 0 then ([], r)
  else
    match _h : r.read want with
    | ([], r) => ([], r)
    | (b :: bs, r) =>
        let (rest, r) := readFull r (want - (b :: bs).length)
        (b :: bs ++ rest, r)
termination_by want
decreasing_by simp only [List.length_cons]; omega

abbrev ReadResult := Except Corruption (Option (RecordKind × Bytes))

/-- `read_record`. -/
def readRecord (r : FileReader) : ReadResult × FileReader :=
  let (hdr, r) := readFull r RecordHeader.encodedLen
  if hdr.length = 0 then (.ok none, r)
  else if hdr.length < RecordHeader.encodedLen then (.error .truncated, r)
  else
    let header := RecordHeader.decode hdr
    match RecordKind.fromU8 header.kind with
    | none => (.error (.invalidKind header.kind), r)
    | some kind =>
        if header.len.toNat > maxRecordBytes then
          (.error (.invalidLength header.len), r)
        else
          let (payload, r) := readFull r header.len.toNat
          if payload.length < header.len.toNat then (.error .truncated, r)
          else if recordCrc header.kind header.len payload ≠ header.crc then
            (.error .checksumMismatch, r)
          else (.ok (some (kind, payload)), r)

/-- A full read takes what it wants, or all there is. The induction is on
what is still wanted, since a read may take any number of bytes up to that;
a read that takes none has found the end of the file. -/
theorem readFull_eq (r : FileReader) (want : Nat) :
    (readFull r want).1 = r.left.take want
      ∧ (readFull r want).2.left = r.left.drop want := by
  induction want using Nat.strongRecOn generalizing r with
  | ind want ih =>
      rw [readFull]
      by_cases hz : want = 0
      · simp [hz]
      · rw [if_neg hz]
        -- one read takes `k` bytes, the loop the rest
        obtain ⟨k, hk, hkw, hread⟩ : ∃ k, 0 < k ∧ k ≤ want ∧ r.read want
            = (r.left.take k,
              { left := r.left.drop k, sizes := fun i => r.sizes (i + 1) }) :=
          ⟨_, by omega, by omega, rfl⟩
        split
        · rename_i r' h
          rw [hread, Prod.mk.injEq] at h
          have hnil : r.left = [] := by
            have := congrArg List.length h.1
            rw [List.length_take, List.length_nil] at this
            exact List.length_eq_zero_iff.mp (by omega)
          rw [← h.2, hnil]
          simp
        · rename_i b bs r' h
          rw [hread, Prod.mk.injEq] at h
          have hlen : (b :: bs).length = min k r.left.length := by
            rw [← h.1, List.length_take]
          have hpos : 0 < (b :: bs).length := by simp
          obtain ⟨h₁, h₂⟩ := ih (want - (b :: bs).length) (by omega) r'
          refine ⟨?_, ?_⟩
          · show b :: bs ++ (readFull r' _).1 = _
            rw [h₁, ← h.1, ← h.2, h.1, hlen]
            rcases Nat.le_total k r.left.length with hle | hle
            · rw [Nat.min_eq_left hle, ← h.1,
                ← List.take_add, Nat.add_sub_cancel' hkw]
            · rw [← h.1, List.take_of_length_le hle,
                List.drop_eq_nil_of_le hle, List.take_nil, List.append_nil,
                List.take_of_length_le (Nat.le_trans hle hkw)]
          · show (readFull r' _).2.left = _
            rw [h₂, ← h.2, hlen]
            simp only [List.drop_drop]
            rcases Nat.le_total k r.left.length with hle | hle
            · rw [Nat.min_eq_left hle, Nat.add_sub_cancel' hkw]
            · rw [List.drop_eq_nil_of_le (by omega),
                List.drop_eq_nil_of_le (by omega)]

-- =========================================================== the framing

/-- The record at the front of some bytes, or why there is none. -/
def nextRecord (bs : Bytes) : Next UInt8 (RecordKind × Bytes) Corruption :=
  if bs = [] then .done
  else if bs.length < RecordHeader.encodedLen then .bad .truncated
  else
    let header := RecordHeader.decode (bs.take RecordHeader.encodedLen)
    let body := bs.drop RecordHeader.encodedLen
    match RecordKind.fromU8 header.kind with
    | none => .bad (.invalidKind header.kind)
    | some kind =>
        if header.len.toNat > maxRecordBytes then
          .bad (.invalidLength header.len)
        else if body.length < header.len.toNat then .bad .truncated
        else if recordCrc header.kind header.len (body.take header.len.toNat)
            ≠ header.crc then .bad .checksumMismatch
        else .frame (kind, body.take header.len.toNat)
          (body.drop header.len.toNat)

/-- A record is found by its own bytes: the header, whose length says how
many follow, and these. What comes behind them is not looked at. -/
private theorem nextRecord_frame {bs rest : Bytes}
    {item : RecordKind × Bytes} (h : nextRecord bs = .frame item rest) :
    ∃ used, used ≠ [] ∧ bs = used ++ rest
      ∧ used.length = RecordHeader.encodedLen + item.2.length
      ∧ ∀ rest', nextRecord (used ++ rest') = .frame item rest' := by
  unfold nextRecord at h
  split at h
  · cases h
  split at h
  · cases h
  rename_i hne hlen
  simp only at h
  set hdr := RecordHeader.decode (bs.take RecordHeader.encodedLen) with hhdr
  set body := bs.drop RecordHeader.encodedLen with hbody
  split at h
  · cases h
  rename_i kind hkind
  split at h
  · cases h
  split at h
  · cases h
  split at h
  · cases h
  rename_i hmax hshort hcrc
  cases h
  -- the header and the payload, of the lengths they have to have
  have hsplit : bs = bs.take RecordHeader.encodedLen
      ++ (body.take hdr.len.toNat ++ body.drop hdr.len.toNat) := by
    rw [List.take_append_drop, hbody, List.take_append_drop]
  have hl₁ : (bs.take RecordHeader.encodedLen).length
      = RecordHeader.encodedLen := by
    rw [List.length_take]
    omega
  have hl₂ : (body.take hdr.len.toNat).length = hdr.len.toNat := by
    rw [List.length_take]
    omega
  refine ⟨bs.take RecordHeader.encodedLen ++ body.take hdr.len.toNat,
    ?_, by rwa [List.append_assoc], by rw [List.length_append, hl₁], ?_⟩
  · intro hnil
    have := congrArg List.length hnil
    simp only [List.length_append, hl₁, List.length_nil] at this
    rw [RecordHeader.encodedLen] at this
    omega
  · intro rest'
    unfold nextRecord
    rw [if_neg (by
        intro hnil
        have := congrArg List.length hnil
        simp only [List.length_append, hl₁, List.length_nil] at this
        rw [RecordHeader.encodedLen] at this
        omega),
      if_neg (by simp only [List.length_append, hl₁]; omega)]
    simp only [List.append_assoc, List.take_left' hl₁, List.drop_left' hl₁,
      ← hhdr, hkind, List.take_left' hl₂, List.drop_left' hl₂]
    rw [if_neg hmax, if_neg (by simp only [List.length_append, hl₂]; omega),
      if_neg hcrc]

/-- Records as frames. -/
def records : Framing UInt8 (RecordKind × Bytes) Corruption where
  next := nextRecord
  next_nil := rfl
  next_cons t ts h := by
    unfold nextRecord at h
    rw [if_neg (List.cons_ne_nil t ts)] at h
    split at h
    · cases h
    · simp only at h
      split at h
      · cases h
      · split at h
        · cases h
        · split at h
          · cases h
          · split at h <;> cases h
  next_frame h := by
    obtain ⟨used, hne, hbs, -, hloc⟩ := nextRecord_frame h
    exact ⟨used, hne, hbs, hloc⟩

theorem records_next (bs : Bytes) : records.next bs = nextRecord bs := rfl

/-- A record takes its header and its payload. -/
theorem frame_length {used : Bytes} {item : RecordKind × Bytes}
    (h : records.IsFrame used item) :
    used.length = RecordHeader.encodedLen + item.2.length := by
  obtain ⟨used', -, heq, hlen, -⟩ := nextRecord_frame (h.2 [])
  rw [List.append_left_inj] at heq
  rw [heq, hlen]

/-- `readRecord` finds what `records` says, however the file hands out its
bytes, and is then behind the record found. The two full reads return the
front of the file and of the rest, by `readFull_eq`; from there on both
sides make the same comparisons in the same order. -/
theorem readRecord_eq (r : FileReader) :
    match records.next r.left with
    | .done => (readRecord r).1 = .ok none
    | .bad why => (readRecord r).1 = .error why
    | .frame item rest =>
        (readRecord r).1 = .ok (some item) ∧ (readRecord r).2.left = rest := by
  obtain ⟨hhdr, hleft⟩ := readFull_eq r RecordHeader.encodedLen
  rw [records_next]
  unfold nextRecord readRecord
  rcases hr : readFull r RecordHeader.encodedLen with ⟨bytes, r₁⟩
  rw [hr] at hhdr hleft
  simp only at hhdr hleft
  subst hhdr
  simp only
  by_cases hnil : r.left = []
  · simp [hnil]
  rw [if_neg hnil]
  have hpos : ¬(r.left.take RecordHeader.encodedLen).length = 0 := by
    have := List.length_pos_iff.mpr hnil
    rw [List.length_take, RecordHeader.encodedLen]
    omega
  rw [if_neg hpos]
  -- less than a header: nothing is compared
  by_cases hshort : r.left.length < RecordHeader.encodedLen
  · rw [if_pos hshort, if_pos (by rw [List.length_take]; omega)]
  rw [if_neg hshort, if_neg (by rw [List.length_take]; omega)]
  set hdr := RecordHeader.decode (r.left.take RecordHeader.encodedLen)
  cases hkind : RecordKind.fromU8 hdr.kind with
  | none => rfl
  | some kind =>
      simp only
      -- the length is judged before anything is read for it
      by_cases hmax : hdr.len.toNat > maxRecordBytes
      · rw [if_pos hmax, if_pos hmax]
      rw [if_neg hmax, if_neg hmax]
      obtain ⟨hpay, hrest⟩ := readFull_eq r₁ hdr.len.toNat
      rw [hleft] at hpay hrest
      simp only [hpay]
      -- the payload may be cut short
      by_cases htorn : (r.left.drop RecordHeader.encodedLen).length
          < hdr.len.toNat
      · rw [if_pos htorn, if_pos (by rw [List.length_take]; omega)]
      have hwhole : ¬((r.left.drop RecordHeader.encodedLen).take
          hdr.len.toNat).length < hdr.len.toNat := by
        rw [List.length_take]
        omega
      rw [if_neg htorn]
      simp only [if_neg hwhole]
      by_cases hcrc : recordCrc hdr.kind hdr.len
          ((r.left.drop RecordHeader.encodedLen).take hdr.len.toNat)
            ≠ hdr.crc
      · rw [if_pos hcrc, if_pos hcrc]
      · rw [if_neg hcrc, if_neg hcrc]
        exact ⟨rfl, hrest⟩

/-- An encoded record that fits is a frame. -/
theorem recordBytes_isFrame {rec : WalRecord}
    (h : (payloadBytes rec).length ≤ maxRecordBytes) :
    records.IsFrame (recordBytes rec) (.write, payloadBytes rec) := by
  have hlen : (UInt32.ofNat (payloadBytes rec).length).toNat
      = (payloadBytes rec).length := by
    rw [UInt32.toNat_ofNat']
    rw [maxRecordBytes] at h
    exact Nat.mod_eq_of_lt (by omega)
  have hhdr := RecordHeader.encode_length
    (RecordHeader.forPayload .write (payloadBytes rec))
  have hne : recordBytes rec ≠ [] := by
    intro hnil
    have := congrArg List.length hnil
    rw [recordBytes, List.length_append, hhdr, RecordHeader.encodedLen]
      at this
    simp at this
  refine ⟨hne, fun rest => ?_⟩
  rw [records_next]
  have hdec := RecordHeader.decode_encode
    (RecordHeader.forPayload .write (payloadBytes rec)) []
  rw [List.append_nil] at hdec
  unfold nextRecord
  rw [if_neg (by simp [hne]), if_neg (by
    simp only [recordBytes, List.length_append, hhdr]
    omega)]
  simp only [recordBytes, List.append_assoc, List.take_left' hhdr,
    List.drop_left' hhdr, hdec]
  simp only [RecordHeader.forPayload, RecordKind.fromU8_toU8, hlen,
    List.take_left' rfl, List.drop_left' rfl]
  rw [if_neg (by omega), if_neg (by simp), if_neg (by simp)]

end Tsdb.Wal
