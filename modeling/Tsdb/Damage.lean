/-
What the checksums catch (`storage/segment.rs`, `storage/wal/record.rs`,
`storage/wal/reader.rs`).

A data segment names its own length and carries a checksum of its payload;
a record of the log carries a checksum of its kind, length and payload. A
damaged byte is found wherever it is: in a field that is compared with a
constant or with what the rest says, or under the checksum, which two
strings that differ in one byte never share (`Lib.Crc32.hash_ne`). The one
field a record does not protect from its reader is its length, which says
where the checksum ends.

# The argument

Neither reader is run on the damaged file. For a segment
`readSegment_fields` says what it takes for a file to be read: magic,
version, length and checksum, each compared with the bytes they stand
in front of. A file that was written is its header and its payload
(`segmentFile_eq`), so a damage is in one of five places, and each place
breaks one comparison:

- magic, version and stored length: the field itself differs from what it
  is compared with;
- stored checksum: the payload's is what it was;
- payload: its checksum is not what it was.

A cut and an appended tail change the length that is compared
(`readSegment_resized`), or leave less than a header
(`readSegment_short`).

A record is read from a file that hands out what it likes to at each call
(`nextRecord`), so `readRecord_oneByte` is about any division and any
bytes behind. The reader has the header whole before it looks at it;
a damaged kind and a damaged payload are under the checksum, and a damaged
checksum is compared with one that is what it was.

`damage_detected` collects both formats.
-/
import Tsdb.Lib.Damage
import Tsdb.Storage.Segment
import Tsdb.Wal.Reader

namespace Tsdb

open Lib (Bytes OneByte toLE ofLE)

-- ======================================================== data segments

/-- A file of at least a header is refused if one of the four things in its
header is not what it should be. -/
private theorem readSegment_fields {json : Json} {data : DataDir}
    {path : DataName} {m l c p : Bytes} (hm : m.length = 8)
    (hl : l.length = 8) (hc : c.length = 4)
    (h : data.lookup path = some (m ++ (l ++ (c ++ p))))
    (hbad : m ≠ magic ∨ ofLE l ≠ p.length % 2 ^ 64
      ∨ ofLE c ≠ (Lib.Crc32.hash p).toNat) :
    readSegment json data path = .error (.corruptSegment path) := by
  have hml : (m ++ l).length = 16 := by
    rw [List.length_append, hm, hl]
  have hmlc : (m ++ l ++ c).length = 20 := by
    rw [List.length_append, hml, hc]
  have h₈ : (m ++ (l ++ (c ++ p))).take 8 = m := List.take_left' hm
  have h₁₆ : ((m ++ (l ++ (c ++ p))).drop 8).take 8 = l := by
    rw [List.drop_left' hm, List.take_left' hl]
  have h₂₀ : ((m ++ (l ++ (c ++ p))).drop 16).take 4 = c := by
    rw [← List.append_assoc, List.drop_left' hml, List.take_left' hc]
  have hrest : (m ++ (l ++ (c ++ p))).drop 20 = p := by
    rw [← List.append_assoc, ← List.append_assoc, List.drop_left' hmlc]
  rw [readSegment, h]
  simp only [h₈, h₁₆, h₂₀, hrest]
  rcases hbad with hmagic | hfields
  · rw [if_pos (.inr hmagic)]
  · by_cases hhead : (m ++ (l ++ (c ++ p))).length < 20 ∨ m ≠ magic
    · rw [if_pos hhead]
    · rw [if_neg hhead, if_pos hfields]

private theorem readSegment_short {json : Json} {data : DataDir}
    {path : DataName} {bytes : Bytes} (h : data.lookup path = some bytes)
    (hshort : bytes.length < 20) :
    readSegment json data path = .error (.corruptSegment path) := by
  rw [readSegment, h]
  simp only [if_pos (Or.inl hshort)]

private theorem segmentFile_eq (payload : Bytes) :
    segmentFile payload = magic ++ (toLE 8 payload.length
      ++ (toLE 4 (Lib.Crc32.hash payload).toNat ++ payload)) := by
  simp only [segmentFile, List.append_assoc]

private theorem segmentFile_length (payload : Bytes) :
    (segmentFile payload).length = 20 + payload.length := by
  have hmagic : magic.length = 8 := rfl
  simp only [segmentFile, List.length_append, hmagic, Lib.toLE_length]

/-- Where one byte of the file is damaged. -/
private theorem readSegment_oneByte {json : Json} {data : DataDir}
    {path : DataName} {payload bytes : Bytes}
    (h : data.lookup path = some bytes)
    (hone : OneByte (segmentFile payload) bytes) :
    readSegment json data path = .error (.corruptSegment path) := by
  have hmagic : magic.length = 8 := rfl
  have hl := Lib.toLE_length 8 payload.length
  have hc := Lib.toLE_length 4 (Lib.Crc32.hash payload).toNat
  have hsum := Lib.ofLE_toLE_of_lt (n := 4) (Lib.Crc32.hash payload).toNat_lt
  rw [segmentFile_eq] at hone
  rcases hone.append with ⟨m, hm, rfl⟩ | ⟨behind, hlater, rfl⟩
  · exact readSegment_fields (hm.length_eq.trans hmagic) hl hc h
      (.inl hm.ne)
  rcases hlater.append with ⟨l, hl', rfl⟩ | ⟨behind', hlast, rfl⟩
  · refine readSegment_fields hmagic (hl'.length_eq.trans hl) hc h
      (.inr (.inl ?_))
    have hne := hl'.ofLE_ne
    rwa [Lib.ofLE_toLE] at hne
  rcases hlast.append with ⟨c, hc', rfl⟩ | ⟨payload', hpayload, rfl⟩
  · refine readSegment_fields hmagic hl (hc'.length_eq.trans hc) h
      (.inr (.inr ?_))
    have hne := hc'.ofLE_ne
    rwa [hsum] at hne
  · refine readSegment_fields hmagic hl hc h (.inr (.inr ?_))
    rw [hsum]
    intro heq
    exact Lib.Crc32.hash_ne hpayload (UInt32.toNat_inj.mp heq.symm)

/-- Where the payload behind the header has another length. -/
private theorem readSegment_resized {json : Json} {data : DataDir}
    {path : DataName} {payload payload' : Bytes}
    (hlen : (segmentFile payload).length < 2 ^ 64)
    (hlen' : payload'.length < 2 ^ 64)
    (h : data.lookup path = some (magic ++ (toLE 8 payload.length
      ++ (toLE 4 (Lib.Crc32.hash payload).toNat ++ payload'))))
    (hne : payload'.length ≠ payload.length) :
    readSegment json data path = .error (.corruptSegment path) := by
  refine readSegment_fields rfl (Lib.toLE_length 8 _) (Lib.toLE_length 4 _) h
    (.inr (.inl ?_))
  rw [segmentFile_length] at hlen
  rw [Lib.ofLE_toLE, Nat.mod_eq_of_lt hlen', Nat.mod_eq_of_lt (by omega)]
  exact hne.symm

private theorem readSegment_cut {json : Json} {data : DataDir}
    {path : DataName} {payload : Bytes}
    (hlen : (segmentFile payload).length < 2 ^ 64) {n : Nat}
    (hn : n < (segmentFile payload).length)
    (h : data.lookup path = some ((segmentFile payload).take n)) :
    readSegment json data path = .error (.corruptSegment path) := by
  have hfile := segmentFile_length payload
  by_cases hshort : n < 20
  · refine readSegment_short h ?_
    rw [List.length_take]
    omega
  · have hfront : (magic ++ toLE 8 payload.length
        ++ toLE 4 (Lib.Crc32.hash payload).toNat).length = 20 := by
      have hmagic : magic.length = 8 := rfl
      simp only [List.length_append, hmagic, Lib.toLE_length]
    have hcut : (segmentFile payload).take n = magic
        ++ (toLE 8 payload.length ++ (toLE 4 (Lib.Crc32.hash payload).toNat
          ++ payload.take (n - 20))) := by
      rw [segmentFile, List.take_append, hfront,
        List.take_of_length_le (by omega), List.append_assoc,
        List.append_assoc]
    rw [hcut] at h
    refine readSegment_resized hlen ?_ h ?_ <;> rw [List.length_take] <;>
      omega

private theorem readSegment_appended {json : Json} {data : DataDir}
    {path : DataName} {payload more : Bytes}
    (hlen : (segmentFile payload ++ more).length < 2 ^ 64)
    (hmore : more ≠ [])
    (h : data.lookup path = some (segmentFile payload ++ more)) :
    readSegment json data path = .error (.corruptSegment path) := by
  have hpos := List.length_pos_iff.mpr hmore
  have hfile := segmentFile_length payload
  rw [List.length_append, hfile] at hlen
  rw [segmentFile, List.append_assoc, List.append_assoc, List.append_assoc]
    at h
  refine readSegment_resized ?_ ?_ h ?_
  · omega
  · rw [List.length_append]
    omega
  · rw [List.length_append]
    omega

-- ============================================================ the records

namespace Wal

/-- A header the reader has, with the payload it speaks of behind it. -/
private theorem nextRecord_encode {hdr : RecordHeader}
    {payload rest : Bytes} (hlen : hdr.len.toNat = payload.length)
    (hmax : payload.length ≤ maxRecordBytes)
    (hbad : RecordKind.fromU8 hdr.kind = none
      ∨ recordCrc hdr.kind hdr.len payload ≠ hdr.crc) :
    ∃ why, records.next (hdr.encode ++ (payload ++ rest)) = .bad why := by
  have hhdr := RecordHeader.encode_length hdr
  have hdec := RecordHeader.decode_encode hdr []
  rw [List.append_nil] at hdec
  have hne : hdr.encode ++ (payload ++ rest) ≠ [] := by
    intro hnil
    have := congrArg List.length hnil
    rw [List.length_append, hhdr, RecordHeader.encodedLen] at this
    simp at this
  rw [records_next]
  unfold nextRecord
  rw [if_neg hne, if_neg (by rw [List.length_append, hhdr]; omega)]
  simp only [List.take_left' hhdr, List.drop_left' hhdr, hdec]
  cases hkind : RecordKind.fromU8 hdr.kind with
  | none => exact ⟨_, rfl⟩
  | some kind =>
      have hcrc := hbad.resolve_left (by rw [hkind]; nofun)
      refine ⟨.checksumMismatch, ?_⟩
      simp only [hlen, List.take_left' rfl]
      rw [if_neg (by omega), if_neg (by rw [List.length_append]; omega),
        if_pos hcrc]

/-- A whole record as it is framed. -/
def framed (payload : Bytes) : Bytes :=
  (RecordHeader.forPayload .write payload).encode ++ payload

/-- A record with a damaged byte behind its length is not read. The length
is whole, so the frame is cut out at the right place, and the byte is in the
checksum, in the kind or in the payload: in the first case another checksum
is compared with that of the right bytes, in the others the right checksum
with that of bytes that differ in one place, and `CRC-32` tells those apart. -/
private theorem readRecord_oneByte {payload behind : Bytes}
    (hmax : payload.length ≤ maxRecordBytes)
    (hone : OneByte ((framed payload).drop 4) behind) (rest : Bytes)
    (sizes : Nat → Nat) :
    ∃ why r, readRecord ⟨(framed payload).take 4 ++ behind ++ rest, sizes⟩
      = (.error why, r) := by
  let hdr := RecordHeader.forPayload .write payload
  have hlen : hdr.len.toNat = payload.length := by
    show (UInt32.ofNat payload.length).toNat = _
    rw [UInt32.toNat_ofNat']
    rw [maxRecordBytes] at hmax
    exact Nat.mod_eq_of_lt (by omega)
  have hlen₄ : (toLE 4 hdr.len.toNat).length = 4 := Lib.toLE_length 4 _
  have hframed : framed payload = toLE 4 hdr.len.toNat
      ++ (toLE 4 hdr.crc.toNat ++ ([hdr.kind] ++ payload)) := by
    show hdr.encode ++ payload = _
    simp only [RecordHeader.encode, List.append_assoc]
  rw [hframed, List.drop_left' hlen₄] at hone
  rw [hframed, List.take_left' hlen₄]
  suffices hbad : ∃ why, records.next
      (toLE 4 hdr.len.toNat ++ behind ++ rest) = .bad why by
    obtain ⟨why, hbad⟩ := hbad
    have hread :=
      readRecord_eq ⟨toLE 4 hdr.len.toNat ++ behind ++ rest, sizes⟩
    rw [hbad] at hread
    exact ⟨why, _, Prod.ext hread rfl⟩
  rcases hone.append with ⟨crc, hcrc, rfl⟩ | ⟨tail, htail, rfl⟩
  · -- another checksum
    have hback := Lib.toLE_ofLE crc
    have hlt := Lib.ofLE_lt crc
    rw [hcrc.length_eq, Lib.toLE_length] at hback hlt
    have hnat : (UInt32.ofNat (ofLE crc)).toNat = ofLE crc := by
      rw [UInt32.toNat_ofNat']
      exact Nat.mod_eq_of_lt hlt
    have hne : hdr.crc ≠ UInt32.ofNat (ofLE crc) := by
      intro heq
      have hsame : ofLE crc = hdr.crc.toNat := by rw [heq, hnat]
      rw [hsame] at hback
      exact hcrc.ne hback.symm
    have henc : toLE 4 hdr.len.toNat ++ (crc ++ ([hdr.kind] ++ payload))
        ++ rest = ({ hdr with crc := UInt32.ofNat (ofLE crc) } :
          RecordHeader).encode ++ (payload ++ rest) := by
      simp only [RecordHeader.encode, hnat, hback, List.append_assoc]
    rw [henc]
    exact nextRecord_encode hlen hmax (.inr hne)
  rcases htail.append with ⟨kind, hkind, rfl⟩ | ⟨payload', hpayload, rfl⟩
  · -- another kind
    obtain ⟨k, rfl⟩ := List.length_eq_one_iff.mp hkind.length_eq
    have hk : k ≠ 0 := fun hzero => hkind.ne (congrArg ([·]) hzero)
    have henc : toLE 4 hdr.len.toNat
        ++ (toLE 4 hdr.crc.toNat ++ ([k] ++ payload)) ++ rest
        = ({ hdr with kind := k } : RecordHeader).encode
          ++ (payload ++ rest) := by
      simp only [RecordHeader.encode, List.append_assoc]
    rw [henc]
    exact nextRecord_encode hlen hmax (.inl (if_neg hk))
  · -- a damaged payload
    have henc : toLE 4 hdr.len.toNat
        ++ (toLE 4 hdr.crc.toNat ++ ([hdr.kind] ++ payload')) ++ rest
        = hdr.encode ++ (payload' ++ rest) := by
      simp only [RecordHeader.encode, List.append_assoc]
    rw [henc]
    refine nextRecord_encode (hlen.trans hpayload.length_eq.symm)
      (hpayload.length_eq.trans_le hmax) (.inr ?_)
    refine Lib.Crc32.hash_ne ?_
    obtain ⟨before, b, b', after, rfl, rfl, hne⟩ := hpayload
    refine ⟨[hdr.kind] ++ toLE 4 hdr.len.toNat ++ before, b, b', after,
      ?_, ?_, hne⟩
    · simp only [List.append_assoc]
      rfl
    · simp only [List.append_assoc]

end Wal

-- ================================================================= damage

/-- What may happen to a file: a byte gets another value, the file is cut,
or bytes are appended. -/
inductive Damage (bytes : Bytes) : Bytes → Prop
  | change (i : Nat) (b : UInt8) (hi : i < bytes.length)
      (hb : bytes[i]? ≠ some b) : Damage bytes (bytes.set i b)
  | cut (n : Nat) (hn : n < bytes.length) : Damage bytes (bytes.take n)
  | append (more : Bytes) (hmore : more ≠ []) :
      Damage bytes (bytes ++ more)

/-- A damaged data segment is refused, and so is a record of the log with a
damaged byte behind its length, whatever follows it and however the file
hands it out. No byte string in memory is as long as `2 ^ 64`.

For a segment the damage is a changed byte, a cut or bytes behind the end,
and each has its lemma; for a record it is `readRecord_oneByte`, once the
changed byte is placed behind the first four. -/
theorem damage_detected :
    (∀ (json : Json) (data : DataDir) (path : DataName)
      (payload damaged : Bytes),
      (segmentFile payload).length < 2 ^ 64 → damaged.length < 2 ^ 64 →
      Damage (segmentFile payload) damaged →
      data.lookup path = some damaged →
      readSegment json data path = .error (.corruptSegment path))
    ∧ ∀ (payload rest : Bytes) (i : Nat) (b : UInt8) (sizes : Nat → Nat),
      payload.length ≤ Wal.maxRecordBytes → 4 ≤ i →
      i < (Wal.framed payload).length → (Wal.framed payload)[i]? ≠ some b →
      ∃ why r, Wal.readRecord ⟨(Wal.framed payload).set i b ++ rest, sizes⟩
        = (.error why, r) := by
  refine ⟨fun json data path payload damaged hlen hlen' hdamage h => ?_,
    fun payload rest i b sizes hmax hi hlt hb => ?_⟩
  · cases hdamage with
    | change i b hi hb => exact readSegment_oneByte h (.of_set hi hb)
    | cut n hn => exact readSegment_cut hlen hn h
    | append more hmore => exact readSegment_appended hlen' hmore h
  · have hsplit := List.take_append_drop 4 (Wal.framed payload)
    have hfour : ((Wal.framed payload).take 4).length = 4 := by
      rw [List.length_take]
      omega
    have hset : (Wal.framed payload).set i b = (Wal.framed payload).take 4
        ++ ((Wal.framed payload).drop 4).set (i - 4) b := by
      conv_lhs => rw [← hsplit]
      rw [List.set_append_right _ _ (by omega), hfour]
    have hone : OneByte ((Wal.framed payload).drop 4)
        (((Wal.framed payload).drop 4).set (i - 4) b) := by
      refine .of_set ?_ ?_
      · rw [List.length_drop]
        omega
      · rwa [List.getElem?_drop, Nat.add_sub_cancel' hi]
    rw [hset]
    exact Wal.readRecord_oneByte hmax hone rest sizes

/-- A byte of the payload of a segment, and the kind of a record. -/
theorem damage_detected_once :
    readSegment ⟨fun _ => none, fun _ => some ⟨[]⟩⟩
        ((∅ : DataDir).insert (.segment 0)
          ((segmentFile [1, 2, 3]).set 21 6)) (.segment 0)
      = .error (.corruptSegment (.segment 0))
    ∧ ∃ why r, Wal.readRecord
        ⟨(Wal.framed [1, 2, 3]).set 8 1 ++ [7], fun _ => 5⟩
      = (.error why, r) :=
  ⟨damage_detected.1 _ _ (.segment 0) [1, 2, 3] _
      (by decide +kernel) (by decide +kernel)
      (.change 21 6 (by decide +kernel) (by decide +kernel))
      (AList.lookup_insert _),
    damage_detected.2 [1, 2, 3] [7] 8 1 _ (by decide) (by decide)
      (by decide +kernel) (by decide +kernel)⟩

end Tsdb
