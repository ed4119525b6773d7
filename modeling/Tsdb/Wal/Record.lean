/-
The unit of the log (`storage/wal/record.rs`, `storage/wal/error.rs`): a
nine-byte header, then a payload. The header carries the payload's
length, a checksum over kind, length and payload, and the kind.

# The header

`encode` and `decode` are the source's, field by field. Kind, length and
checksum are whatever the nine bytes say, and are judged by the reader
(`Tsdb.Wal.Reader`): the kind first, then the length against the largest
record, so that it never asks for a buffer of more, and the checksum when
it has the payload.

Reading a record back needs of the checksum only that it is a function of
what it covers, and so does everything in `Tsdb.Wal` and `Tsdb.Db`. What
it detects is another matter (`Lib.Damage`, `Tsdb.Damage`).

# The contents

A `WalRecord` is what one write adds to the log: the series it is the
first to speak of in this generation, with their labels, and the samples
it was told to write, by series. The ids in it are those the process that
wrote it used; another process gives the same series other ids when it
replays the log (`Tsdb.Wal.Replay`).

# The errors

The three kinds of error are data, as the source has them. Where a
theorem says that something is refused it says with which, except that an
error of the file system carries nothing here but that it was one.
-/
import Tsdb.Lib.Bytes
import Tsdb.Model

namespace Tsdb.Wal

/-- Results of fallible code are compared as they are. -/
instance exceptDecidableEq {ε α : Type} [DecidableEq ε] [DecidableEq α] :
    DecidableEq (Except ε α)
  | .error e, .error e' =>
      decidable_of_iff (e = e') ⟨congrArg _, Except.error.inj⟩
  | .ok a, .ok a' => decidable_of_iff (a = a') ⟨congrArg _, Except.ok.inj⟩
  | .error _, .ok _ => .isFalse nofun
  | .ok _, .error _ => .isFalse nofun

open Lib (Bytes toLE ofLE)

-- ================================================================ errors

inductive CodecError
  | unexpectedEof
  | badUtf8
  | trailingBytes
deriving DecidableEq, Repr

inductive Corruption
  | truncated
  | invalidKind (kind : UInt8)
  | invalidLength (len : UInt32)
  | checksumMismatch
  | invalidPayload (e : CodecError)
deriving DecidableEq, Repr

inductive WalError
  | io
  | recordTooLarge (bytes : Nat)
  | corrupt (segmentId offset : Nat) (reason : Corruption)
  | closed
deriving DecidableEq, Repr

-- =============================================================== headers

/-- `MAX_RECORD_BYTES`. -/
def maxRecordBytes : Nat := 64 * 1024 * 1024

inductive RecordKind
  | write
deriving DecidableEq, Repr

/-- `kind as u8`. -/
def RecordKind.toU8 : RecordKind → UInt8
  | .write => 0

def RecordKind.fromU8 (v : UInt8) : Option RecordKind :=
  if v = 0 then some .write else none

theorem RecordKind.fromU8_toU8 (kind : RecordKind) :
    fromU8 kind.toU8 = some kind := by
  cases kind
  rfl

def recordCrc (kind : UInt8) (len : UInt32) (payload : Bytes) : UInt32 :=
  Lib.Crc32.hash ([kind] ++ toLE 4 len.toNat ++ payload)

structure RecordHeader where
  len : UInt32
  crc : UInt32
  kind : UInt8
deriving DecidableEq, Repr

namespace RecordHeader

def encodedLen : Nat := 4 + 4 + 1

def forPayload (kind : RecordKind) (payload : Bytes) : RecordHeader :=
  let len := UInt32.ofNat payload.length
  { len := len, crc := recordCrc kind.toU8 len payload, kind := kind.toU8 }

def encode (h : RecordHeader) : Bytes :=
  toLE 4 h.len.toNat ++ toLE 4 h.crc.toNat ++ [h.kind]

/-- `RecordHeader::decode`, of an array of `encodedLen` bytes. -/
def decode (bytes : Bytes) : RecordHeader where
  len := UInt32.ofNat (ofLE (bytes.take 4))
  crc := UInt32.ofNat (ofLE ((bytes.drop 4).take 4))
  kind := bytes.getD 8 0

@[simp] theorem encode_length (h : RecordHeader) :
    h.encode.length = encodedLen := by
  simp [encode, encodedLen]

/-- A header survives encoding, whatever follows it. -/
theorem decode_encode (h : RecordHeader) (rest : Bytes) :
    decode (h.encode ++ rest) = h := by
  have hlen : (toLE 4 h.len.toNat).length = 4 := Lib.toLE_length 4 _
  have hcrc : (toLE 4 h.crc.toNat).length = 4 := Lib.toLE_length 4 _
  have hkind : (toLE 4 h.len.toNat ++ toLE 4 h.crc.toNat).length = 8 := by
    rw [List.length_append, hlen, hcrc]
  have h₁ : UInt32.ofNat (ofLE (toLE 4 h.len.toNat)) = h.len := by
    rw [Lib.ofLE_toLE_of_lt h.len.toNat_lt, UInt32.ofNat_toNat]
  have h₂ : UInt32.ofNat (ofLE (toLE 4 h.crc.toNat)) = h.crc := by
    rw [Lib.ofLE_toLE_of_lt h.crc.toNat_lt, UInt32.ofNat_toNat]
  unfold decode encode
  simp only [List.append_assoc, List.take_left' hlen, List.drop_left' hlen,
    List.take_left' hcrc, h₁, h₂]
  rw [← List.append_assoc, List.getD_eq_getElem?_getD,
    List.getElem?_append_right (by omega), hkind]
  rfl

end RecordHeader

-- ============================================================== contents

structure SeriesEntry where
  id : SeriesId
  labels : LabelSet
deriving DecidableEq, Repr

structure SamplesEntry where
  id : SeriesId
  samples : List Sample
deriving DecidableEq, Repr

structure WalRecord where
  series : List SeriesEntry
  samples : List SamplesEntry
deriving DecidableEq, Repr

end Tsdb.Wal
