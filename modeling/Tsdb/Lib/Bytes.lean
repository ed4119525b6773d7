/-
Byte strings: little-endian words and the reflected CRC-32.

# Words

`toLE n v` writes the low `8 n` bits of `v`, least significant byte
first, and `ofLE` reads any byte string back; each inverts the other up
to the width (`ofLE_toLE`, `toLE_ofLE`). A cast that keeps only the low
bits of a number before writing it is therefore no separate operation:
writing casts.

# The checksum

It is the standard one (polynomial `0xEDB88320`, register complemented on
the way in and out), computed a bit at a time. Nothing here says that it
detects anything: that is a property of the register as a linear map, and
stands with the damaged bytes it is about. What stands here is only the
definition, with the usual check value as its test.
-/
import Mathlib.Data.Nat.Init
import Mathlib.Data.UInt

namespace Lib

abbrev Bytes := List UInt8

-- ================================================== little-endian words

def toLE : Nat → Nat → Bytes
  | 0, _ => []
  | n + 1, v => UInt8.ofNat v :: toLE n (v / 256)

def ofLE : Bytes → Nat
  | [] => 0
  | b :: bs => b.toNat + 256 * ofLE bs

@[simp] theorem toLE_length (n v : Nat) : (toLE n v).length = n := by
  induction n generalizing v with
  | zero => rfl
  | succ n ih => rw [toLE, List.length_cons, ih]

theorem ofLE_toLE (n v : Nat) : ofLE (toLE n v) = v % 256 ^ n := by
  induction n generalizing v with
  | zero => rw [toLE, ofLE, Nat.pow_zero, Nat.mod_one]
  | succ n ih =>
      rw [toLE, ofLE, ih, Nat.pow_succ', Nat.mod_mul]
      simp [UInt8.toNat_ofNat']

theorem ofLE_toLE_of_lt {n v : Nat} (h : v < 256 ^ n) :
    ofLE (toLE n v) = v := by
  rw [ofLE_toLE, Nat.mod_eq_of_lt h]

/-- What was read is what it is written as. -/
theorem toLE_ofLE (bs : Bytes) : toLE bs.length (ofLE bs) = bs := by
  induction bs with
  | nil => rfl
  | cons b bs ih =>
      have hb := b.toNat_lt
      have hmod : (b.toNat + 256 * ofLE bs) % 256 = b.toNat := by omega
      have hdiv : (b.toNat + 256 * ofLE bs) / 256 = ofLE bs := by omega
      rw [ofLE, List.length_cons, toLE, hdiv, ih]
      congr 1
      apply UInt8.toNat_inj.mp
      rw [UInt8.toNat_ofNat']
      exact hmod

theorem ofLE_lt (bs : Bytes) : ofLE bs < 256 ^ bs.length := by
  induction bs with
  | nil => simp [ofLE]
  | cons b bs ih =>
      have hb := b.toNat_lt
      rw [ofLE, List.length_cons, Nat.pow_succ']
      omega

-- =============================================================== CRC-32

namespace Crc32

/-- One bit of the reflected division. -/
def bitStep (crc : UInt32) : UInt32 :=
  if crc &&& 1 = 1 then (crc >>> 1) ^^^ 0xEDB88320 else crc >>> 1

/-- `n` bits. -/
def bitSteps : Nat → UInt32 → UInt32
  | 0, crc => crc
  | n + 1, crc => bitSteps n (bitStep crc)

def byteStep (crc : UInt32) (b : UInt8) : UInt32 :=
  bitSteps 8 (crc ^^^ b.toUInt32)

def update (crc : UInt32) (bs : Bytes) : UInt32 := bs.foldl byteStep crc

/-- The checksum of a byte string. -/
def hash (bs : Bytes) : UInt32 := update 0xFFFFFFFF bs ^^^ 0xFFFFFFFF

example : hash [0x31, 0x32, 0x33, 0x34, 0x35, 0x36, 0x37, 0x38, 0x39]
    = 0xCBF43926 := by decide +kernel

end Crc32

end Lib
