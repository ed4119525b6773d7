/-
One damaged byte, and the checksum.

# Damage

`OneByte bs bs'` says that the two strings differ in one place. A string
put together of parts has then one damaged part and the others as they
were (`OneByte.append`), which is how the damage of a whole file is
traced to a field of it; and a damaged word is another word
(`OneByte.ofLE_ne`).

# Detection

No two strings with one damaged byte between them have the same checksum
(`Crc32.hash_ne`). The argument is not about polynomials: a step of the
register loses nothing. One bit step is injective (`bitStep_injective`),
for the polynomial has its high bit set, so that the bit shifted out can
be read off the result; hence so is a byte step in the register for a
fixed byte (`byteStep_injective`), and in the byte for a fixed register
(`byteStep_byte_injective`). Two runs over the strings are in the same
register up to the damaged byte, in different ones behind it, and stay
apart over the bytes they share from there on (`update_injective`).
-/
import Tsdb.Lib.Bytes

namespace Lib

/-- One byte has another value. -/
def OneByte (bs bs' : Bytes) : Prop :=
  ∃ before b b' behind, bs = before ++ b :: behind
    ∧ bs' = before ++ b' :: behind ∧ b ≠ b'

namespace OneByte

variable {bs bs' : Bytes}

theorem of_set {i : Nat} {b : UInt8} (hi : i < bs.length)
    (hb : bs[i]? ≠ some b) : OneByte bs (bs.set i b) := by
  refine ⟨bs.take i, bs[i], b, bs.drop (i + 1), ?_, ?_, fun heq => ?_⟩
  · rw [← List.drop_eq_getElem_cons hi, List.take_append_drop]
  · rw [List.set_eq_take_append_cons_drop, if_pos hi]
  · exact hb (by rw [List.getElem?_eq_getElem hi, heq])

theorem length_eq (h : OneByte bs bs') : bs'.length = bs.length := by
  obtain ⟨before, b, b', behind, rfl, rfl, -⟩ := h
  simp

theorem ne (h : OneByte bs bs') : bs' ≠ bs := by
  obtain ⟨before, b, b', behind, rfl, rfl, hne⟩ := h
  intro heq
  have := List.append_cancel_left heq
  exact hne (List.cons.inj this).1.symm

/-- One of two parts is damaged. -/
theorem append {front back : Bytes} (h : OneByte (front ++ back) bs') :
    (∃ front', OneByte front front' ∧ bs' = front' ++ back)
      ∨ ∃ back', OneByte back back' ∧ bs' = front ++ back' := by
  obtain ⟨before, b, b', behind, heq, rfl, hne⟩ := h
  rcases List.append_eq_append_iff.mp heq with
    ⟨mid, rfl, hback⟩ | ⟨mid, rfl, hcons⟩
  · exact .inr ⟨mid ++ b' :: behind, ⟨mid, b, b', behind, hback, rfl, hne⟩,
      List.append_assoc _ _ _⟩
  · cases mid with
    | nil =>
        refine .inr ⟨b' :: behind, ⟨[], b, b', behind, ?_, rfl, hne⟩, ?_⟩
        · exact hcons.symm
        · simp
    | cons b₀ mid =>
        obtain ⟨rfl, rfl⟩ := List.cons.inj hcons
        exact .inl ⟨before ++ b' :: mid, ⟨before, b, b', mid, rfl, rfl, hne⟩,
          by simp⟩

/-- A word with a damaged byte is another word. -/
theorem ofLE_ne {n v : Nat} (h : OneByte (toLE n v) bs') :
    ofLE bs' ≠ ofLE (toLE n v) := by
  intro heq
  have hback := toLE_ofLE bs'
  rw [h.length_eq, heq, toLE_ofLE] at hback
  exact h.ne hback.symm

end OneByte

-- =========================================================== the checksum

namespace Crc32

private theorem low_bit (x : UInt32) :
    x &&& 1 = 1 ↔ x.toBitVec.getLsbD 0 = true := by
  rw [← UInt32.toBitVec_inj, UInt32.toBitVec_and]
  show x.toBitVec &&& 1#32 = 1#32 ↔ _
  rw [BitVec.and_one_eq_setWidth_ofBool_getLsbD]
  cases x.toBitVec.getLsbD 0 <;> decide

/-- A step bit by bit: all move down, and the low one is spread over the
polynomial. -/
private theorem bitStep_bit (x : UInt32) (j : Nat) :
    (bitStep x).toBitVec.getLsbD j = (x.toBitVec.getLsbD (1 + j)
      ^^ (x.toBitVec.getLsbD 0 && (0xEDB88320#32).getLsbD j)) := by
  have hshift : (x >>> 1).toBitVec.getLsbD j
      = x.toBitVec.getLsbD (1 + j) := by
    rw [UInt32.toBitVec_shiftRight]
    exact BitVec.getLsbD_ushiftRight _ _ _
  unfold bitStep
  by_cases h : x &&& 1 = 1
  · rw [if_pos h, UInt32.toBitVec_xor, BitVec.getLsbD_xor, hshift,
      (low_bit x).mp h, Bool.true_and]
    rfl
  · have h₀ : x.toBitVec.getLsbD 0 = false :=
      Bool.eq_false_iff.mpr fun h₁ => h ((low_bit x).mpr h₁)
    rw [if_neg h, hshift, h₀, Bool.false_and, Bool.xor_false]

theorem bitStep_injective : Function.Injective bitStep := by
  intro x y h
  have hbit : ∀ j, (x.toBitVec.getLsbD (1 + j)
        ^^ (x.toBitVec.getLsbD 0 && (0xEDB88320#32).getLsbD j))
      = (y.toBitVec.getLsbD (1 + j)
        ^^ (y.toBitVec.getLsbD 0 && (0xEDB88320#32).getLsbD j)) := by
    intro j
    rw [← bitStep_bit, ← bitStep_bit, h]
  -- the top bit of the step is the low bit that has been shifted out
  have h₀ : x.toBitVec.getLsbD 0 = y.toBitVec.getLsbD 0 := by
    have htop : (0xEDB88320#32).getLsbD 31 = true := by decide
    have hx := BitVec.getLsbD_of_ge x.toBitVec (1 + 31) (by decide)
    have hy := BitVec.getLsbD_of_ge y.toBitVec (1 + 31) (by decide)
    have h₃₁ := hbit 31
    rwa [htop, hx, hy, Bool.and_true, Bool.and_true, Bool.false_xor,
      Bool.false_xor] at h₃₁
  apply UInt32.toBitVec_inj.mp
  refine BitVec.eq_of_getLsbD_eq fun i _ => ?_
  cases i with
  | zero => exact h₀
  | succ j =>
      have hj := hbit j
      rw [h₀, Bool.xor_left_inj, Nat.add_comm] at hj
      exact hj

theorem bitSteps_injective (n : Nat) : Function.Injective (bitSteps n) := by
  induction n with
  | zero => exact Function.injective_id
  | succ n ih => exact ih.comp bitStep_injective

/-- Two registers apart stay apart over a byte. -/
theorem byteStep_injective (b : UInt8) :
    Function.Injective (byteStep · b) := by
  intro x y h
  exact UInt32.xor_left_inj _ |>.mp (bitSteps_injective 8 h)

theorem byteStep_byte_injective (crc : UInt32) :
    Function.Injective (byteStep crc) := by
  intro b b' h
  have := UInt32.xor_right_inj _ |>.mp (bitSteps_injective 8 h)
  exact UInt8.toUInt32_inj.mp this

theorem update_injective (bs : Bytes) :
    Function.Injective (update · bs) := by
  induction bs with
  | nil => exact Function.injective_id
  | cons b bs ih => exact ih.comp (byteStep_injective b)

/-- One damaged byte changes the checksum. -/
theorem hash_ne {bs bs' : Bytes} (h : OneByte bs bs') :
    hash bs' ≠ hash bs := by
  obtain ⟨before, b, b', behind, rfl, rfl, hne⟩ := h
  intro heq
  have hreg := (UInt32.xor_left_inj _).mp heq
  unfold update at hreg
  rw [List.foldl_append, List.foldl_append, List.foldl_cons,
    List.foldl_cons] at hreg
  exact hne (byteStep_byte_injective _ (update_injective behind hreg)).symm

end Crc32

end Lib
