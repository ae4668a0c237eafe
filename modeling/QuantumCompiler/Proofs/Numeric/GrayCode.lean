import Mathlib
import QuantumCompiler.Numeric.GrayCode

/-!
# Walking through all patterns

The codes of the numbers below `2ⁿ` are the patterns of `n` bits, each once. Neighbours differ in one bit.
It lies below the highest bit, unless the number is a power of two; then the code before it has that one
bit and no other.
-/
namespace QuantumCompiler

theorem testBit_gray (i k : Nat) : (gray i).testBit k = (i.testBit k ^^ i.testBit (k + 1)) := by
  rw [gray, Nat.testBit_xor, Nat.testBit_shiftRight, Nat.add_comm 1]

theorem gray_xor (i j : Nat) : gray (i ^^^ j) = gray i ^^^ gray j := by
  refine Nat.eq_of_testBit_eq fun k => ?_
  simp only [testBit_gray, Nat.testBit_xor]
  grind

theorem gray_lt {i n : Nat} (h : i < 2 ^ n) : gray i < 2 ^ n :=
  Nat.xor_lt_two_pow h ((Nat.shiftRight_le i 1).trans_lt h)

section Leading

variable {i : Nat}

/-- A number and its code have the same highest bit. -/
theorem testBit_gray_log2 (h : i ≠ 0) : (gray i).testBit i.log2 = true := by
  rw [testBit_gray, Nat.testBit_log2 h, Nat.testBit_lt_two_pow Nat.lt_log2_self]
  rfl

theorem testBit_gray_of_log2_lt {k : Nat} (hk : i.log2 < k) : (gray i).testBit k = false :=
  Nat.testBit_lt_two_pow ((gray_lt Nat.lt_log2_self).trans_le (Nat.pow_le_pow_right (by decide) hk))

end Leading

theorem gray_injective : Function.Injective gray := by
  intro i j h
  by_contra hne
  have hzero : gray (i ^^^ j) = 0 := by rw [gray_xor, h, Nat.xor_self]
  have hbit := testBit_gray_log2 (i := i ^^^ j) (by rwa [Ne, Nat.xor_eq_zero_iff])
  rw [hzero, Nat.zero_testBit] at hbit
  cases hbit

/-- The last of the codes below `2ⁿ⁺¹` has the highest bit alone. -/
theorem gray_two_pow_sub_one (n : Nat) : gray (2 ^ (n + 1) - 1) = 2 ^ n := by
  refine Nat.eq_of_testBit_eq fun k => ?_
  rw [testBit_gray, Nat.testBit_two_pow_sub_one, Nat.testBit_two_pow_sub_one, Nat.testBit_two_pow]
  grind

/-- Counting up turns the zeros at the end of a number into ones and the one before them into a zero. -/
theorem xor_pred_two_pow_mul (b c : Nat) :
    (2 ^ b * (2 * c + 1)) ^^^ (2 ^ b * (2 * c + 1) - 1) = 2 ^ (b + 1) - 1 := by
  have hpos : 0 < 2 ^ b := Nat.two_pow_pos b
  have hpred : 2 ^ b * (2 * c + 1) - 1 = 2 ^ b * (2 * c) + (2 ^ b - 1) := by
    rw [Nat.mul_add_one]
    omega
  refine Nat.eq_of_testBit_eq fun k => ?_
  rw [Nat.testBit_xor, hpred, Nat.testBit_two_pow_mul, Nat.testBit_two_pow_mul_add _ (by omega),
    Nat.testBit_two_pow_sub_one, Nat.testBit_two_pow_sub_one]
  obtain hk | rfl | hk := lt_trichotomy k b
  · simp [hk, Nat.not_le.mpr hk, Nat.lt_succ_of_lt hk]
  · simp
  · obtain ⟨j, rfl⟩ := Nat.exists_eq_add_of_lt hk
    have hshift : b + j + 1 - b = j + 1 := by omega
    have hhalf : (2 * c + 1) / 2 = c := by omega
    simp [hshift, Nat.testBit_succ, hhalf, show ¬ b + j + 1 < b by omega,
      show b ≤ b + j + 1 by omega]

/-- From one code to the next one bit below the highest changes, or the highest bit joins a single one
just below it. -/
theorem exists_gray_eq {i : Nat} (h : 1 < i) :
    ∃ b < i.log2, (i - 1).log2 = i.log2 ∧ gray i = gray (i - 1) ^^^ 2 ^ b ∨
      gray (i - 1) = 2 ^ b ∧ gray i = 2 ^ b ^^^ 2 ^ i.log2 := by
  have hi : i ≠ 0 := by omega
  obtain ⟨b, m, ⟨c, rfl⟩, rfl⟩ := Nat.exists_eq_two_pow_mul_odd hi
  have hflip : gray (2 ^ b * (2 * c + 1)) = gray (2 ^ b * (2 * c + 1) - 1) ^^^ 2 ^ b := by
    have hx := congrArg gray (xor_pred_two_pow_mul b c)
    rw [gray_xor, gray_two_pow_sub_one] at hx
    generalize gray (2 ^ b * (2 * c + 1) - 1) = g, gray (2 ^ b * (2 * c + 1)) = g' at hx ⊢
    rw [← hx, Nat.xor_comm g, Nat.xor_xor_cancel_right]
  cases c with
  | zero =>
    -- a power of two, whose highest bit is the one that changes
    simp only [Nat.mul_zero, Nat.zero_add, Nat.mul_one] at h hflip ⊢
    obtain ⟨m, rfl⟩ : ∃ m, b = m + 1 := Nat.exists_eq_succ_of_ne_zero fun hb => by
      rw [hb] at h
      omega
    refine ⟨m, by simp, .inr ⟨gray_two_pow_sub_one m, ?_⟩⟩
    rw [hflip, gray_two_pow_sub_one, Nat.log2_two_pow]
  | succ c =>
    have hlt : b < (2 ^ b * (2 * (c + 1) + 1)).log2 := by
      rw [← Nat.succ_le_iff, Nat.le_log2 hi, Nat.pow_succ]
      exact Nat.mul_le_mul_left _ (by omega)
    refine ⟨b, hlt, .inl ⟨?_, hflip⟩⟩
    generalize hl : (2 ^ b * (2 * (c + 1) + 1)).log2 = l at hlt
    obtain ⟨hle, hlt'⟩ := (Nat.log2_eq_iff hi).mp hl
    -- the number has an odd part, so it is not the power of two that it is counted from
    have hne : 2 ^ b * (2 * (c + 1) + 1) ≠ 2 ^ l := by
      obtain ⟨k, rfl⟩ := Nat.exists_eq_add_of_lt hlt
      rw [Nat.add_assoc, Nat.pow_add, Nat.pow_succ]
      intro he
      have := Nat.eq_of_mul_eq_mul_left (Nat.two_pow_pos b) he
      omega
    exact (Nat.log2_eq_iff (by omega)).mpr ⟨by omega, by omega⟩

/-- A count of ones, bit by bit. -/
theorem popCount_eq_card {n i : Nat} (h : i < 2 ^ n) :
    popCount i = ((Finset.range n).filter fun b => i.testBit b).card := by
  induction n generalizing i with
  | zero =>
    obtain rfl : i = 0 := by omega
    simp [popCount]
  | succ n ih =>
    have hhalf := ih (i := i / 2) (by
      rw [Nat.pow_succ] at h
      omega)
    rw [Finset.card_filter] at hhalf ⊢
    rw [Finset.sum_range_succ']
    simp only [Nat.testBit_succ, ← hhalf]
    rw [popCount]
    split
    · subst i
      simp [popCount]
    · rw [Nat.testBit_zero, Nat.add_comm]
      congr 1
      have := Nat.mod_two_eq_zero_or_one i
      grind

end QuantumCompiler
