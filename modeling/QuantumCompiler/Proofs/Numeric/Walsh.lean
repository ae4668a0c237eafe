import Mathlib
import QuantumCompiler.Proofs.Numeric.GrayCode

/-!
# Shared parities

Two patterns share a parity: whether an odd number of bits is set in both. Read as signs, the parities that
the patterns of `n` bits share with two given ones are orthogonal. So a list of `2ⁿ` numbers can be had
back from its signed sums, taken in any order of the patterns, and in that of the reflected code too.
-/
namespace QuantumCompiler

/-! ## Parities -/

section Parity

variable {i j k b : Nat}

/-- Whether an odd number of bits is set in both patterns. -/
def sharedParity (i j : Nat) : Bool := popCount (i &&& j) % 2 == 1

theorem popCount_zero : popCount 0 = 0 := by simp [popCount]

theorem popCount_eq (i : Nat) : popCount i = i % 2 + popCount (i / 2) := by
  by_cases h : i = 0
  · rw [h, Nat.zero_mod, Nat.zero_div, popCount_zero]
  · rw [popCount, if_neg h]

theorem popCount_two_pow (b : Nat) : popCount (2 ^ b) = 1 := by
  induction b with
  | zero => simp [popCount]
  | succ b ih =>
    rw [popCount_eq, pow_succ, Nat.mul_mod_left, Nat.mul_div_cancel _ (by decide), ih]

/-- The ones of an exclusive or are those of both patterns, up to an even number. -/
theorem popCount_xor_mod_two (i j : Nat) :
    popCount (i ^^^ j) % 2 = (popCount i + popCount j) % 2 := by
  induction i using Nat.strongRecOn generalizing j with
  | _ i ih =>
    by_cases hi : i = 0
    · rw [hi, Nat.zero_xor, popCount_zero, Nat.zero_add]
    · have hhalf := ih (i / 2) (Nat.div_lt_self (by omega) (by decide)) (j / 2)
      rw [popCount_eq (i ^^^ j), popCount_eq i, popCount_eq j, Nat.xor_div_two, Nat.xor_mod_two_eq]
      omega

theorem sharedParity_zero (i : Nat) : sharedParity i 0 = false := by
  simp [sharedParity, popCount_zero]

theorem sharedParity_xor (i j k : Nat) :
    sharedParity i (j ^^^ k) = (sharedParity i j ^^ sharedParity i k) := by
  simp only [sharedParity, Nat.and_xor_distrib_left]
  have h := popCount_xor_mod_two (i &&& j) (i &&& k)
  rcases Nat.mod_two_eq_zero_or_one (popCount (i &&& j)) with hj | hj <;>
    rcases Nat.mod_two_eq_zero_or_one (popCount (i &&& k)) with hk | hk <;>
    simp [h, hj, hk, Nat.add_mod]

/-- A single bit is shared or not. -/
theorem sharedParity_two_pow (i b : Nat) : sharedParity i (2 ^ b) = i.testBit b := by
  rw [sharedParity, Nat.and_two_pow]
  cases i.testBit b with
  | false => simp [popCount_zero]
  | true => simp [popCount_two_pow]

end Parity

/-! ## Orthogonality -/

section Sign

/-- A parity as a sign. -/
def paritySign (odd : Bool) : ℝ := if odd then -1 else 1

theorem paritySign_xor (a b : Bool) : paritySign (a ^^ b) = paritySign a * paritySign b := by
  cases a <;> cases b <;> simp [paritySign]

theorem paritySign_mul_self (a : Bool) : paritySign a * paritySign a = 1 := by
  rw [← paritySign_xor, Bool.xor_self]
  rfl

variable {n i j : Nat}

/-- Changing a bit that just one of two patterns has turns the product of their signs. -/
theorem paritySign_mul_flip {b : Nat} (h : i.testBit b ≠ j.testBit b) (g : Nat) :
    paritySign (sharedParity i (g ^^^ 2 ^ b)) * paritySign (sharedParity j (g ^^^ 2 ^ b)) =
      -(paritySign (sharedParity i g) * paritySign (sharedParity j g)) := by
  have hsign : paritySign (i.testBit b) * paritySign (j.testBit b) = -1 := by
    rw [← paritySign_xor, Bool.xor_iff_ne.mpr h]
    rfl
  simp only [sharedParity_xor, sharedParity_two_pow, paritySign_xor]
  rw [mul_mul_mul_comm, hsign, mul_neg_one]

theorem exists_testBit_ne (hi : i < 2 ^ n) (hj : j < 2 ^ n) (hne : i ≠ j) :
    ∃ b < n, i.testBit b ≠ j.testBit b := by
  by_contra hall
  push Not at hall
  refine hne (Nat.eq_of_testBit_eq fun b => ?_)
  by_cases hb : b < n
  · exact hall b hb
  · have hpow : 2 ^ n ≤ 2 ^ b := Nat.pow_le_pow_right (by decide) (by omega)
    rw [Nat.testBit_lt_two_pow (hi.trans_le hpow), Nat.testBit_lt_two_pow (hj.trans_le hpow)]

/-- The signs of different patterns are orthogonal: patterns that differ in a bit that just one of the two
has cancel. -/
theorem sum_paritySign (hi : i < 2 ^ n) (hj : j < 2 ^ n) :
    ∑ g ∈ Finset.range (2 ^ n), paritySign (sharedParity i g) * paritySign (sharedParity j g) =
      if i = j then 2 ^ n else 0 := by
  split
  · subst j
    simp [paritySign_mul_self]
  · rename_i hne
    obtain ⟨b, hb, hbit⟩ := exists_testBit_ne hi hj hne
    have hpow : 2 ^ b < 2 ^ n := Nat.pow_lt_pow_right (by decide) hb
    refine Finset.sum_involution (fun g _ => g ^^^ 2 ^ b) ?_ ?_ ?_ ?_
    · intro g _
      rw [paritySign_mul_flip hbit, add_neg_cancel]
    · intro g _ _ hg
      exact (Nat.two_pow_pos b).ne' (Nat.xor_right_inj.mp (hg.trans (Nat.xor_zero g).symm))
    · intro g hg
      exact Finset.mem_range.mpr (Nat.xor_lt_two_pow (Finset.mem_range.mp hg) hpow)
    · intro g _
      exact Nat.xor_xor_cancel_right g (2 ^ b)

end Sign

/-! ## The reflected code once around -/

section Around

variable {n i : Nat}

/-- The reflected code passes the patterns of `n` bits in another order. -/
theorem sum_gray {M : Type*} [AddCommMonoid M] (n : Nat) (f : Nat → M) :
    ∑ i ∈ Finset.range (2 ^ n), f (gray i) = ∑ g ∈ Finset.range (2 ^ n), f g := by
  have himage : (Finset.range (2 ^ n)).image gray = Finset.range (2 ^ n) := by
    refine Finset.eq_of_subset_of_card_le (fun g hg => ?_) ?_
    · obtain ⟨i, hi, rfl⟩ := Finset.mem_image.mp hg
      exact Finset.mem_range.mpr (gray_lt (Finset.mem_range.mp hi))
    · rw [Finset.card_image_of_injective _ gray_injective]
  conv_rhs => rw [← himage, Finset.sum_image gray_injective.injOn]

theorem trailingZeros_two_pow (b : Nat) : trailingZeros (2 ^ b) = b := by
  induction b with
  | zero => simp [trailingZeros]
  | succ b ih =>
    have hpos := Nat.two_pow_pos b
    rw [trailingZeros, pow_succ, Nat.mul_mod_left, Nat.mul_div_cancel _ (by decide), ih, if_neg]
    omega

/-- Between a number and the next one a single bit of the code changes, and so it does from the last number
back to zero. -/
theorem exists_gray_xor (hn : 0 < n) (hi : i < 2 ^ n) :
    ∃ b < n, gray i ^^^ gray ((i + 1) % 2 ^ n) = 2 ^ b := by
  obtain hlast | hnext : i + 1 = 2 ^ n ∨ i + 1 < 2 ^ n := by omega
  · obtain ⟨m, rfl⟩ : ∃ m, n = m + 1 := Nat.exists_eq_succ_of_ne_zero hn.ne'
    refine ⟨m, by omega, ?_⟩
    rw [hlast, Nat.mod_self, show i = 2 ^ (m + 1) - 1 by omega, gray_two_pow_sub_one]
    exact Nat.xor_zero _
  · obtain ⟨b, m, ⟨c, rfl⟩, hsplit⟩ := Nat.exists_eq_two_pow_mul_odd i.succ_ne_zero
    have hflip := congrArg gray (xor_pred_two_pow_mul b c)
    rw [gray_xor, gray_two_pow_sub_one, ← hsplit, Nat.succ_sub_one, Nat.xor_comm] at hflip
    refine ⟨b, ?_, by rw [Nat.mod_eq_of_lt hnext]; exact hflip⟩
    -- the bit that changes is one of both codes
    refine (Nat.pow_lt_pow_iff_right (a := 2) (by decide)).mp ?_
    rw [← hflip]
    exact Nat.xor_lt_two_pow (gray_lt hi) (gray_lt hnext)

end Around

end QuantumCompiler
