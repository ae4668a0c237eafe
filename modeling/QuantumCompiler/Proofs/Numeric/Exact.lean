import Mathlib
import QuantumCompiler.Numeric.Scalar

/-!
# Exact arithmetic

Machine numbers round, so an equation between phases holds of the numbers they stand for. `Exact`
names the laws that a reading of scalars as real numbers has to obey for that, and `Ordered` those that
a comparison of sums needs. The real numbers obey them: `real` is their scalar, with no margin for
rounding.
-/
namespace QuantumCompiler.Scalar

/-- Scalars as real numbers: sums are exact, and a remainder of a full turn is a number of full
turns away. -/
structure Exact {R : Type} [Scalar R] (value : R → ℝ) : Prop where
  zero : value 0 = 0
  add : ∀ a b, value (a + b) = value a + value b
  remEuclid_tau : ∀ a, ∃ k : ℤ, value (remEuclid a tau) = value a + k * (2 * Real.pi)

/-- Scalars as real numbers: sums and comparisons are exact, and every number is finite. -/
structure Ordered {R : Type} [Scalar R] (value : R → ℝ) : Prop where
  zero : value 0 = 0
  add : ∀ a b, value (a + b) = value a + value b
  lt_iff : ∀ a b, lt a b = true ↔ value a < value b
  isFinite : ∀ a : R, isFinite a = true

open Classical in
/-- The real numbers as scalars. There is neither an infinite number nor an undefined one. -/
noncomputable abbrev real : Scalar ℝ where
  ofNat n := n
  decimal m k := m / 10 ^ k
  allowance _ := 0
  vanishing := 0
  pi := Real.pi
  unbounded := 0
  undefined := 0
  sqrt := Real.sqrt
  sin := Real.sin
  cos := Real.cos
  ln := Real.log
  abs x := |x|
  round x := if 0 ≤ x then ⌊x + 1 / 2⌋ else ⌈x - 1 / 2⌉
  atan2 y x := Complex.arg ⟨x, y⟩
  hypot x y := Real.sqrt (x ^ 2 + y ^ 2)
  pow x y := x ^ y
  remEuclid x y := x - |y| * ⌊x / |y|⌋
  max x y := Max.max x y
  min x y := Min.min x y
  eq x y := decide (x = y)
  lt x y := decide (x < y)
  le x y := decide (x ≤ y)
  order x y := if x < y then .lt else if x = y then .eq else .gt
  isNegative x := decide (x < 0)
  isFinite _ := true

attribute [local instance] real in
theorem exact_real : Exact (fun x : ℝ => x) where
  zero := Nat.cast_zero
  add _ _ := rfl
  remEuclid_tau a := by
    have htau : (tau : ℝ) = 2 * Real.pi := by
      change ((2 : ℕ) : ℝ) * Real.pi = _
      norm_num
    refine ⟨-⌊a / |(tau : ℝ)|⌋, ?_⟩
    change a - |(tau : ℝ)| * ⌊a / |(tau : ℝ)|⌋ = _
    rw [htau, abs_of_pos Real.two_pi_pos]
    push_cast
    ring

attribute [local instance] real in
theorem ordered_real : Ordered (fun x : ℝ => x) where
  zero := Nat.cast_zero
  add _ _ := rfl
  lt_iff _ _ := decide_eq_true_iff
  isFinite _ := rfl

section Real

attribute [local instance] real

theorem real_zero : @OfNat.ofNat ℝ 0 (instOfNat 0) = 0 := Nat.cast_zero

theorem real_one : @OfNat.ofNat ℝ 1 (instOfNat 1) = 1 := Nat.cast_one

theorem real_sum (xs : List ℝ) : Scalar.sum xs = xs.sum := by
  change xs.foldl (· + ·) (@OfNat.ofNat ℝ 0 (instOfNat 0)) = _
  rw [real_zero, List.sum_eq_foldl]

theorem real_ofNat (n : Nat) [n.AtLeastTwo] : @OfNat.ofNat ℝ n (instOfNat n) = OfNat.ofNat n :=
  Nat.cast_ofNat

theorem real_pi : (pi : ℝ) = Real.pi := rfl

theorem real_cos (x : ℝ) : cos x = Real.cos x := rfl

theorem real_sin (x : ℝ) : sin x = Real.sin x := rfl

theorem real_half : (half : ℝ) = 1 / 2 := by
  show ((5 : ℕ) : ℝ) / 10 ^ 1 = 1 / 2
  norm_num

theorem real_invSqrtTwo : (invSqrtTwo : ℝ) = 1 / Real.sqrt 2 :=
  (congrArg Real.sqrt real_half).trans (by rw [Real.sqrt_div zero_le_one, Real.sqrt_one])

theorem real_quarterTurn : (quarterTurn : ℝ) = Real.pi / 2 :=
  congrArg (Real.pi / ·) (real_ofNat 2)

theorem real_tau : (tau : ℝ) = 2 * Real.pi :=
  congrArg (· * Real.pi) (real_ofNat 2)

theorem real_below_allowance (x : ℝ) (k : Nat) : below x (allowance k) = true ↔ x ≤ 0 := by
  show (decide (x < 0) || (decide ((0 : ℝ) = _) && decide (x ≤ _))) = true ↔ _
  rw [real_zero]
  simp [le_iff_lt_or_eq]

theorem real_remEuclid {period : ℝ} (hp : 0 < period) (θ : ℝ) :
    remEuclid θ period = period * Int.fract (θ / period) := by
  show θ - |period| * ⌊θ / |period|⌋ = _
  rw [abs_of_pos hp, Int.fract, mul_sub, mul_div_cancel₀ _ hp.ne']

/-- The nearest whole number. -/
theorem real_round (x : ℝ) : ∃ k : ℤ, round x = (k : ℝ) ∧ |x - k| ≤ 1 / 2 := by
  by_cases hx : 0 ≤ x
  · refine ⟨⌊x + 1 / 2⌋, if_pos hx, abs_le.mpr ⟨?_, ?_⟩⟩
    · linarith [Int.floor_le (x + 1 / 2)]
    · linarith [Int.lt_floor_add_one (x + 1 / 2)]
  · refine ⟨⌈x - 1 / 2⌉, if_neg hx, abs_le.mpr ⟨?_, ?_⟩⟩
    · linarith [Int.ceil_lt_add_one (x - 1 / 2)]
    · linarith [Int.le_ceil (x - 1 / 2)]

/-- No number of a list is above its largest one. -/
theorem real_le_maximum {xs : List ℝ} {x : ℝ} (hx : x ∈ xs) : x ≤ maximum xs := by
  have hfold (ys : List ℝ) : ∀ a : ℝ, a ≤ ys.foldl Scalar.max a ∧ ∀ y ∈ ys, y ≤ ys.foldl Scalar.max a := by
    induction ys with
    | nil => simp
    | cons y ys ih =>
      intro a
      obtain ⟨hle, hall⟩ := ih (Scalar.max a y)
      exact ⟨(le_max_left a y).trans hle,
        List.forall_mem_cons.mpr ⟨(le_max_right a y).trans hle, hall⟩⟩
  exact (hfold xs _).2 x hx

theorem real_maximum_le {xs : List ℝ} (h : ∀ x ∈ xs, x ≤ 0) : maximum xs ≤ 0 := by
  refine List.foldlRecOn (motive := fun m : ℝ => m ≤ 0) xs _ real_zero.le fun m hm x hx => ?_
  exact max_le hm (h x hx)

end Real

section Exact

variable {R : Type} [Scalar R] {value : R → ℝ}

/-- Numbers added one after another, each time reduced by full turns, add up to their sum. -/
theorem Exact.foldl_remEuclid (h : Exact value) (xs : List R) (a : R) :
    ∃ k : ℤ, value (xs.foldl (fun p x => remEuclid (p + x) tau) a) =
      value a + (xs.map value).sum + k * (2 * Real.pi) := by
  induction xs generalizing a with
  | nil => exact ⟨0, by simp⟩
  | cons x xs ih =>
    obtain ⟨k, hk⟩ := ih (remEuclid (a + x) tau)
    obtain ⟨l, hl⟩ := h.remEuclid_tau (a + x)
    refine ⟨k + l, ?_⟩
    rw [List.foldl_cons, hk, hl, h.add, List.map_cons, List.sum_cons]
    push_cast
    ring

end Exact

end QuantumCompiler.Scalar
