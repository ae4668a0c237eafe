import Mathlib
import QuantumCompiler.Numeric.Double

/-!
# The order of doubles

Doubles that are numbers are in a linear order: by sign, exponent and significand. A value that is not a
number compares false with everything and loses against any number, so the largest one of a list says
nothing about the values in it that are not numbers, and is the largest of the others.
-/
namespace QuantumCompiler.Double

open Float.Model (UnpackedFloat)

/-! ## Places -/

/-- The place of a number in the order: its class first, then its exponent and its significand, mirrored for a
negative number. -/
def place : UnpackedFloat → ℤ ×ₗ ℤ ×ₗ ℤ
  | .infinity .negative => toLex (-2, toLex (0, 0))
  | .finite .negative m e _ => toLex (-1, toLex (-e, -m))
  | .zero _ => toLex (0, toLex (0, 0))
  | .notANumber => toLex (0, toLex (0, 0))
  | .finite .positive m e _ => toLex (1, toLex (e, m))
  | .infinity .positive => toLex (2, toLex (0, 0))

theorem then_eq_lt_iff {a b : ℤ} {m n : Nat} :
    (compare a b).then (compare m n) = .lt ↔ a < b ∨ a = b ∧ m < n := by
  rw [Ordering.then_eq_lt, compare_lt_iff_lt, compare_eq_iff_eq, compare_lt_iff_lt]

theorem then_eq_gt_iff {a b : ℤ} {m n : Nat} :
    (compare a b).then (compare m n) = .gt ↔ b < a ∨ b = a ∧ n < m := by
  rw [Ordering.then_eq_gt, compare_gt_iff_gt, compare_eq_iff_eq, compare_gt_iff_gt, eq_comm]

/-- Numbers compare as their places do. -/
theorem compare_eq_lt_iff {u v : UnpackedFloat} (hu : u.isNaN = false) (hv : v.isNaN = false) :
    u.compare v = some .lt ↔ place u < place v := by
  have hsigns : compare UnpackedFloat.Sign.negative UnpackedFloat.Sign.positive = .lt := rfl
  rcases u with (_ | _) | _ | _ | ⟨_ | _, m, e, hm⟩ <;> rcases v with (_ | _) | _ | _ | ⟨_ | _, n, f, hn⟩ <;>
    simp [UnpackedFloat.compare, UnpackedFloat.isNaN, place, Prod.Lex.toLex_lt_toLex,
      then_eq_lt_iff, then_eq_gt_iff, Ordering.swap_eq_lt, hsigns] at *
  -- Two negative numbers, whose places are mirrored.
  all_goals omega

theorem compare_eq_gt_iff {u v : UnpackedFloat} (hu : u.isNaN = false) (hv : v.isNaN = false) :
    u.compare v = some .gt ↔ place v < place u := by
  have hsigns : compare UnpackedFloat.Sign.positive UnpackedFloat.Sign.negative = .gt := rfl
  rcases u with (_ | _) | _ | _ | ⟨_ | _, m, e, hm⟩ <;> rcases v with (_ | _) | _ | _ | ⟨_ | _, n, f, hn⟩ <;>
    simp [UnpackedFloat.compare, UnpackedFloat.isNaN, place, Prod.Lex.toLex_lt_toLex,
      then_eq_lt_iff, then_eq_gt_iff, Ordering.swap_eq_gt, hsigns] at *
  all_goals omega

theorem compare_eq_none_iff {u v : UnpackedFloat} :
    u.compare v = none ↔ u.isNaN = true ∨ v.isNaN = true := by
  rcases u with (_ | _) | _ | _ | ⟨_ | _, m, e, hm⟩ <;> rcases v with (_ | _) | _ | _ | ⟨_ | _, n, f, hn⟩ <;>
    simp [UnpackedFloat.compare, UnpackedFloat.isNaN]

/-! ## Comparisons -/

variable {x y z : Float}

/-- A double in the order of numbers. -/
def rank (x : Float) : ℤ ×ₗ ℤ ×ₗ ℤ := place x.toModel.unpack

theorem lt_iff : x < y ↔ x.isNaN = false ∧ y.isNaN = false ∧ rank x < rank y := by
  have hcompare : x < y ↔ x.toModel.unpack.compare y.toModel.unpack = some .lt := by
    show decide (x.toModel.unpack.lt y.toModel.unpack = true) = true ↔ _
    rw [decide_eq_true_iff, UnpackedFloat.lt, beq_iff_eq]
  rw [hcompare]
  constructor
  · intro h
    have hnumbers : ¬(x.isNaN = true ∨ y.isNaN = true) := fun hnan => by
      rw [compare_eq_none_iff.mpr hnan] at h
      cases h
    rw [not_or, Bool.not_eq_true, Bool.not_eq_true] at hnumbers
    exact ⟨hnumbers.1, hnumbers.2, (compare_eq_lt_iff hnumbers.1 hnumbers.2).mp h⟩
  · rintro ⟨hx, hy, h⟩
    exact (compare_eq_lt_iff hx hy).mpr h

theorem le_iff : x ≤ y ↔ x.isNaN = false ∧ y.isNaN = false ∧ rank x ≤ rank y := by
  have hcompare : x ≤ y ↔ (x.toModel.unpack.compare y.toModel.unpack).any (·.isLE) = true := by
    show decide (x.toModel.unpack.le y.toModel.unpack = true) = true ↔ _
    rw [decide_eq_true_iff, UnpackedFloat.le]
  rw [hcompare]
  by_cases hnan : x.isNaN = true ∨ y.isNaN = true
  · rw [compare_eq_none_iff.mpr hnan]
    refine iff_of_false Bool.false_ne_true fun ⟨hx, hy, _⟩ => ?_
    rw [hx, hy] at hnan
    exact hnan.elim Bool.false_ne_true Bool.false_ne_true
  · have hsome := mt compare_eq_none_iff.mp hnan
    rw [not_or, Bool.not_eq_true, Bool.not_eq_true] at hnan
    rw [and_iff_right hnan.1, and_iff_right hnan.2, ← not_lt, rank, rank,
      ← compare_eq_gt_iff hnan.1 hnan.2]
    cases h : x.toModel.unpack.compare y.toModel.unpack with
    | none => exact absurd h hsome
    | some o => cases o <;> simp

/-- What no number is above is below it, or no number. -/
theorem not_lt_iff (hx : x.isNaN = false) : ¬x < y ↔ y ≤ x ∨ y.isNaN = true := by
  rw [lt_iff, le_iff, and_iff_right hx, and_iff_right hx]
  cases hy : y.isNaN with
  | false => simp only [true_and, not_lt, Bool.false_eq_true, or_false]
  | true => simp only [Bool.true_eq_false, false_and, not_false_eq_true, or_true]

/-! ## The largest value -/

theorem lt_max : z < max x y ↔ z < x ∨ z < y := by
  rw [max]
  split
  next hx => simp only [lt_iff (y := x), hx, Bool.true_eq_false, false_and, and_false, false_or]
  split
  next hy => simp only [lt_iff (y := y), hy, Bool.true_eq_false, false_and, and_false, or_false]
  next hx hy =>
    rw [Bool.not_eq_true] at hx hy
    simp only [lt_iff (y := x), lt_iff (y := y), hx, hy, true_and]
    split
    next hlt =>
      rw [lt_iff, and_iff_right hy]
      exact ⟨.inr, fun h => h.elim (fun h => ⟨h.1, h.2.trans hlt⟩) id⟩
    next hge =>
      rw [lt_iff, and_iff_right hx]
      exact ⟨.inl, fun h => h.elim id fun h => ⟨h.1, h.2.trans_le (not_lt.mp hge)⟩⟩

/-- What lies below the largest of some magnitudes lies below one of them. -/
theorem lt_maximum {xs : List Float} (hz : ¬z < 0) : z < Scalar.maximum xs ↔ ∃ x ∈ xs, z < x := by
  have hfold (best : Float) : z < xs.foldl max best ↔ z < best ∨ ∃ x ∈ xs, z < x := by
    induction xs generalizing best with
    | nil => simp only [List.foldl_nil, List.not_mem_nil, false_and, exists_false, or_false]
    | cons x xs ih => simp only [List.foldl_cons, ih, lt_max, List.mem_cons, exists_eq_or_imp, or_assoc]
  exact (hfold 0).trans (or_iff_right hz)

/-- Values that are no numbers leave the largest magnitude at zero. -/
theorem maximum_replicate (hx : x.isNaN = true) (k : Nat) :
    Scalar.maximum (List.replicate k x) = (0 : Float) := by
  have hzero : max 0 x = 0 := by
    rw [max, hx]
    rfl
  induction k with
  | zero => rfl
  | succ k ih =>
    show List.foldl max (max 0 x) (List.replicate k x) = 0
    rw [hzero]
    exact ih

/-! ## Values that are no numbers -/

theorem nan_add (x : Float) : Float.nan + x = Float.nan := rfl

theorem nan_sub (x : Float) : Float.nan - x = Float.nan := rfl

theorem nan_mul (x : Float) : Float.nan * x = Float.nan := rfl

theorem add_nan (x : Float) : x + Float.nan = Float.nan := by
  have hadd (u : UnpackedFloat) : u.add .binary64 .notANumber = .notANumber := by cases u <;> rfl
  exact congrArg (fun u => Float.ofModel (.pack u)) (hadd x.toModel.unpack)

theorem sub_nan (x : Float) : x - Float.nan = Float.nan := by
  have hsub (u : UnpackedFloat) : u.sub .binary64 .notANumber = .notANumber := by cases u <;> rfl
  exact congrArg (fun u => Float.ofModel (.pack u)) (hsub x.toModel.unpack)

theorem mul_nan (x : Float) : x * Float.nan = Float.nan := by
  have hmul (u : UnpackedFloat) : u.mul .binary64 .notANumber = .notANumber := by cases u <;> rfl
  exact congrArg (fun u => Float.ofModel (.pack u)) (hmul x.toModel.unpack)

end QuantumCompiler.Double
