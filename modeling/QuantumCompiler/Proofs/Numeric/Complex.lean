import QuantumCompiler.Numeric.Complex
import QuantumCompiler.Proofs.Numeric.Exact

/-!
# Exact complex numbers

Over the real numbers, complex numbers in Cartesian form are the complex numbers. `toComplex` takes every
operation to its counterpart and tells different numbers apart, so an equation between matrix entries is an
equation between complex numbers.
-/
namespace QuantumCompiler

attribute [local instance] Scalar.real

namespace Cx

/-- The same number. -/
noncomputable def toComplex (z : Cx ℝ) : ℂ := ⟨z.re, z.im⟩

theorem toComplex_injective : Function.Injective toComplex := by
  rintro ⟨a, b⟩ ⟨c, d⟩ h
  obtain ⟨rfl, rfl⟩ := Complex.mk.inj h
  rfl

@[simp] theorem toComplex_zero : (0 : Cx ℝ).toComplex = 0 :=
  Complex.ext Scalar.real_zero Scalar.real_zero

@[simp] theorem toComplex_one : (1 : Cx ℝ).toComplex = 1 :=
  Complex.ext Scalar.real_one Scalar.real_zero

@[simp] theorem toComplex_I : (I : Cx ℝ).toComplex = Complex.I :=
  Complex.ext Scalar.real_zero Scalar.real_one

@[simp] theorem toComplex_ofReal (r : ℝ) : (ofReal r).toComplex = r :=
  Complex.ext rfl Scalar.real_zero

theorem toComplex_mk (a b : ℝ) : (⟨a, b⟩ : Cx ℝ).toComplex = a + b * Complex.I :=
  Complex.mk_eq_add_mul_I a b

@[simp] theorem toComplex_add (a b : Cx ℝ) : (a + b).toComplex = a.toComplex + b.toComplex := rfl

@[simp] theorem toComplex_sub (a b : Cx ℝ) : (a - b).toComplex = a.toComplex - b.toComplex := rfl

@[simp] theorem toComplex_neg (a : Cx ℝ) : (-a).toComplex = -a.toComplex := rfl

@[simp] theorem toComplex_mul (a b : Cx ℝ) : (a * b).toComplex = a.toComplex * b.toComplex := rfl

@[simp] theorem toComplex_conj (a : Cx ℝ) : a.conj.toComplex = (starRingEnd ℂ) a.toComplex := rfl

@[simp] theorem toComplex_ofPolar (r θ : ℝ) :
    (ofPolar r θ).toComplex = r * Complex.exp (θ * Complex.I) := by
  rw [Complex.exp_mul_I, ← Complex.ofReal_cos, ← Complex.ofReal_sin, mul_add, ← mul_assoc,
    ← Complex.ofReal_mul, ← Complex.ofReal_mul]
  exact toComplex_mk _ _

@[simp] theorem toComplex_cis (θ : ℝ) : (cis θ).toComplex = Complex.exp (θ * Complex.I) := by
  rw [cis, toComplex_ofPolar, Scalar.real_one, Complex.ofReal_one, one_mul]

theorem norm_toComplex (z : Cx ℝ) : z.norm = ‖z.toComplex‖ := by
  rw [Complex.norm_eq_sqrt_sq_add_sq]
  rfl

theorem normSq_toComplex (z : Cx ℝ) : z.normSq = Complex.normSq z.toComplex :=
  (Complex.normSq_apply z.toComplex).symm

/-- On the unit circle a number is the exponential of its argument. -/
theorem exp_arg {z : Cx ℝ} (h : ‖z.toComplex‖ = 1) :
    Complex.exp (z.arg * Complex.I) = z.toComplex := by
  have hpolar := Complex.norm_mul_exp_arg_mul_I z.toComplex
  rwa [h, Complex.ofReal_one, one_mul] at hpolar

/-- The principal square root is a square root, on the axes and elsewhere. -/
theorem toComplex_sqrt_mul_self (z : Cx ℝ) : z.sqrt.toComplex * z.sqrt.toComplex = z.toComplex := by
  have hnegative (x : ℝ) : Scalar.isNegative x = true ↔ x < 0 := decide_eq_true_iff
  have hzero (x : ℝ) : Scalar.eq x (0 : ℝ) = true ↔ x = 0 := decide_eq_true_iff
  have hroot {x : ℝ} (h : 0 ≤ x) : Scalar.sqrt x * Scalar.sqrt x = x := Real.mul_self_sqrt h
  simp only [sqrt, hnegative, hzero, Scalar.real_zero]
  split_ifs with hb ha hb' ha' hb'
  · exact absurd hb' (by simp [hb])
  · have hsquare := hroot (neg_nonneg.mpr ha.le)
    refine Complex.ext ?_ ?_ <;> simp [toComplex, hb, hsquare]
  · have hsquare := hroot (not_lt.mp ha)
    refine Complex.ext ?_ ?_ <;> simp [toComplex, hb, hsquare]
  · have hsquare : Scalar.sqrt (Scalar.abs z.im / 2) * Scalar.sqrt (Scalar.abs z.im / 2) = -z.im / 2 :=
      (hroot (div_nonneg (abs_nonneg z.im) zero_le_two)).trans (congrArg (· / 2) (abs_of_neg hb'))
    refine Complex.ext ?_ ?_ <;> simp [toComplex, ha', hsquare]
    linarith
  · have hsquare : Scalar.sqrt (Scalar.abs z.im / 2) * Scalar.sqrt (Scalar.abs z.im / 2) = z.im / 2 :=
      (hroot (div_nonneg (abs_nonneg z.im) zero_le_two)).trans
        (congrArg (· / 2) (abs_of_nonneg (not_lt.mp hb')))
    refine Complex.ext ?_ ?_ <;> simp [toComplex, ha', hsquare]
  · have hmodulus : Scalar.sqrt z.norm * Scalar.sqrt z.norm = ‖z.toComplex‖ :=
      (hroot (Real.sqrt_nonneg _)).trans (norm_toComplex z)
    have hangle : ((z.arg / 2 : ℝ) : ℂ) + (z.arg / 2 : ℝ) = z.toComplex.arg := by
      rw [← Complex.ofReal_add, add_halves]
      rfl
    rw [toComplex_ofPolar, mul_mul_mul_comm, ← Complex.exp_add, ← add_mul, hangle, ← Complex.ofReal_mul,
      hmodulus, Complex.norm_mul_exp_arg_mul_I]

theorem toComplex_divReal (z : Cx ℝ) (r : ℝ) : (z.divReal r).toComplex = z.toComplex / r :=
  Complex.ext (Complex.div_ofReal_re z.toComplex r).symm (Complex.div_ofReal_im z.toComplex r).symm

theorem toComplex_scale (z : Cx ℝ) (r : ℝ) : (z.scale r).toComplex = z.toComplex * r :=
  Complex.ext (Complex.re_mul_ofReal z.toComplex r).symm (Complex.im_mul_ofReal z.toComplex r).symm

theorem toComplex_div (z w : Cx ℝ) : (z / w).toComplex = z.toComplex / w.toComplex := by
  refine Complex.ext ?_ ?_
  · rw [Complex.div_re, ← add_div]
    rfl
  · rw [Complex.div_im, ← sub_div]
    rfl

end Cx

end QuantumCompiler
