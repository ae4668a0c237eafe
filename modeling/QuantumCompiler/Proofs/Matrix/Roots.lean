import Mathlib
import QuantumCompiler.Proofs.Matrix.Exact

/-!
# Roots of unitaries

A unitary takes one value on a projector and another on the rest, both of them on the unit circle. Products,
powers and adjoints of such operators act on the two values alone, so a root of the unitary is a root of
each value, wherever the argument is cut. Where the values coincide the unitary is a multiple of the
identity, for an operator that commutes with its adjoint cannot be nilpotent.
-/
namespace QuantumCompiler

open Complex (I exp)
open Pauli (Op)
open scoped Matrix.Norms.L2Operator

/-! ## Operators with two values -/

namespace Pauli

/-- One value on a projector and another on the rest. -/
noncomputable def twoValued (P : Op) (a b : ℂ) : Op := a • P + b • (1 - P)

section TwoValued

variable {P : Op} {a b : ℂ}

theorem twoValued_self (P : Op) (a : ℂ) : twoValued P a a = a • 1 := by
  rw [twoValued, ← smul_add, add_sub_cancel]

theorem twoValued_mul (hP : IsIdempotentElem P) (a b c d : ℂ) :
    twoValued P a b * twoValued P c d = twoValued P (a * c) (b * d) := by
  simp only [twoValued, mul_add, add_mul, smul_mul_smul_comm, hP.eq, hP.one_sub.eq, hP.mul_one_sub_self,
    hP.one_sub_mul_self, smul_zero, add_zero, zero_add]

theorem twoValued_commute (hP : IsIdempotentElem P) (a b c d : ℂ) :
    twoValued P a b * twoValued P c d = twoValued P c d * twoValued P a b := by
  rw [twoValued_mul hP, twoValued_mul hP, mul_comm a, mul_comm b]

theorem twoValued_pow (hP : IsIdempotentElem P) (a b : ℂ) (k : ℕ) :
    twoValued P a b ^ k = twoValued P (a ^ k) (b ^ k) := by
  induction k with
  | zero => rw [pow_zero, pow_zero, pow_zero, twoValued_self, one_smul]
  | succ k ih => rw [pow_succ, ih, twoValued_mul hP, pow_succ, pow_succ]

theorem star_twoValued (hP : IsSelfAdjoint P) (a b : ℂ) :
    star (twoValued P a b) = twoValued P (star a) (star b) := by
  rw [twoValued, star_add, star_smul, star_smul, star_sub, star_one, hP.star_eq, twoValued]

theorem twoValued_mem_unitaryGroup (hP : IsStarProjection P) (ha : ‖a‖ = 1) (hb : ‖b‖ = 1) :
    twoValued P a b ∈ Matrix.unitaryGroup (Fin 2) ℂ := by
  have hcircle {z : ℂ} (hz : ‖z‖ = 1) : star z * z = 1 := by
    rw [Complex.star_def, Complex.conj_mul', hz, Complex.ofReal_one, one_pow]
  rw [Matrix.mem_unitaryGroup_iff', star_twoValued hP.isSelfAdjoint, twoValued_mul hP.isIdempotentElem,
    hcircle ha, hcircle hb, twoValued_self, one_smul]

end TwoValued

/-! ## The two values of a unitary -/

section Values

variable {M : Op} {l₁ l₂ : ℂ}

/-- The quadratic formula. -/
theorem values_of_discriminant {t d δ : ℂ} (h : δ * δ = t * t - d * 4) :
    (t + δ) / 2 + (t - δ) / 2 = t ∧ (t + δ) / 2 * ((t - δ) / 2) = d := by
  constructor
  · ring
  · linear_combination (-1 / 4 : ℂ) * h

/-- An operator satisfies its characteristic equation. -/
theorem sub_mul_sub (hsum : l₁ + l₂ = M.trace) (hprod : l₁ * l₂ = M.det) :
    (M - l₁ • 1) * (M - l₂ • 1) = 0 := by
  rw [Matrix.trace_fin_two] at hsum
  rw [Matrix.det_fin_two] at hprod
  ext i j
  fin_cases i <;> fin_cases j <;> simp [Matrix.mul_apply]
  · linear_combination hprod - M 0 0 * hsum
  · linear_combination (-M 0 1) * hsum
  · linear_combination (-M 1 0) * hsum
  · linear_combination hprod - M 1 1 * hsum

/-- The values of a unitary lie on the unit circle. -/
theorem norm_value (hM : M ∈ Matrix.unitaryGroup (Fin 2) ℂ) (hsum : l₁ + l₂ = M.trace)
    (hprod : l₁ * l₂ = M.det) : ‖l₁‖ = 1 := by
  refine spectrum.norm_eq_one_of_unitary hM (spectrum.mem_iff.mpr fun hunit => ?_)
  rw [Matrix.trace_fin_two] at hsum
  rw [Matrix.det_fin_two] at hprod
  refine ((Matrix.isUnit_iff_isUnit_det _).mp hunit).ne_zero ?_
  simp [Matrix.det_fin_two, Matrix.algebraMap_matrix_apply]
  linear_combination hsum * l₁ - hprod

/-- A unitary less a multiple of the identity commutes with its adjoint. -/
theorem isStarNormal_sub (hM : M ∈ Matrix.unitaryGroup (Fin 2) ℂ) (l : ℂ) : IsStarNormal (M - l • 1) := by
  have hnormal : IsStarNormal M := ⟨(Matrix.mem_unitaryGroup_iff'.mp hM).trans
    (Matrix.mem_unitaryGroup_iff.mp hM).symm⟩
  have hscalar : Commute M (star (l • 1)) := by
    rw [star_smul, star_one]
    exact (Commute.one_right M).smul_right _
  exact hscalar.isStarNormal_sub

/-- A unitary with one value only is a multiple of the identity. -/
theorem eq_smul_one (hM : M ∈ Matrix.unitaryGroup (Fin 2) ℂ) {l : ℂ} (hsum : l + l = M.trace)
    (hprod : l * l = M.det) : M = l • 1 := by
  have hsquare := sub_mul_sub hsum hprod
  have hnormal := (isStarNormal_sub hM l).star_comm_self.eq
  set N := M - l • 1 with hN
  have hgram : star (star N * N) * (star N * N) = 0 := by
    calc star (star N * N) * (star N * N) = star N * (N * star N) * N := by
          simp only [star_mul, star_star, mul_assoc]
      _ = star N * star N * (N * N) := by
          rw [← hnormal]
          simp only [mul_assoc]
      _ = 0 := by rw [hsquare, mul_zero]
  rw [CStarRing.star_mul_self_eq_zero_iff, CStarRing.star_mul_self_eq_zero_iff] at hgram
  exact sub_eq_zero.mp hgram

/-- Two different values tell the projector on which the unitary takes the first. -/
theorem isStarProjection_value (hM : M ∈ Matrix.unitaryGroup (Fin 2) ℂ) (hsum : l₁ + l₂ = M.trace)
    (hprod : l₁ * l₂ = M.det) (hne : l₁ ≠ l₂) : IsStarProjection ((l₁ - l₂)⁻¹ • (M - l₂ • 1)) := by
  have hroot := sub_mul_sub hsum hprod
  have hnormal := isStarNormal_sub hM l₂
  have hsub := sub_ne_zero.mpr hne
  set N := M - l₂ • 1 with hN
  have hsquare : N * N = (l₁ - l₂) • N := by
    have hshift : M - l₁ • 1 = N - (l₁ - l₂) • 1 := by rw [hN, sub_smul]; abel
    rwa [hshift, sub_mul, smul_mul_assoc, one_mul, sub_eq_zero] at hroot
  refine isStarProjection_iff_isIdempotentElem_and_isStarNormal.mpr ⟨?_, ?_⟩
  · rw [IsIdempotentElem, smul_mul_smul_comm, hsquare, smul_smul, mul_assoc, inv_mul_cancel₀ hsub, mul_one]
  · exact .smul _ _

theorem eq_twoValued (M : Op) (hne : l₁ ≠ l₂) :
    M = twoValued ((l₁ - l₂)⁻¹ • (M - l₂ • 1)) l₁ l₂ := by
  have hvalue (P : Op) : twoValued P l₁ l₂ = (l₁ - l₂) • P + l₂ • 1 := by
    rw [twoValued, smul_sub, sub_smul]
    abel
  rw [hvalue, smul_smul, mul_inv_cancel₀ (sub_ne_zero.mpr hne), one_smul, sub_add_cancel]

end Values

end Pauli

/-! ## The root -/

attribute [local instance] Scalar.real

namespace Mat2

@[simp] theorem toMatrix_add (m n : Mat2 ℝ) : (m.add n).toMatrix = m.toMatrix + n.toMatrix := by
  simp [toMatrix, add]

@[simp] theorem toMatrix_sub (m n : Mat2 ℝ) : (m.sub n).toMatrix = m.toMatrix - n.toMatrix := by
  rw [sub, toMatrix_add, toMatrix_scale, Cx.toComplex_neg, Cx.toComplex_one, neg_one_smul, sub_eq_add_neg]

/-- The product of `k` copies. -/
def power {R : Type} [Scalar R] (m : Mat2 R) (k : Nat) : Mat2 R :=
  (List.replicate k m).foldl (· * ·) identity

@[simp] theorem toMatrix_power (m : Mat2 ℝ) (k : Nat) : (m.power k).toMatrix = m.toMatrix ^ k := by
  induction k with
  | zero => rw [power, List.replicate_zero, List.foldl_nil, toMatrix_identity, pow_zero]
  | succ k ih =>
    rw [power, List.replicate_succ', List.foldl_append, ← power, List.foldl_cons, List.foldl_nil,
      toMatrix_mul, ih, pow_succ]

variable {u : Mat2 ℝ}

/-- A number on the unit circle, its argument divided. -/
noncomputable def principal (l : ℂ) (k : ℕ) : ℂ := exp ((l.arg / k : ℝ) * I)

theorem principal_pow {l : ℂ} (hl : ‖l‖ = 1) {k : ℕ} (hk : 1 ≤ k) : principal l k ^ k = l := by
  have hcast : (k : ℂ) ≠ 0 := Nat.cast_ne_zero.mpr (Nat.one_le_iff_ne_zero.mp hk)
  have hcancel : (k : ℂ) * ((l.arg / k : ℝ) * I) = l.arg * I := by
    push_cast
    field_simp
  have hpolar := Complex.norm_mul_exp_arg_mul_I l
  rwa [principal, ← Complex.exp_nat_mul, hcancel, ← one_mul (exp _), ← Complex.ofReal_one, ← hl]

theorem norm_principal (l : ℂ) (k : ℕ) : ‖principal l k‖ = 1 :=
  Complex.norm_exp_ofReal_mul_I _

theorem toComplex_add_eq_trace (m : Mat2 ℝ) : (m.a + m.d).toComplex = m.toMatrix.trace := by
  rw [Matrix.trace_fin_two]
  rfl

/-- What is added and taken off for the two values is a square root of the discriminant. -/
theorem discriminant_spec (m : Mat2 ℝ) {disc : Cx ℝ}
    (h : disc = ((m.a + m.d) * (m.a + m.d) - m.det.scale 4).sqrt) :
    disc.toComplex * disc.toComplex =
      m.toMatrix.trace * m.toMatrix.trace - m.toMatrix.det * 4 := by
  have hfour : @OfNat.ofNat ℝ 4 (Scalar.instOfNat 4) = 4 := Scalar.real_ofNat 4
  rw [h, Cx.toComplex_sqrt_mul_self, Cx.toComplex_sub, Cx.toComplex_mul, Cx.toComplex_scale, toComplex_det,
    toComplex_add_eq_trace, hfour, Complex.ofReal_ofNat]

/-- Both values of the unitary are replaced by their roots. -/
theorem exists_twoValued_root (hu : u.IsUnitary) {k : Nat} (hk : 1 ≤ k) :
    ∃ P l₁ l₂, IsStarProjection P ∧ ‖l₁‖ = 1 ∧ ‖l₂‖ = 1 ∧ u.toMatrix = Pauli.twoValued P l₁ l₂ ∧
      (u.root k).toMatrix = Pauli.twoValued P (principal l₁ k) (principal l₂ k) := by
  rw [isUnitary_iff] at hu
  have htwo : @OfNat.ofNat ℝ 2 (Scalar.instOfNat 2) = 2 := Scalar.real_ofNat 2
  have hprincipal (l : Cx ℝ) : (Cx.cis (l.arg / Scalar.ofNat (max k 1))).toComplex =
      principal l.toComplex k := by
    rw [Nat.max_eq_left hk, Cx.toComplex_cis]
    rfl
  unfold root
  extract_lets order trace disc l₁ l₂ r₁ r₂ p₁ p₂
  have htrace : trace.toComplex = u.toMatrix.trace := toComplex_add_eq_trace u
  have hl₁ : l₁.toComplex = (u.toMatrix.trace + disc.toComplex) / 2 := by
    rw [Cx.toComplex_divReal, Cx.toComplex_add, htwo, htrace, Complex.ofReal_ofNat]
  have hl₂ : l₂.toComplex = (u.toMatrix.trace - disc.toComplex) / 2 := by
    rw [Cx.toComplex_divReal, Cx.toComplex_sub, htwo, htrace, Complex.ofReal_ofNat]
  obtain ⟨hsum, hprod⟩ := Pauli.values_of_discriminant (discriminant_spec u (rfl : disc = _))
  rw [← hl₁, ← hl₂] at hsum hprod
  have hcircle₁ := Pauli.norm_value hu hsum hprod
  have hcircle₂ := Pauli.norm_value hu ((add_comm _ _).trans hsum) ((mul_comm _ _).trans hprod)
  split_ifs with hsame
  · rw [Scalar.real_below_allowance, Cx.norm_toComplex, norm_le_zero_iff, Cx.toComplex_sub, sub_eq_zero] at hsame
    rw [← hsame] at hsum hprod
    refine ⟨1, _, _, .one _, hcircle₁, hcircle₁, ?_, ?_⟩
    · rw [Pauli.twoValued_self]
      exact Pauli.eq_smul_one hu hsum hprod
    · rw [toMatrix_scale, toMatrix_identity, Pauli.twoValued_self, hprincipal]
  · have hne : l₁.toComplex ≠ l₂.toComplex := by
      rwa [Scalar.real_below_allowance, Cx.norm_toComplex, norm_le_zero_iff, Cx.toComplex_sub,
        sub_eq_zero] at hsame
    have hp₁ : p₁.toMatrix = (l₁.toComplex - l₂.toComplex)⁻¹ • (u.toMatrix - l₂.toComplex • 1) := by
      rw [toMatrix_scale, toMatrix_sub, toMatrix_scale, toMatrix_identity, Cx.toComplex_div, Cx.toComplex_one,
        Cx.toComplex_sub, one_div]
    have hp₂ : p₂.toMatrix = 1 - p₁.toMatrix := by rw [toMatrix_sub, toMatrix_identity]
    refine ⟨p₁.toMatrix, _, _, ?_, hcircle₁, hcircle₂, ?_, ?_⟩
    · exact hp₁ ▸ Pauli.isStarProjection_value hu hsum hprod hne
    · exact hp₁ ▸ Pauli.eq_twoValued u.toMatrix hne
    · rw [toMatrix_add, toMatrix_scale p₁, toMatrix_scale p₂, hp₂, hprincipal, hprincipal, Pauli.twoValued]

/-- The root of a unitary is a unitary that commutes with it, and as many copies of it as its order make
the unitary again. -/
theorem root_powers_back (hu : u.IsUnitary) {k : Nat} (hk : 1 ≤ k) :
    (u.root k).IsUnitary ∧ u.root k * u = u * u.root k ∧ (u.root k).power k = u := by
  obtain ⟨P, l₁, l₂, hP, hl₁, hl₂, hvalues, hroot⟩ := exists_twoValued_root hu hk
  refine ⟨?_, toMatrix_injective ?_, toMatrix_injective ?_⟩
  · rw [isUnitary_iff, hroot]
    exact Pauli.twoValued_mem_unitaryGroup hP (norm_principal l₁ k) (norm_principal l₂ k)
  · rw [toMatrix_mul, toMatrix_mul, hroot, hvalues]
    exact Pauli.twoValued_commute hP.isIdempotentElem _ _ _ _
  · rw [toMatrix_power, hroot, Pauli.twoValued_pow hP.isIdempotentElem, principal_pow hl₁ hk,
      principal_pow hl₂ hk, hvalues]

/-- The Hadamard gate has two different values; its fourth root is complex. -/
theorem root_powers_back_h : (h : Mat2 ℝ).IsUnitary ∧ 1 ≤ 4 ∧ ((h : Mat2 ℝ).root 4).IsUnitary ∧
    (h : Mat2 ℝ).root 4 * h = h * (h : Mat2 ℝ).root 4 ∧ ((h : Mat2 ℝ).root 4).power 4 = h :=
  ⟨isUnitary_h, by decide, root_powers_back isUnitary_h (by decide)⟩

end Mat2

end QuantumCompiler
