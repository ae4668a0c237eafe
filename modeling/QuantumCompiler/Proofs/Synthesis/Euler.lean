import Mathlib
import QuantumCompiler.Proofs.Lowering.Size
import QuantumCompiler.Proofs.Matrix.Exact

/-!
# One-qubit synthesis is exact and short

The angles that are read off a unitary rebuild it together with its phase, also where an entry vanishes and
has no argument. Each family turns by these angles, wrapped into half a turn on both sides; a whole turn is
a sign, which goes into the phase, so in exact arithmetic nothing is lost. Which gates come out, and how
many, does not depend on the numbers.
-/
namespace QuantumCompiler

open Complex (I exp)
open Matrix (of)
open Pauli (Op rotation)
open scoped Real

attribute [local instance] Scalar.real

/-! ## The angles of a unitary -/

namespace EulerAngles

/-- A unitary of determinant one is known by its first column. -/
theorem toMatrix_of_det {v : Mat2 ℝ} (hv : v.IsUnitary) (hdet : v.det.toComplex = 1) :
    v.d.toComplex = star v.a.toComplex ∧ v.b.toComplex = -star v.c.toComplex ∧
      ‖v.a.toComplex‖ ^ 2 + ‖v.c.toComplex‖ ^ 2 = 1 := by
  have hstar : star v.toMatrix * v.toMatrix = 1 :=
    Matrix.mem_unitaryGroup_iff'.mp (Mat2.isUnitary_iff.mp hv)
  have hadjugate : star v.toMatrix = v.toMatrix.adjugate := by
    calc star v.toMatrix = star v.toMatrix * (v.toMatrix * v.toMatrix.adjugate) := by
          rw [Matrix.mul_adjugate, ← Mat2.toComplex_det, hdet, one_smul, mul_one]
      _ = v.toMatrix.adjugate := by rw [← mul_assoc, hstar, one_mul]
  have hentry (i j : Fin 2) := congrFun (congrFun hadjugate i) j
  have hd : star v.a.toComplex = v.d.toComplex := by
    simpa [Mat2.toMatrix, Matrix.adjugate_fin_two] using hentry 0 0
  have hb : star v.c.toComplex = -v.b.toComplex := by
    simpa [Mat2.toMatrix, Matrix.adjugate_fin_two] using hentry 0 1
  refine ⟨hd.symm, by rw [hb, neg_neg], ?_⟩
  have hone := congrFun (congrFun hstar 0) 0
  rw [← Complex.ofReal_inj]
  simpa [Mat2.toMatrix, Matrix.mul_apply, Complex.conj_mul'] using hone

/-- Three turns by the arguments and the lengths of two numbers, the entries of a first column. -/
theorem rotations_eq {a c : ℂ} (h : ‖a‖ ^ 2 + ‖c‖ ^ 2 = 1) {α γ : ℝ}
    (hsum : (α + γ) / 2 = (star a).arg) (hdiff : (α - γ) / 2 = c.arg) :
    rotation Pauli.Z α * rotation Pauli.Y (2 * Complex.arg ⟨‖a‖, ‖c‖⟩) * rotation Pauli.Z γ =
      !![a, -star c; c, star a] := by
  have hd : (‖a‖ : ℂ) * exp (((α + γ) / 2 : ℝ) * I) = star a := by
    rw [hsum, ← norm_star, Complex.norm_mul_exp_arg_mul_I]
  have hc : (‖c‖ : ℂ) * exp (((α - γ) / 2 : ℝ) * I) = c := by
    rw [hdiff, Complex.norm_mul_exp_arg_mul_I]
  have hconj (r t : ℝ) : star ((r : ℂ) * exp (t * I)) = r * exp ((-t : ℝ) * I) := by
    rw [Complex.star_def, map_mul, Complex.conj_ofReal, ← Complex.exp_conj, map_mul, Complex.conj_ofReal,
      Complex.conj_I, Complex.ofReal_neg, neg_mul, mul_neg]
  have ha : (‖a‖ : ℂ) * exp ((-((α + γ) / 2) : ℝ) * I) = a := by
    rw [← hconj, hd, star_star]
  have hb : (‖c‖ : ℂ) * exp ((-((α - γ) / 2) : ℝ) * I) = star c := by
    rw [← hconj, hc]
  have hexp {z : ℂ} {s t u : ℝ} (hu : s + t = u) : exp (s * I) * z * exp (t * I) = z * exp (u * I) := by
    rw [← hu, Pauli.exp_add_mul_I]
    ring
  rw [Pauli.rotation_Y_arg h, Pauli.rotation_Z, Pauli.rotation_Z, Matrix.mul_fin_two, Matrix.mul_fin_two]
  simp only [zero_mul, mul_zero, add_zero, zero_add]
  rw [hexp (u := -((α + γ) / 2)) (by ring), hexp (u := -((α - γ) / 2)) (by ring),
    hexp (u := (α - γ) / 2) (by ring), hexp (u := (α + γ) / 2) (by ring), neg_mul, ha, hb, hc, hd]

variable {u : Mat2 ℝ}

/-- A phase taken off a unitary leaves one. -/
theorem isUnitary_scale (hu : u.IsUnitary) (φ : ℝ) : (u.scale (Cx.cis φ)).IsUnitary := by
  rw [Mat2.isUnitary_iff, Matrix.mem_unitaryGroup_iff'] at hu ⊢
  rw [Mat2.toMatrix_scale, Cx.toComplex_cis, star_smul, smul_mul_smul_comm, hu, Complex.star_def,
    Complex.conj_mul', Complex.norm_exp_ofReal_mul_I, Complex.ofReal_one, one_pow, one_smul]

theorem norm_det (hu : u.IsUnitary) : ‖u.det.toComplex‖ = 1 := by
  have hdet := Matrix.det_of_mem_unitary (Mat2.isUnitary_iff.mp hu)
  rw [Mat2.toComplex_det]
  exact CStarRing.norm_of_mem_unitary hdet

/-- Half the argument of the determinant, taken off, leaves the determinant one. -/
theorem det_scale (hu : u.IsUnitary) :
    (u.scale (Cx.cis (-(u.det.arg / 2)))).det.toComplex = 1 := by
  have hhalves : ((-(u.det.arg / 2) : ℝ) * I : ℂ) + (-(u.det.arg / 2) : ℝ) * I = -(u.det.arg * I) := by
    push_cast
    ring
  rw [Mat2.toComplex_det, Mat2.toMatrix_scale, Cx.toComplex_cis, Matrix.det_smul, Fintype.card_fin,
    ← Mat2.toComplex_det, pow_two, ← Complex.exp_add, hhalves, ← Cx.exp_arg (norm_det hu),
    ← Complex.exp_add, neg_add_cancel, Complex.exp_zero]

/-- The angles of a unitary rebuild it with its phase. -/
theorem ofMatrix_spec (hu : u.IsUnitary) :
    exp ((ofMatrix u).phase * I) • (rotation Pauli.Z (ofMatrix u).alpha *
      rotation Pauli.Y (ofMatrix u).beta * rotation Pauli.Z (ofMatrix u).gamma) = u.toMatrix := by
  set φ := u.det.arg / 2 with hφ
  set v := u.scale (Cx.cis (-φ)) with hv
  obtain ⟨hd, hb, hnorm⟩ := toMatrix_of_det (isUnitary_scale hu (-φ)) (det_scale hu)
  have hangles : ofMatrix u = ⟨φ, v.d.arg + v.c.arg, 2 * Complex.arg ⟨v.a.norm, v.c.norm⟩,
      v.d.arg - v.c.arg⟩ := by
    simp only [ofMatrix, EulerAngles.mk.injEq]
    refine ⟨rfl, ?_, rfl, ?_⟩
    · ring
    · ring
  have hsum : (v.d.arg + v.c.arg + (v.d.arg - v.c.arg)) / 2 = (star v.a.toComplex).arg := by
    have hhalf : (v.d.arg + v.c.arg + (v.d.arg - v.c.arg)) / 2 = v.d.arg := by ring
    rw [hhalf, ← hd]
    rfl
  have hdiff : (v.d.arg + v.c.arg - (v.d.arg - v.c.arg)) / 2 = v.c.toComplex.arg := by
    have hhalf : (v.d.arg + v.c.arg - (v.d.arg - v.c.arg)) / 2 = v.c.arg := by ring
    rw [hhalf]
    rfl
  have hmatrix : !![v.a.toComplex, -star v.c.toComplex; v.c.toComplex, star v.a.toComplex] = v.toMatrix := by
    rw [Mat2.toMatrix, hd, hb]
  simp only [hangles, Cx.norm_toComplex]
  rw [rotations_eq hnorm hsum hdiff, hmatrix, hv, Mat2.toMatrix_scale, Cx.toComplex_cis, smul_smul, mul_comm,
    Pauli.exp_neg_mul_exp, one_smul]

end EulerAngles

/-! ## Sequences that make an operator -/

namespace OneQubitSequence

variable {s : OneQubitSequence ℝ} {M P : Op}

/-- The gates of a sequence come to an operator, with the phase. -/
def Makes (s : OneQubitSequence ℝ) (M : Op) : Prop :=
  ∃ m, Mat2.ofSequence? s.gates = some m ∧ exp (s.phase * I) • m.toMatrix = M

theorem makes_nil (φ : ℝ) : Makes ⟨[], φ⟩ (exp (φ * I) • 1) :=
  ⟨Mat2.identity, rfl, by rw [Mat2.toMatrix_identity]⟩

/-- One more gate, which acts last. -/
theorem Makes.fixed (h : s.Makes M) {g : StandardGate ℝ} {m : Mat2 ℝ} (hg : Mat2.ofGate? g = some m) :
    (s.fixed g).Makes (m.toMatrix * M) := by
  obtain ⟨n, hn, rfl⟩ := h
  refine ⟨m * n, ?_, ?_⟩
  · rw [OneQubitSequence.fixed, Mat2.ofSequence?, List.foldlM_append, ← Mat2.ofSequence?, hn]
    simp [hg]
  · rw [Mat2.toMatrix_mul, mul_smul_comm]
    rfl

/-- More phase multiplies by it. -/
theorem Makes.addPhase (h : s.Makes M) (φ : ℝ) :
    Makes ⟨s.gates, s.phase + φ⟩ (exp (φ * I) • M) := by
  obtain ⟨n, hn, rfl⟩ := h
  exact ⟨n, hn, by rw [smul_smul, ← Pauli.exp_add_mul_I, add_comm]⟩

/-- An angle is wrapped by whole turns. -/
theorem exists_wrap (θ : ℝ) : ∃ k : ℤ, wrap θ = (θ - k * (2 * π), (k : ℝ)) := by
  obtain ⟨k, hk, -⟩ := Scalar.real_round (θ / Scalar.tau)
  refine ⟨k, ?_⟩
  rw [wrap, hk, Scalar.real_tau]

/-- A rotation is wrapped, with the sign of its turns in the phase, and left out if it turns by nothing. -/
theorem Makes.rotate (h : s.Makes M) {make : Angle ℝ → StandardGate ℝ} {m : ℝ → Mat2 ℝ}
    (hg : ∀ t, Mat2.ofGate? (make (.const t)) = some (m t)) (hm : ∀ t, (m t).toMatrix = rotation P t)
    (hP : P * P = 1) (θ : ℝ) : (s.rotate 0 make θ).Makes (rotation P θ * M) := by
  obtain ⟨k, hk⟩ := exists_wrap θ
  set η := θ - k * (2 * π) with hη
  have hturns : rotation P θ * M = exp ((k * π : ℝ) * I) • (rotation P η * M) := by
    have hθ : θ = η + k * (2 * π) := by rw [hη, sub_add_cancel]
    rw [hθ, ← Pauli.rotation_mul_rotation hP, Pauli.rotation_turns, mul_smul_comm, mul_one, smul_mul_assoc]
  rw [hturns]
  simp only [OneQubitSequence.rotate, hk]
  split_ifs with hpos
  · rw [← hm]
    exact (h.fixed (hg η)).addPhase (k * π)
  · have hzero : η = 0 := by simpa [Scalar.gt, Scalar.lt, Scalar.abs] using hpos
    rw [hzero, Pauli.rotation_zero, one_mul]
    exact h.addPhase (k * π)

/-- Reducing the phase by whole turns changes nothing. -/
theorem Makes.finish (h : s.Makes M) : s.finish.Makes M := by
  obtain ⟨n, hn, rfl⟩ := h
  obtain ⟨k, hk⟩ := Scalar.exact_real.remEuclid_tau s.phase
  refine ⟨n, hn, ?_⟩
  have hturns : exp ((k * (2 * π) : ℝ) * I) = 1 := by
    push_cast
    rw [mul_assoc, Complex.exp_int_mul_two_pi_mul_I]
  rw [OneQubitSequence.finish, hk, Pauli.exp_add_mul_I, hturns, mul_one]

end OneQubitSequence

/-! ## The families -/

namespace EulerFamily

open OneQubitSequence EulerAngles

section Turns

variable {s : OneQubitSequence ℝ} {M : Op}

theorem makes_rx (h : s.Makes M) (θ : ℝ) : (s.rotate 0 .rx θ).Makes (rotation Pauli.X θ * M) :=
  h.rotate (fun _ => rfl) Mat2.toMatrix_rx Pauli.X_mul_X θ

theorem makes_ry (h : s.Makes M) (θ : ℝ) : (s.rotate 0 .ry θ).Makes (rotation Pauli.Y θ * M) :=
  h.rotate (fun _ => rfl) Mat2.toMatrix_ry Pauli.Y_mul_Y θ

theorem makes_rz (h : s.Makes M) (θ : ℝ) : (s.rotate 0 .rz θ).Makes (rotation Pauli.Z θ * M) :=
  h.rotate (fun _ => rfl) Mat2.toMatrix_rz Pauli.Z_mul_Z θ

end Turns

/-- Without a tolerance no angle counts as vanished. -/
theorem not_flat (β : ℝ) : Scalar.lt (Scalar.abs β) (0 : ℝ) = false :=
  decide_eq_false (not_lt.mpr (abs_nonneg β))

/-! Each family makes the same operator, up to the phase that it adds. -/

section Operators

variable (α β γ : ℝ)

/-- Quarter turns about the third axis take the first axis to the second. -/
theorem rotations_zxz : rotation Pauli.Z (α + π / 2) * (rotation Pauli.X β *
    rotation Pauli.Z (γ - π / 2)) = rotation Pauli.Z α * rotation Pauli.Y β * rotation Pauli.Z γ := by
  have haxis : rotation Pauli.Z (π / 2) * Pauli.X * rotation Pauli.Z (-(π / 2)) = Pauli.Y := by
    rw [Pauli.quarter_turn_back Pauli.Z_mul_Z Pauli.Z_mul_X', Pauli.X_mul_Z_eq, smul_smul, mul_neg,
      Complex.I_mul_I, neg_neg, one_smul]
  rw [← haxis, ← Pauli.mul_rotation_mul (Pauli.rotation_mul_rotation_neg Pauli.Z_mul_Z _),
    ← Pauli.rotation_mul_rotation Pauli.Z_mul_Z, sub_eq_neg_add,
    ← Pauli.rotation_mul_rotation Pauli.Z_mul_Z]
  simp only [mul_assoc]

/-- Exchanging the first axis and the third reverses the second. -/
theorem rotations_xyx : Pauli.H * (rotation Pauli.Z α * rotation Pauli.Y β * rotation Pauli.Z γ) * Pauli.H =
    rotation Pauli.X α * (rotation Pauli.Y (-β) * rotation Pauli.X γ) := by
  have hY : Pauli.H * Pauli.Y * Pauli.H = -Pauli.Y := by
    rw [Pauli.H_mul_Y, mul_assoc, Pauli.H_mul_H, mul_one]
  rw [Pauli.mul_mul_mul Pauli.H_mul_H, Pauli.mul_mul_mul Pauli.H_mul_H, Pauli.mul_rotation_mul Pauli.H_mul_H,
    Pauli.mul_rotation_mul Pauli.H_mul_H, Pauli.mul_rotation_mul Pauli.H_mul_H, Pauli.H_mul_Z_mul_H, hY,
    Pauli.neg_rotation, mul_assoc]

/-- A turn about the third axis between two quarter turns about the first turns the second axis back. -/
theorem quarter_turn_mul_quarter_turn : rotation Pauli.X (π / 2) * (rotation Pauli.Z (β + π) *
    rotation Pauli.X (π / 2)) = rotation Pauli.Y (-β) * rotation Pauli.Z π := by
  have haxis : rotation Pauli.X (π / 2) * Pauli.Z * rotation Pauli.X (-(π / 2)) = -Pauli.Y := by
    rw [Pauli.quarter_turn_back Pauli.X_mul_X Pauli.X_mul_Z, Pauli.Z_mul_X, smul_smul, Complex.I_mul_I,
      neg_one_smul]
  have hhalf : rotation Pauli.X (π / 2) * rotation Pauli.Z π * rotation Pauli.X (π / 2) =
      rotation Pauli.Z π := by
    rw [Pauli.rotation_pi, mul_smul_comm, smul_mul_assoc, Pauli.rotation_mul Pauli.X_mul_Z,
      Pauli.neg_rotation, mul_assoc, Pauli.rotation_neg_mul_rotation Pauli.X_mul_X, mul_one]
  calc _ = rotation Pauli.X (π / 2) * rotation Pauli.Z β * rotation Pauli.X (-(π / 2)) *
        (rotation Pauli.X (π / 2) * rotation Pauli.Z π * rotation Pauli.X (π / 2)) := by
        simp only [← Pauli.rotation_mul_rotation Pauli.Z_mul_Z, mul_assoc]
        rw [← mul_assoc (rotation Pauli.X (-(π / 2))),
          Pauli.rotation_neg_mul_rotation Pauli.X_mul_X, one_mul]
    _ = rotation Pauli.Y (-β) * rotation Pauli.Z π := by
        rw [hhalf, Pauli.mul_rotation_mul (Pauli.rotation_mul_rotation_neg Pauli.X_mul_X _), haxis,
          Pauli.neg_rotation]

/-- Half a turn about the third axis reverses the second. -/
theorem half_turn_mul_rotation : rotation Pauli.Z π * rotation Pauli.Y (-β) =
    rotation Pauli.Y β * rotation Pauli.Z π := by
  have hY : Pauli.Y * rotation Pauli.Z π = rotation Pauli.Z π * -Pauli.Y := by
    rw [Pauli.rotation_pi, mul_smul_comm, smul_mul_assoc, mul_neg, Pauli.Z_mul_Y, mul_neg, neg_neg]
  rw [Pauli.mul_rotation hY, neg_neg]

/-- Two roots of a flip, each a quarter turn and an eighth of a turn of phase, turn the second axis. -/
theorem rotations_zsx : exp ((π / 2 : ℝ) * I) • (rotation Pauli.Z (α + π) * ((Mat2.sx : Mat2 ℝ).toMatrix *
    (rotation Pauli.Z (β + π) * ((Mat2.sx : Mat2 ℝ).toMatrix * rotation Pauli.Z γ)))) =
      rotation Pauli.Z α * rotation Pauli.Y β * rotation Pauli.Z γ := by
  have hwhole : rotation Pauli.Z π * rotation Pauli.Z π = -1 := by
    rw [Pauli.rotation_mul_rotation Pauli.Z_mul_Z, ← two_mul, Pauli.rotation_two_pi]
  have hscalar : exp ((π / 2 : ℝ) * I) * (exp ((π / 4 : ℝ) * I) * exp ((π / 4 : ℝ) * I)) = -1 := by
    have hquarter : π / 4 + π / 4 = π / 2 := by ring
    rw [← Pauli.exp_add_mul_I, hquarter, Pauli.exp_quarter, Complex.I_mul_I]
  calc _ = (exp ((π / 2 : ℝ) * I) * (exp ((π / 4 : ℝ) * I) * exp ((π / 4 : ℝ) * I))) •
        (rotation Pauli.Z (α + π) * (rotation Pauli.X (π / 2) * (rotation Pauli.Z (β + π) *
          rotation Pauli.X (π / 2))) * rotation Pauli.Z γ) := by
        simp only [Mat2.toMatrix_sx, mul_smul_comm, smul_mul_assoc, smul_smul, mul_assoc]
    _ = -(rotation Pauli.Z α * (rotation Pauli.Z π * rotation Pauli.Y (-β)) * rotation Pauli.Z π *
          rotation Pauli.Z γ) := by
        rw [hscalar, quarter_turn_mul_quarter_turn, ← Pauli.rotation_mul_rotation Pauli.Z_mul_Z, neg_one_smul]
        simp only [mul_assoc]
    _ = -(rotation Pauli.Z α * rotation Pauli.Y β * (rotation Pauli.Z π * rotation Pauli.Z π) *
          rotation Pauli.Z γ) := by
        rw [half_turn_mul_rotation]
        simp only [mul_assoc]
    _ = rotation Pauli.Z α * rotation Pauli.Y β * rotation Pauli.Z γ := by
        rw [hwhole, mul_neg, mul_one, neg_mul, neg_neg]

/-- The general gate misses half the sum of its phases. -/
theorem rotations_u : exp ((-((α + γ) / 2) : ℝ) * I) • (Mat2.u β α γ).toMatrix =
    rotation Pauli.Z α * rotation Pauli.Y β * rotation Pauli.Z γ := by
  have hphase : (-((α + γ) / 2) : ℝ) = -(α / 2) + -(γ / 2) := by ring
  rw [Mat2.toMatrix_u, Pauli.rotation_Z_eq_smul_phase, Pauli.rotation_Z_eq_smul_phase, hphase,
    Pauli.exp_add_mul_I]
  simp only [smul_mul_assoc, mul_smul_comm, smul_smul, mul_comm]

end Operators

variable {u : Mat2 ℝ}

theorem makes_zyz (hu : u.IsUnitary) : (zyz.sequence u 0).Makes u.toMatrix := by
  rw [← ofMatrix_spec hu]
  simp only [sequence, not_flat, Bool.false_eq_true, if_false]
  have h := (makes_rz (makes_ry (makes_rz (makes_nil (ofMatrix u).phase) (ofMatrix u).gamma)
    (ofMatrix u).beta) (ofMatrix u).alpha).finish
  simpa only [mul_smul_comm, mul_one, mul_assoc] using h

theorem makes_zxz (hu : u.IsUnitary) : (zxz.sequence u 0).Makes u.toMatrix := by
  rw [← ofMatrix_spec hu, ← rotations_zxz]
  simp only [sequence, not_flat, Bool.false_eq_true, if_false, Scalar.real_quarterTurn]
  have h := (makes_rz (makes_rx (makes_rz (makes_nil (ofMatrix u).phase) ((ofMatrix u).gamma - π / 2))
    (ofMatrix u).beta) ((ofMatrix u).alpha + π / 2)).finish
  simpa only [mul_smul_comm, mul_one, mul_assoc] using h

theorem makes_xyx (hu : u.IsUnitary) : (xyx.sequence u 0).Makes u.toMatrix := by
  set v := Mat2.h * u * Mat2.h with hv
  have hback : u.toMatrix = Pauli.H * v.toMatrix * Pauli.H := by
    simp only [hv, Mat2.toMatrix_mul, Mat2.toMatrix_h, mul_assoc, Pauli.H_mul_H, mul_one]
    rw [← mul_assoc, Pauli.H_mul_H, one_mul]
  rw [hback, ← ofMatrix_spec ((Mat2.isUnitary_h.mul hu).mul Mat2.isUnitary_h), mul_smul_comm,
    smul_mul_assoc, rotations_xyx]
  simp only [sequence, ← hv, not_flat, Bool.false_eq_true, if_false]
  have h := (makes_rx (makes_ry (makes_rx (makes_nil (ofMatrix v).phase) (ofMatrix v).gamma)
    (-(ofMatrix v).beta)) (ofMatrix v).alpha).finish
  simpa only [mul_smul_comm, mul_one] using h

/-- A wrapped phase is the same phase. -/
theorem phase_wrap (θ : ℝ) : Pauli.phase (wrap θ).1 = Pauli.phase θ := by
  obtain ⟨k, hk⟩ := exists_wrap θ
  have hturns : θ = (wrap θ).1 + k * (2 * π) := by rw [hk, sub_add_cancel]
  conv_rhs => rw [hturns, ← Pauli.phase_mul_phase, Pauli.phase_turns, mul_one]

theorem makes_u3 (hu : u.IsUnitary) : (u3.sequence u 0).Makes u.toMatrix := by
  have hgate (θ φ ψ : ℝ) : Mat2.ofGate? (.u (.const θ) (.const φ) (.const ψ) : StandardGate ℝ) =
      some (Mat2.u θ φ ψ) := rfl
  have hwrapped (θ φ ψ : ℝ) : (Mat2.u θ (wrap φ).1 (wrap ψ).1).toMatrix = (Mat2.u θ φ ψ).toMatrix := by
    simp only [Mat2.toMatrix_u, phase_wrap]
  rw [← ofMatrix_spec hu, ← rotations_u, ← hwrapped]
  simp only [sequence, not_flat, Bool.false_and, Bool.false_eq_true, if_false]
  have h := ((makes_nil ((ofMatrix u).phase - ((ofMatrix u).alpha + (ofMatrix u).gamma) / 2)).fixed
    (hgate (ofMatrix u).beta (wrap (ofMatrix u).alpha).1 (wrap (ofMatrix u).gamma).1)).finish
  simpa only [OneQubitSequence.fixed, List.nil_append, mul_one, sub_eq_add_neg, Pauli.exp_add_mul_I, mul_smul,
    mul_smul_comm] using h

theorem makes_zsx (hu : u.IsUnitary) : (zsx.sequence u 0).Makes u.toMatrix := by
  have hsx : Mat2.ofGate? (.sx : StandardGate ℝ) = some Mat2.sx := rfl
  rw [← ofMatrix_spec hu, ← rotations_zsx]
  simp only [sequence, not_flat, Bool.false_eq_true, if_false, Scalar.real_quarterTurn, Scalar.real_pi]
  have h := (makes_rz ((makes_rz ((makes_rz (makes_nil ((ofMatrix u).phase + π / 2)) (ofMatrix u).gamma).fixed
    hsx) ((ofMatrix u).beta + π)).fixed hsx) ((ofMatrix u).alpha + π)).finish
  simpa only [mul_smul_comm, mul_one, mul_assoc, Pauli.exp_add_mul_I, mul_smul] using h

/-- Every family makes the unitary. -/
theorem makes_sequence (family : EulerFamily) (hu : u.IsUnitary) :
    (family.sequence u 0).Makes u.toMatrix := by
  cases family with
  | zyz => exact makes_zyz hu
  | zxz => exact makes_zxz hu
  | xyx => exact makes_xyx hu
  | u3 => exact makes_u3 hu
  | zsx => exact makes_zsx hu

/-- A sequence that makes the unitary is accepted. -/
theorem exists_synthesize (family : EulerFamily) (hu : u.IsUnitary) :
    ∃ s m, family.synthesize u 0 = .ok s ∧ Mat2.ofSequence? s.gates = some m ∧
      m.scale (Cx.cis s.phase) = u := by
  obtain ⟨m, hm, hmakes⟩ := makes_sequence family hu
  have hrebuilt : m.scale (Cx.cis (family.sequence u 0).phase) = u :=
    Mat2.toMatrix_injective (by rw [Mat2.toMatrix_scale, Cx.toComplex_cis, hmakes])
  have hmatrix : (family.sequence u 0).matrix? = some u := by
    rw [matrix?, hm, Option.map_some, hrebuilt]
  have hdeviation : deviation u (family.sequence u 0) ≤ 0 := by
    rw [deviation, hmatrix]
    exact Scalar.real_maximum_le (by simp [Mat2.zipWith, Cx.norm_toComplex])
  refine ⟨_, m, ?_, hm, hrebuilt⟩
  rw [synthesize, if_neg]
  exact fun h => absurd (of_decide_eq_true h) (not_lt.mpr hdeviation)

/-! ## How many roots of a flip -/

section Roots

variable {R : Type} [Scalar R] {s : OneQubitSequence R}

/-- A rotation, left out or not, is none of the gates that are counted. -/
theorem countP_rotate {p : StandardGate R → Bool} {make : Angle R → StandardGate R}
    (hp : ∀ v, p (make (.const v)) = false) (tolerance angle : R) :
    (s.rotate tolerance make angle).gates.countP p = s.gates.countP p := by
  simp only [OneQubitSequence.rotate]
  split
  · rw [List.countP_append, List.countP_singleton, hp]
    rfl
  · rfl

omit [Scalar R] in
theorem countP_fixed {p : StandardGate R → Bool} {g : StandardGate R} (hp : p g = true) :
    (s.fixed g).gates.countP p = s.gates.countP p + 1 := by
  rw [OneQubitSequence.fixed, List.countP_append, List.countP_singleton, if_pos hp]

/-- Only one family has the root of a flip among its gates, and it takes two or none. -/
theorem countP_sx_sequence_le (family : EulerFamily) (u : Mat2 R) (tolerance : R) :
    (family.sequence u tolerance).gates.countP (fun g => g.name == "sx") ≤ 2 := by
  have hrz (v : R) : ((.rz (.const v) : StandardGate R).name == "sx") = false := rfl
  have hsx : ((.sx : StandardGate R).name == "sx") = true := rfl
  have hnone (hfamily : "sx" ∉ family.gateNames) :
      (family.sequence u tolerance).gates.countP (fun g => g.name == "sx") ≤ 2 := by
    refine (Nat.le_of_eq (List.countP_eq_zero.mpr fun g hg hname => hfamily ?_)).trans (Nat.zero_le 2)
    exact eq_of_beq hname ▸ (emits_sequence family u tolerance g hg).1.2
  cases family
  case zyz | zxz | xyx | u3 => exact hnone (by decide)
  case zsx =>
    simp only [sequence]
    split
    · exact (countP_rotate hrz _ _).trans_le (Nat.zero_le 2)
    · refine (countP_rotate hrz _ _).trans_le ?_
      rw [countP_fixed hsx, countP_rotate hrz, countP_fixed hsx, countP_rotate hrz, List.countP_nil]

end Roots

/-- Synthesis is exact and short: without a tolerance every family rebuilds every unitary with its phase, and
whatever is synthesized, from any matrix and within any tolerance, takes gates of the family only, no more
than the family needs, at most two of them roots of a flip. -/
theorem synthesize_exact_and_short (family : EulerFamily) :
    (∀ u : Mat2 ℝ, u.IsUnitary → ∃ s m, family.synthesize u 0 = .ok s ∧
      Mat2.ofSequence? s.gates = some m ∧ m.scale (Cx.cis s.phase) = u) ∧
    ∀ {R : Type} [Scalar R] (u : Mat2 R) (tolerance : R) (s : OneQubitSequence R),
      family.synthesize u tolerance = .ok s →
        (∀ g ∈ s.gates, g.name ∈ family.gateNames) ∧ s.gates.length ≤ family.maxGates ∧
          s.gates.countP (fun g => g.name == "sx") ≤ 2 := by
  refine ⟨fun u hu => exists_synthesize family hu, fun u tolerance s h => ⟨?_, ?_, ?_⟩⟩
  · exact fun g hg => (emits_synthesize h g hg).2
  · exact length_synthesize_le h
  · exact eq_sequence_of_synthesize h ▸ countP_sx_sequence_le family u tolerance

/-- A flip with a phase has two vanishing entries; the family with roots of a flip still rebuilds it. -/
theorem synthesize_exact_and_short_y : (Mat2.y : Mat2 ℝ).IsUnitary ∧ ∃ s m,
    zsx.synthesize (Mat2.y : Mat2 ℝ) 0 = .ok s ∧ Mat2.ofSequence? s.gates = some m ∧
      m.scale (Cx.cis s.phase) = Mat2.y ∧ s.gates.length ≤ 5 ∧
        s.gates.countP (fun g => g.name == "sx") ≤ 2 := by
  have hy : (Mat2.y : Mat2 ℝ).IsUnitary := by
    rw [Mat2.isUnitary_iff, Mat2.toMatrix_y, Matrix.mem_unitaryGroup_iff', Matrix.star_eq_conjTranspose,
      Pauli.conjTranspose_Y, Pauli.Y_mul_Y]
  obtain ⟨s, m, hs, hm, hu⟩ := (synthesize_exact_and_short zsx).1 Mat2.y hy
  obtain ⟨-, hlength, hroots⟩ := (synthesize_exact_and_short zsx).2 Mat2.y 0 s hs
  exact ⟨hy, s, m, hs, hm, hu, hlength, hroots⟩

end EulerFamily

end QuantumCompiler
