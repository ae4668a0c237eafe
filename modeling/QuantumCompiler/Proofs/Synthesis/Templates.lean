import QuantumCompiler.Proofs.Matrix.Exact
import QuantumCompiler.Proofs.Matrix.Turns
import QuantumCompiler.Synthesis.CxSequence

/-!
# What the templates of an interaction multiply to

Steps are multiplied as operators. Two flips spread a turn of one operand over both, so two `cx` turn about
two axes at once, one `cx` makes a quarter turn about one axis, and three `cx` turn about all three. A change
of basis on both operands moves a template to other axes. Products hold up to a common phase.
-/
namespace QuantumCompiler

open Complex (I exp)
open Pauli (Op Op2 exchange switch)
open scoped Kronecker Real

namespace CxSequence

open CxStep

attribute [local instance] Scalar.real

/-! ## Products of steps -/

section Products

/-- The operator of steps, the first one acting first. -/
noncomputable def operator : List (CxStep ℝ) → Op2
  | [] => 1
  | step :: steps => operator steps * step.matrix.toMatrix

theorem toMatrix_product (steps : List (CxStep ℝ)) : (product steps).toMatrix = operator steps := by
  suffices hfold : ∀ m : Mat4 ℝ, (steps.foldl (fun m s => s.matrix * m) m).toMatrix =
      operator steps * m.toMatrix by
    rw [product, hfold, Mat4.toMatrix_identity, mul_one]
  induction steps with
  | nil => exact fun m => (one_mul _).symm
  | cons step steps ih =>
    intro m
    rw [List.foldl_cons, ih, Mat4.toMatrix_mul, operator, mul_assoc]

@[simp] theorem operator_nil : operator [] = 1 := rfl

@[simp] theorem operator_cons (step : CxStep ℝ) (steps : List (CxStep ℝ)) :
    operator (step :: steps) = operator steps * step.matrix.toMatrix := rfl

@[simp] theorem operator_append (a b : List (CxStep ℝ)) :
    operator (a ++ b) = operator b * operator a := by
  induction a with
  | nil => exact (mul_one _).symm
  | cons step a ih => rw [List.cons_append, operator_cons, operator_cons, ih, mul_assoc]

@[simp] theorem toMatrix_block_zero (u : Mat2 ℝ) :
    (block 0 u : CxStep ℝ).matrix.toMatrix = u.toMatrix ⊗ₖ 1 := by
  simp [CxStep.matrix]

@[simp] theorem toMatrix_block_one (u : Mat2 ℝ) :
    (block 1 u : CxStep ℝ).matrix.toMatrix = 1 ⊗ₖ u.toMatrix := by
  simp [CxStep.matrix]

@[simp] theorem toMatrix_cx_zero : (cx 0 : CxStep ℝ).matrix.toMatrix = Pauli.cx := by
  simp [CxStep.matrix, Pauli.cx]

@[simp] theorem toMatrix_cx_one : (cx 1 : CxStep ℝ).matrix.toMatrix = exchange Pauli.cx := by
  simp [CxStep.matrix, Pauli.cx]

theorem operator_pair (u : Mat2 ℝ) : operator (pair u) = u.toMatrix ⊗ₖ u.toMatrix := by
  simp [pair, ← Matrix.mul_kronecker_mul]

theorem operator_conjugated (basis : Mat2 ℝ) (steps : List (CxStep ℝ)) :
    operator (conjugated basis steps) =
      (basis.dagger.toMatrix ⊗ₖ basis.dagger.toMatrix) * operator steps *
        (basis.toMatrix ⊗ₖ basis.toMatrix) := by
  rw [conjugated, operator_append, operator_append, operator_pair, operator_pair, mul_assoc]

end Products

/-! ## The templates -/

section Templates

theorem operator_twoCx (x z : ℝ) : operator (twoCx x z) =
    Pauli.rotation (Pauli.X ⊗ₖ Pauli.X) x * Pauli.rotation (Pauli.Z ⊗ₖ Pauli.Z) z := by
  simp only [twoCx, operator_cons, operator_nil, toMatrix_cx_zero, toMatrix_block_zero,
    toMatrix_block_one, Mat2.toMatrix_rx, Mat2.toMatrix_rz, one_mul, mul_assoc]
  exact Pauli.two_flips x z

theorem operator_oneCx : operator oneCx = exp ((π / 4 : ℝ) * I) •
    Pauli.rotation (Pauli.X ⊗ₖ Pauli.X) (-(π / 2)) := by
  simp only [oneCx, operator_cons, operator_nil, toMatrix_cx_zero, toMatrix_block_zero,
    toMatrix_block_one, Mat2.toMatrix_rx, Mat2.toMatrix_rz, Mat2.toMatrix_h, Scalar.real_quarterTurn,
    one_mul, mul_assoc]
  exact Pauli.one_flip

theorem operator_threeCx (x y z : ℝ) :
    operator (threeCx x y z) = exp ((-(π / 4) : ℝ) * I) • Pauli.turns x y z := by
  simp only [threeCx, operator_cons, operator_nil, toMatrix_cx_zero, toMatrix_cx_one,
    toMatrix_block_zero, toMatrix_block_one, Mat2.toMatrix_ry, Mat2.toMatrix_rz, Scalar.real_quarterTurn,
    one_mul, mul_assoc]
  exact Pauli.three_flips x y z

end Templates

/-! ## Other axes -/

section Moved

variable {basis : Mat2 ℝ} {steps : List (CxStep ℝ)}

/-- The pair of equal axes on both operands. -/
noncomputable def Axis.double (a : Axis) : Op2 :=
  (a.pauli : Mat2 ℝ).toMatrix ⊗ₖ (a.pauli : Mat2 ℝ).toMatrix

theorem toMatrix_rz_quarter : (Mat2.rz (Scalar.quarterTurn : ℝ)).toMatrix =
    Pauli.rotation Pauli.Z (π / 2) := by
  rw [Mat2.toMatrix_rz, Scalar.real_quarterTurn]

theorem toMatrix_dagger_rz_quarter : (Mat2.rz (Scalar.quarterTurn : ℝ)).dagger.toMatrix =
    Pauli.rotation Pauli.Z (-(π / 2)) := by
  rw [Mat2.toMatrix_dagger, toMatrix_rz_quarter, Pauli.conjTranspose_rotation Pauli.conjTranspose_Z]

theorem toMatrix_rx_quarter : (Mat2.rx (Scalar.quarterTurn : ℝ)).toMatrix =
    Pauli.rotation Pauli.X (π / 2) := by
  rw [Mat2.toMatrix_rx, Scalar.real_quarterTurn]

theorem toMatrix_dagger_rx_quarter : (Mat2.rx (Scalar.quarterTurn : ℝ)).dagger.toMatrix =
    Pauli.rotation Pauli.X (-(π / 2)) := by
  rw [Mat2.toMatrix_dagger, toMatrix_rx_quarter, Pauli.conjTranspose_rotation Pauli.conjTranspose_X]

/-- A change of basis on both operands that turns back after the core moves its axes. -/
theorem operator_conjugated_twoCx {u v : Op} (hu : basis.toMatrix = u) (hv : basis.dagger.toMatrix = v)
    (huv : u * v = 1) (hvu : v * u = 1) (s t : ℝ) : operator (conjugated basis (twoCx s t)) =
      Pauli.rotation ((v * Pauli.X * u) ⊗ₖ (v * Pauli.X * u)) s *
        Pauli.rotation ((v * Pauli.Z * u) ⊗ₖ (v * Pauli.Z * u)) t := by
  have hboth : (u ⊗ₖ u) * (v ⊗ₖ v) = 1 := by
    rw [← Matrix.mul_kronecker_mul, huv, Matrix.one_kronecker_one]
  rw [operator_conjugated, operator_twoCx, hu, hv, Pauli.mul_mul_mul hboth,
    Pauli.pair_mul_rotation_mul_pair hvu, Pauli.pair_mul_rotation_mul_pair hvu]

theorem operator_conjugated_rz (y z : ℝ) :
    operator (conjugated (.rz Scalar.quarterTurn) (twoCx y z)) =
      Pauli.rotation (Pauli.Y ⊗ₖ Pauli.Y) y * Pauli.rotation (Pauli.Z ⊗ₖ Pauli.Z) z := by
  rw [operator_conjugated_twoCx toMatrix_rz_quarter toMatrix_dagger_rz_quarter
    (Pauli.rotation_mul_rotation_neg Pauli.Z_mul_Z _) (Pauli.rotation_neg_mul_rotation Pauli.Z_mul_Z _),
    Pauli.quarter_turn_Z_X, Pauli.rotation_neg_mul_mul_rotation Pauli.Z_mul_Z, Pauli.neg_kronecker_neg]

theorem operator_conjugated_rx (x y : ℝ) :
    operator (conjugated (.rx Scalar.quarterTurn) (twoCx x y)) =
      Pauli.rotation (Pauli.X ⊗ₖ Pauli.X) x * Pauli.rotation (Pauli.Y ⊗ₖ Pauli.Y) y := by
  rw [operator_conjugated_twoCx toMatrix_rx_quarter toMatrix_dagger_rx_quarter
    (Pauli.rotation_mul_rotation_neg Pauli.X_mul_X _) (Pauli.rotation_neg_mul_rotation Pauli.X_mul_X _),
    Pauli.quarter_turn_X_Z, Pauli.rotation_neg_mul_mul_rotation Pauli.X_mul_X]

/-- On every axis one `cx` makes a quarter turn backwards. -/
theorem upToPhase_quarter (a : Axis) : Pauli.UpToPhase (operator (conjugated a.basis oneCx))
    (Pauli.rotation a.double (-(π / 2))) := by
  have hmoved {u v : Op} (hu : (a.basis : Mat2 ℝ).toMatrix = u)
      (hv : (a.basis : Mat2 ℝ).dagger.toMatrix = v) (hvu : v * u = 1)
      (haxis : (v * Pauli.X * u) ⊗ₖ (v * Pauli.X * u) = a.double) :
      Pauli.UpToPhase (operator (conjugated a.basis oneCx)) (Pauli.rotation a.double (-(π / 2))) := by
    rw [operator_conjugated, operator_oneCx, hu, hv, mul_smul_comm, smul_mul_assoc,
      Pauli.pair_mul_rotation_mul_pair hvu, haxis]
    exact (Pauli.UpToPhase.smul _ _).symm
  cases a with
  | x =>
    refine hmoved (u := 1) (v := 1) (by simp [Axis.basis]) (by simp [Axis.basis]) (mul_one 1) ?_
    simp [Axis.double, Axis.pauli]
  | y =>
    refine hmoved toMatrix_rz_quarter toMatrix_dagger_rz_quarter
      (Pauli.rotation_neg_mul_rotation Pauli.Z_mul_Z _) ?_
    rw [Pauli.quarter_turn_Z_X, Pauli.neg_kronecker_neg]
    simp [Axis.double, Axis.pauli]
  | z =>
    refine hmoved (u := Pauli.H) (v := Pauli.H) (by simp [Axis.basis]) ?_ Pauli.H_mul_H ?_
    · simp [Axis.basis, Pauli.conjTranspose_H]
    · rw [Pauli.H_mul_X_mul_H]
      simp [Axis.double, Axis.pauli]

end Moved

end CxSequence
end QuantumCompiler
