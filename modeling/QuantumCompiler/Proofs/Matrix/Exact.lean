import Mathlib
import QuantumCompiler.Matrix.Four
import QuantumCompiler.Proofs.Matrix.Circuits
import QuantumCompiler.Proofs.Numeric.Complex

/-!
# Exact matrices

Over the real numbers the matrices of gates are operators: `toMatrix` takes products, tensor products and
exchanged operands to their counterparts and tells different matrices apart. Under it the gates are what
their names say, rotations about Pauli axes and operators behind a control.
-/
namespace QuantumCompiler

open Complex (I exp)
open Matrix (of)
open scoped Kronecker
open Pauli (Op Op2 switch exchange crossing)

attribute [local instance] Scalar.real

/-! ## One qubit -/

namespace Mat2

/-- The same matrix. -/
noncomputable def toMatrix (m : Mat2 ℝ) : Op :=
  !![m.a.toComplex, m.b.toComplex; m.c.toComplex, m.d.toComplex]

theorem toMatrix_injective : Function.Injective toMatrix := by
  rintro ⟨a, b, c, d⟩ ⟨a', b', c', d'⟩ h
  have hentry (i j : Fin 2) := congrFun (congrFun h i) j
  obtain rfl : a = a' := Cx.toComplex_injective (hentry 0 0)
  obtain rfl : b = b' := Cx.toComplex_injective (hentry 0 1)
  obtain rfl : c = c' := Cx.toComplex_injective (hentry 1 0)
  obtain rfl : d = d' := Cx.toComplex_injective (hentry 1 1)
  rfl

@[simp] theorem toMatrix_identity : (identity : Mat2 ℝ).toMatrix = 1 := by
  simp [toMatrix, identity, Matrix.one_fin_two]

@[simp] theorem toMatrix_mul (m n : Mat2 ℝ) : (m * n).toMatrix = m.toMatrix * n.toMatrix := by
  show (mul m n).toMatrix = _
  simp [toMatrix, mul]

@[simp] theorem toMatrix_scale (m : Mat2 ℝ) (z : Cx ℝ) :
    (m.scale z).toMatrix = z.toComplex • m.toMatrix := by
  simp [toMatrix, scale, map, mul_comm]

@[simp] theorem toMatrix_dagger (m : Mat2 ℝ) : m.dagger.toMatrix = m.toMatrix.conjTranspose := by
  ext i j
  fin_cases i <;> fin_cases j <;> simp [toMatrix, dagger]

@[simp] theorem toMatrix_x : (x : Mat2 ℝ).toMatrix = Pauli.X := by
  simp [toMatrix, x, Pauli.X]

@[simp] theorem toMatrix_y : (y : Mat2 ℝ).toMatrix = Pauli.Y := by
  simp [toMatrix, y, Pauli.Y]

@[simp] theorem toMatrix_z : (z : Mat2 ℝ).toMatrix = Pauli.Z := by
  simp [toMatrix, z, Pauli.Z]

@[simp] theorem toMatrix_rx (θ : ℝ) : (rx θ).toMatrix = Pauli.rotation Pauli.X θ := by
  ext i j
  fin_cases i <;> fin_cases j <;>
    simp [toMatrix, rx, Pauli.rotation_def, Pauli.X, Cx.toComplex_mk, Scalar.real_zero, Scalar.real_cos,
        Scalar.real_sin]

@[simp] theorem toMatrix_ry (θ : ℝ) : (ry θ).toMatrix = Pauli.rotation Pauli.Y θ := by
  ext i j
  fin_cases i <;> fin_cases j <;>
    simp [toMatrix, ry, Pauli.rotation_def, Pauli.Y, Scalar.real_cos, Scalar.real_sin, mul_assoc]

@[simp] theorem toMatrix_rz (θ : ℝ) : (rz θ).toMatrix = Pauli.rotation Pauli.Z θ := by
  simp [toMatrix, rz, Pauli.rotation_Z]

@[simp] theorem toMatrix_p (θ : ℝ) : (p θ).toMatrix = Pauli.phase θ := by
  simp [toMatrix, p, Pauli.phase]

@[simp] theorem toMatrix_h : (h : Mat2 ℝ).toMatrix = Pauli.H := by
  have hroot : (Scalar.invSqrtTwo : ℝ) = Real.sqrt 2 / 2 := by
    rw [Scalar.real_invSqrtTwo, Real.sqrt_div_self']
  simp [toMatrix, h, Pauli.H, Pauli.X, Pauli.Z, hroot]

/-- The square root of a flip is a quarter turn and a phase. -/
@[simp] theorem toMatrix_sx : (sx : Mat2 ℝ).toMatrix =
    exp ((Real.pi / 4 : ℝ) * I) • Pauli.rotation Pauli.X (Real.pi / 2) := by
  rw [Pauli.rotation_quarter, Pauli.exp_eighth, smul_smul, mul_right_comm, Pauli.half_sqrt_two_sq]
  ext i j
  fin_cases i <;> fin_cases j <;> simp [toMatrix, sx, Pauli.X, Cx.toComplex_mk, Scalar.real_half]
  · ring
  · linear_combination (1 / 2 : ℂ) * Complex.I_sq
  · linear_combination (1 / 2 : ℂ) * Complex.I_sq
  · ring

theorem toMatrix_dagger_sx : (sx.dagger : Mat2 ℝ).toMatrix =
    exp ((-(Real.pi / 4) : ℝ) * I) • Pauli.rotation Pauli.X (-(Real.pi / 2)) := by
  rw [toMatrix_dagger, toMatrix_sx, Matrix.conjTranspose_smul,
    Pauli.conjTranspose_rotation Pauli.conjTranspose_X, Complex.star_def, ← Complex.exp_conj, map_mul,
    Complex.conj_ofReal, Complex.conj_I, mul_neg, Complex.ofReal_neg, neg_mul]

/-- The general gate turns the second axis between two phases. -/
theorem toMatrix_u (θ φ ψ : ℝ) :
    (u θ φ ψ).toMatrix = Pauli.phase φ * Pauli.rotation Pauli.Y θ * Pauli.phase ψ := by
  rw [← toMatrix_ry]
  ext i j
  fin_cases i <;> fin_cases j <;>
    simp [toMatrix, u, ry, Pauli.phase, Scalar.real_cos, Scalar.real_sin, add_mul, Complex.exp_add] <;> ring

/-- The adjoint undoes the matrix. -/
def IsUnitary (m : Mat2 ℝ) : Prop := m.dagger * m = identity

theorem isUnitary_iff {m : Mat2 ℝ} :
    m.IsUnitary ↔ m.toMatrix ∈ Matrix.unitaryGroup (Fin 2) ℂ := by
  rw [IsUnitary, ← toMatrix_injective.eq_iff, toMatrix_mul, toMatrix_dagger, toMatrix_identity,
    Matrix.mem_unitaryGroup_iff']
  rfl

theorem IsUnitary.mul {m n : Mat2 ℝ} (hm : m.IsUnitary) (hn : n.IsUnitary) : (m * n).IsUnitary := by
  rw [isUnitary_iff] at hm hn ⊢
  rw [toMatrix_mul]
  exact mul_mem hm hn

theorem isUnitary_h : (h : Mat2 ℝ).IsUnitary := by
  rw [isUnitary_iff, toMatrix_h, Matrix.mem_unitaryGroup_iff', Matrix.star_eq_conjTranspose,
    Pauli.conjTranspose_H, Pauli.H_mul_H]

theorem toComplex_det (m : Mat2 ℝ) : m.det.toComplex = m.toMatrix.det := by
  simp [toMatrix, det, Matrix.det_fin_two]

/-- The phase that is taken off for the comparison is one. -/
theorem exists_exp_eq_phase (z : Cx ℝ) :
    ∃ φ : ℝ, exp (φ * I) = (if Scalar.below z.norm (Scalar.allowance 10) then 1
      else z.divReal z.norm : Cx ℝ).toComplex := by
  rw [← Complex.norm_eq_one_iff]
  split_ifs with h
  · simp
  · rw [Scalar.real_below_allowance, Cx.norm_toComplex, not_le] at h
    rw [Cx.toComplex_divReal, Cx.norm_toComplex, norm_div, Complex.norm_real, norm_norm, div_self h.ne']

/-- Matrices at distance zero differ by a phase. -/
theorem upToPhase_of_distance {u v : Mat2 ℝ} (h : u.distanceUpToPhase v ≤ 0) :
    Pauli.UpToPhase u.toMatrix v.toMatrix := by
  unfold distanceUpToPhase at h
  extract_lets overlap phase at h
  obtain ⟨φ, hφ⟩ : ∃ φ : ℝ, exp (φ * I) = phase.toComplex := exists_exp_eq_phase overlap
  have hentry {x y : Cx ℝ}
      (hxy : (x * phase - y).norm ∈ zipWith (fun x y => (x * phase - y).norm) u v) :
      exp (φ * I) * x.toComplex = y.toComplex := by
    have hnorm : ‖(x * phase - y).toComplex‖ ≤ 0 := Cx.norm_toComplex _ ▸ (Scalar.real_le_maximum hxy).trans h
    rw [norm_le_zero_iff, Cx.toComplex_sub, Cx.toComplex_mul, sub_eq_zero] at hnorm
    rw [hφ, mul_comm, hnorm]
  refine ⟨φ, ?_⟩
  ext i j
  fin_cases i <;> fin_cases j
  · exact hentry (by simp [zipWith])
  · exact hentry (by simp [zipWith])
  · exact hentry (by simp [zipWith])
  · exact hentry (by simp [zipWith])

end Mat2

/-! ## Two qubits -/

namespace Square4

variable {α : Type}

@[simp] theorem get_ofFn (f : Fin 4 → Fin 4 → α) (i j : Fin 4) : (ofFn f).get i j = f i j := by
  simp only [get, ofFn, Vector.getElem_ofFn]
  congr 1 <;> exact Fin.ext (by dsimp only; omega)

theorem ext_get {m n : Square4 α} (h : ∀ i j, m.get i j = n.get i j) : m = n := by
  cases m
  cases n
  congr 1
  refine Vector.ext fun k hk => ?_
  have := h ⟨k / 4, by omega⟩ ⟨k % 4, by omega⟩
  simp only [get, Nat.div_add_mod] at this
  exact this

@[simp] theorem get_map {β : Type} (f : α → β) (m : Square4 α) (i j : Fin 4) :
    (m.map f).get i j = f (m.get i j) := by
  simp [get, map]

end Square4

namespace Mat4

open Square4

/-- The index spelled by two bits, the first one most significant. -/
def index (i : Fin 2 × Fin 2) : Fin 4 := ⟨2 * i.1 + i.2, by omega⟩

/-- The same matrix, with two bits for a row and two for a column. -/
noncomputable def toMatrix (m : Mat4 ℝ) : Op2 := of fun i j => (m.get (index i) (index j)).toComplex

theorem toMatrix_injective : Function.Injective toMatrix := by
  have hindex : ∀ k, ∃ i, index i = k := by decide
  intro m n h
  refine ext_get fun i j => Cx.toComplex_injective ?_
  obtain ⟨i, rfl⟩ := hindex i
  obtain ⟨j, rfl⟩ := hindex j
  exact congrFun (congrFun h i) j

@[simp] theorem toMatrix_mul (m n : Mat4 ℝ) : (m * n).toMatrix = m.toMatrix * n.toMatrix := by
  show toMatrix (Square4.mul m n) = _
  ext i j
  simp [toMatrix, Square4.mul, Matrix.mul_apply, Fintype.sum_prod_type, index]
  ring

theorem toMatrix_ofFn (f : Fin 4 → Fin 4 → Cx ℝ) (i j : Fin 2 × Fin 2) :
    toMatrix (ofFn f) i j = (f (index i) (index j)).toComplex := by
  simp [toMatrix]

theorem index_injective : Function.Injective index := by decide

@[simp] theorem toMatrix_identity : toMatrix (identity : Mat4 ℝ) = 1 := by
  ext i j
  rw [identity, diagonal, toMatrix_ofFn, Matrix.one_apply]
  by_cases hij : i = j
  · simp [hij]
  · simp [hij, index_injective.ne hij]

@[simp] theorem toMatrix_scale (m : Mat4 ℝ) (z : Cx ℝ) :
    toMatrix (m.scale z) = z.toComplex • m.toMatrix := by
  ext i j
  simp [toMatrix, scale, mul_comm]

@[simp] theorem toMatrix_kron (m n : Mat2 ℝ) : toMatrix (kron m n) = m.toMatrix ⊗ₖ n.toMatrix := by
  ext ⟨i, j⟩ ⟨k, l⟩
  rw [kron, toMatrix_ofFn]
  fin_cases i <;> fin_cases j <;> fin_cases k <;> fin_cases l <;> rfl

@[simp] theorem toMatrix_swapOperands (m : Mat4 ℝ) :
    toMatrix m.swapOperands = exchange m.toMatrix := by
  ext ⟨i, j⟩ ⟨k, l⟩
  rw [swapOperands, toMatrix_ofFn]
  fin_cases i <;> fin_cases j <;> fin_cases k <;> fin_cases l <;> rfl

@[simp] theorem toMatrix_controlled (m : Mat2 ℝ) : toMatrix (controlled m) = switch 1 m.toMatrix := by
  ext ⟨i, j⟩ ⟨k, l⟩
  rw [controlled, ofRows, toMatrix_ofFn]
  fin_cases i <;> fin_cases j <;> fin_cases k <;> fin_cases l <;>
    simp [index, row, switch, Pauli.off, Pauli.on, Mat2.toMatrix]

@[simp] theorem toMatrix_swap : toMatrix (swap : Mat4 ℝ) = crossing := by
  ext ⟨i, j⟩ ⟨k, l⟩
  rw [swap, ofRows, toMatrix_ofFn]
  fin_cases i <;> fin_cases j <;> fin_cases k <;> fin_cases l <;>
    simp [index, row, crossing, PEquiv.toMatrix_apply]

@[simp] theorem toMatrix_iswap :
    toMatrix (iswap : Mat4 ℝ) = Pauli.exchangePhases * crossing := by
  rw [crossing, PEquiv.mul_toMatrix_toPEquiv]
  ext ⟨i, j⟩ ⟨k, l⟩
  rw [iswap, ofRows, toMatrix_ofFn]
  fin_cases i <;> fin_cases j <;> fin_cases k <;> fin_cases l <;>
    simp [index, row, Pauli.exchangePhases, switch, Pauli.off, Pauli.on]

@[simp] theorem toMatrix_rxx (θ : ℝ) : toMatrix (rxx θ) = Pauli.rotation (Pauli.X ⊗ₖ Pauli.X) θ := by
  ext ⟨i, j⟩ ⟨k, l⟩
  rw [rxx, ofRows, toMatrix_ofFn]
  fin_cases i <;> fin_cases j <;> fin_cases k <;> fin_cases l <;>
    simp [index, row, Pauli.rotation_def, Pauli.X, Cx.toComplex_mk, Scalar.real_zero, Scalar.real_cos,
        Scalar.real_sin]

@[simp] theorem toMatrix_ryy (θ : ℝ) : toMatrix (ryy θ) = Pauli.rotation (Pauli.Y ⊗ₖ Pauli.Y) θ := by
  ext ⟨i, j⟩ ⟨k, l⟩
  rw [ryy, ofRows, toMatrix_ofFn]
  fin_cases i <;> fin_cases j <;> fin_cases k <;> fin_cases l <;>
    simp [index, row, Pauli.rotation_def, Pauli.Y, Cx.toComplex_mk, Scalar.real_zero, Scalar.real_cos,
        Scalar.real_sin]

@[simp] theorem toMatrix_rzz (θ : ℝ) : toMatrix (rzz θ) = Pauli.rotation (Pauli.Z ⊗ₖ Pauli.Z) θ := by
  rw [Pauli.rotation_Z_kronecker, Pauli.rotation_Z, Pauli.rotation_Z]
  ext ⟨i, j⟩ ⟨k, l⟩
  rw [rzz, diagonal, toMatrix_ofFn]
  fin_cases i <;> fin_cases j <;> fin_cases k <;> fin_cases l <;>
    simp [index, row, switch, Pauli.off, Pauli.on]

/-! ### Exchanged operands -/

theorem swapOperands_mul (m n : Mat4 ℝ) :
    (m * n).swapOperands = m.swapOperands * n.swapOperands := by
  apply Mat4.toMatrix_injective
  simp [Pauli.exchange_mul]

theorem swapOperands_kron (u v : Mat2 ℝ) : (Mat4.kron u v).swapOperands = Mat4.kron v u := by
  apply Mat4.toMatrix_injective
  simp [Pauli.exchange_kronecker]

theorem swapOperands_swapOperands (m : Mat4 ℝ) : m.swapOperands.swapOperands = m := by
  apply Mat4.toMatrix_injective
  simp [Pauli.exchange_exchange]

theorem swapOperands_scale (m : Mat4 ℝ) (z : Cx ℝ) :
    (m.scale z).swapOperands = m.swapOperands.scale z := by
  apply Mat4.toMatrix_injective
  simp [Pauli.exchange_smul]

theorem swapOperands_identity : (Mat4.identity : Mat4 ℝ).swapOperands = Mat4.identity := by
  apply Mat4.toMatrix_injective
  simp [Pauli.exchange_one]

end Mat4

end QuantumCompiler
