import QuantumCompiler.Proofs.Synthesis.Templates

/-!
# Fusing neighbouring blocks

Fusing multiplies the blocks on an operand that no `cx` keeps apart. It keeps every `cx` in its place, leaves
at most one block on each operand between them, and in exact arithmetic loses nothing but a phase: a block
is left out only if it is the identity up to one.
-/
namespace QuantumCompiler

open scoped Kronecker

namespace CxStep

variable {R : Type}

def isCx : CxStep R → Bool
  | .cx _ => true
  | .block .. => false

def isBlockOn (qubit : Fin 2) : CxStep R → Bool
  | .block q _ => q = qubit
  | .cx _ => false

end CxStep

namespace CxSequence

open CxStep

section Segments

variable {R : Type} [Scalar R]

/-- Between neighbouring `cx`, and at either end, there is at most one block on each operand. -/
def Fused (steps : List (CxStep R)) : Prop :=
  ∀ segment ∈ steps.splitOnP isCx, ∀ qubit, segment.countP (isBlockOn qubit) ≤ 1

theorem isCx_emitBlock {qubit : Fin 2} {u : Mat2 R} : ∀ s ∈ emitBlock qubit u, s.isCx = false := by
  unfold emitBlock
  split <;> simp [isCx]

theorem isCx_emitBlocks (u v : Mat2 R) : ∀ s ∈ emitBlock 0 u ++ emitBlock 1 v, s.isCx = false := by
  intro s hs
  rcases List.mem_append.mp hs with hs | hs <;> exact isCx_emitBlock s hs

theorem countP_emitBlocks_le (u v : Mat2 R) (qubit : Fin 2) :
    (emitBlock 0 u ++ emitBlock 1 v).countP (isBlockOn qubit) ≤ 1 := by
  unfold emitBlock
  fin_cases qubit <;> split_ifs <;> simp [isBlockOn]

theorem filter_isCx_fuse (after : Mat2 R × Mat2 R) (steps : List (CxStep R)) (u v : Mat2 R) :
    (fuse after steps u v).filter isCx = steps.filter isCx := by
  have hnone (u v : Mat2 R) : (emitBlock 0 u ++ emitBlock 1 v).filter isCx = [] :=
    List.filter_eq_nil_iff.mpr fun s hs => by simp [isCx_emitBlocks u v s hs]
  fun_induction fuse after steps u v with
  | case1 u v => exact hnone _ _
  | case2 w rest u v ih => exact ih
  | case3 w rest u v ih => exact ih
  | case4 control rest u v ih =>
    rw [List.filter_append, hnone, List.nil_append, List.filter_cons_of_pos rfl,
      List.filter_cons_of_pos rfl, ih]

theorem fused_fuse (after : Mat2 R × Mat2 R) (steps : List (CxStep R)) (u v : Mat2 R) :
    Fused (fuse after steps u v) := by
  fun_induction fuse after steps u v with
  | case1 u v =>
    intro segment hs qubit
    rw [List.splitOnP_eq_singleton (isCx_emitBlocks _ _), List.mem_singleton] at hs
    rw [hs]
    exact countP_emitBlocks_le _ _ qubit
  | case2 w rest u v ih => exact ih
  | case3 w rest u v ih => exact ih
  | case4 control rest u v ih =>
    intro segment hs qubit
    rw [List.splitOnP_append_cons_of_forall_mem (isCx_emitBlocks u v) _ rfl, List.mem_cons] at hs
    rcases hs with rfl | hs
    · exact countP_emitBlocks_le u v qubit
    · exact ih segment hs qubit

end Segments

/-! ## Nothing is lost -/

section Lost

attribute [local instance] Scalar.real

/-- A block is left out only if it is the identity up to a phase. -/
theorem upToPhase_emitBlock (qubit : Fin 2) (u : Mat2 ℝ) :
    Pauli.UpToPhase (operator (emitBlock qubit u)) (block qubit u : CxStep ℝ).matrix.toMatrix := by
  unfold emitBlock
  split_ifs with h
  · obtain ⟨φ, hφ⟩ := Mat2.upToPhase_of_distance ((Scalar.real_below_allowance _ _).mp h)
    rw [Mat2.toMatrix_identity] at hφ
    refine Pauli.UpToPhase.symm ⟨φ, ?_⟩
    fin_cases qubit
    · show Complex.exp _ • (block 0 u : CxStep ℝ).matrix.toMatrix = 1
      rw [toMatrix_block_zero, ← Matrix.smul_kronecker, hφ, Matrix.one_kronecker_one]
    · show Complex.exp _ • (block 1 u : CxStep ℝ).matrix.toMatrix = 1
      rw [toMatrix_block_one, ← Matrix.kronecker_smul, hφ, Matrix.one_kronecker_one]
  · exact .of_eq (one_mul _)

theorem upToPhase_emitBlocks (u v : Mat2 ℝ) :
    Pauli.UpToPhase (operator (emitBlock 0 u ++ emitBlock 1 v)) (u.toMatrix ⊗ₖ v.toMatrix) := by
  have hboth := (upToPhase_emitBlock 1 v).mul (upToPhase_emitBlock 0 u)
  rwa [toMatrix_block_one, toMatrix_block_zero, ← Matrix.mul_kronecker_mul, one_mul, mul_one,
    ← operator_append] at hboth

/-- Fusing keeps the product, with the blocks around it, up to a phase. -/
theorem upToPhase_fuse (after : Mat2 ℝ × Mat2 ℝ) (steps : List (CxStep ℝ)) (u v : Mat2 ℝ) :
    Pauli.UpToPhase (operator (fuse after steps u v))
      ((after.1.toMatrix ⊗ₖ after.2.toMatrix) * operator steps * (u.toMatrix ⊗ₖ v.toMatrix)) := by
  fun_induction fuse after steps u v with
  | case1 u v =>
    have hends := upToPhase_emitBlocks (after.1 * u) (after.2 * v)
    rwa [Mat2.toMatrix_mul, Mat2.toMatrix_mul, Matrix.mul_kronecker_mul,
      ← mul_one (after.1.toMatrix ⊗ₖ _)] at hends
  | case2 w rest u v ih =>
    rwa [operator_cons, toMatrix_block_zero, mul_assoc, mul_assoc, ← Matrix.mul_kronecker_mul, one_mul,
      ← mul_assoc, ← Mat2.toMatrix_mul]
  | case3 w rest u v ih =>
    rwa [operator_cons, toMatrix_block_one, mul_assoc, mul_assoc, ← Matrix.mul_kronecker_mul, one_mul,
      ← mul_assoc, ← Mat2.toMatrix_mul]
  | case4 control rest u v ih =>
    have hone : (Mat2.identity : Mat2 ℝ).toMatrix ⊗ₖ (Mat2.identity : Mat2 ℝ).toMatrix = 1 := by
      rw [Mat2.toMatrix_identity, Matrix.one_kronecker_one]
    rw [hone, mul_one] at ih
    have hcx : Pauli.UpToPhase (cx control : CxStep ℝ).matrix.toMatrix (cx control).matrix.toMatrix :=
      .of_eq rfl
    have hstep := (ih.mul hcx).mul (upToPhase_emitBlocks u v)
    rwa [mul_assoc (after.1.toMatrix ⊗ₖ _), ← operator_cons, ← operator_cons, ← operator_append] at hstep

end Lost

end CxSequence
end QuantumCompiler
