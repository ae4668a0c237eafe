import QuantumCompiler.Proofs.Outcome
import QuantumCompiler.Synthesis.CxSequence

/-!
# Length of a two-qubit synthesis

Three `cx` suffice for every interaction, whatever its angles, and fusing leaves at most one block on
each operand between them.
-/
namespace QuantumCompiler

variable {R : Type} [Scalar R]

namespace CxSequence

open CxStep

omit [Scalar R] in
theorem cxCount_append (a b : List (CxStep R)) :
    cxCount (a ++ b) = cxCount a + cxCount b := by
  simp [cxCount]

omit [Scalar R] in
theorem cxCount_pair (u : Mat2 R) : cxCount (pair u) = 0 := rfl

theorem cxCount_conjugated (basis : Mat2 R) (steps : List (CxStep R)) :
    cxCount (conjugated basis steps) = cxCount steps := by
  rw [conjugated, cxCount_append, cxCount_append, cxCount_pair, cxCount_pair, zero_add, add_zero]

theorem cxCount_core_le (x y z : R) :
    cxCount (core x y z).1 ≤ 3 ∧ cxCount (core x y z).2 = 0 := by
  unfold core
  extract_lets angle active general
  clear_value active
  have hgeneral : cxCount general ≤ 3 := by
    unfold general
    split
    all_goals first
      | exact Nat.zero_le _
      | rw [cxCount_conjugated]; exact Nat.le_succ 2
      | exact Nat.le_succ 2
      | exact le_rfl
  split
  · split
    · refine ⟨?_, ?_⟩
      · rw [cxCount_conjugated]
        exact Nat.le_add_left 1 2
      · dsimp only
        split <;> rfl
    · exact ⟨hgeneral, rfl⟩
  · exact ⟨hgeneral, rfl⟩

/-- Three `cx` suffice for every interaction. -/
theorem cxCount_ofAngles_le (x y z : R) : cxCount (ofAngles x y z) ≤ 3 := by
  have hpair (odd : Bool) (u : Mat2 R) : cxCount (if odd then pair u else []) = 0 := by
    cases odd <;> rfl
  obtain ⟨hsteps, hpaulis⟩ := cxCount_core_le (reduceHalfTurns x).1 (reduceHalfTurns y).1
    (reduceHalfTurns z).1
  simp only [ofAngles, cxCount_append, hpair, hpaulis]
  exact hsteps

theorem length_emitBlock_le (qubit : Fin 2) (u : Mat2 R) : (emitBlock qubit u).length ≤ 1 := by
  unfold emitBlock
  split <;> simp

/-- At most two blocks stand between neighbouring `cx`, and at either end. -/
theorem length_fuse_le (after : Mat2 R × Mat2 R) (steps : List (CxStep R)) (u v : Mat2 R) :
    (fuse after steps u v).length ≤ 3 * cxCount steps + 2 := by
  fun_induction fuse after steps u v with
  | case1 u v =>
    have h₀ := length_emitBlock_le 0 (after.1 * u)
    have h₁ := length_emitBlock_le 1 (after.2 * v)
    rw [List.length_append]
    omega
  | case2 w rest u v ih => exact ih
  | case3 w rest u v ih => exact ih
  | case4 control rest u v ih =>
    have h₀ := length_emitBlock_le 0 u
    have h₁ := length_emitBlock_le 1 v
    have hcount : cxCount (cx control :: rest) = cxCount rest + 1 := rfl
    rw [List.length_append, List.length_append, List.length_cons]
    omega

/-- A two-qubit unitary takes eleven steps at most. -/
theorem length_ofMatrix_le {u : Mat4 R} {s : CxSequence R} (h : ofMatrix u = .ok s) :
    s.steps.length ≤ 11 := by
  obtain ⟨k, -, h⟩ := Outcome.bind_eq_ok.mp h
  obtain ⟨phase, -, h⟩ := Outcome.bind_eq_ok.mp h
  obtain rfl := Except.ok.inj h
  have hcx := cxCount_ofAngles_le k.xx k.yy k.zz
  have hfuse := length_fuse_le k.after (ofAngles k.xx k.yy k.zz) k.before.1 k.before.2
  dsimp only
  omega

end CxSequence

end QuantumCompiler
