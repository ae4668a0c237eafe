import Mathlib
import QuantumCompiler.Proofs.Matrix.Exact
import QuantumCompiler.Proofs.Matrix.Unitary
import QuantumCompiler.Proofs.Synthesis.Multiplexed
import QuantumCompiler.Proofs.Synthesis.Shannon

/-!
# What steps do to a register

A sequence of steps acts on the register by the product of their operators. The steps of a ladder act on its
target, each in a way that the bits of the controls choose, so a multiplexed rotation turns the target by
the angle of the value that the controls have.
-/
namespace QuantumCompiler

open QuantumCompiler.Dense (Operands embed quarters fibers operandIndex AgreeOff bitIndex)
open Pauli (Op)

attribute [local instance] Scalar.real

/-! ## Ladders -/

namespace ShannonStep

/-- A flip behind a control. -/
def flipIf (set : Bool) : Op := if set then Pauli.X else 1

/-- What a step of a ladder does to the target, where the controls have the given bits. -/
noncomputable def action (x : Nat → Bool) : ShannonStep ℝ → Op
  | ry _ θ => Pauli.rotation Pauli.Y θ
  | rz _ θ => Pauli.rotation Pauli.Z θ
  | cx control _ => flipIf (x control)
  | block .. => 1

theorem turn_succ (x : Nat → Bool) (n : Nat) (l : List (ShannonStep ℝ)) :
    turn x (n + 1) l = -turn x n l := by
  induction l generalizing n with
  | nil => simp [turn]
  | cons s l ih =>
    rw [turn, turn, Nat.add_right_comm, ih]
    ring

/-- A kind of rotation and its axis, which a flip turns around. -/
structure About (rotation : Nat → ℝ → ShannonStep ℝ) (P : Op) : Prop where
  qubits : ∀ q θ, (rotation q θ).qubits = [q]
  matrix : ∀ q θ, ∃ m : Mat2 ℝ, (rotation q θ).matrix = .ofTwo m ∧ m.toMatrix = Pauli.rotation P θ
  action : ∀ x q θ, (rotation q θ).action x = Pauli.rotation P θ
  angle : ∀ q θ, (rotation q θ).angle? = some θ
  involution : P * P = 1
  flip : P * Pauli.X = Pauli.X * -P

theorem about_ry : About ry Pauli.Y :=
  ⟨fun _ _ => rfl, fun _ θ => ⟨.ry θ, rfl, Mat2.toMatrix_ry θ⟩, fun _ _ _ => rfl, fun _ _ => rfl,
    Pauli.Y_mul_Y, Pauli.Y_mul_X⟩

theorem about_rz : About rz Pauli.Z :=
  ⟨fun _ _ => rfl, fun _ θ => ⟨.rz θ, rfl, Mat2.toMatrix_rz θ⟩, fun _ _ _ => rfl, fun _ _ => rfl,
    Pauli.Z_mul_Z, Pauli.Z_mul_X'⟩

/-- Steps on a target come to their flips and one rotation by their turn. -/
theorem prod_action {rotation : Nat → ℝ → ShannonStep ℝ} {P : Op} (hP : About rotation P) {target : Nat}
    {controls : List Nat} (x : Nat → Bool) {l : List (ShannonStep ℝ)}
    (hl : ∀ s ∈ l, s.OnTarget rotation target controls) :
    (l.reverse.map (action x)).prod = Pauli.X ^ l.countP (flips x) * Pauli.rotation P (turn x 0 l) := by
  induction l with
  | nil => simp [turn, Pauli.rotation_zero]
  | cons s l ih =>
    obtain ⟨hs, hl⟩ := List.forall_mem_cons.mp hl
    rw [List.reverse_cons, List.map_append, List.prod_append, ih hl, List.map_singleton,
      List.prod_singleton, turn, pow_zero, one_mul, Nat.zero_add]
    rcases hs with ⟨θ, rfl⟩ | ⟨c, -, rfl⟩
    · have hflips : (rotation target θ).flips x = false := flips_of_angle? (hP.angle target θ)
      rw [List.countP_cons_of_neg (by simp [hflips]), hP.action, mul_assoc,
        Pauli.rotation_mul_rotation hP.involution, hP.angle, hflips, add_comm]
      rfl
    · cases hc : x c with
      | false => simp [action, flipIf, flips, angle?, hc]
      | true =>
        have hturn : turn x (true.toNat) l = -turn x 0 l := turn_succ x 0 l
        rw [List.countP_cons_of_pos (by simp [flips, hc]), pow_succ, mul_assoc, mul_assoc]
        simp only [action, flipIf, flips, angle?, hc, if_pos, Option.getD_none, zero_add, hturn]
        rw [Pauli.rotation_mul hP.flip, Pauli.neg_rotation]

/-! ## Operators of steps -/

section Operator

variable {n q : Nat} {qs : List Nat}

theorem operator_apply (s : ShannonStep ℝ) (i j : Fin (2 ^ n)) : operator Cx.toComplex n s i j =
    if AgreeOff n s.qubits i j then
      (s.matrix.get (operandIndex n s.qubits i) (operandIndex n s.qubits j)).toComplex else 0 := rfl

theorem toComplex_get_ofTwo (m : Mat2 ℝ) (q i j : Nat) :
    ((Dense.ofTwo m).get (operandIndex n [q] i) (operandIndex n [q] j)).toComplex =
      m.toMatrix (bitIndex n q i) (bitIndex n q j) := by
  simp only [operandIndex, bitIndex, List.length_nil, pow_zero, one_mul, Nat.add_zero]
  cases i.testBit (n - 1 - q) <;> cases j.testBit (n - 1 - q) <;> rfl

/-- Only where the control has the same bit before and after, and then a flip if it is set. -/
theorem toComplex_get_cx (c q i j : Nat) :
    ((cx c q : ShannonStep ℝ).matrix.get (operandIndex n [c, q] i) (operandIndex n [c, q] j)).toComplex =
      if i.testBit (n - 1 - c) = j.testBit (n - 1 - c) then
        flipIf (i.testBit (n - 1 - c)) (bitIndex n q i) (bitIndex n q j)
      else 0 := by
  have hbits : ∀ a b a' b' : Bool, ((cx c q : ShannonStep ℝ).matrix.get
      (2 * a.toNat + (1 * b.toNat + 0)) (2 * a'.toNat + (1 * b'.toNat + 0))).toComplex =
      if a = a' then flipIf a (finTwoEquiv.symm b) (finTwoEquiv.symm b') else 0 := by
    have hclear : finTwoEquiv.symm false = 0 := rfl
    have hset : finTwoEquiv.symm true = 1 := rfl
    rintro (_ | _) (_ | _) (_ | _) (_ | _) <;> simp [matrix, Dense.get, flipIf, Pauli.X, hclear, hset]
  exact hbits _ _ _ _

theorem operator_rotation (h : Operands n (q :: qs)) {m : Mat2 ℝ} {s : ShannonStep ℝ}
    (hq : s.qubits = [q]) (hm : s.matrix = .ofTwo m) :
    operator Cx.toComplex n s = embed n (q :: qs) (quarters (fibers fun _ => m.toMatrix)) := by
  ext i j
  rw [operator_apply, Dense.embed_fibers h, hq, hm, toComplex_get_ofTwo]

theorem operator_cx (h : Operands n (q :: qs)) {c : Nat} (hc : c ∈ qs) :
    operator Cx.toComplex n (cx c q) = embed n (q :: qs)
      (quarters (fibers fun l => flipIf (bitsOf qs l c))) := by
  have hmem : c ∉ [q] := fun hm => h.head_notMem (List.mem_singleton.mp hm ▸ hc)
  ext i j
  rw [operator_apply, Dense.embed_fibers h, qubits, toComplex_get_cx]
  simp only [Dense.agreeOff_iff_cons (h.tail.lt c hc) hmem, bitsOf, Dense.testBit_operandIndex hc,
    Dense.testBit_eq_iff_bitIndex_eq, ite_and]

variable {rotation : Nat → ℝ → ShannonStep ℝ} {P : Op} (hP : About rotation P)

include hP in
/-- On the register a step of a ladder acts on its target. -/
theorem operator_onTarget (h : Operands n (q :: qs)) {s : ShannonStep ℝ}
    (hs : s.OnTarget rotation q qs) :
    operator Cx.toComplex n s = embed n (q :: qs) (quarters (fibers fun l => s.action (bitsOf qs l))) := by
  rcases hs with ⟨θ, rfl⟩ | ⟨c, hc, rfl⟩
  · obtain ⟨m, hm, hrotation⟩ := hP.matrix q θ
    rw [operator_rotation h (hP.qubits q θ) hm, hrotation]
    simp only [hP.action]
  · exact operator_cx h hc

/-- What a sequence of steps does to the register. -/
noncomputable def effect (n : Nat) (l : List (ShannonStep ℝ)) : Matrix (Fin (2 ^ n)) (Fin (2 ^ n)) ℂ :=
  (l.reverse.map (operator Cx.toComplex n)).prod

theorem effect_append (n : Nat) (a b : List (ShannonStep ℝ)) :
    effect n (a ++ b) = effect n b * effect n a := by
  rw [effect, List.reverse_append, List.map_append, List.prod_append, effect, effect]

include hP in
theorem effect_onTarget (h : Operands n (q :: qs)) {l : List (ShannonStep ℝ)}
    (hl : ∀ s ∈ l, s.OnTarget rotation q qs) : effect n l = embed n (q :: qs)
      (quarters (fibers fun v => (l.reverse.map (action (bitsOf qs v))).prod)) := by
  induction l with
  | nil =>
    simp only [effect, List.reverse_nil, List.map_nil, List.prod_nil]
    rw [Dense.fibers_one, Dense.quarters_one, Dense.embed_one]
  | cons s l ih =>
    obtain ⟨hs, hl⟩ := List.forall_mem_cons.mp hl
    have hsingle : effect n [s] = operator Cx.toComplex n s := by simp [effect]
    rw [← List.singleton_append, effect_append, hsingle, ih hl, operator_onTarget hP h hs,
      ← Dense.embed_mul h, ← Dense.quarters_mul, ← Dense.fibers_mul]
    simp

end Operator

end ShannonStep

/-! ## Multiplexed rotations -/

namespace Shannon

open ShannonStep

variable {n q : Nat} {qs : List Nat}

/-- For each value of its controls a ladder is the rotation by the angle of this value. -/
theorem prod_action_multiplexed {rotation : Nat → ℝ → ShannonStep ℝ} {P : Op} (hP : About rotation P)
    (hd : qs.Nodup) {angles : List ℝ} (hlen : angles.length = 2 ^ qs.length) {j : Nat}
    (hj : j < angles.length) :
    ((multiplexed rotation angles q qs).reverse.map (action (bitsOf qs j))).prod =
      Pauli.rotation P angles[j] := by
  have hturn := (turn_rungs (hP.angle q) hd hlen le_rfl j).trans (sum_ladderAngle hlen hj)
  have hsign := sign_countP_rungs (hP.angle q) hd hlen le_rfl j
  rw [Nat.mod_self, show gray 0 = 0 from rfl, sharedParity_zero] at hsign
  have heven : Even ((rungs rotation angles q qs (2 ^ qs.length)).countP (flips (bitsOf qs j))) :=
    (neg_one_pow_eq_one_iff_even (by norm_num)).mp hsign
  obtain ⟨k, hk⟩ := heven
  rw [prod_action hP _ (onTarget_multiplexed rotation angles q qs), multiplexed_eq, hlen, hturn, hk,
    ← two_mul, pow_mul, pow_two, Pauli.X_mul_X, one_pow, one_mul]

/-- On the register a ladder rotates its target by the angle of the value at its controls. -/
theorem effect_multiplexed {rotation : Nat → ℝ → ShannonStep ℝ} {P : Op} (hP : About rotation P)
    (h : Operands n (q :: qs)) {angles : List ℝ} (hlen : angles.length = 2 ^ qs.length) :
    effect n (multiplexed rotation angles q qs) = embed n (q :: qs)
      (quarters (fibers fun j => Pauli.rotation P angles[j])) := by
  rw [effect_onTarget hP h (onTarget_multiplexed rotation angles q qs)]
  congr 3
  exact funext fun j => prod_action_multiplexed hP h.tail.nodup hlen (j.isLt.trans_eq hlen.symm)

end Shannon

end QuantumCompiler
