import Mathlib
import QuantumCompiler.Lowering.Native
import QuantumCompiler.Proofs.Angle
import QuantumCompiler.Proofs.Matrix.Exact

/-!
# What the rules for two-qubit gates multiply to

In exact arithmetic the pieces of a rule are the gate that they stand for. `onPair?` places a gate on two
operands and `productOn?` multiplies what a rule puts there; both are undefined where an angle has no value,
and then for the rule as for the gate. Exchanging the two operands exchanges them in every product, so one
placement settles the other.
-/
namespace QuantumCompiler

open scoped Kronecker

section Placed

variable {R : Type} [Scalar R]

/-- The matrix on the operands `p` and `q` of a matrix on one of them or on both. -/
def placed? (p q : Qubit) (one : Option (Mat2 R)) (two : Option (Mat4 R)) :
    List Qubit → Option (Mat4 R)
  | [r] =>
    if r = p then one.map (Mat4.kron · Mat2.identity)
    else if r = q then one.map (Mat4.kron Mat2.identity ·)
    else none
  | [r, s] =>
    if r = p ∧ s = q then two else if r = q ∧ s = p then two.map Mat4.swapOperands else none
  | _ => none

/-- The matrix on the operands `p` and `q` of a standard gate, with numbers for the names in its
angles. -/
def Instruction.onPair? (values : String → Option R) (p q : Qubit) (i : Instruction R) :
    Option (Mat4 R) :=
  i.standard?.bind fun g =>
    let g := g.mapAngles (Angle.substitute values)
    placed? p q (Mat2.ofGate? g) (Mat4.ofGate? g) i.qubits

/-- Product in time order of gates on two operands. -/
def productOn? (values : String → Option R) (p q : Qubit) (is : List (Instruction R)) :
    Option (Mat4 R) :=
  is.foldlM (fun m i => (i.onPair? values p q).map (· * m)) Mat4.identity

end Placed

namespace Rules

section Existence

variable {R : Type} [Scalar R]

/-- Exactly the two-qubit gates that are not split, other than the controlled flip, have a rule. -/
theorem isSome_twoQubit? (g : StandardGate R) (a b : Qubit) : (twoQubit? g a b).isSome = true ↔
    g.numQubits = 2 ∧ g.isSplit = false ∧ g ≠ .cx := by
  cases g <;> simp [twoQubit?, StandardGate.numQubits, StandardGate.isSplit]

/-- Exactly the bases with an entangler other than it take a controlled flip apart. -/
theorem isSome_cx? (basis : Basis) (a b : Qubit) : (cx? (R := R) basis a b).isSome = true ↔
    basis.contains "cz" = true ∨ basis.contains "cp" = true ∨ basis.contains "iswap" = true := by
  simp only [cx?]
  split_ifs <;> simp [*]

end Existence

attribute [local instance] Scalar.real

variable {p q a b : Qubit} {values : String → Option ℝ} {g : StandardGate ℝ}
  {is : List (Instruction ℝ)}

/-! ## Placing gates -/

section Placing

theorem onPair?_first (g : StandardGate ℝ) : (on g [p]).onPair? values p q =
    (Mat2.ofGate? (g.mapAngles (Angle.substitute values))).map (Mat4.kron · Mat2.identity) :=
  if_pos rfl

theorem onPair?_second (h : p ≠ q) (g : StandardGate ℝ) : (on g [q]).onPair? values p q =
    (Mat2.ofGate? (g.mapAngles (Angle.substitute values))).map (Mat4.kron Mat2.identity ·) :=
  (if_neg h.symm).trans (if_pos rfl)

theorem onPair?_both (g : StandardGate ℝ) : (on g [p, q]).onPair? values p q =
    Mat4.ofGate? (g.mapAngles (Angle.substitute values)) :=
  if_pos ⟨rfl, rfl⟩

theorem onPair?_crossed (h : p ≠ q) (g : StandardGate ℝ) : (on g [q, p]).onPair? values p q =
    (Mat4.ofGate? (g.mapAngles (Angle.substitute values))).map Mat4.swapOperands :=
  (if_neg fun hq => h hq.2).trans (if_pos ⟨rfl, rfl⟩)

theorem placed?_exchange (h : p ≠ q) (one : Option (Mat2 ℝ)) (two : Option (Mat4 ℝ))
    (qubits : List Qubit) :
    placed? q p one two qubits = (placed? p q one two qubits).map Mat4.swapOperands := by
  have hkron : (Mat4.swapOperands ∘ fun u : Mat2 ℝ => Mat4.kron u Mat2.identity) =
      fun u => Mat4.kron Mat2.identity u := funext fun u => Mat4.swapOperands_kron u _
  have hkron' : (Mat4.swapOperands ∘ fun u : Mat2 ℝ => Mat4.kron Mat2.identity u) =
      fun u => Mat4.kron u Mat2.identity := funext fun u => Mat4.swapOperands_kron _ u
  have htwice : (Mat4.swapOperands ∘ Mat4.swapOperands : Mat4 ℝ → Mat4 ℝ) = id :=
    funext Mat4.swapOperands_swapOperands
  unfold placed?
  split
  · split_ifs with hq hp hp <;> simp_all [Option.map_map]
  · split_ifs with hq hp hp <;> simp_all [Option.map_map]
  · rfl

/-- Seen from exchanged operands, a gate has its operands exchanged. -/
theorem onPair?_exchange (h : p ≠ q) (i : Instruction ℝ) :
    i.onPair? values q p = (i.onPair? values p q).map Mat4.swapOperands := by
  unfold Instruction.onPair?
  cases i.standard? with
  | none => rfl
  | some g => exact placed?_exchange h _ _ _

/-- Seen from exchanged operands, a product has its operands exchanged. -/
theorem productOn?_exchange (h : p ≠ q) (is : List (Instruction ℝ)) :
    productOn? values q p is = (productOn? values p q is).map Mat4.swapOperands := by
  suffices hfold : ∀ m : Mat4 ℝ,
      is.foldlM (fun m (i : Instruction ℝ) => (i.onPair? values q p).map (· * m)) m.swapOperands =
        (is.foldlM (fun m (i : Instruction ℝ) => (i.onPair? values p q).map (· * m)) m).map
          Mat4.swapOperands by
    rw [productOn?, productOn?, ← hfold, Mat4.swapOperands_identity]
  induction is with
  | nil => intro m; rfl
  | cons i is ih =>
    intro m
    rw [List.foldlM_cons, List.foldlM_cons, onPair?_exchange h]
    cases i.onPair? values p q with
    | none => rfl
    | some n =>
      show is.foldlM _ (n.swapOperands * m.swapOperands) = _
      rw [← Mat4.swapOperands_mul, ih]
      rfl

end Placing

/-! ## Angles of pieces -/

section Halves

theorem value?_scaled (θ : Angle ℝ) (r : ℝ) (values : String → Option ℝ) :
    ((θ.scaled r).substitute values).value? = (θ.substitute values).value?.map (r * ·) := by
  rw [Angle.scaled]
  cases h : θ.value? with
  | some v =>
    rw [Angle.substitute_of_value? h, h]
    exact congrArg some (mul_comm v r)
  | none =>
    show (Angle.mul (.const r) (θ.substitute values)).value? = _
    rw [Angle.value?]
    cases (θ.substitute values).value? <;> rfl

theorem value?_half (θ : Angle ℝ) (values : String → Option ℝ) :
    ((θ.scaled Scalar.half).substitute values).value? =
      (θ.substitute values).value?.map (· / 2) := by
  rw [value?_scaled, Scalar.real_half]
  congr 1
  funext v
  ring

theorem value?_minusHalf (θ : Angle ℝ) (values : String → Option ℝ) :
    ((θ.scaled (-Scalar.half)).substitute values).value? =
      (θ.substitute values).value?.map fun v => -(v / 2) := by
  rw [value?_scaled, Scalar.real_half]
  congr 1
  funext v
  ring

end Halves

/-! ## Products of pieces -/

section Products

theorem some_eq_of_toMatrix {m n : Mat4 ℝ} (h : m.toMatrix = n.toMatrix) : some m = some n :=
  congrArg some (Mat4.toMatrix_injective h)

/-- The pieces of a rule multiply to the gate. -/
theorem productOn?_twoQubit (h : p ≠ q) (hrule : twoQubit? g p q = some is) :
    productOn? values p q is = (on g [p, q]).onPair? values p q := by
  rw [onPair?_both]
  unfold twoQubit? at hrule
  split at hrule
  case h_13 => cases hrule
  all_goals
    obtain rfl := Option.some.inj hrule
    simp only [productOn?, List.foldlM_cons, List.foldlM_nil, onPair?_first, onPair?_second h,
      onPair?_both, onPair?_crossed h, turn, StandardGate.mapAngles, Mat2.ofGate?, Mat4.ofGate?,
      value?_half, value?_minusHalf, Angle.substitute, Angle.value?, Option.map_some,
      Option.bind_eq_bind, Option.bind_some]
  case' h_6 θ | h_7 θ | h_8 θ | h_9 θ | h_10 θ | h_11 θ | h_12 θ =>
    rcases (θ.substitute values).value? with _ | v
    · rfl
  all_goals
    refine some_eq_of_toMatrix ?_
    simp [Scalar.real_pi, Scalar.real_quarterTurn, neg_div]
  case h_1 => exact Pauli.controlled_Y
  case h_2 => exact Pauli.controlled_Z
  case h_3 => exact Pauli.controlled_H
  case h_4 => exact (mul_assoc _ _ _).symm.trans Pauli.cx_mul_exchange_cx_mul_cx
  case h_5 => exact Pauli.exchange_circuit
  case h_6 => exact Pauli.controlled_rotation_X v
  case h_7 => exact Pauli.controlled_rotation Pauli.Y_mul_Y Pauli.Y_mul_X v
  case h_8 => exact Pauli.controlled_rotation Pauli.Z_mul_Z Pauli.Z_mul_X' v
  case h_9 => exact Pauli.controlled_phase v
  case h_10 => exact Pauli.rotation_Z_Z v
  case h_11 => exact Pauli.rotation_X_X v
  case h_12 => exact Pauli.rotation_Y_Y v

/-- The pieces of a controlled flip multiply to it, up to the phases that come with them. -/
theorem productOn?_cx (h : p ≠ q) {basis : Basis} {lowered : Lowered ℝ}
    (hrule : cx? basis p q = some lowered) :
    (productOn? values p q lowered.instructions).map
        (·.scale (Cx.cis (Scalar.sum lowered.phases))) = (on .cx [p, q]).onPair? values p q := by
  rw [onPair?_both]
  simp only [cx?] at hrule
  split_ifs at hrule
  all_goals
    obtain rfl := Option.some.inj hrule
    simp only [Lowered.ofList, productOn?, List.foldlM_cons, List.foldlM_nil, onPair?_first,
      onPair?_second h, onPair?_both, turn, StandardGate.mapAngles, Mat2.ofGate?, Mat4.ofGate?,
      Angle.substitute, Angle.value?, Option.map_some, Option.bind_eq_bind, Option.bind_some, Option.pure_def]
    refine some_eq_of_toMatrix ?_
    simp [Scalar.real_pi, Scalar.real_quarterTurn, Scalar.real_sum, Pauli.phase_pi]
  · exact Pauli.flip_of_switch_Z
  · exact Pauli.flip_of_switch_Z
  · have hexchanges := Pauli.flip_of_exchanges
    rw [Complex.ofReal_div, Complex.ofReal_ofNat] at hexchanges
    exact hexchanges

/-- A gate with a rule has a matrix on its operands as soon as its angles are numbers. -/
theorem isSome_onPair? (hrule : (twoQubit? g p q).isSome = true) :
    ((on g [p, q]).onPair? values p q).isSome = true ↔
      ∀ θ ∈ g.angles, (θ.substitute values).value?.isSome = true := by
  rw [onPair?_both]
  cases g <;> simp [twoQubit?, StandardGate.mapAngles, StandardGate.angles, Mat4.ofGate?] at hrule ⊢

/-- The rules for two-qubit gates keep the unitary. On two operands in either order, exactly the two-qubit
gates that are not split, other than the controlled flip, have a rule, and its pieces multiply to the gate
with no phase left over; they do so under any numbers for the names in the angles, and there is a
matrix as soon as the angles have values. A controlled flip has pieces in exactly the bases with another
entangler, and they multiply to it up to the phases that come with them. -/
theorem product_of_rules (values : String → Option ℝ) (h : p ≠ q)
    (hab : a = p ∧ b = q ∨ a = q ∧ b = p) :
    (∀ g : StandardGate ℝ,
      ((twoQubit? g a b).isSome = true ↔ g.numQubits = 2 ∧ g.isSplit = false ∧ g ≠ .cx) ∧
      ∀ is, twoQubit? g a b = some is →
        productOn? values p q is = (on g [a, b]).onPair? values p q ∧
        (((on g [a, b]).onPair? values p q).isSome = true ↔
          ∀ θ ∈ g.angles, (θ.substitute values).value?.isSome = true)) ∧
    ∀ basis : Basis,
      ((cx? (R := ℝ) basis a b).isSome = true ↔
        basis.contains "cz" = true ∨ basis.contains "cp" = true ∨ basis.contains "iswap" = true) ∧
      ∀ lowered : Lowered ℝ, cx? basis a b = some lowered →
        (productOn? values p q lowered.instructions).map
          (·.scale (Cx.cis (Scalar.sum lowered.phases))) = (on .cx [a, b]).onPair? values p q := by
  obtain ⟨rfl, rfl⟩ | ⟨rfl, rfl⟩ := hab
  · refine ⟨fun g => ⟨isSome_twoQubit? g a b, fun is hrule => ⟨productOn?_twoQubit h hrule, ?_⟩⟩,
      fun basis => ⟨isSome_cx? basis a b, fun lowered hrule => productOn?_cx h hrule⟩⟩
    exact isSome_onPair? (Option.isSome_of_eq_some hrule)
  · -- Seen from the operands in their own order, both sides have them exchanged.
    refine ⟨fun g => ⟨isSome_twoQubit? g a b, fun is hrule => ⟨?_, ?_⟩⟩,
      fun basis => ⟨isSome_cx? basis a b, fun lowered hrule => ?_⟩⟩
    · rw [productOn?_exchange h.symm, productOn?_twoQubit h.symm hrule, ← onPair?_exchange h.symm]
    · rw [onPair?_exchange h.symm, Option.isSome_map]
      exact isSome_onPair? (Option.isSome_of_eq_some hrule)
    · rw [onPair?_exchange h.symm, ← productOn?_cx h.symm hrule, productOn?_exchange h.symm,
        Option.map_map, Option.map_map]
      congr 1
      funext m
      exact (Mat4.swapOperands_scale m _).symm

theorem product_of_rules_reversed : ∃ is : List (Instruction ℝ),
    twoQubit? (.crx .pi) 1 0 = some is ∧
      productOn? (fun _ => none) 0 1 is = (on (.crx .pi) [1, 0]).onPair? (fun _ => none) 0 1 ∧
      (productOn? (fun _ => none) 0 1 is).isSome = true := by
  obtain ⟨hproduct, hsome⟩ :=
    ((product_of_rules (fun _ => none) Nat.zero_ne_one (.inr ⟨rfl, rfl⟩)).1 (.crx .pi)).2 _ rfl
  refine ⟨_, rfl, hproduct, ?_⟩
  rw [hproduct, hsome]
  simp [StandardGate.angles, Angle.substitute, Angle.value?]

end Products
end Rules
end QuantumCompiler
