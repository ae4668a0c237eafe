import Mathlib
import QuantumCompiler.Proofs.Matrix.Local

/-!
# The first operand as a switch

An operator on some qubits is four quadrants, told apart by the bit of its first operand before and after.
With both diagonal quadrants the same it leaves this operand alone; with diagonal quadrants it acts on this
operand only, in a way that the others choose.
-/
namespace QuantumCompiler.Dense

open Matrix (fromBlocks)

variable {A : Type} {n : Nat} {qubits : List Nat} {q i j : Nat}

/-! ## Indices -/

/-- The indices below and above the middle. -/
def halves (k : Nat) : Fin (2 ^ (k + 1)) ≃ Fin (2 ^ k) ⊕ Fin (2 ^ k) :=
  (finCongr (by rw [pow_succ, mul_two])).trans finSumFinEquiv.symm

theorem val_halves_symm_inl {k : Nat} (i : Fin (2 ^ k)) : ((halves k).symm (.inl i) : Nat) = i := by
  simp [halves]

theorem val_halves_symm_inr {k : Nat} (i : Fin (2 ^ k)) :
    ((halves k).symm (.inr i) : Nat) = 2 ^ k + i := by
  simp [halves, Nat.add_comm]

/-- The number that an index spells at the other qubits, on the side of its bit at the first one. -/
def side (n q : Nat) (qubits : List Nat) (i : Nat) :
    Fin (2 ^ qubits.length) ⊕ Fin (2 ^ qubits.length) :=
  if i.testBit (n - 1 - q) then .inr ⟨operandIndex n qubits i, operandIndex_lt n qubits i⟩
  else .inl ⟨operandIndex n qubits i, operandIndex_lt n qubits i⟩

theorem halves_operandIndex (n q : Nat) (qubits : List Nat) (i : Nat) :
    halves qubits.length ⟨operandIndex n (q :: qubits) i, operandIndex_lt n (q :: qubits) i⟩ =
      side n q qubits i := by
  rw [← Equiv.eq_symm_apply]
  refine Fin.ext ?_
  rw [side]
  cases h : i.testBit (n - 1 - q) with
  | false => simp [val_halves_symm_inl, operandIndex, h]
  | true => simp [val_halves_symm_inr, operandIndex, h]

/-- The bit of an index at a qubit, as an index of its matrices. -/
def bitIndex (n q i : Nat) : Fin 2 := finTwoEquiv.symm (i.testBit (n - 1 - q))

theorem testBit_eq_iff_bitIndex_eq :
    i.testBit (n - 1 - q) = j.testBit (n - 1 - q) ↔ bitIndex n q i = bitIndex n q j := by
  rw [bitIndex, bitIndex, finTwoEquiv.symm.injective.eq_iff]

theorem operandIndex_eq_iff : operandIndex n qubits i = operandIndex n qubits j ↔
    ∀ q ∈ qubits, i.testBit (n - 1 - q) = j.testBit (n - 1 - q) := by
  refine ⟨testBit_eq_of_operandIndex_eq, fun h => ?_⟩
  induction qubits with
  | nil => rfl
  | cons q qubits ih =>
    rw [operandIndex, operandIndex, h q List.mem_cons_self, ih fun r hr => h r (List.mem_cons_of_mem q hr)]

/-- The number at some qubits has the bits of the index there. -/
theorem testBit_operandIndex {c : Nat} (hc : c ∈ qubits) :
    (operandIndex n qubits i).testBit (qubits.length - 1 - qubits.idxOf c) = i.testBit (n - 1 - c) := by
  induction qubits with
  | nil => cases hc
  | cons q qubits ih =>
    rw [operandIndex, Nat.testBit_two_pow_mul_add _ (operandIndex_lt n qubits i), List.length_cons,
      Nat.add_sub_cancel]
    by_cases hq : q = c
    · subst hq
      rw [List.idxOf_cons_self, Nat.sub_zero, if_neg (lt_irrefl _), Nat.sub_self]
      cases i.testBit (n - 1 - q) <;> rfl
    · have hmem : c ∈ qubits := (List.mem_cons.mp hc).resolve_left fun h => hq h.symm
      have hlt := List.idxOf_lt_length_iff.mpr hmem
      have hpos : qubits.length - (qubits.idxOf c + 1) = qubits.length - 1 - qubits.idxOf c := by omega
      rw [List.idxOf_cons_ne _ hq, hpos, if_pos (by omega), ih hmem]

/-! ## Agreement -/

/-- Agreeing elsewhere does not mention the first operand, which may agree or not. -/
theorem agreeOff_iff_cons (hq : q < n) (hmem : q ∉ qubits) :
    AgreeOff n qubits i j ↔ AgreeOff n (q :: qubits) i j ∧ bitIndex n q i = bitIndex n q j := by
  rw [← testBit_eq_iff_bitIndex_eq]
  constructor
  · intro h
    exact ⟨fun r hr hne => h r hr fun hm => hne (List.mem_cons_of_mem q hm), h q hq hmem⟩
  · rintro ⟨h, hbit⟩ r hr hm
    by_cases hrq : r = q
    · rw [hrq, hbit]
    · exact h r hr (by simp [hrq, hm])

theorem agreeOff_singleton_iff (h : Operands n (q :: qubits)) : AgreeOff n [q] i j ↔
    AgreeOff n (q :: qubits) i j ∧ operandIndex n qubits i = operandIndex n qubits j := by
  rw [operandIndex_eq_iff]
  constructor
  · intro hagree
    refine ⟨fun r hr hne => hagree r hr ?_, fun r hr => hagree r (h.tail.lt r hr) ?_⟩
    · rw [List.mem_singleton]
      rintro rfl
      exact hne List.mem_cons_self
    · rw [List.mem_singleton]
      rintro rfl
      exact h.head_notMem hr
  · rintro ⟨hagree, hindex⟩ r hr hne
    by_cases hm : r ∈ qubits
    · exact hindex r hm
    · exact hagree r hr (by simp_all)

/-! ## Quadrants -/

section Quadrants

variable [Zero A]

/-- An operator by its quadrants. -/
def quarters {k : Nat} (m : Matrix (Fin (2 ^ k) ⊕ Fin (2 ^ k)) (Fin (2 ^ k) ⊕ Fin (2 ^ k)) A) :
    Matrix (Fin (2 ^ (k + 1))) (Fin (2 ^ (k + 1))) A :=
  m.submatrix (halves k) (halves k)

omit [Zero A] in
theorem quarters_injective {k : Nat} : Function.Injective (quarters (A := A) (k := k)) :=
  (Matrix.reindex (halves k).symm (halves k).symm).injective

/-- An operator on one qubit for each number that some others may spell. -/
def fibers {k : Nat} (f : Fin (2 ^ k) → Matrix (Fin 2) (Fin 2) A) :
    Matrix (Fin (2 ^ k) ⊕ Fin (2 ^ k)) (Fin (2 ^ k) ⊕ Fin (2 ^ k)) A :=
  let entries (before after : Bool) : Matrix (Fin (2 ^ k)) (Fin (2 ^ k)) A :=
    Matrix.diagonal fun l => f l (finTwoEquiv.symm before) (finTwoEquiv.symm after)
  fromBlocks (entries false false) (entries false true) (entries true false) (entries true true)

theorem fibers_def {k : Nat} (f : Fin (2 ^ k) → Matrix (Fin 2) (Fin 2) A) :
    fibers f = fromBlocks (Matrix.diagonal fun l => f l 0 0) (Matrix.diagonal fun l => f l 0 1)
      (Matrix.diagonal fun l => f l 1 0) (Matrix.diagonal fun l => f l 1 1) := rfl

theorem fibers_eq {k : Nat} {f : Fin (2 ^ k) → Matrix (Fin 2) (Fin 2) A} {a b c d : Fin (2 ^ k) → A}
    (h : ∀ l, f l = !![a l, b l; c l, d l]) : fibers f =
      fromBlocks (Matrix.diagonal a) (Matrix.diagonal b) (Matrix.diagonal c) (Matrix.diagonal d) := by
  obtain rfl : f = fun l => !![a l, b l; c l, d l] := funext h
  rfl

end Quadrants

section Ring

variable [CommRing A]

theorem embed_quarters (m : Matrix (Fin (2 ^ qubits.length) ⊕ Fin (2 ^ qubits.length))
    (Fin (2 ^ qubits.length) ⊕ Fin (2 ^ qubits.length)) A) (i j : Fin (2 ^ n)) :
    embed n (q :: qubits) (quarters m) i j =
      if AgreeOff n (q :: qubits) i j then m (side n q qubits i) (side n q qubits j) else 0 := by
  rw [← halves_operandIndex, ← halves_operandIndex]
  rfl

theorem quarters_mul {k : Nat}
    (m m' : Matrix (Fin (2 ^ k) ⊕ Fin (2 ^ k)) (Fin (2 ^ k) ⊕ Fin (2 ^ k)) A) :
    quarters (m * m') = quarters m * quarters m' :=
  (Matrix.submatrix_mul_equiv m m' _ (halves k) _).symm

/-- With the same operator on both sides the first operand is left alone. -/
theorem embed_same (h : Operands n (q :: qubits))
    (v : Matrix (Fin (2 ^ qubits.length)) (Fin (2 ^ qubits.length)) A) :
    embed n (q :: qubits) (quarters (fromBlocks v 0 0 v)) = embed n qubits v := by
  ext i j
  rw [embed_quarters, embed, Matrix.of_apply]
  simp only [agreeOff_iff_cons h.head_lt h.head_notMem, side, bitIndex]
  by_cases hagree : AgreeOff n (q :: qubits) i j
  · cases i.val.testBit (n - 1 - q) <;> cases j.val.testBit (n - 1 - q) <;> simp [hagree]
  · simp [hagree]

/-- Between indices that differ at the first operand only, an operator chosen by the others has its own
entries. -/
theorem embed_fibers (h : Operands n (q :: qubits))
    (f : Fin (2 ^ qubits.length) → Matrix (Fin 2) (Fin 2) A) (i j : Fin (2 ^ n)) :
    embed n (q :: qubits) (quarters (fibers f)) i j = if AgreeOff n [q] i j then
      f ⟨operandIndex n qubits i, operandIndex_lt n qubits i⟩ (bitIndex n q i) (bitIndex n q j) else 0 := by
  rw [embed_quarters]
  simp only [agreeOff_singleton_iff h, side, bitIndex, fibers]
  by_cases hagree : AgreeOff n (q :: qubits) i j
  · cases i.val.testBit (n - 1 - q) <;> cases j.val.testBit (n - 1 - q) <;>
      simp [hagree, Matrix.diagonal_apply]
  · simp [hagree]

theorem fibers_mul {k : Nat} (f g : Fin (2 ^ k) → Matrix (Fin 2) (Fin 2) A) :
    fibers (fun l => f l * g l) = fibers f * fibers g := by
  simp only [fibers_def, Matrix.fromBlocks_multiply, Matrix.diagonal_mul_diagonal, Matrix.diagonal_add,
    Matrix.mul_apply, Fin.sum_univ_two]

theorem fibers_one {k : Nat} : fibers (fun _ : Fin (2 ^ k) => (1 : Matrix (Fin 2) (Fin 2) A)) = 1 := by
  simp [fibers, ← Matrix.fromBlocks_one]

theorem quarters_one {k : Nat} :
    quarters (1 : Matrix (Fin (2 ^ k) ⊕ Fin (2 ^ k)) (Fin (2 ^ k) ⊕ Fin (2 ^ k)) A) = 1 :=
  Matrix.submatrix_one_equiv (halves k)

end Ring

end QuantumCompiler.Dense
