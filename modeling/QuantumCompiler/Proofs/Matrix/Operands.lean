import Mathlib
import QuantumCompiler.Matrix.Dense

/-!
# Operands of a register

An index of an `n`-qubit register is a pattern of bits, qubit `q` being bit `n - 1 - q`. Some of the qubits
split it in two: the number that it spells at them, and the bits it has elsewhere. Scattering a number over
a pattern that is clear at the operands is the way back, so the indices fall into classes of `2ᵏ` patterns
that differ at `k` operands only.
-/
namespace QuantumCompiler.Dense

/-- Distinct qubits of an `n`-qubit register. -/
structure Operands (n : Nat) (qubits : List Nat) : Prop where
  lt : ∀ q ∈ qubits, q < n
  nodup : qubits.Nodup

/-- The number that an index spells at the given qubits, the first one being the most significant. -/
def operandIndex (n : Nat) : List Nat → Nat → Nat
  | [], _ => 0
  | q :: qubits, i => 2 ^ qubits.length * (i.testBit (n - 1 - q)).toNat + operandIndex n qubits i

/-- The indices have the same bits at all other qubits. -/
def AgreeOff (n : Nat) (qubits : List Nat) (i j : Nat) : Prop :=
  ∀ q < n, q ∉ qubits → i.testBit (n - 1 - q) = j.testBit (n - 1 - q)

instance (n : Nat) (qubits : List Nat) (i j : Nat) : Decidable (AgreeOff n qubits i j) :=
  inferInstanceAs (Decidable (∀ q < n, q ∉ qubits → i.testBit (n - 1 - q) = j.testBit (n - 1 - q)))

/-- The index has no bit at the given qubits. -/
def Clear (n : Nat) (qubits : List Nat) (i : Nat) : Prop :=
  ∀ q ∈ qubits, i.testBit (n - 1 - q) = false

variable {n : Nat} {qubits : List Nat} {q i j s : Nat}

theorem Operands.tail (h : Operands n (q :: qubits)) : Operands n qubits :=
  ⟨fun r hr => h.lt r (List.mem_cons_of_mem q hr), (List.nodup_cons.mp h.nodup).2⟩

theorem Operands.head_lt (h : Operands n (q :: qubits)) : q < n := h.lt q List.mem_cons_self

theorem Operands.head_notMem (h : Operands n (q :: qubits)) : q ∉ qubits :=
  (List.nodup_cons.mp h.nodup).1

theorem operands_range (n : Nat) : Operands n (List.range n) :=
  ⟨fun _ => List.mem_range.mp, List.nodup_range⟩

/-- Different qubits are different bits. -/
theorem Operands.bit_ne (h : Operands n (q :: qubits)) {r : Nat} (hr : r ∈ qubits) :
    n - 1 - r ≠ n - 1 - q := by
  have hq := h.head_lt
  have hlt := h.tail.lt r hr
  have hne : r ≠ q := fun he => h.head_notMem (he ▸ hr)
  omega

theorem mod_two_pow_succ (x k : Nat) :
    x % 2 ^ (k + 1) = 2 ^ k * (x.testBit k).toNat + x % 2 ^ k := by
  rw [Nat.mod_pow_succ, Nat.add_comm, Nat.toNat_testBit]

/-! ## Reading -/

theorem operandIndex_lt (n : Nat) (qubits : List Nat) (i : Nat) :
    operandIndex n qubits i < 2 ^ qubits.length := by
  induction qubits with
  | nil => exact Nat.one_pos
  | cons q qubits ih =>
    rw [operandIndex, List.length_cons, pow_succ]
    cases i.testBit (n - 1 - q) <;> simp <;> omega

/-- Indices that spell the same number have the same bits at the operands. -/
theorem testBit_eq_of_operandIndex_eq (h : operandIndex n qubits i = operandIndex n qubits j) :
    ∀ q ∈ qubits, i.testBit (n - 1 - q) = j.testBit (n - 1 - q) := by
  induction qubits with
  | nil => simp
  | cons q qubits ih =>
    have hi := operandIndex_lt n qubits i
    have hj := operandIndex_lt n qubits j
    rw [operandIndex, operandIndex] at h
    have hrest : operandIndex n qubits i = operandIndex n qubits j := by
      have hmod := congrArg (· % 2 ^ qubits.length) h
      simpa only [Nat.mul_add_mod, Nat.mod_eq_of_lt hi, Nat.mod_eq_of_lt hj] using hmod
    rw [hrest, Nat.add_right_cancel_iff, Nat.mul_right_inj (Nat.two_pow_pos _).ne'] at h
    rintro r hr
    rcases List.mem_cons.mp hr with rfl | hr
    · revert h
      cases i.testBit (n - 1 - r) <;> cases j.testBit (n - 1 - r) <;> simp
    · exact ih hrest r hr

/-- An index is what it spells at the operands and the bits it has elsewhere. -/
theorem eq_of_agreeOff (hi : i < 2 ^ n) (hj : j < 2 ^ n) (h : AgreeOff n qubits i j)
    (hindex : operandIndex n qubits i = operandIndex n qubits j) : i = j := by
  refine Nat.eq_of_testBit_eq fun b => ?_
  by_cases hb : b < n
  · obtain ⟨q, hq, rfl⟩ : ∃ q < n, b = n - 1 - q := ⟨n - 1 - b, by omega, by omega⟩
    by_cases hmem : q ∈ qubits
    · exact testBit_eq_of_operandIndex_eq hindex q hmem
    · exact h q hq hmem
  · have hpow : 2 ^ n ≤ 2 ^ b := Nat.pow_le_pow_right (by decide) (by omega)
    rw [Nat.testBit_lt_two_pow (hi.trans_le hpow), Nat.testBit_lt_two_pow (hj.trans_le hpow)]

theorem agreeOff_refl (n : Nat) (qubits : List Nat) (i : Nat) : AgreeOff n qubits i i :=
  fun _ _ _ => rfl

theorem AgreeOff.symm (h : AgreeOff n qubits i j) : AgreeOff n qubits j i :=
  fun q hq hmem => (h q hq hmem).symm

theorem AgreeOff.trans {k : Nat} (h : AgreeOff n qubits i j) (h' : AgreeOff n qubits j k) :
    AgreeOff n qubits i k := fun q hq hmem => (h q hq hmem).trans (h' q hq hmem)

theorem AgreeOff.congr_left (h : AgreeOff n qubits i j) {k : Nat} :
    AgreeOff n qubits i k ↔ AgreeOff n qubits j k := ⟨h.symm.trans, h.trans⟩

/-- Patterns that are clear at the operands and agree elsewhere are the same. -/
theorem eq_of_clear (hi : i < 2 ^ n) (hj : j < 2 ^ n) (hci : Clear n qubits i) (hcj : Clear n qubits j)
    (h : AgreeOff n qubits i j) : i = j := by
  have hall : AgreeOff n [] i j := fun q hq _ => by
    by_cases hmem : q ∈ qubits
    · rw [hci q hmem, hcj q hmem]
    · exact h q hq hmem
  exact eq_of_agreeOff hi hj hall rfl

/-- The whole register spells the index. -/
theorem operandIndex_range (hi : i < 2 ^ n) : operandIndex n (List.range n) i = i := by
  have hread (k : Nat) (hk : k ≤ n) :
      operandIndex n (List.range' (n - k) k) i = i % 2 ^ k := by
    induction k with
    | zero => rw [pow_zero, Nat.mod_one]; rfl
    | succ k ih =>
      have hnext : n - (k + 1) + 1 = n - k := by omega
      have hbit : n - 1 - (n - (k + 1)) = k := by omega
      rw [List.range'_succ, operandIndex, hnext, List.length_range', hbit, ih (by omega),
        mod_two_pow_succ]
  have hall := hread n le_rfl
  rwa [Nat.sub_self, ← List.range_eq_range', Nat.mod_eq_of_lt hi] at hall

/-! ## Scattering -/

theorem testBit_shift (b c : Nat) : (1 <<< b).testBit c = decide (b = c) := by
  rw [Nat.one_shiftLeft, Nat.testBit_two_pow]

/-- Scattering a number leaves the bits elsewhere alone. -/
theorem testBit_scatter {b : Nat} (h : ∀ q ∈ qubits, n - 1 - q ≠ b) (s i : Nat) :
    (scatter (masks n qubits) s i).testBit b = i.testBit b := by
  induction qubits generalizing i with
  | nil => rfl
  | cons q qubits ih =>
    have hq := h q List.mem_cons_self
    rw [masks, List.map_cons, scatter]
    refine (ih (fun r hr => h r (List.mem_cons_of_mem q hr)) _).trans ?_
    split
    · rw [Nat.testBit_or, testBit_shift, decide_eq_false hq, Bool.or_false]
    · rfl

theorem agreeOff_scatter (h : Operands n qubits) (s i : Nat) :
    AgreeOff n qubits (scatter (masks n qubits) s i) i := by
  intro q hq hmem
  refine testBit_scatter (fun r hr he => hmem ?_) s i
  have hr' := h.lt r hr
  rwa [show q = r by omega]

theorem scatter_lt (h : Operands n qubits) (hi : i < 2 ^ n) (s : Nat) :
    scatter (masks n qubits) s i < 2 ^ n := by
  refine Nat.lt_pow_two_of_testBit _ fun b hb => ?_
  rw [testBit_scatter fun q hq => by have := h.lt q hq; omega]
  exact Nat.testBit_lt_two_pow (hi.trans_le (Nat.pow_le_pow_right (by decide) hb))

/-- A number that was scattered over a clear pattern is what the pattern then spells. -/
theorem operandIndex_scatter (h : Operands n qubits) (hi : Clear n qubits i) (s : Nat) :
    operandIndex n qubits (scatter (masks n qubits) s i) = s % 2 ^ qubits.length := by
  induction qubits generalizing i with
  | nil => rw [List.length_nil, pow_zero, Nat.mod_one]; rfl
  | cons q qubits ih =>
    obtain ⟨i', hi'⟩ : ∃ i', i' = if s.testBit qubits.length then i ||| 1 <<< (n - 1 - q) else i :=
      ⟨_, rfl⟩
    have hscatter : scatter (masks n (q :: qubits)) s i = scatter (masks n qubits) s i' := by
      rw [masks, List.map_cons, scatter, List.length_map, hi', masks]
    have hclear : Clear n qubits i' := by
      intro r hr
      have hold := hi r (List.mem_cons_of_mem q hr)
      rw [hi']
      split
      · rw [Nat.testBit_or, hold, testBit_shift, decide_eq_false (h.bit_ne hr).symm, Bool.or_false]
      · exact hold
    have hbit : i'.testBit (n - 1 - q) = s.testBit qubits.length := by
      have hold := hi q List.mem_cons_self
      rw [hi']
      split
      · rename_i hs
        rw [Nat.testBit_or, testBit_shift, decide_eq_true rfl, Bool.or_true, hs]
      · rename_i hs
        rw [hold, Bool.eq_false_iff.mpr hs]
    rw [operandIndex, hscatter, testBit_scatter (fun r hr => h.bit_ne hr), hbit, ih h.tail hclear,
      List.length_cons, mod_two_pow_succ]

/-! ## Classes of indices -/

theorem testBit_union (masks : List Nat) (b acc : Nat) :
    (masks.foldl (· ||| ·) acc).testBit b = (acc.testBit b || masks.any (·.testBit b)) := by
  induction masks generalizing acc with
  | nil => simp
  | cons mask masks ih => rw [List.foldl_cons, ih, Nat.testBit_or, List.any_cons, Bool.or_assoc]

theorem testBit_masks (n : Nat) (qubits : List Nat) (b : Nat) :
    ((masks n qubits).foldl (· ||| ·) 0).testBit b = qubits.any fun q => decide (n - 1 - q = b) := by
  rw [testBit_union, Nat.zero_testBit, Bool.false_or, masks, List.any_map]
  exact congrArg (List.any qubits) (funext fun q => testBit_shift _ _)

/-- The masks find the patterns that are clear at the operands. -/
theorem and_masks_eq_zero_iff :
    i &&& (masks n qubits).foldl (· ||| ·) 0 = 0 ↔ Clear n qubits i := by
  constructor
  · intro h q hq
    have hbit := congrArg (Nat.testBit · (n - 1 - q)) h
    have hany : (qubits.any fun r => decide (n - 1 - r = n - 1 - q)) = true :=
      List.any_eq_true.mpr ⟨q, hq, decide_eq_true rfl⟩
    simpa only [Nat.testBit_and, testBit_masks, hany, Bool.and_true, Nat.zero_testBit] using hbit
  · intro h
    refine Nat.eq_of_testBit_eq fun b => ?_
    rw [Nat.testBit_and, testBit_masks, Nat.zero_testBit]
    by_contra hne
    rw [Bool.not_eq_false, Bool.and_eq_true, List.any_eq_true] at hne
    obtain ⟨hb, q, hq, he⟩ := hne
    rw [← of_decide_eq_true he, h q hq] at hb
    exact Bool.noConfusion hb

/-- The pattern without the bits at the operands. -/
def cleared (n : Nat) (qubits : List Nat) (i : Nat) : Nat :=
  i ^^^ (i &&& (masks n qubits).foldl (· ||| ·) 0)

theorem clear_cleared (n : Nat) (qubits : List Nat) (i : Nat) : Clear n qubits (cleared n qubits i) := by
  intro q hq
  have hany : (qubits.any fun r => decide (n - 1 - r = n - 1 - q)) = true :=
    List.any_eq_true.mpr ⟨q, hq, decide_eq_true rfl⟩
  rw [cleared, Nat.testBit_xor, Nat.testBit_and, testBit_masks, hany, Bool.and_true, Bool.xor_self]

theorem agreeOff_cleared (h : Operands n qubits) (i : Nat) :
    AgreeOff n qubits (cleared n qubits i) i := by
  intro q hq hmem
  have hany : (qubits.any fun r => decide (n - 1 - r = n - 1 - q)) = false := by
    refine List.any_eq_false.mpr fun r hr he => hmem ?_
    have hr' := h.lt r hr
    rwa [show q = r by have := of_decide_eq_true he; omega]
  rw [cleared, Nat.testBit_xor, Nat.testBit_and, testBit_masks, hany, Bool.and_false, Bool.xor_false]

theorem cleared_lt (hi : i < 2 ^ n) (qubits : List Nat) : cleared n qubits i < 2 ^ n :=
  Nat.xor_lt_two_pow hi ((Nat.and_le_left).trans_lt hi)

/-- The index of the class of `i` that spells another number at the operands. -/
def respelled (n : Nat) (qubits : List Nat) (i s : Nat) : Nat :=
  scatter (masks n qubits) s (cleared n qubits i)

section Respelled

variable (h : Operands n qubits)

include h

theorem respelled_lt (hi : i < 2 ^ n) (s : Nat) : respelled n qubits i s < 2 ^ n :=
  scatter_lt h (cleared_lt hi qubits) s

theorem agreeOff_respelled (i s : Nat) : AgreeOff n qubits (respelled n qubits i s) i :=
  (agreeOff_scatter h s _).trans (agreeOff_cleared h i)

theorem operandIndex_respelled (i : Nat) (hs : s < 2 ^ qubits.length) :
    operandIndex n qubits (respelled n qubits i s) = s := by
  rw [respelled, operandIndex_scatter h (clear_cleared n qubits i), Nat.mod_eq_of_lt hs]

/-- A class has one index for each number. -/
theorem respelled_operandIndex (hi : i < 2 ^ n) (hj : j < 2 ^ n) (hagree : AgreeOff n qubits i j) :
    respelled n qubits i (operandIndex n qubits j) = j :=
  eq_of_agreeOff (respelled_lt h hi _) hj ((agreeOff_respelled h i _).trans hagree)
    (operandIndex_respelled h i (operandIndex_lt n qubits j))

/-- A sum over a class runs over the numbers that its indices spell. -/
theorem sum_agreeOff {M : Type*} [AddCommMonoid M] (hi : i < 2 ^ n) (f : Nat → M) :
    (∑ j : Fin (2 ^ n), if AgreeOff n qubits i j then f j else 0) =
      ∑ s : Fin (2 ^ qubits.length), f (respelled n qubits i s) := by
  rw [← Finset.sum_filter]
  refine Finset.sum_bij' (fun j _ => ⟨operandIndex n qubits j, operandIndex_lt n qubits j⟩)
    (fun s _ => ⟨respelled n qubits i s, respelled_lt h hi s⟩) ?_ ?_ ?_ ?_ ?_
  · simp
  · intro s _
    simpa using (agreeOff_respelled h i s).symm
  · intro j hj
    exact Fin.ext (respelled_operandIndex h hi j.isLt (by simpa using hj))
  · intro s _
    exact Fin.ext (operandIndex_respelled h i s.isLt)
  · intro j hj
    dsimp only
    rw [respelled_operandIndex h hi j.isLt (by simpa using hj)]

end Respelled

end QuantumCompiler.Dense
