import QuantumCompiler.Proofs.Outcome
import QuantumCompiler.Instruction

/-!
# Operands of accepted instructions

What `Instruction.validate` promises: every operand is a wire of the register, and no qubit is named
twice. It does not look for classical bits that are named twice.
-/
namespace QuantumCompiler

/-- A fault of the operands of an instruction, and of nothing else. -/
def CircuitError.isOperandFault : CircuitError → Bool
  | qubitNotFound .. | clbitNotFound .. | qubitCountMismatch .. | measureArity .. |
    matrixDimension .. | matrixOverflow _ | duplicateQubit .. => true
  | invalidStructure _ | invalidNode | malformedText => false

namespace CustomGate

variable {R : Type} {n : Nat} {matrix : List (Cx R)} {x : CircuitError}

theorem checkMatrix_of_lt (hn : n < 32) : checkMatrix n matrix =
    if matrix.length = 4 ^ n then .ok () else .error (.matrixDimension n (4 ^ n) matrix.length) := by
  rw [checkMatrix, matrixSize, if_pos hn]
  rfl

theorem checkMatrix_of_ge (hn : 32 ≤ n) : checkMatrix n matrix = .error (.matrixOverflow n) := by
  rw [checkMatrix, matrixSize, if_neg (Nat.not_lt.mpr hn)]
  rfl

/-- A matrix is accepted when it has the size that its gate needs and this size fits a word. -/
theorem checkMatrix_eq_ok : checkMatrix n matrix = .ok () ↔ n < 32 ∧ matrix.length = 4 ^ n := by
  rcases Nat.lt_or_ge n 32 with hn | hn
  · rw [checkMatrix_of_lt hn]
    split <;> simp_all
  · simp [checkMatrix_of_ge hn, hn]

theorem isOperandFault_of_checkMatrix (h : checkMatrix n matrix = .error x) :
    x.isOperandFault = true := by
  rcases Nat.lt_or_ge n 32 with hn | hn
  · rw [checkMatrix_of_lt hn] at h
    split at h <;> cases h
    rfl
  · rw [checkMatrix_of_ge hn] at h
    cases h
    rfl

end CustomGate

namespace Instruction

variable {R : Type}

theorem firstRepeated_eq_none {seen qs : List Qubit} :
    firstRepeated seen qs = none ↔ qs.Nodup ∧ ∀ q ∈ qs, q ∉ seen := by
  induction qs generalizing seen with
  | nil => simp [firstRepeated]
  | cons q qs ih =>
    by_cases hq : q ∈ seen
    · simp [firstRepeated, hq]
    · simp only [firstRepeated, List.contains_eq_mem, hq, decide_false, if_false,
        Bool.false_eq_true, ih, List.nodup_cons, List.mem_cons, not_or]
      constructor
      · rintro ⟨hn, h⟩
        refine ⟨⟨fun hm => (h q hm).1 rfl, hn⟩, ?_⟩
        rintro x (rfl | hx)
        · exact hq
        · exact (h x hx).2
      · rintro ⟨⟨hnot, hn⟩, h⟩
        exact ⟨hn, fun x hx => ⟨fun he => hnot (he ▸ hx), h x (.inr hx)⟩⟩

/-- The operands of an accepted instruction. -/
structure Fits (i : Instruction R) (numQubits numClbits : Nat) : Prop where
  qubits : ∀ q ∈ i.qubits, q < numQubits
  clbits : ∀ c ∈ i.clbits, c < numClbits
  distinct : i.qubits.Nodup

/-- The checks of an instruction: the operand count, then the operands. -/
theorem validate_eq_ok {i : Instruction R} {n m : Nat} :
    i.validate n m = .ok () ↔ i.checkArity = .ok () ∧ i.Fits n m := by
  rw [validate, Outcome.bind_eq_ok]
  constructor
  · rintro ⟨_, ha, h⟩
    refine ⟨ha, ?_⟩
    cases hq : i.qubits.find? (· ≥ n) with
    | some q =>
      rw [hq] at h
      cases h
    | none =>
      cases hc : i.clbits.find? (· ≥ m) with
      | some c =>
        rw [hq, hc] at h
        cases h
      | none =>
        cases hr : firstRepeated [] i.qubits with
        | some q =>
          rw [hq, hc, hr] at h
          cases h
        | none =>
          constructor
          · simpa using hq
          · simpa using hc
          · exact (firstRepeated_eq_none.mp hr).1
  · rintro ⟨ha, hf⟩
    have hq : i.qubits.find? (· ≥ n) = none := by simpa using hf.qubits
    have hc : i.clbits.find? (· ≥ m) = none := by simpa using hf.clbits
    have hr : firstRepeated [] i.qubits = none :=
      firstRepeated_eq_none.mpr ⟨hf.distinct, by simp⟩
    refine ⟨(), ha, ?_⟩
    rw [hq, hc, hr]
    rfl

theorem isOperandFault_of_checkArity {i : Instruction R} {x : CircuitError}
    (h : i.checkArity = .error x) : x.isOperandFault = true := by
  unfold checkArity at h
  dsimp only at h
  repeat' split at h
  all_goals first
    | exact CustomGate.isOperandFault_of_checkMatrix h
    | cases h <;> rfl

/-- The checks of an instruction by itself speak of its operands. -/
theorem isOperandFault_of_validate {i : Instruction R} {n m : Nat} {x : CircuitError}
    (h : i.validate n m = .error x) : x.isOperandFault = true := by
  rcases Outcome.bind_eq_error.mp h with h | ⟨_, -, h⟩
  · exact isOperandFault_of_checkArity h
  · cases hq : i.qubits.find? (· ≥ n) with
    | some q =>
      rw [hq] at h
      cases h
      rfl
    | none =>
      cases hc : i.clbits.find? (· ≥ m) with
      | some c =>
        rw [hq, hc] at h
        cases h
        rfl
      | none =>
        rw [hq, hc] at h
        cases hr : firstRepeated [] i.qubits with
        | some q =>
          rw [hr] at h
          cases h
          rfl
        | none =>
          rw [hr] at h
          cases h

theorem fits_of_validate {i : Instruction R} {n m : Nat} (h : i.validate n m = .ok ()) :
    i.Fits n m := (validate_eq_ok.mp h).2

theorem checkArity_of_standard? {i : Instruction R} {g : StandardGate R}
    (h : i.standard? = some g) :
    i.checkArity = .ok () ↔ g.numQubits = min i.qubits.length maxIndex := by
  obtain ⟨operation, qs, cs⟩ := i
  rcases operation with ⟨⟨g' | c, label⟩⟩ | _ | _ | _ | _ <;> cases h
  change (if g.numQubits ≠ min qs.length maxIndex then _ else _) = _ ↔ _
  split <;> simp_all

/-- An accepted standard gate may be exchanged for one on as many qubits. -/
theorem validate_ofStandard {i : Instruction R} {g g' : StandardGate R} {n m : Nat}
    (hi : i.validate n m = .ok ()) (hg : i.standard? = some g) (hn : g'.numQubits = g.numQubits) :
    (ofStandard g' i.qubits).validate n m = .ok () := by
  obtain ⟨ha, hf⟩ := validate_eq_ok.mp hi
  have hs : (ofStandard g' i.qubits).standard? = some g' := rfl
  refine validate_eq_ok.mpr ⟨?_, ⟨hf.qubits, by simp [ofStandard, ofGate], hf.distinct⟩⟩
  rw [checkArity_of_standard? hs, hn]
  exact (checkArity_of_standard? hg).mp ha

theorem checkArity_mapQubits (i : Instruction R) (f : Qubit → Qubit) :
    (i.mapQubits f).checkArity = i.checkArity := by
  obtain ⟨operation, qs, cs⟩ := i
  cases operation <;> simp [mapQubits, checkArity, name]

/-- An accepted instruction may be moved to other qubits, as long as they stay different. -/
theorem validate_mapQubits {i : Instruction R} {n m : Nat} (hi : i.validate n m = .ok ())
    {f : Qubit → Qubit} {k : Nat} (hlt : ∀ q ∈ i.qubits, f q < k)
    (hf : ∀ p ∈ i.qubits, ∀ q ∈ i.qubits, f p = f q → p = q) :
    (i.mapQubits f).validate k m = .ok () := by
  obtain ⟨ha, hfit⟩ := validate_eq_ok.mp hi
  refine validate_eq_ok.mpr ⟨by rw [checkArity_mapQubits, ha], ⟨?_, hfit.clbits, ?_⟩⟩
  · intro x hx
    obtain ⟨q, hq, rfl⟩ := List.mem_map.mp hx
    exact hlt q hq
  · exact hfit.distinct.map_on fun p hp q hq => hf p hp q hq

theorem mem_wires {i : Instruction R} {w : Wire} :
    w ∈ i.wires ↔ (∃ q ∈ i.qubits, w = .qubit q) ∨ ∃ c ∈ i.clbits, w = .clbit c := by
  simp only [wires, List.mem_append, List.mem_map, eq_comm]

theorem nodup_wires {i : Instruction R} (hq : i.qubits.Nodup) (hc : i.clbits.Nodup) :
    i.wires.Nodup := by
  rw [wires, List.nodup_append]
  refine ⟨hq.map fun _ _ h => Wire.qubit.inj h, hc.map fun _ _ h => Wire.clbit.inj h, ?_⟩
  intro v hv w hw
  obtain ⟨q, -, rfl⟩ := List.mem_map.mp hv
  obtain ⟨c, -, rfl⟩ := List.mem_map.mp hw
  exact fun h => nomatch h

theorem gate?_eq_some {i : Instruction R} {g : Gate R} :
    i.gate? = some g ↔ i.operation = .gate g := by
  obtain ⟨operation, qs, cs⟩ := i
  cases operation <;> simp [gate?]

theorem isMeasure_of_isGate {i : Instruction R} (h : i.isGate = true) : i.isMeasure = false := by
  obtain ⟨operation, qs, cs⟩ := i
  cases operation with
  | gate g => rfl
  | measure | reset | barrier | delay => cases h

theorem isGate_of_standard? {i : Instruction R} {g : StandardGate R} (h : i.standard? = some g) :
    i.isGate = true := by
  obtain ⟨gate, hg, -⟩ := Option.bind_eq_some_iff.mp h
  simp [isGate, hg]

theorem name_of_standard? {i : Instruction R} {g : StandardGate R} (h : i.standard? = some g) :
    i.name = g.name := by
  obtain ⟨operation, qs, cs⟩ := i
  rcases operation with ⟨⟨g' | c, label⟩⟩ | _ | _ | _ | _ <;> cases h
  rfl

theorem standard?_eq_some {i : Instruction R} {g : StandardGate R} {gate : Gate R}
    (hg : i.gate? = some gate) : i.standard? = some g ↔ gate.kind = .standard g := by
  rw [standard?, hg]
  obtain ⟨kind, label⟩ := gate
  cases kind <;> simp [Gate.standard?]

theorem kind_of_standard? {i : Instruction R} {g : StandardGate R} {gate : Gate R}
    (hg : i.gate? = some gate) (hs : i.standard? = some g) : gate.kind = .standard g :=
  (standard?_eq_some hg).mp hs

/-- A gate acts on qubits only, and on one at least. -/
def Plain (i : Instruction R) : Prop := i.isGate = true → i.clbits = [] ∧ i.qubits ≠ []

end Instruction

end QuantumCompiler
