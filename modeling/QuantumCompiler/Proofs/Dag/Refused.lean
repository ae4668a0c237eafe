import QuantumCompiler.Proofs.Dag.Accepted

/-!
# Refused changes

Appending puts the node into the table before it cuts the first edge, and each cut looks an edge up that
might be missing; only then would a change stop half-way. On a graph that calls led to no edge is
missing, so a call fails in its checks, before it changes anything, and for a reason that is in its
arguments.
-/
namespace QuantumCompiler

variable {R : Type}

namespace Dag

variable {d e : Dag R} {id : Nat} {n : OpNode R} {i : Instruction R} {is : List (Instruction R)}
  {c : Call R} {x : CircuitError}

/-- The instruction is accepted by itself and stays on the wires of an operation. -/
def Suits (d : Dag R) (n : OpNode R) (i : Instruction R) : Prop :=
  i.validate d.numQubits d.numClbits = .ok () ∧ ∀ w ∈ i.wires, w ∈ n.instruction.wires

/-- Why a call is refused, with the error that says so. -/
inductive Declines (d : Dag R) : Call R → CircuitError → Prop
  /-- The instruction is not accepted by itself. -/
  | append {i : Instruction R} {x : CircuitError}
    (hi : i.validate d.numQubits d.numClbits = .error x) : Declines d (.append i) x
  /-- There is no operation to remove. -/
  | remove {id : Nat} (hid : d.op? id = none) : Declines d (.remove id) .invalidNode
  /-- The sequence has more parts than there are positions under one. -/
  | parts {id : Nat} {is : List (Instruction R)} (hlen : maxIndex < is.length) :
    Declines d (.substitute id is) (.invalidStructure (.tooManyParts is.length))
  /-- There is no operation to replace by the sequence. -/
  | substitute {id : Nat} {is : List (Instruction R)} (hlen : is.length ≤ maxIndex)
    (hid : d.op? id = none) : Declines d (.substitute id is) .invalidNode
  /-- The first part that does not suit the operation is not accepted by itself. -/
  | part {id : Nat} {n : OpNode R} {a b : List (Instruction R)} {i : Instruction R}
    {x : CircuitError} (hlen : (a ++ i :: b).length ≤ maxIndex) (hid : d.op? id = some n)
    (ha : ∀ j ∈ a, d.Suits n j) (hi : i.validate d.numQubits d.numClbits = .error x) :
    Declines d (.substitute id (a ++ i :: b)) x
  /-- The first part that does not suit the operation leaves its wires. -/
  | stray {id : Nat} {n : OpNode R} {a b : List (Instruction R)} {i : Instruction R}
    {ws vs : List Wire} {w : Wire} (hlen : (a ++ i :: b).length ≤ maxIndex)
    (hid : d.op? id = some n) (ha : ∀ j ∈ a, d.Suits n j)
    (hi : i.validate d.numQubits d.numClbits = .ok ()) (hwires : i.wires = ws ++ w :: vs)
    (hws : ∀ v ∈ ws, v ∈ n.instruction.wires) (hw : w ∉ n.instruction.wires) :
    Declines d (.substitute id (a ++ i :: b)) (.invalidStructure (.strayWire i.name w))
  /-- The new instruction is not accepted by itself. -/
  | replacement {id : Nat} {i : Instruction R} {x : CircuitError}
    (hi : i.validate d.numQubits d.numClbits = .error x) : Declines d (.replace id i) x
  /-- There is no operation to exchange. -/
  | replace {id : Nat} {i : Instruction R} (hi : i.validate d.numQubits d.numClbits = .ok ())
    (hid : d.op? id = none) : Declines d (.replace id i) .invalidNode
  /-- The new instruction is over other wires than the old one. -/
  | differ {id : Nat} {n : OpNode R} {i : Instruction R}
    (hi : i.validate d.numQubits d.numClbits = .ok ()) (hid : d.op? id = some n)
    (hwires : ¬ i.wires.Perm n.instruction.wires) :
    Declines d (.replace id i) (.invalidStructure (.wiresDiffer i.name n.instruction.name))

/-- A part of a replacement is refused by itself or for the first wire that it does not share. -/
theorem checkReplacement_eq_error {ws : List Wire} :
    d.checkReplacement ws i = .error x ↔ i.validate d.numQubits d.numClbits = .error x ∨
      i.validate d.numQubits d.numClbits = .ok () ∧ ∃ us w vs, i.wires = us ++ w :: vs ∧
        (∀ v ∈ us, v ∈ ws) ∧ w ∉ ws ∧ x = .invalidStructure (.strayWire i.name w) := by
  rw [checkReplacement, Outcome.bind_eq_error]
  refine or_congr_right ?_
  cases hf : i.wires.find? fun w => !ws.contains w with
  | none =>
    have hall : ∀ w ∈ i.wires, w ∈ ws := by simpa using hf
    constructor
    · rintro ⟨_, -, h⟩
      cases h
    · rintro ⟨-, us, w, vs, hwires, -, hw, -⟩
      exact absurd (hall w (by simp [hwires])) hw
  | some w =>
    obtain ⟨hw, us, vs, hwires, hus⟩ := List.find?_eq_some_iff_append.mp hf
    have hout : w ∉ ws := by simpa using hw
    have hin : ∀ v ∈ us, v ∈ ws := by simpa using hus
    constructor
    · rintro ⟨_, hv, h⟩
      exact ⟨hv, us, w, vs, hwires, hin, hout, (Except.error.inj h).symm⟩
    · rintro ⟨hv, us', w', vs', hwires', hin', hout', rfl⟩
      refine ⟨(), hv, ?_⟩
      have hfind : (i.wires.find? fun w => !ws.contains w) = some w' := by
        refine List.find?_eq_some_iff_append.mpr ⟨by simpa using hout', us', vs', hwires', ?_⟩
        simpa using hin'
      rw [Option.some.inj (hf.symm.trans hfind)]
      rfl

/-- A refused call tells why and leaves the graph as it was. -/
theorem edit_of_declines (h : d.Declines c x) : d.edit c.edit = (.error x, d) := by
  have hsuits {n : OpNode R} {a : List (Instruction R)} (ha : ∀ j ∈ a, d.Suits n j) :
      ∀ j ∈ a, d.checkReplacement n.instruction.wires j = .ok () :=
    fun j hj => checkReplacement_eq_ok.mpr (ha j hj)
  cases h with
  | append hi => simp [Call.edit, edit_map, append_refused hi, Except.map]
  | remove hid => simp [Call.edit, edit_map, remove_refused hid, Except.map]
  | parts hlen => exact substitute_tooMany hlen
  | substitute hlen hid => exact substitute_invalid hlen hid
  | part hlen hid ha hi =>
    exact substitute_refused hlen hid (Outcome.forM_eq_error.mpr ⟨_, _, _, rfl, hsuits ha,
      checkReplacement_eq_error.mpr (.inl hi)⟩)
  | stray hlen hid ha hi hwires hws hw =>
    exact substitute_refused hlen hid (Outcome.forM_eq_error.mpr ⟨_, _, _, rfl, hsuits ha,
      checkReplacement_eq_error.mpr (.inr ⟨hi, _, _, _, hwires, hws, hw, rfl⟩)⟩)
  | replacement hi => simp [Call.edit, edit_map, replace_refused hi, Except.map]
  | replace hi hid => simp [Call.edit, edit_map, replace_invalid hi hid, Except.map]
  | differ hi hid hwires => simp [Call.edit, edit_map, replace_differ hi hid hwires, Except.map]

/-! ## Every other call is done -/

section Done

variable {ids : List Nat}

/-- A call is done, or there is a reason to refuse it. -/
def Decided (d : Dag R) (c : Call R) : Prop :=
  (∃ created e, d.edit c.edit = (.ok created, e)) ∨ ∃ x, d.Declines c x

theorem Represents.ended (h : Represents d ids) : d.Ended := fun w hw => by
  rw [incoming?_output h hw]
  rfl

theorem decided_append (hd : d.Ended) (i : Instruction R) : d.Decided (.append i) := by
  cases hv : i.validate d.numQubits d.numClbits with
  | error x => exact .inr ⟨x, .append hv⟩
  | ok _ =>
    obtain ⟨new, e, he, -⟩ := hd.exists_append hv
    refine .inl ⟨[new], e, ?_⟩
    rw [Call.edit, bind_pure_comp, edit_map, edited_eq_ok.mp he]
    rfl

theorem decided_remove (h : Represents d ids) (id : Nat) : d.Decided (.remove id) := by
  cases hid : d.op? id with
  | none => exact .inr ⟨_, .remove hid⟩
  | some n =>
    obtain ⟨a, b, rfl⟩ := List.append_of_mem ((h.mem_iff id).mpr (by simp [hid]))
    obtain ⟨e, he, -⟩ := remove_accepted h hid
    refine .inl ⟨[], e, ?_⟩
    rw [Call.edit, bind_pure_comp, edit_map, he]
    rfl

/-- The parts of a sequence all suit an operation, or there is a first one that does not. -/
theorem decided_substitute (h : Represents d ids) (id : Nat) (is : List (Instruction R)) :
    d.Decided (.substitute id is) := by
  by_cases hlen : is.length ≤ maxIndex
  · cases hid : d.op? id with
    | none => exact .inr ⟨_, .substitute hlen hid⟩
    | some n =>
      cases hchk : is.forM (d.checkReplacement n.instruction.wires) with
      | ok _ =>
        -- the gaps are all found before the first edge goes, and filling them cannot fail
        obtain ⟨a, b, rfl⟩ := List.append_of_mem ((h.mem_iff id).mpr (by simp [hid]))
        have hchk' : forM is (d.checkReplacement n.instruction.wires) = .ok () := hchk
        obtain ⟨created, e, gaps, hfill⟩ : ∃ created e gaps, fill n.position 0 is
            (d.removeNode id, n.instruction.wires.map (d.gapBetween a b)) = (created, e, gaps) :=
          ⟨_, _, _, rfl⟩
        refine .inl ⟨created, e.close gaps, ?_⟩
        simp [Call.edit, Edit.substitute, edit_bind, edit_map, hid, hchk', mapM_gap h hid, hfill,
          Nat.not_lt.mpr hlen, Except.map]
      | error x =>
        obtain ⟨a, i, b, rfl, ha, hi⟩ := Outcome.forM_eq_error.mp hchk
        have ha : ∀ j ∈ a, d.Suits n j := fun j hj => checkReplacement_eq_ok.mp (ha j hj)
        rcases checkReplacement_eq_error.mp hi with hv | ⟨hv, _, _, _, hwires, hws, hw, rfl⟩
        · exact .inr ⟨x, .part hlen hid ha hv⟩
        · exact .inr ⟨_, .stray hlen hid ha hv hwires hws hw⟩
  · exact .inr ⟨_, .parts (Nat.lt_of_not_le hlen)⟩

theorem decided_replace (d : Dag R) (id : Nat) (i : Instruction R) : d.Decided (.replace id i) := by
  cases hv : i.validate d.numQubits d.numClbits with
  | error x => exact .inr ⟨x, .replacement hv⟩
  | ok _ =>
    cases hid : d.op? id with
    | none => exact .inr ⟨_, .replace hv hid⟩
    | some n =>
      by_cases hp : i.wires.Perm n.instruction.wires
      · refine .inl ⟨[], d.exchange id i n, ?_⟩
        rw [Call.edit, bind_pure_comp, edit_map, edit_replace hv hid hp]
        rfl
      · exact .inr ⟨_, .differ hv hid hp⟩

theorem decided (h : Represents d ids) (c : Call R) : d.Decided c := by
  cases c with
  | append i => exact decided_append h.ended i
  | remove id => exact decided_remove h id
  | substitute id is => exact decided_substitute h id is
  | replace id i => exact decided_replace d id i

end Done

/-- No refusal speaks of a wire that breaks off. -/
theorem Declines.ne_brokenWire (h : d.Declines c x) (w : Wire) (point : Nat) :
    x ≠ .invalidStructure (.brokenWire w point) := by
  rintro rfl
  cases h with
  | append hi => cases Instruction.isOperandFault_of_validate hi
  | part _ _ _ hi => cases Instruction.isOperandFault_of_validate hi
  | replacement hi => cases Instruction.isOperandFault_of_validate hi

/-- Changes are atomic. Whatever the arguments, classical bits named twice included, a call on a graph
that calls led to is done, or it leaves the graph as it was; and it fails exactly for the reasons that
are listed, with the error that says so. All of them are in its arguments: an instruction that is not
accepted by itself, a node without an operation, wires that differ, or a sequence longer than positions
can count. That an edge is missing is not among them. -/
theorem atomic_of_reachable [Scalar R] (h : d.Reachable) (c : Call R) :
    ((∃ created e, d.edit c.edit = (.ok created, e)) ∨ ∃ x, d.edit c.edit = (.error x, d)) ∧
    ∀ x e, d.edit c.edit = (.error x, e) ↔ e = d ∧ d.Declines c x ∧
      ∀ w point, x ≠ .invalidStructure (.brokenWire w point) := by
  obtain ⟨ids, hr⟩ := h.represents
  rcases decided hr c with ⟨created, f, hdone⟩ | ⟨y, hy⟩
  · refine ⟨.inl ⟨created, f, hdone⟩, fun x e => ⟨fun he => ?_, ?_⟩⟩
    · rw [hdone] at he
      cases he
    · rintro ⟨-, hx, -⟩
      rw [edit_of_declines hx] at hdone
      cases hdone
  · refine ⟨.inr ⟨y, edit_of_declines hy⟩, fun x e => ⟨fun he => ?_, ?_⟩⟩
    · rw [edit_of_declines hy] at he
      obtain ⟨rfl, rfl⟩ : y = x ∧ d = e := by simpa using he
      exact ⟨rfl, hy, hy.ne_brokenWire⟩
    · rintro ⟨rfl, hx, -⟩
      exact edit_of_declines hx

/-- A gate on the first two of three qubits. -/
def firstPair : Dag Float := (run 3 0 [.append (.ofStandard .cx [0, 1])]).1

theorem reachable_firstPair : firstPair.Reachable :=
  .run 3 0 (by
    simp [Call.ClbitsDistinct, Call.instructions, Instruction.ofStandard, Instruction.ofGate])

theorem atomic_firstPair : firstPair.Reachable ∧
    firstPair.edit (Call.edit (.substitute 0 [.ofStandard .h [0], .ofStandard .cx [0, 2]])) =
      (.error (.invalidStructure (.strayWire "cx" (.qubit 2))), firstPair) := by
  have hr : firstPair.Declines (.substitute 0 [.ofStandard .h [0], .ofStandard .cx [0, 2]])
      (.invalidStructure (.strayWire "cx" (.qubit 2))) := by
    have hwires : (.ofStandard .cx [0, 2] : Instruction Float).wires = [.qubit 0] ++ [.qubit 2] := rfl
    exact .stray (n := ⟨.ofStandard .cx [0, 1], [0]⟩) (a := [.ofStandard .h [0]]) (b := [])
      (by decide) rfl (List.forall_mem_singleton.mpr ⟨rfl, by decide⟩) rfl hwires (by decide)
      (by decide)
  have h := reachable_firstPair
  exact ⟨h, ((atomic_of_reachable h _).2 _ _).mpr ⟨rfl, hr, hr.ne_brokenWire⟩⟩

/-- A sequence for the first qubit, longer than positions can count. -/
def overlong : List (Instruction Float) := List.replicate 4294967296 (.ofStandard .h [0])

/-- Nothing is wrong with the node or with any part of the sequence, and still it is refused. -/
theorem refused_overlong : firstPair.Reachable ∧ ∃ n, firstPair.op? 0 = some n ∧
    (∀ i ∈ overlong, firstPair.Suits n i) ∧ firstPair.edit (Call.edit (.substitute 0 overlong)) =
      (.error (.invalidStructure (.tooManyParts 4294967296)), firstPair) := by
  have hlen : overlong.length = 4294967296 := List.length_replicate
  have hmany : maxIndex < overlong.length := by
    rw [hlen]
    decide
  refine ⟨reachable_firstPair, ⟨.ofStandard .cx [0, 1], [0]⟩, rfl, fun i hi => ?_, ?_⟩
  · obtain rfl := List.eq_of_mem_replicate hi
    exact ⟨rfl, by decide⟩
  · rw [edit_of_declines (.parts hmany), hlen]

end Dag

end QuantumCompiler
