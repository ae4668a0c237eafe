import QuantumCompiler.Circuit.Builder
import QuantumCompiler.Proofs.Circuit.Basic

/-!
# Built circuits

A call of a builder method either is refused and leaves the circuit as it was, or appends instructions that
fit the registers, which it may have made larger. So a circuit that is built from nothing holds instructions
that its graph accepts, and none of them names a classical bit twice: the graph reads back as the circuit.
-/
namespace QuantumCompiler.Circuit

variable {R : Type}

/-! ## One call -/

section Edit

variable {α β : Type}

/-- The second change starts from the circuit that the first one leaves, unless that fails. -/
theorem edit_bind (c : Circuit R) (e : Edit R α) (f : α → Edit R β) :
    c.edit (e >>= f) =
      match c.edit e with
      | (.ok a, c) => c.edit (f a)
      | (.error x, c) => (.error x, c) := by
  simp only [edit, ExceptT.run_bind, StateT.run_bind]
  rcases (ExceptT.run e).run c with ⟨a | a, c⟩ <;> rfl

/-- An instruction that does not fit is not appended. -/
theorem edit_push (c : Circuit R) (i : Instruction R) : c.edit (.push i) =
    match i.validate c.numQubits c.numClbits with
    | .ok () => (.ok (), { c with instructions := c.instructions ++ [i] })
    | .error x => (.error x, c) := by
  have hget : c.edit (get : Edit R (Circuit R)) = (.ok c, c) := rfl
  have hcheck (x : Except CircuitError Unit) : c.edit (liftExcept x) = (x, c) := by
    cases x <;> rfl
  rw [Edit.push, edit_bind, hget]
  simp only [edit_bind, hcheck]
  cases i.validate c.numQubits c.numClbits <;> rfl

/-- Instructions that all fit are appended one after another. -/
theorem edit_forM_push (c : Circuit R) {xs : List α} {f : α → Instruction R}
    (h : ∀ x ∈ xs, (f x).validate c.numQubits c.numClbits = .ok ()) :
    c.edit (xs.forM fun x => .push (f x)) =
      (.ok (), { c with instructions := c.instructions ++ xs.map f }) := by
  induction xs generalizing c with
  | nil =>
    rw [List.map_nil, List.append_nil]
    rfl
  | cons x xs ih =>
    obtain ⟨hx, hxs⟩ := List.forall_mem_cons.mp h
    change c.edit (Edit.push (f x) >>= fun _ => xs.forM fun x => .push (f x)) = _
    rw [edit_bind, edit_push, hx]
    have htail := ih { c with instructions := c.instructions ++ [f x] } hxs
    rwa [List.append_assoc, List.singleton_append] at htail

end Edit

/-- What a call appends to a circuit on `n` qubits. -/
def Call.instructions (n : Nat) : Call R → List (Instruction R)
  | standard g qubits => [.ofStandard g qubits]
  | mcx controls target => [.ofStandard (.mcx controls.length) (controls ++ [target])]
  | mcry θ controls target => [.ofStandard (.mcry controls.length θ) (controls ++ [target])]
  | mcu θ φ ψ controls target => [.ofStandard (.mcu controls.length θ φ ψ) (controls ++ [target])]
  | gate g qubits => [.ofGate g qubits]
  | measure q b => [.measure q b]
  | measureAll => (List.range n).map fun q => .measure q q
  | reset q => [.reset q]
  | barrier qubits => [.barrier qubits]
  | delay q duration => [.delay q duration]

/-- No builder method names a classical bit twice. -/
theorem Call.nodup_clbits (n : Nat) (k : Call R) : ∀ i ∈ k.instructions n, i.clbits.Nodup := by
  cases k with
  | measureAll =>
    intro i hi
    obtain ⟨q, -, rfl⟩ := List.mem_map.mp hi
    exact List.nodup_singleton q
  | measure q b => exact List.forall_mem_singleton.mpr (List.nodup_singleton b)
  | _ => exact List.forall_mem_singleton.mpr List.nodup_nil

/-- The call appends its instructions, which all fit registers that are no smaller than before. -/
structure Appends (c : Circuit R) (k : Call R) (e : Circuit R) : Prop where
  name : e.name = c.name
  numQubits : e.numQubits = c.numQubits
  numClbits : c.numClbits ≤ e.numClbits
  valid : ∀ i ∈ k.instructions c.numQubits, i.validate e.numQubits e.numClbits = .ok ()
  instructions : e.instructions = c.instructions ++ k.instructions c.numQubits
  phase : e.phase = c.phase

theorem appends_of_push {c : Circuit R} {k : Call R} {i : Instruction R}
    (hi : k.instructions c.numQubits = [i]) :
    (∃ x, c.edit (.push i) = (.error x, c)) ∨ ∃ e, c.edit (.push i) = (.ok (), e) ∧ c.Appends k e := by
  rw [edit_push]
  cases hv : i.validate c.numQubits c.numClbits with
  | error x => exact .inl ⟨x, rfl⟩
  | ok u =>
    refine .inr ⟨_, rfl, rfl, rfl, le_rfl, ?_, congrArg (c.instructions ++ ·) hi.symm, rfl⟩
    rw [hi]
    exact List.forall_mem_singleton.mpr hv

theorem appends_of_controlled {c : Circuit R} {k : Call R} {g : StandardGate R} {controls : List Qubit}
    {target : Qubit} (hk : k.instructions c.numQubits = [.ofStandard g (controls ++ [target])]) :
    (∃ x, c.edit (.controlled g controls target) = (.error x, c)) ∨
      ∃ e, c.edit (.controlled g controls target) = (.ok (), e) ∧ c.Appends k e := by
  rw [Edit.controlled]
  split
  · exact appends_of_push hk
  · exact .inl ⟨_, rfl⟩

/-- Every qubit can be measured once there is a bit for it. -/
theorem appends_measureAll (c : Circuit R) :
    ∃ e, c.edit .measureAll = (.ok (), e) ∧ c.Appends .measureAll e := by
  set grown : Circuit R := { c with numClbits := max c.numClbits c.numQubits } with hgrown
  have hvalid : ∀ q ∈ List.range c.numQubits,
      (.measure q q : Instruction R).validate grown.numQubits grown.numClbits = .ok () := by
    intro q hq
    have hlt : q < c.numQubits := List.mem_range.mp hq
    refine Instruction.validate_eq_ok.mpr ⟨rfl, ?_, ?_, List.nodup_singleton q⟩
    · exact List.forall_mem_singleton.mpr hlt
    · exact List.forall_mem_singleton.mpr (hlt.trans_le (le_max_right ..))
  refine ⟨_, edit_forM_push grown hvalid, rfl, rfl, le_max_left .., ?_, rfl, rfl⟩
  intro i hi
  obtain ⟨q, hq, rfl⟩ := List.mem_map.mp hi
  exact hvalid q hq

/-- A call is refused and leaves the circuit as it was, or it appends its instructions. -/
theorem edit_call (c : Circuit R) (k : Call R) :
    (∃ x, c.edit k.edit = (.error x, c)) ∨ ∃ e, c.edit k.edit = (.ok (), e) ∧ c.Appends k e := by
  cases k with
  | mcx | mcry | mcu => exact appends_of_controlled rfl
  | measureAll => exact .inr (appends_measureAll c)
  | _ => exact appends_of_push rfl

/-! ## Any number of calls -/

/-- The circuit after a sequence of calls, those that are refused among them. -/
def after (c : Circuit R) (calls : List (Call R)) : Circuit R :=
  calls.foldl (fun c k => (c.edit k.edit).2) c

/-- What every call keeps up: the graph of the circuit is made, and it can be read. -/
structure Built [Scalar R] (c : Circuit R) : Prop where
  valid : ∀ i ∈ c.instructions, i.validate c.numQubits c.numClbits = .ok ()
  nodup_clbits : ∀ i ∈ c.instructions, i.clbits.Nodup
  phase : c.phase = 0

theorem built_empty [Scalar R] (name : String) (n m : Nat) : Built (empty name n m : Circuit R) :=
  ⟨nofun, nofun, rfl⟩

/-- Larger registers accept what smaller ones do. -/
theorem validate_mono {i : Instruction R} {n m m' : Nat} (hm : m ≤ m') (h : i.validate n m = .ok ()) :
    i.validate n m' = .ok () := by
  obtain ⟨ha, hf⟩ := Instruction.validate_eq_ok.mp h
  exact Instruction.validate_eq_ok.mpr
    ⟨ha, hf.qubits, fun b hb => (hf.clbits b hb).trans_le hm, hf.distinct⟩

theorem Built.edit [Scalar R] {c : Circuit R} (h : c.Built) (k : Call R) : (c.edit k.edit).2.Built := by
  rcases edit_call c k with ⟨x, hx⟩ | ⟨e, he, ha⟩
  · exact hx ▸ h
  · rw [he]
    constructor
    · rw [ha.instructions]
      refine List.forall_mem_append.mpr ⟨fun i hi => ?_, ha.valid⟩
      exact ha.numQubits ▸ validate_mono ha.numClbits (h.valid i hi)
    · rw [ha.instructions]
      exact List.forall_mem_append.mpr ⟨h.nodup_clbits, k.nodup_clbits c.numQubits⟩
    · exact ha.phase.trans h.phase

theorem Built.after [Scalar R] {c : Circuit R} (h : c.Built) (calls : List (Call R)) : (c.after calls).Built :=
  List.foldlRecOn calls _ h fun _ hc k _ => hc.edit k

theorem name_after (c : Circuit R) (calls : List (Call R)) : (c.after calls).name = c.name := by
  refine List.foldlRecOn (motive := fun e : Circuit R => e.name = c.name) calls _ rfl fun e he k _ => ?_
  rcases edit_call e k with ⟨x, hx⟩ | ⟨e', he', ha⟩
  · exact hx ▸ he
  · rw [he']
    exact ha.name.trans he

/-- The graph reads back as the circuit, if no phase reduces to no phase. -/
theorem Built.ofDag_toDag [Scalar R] {c : Circuit R} (h : c.Built)
    (hzero : Scalar.remEuclid (0 : R) Scalar.tau = 0) : ∃ d, c.toDag = .ok d ∧ ofDag c.name d = .ok c := by
  obtain ⟨d, es, hd, hr, hes, hq, hb⟩ :=
    Dag.exists_reads_ofInstructions c.numQubits c.numClbits c.instructions h.valid h.nodup_clbits
  have hread : (d.setPhase c.phase).Reads es := hr.withPhase _
  refine ⟨d.setPhase c.phase, by rw [toDag, hd]; rfl, ?_⟩
  have hphase : (d.setPhase c.phase).phase = c.phase := by
    rw [h.phase]
    exact hzero
  have hqubits : (d.setPhase c.phase).numQubits = c.numQubits := hq
  have hclbits : (d.setPhase c.phase).numClbits = c.numClbits := hb
  rw [ofDag_eq_ok hread, hes, hphase, hqubits, hclbits]

/-- A call that is refused leaves any circuit as it was; and whatever calls are made from the empty circuit on,
refused ones among them, the graph of the circuit is made and reads back as the very same circuit. -/
theorem built_circuit_round_trips :
    (∀ (c : Circuit Float) (k : Call Float) (x : CircuitError),
      (c.edit k.edit).1 = .error x → (c.edit k.edit).2 = c) ∧
    ∀ (name : String) (numQubits numClbits : Nat) (calls : List (Call Float)),
      ∃ d, ((empty name numQubits numClbits).after calls).toDag = .ok d ∧
        ofDag name d = .ok ((empty name numQubits numClbits).after calls) := by
  refine ⟨fun c k x hx => ?_, fun name numQubits numClbits calls => ?_⟩
  · rcases edit_call c k with ⟨y, hy⟩ | ⟨e, he, -⟩
    · exact congrArg Prod.snd hy
    · rw [he] at hx
      cases hx
  · have hzero : Scalar.remEuclid (0 : Float) Scalar.tau = 0 := by decide +kernel
    obtain ⟨d, hd, hc⟩ := ((built_empty name numQubits numClbits).after calls).ofDag_toDag hzero
    rw [name_after] at hc
    exact ⟨d, hd, hc⟩

/-- The calls in between do not matter: one is refused for an operand out of range, one for naming a qubit
twice, and measuring makes the register larger for the call after it. -/
example : let c := (empty "c" 2 0 : Circuit Float).after [.standard .cx [0, 2], .standard .h [0],
    .barrier [1, 1], .measureAll, .measure 0 1]
    c.instructions.map (·.name) = ["h", "measure", "measure", "measure"] ∧ c.numClbits = 2 := by
  decide +kernel

end QuantumCompiler.Circuit
