import QuantumCompiler.Proofs.Dag.Cyclic

/-!
# Graphs of accepted sequences

A sequence becomes a graph exactly when each of its instructions is accepted by itself; otherwise the
first one that is not tells the error. The graph is sound and reads as the sequence, unless an
instruction names a classical bit twice. No check looks for that, and it leaves a graph that nothing
can be read from.
-/
namespace QuantumCompiler.Dag

variable {R : Type} {d e : Dag R} {i : Instruction R}

/-- Every wire has an edge into its output, which is where appending ties an operation in. A graph
with a cycle keeps this. -/
def Ended (d : Dag R) : Prop := ∀ w, d.HasWire w → (d.incoming? (.output w) w).isSome

theorem ended_empty [Scalar R] (n m : Nat) : (empty n m : Dag R).Ended := by
  intro w hw
  obtain ⟨x, hx⟩ := Option.isSome_iff_exists.mp
    (show ((PerWire.replicate n m ()).get? w).isSome by simpa [HasWire, empty] using hw)
  simp [incoming?, along, empty, hx]

theorem Extended.ended {id : Nat} {w : Wire} (h : Extended id w d e) (hd : d.Ended) : e.Ended := by
  intro v hv
  by_cases hvw : v = w
  · subst hvw
    obtain ⟨prior, -, he⟩ := h.here
    simp [incoming?, he]
  · rw [incoming?, h.elsewhere v hvw]
    exact hd v ((h.sameOps.hasWire v).mp hv)

theorem exists_extend (hd : d.Ended) (id : Nat) {w : Wire} (hw : d.HasWire w) :
    ∃ e, d.edit (Edit.extend id w) = (.ok (), e) := by
  obtain ⟨l, hl⟩ := Option.isSome_iff_exists.mp (hd w hw)
  have hnone : (d.links.get? w).isNone = false := by
    simpa [HasWire, Option.isSome_iff_ne_none] using hw
  rw [Edit.extend, edit_bind, edit_get]
  simp [hnone, hl]

/-- Tying a node in at the ends of wires of the register always succeeds, also twice at one. -/
theorem exists_forM_extend (id : Nat) (ws : List Wire) (hd : d.Ended) (hw : ∀ w ∈ ws, d.HasWire w) :
    ∃ e, d.edit (ws.forM (Edit.extend id)) = (.ok (), e) ∧ e.Ended ∧
      ∀ w, e.HasWire w ↔ d.HasWire w := by
  induction ws generalizing d with
  | nil => exact ⟨d, rfl, hd, fun _ => Iff.rfl⟩
  | cons w ws ih =>
    obtain ⟨f, hf⟩ := exists_extend hd id (hw w (by simp))
    have hx := extended_of_edit hf
    obtain ⟨e, he, hended, hwires⟩ := ih (hx.ended hd) fun v hv =>
      (hx.sameOps.hasWire v).mpr (hw v (by simp [hv]))
    refine ⟨e, ?_, hended, fun v => (hwires v).trans (hx.sameOps.hasWire v)⟩
    change d.edit (Edit.extend id w >>= fun _ => ws.forM (Edit.extend id)) = _
    rw [edit_bind, hf]
    exact he

/-- An instruction that is accepted by itself can be appended. -/
theorem Ended.exists_append (hd : d.Ended) (hv : i.validate d.numQubits d.numClbits = .ok ()) :
    ∃ new e, d.append i = .ok (new, e) ∧ e.Ended ∧ e.numQubits = d.numQubits ∧
      e.numClbits = d.numClbits := by
  have hfit := Instruction.fits_of_validate hv
  set d0 : Dag R := { d with appended := d.appended + 1 } with hd0
  set n : OpNode R := ⟨i, [d.appended]⟩ with hn
  have hwire (w : Wire) : (d0.addNode n).2.HasWire w ↔ d.HasWire w := hasWire_addNode d0 n w
  -- a wire named twice is tied in twice, which leaves a cycle but no wire without an end
  have hended : (d0.addNode n).2.Ended := by
    intro w hw
    rw [incoming?, along_addNode]
    exact hd w ((hwire w).mp hw)
  obtain ⟨e, he, hende, hsame⟩ := exists_forM_extend (d0.addNode n).1 i.wires hended (by
    intro w hw
    rw [hwire]
    rcases Instruction.mem_wires.mp hw with ⟨q, hq, rfl⟩ | ⟨c, hc, rfl⟩
    · exact hasWire_qubit.mpr (hfit.qubits q hq)
    · exact hasWire_clbit.mpr (hfit.clbits c hc))
  have hkeeps : Keeps d e [] := ⟨by simp, fun w => (hsame w).trans (hwire w)⟩
  refine ⟨(d0.addNode n).1, e, ?_, hende, hkeeps.numQubits, hkeeps.numClbits⟩
  rw [append, edited_eq_ok, edit_append hv, edit_bind, he]
  rfl

/-- Instructions that are all accepted by themselves can be appended one after another. -/
theorem Ended.exists_appends (is : List (Instruction R)) (hd : d.Ended)
    (hv : ∀ i ∈ is, i.validate d.numQubits d.numClbits = .ok ()) :
    ∃ e, is.foldlM (fun d i => (d.append i).map (·.2)) d = .ok e ∧ e.Ended ∧
      e.numQubits = d.numQubits ∧ e.numClbits = d.numClbits := by
  induction is generalizing d with
  | nil => exact ⟨d, rfl, hd, rfl, rfl⟩
  | cons i is ih =>
    obtain ⟨new, f, hf, hended, hq, hc⟩ := hd.exists_append (hv i (by simp))
    obtain ⟨e, he, hende, hqe, hce⟩ := ih hended fun j hj => by
      rw [hq, hc]
      exact hv j (by simp [hj])
    refine ⟨e, ?_, hende, hqe.trans hq, hce.trans hc⟩
    rw [List.foldlM_cons, hf]
    exact he

theorem Cyclic.verify_eq (h : d.Cyclic) : d.verify = .error (.invalidStructure .cycle) := by
  have hlen : d.reachableOrder.length ≠ d.numOps := by
    intro he
    have ho := h.topologicalOps_eq
    rw [topologicalOps, topologicalNodes, if_pos he] at ho
    cases ho
  rw [verify, if_pos hlen]
  rfl

theorem Cyclic.linearize_eq (h : d.Cyclic) :
    d.linearize = .error (.invalidStructure .cycle) := by
  rw [linearize, h.topologicalOps_eq]
  rfl

section Build

variable [Scalar R] {n m : Nat} {is : List (Instruction R)}

/-- A sequence is accepted when each of its instructions is. -/
theorem exists_ofInstructions (hv : ∀ i ∈ is, i.validate n m = .ok ()) :
    ∃ d, ofInstructions n m is = .ok d := by
  have hh := holds_empty (R := R) n m
  obtain ⟨d, hd, -⟩ :=
    (ended_empty (R := R) n m).exists_appends is (by rwa [hh.numQubits, hh.numClbits])
  exact ⟨d, hd⟩

/-- The first instruction that is not accepted ends the building. -/
theorem ofInstructions_of_refused {x : CircuitError} {a b : List (Instruction R)}
    (ha : ∀ j ∈ a, j.validate n m = .ok ()) (hi : i.validate n m = .error x) :
    ofInstructions n m (a ++ i :: b) = .error x := by
  have hh := holds_empty (R := R) n m
  obtain ⟨d, hd, -, hq, hc⟩ :=
    (ended_empty (R := R) n m).exists_appends a (by rwa [hh.numQubits, hh.numClbits])
  have happ : d.append i = .error x := by
    rw [append, edited, append_refused (by rw [hq, hc, hh.numQubits, hh.numClbits, hi])]
  rw [ofInstructions, List.foldlM_append, hd]
  change (b.foldlM _ =<< (d.append i).map (·.2)) = _
  rw [happ]
  rfl

/-- Building a graph fails only through the checks of an instruction. -/
theorem ofInstructions_eq_error_iff {x : CircuitError} :
    ofInstructions n m is = .error x ↔ ∃ a i b, is = a ++ i :: b ∧
      (∀ j ∈ a, j.validate n m = .ok ()) ∧ i.validate n m = .error x := by
  constructor
  · intro h
    cases hf : is.find? fun i => i.validate n m ≠ .ok () with
    | none =>
      obtain ⟨d, hd⟩ := exists_ofInstructions (n := n) (m := m) (by simpa using hf)
      rw [hd] at h
      cases h
    | some i =>
      obtain ⟨hi, a, b, rfl, ha⟩ := List.find?_eq_some_iff_append.mp hf
      have ha : ∀ j ∈ a, j.validate n m = .ok () := by simpa using ha
      cases hv : i.validate n m with
      | ok _ => simp [hv] at hi
      | error y =>
        rw [ofInstructions_of_refused ha hv] at h
        exact ⟨a, i, b, rfl, ha, hv.trans (congrArg _ (Except.error.inj h))⟩
  · rintro ⟨a, i, b, rfl, ha, hi⟩
    exact ofInstructions_of_refused ha hi

/-- What a sequence of instructions makes. The error is that of the first instruction that is not
accepted by itself, and there is none when all are. A graph of instructions that name every classical
bit once is sound and reads as the sequence; any other graph has a cycle, and neither the check of its
structure nor reading it succeeds. -/
theorem soundness_of_ofInstructions (n m : Nat) (is : List (Instruction R)) :
    (∀ x, ofInstructions n m is = .error x ↔ ∃ a i b, is = a ++ i :: b ∧
      (∀ j ∈ a, j.validate n m = .ok ()) ∧ i.validate n m = .error x) ∧
    ∀ d, ofInstructions n m is = .ok d →
      ((∀ i ∈ is, i.clbits.Nodup) → d.verify = .ok () ∧ d.linearize = .ok is) ∧
      ((∃ i ∈ is, ¬ i.clbits.Nodup) →
        d.verify = .error (.invalidStructure .cycle) ∧
        d.linearize = .error (.invalidStructure .cycle)) := by
  refine ⟨fun x => ofInstructions_eq_error_iff, fun d hd => ⟨fun hc => ?_, fun hc => ?_⟩⟩
  · obtain ⟨es, hr, rfl, -⟩ := reads_of_ofInstructions hc hd
    exact ⟨hr.holds.represents.verify_eq_ok, hr.linearize_eq⟩
  · have h := cyclic_of_ofInstructions hd hc
    exact ⟨h.verify_eq, h.linearize_eq⟩

end Build

/-- Two qubits read into two classical bits, crosswise. -/
def crossedMeasurement : List (Instruction Float) := [⟨.measure, [0, 1], [1, 0]⟩]

theorem soundness_crossedMeasurement : ∃ d, ofInstructions 2 2 crossedMeasurement = .ok d ∧
    d.verify = .ok () ∧ d.linearize = .ok crossedMeasurement := by
  refine ⟨_, rfl, ?_⟩
  exact ((soundness_of_ofInstructions 2 2 crossedMeasurement).2 _ rfl).1 (by decide)

/-- Two qubits read into one classical bit. -/
def doubledMeasurement : List (Instruction Float) := [⟨.measure, [0, 1], [0, 0]⟩]

/-- A sequence is accepted whose graph is not sound. -/
theorem unsound_doubledMeasurement : ∃ d, ofInstructions 2 1 doubledMeasurement = .ok d ∧
    d.verify ≠ .ok () ∧ d.linearize ≠ .ok doubledMeasurement := by
  have hv : ∀ i ∈ doubledMeasurement, i.validate 2 1 = .ok () := List.forall_mem_singleton.mpr rfl
  obtain ⟨d, hd⟩ := exists_ofInstructions hv
  have h : d.Cyclic := cyclic_of_ofInstructions hd ⟨_, List.mem_singleton_self _, by decide⟩
  refine ⟨d, hd, ?_, ?_⟩
  · simp [h.verify_eq]
  · simp [h.linearize_eq]

end QuantumCompiler.Dag
