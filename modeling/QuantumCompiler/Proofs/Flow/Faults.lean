import QuantumCompiler.Proofs.Dag.Accepted
import QuantumCompiler.Proofs.Flow.Preparation
import QuantumCompiler.Proofs.Optimization.Resynthesis

/-!
# Failures of a compilation

A preset that fails tells what is wrong with the input, as long as gates act on qubits only and on one at
least, no operation names a classical bit twice, and no angle divides by zero. What is left is an
operation with more parts than there are positions under one.
-/
namespace QuantumCompiler

open Outcome (Faultless Yields faultless_ok faultless_error yields_ok yields_error yields_of_eq_ok
  isInternal isInternal_of_faultless)

variable {R : Type} [Scalar R] {device : Device R}

/-! ## Building the graph -/

namespace Instruction

variable {i : Instruction R} {n m : Nat} {x : CircuitError}

omit [Scalar R] in
/-- An instruction that is not accepted is a fault of the input. -/
theorem ofCircuit_of_validate (h : i.validate n m = .error x) :
    (CompileError.ofCircuit x : CompileError R) = .malformedCircuit (.circuit x) := by
  have hx := isOperandFault_of_validate h
  cases x with
  | invalidStructure | invalidNode | malformedText => cases hx
  | qubitNotFound | clbitNotFound | qubitCountMismatch | measureArity | matrixDimension |
      matrixOverflow | duplicateQubit => rfl

end Instruction

theorem Circuit.faultless_toDag (circuit : Circuit R) :
    Faultless (Compile.ofCircuit circuit.toDag : Compile R (Dag R)) := by
  intro breach h
  cases hd : circuit.toDag with
  | ok d =>
    rw [hd] at h
    cases h
  | error x =>
    rcases Outcome.bind_eq_error.mp hd with hx | ⟨d, -, hx⟩
    · obtain ⟨a, i, b, -, -, hi⟩ := Dag.ofInstructions_eq_error_iff.mp hx
      rw [hd] at h
      cases (Instruction.ofCircuit_of_validate (R := R) hi).symm.trans (Except.error.inj h)
    · cases hx

/-! ## Passes -/

namespace Pass

variable {c : Compilation R} {ps : List (Pass R)}

/-- What every pass yields holds after all of them. -/
theorem yields_runAll {I : Compilation R → Prop}
    (hps : ∀ p ∈ ps, ∀ c, I c → Yields (p.run c) I) (hc : I c) : Yields (runAll ps c) I := by
  induction ps generalizing c with
  | nil => exact yields_ok hc
  | cons p ps ih =>
    rw [runAll_cons]
    have hone : Yields (if p.shouldRun c then p.run c else pure c) I := by
      split
      · exact hps p (by simp) c hc
      · exact yields_ok hc
    exact hone.bind fun c' hc' => ih (fun q hq => hps q (by simp [hq])) hc'

omit [Scalar R] in
theorem yields_untilStable {I : Compilation R → Prop}
    {body : Compilation R → Compile R (Compilation R)} (hbody : ∀ c, I c → Yields (body c) I)
    (rounds : Nat) (hc : I c) : Yields (untilStable body rounds c) I := by
  induction rounds generalizing c with
  | zero => exact yields_ok hc
  | succ rounds ih =>
    refine (hbody c hc).bind fun next hnext => ?_
    split
    · exact ih hnext
    · exact yields_ok hnext

end Pass

/-- An instruction that can be routed, and lowered unless the device lacks something. -/
def Instruction.Ready (i : Instruction R) : Prop := i.Split ∧ i.Settled

section Steps

open Compilation (Has)

variable {c : Compilation R}

theorem yields_searchLayout (hb : device.Built) (hinitial : c.initial = none)
    (h : c.Has device Instruction.Ready) (options : SearchOptions R) (fallback : Heuristic) :
    Yields (Pass.run (.searchLayout options fallback) c)
      (·.Has device fun i => device.Admits i ∧ i.Settled) := by
  obtain ⟨es, hr⟩ := h.dag.reachable.exists_reads
  have hn : Layout.Narrow c.dag := fun id i hi => (h.dag.all id i hi).1.2
  rw [Pass.run, Compilation.edited, Compilation.edit_searchLayout h.device, hinitial]
  rcases Routing.search_spec hb hr hn options fallback with
    ⟨-, -, r, hs, hreal⟩ | ⟨-, -, reason, hs⟩ | ⟨-, hs⟩
  · rw [hs]
    have hadmits := hreal.hasOnly (h.dag.imp fun _ hi => hi.1)
    refine yields_ok ⟨h.device, hreal.reachable, fun id o ho => ⟨hadmits.all id o ho, ?_⟩⟩
    rcases hreal.written id o ho with ⟨a, b, rfl, -⟩ | ⟨k, i, p, hi, -, rfl⟩
    · exact Instruction.settled_of_angles_eq_nil rfl
    · exact (h.dag.all k i hi).2
  · rw [hs]
    exact yields_error rfl
  · rw [hs]
    exact yields_error rfl

theorem faultless_lower (h : c.Has device fun i =>
      (i.isGate = true → i.qubits.length ≤ 2) ∧ i.Settled) (family : Option EulerFamily) :
    Faultless (Pass.run (.lower family) c) := by
  rw [Pass.run, target_eq h.device]
  exact (Basis.faultless_lowerAll device family h.dag).bind fun d _ => faultless_ok _

theorem yields_combine (h : c.Has device device.Executes) :
    Yields (Pass.run .combine c) (·.Has device device.Executes) := by
  obtain ⟨c', hc', hh⟩ := exists_combine h
  exact yields_of_eq_ok hc' hh

theorem yields_resynthesize (h : c.Has device device.Executes) (family : Option EulerFamily) :
    Yields (Pass.run (.resynthesize family) c) (·.Has device device.Executes) := by
  refine ⟨?_, fun c' he => has_resynthesize h he⟩
  rw [Pass.run, h.device]
  refine Faultless.bind ?_ fun d _ => faultless_ok _
  exact Runs.faultless_all (h.dag.imp fun i hi hg => (hi.1 hg).1) device family

end Steps

namespace Flow

variable {o : CompileOptions R} {c : Compilation R}

theorem yields_optimization (h : c.Has device device.Executes) :
    Yields (Pass.runAll (optimization o) c) (·.Has device device.Executes) := by
  have hpair : ∀ p ∈ ([.combine, .resynthesize o.family] : List (Pass R)),
      ∀ c : Compilation R, c.Has device device.Executes →
        Yields (p.run c) (·.Has device device.Executes) := by
    simp only [List.forall_mem_cons]
    exact ⟨fun c hc => yields_combine hc, fun c hc => yields_resynthesize hc _,
      List.forall_mem_nil _⟩
  rw [optimization]
  split
  · exact Pass.yields_runAll hpair h
  · rw [Pass.runAll_singleton rfl, Pass.run]
    exact Pass.yields_untilStable (fun c hc => Pass.yields_runAll hpair hc) _ h

theorem run_cancelled (o : CompileOptions R) (c : Compilation R) :
    ∃ pass, run (preset o) true c = .error (.cancelled pass) := by
  obtain ⟨p, ps, h⟩ : ∃ p ps, preset o = p :: ps := by
    rw [preset_eq, preparation]
    split <;> exact ⟨_, _, rfl⟩
  exact ⟨p.name, h ▸ rfl⟩

/-- A compilation that is prepared blames the input if it fails, and it ends with a graph. -/
theorem yields_rest (hb : device.Built) (hinitial : c.initial = none)
    (h : c.Has device Instruction.Ready) :
    Yields (Pass.runAll (rest o) c) (·.dag.Reachable) := by
  rw [rest]
  split
  · rw [Pass.runAll_singleton rfl]
    refine ⟨faultless_lower ⟨h.device, h.dag.imp fun i hi => ⟨hi.1.2, hi.2⟩⟩ _, fun c' he => ?_⟩
    exact (has_lower (P := fun _ => True) (fun _ _ _ _ _ => trivial)
      ⟨h.device, h.dag.imp fun _ _ => trivial⟩ he).dag.reachable
  · -- routing leaves gates that the device admits, lowering such that it executes
    rw [Pass.runAll_of_shouldRun rfl]
    refine (yields_searchLayout hb hinitial h _ _).bind fun c₁ h₁ => ?_
    rw [Pass.runAll_of_shouldRun rfl]
    have hlower : Yields (Pass.run (.lower o.family) c₁) (·.Has device device.Executes) := by
      refine ⟨faultless_lower ⟨h₁.device, h₁.dag.imp fun i hi => ⟨fun hg => ?_, hi.2⟩⟩ _,
        fun c' he => has_lower (fun i j hg hi hj => hi.narrow hg hj)
          ⟨h₁.device, h₁.dag.imp fun _ hi => hi.1⟩ he⟩
      rcases (hi.1 hg).2 with ⟨q, hq⟩ | ⟨a, b, hq, -⟩ <;> simp [hq]
    refine hlower.bind fun c₂ h₂ => ?_
    rw [Pass.runAll_append]
    refine (yields_optimization h₂).bind fun c₃ h₃ => ?_
    obtain ⟨census, hcensus⟩ := exists_checkCouplings h₃
    rw [Pass.runAll_singleton rfl]
    exact yields_of_eq_ok hcensus h₃.dag.reachable

end Flow

/-! ## Preparation -/

section Preparation

variable {o : CompileOptions R} {d : Dag R} {es : Dag.Entries R}

/-- Preparation makes every instruction ready and blames the input if it fails, unless a wide operation
has too many parts. -/
theorem yields_preparation (h : d.Reads es) (hplain : ∀ i ∈ es.map (·.2), i.Plain)
    (hangles : ∀ i ∈ es.map (·.2), (o.bound i).Settled) (device : Device R) :
    Yields (Pass.runAll (Flow.preparation o) (.ofDag d (some device) none))
        (fun c => c.Has device Instruction.Ready ∧ c.initial = none) ∨
      ∃ i ∈ es.map (·.2), Wide.maxOperands < i.qubits.length ∧ ∃ k, maxIndex < k ∧
        Pass.runAll (Flow.preparation o) (.ofDag d (some device) none) =
          .error (.internal (.illFormed (.invalidStructure (.tooManyParts k)))) := by
  obtain ⟨e, es', hr, hes, -, hrun⟩ := exists_bound (o := o) h (some device)
  have hmem {x : Nat × Instruction R} (hx : x ∈ es') : ∃ i ∈ es.map (·.2), x.2 = o.bound i := by
    have hm := List.mem_map_of_mem (f := (·.2)) hx
    rw [hes] at hm
    obtain ⟨i, hi, hix⟩ := List.mem_map.mp hm
    exact ⟨i, hi, hix.symm⟩
  have hplain' : e.HasOnly Instruction.Plain := by
    refine ⟨hr.reachable, fun id j hj hg => ?_⟩
    obtain ⟨i, hi, rfl : j = o.bound i⟩ := hmem (hr.mem_iff.mpr hj)
    have hs := o.sameBut_bound i
    rw [hs.clbits, hs.qubits]
    exact hplain i hi (hs.isGate ▸ hg)
  have hsettled : e.HasOnly Instruction.Settled := by
    refine ⟨hr.reachable, fun id j hj => ?_⟩
    obtain ⟨i, hi, rfl : j = o.bound i⟩ := hmem (hr.mem_iff.mpr hj)
    exact hangles i hi
  rw [hrun]
  cases hsplit : Wide.splitAll e with
  | ok f =>
    have hplainf := Wide.hasOnly_splitAll hplain' hsplit
    have hsettledf := Wide.settled_splitAll hsettled hsplit
    exact .inl (yields_ok ⟨⟨rfl, hplainf.reachable,
      fun id i hi => ⟨hplainf.all id i hi, hsettledf.all id i hi⟩⟩, rfl⟩)
  | error x =>
    obtain ⟨y, hy, -, hfail | ⟨l, -, hlong, hlen, rfl⟩⟩ := Wide.refused_of_splitAll hr hsplit
    · have ha := (Instruction.validate_eq_ok.mp (hr.valid y hy)).1
      have hx : isInternal x = false := isInternal_of_faultless (hfail ▸ Wide.faultless_split ha)
      exact .inl (yields_error hx)
    · obtain ⟨i, hi, hyi⟩ := hmem hy
      rw [hyi, (o.sameBut_bound i).qubits] at hlong
      exact .inr ⟨i, hi, hlong, l.length, hlen, rfl⟩

end Preparation

namespace Compiler

variable {o : CompileOptions R} {compiler : Compiler R} {circuit : Circuit R}

theorem faultless_collect {name : String} {used : List Qubit} {c : Compilation R}
    (h : c.dag.Reachable) : Faultless (collect device name used c) := by
  obtain ⟨es, hr⟩ := h.exists_reads
  obtain ⟨result, hresult⟩ : ∃ result, collect device name used c = .ok result := exists_collect hr
  exact hresult ▸ faultless_ok result

theorem compile_eq_bind {cancelled : Bool} (hw : circuit.numQubits ≤ compiler.device.numQubits) :
    compiler.compile circuit cancelled = Compile.ofCircuit circuit.toDag >>= fun d =>
      compiler.flow.run cancelled (.ofDag d (some compiler.device) none) >>=
        collect compiler.device circuit.name d.qubitsUsed := by
  rw [compile, if_neg (Nat.not_lt.mpr hw)]

/-- A compilation that fails blames the input, as long as no operation names a classical bit twice,
gates act on qubits only and on one at least, and no angle divides by zero. The one exception is an
operation on more than `maxOperands` qubits with more parts than there are positions under one. -/
theorem faultless_of_compile (hb : device.Built) (hc : ofOptions device o = .ok compiler)
    (hclbits : ∀ i ∈ circuit.instructions, i.clbits.Nodup)
    (hplain : ∀ i ∈ circuit.instructions, i.isGate = true → i.clbits = [] ∧ i.qubits ≠ [])
    (hangles : ∀ i ∈ circuit.instructions, (o.bound i).Settled) (cancelled : Bool) :
    (∀ breach, compiler.compile circuit cancelled ≠ .error (.internal breach)) ∨
      ∃ i ∈ circuit.instructions, Wide.maxOperands < i.qubits.length ∧ ∃ k, maxIndex < k ∧
        compiler.compile circuit cancelled =
          .error (.internal (.illFormed (.invalidStructure (.tooManyParts k)))) := by
  obtain rfl := ofOptions_eq_ok hc
  rcases Nat.lt_or_ge device.numQubits circuit.numQubits with hwide | hw
  · rw [compile, if_pos hwide]
    exact .inl (faultless_error rfl)
  rw [compile_eq_bind hw]
  cases hd : circuit.toDag with
  | error x =>
    have hfault := circuit.faultless_toDag
    rw [hd] at hfault
    exact .inl (hfault.bind fun a ha => by cases ha)
  | ok d =>
    obtain ⟨es, hr, hes, -⟩ := Circuit.reads_of_toDag hclbits hd
    rw [← hes] at hplain hangles ⊢
    change (∀ breach, (Flow.run (.preset o) cancelled _ >>= _) ≠ _) ∨ ∃ i ∈ es.map (·.2), _ ∧
      ∃ k, _ ∧ (Flow.run (.preset o) cancelled _ >>= _) = _
    cases cancelled with
    | true =>
      obtain ⟨pass, hx⟩ := Flow.run_cancelled o (.ofDag d (some device) none)
      rw [hx]
      exact .inl (faultless_error rfl)
    | false =>
      rw [Flow.run_uncancelled, Flow.preset_eq, Pass.runAll_append]
      -- once every instruction is ready, no pass behind the preparation can find a fault
      rcases yields_preparation hr hplain hangles device with hready | ⟨i, hi, hlong, k, hk, hx⟩
      · have hflow : Yields (Pass.runAll (Flow.preparation o) (.ofDag d (some device) none) >>=
            Pass.runAll (Flow.rest o)) (·.dag.Reachable) :=
          hready.bind fun c hc => Flow.yields_rest hb hc.2 hc.1
        exact .inl (hflow.faultless.bind fun c hc => faultless_collect (hflow.value c hc))
      · refine .inr ⟨i, hi, hlong, k, hk, ?_⟩
        rw [hx]
        rfl

/-- No check looks for classical bits that an operation names twice, and the graph that comes of it has
a cycle. The first pass that reads the graph takes that for a fault of the compiler. -/
theorem breach_of_compile (hc : ofOptions device o = .ok compiler) (ho : o.parameters.isEmpty = true)
    (hw : circuit.numQubits ≤ device.numQubits)
    (hv : ∀ i ∈ circuit.instructions, i.validate circuit.numQubits circuit.numClbits = .ok ())
    (hclbits : ∃ i ∈ circuit.instructions, ¬ i.clbits.Nodup) :
    compiler.compile circuit false =
      .error (.internal (.illFormed (.invalidStructure .cycle))) := by
  obtain rfl := ofOptions_eq_ok hc
  obtain ⟨e, he⟩ := Dag.exists_ofInstructions hv
  have hd : circuit.toDag = .ok (e.setPhase circuit.phase) := by
    rw [Circuit.toDag, he]
    rfl
  have hsplit : Wide.splitAll (e.setPhase circuit.phase) =
      .error (.internal (.illFormed (.invalidStructure .cycle))) := by
    rw [Wide.splitAll, Dag.lowerWhere, (Circuit.cyclic_of_toDag hclbits hd).topologicalOps_eq]
    rfl
  rw [compile_eq_bind hw, hd]
  change (Flow.run (.preset o) false _ >>= _) = _
  rw [Flow.run_uncancelled, Flow.preset_eq, Flow.preparation, if_pos ho, List.nil_append,
    Pass.runAll_append, runAll_splitWide, hsplit]
  rfl

section Examples

attribute [local instance] Scalar.real

/-- A rotation by an angle that is not bound, a gate between the two ends of a row, and a measurement. -/
noncomputable def unbound : Circuit ℝ := .ofInstructions "unbound" 3 1
  [.ofStandard (.rz (.symbol "angle")) [0], .ofStandard .cx [0, 2], .measure 2 0]

theorem faultless_unbound : ∃ compiler, ofOptions row (.ofLevel 1) = .ok compiler ∧
    ¬ ∃ breach, compiler.compile unbound false = .error (.internal breach) := by
  have hall {P : Instruction ℝ → Prop} (hrz : P (.ofStandard (.rz (.symbol "angle")) [0]))
      (hcx : P (.ofStandard .cx [0, 2])) (hm : P (.measure 2 0)) :
      ∀ i ∈ unbound.instructions, P i := by
    simp only [unbound, Circuit.ofInstructions, List.forall_mem_cons]
    exact ⟨hrz, hcx, hm, List.forall_mem_nil _⟩
  have hcompile := faultless_of_compile (.withBasis (.linear 3) _) ofOptions_row
    (hall List.nodup_nil List.nodup_nil (List.nodup_singleton 0))
    (hall (fun _ => ⟨rfl, List.cons_ne_nil _ _⟩) (fun _ => ⟨rfl, List.cons_ne_nil _ _⟩)
      fun hgate => absurd hgate Bool.false_ne_true)
    (hall (Instruction.settled_ofStandard (List.forall_mem_singleton.mpr (.inl rfl)))
      (Instruction.settled_of_angles_eq_nil rfl) (Instruction.settled_of_standard?_eq_none rfl)) false
  refine ⟨_, ofOptions_row, ?_⟩
  rintro ⟨breach, hbreach⟩
  rcases hcompile with h | ⟨i, hi, hlong, -⟩
  · exact h breach hbreach
  · have hshort : ∀ i ∈ unbound.instructions, i.qubits.length ≤ Wide.maxOperands :=
      hall (by decide) (by decide) (by decide)
    exact absurd (hshort i hi) (Nat.not_le.mpr hlong)

/-- Two qubits read into one classical bit. -/
noncomputable def doubled : Circuit ℝ :=
  .ofInstructions "doubled" 2 1 [⟨.measure, [0, 1], [0, 0]⟩]

/-- A circuit that is accepted, on a device that has room for it, ends in a fault of the compiler. -/
theorem breach_doubled : ∃ d compiler, doubled.toDag = .ok d ∧
    ofOptions row (.ofLevel 1) = .ok compiler ∧
    compiler.compile doubled false =
      .error (.internal (.illFormed (.invalidStructure .cycle))) := by
  have hv : ∀ i ∈ doubled.instructions, i.validate 2 1 = .ok () := List.forall_mem_singleton.mpr rfl
  obtain ⟨e, he⟩ := Dag.exists_ofInstructions hv
  refine ⟨e.setPhase doubled.phase, _, ?_, ofOptions_row, ?_⟩
  · rw [Circuit.toDag]
    change (Dag.ofInstructions 2 1 doubled.instructions >>= _) = _
    rw [he]
    rfl
  · exact breach_of_compile ofOptions_row rfl (by decide) hv ⟨_, List.mem_singleton_self _, by decide⟩

end Examples

end Compiler

end QuantumCompiler
