import QuantumCompiler.Compiler
import QuantumCompiler.Proofs.Binding
import QuantumCompiler.Proofs.Circuit.Basic
import QuantumCompiler.Proofs.Flow.Search
import QuantumCompiler.Proofs.Lowering.Native
import QuantumCompiler.Proofs.Optimization.Peephole
import QuantumCompiler.Proofs.Optimization.Runs
import QuantumCompiler.Proofs.Routing.Census

/-!
# What the presets emit

Splitting leaves gates on one or two qubits, routing puts them on couplings, and lowering makes them
native. From then on every pass puts gates only where gates were, and only native ones, so all of this
still holds at the end of the flow.
-/
namespace QuantumCompiler

variable {R : Type} [Scalar R] {device : Device R}

/-! ## Passes one after another -/

namespace Pass

variable {c c' : Compilation R} {p : Pass R} {ps qs : List (Pass R)}

theorem runAll_cons (p : Pass R) (ps : List (Pass R)) (c : Compilation R) :
    runAll (p :: ps) c = (if p.shouldRun c then p.run c else pure c) >>= runAll ps := by
  rw [runAll]
  split <;> rfl

theorem runAll_append (ps qs : List (Pass R)) (c : Compilation R) :
    runAll (ps ++ qs) c = runAll ps c >>= runAll qs := by
  induction ps generalizing c with
  | nil => rfl
  | cons p ps ih =>
    rw [List.cons_append, runAll_cons, runAll_cons, bind_assoc, funext ih]

theorem runAll_of_shouldRun (hp : p.shouldRun c = true) :
    runAll (p :: ps) c = p.run c >>= runAll ps := by
  rw [runAll_cons, if_pos hp]

theorem runAll_singleton (hp : p.shouldRun c = true) : runAll [p] c = p.run c :=
  (runAll_of_shouldRun hp).trans (bind_pure _)

/-- What every pass keeps is kept. -/
theorem runAll_keeps {I : Compilation R → Prop}
    (hps : ∀ p ∈ ps, ∀ c c', I c → p.run c = .ok c' → I c') (hc : I c)
    (h : runAll ps c = .ok c') : I c' := by
  induction ps generalizing c with
  | nil => exact Except.ok.inj h ▸ hc
  | cons p ps ih =>
    rw [runAll_cons] at h
    obtain ⟨c₁, hone, h⟩ := Outcome.bind_eq_ok.mp h
    refine ih (fun q hq => hps q (by simp [hq])) ?_ h
    split at hone
    · exact hps p (by simp) c c₁ hc hone
    · exact Except.ok.inj hone ▸ hc

/-- Passes that never fail come to an end. -/
theorem exists_runAll {I : Compilation R → Prop}
    (hps : ∀ p ∈ ps, ∀ c, I c → ∃ c', p.run c = .ok c' ∧ I c') (hc : I c) :
    ∃ c', runAll ps c = .ok c' ∧ I c' := by
  induction ps generalizing c with
  | nil => exact ⟨c, rfl, hc⟩
  | cons p ps ih =>
    have hone : ∃ c₁, (if p.shouldRun c then p.run c else pure c) = .ok c₁ ∧ I c₁ := by
      split
      · exact hps p (by simp) c hc
      · exact ⟨c, rfl, hc⟩
    obtain ⟨c₁, hone, hc₁⟩ := hone
    obtain ⟨c', hrest, hc'⟩ := ih (fun q hq => hps q (by simp [hq])) hc₁
    refine ⟨c', ?_, hc'⟩
    rw [runAll_cons, hone]
    exact hrest

omit [Scalar R] in
theorem untilStable_keeps {I : Compilation R → Prop}
    {body : Compilation R → Compile R (Compilation R)}
    (hbody : ∀ c c', I c → body c = .ok c' → I c') (rounds : Nat) (hc : I c)
    (h : untilStable body rounds c = .ok c') : I c' := by
  induction rounds generalizing c with
  | zero => exact Except.ok.inj h ▸ hc
  | succ rounds ih =>
    obtain ⟨next, hnext, h⟩ := Outcome.bind_eq_ok.mp h
    have hn := hbody c next hc hnext
    split at h
    · exact ih hn h
    · exact Except.ok.inj h ▸ hn

end Pass

/-! ## From pass to pass -/

/-- A compilation for a device, whose circuit has only instructions with a property. -/
structure Compilation.Has (device : Device R) (P : Instruction R → Prop) (c : Compilation R) :
    Prop where
  device : c.device = some device
  dag : c.dag.HasOnly P

/-- Gates act on qubits only, on one or on two. -/
def Instruction.Split (i : Instruction R) : Prop :=
  i.Plain ∧ (i.isGate = true → i.qubits.length ≤ 2)

/-- The device admits the gate, and it has it. -/
def Device.Executes (device : Device R) (i : Instruction R) : Prop :=
  device.Admits i ∧ device.isNative i = true

section Steps

open Compilation (Has)

variable {c c' : Compilation R} {P : Instruction R → Prop}

omit [Scalar R] in
theorem target_eq (h : c.device = some device) : c.target = .ok device := by
  rw [Compilation.target, h]

theorem has_searchLayout (hb : device.Built) (hinitial : c.initial = none)
    (h : c.Has device Instruction.Split) {options : SearchOptions R} {fallback : Heuristic}
    (he : Pass.run (.searchLayout options fallback) c = .ok c') : c'.Has device device.Admits := by
  obtain ⟨es, hr⟩ := h.dag.reachable.exists_reads
  have hn : Layout.Narrow c.dag := fun id i hi => (h.dag.all id i hi).2
  rw [Pass.run, Compilation.edited, Compilation.edit_searchLayout h.device, hinitial] at he
  rcases Routing.search_spec hb hr hn options fallback with
    ⟨-, -, r, hs, hreal⟩ | ⟨-, -, reason, hs⟩ | ⟨-, hs⟩
  · rw [hs] at he
    obtain rfl := Except.ok.inj he
    exact ⟨h.device, hreal.hasOnly h.dag⟩
  · rw [hs] at he
    cases he
  · rw [hs] at he
    cases he

theorem has_lower (hP : ∀ i j, i.isGate = true → P i → j.Narrow i.qubits → P j)
    (h : c.Has device P) {family : Option EulerFamily}
    (he : Pass.run (.lower family) c = .ok c') :
    c'.Has device fun i => P i ∧ device.isNative i = true := by
  rw [Pass.run, target_eq h.device] at he
  obtain ⟨_, ⟨⟩, he⟩ := Outcome.bind_eq_ok.mp he
  obtain ⟨d, hd, he⟩ := Outcome.bind_eq_ok.mp he
  obtain rfl := Except.ok.inj he
  exact ⟨h.device, Basis.hasOnly_lowerAll hP h.dag hd⟩

/-- Combining gates never fails. -/
theorem exists_combine (h : c.Has device device.Executes) :
    ∃ c', Pass.run .combine c = .ok c' ∧ c'.Has device device.Executes := by
  obtain ⟨d, hd, hh⟩ := Peephole.hasOnly_all (fun i hi hg => (hi.1 hg).1)
    (fun i g g' hi hg hname _ => by
      have hgate := Instruction.isGate_of_standard? hg
      refine ⟨fun _ => ⟨rfl, (hi.1 hgate).2⟩, ?_⟩
      have hnative := hi.2
      rw [Device.isNative, Instruction.name_of_standard? hg, ← hname] at hnative
      exact hnative) h.dag
  refine ⟨{ c with dag := d }, ?_, h.device, hh⟩
  rw [Pass.run, hd]
  rfl

theorem has_resynthesize (h : c.Has device device.Executes) {family : Option EulerFamily}
    (he : Pass.run (.resynthesize family) c = .ok c') : c'.Has device device.Executes := by
  rw [Pass.run] at he
  obtain ⟨d, hd, he⟩ := Outcome.bind_eq_ok.mp he
  obtain rfl := Except.ok.inj he
  rw [h.device] at hd
  have hone : ∀ g q, Runs.executedBy (some device) g = true →
      device.Executes (.ofStandard g [q]) := fun g q hg => ⟨fun _ => ⟨rfl, .inl ⟨q, rfl⟩⟩, hg⟩
  exact ⟨h.device, Runs.hasOnly_all hone h.dag hd⟩

theorem exists_checkCouplings (h : c.Has device device.Executes) :
    ∃ census, Pass.run .checkCouplings c = .ok { c with census := some census } := by
  obtain ⟨census, hc⟩ := Census.exists_ofDag (h.dag.imp fun _ hi => hi.1)
  refine ⟨census, ?_⟩
  rw [Pass.run, target_eq h.device]
  change (do return { c with census := some (← Census.ofDag device c.dag) } : Compile R _) = _
  rw [hc]
  rfl

end Steps

/-! ## Up to splitting -/

section Preparation

variable {d e : Dag R}

theorem plain_bindAll (h : d.HasOnly Instruction.Plain ∨ d.Cyclic) {values : Assignment R}
    (he : d.bindAll values = .ok e) : e.HasOnly Instruction.Plain ∨ e.Cyclic := by
  refine h.imp (fun h => ?_) (·.bindAll he)
  obtain ⟨es, hr⟩ := h.reachable.exists_reads
  obtain ⟨e', he', hr', -⟩ := hr.bindAll values
  obtain rfl : e' = e := Except.ok.inj (he'.symm.trans he)
  rw [hr'.hasOnly_iff]
  intro j hj
  obtain ⟨y, hy, rfl⟩ := List.mem_map.mp hj
  obtain ⟨x, hx, rfl⟩ := List.mem_map.mp hy
  have hs := x.2.sameBut_bound values
  have hp := hr.hasOnly_iff.mp h x.2 (List.mem_map_of_mem hx)
  intro hg
  rw [hs.clbits, hs.qubits]
  exact hp (hs.isGate ▸ hg)

/-- Splitting reads the graph, so it does not get past one that cannot be read. -/
theorem split_splitAll (h : d.HasOnly Instruction.Plain ∨ d.Cyclic)
    (he : Wide.splitAll d = .ok e) : e.HasOnly Instruction.Split := by
  rcases h with h | h
  · exact Wide.hasOnly_splitAll h he
  · rw [Wide.splitAll, Dag.lowerWhere, h.topologicalOps_eq] at he
    cases he

end Preparation

namespace Flow

variable {o : CompileOptions R}

/-- The passes of a preset before any placement. -/
def preparation (o : CompileOptions R) : Flow R :=
  (if o.parameters.isEmpty then [] else [.bindParameters o.parameters]) ++ [.splitWide]

def optimization (o : CompileOptions R) : Flow R :=
  if min o.level 3 ≤ 2 then [.combine, .resynthesize o.family]
  else [.fixedPoint [.combine, .resynthesize o.family] maxRounds]

/-- The passes of a preset that routes, up to the check at its end. -/
def front (o : CompileOptions R) : Flow R :=
  preparation o ++ [.searchLayout o.search (.ofLevel (min o.level 3)), .lower o.family] ++
    optimization o

omit [Scalar R] in
theorem preset_of_zero (h : o.level = 0) : preset o = preparation o ++ [.lower o.family] := by
  simp [preset, preparation, h]

omit [Scalar R] in
theorem preset_of_pos (h : 1 ≤ o.level) : preset o = front o ++ [.checkCouplings] := by
  have hne : min o.level 3 ≠ 0 := by omega
  simp [preset, front, preparation, optimization, hne]

theorem run_eq_ok {flow : Flow R} {cancelled : Bool} {c c' : Compilation R}
    (h : flow.run cancelled c = .ok c') : Pass.runAll flow c = .ok c' := by
  unfold Flow.run at h
  split at h
  · cases h
  · exact h

theorem run_uncancelled (flow : Flow R) (c : Compilation R) :
    flow.run false c = Pass.runAll flow c := by
  cases flow <;> rfl

end Flow

section Presets

variable {o : CompileOptions R} {circuit : Circuit R} {d : Dag R} {c : Compilation R}

theorem has_preparation (hg : ∀ i ∈ circuit.instructions, i.Plain)
    (hd : circuit.toDag = .ok d)
    (h : Pass.runAll (Flow.preparation o) (.ofDag d (some device) none) = .ok c) :
    c.Has device Instruction.Split ∧ c.initial = none := by
  have hopen : d.HasOnly Instruction.Plain ∨ d.Cyclic :=
    (Circuit.reads_or_cyclic_of_toDag hd).imp_left fun ⟨es, hr, hes, _⟩ =>
      hr.hasOnly_iff.mpr (hes ▸ hg)
  rw [Flow.preparation, Pass.runAll_append] at h
  obtain ⟨c₁, hbind, h⟩ := Outcome.bind_eq_ok.mp h
  obtain ⟨d₁, rfl, hopen⟩ : ∃ d₁, c₁ = .ofDag d₁ (some device) none ∧
      (d₁.HasOnly Instruction.Plain ∨ d₁.Cyclic) := by
    split at hbind
    · exact ⟨d, (Except.ok.inj hbind).symm, hopen⟩
    · rename_i hne
      rw [Pass.runAll_singleton (by simpa [Pass.shouldRun] using hne), Pass.run] at hbind
      obtain ⟨d₁, hd₁, hbind⟩ := Outcome.bind_eq_ok.mp hbind
      exact ⟨d₁, (Except.ok.inj hbind).symm, plain_bindAll hopen hd₁⟩
  rw [Pass.runAll_singleton rfl, Pass.run] at h
  obtain ⟨e, he, h⟩ := Outcome.bind_eq_ok.mp h
  obtain rfl := Except.ok.inj h
  exact ⟨⟨rfl, split_splitAll hopen he⟩, rfl⟩

theorem has_optimization {c' : Compilation R} (h : c.Has device device.Executes)
    (he : Pass.runAll (Flow.optimization o) c = .ok c') : c'.Has device device.Executes := by
  have hpair {c c' : Compilation R} (h : c.Has device device.Executes)
      (he : Pass.runAll [.combine, .resynthesize o.family] c = .ok c') :
      c'.Has device device.Executes := by
    refine Pass.runAll_keeps (I := (·.Has device device.Executes)) ?_ h he
    simp only [List.forall_mem_cons]
    refine ⟨fun c c' h he => ?_, fun _ _ h he => has_resynthesize h he, nofun⟩
    obtain ⟨c₁, h₁, hh⟩ := exists_combine h
    exact Except.ok.inj (h₁.symm.trans he) ▸ hh
  rw [Flow.optimization] at he
  split at he
  · exact hpair h he
  · rw [Pass.runAll_singleton rfl, Pass.run] at he
    exact Pass.untilStable_keeps (I := (·.Has device device.Executes)) (fun _ _ => hpair) _ h he

/-- Before the check at the end of a preset that routes, the device executes every operation. -/
theorem has_front (hb : device.Built) (hg : ∀ i ∈ circuit.instructions, i.Plain)
    (hd : circuit.toDag = .ok d)
    (h : Pass.runAll (Flow.front o) (.ofDag d (some device) none) = .ok c) :
    c.Has device device.Executes := by
  rw [Flow.front, Pass.runAll_append, Pass.runAll_append] at h
  obtain ⟨c₁, h, hopt⟩ := Outcome.bind_eq_ok.mp h
  obtain ⟨c₂, hprep, h⟩ := Outcome.bind_eq_ok.mp h
  obtain ⟨hsplit, hinitial⟩ := has_preparation hg hd hprep
  rw [Pass.runAll_of_shouldRun rfl] at h
  obtain ⟨c₃, hsearch, hlower⟩ := Outcome.bind_eq_ok.mp h
  rw [Pass.runAll_singleton rfl] at hlower
  have hrouted := has_searchLayout hb hinitial hsplit hsearch
  exact has_optimization (has_lower (fun i j hg hi hj => hi.narrow hg hj) hrouted hlower) hopt

end Presets

namespace Compiler

/-- The product of fidelities is known when every factor is. -/
theorem isSome_fidelityOf {pairs : List (Qubit × Qubit)}
    (h : ∀ p ∈ pairs, (device.fidelity? p.1 p.2).isSome) : (fidelityOf device pairs).isSome := by
  unfold fidelityOf
  refine List.foldlRecOn (motive := fun product : Option R => product.isSome = true) pairs _ rfl ?_
  rintro product hp ⟨a, b⟩ hab
  obtain ⟨x, rfl⟩ := Option.isSome_iff_exists.mp hp
  obtain ⟨f, hf⟩ := Option.isSome_iff_exists.mp (h (a, b) hab)
  simp [hf]

/-- The result has the instructions of the graph at the end. -/
theorem collect_spec {name : String} {used : List Qubit} {c : Compilation R} {es : Dag.Entries R}
    (h : c.dag.Reads es) {result : Compiled R} (hr : collect device name used c = .ok result) :
    result.circuit.instructions = es.map (·.2) ∧
      result.fidelity = fidelityOf device ((es.map (·.2)).filterMap Instruction.pair?) := by
  obtain ⟨circuit, hcircuit, hr⟩ := Outcome.bind_eq_ok.mp hr
  rw [Outcome.ofCircuit_eq_ok, Circuit.ofDag_eq_ok h] at hcircuit
  obtain rfl := Except.ok.inj hcircuit
  obtain rfl := Except.ok.inj hr
  exact ⟨rfl, rfl⟩

variable {o : CompileOptions R} {compiler : Compiler R} {circuit : Circuit R}

theorem ofOptions_eq_ok (h : ofOptions device o = .ok compiler) :
    compiler = ⟨device, .preset o⟩ := by
  obtain ⟨_, -, h⟩ := Outcome.bind_eq_ok.mp h
  obtain ⟨_, -, h⟩ := Outcome.bind_eq_ok.mp h
  exact (Except.ok.inj h).symm

theorem exists_collect {name : String} {used : List Qubit} {c : Compilation R}
    {es : Dag.Entries R} (h : c.dag.Reads es) :
    ∃ result, collect device name used c = .ok result :=
  ⟨_, Outcome.bind_eq_ok.mpr ⟨_, Outcome.ofCircuit_eq_ok.mpr (Circuit.ofDag_eq_ok h), rfl⟩⟩

theorem compile_eq {cancelled : Bool} {d : Dag R} {c : Compilation R}
    (hw : circuit.numQubits ≤ compiler.device.numQubits) (hd : circuit.toDag = .ok d)
    (hc : compiler.flow.run cancelled (.ofDag d (some compiler.device) none) = .ok c) :
    compiler.compile circuit cancelled = collect compiler.device circuit.name d.qubitsUsed c := by
  rw [compile, if_neg (Nat.not_lt.mpr hw), hd]
  change (compiler.flow.run cancelled _ >>= _) = _
  rw [hc]
  rfl

theorem run_of_compile {cancelled : Bool} {result : Compiled R}
    (h : compiler.compile circuit cancelled = .ok result) :
    ∃ d c, circuit.toDag = .ok d ∧
      Pass.runAll compiler.flow (.ofDag d (some compiler.device) none) = .ok c ∧
      collect compiler.device circuit.name d.qubitsUsed c = .ok result := by
  rw [compile] at h
  split at h
  · cases h
  · obtain ⟨d, hd, h⟩ := Outcome.bind_eq_ok.mp h
    obtain ⟨c, hc, h⟩ := Outcome.bind_eq_ok.mp h
    exact ⟨d, c, Outcome.ofCircuit_eq_ok.mp hd, Flow.run_eq_ok hc, h⟩

theorem admits_of_collect {name : String} {used : List Qubit} {c : Compilation R}
    {result : Compiled R} (hc : c.Has device device.Executes)
    (hr : collect device name used c = .ok result) :
    (∀ i ∈ result.circuit.instructions, device.Executes i) ∧ result.fidelity.isSome := by
  obtain ⟨es, h⟩ := hc.dag.reachable.exists_reads
  have hall := h.hasOnly_iff.mp hc.dag
  obtain ⟨his, hfid⟩ := collect_spec h hr
  rw [his, hfid]
  refine ⟨hall, isSome_fidelityOf fun p hp => ?_⟩
  obtain ⟨i, hi, hp⟩ := List.mem_filterMap.mp hp
  exact (hall i hi).1.isSome_fidelity? hp

/-- Every preset emits what the device executes. Whatever comes out is in its basis, and above level 0
every gate is on one qubit or on two coupled ones, so the fidelity is known, and the check at the end
passes whenever it is reached. -/
theorem executes_of_compile (hb : device.Built) (hc : ofOptions device o = .ok compiler)
    (hg : ∀ i ∈ circuit.instructions, i.isGate = true → i.clbits = [] ∧ i.qubits ≠ [])
    (cancelled : Bool) :
    (∀ result, compiler.compile circuit cancelled = .ok result →
      (∀ i ∈ result.circuit.instructions, device.basis.contains i.name = true) ∧
      (1 ≤ o.level →
        (∀ i ∈ result.circuit.instructions, i.isGate = true → (∃ q, i.qubits = [q]) ∨
          ∃ a b, i.qubits = [a, b] ∧ device.isAdjacent a b = true) ∧
        result.fidelity.isSome)) ∧
    (1 ≤ o.level → ∃ front, compiler.flow = front ++ [.checkCouplings] ∧
      ∀ d c, circuit.toDag = .ok d →
        Flow.run front cancelled (.ofDag d (some device) none) = .ok c →
        ∃ c', Pass.run .checkCouplings c = .ok c') := by
  obtain rfl := ofOptions_eq_ok hc
  constructor
  · intro result h
    obtain ⟨d, c, hd, hrun, hcollect⟩ := run_of_compile h
    rcases Nat.eq_zero_or_pos o.level with hzero | hpos
    · rw [Flow.preset_of_zero hzero, Pass.runAll_append] at hrun
      obtain ⟨c₁, hprep, hlower⟩ := Outcome.bind_eq_ok.mp hrun
      rw [Pass.runAll_singleton rfl] at hlower
      have hhas := has_lower (P := fun _ => True) (fun _ _ _ _ _ => trivial)
        ⟨(has_preparation hg hd hprep).1.device,
          (has_preparation hg hd hprep).1.dag.imp fun _ _ => trivial⟩ hlower
      obtain ⟨es, hr⟩ := hhas.dag.reachable.exists_reads
      refine ⟨fun i hi => ?_, fun hpos => absurd hpos (by omega)⟩
      rw [(collect_spec hr hcollect).1] at hi
      exact (hr.hasOnly_iff.mp hhas.dag i hi).2
    · rw [Flow.preset_of_pos hpos, Pass.runAll_append] at hrun
      obtain ⟨c₁, hfront, hcheck⟩ := Outcome.bind_eq_ok.mp hrun
      have hhas := has_front hb hg hd hfront
      obtain ⟨census, hcensus⟩ := exists_checkCouplings hhas
      rw [Pass.runAll_singleton rfl, hcensus] at hcheck
      obtain rfl := Except.ok.inj hcheck
      obtain ⟨hall, hfid⟩ := admits_of_collect ⟨hhas.device, hhas.dag⟩ hcollect
      exact ⟨fun i hi => (hall i hi).2, fun _ => ⟨fun i hi hgate => ((hall i hi).1 hgate).2, hfid⟩⟩
  · intro hpos
    refine ⟨Flow.front o, Flow.preset_of_pos hpos, fun d c hd h => ?_⟩
    obtain ⟨census, hcensus⟩ := exists_checkCouplings (has_front hb hg hd (Flow.run_eq_ok h))
    exact ⟨_, hcensus⟩

section Far

open Layout (Suits)

attribute [local instance] Scalar.real

/-- Three qubits in a row that flip one another and do nothing else. -/
noncomputable def row : Device ℝ := (Device.linear 3).withBasis ⟨["cx"]⟩

/-- A gate between the two ends. -/
noncomputable def ends : Circuit ℝ := .ofInstructions "ends" 3 0 [.ofStandard .cx [0, 2]]

theorem resolveFamily_row : (row.basis.resolveFamily none : Compile ℝ _) = .ok none := rfl

theorem lower_swap_row (a b : Qubit) :
    row.basis.lower none Basis.maxRules (.ofStandard .swap [a, b] : Instruction ℝ) =
      .ok ⟨[.ofStandard .cx [a, b], .ofStandard .cx [b, a], .ofStandard .cx [a, b]], []⟩ := rfl

theorem ofOptions_row : ofOptions row (.ofLevel 1) = .ok ⟨row, .preset (.ofLevel 1)⟩ := by
  have hweight : SearchOptions.isWeight (Scalar.half : ℝ) = true := by
    have hle : ((0 : ℕ) : ℝ) ≤ (5 : ℕ) / 10 ^ 1 := by norm_num
    exact Bool.and_eq_true_iff.mpr ⟨rfl, decide_eq_true hle⟩
  have hvalid : (CompileOptions.ofLevel 1 : CompileOptions ℝ).validate = .ok () := by
    simp [CompileOptions.validate, CompileOptions.ofLevel, SearchOptions.validate,
      SearchOptions.standard, hweight]
    rfl
  rw [ofOptions, hvalid]
  rfl

/-- The graph of the two ends, routed on the row. -/
theorem exists_routed {d : Dag ℝ} {es : Dag.Entries ℝ} (h : d.Reads es) (hq : d.numQubits = 3)
    (hes : es.map (·.2) = ends.instructions) (options : SearchOptions ℝ) (fallback : Heuristic) :
    ∃ r, Routing.search row options fallback d none = .ok r ∧ Routing.Realizes row d r.dag := by
  have hmem {id : Nat} {i : Instruction ℝ} (hi : d.instruction? id = some i) :
      i = .ofStandard .cx [0, 2] := by
    have hm : i ∈ ends.instructions := hes ▸ List.mem_map_of_mem (f := (·.2)) (h.mem_iff.mpr hi)
    exact List.mem_singleton.mp hm
  have hn : Layout.Narrow d := by
    intro id i hi _
    rw [hmem hi]
    exact le_rfl
  have hconnected : row.Connected 0 2 := by
    have h01 : row.isAdjacent 0 1 = true := rfl
    have h12 : row.isAdjacent 1 2 = true := rfl
    exact (Relation.ReflTransGen.single h01 : row.Connected 0 1).tail h12
  have hs : Suits row d id := by
    refine ⟨fun q hlt => hlt.trans_eq hq, fun p _ q _ h => h, ?_⟩
    intro k i a b hi _ hab
    rw [hmem hi] at hab
    obtain ⟨rfl, rfl⟩ : 0 = a ∧ 2 = b := by
      simpa [Instruction.ofStandard, Instruction.ofGate] using hab
    exact hconnected
  rcases Routing.search_spec (.withBasis (.linear 3) _) h hn options fallback with
    ⟨-, -, r, hr, hreal⟩ | ⟨-, hno, -⟩ | ⟨hlt, -⟩
  · exact ⟨r, hr, hreal⟩
  · exact absurd ⟨_, hs⟩ hno
  · exact absurd hlt (by rw [hq]; exact lt_irrefl 3)

/-- What is routed on the row can be lowered there. -/
theorem exists_lowered {d e : Dag ℝ} (h : Routing.Realizes row d e)
    (hd : ∀ id i, d.instruction? id = some i → i = .ofStandard .cx [0, 2]) :
    ∃ f, Basis.lowerAll row none e = .ok f := by
  obtain ⟨es, hr⟩ := h.reachable.exists_reads
  refine Basis.exists_lowerAll resolveFamily_row hr fun x hx hnot => ?_
  rcases h.written x.1 x.2 (hr.mem_iff.mp hx) with ⟨a, b, hswap, -⟩ | ⟨k, i, p, hi, -, hmoved⟩
  · rw [hswap]
    exact ⟨_, lower_swap_row a b, (by decide : 3 ≤ maxIndex)⟩
  · rw [hmoved, hd k i hi] at hnot
    cases hnot

/-- The flow comes to the check at its end. -/
theorem exists_front {d : Dag ℝ} {es : Dag.Entries ℝ} (h : d.Reads es) (hq : d.numQubits = 3)
    (hes : es.map (·.2) = ends.instructions) :
    ∃ c, Pass.runAll (Flow.front (.ofLevel 1)) (.ofDag d (some row) none) = .ok c ∧
      c.Has row row.Executes := by
  have hcx : ∀ id i, d.instruction? id = some i → i = .ofStandard .cx [0, 2] := by
    intro id i hi
    have hm := List.mem_map_of_mem (f := (·.2)) (h.mem_iff.mpr hi)
    rw [hes] at hm
    exact List.mem_singleton.mp hm
  have hsplit : Wide.splitAll d = .ok d := Wide.splitAll_eq_self h fun x hx => by
    rw [hcx x.1 x.2 (h.mem_iff.mp hx)]
    rfl
  obtain ⟨r, hroute, hreal⟩ := exists_routed h hq hes .standard (.ofLevel 1)
  obtain ⟨f, hlower⟩ := exists_lowered hreal hcx
  have hadmits : r.dag.HasOnly row.Admits := hreal.hasOnly ⟨h.reachable, fun id i hi => by
    rw [hcx id i hi]
    exact ⟨fun _ => ⟨rfl, nofun⟩, fun _ => le_rfl⟩⟩
  set c₀ : Compilation ℝ := .ofDag d (some row) none
  have hsearch : Pass.run (.searchLayout .standard (.ofLevel 1)) c₀ = .ok (c₀.install r) := by
    have hroute' : Routing.search row .standard (.ofLevel 1) c₀.dag c₀.initial = .ok r := hroute
    rw [Pass.run, Compilation.edited, Compilation.edit_searchLayout rfl, hroute']
  have hhas : Compilation.Has row row.Executes { c₀.install r with dag := f } :=
    ⟨rfl, Basis.hasOnly_lowerAll (fun i j hg hi hj => hi.narrow hg hj) hadmits hlower⟩
  have hpasses : ∀ p ∈ ([.combine, .resynthesize none] : List (Pass ℝ)), ∀ c : Compilation ℝ,
      c.Has row row.Executes → ∃ c', p.run c = .ok c' ∧ c'.Has row row.Executes := by
    simp only [List.forall_mem_cons]
    refine ⟨fun c hc => exists_combine hc, fun c hc => ⟨c, ?_, hc⟩, nofun⟩
    have hsame : Runs.all c.device none c.dag = .ok c.dag := by
      rw [hc.device]
      rfl
    rw [Pass.run, hsame]
    rfl
  obtain ⟨c, hc, hend⟩ := Pass.exists_runAll hpasses hhas
  refine ⟨c, ?_, hend⟩
  have hfront : Flow.front (.ofLevel 1 : CompileOptions ℝ) =
      .splitWide :: .searchLayout .standard (.ofLevel 1) :: .lower none ::
        [.combine, .resynthesize none] := rfl
  rw [hfront, Pass.runAll_of_shouldRun rfl, Pass.run]
  change ((Wide.splitAll d >>= _) >>= _) = _
  rw [hsplit]
  change Pass.runAll (.searchLayout .standard (.ofLevel 1) :: _) c₀ = _
  rw [Pass.runAll_of_shouldRun rfl, hsearch]
  change Pass.runAll (.lower none :: _) (c₀.install r) = _
  rw [Pass.runAll_of_shouldRun rfl, Pass.run]
  change ((Basis.lowerAll row none r.dag >>= _) >>= _) = _
  rw [hlower]
  exact hc

theorem executes_ends : ∃ compiler result, ofOptions row (.ofLevel 1) = .ok compiler ∧
    compiler.compile ends false = .ok result ∧
    (∀ i ∈ result.circuit.instructions, row.basis.contains i.name = true) ∧
    result.fidelity.isSome := by
  have hplain : ∀ i ∈ ends.instructions, i.isGate = true → i.clbits = [] ∧ i.qubits ≠ [] := by
    simp [ends, Circuit.ofInstructions, Instruction.ofStandard, Instruction.ofGate]
  obtain ⟨d, es, hd, hr, hes, hq⟩ := Circuit.exists_toDag (c := ends)
    (List.forall_mem_singleton.mpr rfl) (List.forall_mem_singleton.mpr List.nodup_nil)
  obtain ⟨c, hc, hhas⟩ := exists_front hr hq hes
  obtain ⟨census, hcensus⟩ := exists_checkCouplings hhas
  obtain ⟨es', hr'⟩ := hhas.dag.reachable.exists_reads
  obtain ⟨result, hresult⟩ : ∃ result,
      collect row ends.name d.qubitsUsed { c with census := some census } = .ok result :=
    exists_collect hr'
  have hcompile : compile ⟨row, .preset (.ofLevel 1)⟩ ends false = .ok result := by
    have hflow : Flow.run (.preset (.ofLevel 1)) false (.ofDag d (some row) none) =
        .ok { c with census := some census } := by
      rw [Flow.run_uncancelled, Flow.preset_of_pos le_rfl, Pass.runAll_append, hc]
      exact (Pass.runAll_singleton rfl).trans hcensus
    rw [compile_eq le_rfl hd hflow, hresult]
  have hall := (executes_of_compile (.withBasis (.linear 3) _) ofOptions_row hplain false).1 result
    hcompile
  exact ⟨_, result, ofOptions_row, hcompile, hall.1, (hall.2 le_rfl).2⟩

end Far
end Compiler

end QuantumCompiler
