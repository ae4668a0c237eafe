import QuantumCompiler.Proofs.Dag.Accepted
import QuantumCompiler.Proofs.Flow.Readings
import QuantumCompiler.Proofs.Routing.Trace

/-!
# Where measurements end up

Routing writes a measurement as early as it can, on the physical qubit where its qubit sits by then, and
may swap that qubit away afterwards or read the place again for another one. The map of a result lists
the physical qubits that were read; it agrees with the final layout for every qubit that is not moved
after it was read.
-/
namespace QuantumCompiler

variable {R : Type} [Scalar R]

/-- The pass moves a circuit to the qubits of a device. -/
def Pass.routes : Pass R → Bool
  | route .. | searchLayout .. => true
  | _ => false

namespace Flow

/-- The passes up to the first one that routes. -/
def upToRouting (flow : Flow R) : Flow R := flow.take (flow.findIdx Pass.routes + 1)

omit [Scalar R] in
theorem upToRouting_append {front rest : Flow R} {p : Pass R} (hf : ∀ q ∈ front, q.routes = false)
    (hp : p.routes = true) : upToRouting (front ++ p :: rest) = front ++ [p] := by
  have hidx : (front ++ p :: rest).findIdx Pass.routes = front.length := by
    rw [List.findIdx_append, List.findIdx_eq_length.mpr hf, if_neg (lt_irrefl _),
      List.findIdx_cons, hp]
    exact Nat.zero_add _
  rw [upToRouting, hidx, List.take_append]
  simp

omit [Scalar R] in
theorem routes_of_mem_preparation {o : CompileOptions R} {p : Pass R} (h : p ∈ preparation o) :
    p.routes = false := by
  unfold preparation at h
  split at h
  · obtain rfl := List.mem_singleton.mp h
    rfl
  · simp only [List.cons_append, List.nil_append, List.mem_cons, List.not_mem_nil, or_false] at h
    rcases h with rfl | rfl <;> rfl

end Flow

namespace Compiler

open Sweep (replay swapGate Rests Marked)

variable {device : Device R} {compiler : Compiler R} {circuit : Circuit R} {result : Compiled R}

/-- The compilers that route for a device. -/
inductive Routes (device : Device R) : Compiler R → Prop
  /-- A preset above level 0. -/
  | preset {o : CompileOptions R} {compiler : Compiler R} (h : ofOptions device o = .ok compiler)
    (hlevel : 1 ≤ o.level) : Routes device compiler
  /-- Splitting, the trivial layout and routing from it. -/
  | trivial (options : SearchOptions R) (fallback : Heuristic) :
    Routes device ⟨device, [.splitWide, .trivialLayout, .route options fallback]⟩

/-- How a compiler has routed a circuit: where the qubits sit at first, and the operations over physical
qubits as routing wrote them, with a mark at each swap that it inserted. -/
structure Traces (compiler : Compiler R) (circuit : Circuit R) (result : Compiled R)
    (start : Placement) (ops : List (Instruction R × Bool)) : Prop where
  written : ∃ d c, circuit.toDag = .ok d ∧
    Pass.runAll compiler.flow.upToRouting (.ofDag d (some compiler.device) none) = .ok c ∧
    c.dag.linearize = .ok (ops.map Prod.fst)
  isPermutation : start.IsPermutation compiler.device.numQubits
  within : ∀ o ∈ ops, ∀ x ∈ o.1.qubits, x < compiler.device.numQubits
  coupled : ∀ i, (i, true) ∈ ops →
    ∃ a b, i = swapGate (a, b) ∧ compiler.device.isAdjacent a b = true
  single : ∀ o ∈ ops, o.1.isMeasure = true → o.1.qubits.length = 1 ∧ o.1.clbits.length = 1
  /-- Read back, the measurements are those of the circuit. -/
  readings : (readings (replay start ops).1).Perm (readings circuit.instructions)
  measured : ∀ p b, (p, b) ∈ result.measured ↔
    IsLast (QuantumCompiler.readings (ops.map Prod.fst)) p b
  swaps : result.swaps = ops.countP Prod.snd
  initial : ∀ x, x ∈ result.initial ↔
    (∃ i ∈ circuit.instructions, x.1 ∈ i.qubits) ∧ x.2 = start.physical x.1
  final : ∀ x, x ∈ result.final ↔
    (∃ i ∈ circuit.instructions, x.1 ∈ i.qubits) ∧ x.2 = (replay start ops).2.physical x.1

theorem Traces.marked {start : Placement} {ops : List (Instruction R × Bool)}
    (hb : compiler.device.Built) (h : Traces compiler circuit result start ops) :
    Marked compiler.device.numQubits ops := by
  intro i hi
  obtain ⟨a, b, rfl, hab⟩ := h.coupled i hi
  obtain ⟨ha, hb, -⟩ := hb.wellFormed.lt_of_isAdjacent hab
  exact ⟨a, b, rfl, ha, hb⟩

section Parts

variable {d e : Dag R} {es : Dag.Entries R} {c : Compilation R} {options : SearchOptions R}
  {fallback : Heuristic}

/-- A circuit that was just routed. -/
def Installed (device : Device R) (e : Dag R) (c : Compilation R) : Prop :=
  ∃ c₀ r start trial, c = Compilation.install c₀ r ∧ Routing.MadeOf device e r start trial

theorem Installed.reachable (h : Installed device e c) : c.dag.Reachable := by
  obtain ⟨c₀, r, start, trial, rfl, hmade⟩ := h
  obtain ⟨es, hr, -⟩ := hmade.reads
  exact hr.reachable

theorem installed_searchLayout (hb : device.Built) (h : e.Reads es)
    (hc : Pass.run (.searchLayout options fallback) (.ofDag e (some device) none) = .ok c) :
    Installed device e c := by
  rw [Pass.run, Compilation.edited, Compilation.edit_searchLayout rfl] at hc
  cases hs : Routing.search device options fallback e none with
  | error x =>
    simp only [Compilation.ofDag, hs] at hc
    cases hc
  | ok r =>
    simp only [Compilation.ofDag, hs] at hc
    obtain rfl := Except.ok.inj hc
    obtain ⟨start, trial, hmade⟩ := Routing.madeOf_search h hb hs
    exact ⟨_, r, start, trial, rfl, hmade⟩

theorem installed_route (hb : device.Built) (h : e.Reads es)
    (hc : Pass.runAll [.trivialLayout, .route options fallback] (.ofDag e (some device) none) =
      .ok c) : Installed device e c := by
  rw [Pass.runAll_of_shouldRun rfl] at hc
  obtain ⟨c₀, hlayout, hc⟩ := Outcome.bind_eq_ok.mp hc
  obtain ⟨_, ⟨⟩, hlayout⟩ := Outcome.bind_eq_ok.mp hlayout
  obtain ⟨layout, -, hlayout⟩ := Outcome.bind_eq_ok.mp hlayout
  obtain rfl := Except.ok.inj hlayout
  rw [Pass.runAll_singleton rfl] at hc
  obtain ⟨_, ⟨⟩, hc⟩ := Outcome.bind_eq_ok.mp hc
  obtain ⟨r, hr, hc⟩ := Outcome.bind_eq_ok.mp hc
  obtain rfl := Except.ok.inj hc
  obtain ⟨start, trial, hmade⟩ := Routing.madeOf_fromLayout h hb hr
  exact ⟨_, r, start, trial, rfl, hmade⟩

omit [Scalar R] in
theorem Routes.device_eq [Scalar R] (h : Routes device compiler) : compiler.device = device := by
  cases h with
  | preset h => rw [ofOptions_eq_ok h]
  | trivial => rfl

/-- A flow that routes prepares the circuit, routes it, and keeps readings and places from then on. -/
theorem Routes.exists_parts (hb : device.Built) (h : Routes device compiler) :
    ∃ (o : CompileOptions R) (routing finish : Flow R),
      compiler.flow = Flow.preparation o ++ routing ++ finish ∧
      compiler.flow.upToRouting = Flow.preparation o ++ routing ∧
      (∀ (e : Dag R) (es : Dag.Entries R) (c : Compilation R), e.Reads es →
        Pass.runAll routing (.ofDag e (some device) none) = .ok c → Installed device e c) ∧
      ∀ c c' : Compilation R, c.dag.Reachable → Pass.runAll finish c = .ok c' → c.Settles c' := by
  cases h with
  | @preset o _ h hlevel =>
    obtain rfl := ofOptions_eq_ok h
    have hflow : Flow.preset o = Flow.preparation o ++
        .searchLayout o.search (.ofLevel (min o.level 3)) ::
          .lower o.family :: (Flow.optimization o ++ [.checkCouplings]) := by
      rw [Flow.preset_eq, Flow.rest, if_neg (by omega)]
    refine ⟨o, [.searchLayout o.search (.ofLevel (min o.level 3))],
      .lower o.family :: (Flow.optimization o ++ [.checkCouplings]), by simpa using hflow, ?_, ?_,
      fun _ _ => settles_finish⟩
    · exact (congrArg _ hflow).trans
        (Flow.upToRouting_append (fun _ => Flow.routes_of_mem_preparation) rfl)
    · intro e es c he hc
      rw [Pass.runAll_singleton rfl] at hc
      exact installed_searchLayout hb he hc
  | trivial options fallback =>
    refine ⟨.ofLevel 0, [.trivialLayout, .route options fallback], [], rfl, rfl,
      fun _ _ _ => installed_route hb, fun c c' hc he => ?_⟩
    obtain rfl := Except.ok.inj he
    exact ⟨hc, rfl, rfl, rfl, rfl, rfl⟩

/-- The way of a circuit through a flow that routes. -/
theorem exists_installed (hb : device.Built) (hr : Routes device compiler)
    (hd : circuit.toDag = .ok d)
    (hc : Pass.runAll compiler.flow (.ofDag d (some device) none) = .ok c) :
    ∃ es e c₁, d.Reads es ∧ es.map (·.2) = circuit.instructions ∧
      e.readout = readings circuit.instructions ∧ e.HasOnly Wide.Single ∧
      e.numQubits = d.numQubits ∧
      Pass.runAll compiler.flow.upToRouting (.ofDag d (some device) none) = .ok c₁ ∧
      Installed device e c₁ ∧ c₁.Settles c := by
  obtain ⟨o, routing, finish, hflow, hup, hinstalls, hsettles⟩ := hr.exists_parts hb
  rw [hflow, Pass.runAll_append] at hc
  obtain ⟨c₁, hc₁, hfinish⟩ := Outcome.bind_eq_ok.mp hc
  have hsplit := hc₁
  rw [Pass.runAll_append] at hsplit
  obtain ⟨c₀, hprep, hrouting⟩ := Outcome.bind_eq_ok.mp hsplit
  obtain ⟨es, hreads, hes⟩ := reads_of_preparation hd hprep
  obtain ⟨e, rfl, hread, hsingle, hq⟩ := readout_preparation hreads hprep
  obtain ⟨es', hreads'⟩ := hsingle.reachable.exists_reads
  have hinstalled := hinstalls e es' c₁ hreads' hrouting
  exact ⟨es, e, c₁, hreads, hes, hes ▸ hread, hsingle, hq, hup ▸ hc₁, hinstalled,
    hsettles c₁ c hinstalled.reachable hfinish⟩

/-- The result of a compilation, with what its parts are read from. -/
theorem of_collect {name : String} {used : List Qubit} (h : c.dag.Reachable)
    (hr : collect device name used c = .ok result) :
    (∀ p b, (p, b) ∈ result.measured ↔ IsLast c.dag.readout p b) ∧
      result.initial = placesOf c.initial used ∧
      result.final = placesOf (c.final.or c.initial) used ∧
      result.swaps = (c.routing.map RoutingStats.swaps).getD 0 := by
  obtain ⟨es, hreads⟩ := h.exists_reads
  obtain ⟨circuit, hcircuit, hr⟩ := Outcome.bind_eq_ok.mp hr
  rw [Outcome.ofCircuit_eq_ok, Circuit.ofDag_eq_ok hreads] at hcircuit
  obtain rfl := Except.ok.inj hcircuit
  obtain rfl := Except.ok.inj hr
  rw [hreads.readout_eq]
  exact ⟨fun p b => mem_measurements, rfl, rfl, rfl⟩

/-- The places of a result are read from the layout of a placement. -/
theorem mem_placesOf_toLayout {p : Placement} {n : Nat} (hp : p.IsPermutation n) (hw : p.width ≤ n)
    {used : List Qubit} (hu : ∀ q ∈ used, q < p.width) {x : Qubit × Qubit} :
    x ∈ placesOf (some p.toLayout) used ↔ x.1 ∈ used ∧ x.2 = p.physical x.1 := by
  have hplace : ∀ q ∈ used, ((some p.toLayout).bind (·.physical? q)).getD q = p.physical q :=
    fun q hq => congrArg (·.getD q) (Placement.physical?_toLayout hp hw (hu q hq))
  rw [placesOf, List.mem_map]
  constructor
  · rintro ⟨q, hq, rfl⟩
    exact ⟨hq, hplace q hq⟩
  · rintro ⟨hq, hx⟩
    exact ⟨x.1, hq, Prod.ext rfl ((hplace x.1 hq).trans hx.symm)⟩

end Parts

/-- Routing moves measurements, and so leaves them on one qubit each. -/
theorem single_of_routes (hd : device.WellFormed) {e : Dag R} (hsingle : e.HasOnly Wide.Single)
    {direction : Direction} {start : Placement} {trial : Trial R} {inserted : List Bool}
    {order : List Nat} (h : Sweep.Routes e direction device start trial inserted order) :
    ∀ o ∈ trial.output.zip inserted, o.1.isMeasure = true →
      o.1.qubits.length = 1 ∧ o.1.clbits.length = 1 := by
  intro o ho hm
  obtain ⟨es, hr⟩ := hsingle.reachable.exists_reads
  rcases h.exists_mapQubits hd hr ho with ⟨a, b, heq⟩ | ⟨f, hf⟩
  · rw [heq] at hm
    cases hm
  · obtain ⟨hqs, hcs⟩ := (hr.hasOnly_iff.mp hsingle _ hf).2 hm
    exact ⟨by simpa [Instruction.mapQubits] using hqs, hcs⟩

/-- What a flow that routes makes of a circuit is traced. -/
theorem exists_traces (hb : device.Built) (hr : Routes device compiler) {cancelled : Bool}
    (h : compiler.compile circuit cancelled = .ok result) :
    ∃ start ops, Traces compiler circuit result start ops := by
  obtain ⟨d, c', hd, hrun, hcollect⟩ := run_of_compile h
  obtain rfl := hr.device_eq
  obtain ⟨es, e, c₁, hreads, hes, hread, hsingle, hq, hup, ⟨c₀, r, start, trial, rfl, hmade⟩,
    hsettles⟩ := exists_installed hb hr hd hrun
  obtain ⟨inserted, order, hroutes⟩ := hmade.routes
  obtain ⟨fs, hfs⟩ := hsingle.reachable.exists_reads
  obtain ⟨hmeasured, hinitial, hfinal, hswaps⟩ := of_collect hsettles.reachable hcollect
  have hfst : (trial.output.zip inserted).map Prod.fst = trial.output :=
    List.map_fst_zip hroutes.length.ge
  have hstart : start.width = d.numQubits := hmade.width.trans hq
  obtain ⟨hend, hwidth⟩ := hmade.ends hb.wellFormed
  have hlast : trial.placement.width = d.numQubits := hwidth.trans hq
  have hfits : d.numQubits ≤ compiler.device.numQubits := hq ▸ hmade.fits
  have hused : ∀ q ∈ d.qubitsUsed, q < d.numQubits := fun q h => (Dag.mem_qubitsUsed.mp h).1
  refine ⟨start, trial.output.zip inserted,
    { written := ⟨d, _, hd, hup, hfst.symm ▸ hmade.linearize_eq⟩
      isPermutation := hmade.isPermutation
      within := fun o ho => hmade.qubits_lt o.1 (List.of_mem_zip ho).1
      coupled := hroutes.swaps
      single := single_of_routes hb.wellFormed hsingle hroutes
      readings := ?readings
      measured := ?measured
      swaps := ?swaps
      initial := ?initial
      final := ?final }⟩
  case readings =>
    have hsame := hroutes.readings hfs
    rwa [← hfs.readout_eq, hread] at hsame
  case measured =>
    -- nothing behind the routing touches a reading
    intro p b
    rw [hmeasured, hsettles.readout, hfst, ← hmade.readout_eq]
    rfl
  case swaps =>
    rw [hswaps, hsettles.routing, ← hroutes.countP, ← hmade.swaps]
    rfl
  case initial =>
    intro x
    rw [hinitial, hsettles.initial, ← hes, ← hreads.mem_qubitsUsed]
    change x ∈ placesOf (some r.initial) _ ↔ _
    rw [hmade.initial]
    exact mem_placesOf_toLayout hmade.isPermutation (hstart.trans_le hfits) (hstart ▸ hused)
  case final =>
    intro x
    rw [hfinal, hsettles.final, ← hes, ← hreads.mem_qubitsUsed, ← hroutes.placement]
    change x ∈ placesOf (some r.final) _ ↔ _
    rw [hmade.final]
    exact mem_placesOf_toLayout hend (hlast.trans_le hfits) (hlast ▸ hused)

/-- The measurement map of a result. A qubit that the circuit reads once, into a classical bit that takes
no other reading, is read by one operation that routing writes, on the physical qubit where it sits by
then. The map has that physical qubit with the classical bit, unless it is read again later, and no
other one with it. So the map has the final place of the qubit exactly if the qubit ends where it was
read and nothing is read there later, and in particular if no later swap is on that place. -/
theorem measured_of_readOnce (hb : device.Built) (hr : Routes device compiler) {cancelled : Bool}
    (h : compiler.compile circuit cancelled = .ok result) {q : Qubit} {c : Clbit}
    (honce : ReadOnce (readings circuit.instructions) q c) :
    ∃ start ops before after p f,
      Traces compiler circuit result start ops ∧
      ops = before ++ (.measure p c, false) :: after ∧
      (replay start before).2.physical q = p ∧
      (∀ x ∈ readings (before.map Prod.fst) ++ readings (after.map Prod.fst), x.2 ≠ c) ∧
      (∀ x, (x, c) ∈ result.measured ↔
        x = p ∧ p ∉ (readings (after.map Prod.fst)).map Prod.fst) ∧
      (q, f) ∈ result.final ∧
      (Rests after p → f = p ∧ (f, c) ∈ result.measured) := by
  obtain ⟨start, ops, ht⟩ := exists_traces hb hr h
  have hmarked : Marked compiler.device.numQubits ops := ht.marked (hr.device_eq ▸ hb)
  obtain ⟨before, after, p, rfl, hplace, hother, hrests⟩ := Sweep.exists_measure hmarked
    ht.isPermutation ht.within ht.single (honce.perm ht.readings.symm)
  have hmap : ∀ x, (x, c) ∈ result.measured ↔
      x = p ∧ p ∉ (readings (after.map Prod.fst)).map Prod.fst := by
    intro x
    rw [ht.measured, List.map_append, List.map_cons, readings_append, readings_cons,
      Instruction.readings_measure]
    exact isLast_append_cons hother
  obtain ⟨i, hi, hread⟩ := List.mem_flatMap.mp honce.mem
  have hfinal : (q, (replay start (before ++ (.measure p c, false) :: after)).2.physical q) ∈
      result.final :=
    (ht.final _).mpr ⟨⟨i, hi, Instruction.mem_qubits_of_mem_readings hread⟩, rfl⟩
  refine ⟨start, _, before, after, p, _, ht, rfl, hplace, hother, hmap, hfinal, fun hstill => ?_⟩
  obtain ⟨hstay, hnot⟩ := hrests hstill
  rw [hstay]
  exact ⟨rfl, (hmap p).mpr ⟨rfl, hnot⟩⟩

section Examples

open Sweep (distantPlacement isPermutation_distantPlacement)

/-- A measurement in the middle of a row of three qubits, and a gate between the ends. -/
def midway : Circuit Float := .ofInstructions "midway" 3 1 [.measure 1 0, .ofStandard .cx [0, 2]]

/-- Its graph. -/
def midwayDag : Dag Float := (Dag.run 3 1 (midway.instructions.map .append)).1.setPhase 0

/-- Splitting, the trivial layout and routing from it, for the row. -/
def midwayCompiler : Compiler Float :=
  ⟨.linear 3, [.splitWide, .trivialLayout, .route .standard (.ofLevel 1)]⟩

/-- The sweep that routes it. -/
def midwaySweep : Sweep Float :=
  { graph := ⟨#[⟨.measure 1 0, [], []⟩, ⟨.ofStandard .cx [0, 2], [], []⟩], 1, midwayDag.phase⟩
    device := .linear 3
    plan := SearchOptions.resolve .standard (.linear 3) (.ofLevel 1)
    direction := .forward }

/-- The sweep with the measurement done. -/
def midwayState : Sweep.State Float :=
  { midwaySweep.begin distantPlacement with front := [1], output := [.measure 1 0] }

/-- What the sweep writes behind one swap. -/
def midwayOutput (a b : Qubit) : List (Instruction Float) :=
  [.measure 1 0, swapGate (a, b),
    (Instruction.ofStandard .cx [0, 2]).mapQubits (distantPlacement.swap a b).physical]

theorem toDag_midway : midway.toDag = .ok midwayDag := rfl

theorem reachable_midwayDag : midwayDag.Reachable := by
  refine .phase (.run 3 1 ?_) _
  simp [midway, Circuit.ofInstructions, Dag.Call.ClbitsDistinct, Dag.Call.instructions,
    Instruction.measure, Instruction.ofStandard, Instruction.ofGate]

theorem sound_midwaySweep : midwaySweep.Sound :=
  Sweep.sound_of_ofDag reachable_midwayDag rfl (.linear 3) le_rfl _ _

/-- The couplings of the row, each in both directions. -/
theorem eq_of_isAdjacent_row {a b : Qubit}
    (h : Device.isAdjacent (.linear 3 : Device Float) a b = true) :
    (a = 0 ∧ b = 1 ∨ a = 1 ∧ b = 0) ∨ a = 1 ∧ b = 2 ∨ a = 2 ∧ b = 1 := by
  obtain ⟨ha, hb, -⟩ := (Device.Built.linear 3).wellFormed.lt_of_isAdjacent h
  change a < 3 at ha
  change b < 3 at hb
  revert h
  interval_cases a <;> interval_cases b <;> decide

/-- The measurement is done at once, and the gate behind one swap, whichever that is. -/
theorem exists_run_midwaySweep : ∃ a b trial,
    Device.isAdjacent (.linear 3 : Device Float) a b = true ∧
      midwaySweep.run distantPlacement = .ok trial ∧ trial.placement = distantPlacement.swap a b ∧
      trial.output = midwayOutput a b := by
  have hfirst : midwaySweep.step (midwaySweep.begin distantPlacement) = .ok midwayState := rfl
  have hreach : midwaySweep.checkReachable distantPlacement = .ok () :=
    Sweep.checkReachable_row sound_midwaySweep rfl isPermutation_distantPlacement
  have hp : midwayState.placement.IsPermutation midwaySweep.device.numQubits :=
    isPermutation_distantPlacement
  have hr : midwaySweep.Reaches midwayState.placement := Sweep.checkReachable_eq_ok.mp hreach
  have hwaits : 1 ∈ midwayState.front := List.mem_singleton_self 1
  have hf : midwaySweep.following midwayState = .ok [] := rfl
  obtain ⟨⟨a, b⟩, decay, sinceReset, hadj, hsecond⟩ :=
    Sweep.exists_improve sound_midwaySweep hp hr hwaits rfl hf
  obtain ⟨cost, hthird⟩ : ∃ cost, midwaySweep.step { midwayState with
      placement := distantPlacement.swap a b
      window := some []
      pending := [(a, b)], decay, sinceReset } = .ok { midwayState with
        placement := distantPlacement.swap a b
        front := []
        output := midwayOutput a b
        swaps := 1, cost } := by
    rcases eq_of_isAdjacent_row hadj with (⟨rfl, rfl⟩ | ⟨rfl, rfl⟩) | ⟨rfl, rfl⟩ | ⟨rfl, rfl⟩ <;>
      exact ⟨_, rfl⟩
  have hsteps : midwaySweep.steps 3 (midwaySweep.begin distantPlacement) = .ok _ :=
    Outcome.bind_eq_ok.mpr ⟨_, hfirst, Outcome.bind_eq_ok.mpr ⟨_, hsecond,
      Outcome.bind_eq_ok.mpr ⟨_, hthird, rfl⟩⟩⟩
  have hrun := Sweep.run_eq_ok.mpr ⟨hreach, _,
    Sweep.steps_of_le hsteps (show 3 ≤ midwaySweep.maxSteps by decide), rfl⟩
  exact ⟨a, b, _, hadj, hrun, rfl, rfl⟩

/-- The circuit with that output, and the places after the swap. -/
theorem exists_fromLayout_midway : ∃ a b r es,
    Device.isAdjacent (.linear 3 : Device Float) a b = true ∧
      Routing.fromLayout midwayCompiler.device .standard (.ofLevel 1) midwayDag
        (.ofPhysical [0, 1, 2]) = .ok r ∧
      r.final = (distantPlacement.swap a b).toLayout ∧
      r.dag.Reads es ∧ es.map (·.2) = midwayOutput a b := by
  obtain ⟨a, b, trial, hadj, hrun, hplacement, houtput⟩ := exists_run_midwaySweep
  have hv : ∀ i ∈ midwayOutput a b, i.validate 3 1 = .ok () := by
    simp only [midwayOutput, List.forall_mem_cons]
    rcases eq_of_isAdjacent_row hadj with (⟨rfl, rfl⟩ | ⟨rfl, rfl⟩) | ⟨rfl, rfl⟩ | ⟨rfl, rfl⟩ <;>
      exact ⟨rfl, rfl, rfl, List.forall_mem_nil _⟩
  have hclbits : ∀ i ∈ midwayOutput a b, i.clbits.Nodup := by
    simp only [midwayOutput, List.forall_mem_cons]
    exact ⟨List.nodup_singleton 0, List.nodup_nil, List.nodup_nil, List.forall_mem_nil _⟩
  obtain ⟨e, he⟩ := Dag.exists_ofInstructions hv
  obtain ⟨es, hreads, hes, -⟩ := Dag.reads_of_ofInstructions hclbits he
  obtain ⟨r, hfinish, hdag, hfinal⟩ : ∃ r, Routing.finish midwaySweep.graph (.linear 3)
      distantPlacement trial 1 = .ok r ∧ r.dag = e.setPhase midwayDag.phase ∧
      r.final = trial.placement.toLayout :=
    ⟨_, Outcome.bind_eq_ok.mpr ⟨e, Outcome.ofCircuit_eq_ok.mpr (houtput ▸ he), rfl⟩, rfl, rfl⟩
  refine ⟨a, b, r, es, hadj, ?_, hplacement ▸ hfinal, hdag ▸ hreads.withPhase _, hes⟩
  exact Outcome.bind_eq_ok.mpr ⟨distantPlacement, rfl, Outcome.bind_eq_ok.mpr
    ⟨midwaySweep.graph, rfl, Outcome.bind_eq_ok.mpr ⟨trial, hrun, hfinish⟩⟩⟩

/-- The result has the reading where it was done, and the qubit somewhere else. -/
theorem exists_compile_midway : ∃ result, midwayCompiler.compile midway false = .ok result ∧
    (∃ f, f ≠ 1 ∧ (1, f) ∈ result.final) ∧ ∀ p b, (p, b) ∈ result.measured → p = 1 := by
  obtain ⟨a, b, r, es, hadj, hroute, hfinal, hread, hes⟩ := exists_fromLayout_midway
  obtain ⟨c, hflow, hdag, hlast⟩ : ∃ c, Pass.runAll midwayCompiler.flow
      (.ofDag midwayDag (some midwayCompiler.device) none) = .ok c ∧
      c.dag.Reads es ∧ c.final = some r.final :=
    ⟨_, Outcome.bind_eq_ok.mpr ⟨_, rfl, Outcome.bind_eq_ok.mpr ⟨_, rfl, Outcome.bind_eq_ok.mpr
      ⟨_, Outcome.bind_eq_ok.mpr ⟨_, rfl, Outcome.bind_eq_ok.mpr ⟨r, hroute, rfl⟩⟩, rfl⟩⟩⟩,
      hread, rfl⟩
  obtain ⟨result, hresult⟩ := exists_collect hdag
  obtain ⟨hmeasured, -, hplaces, -⟩ := of_collect hdag.reachable hresult
  have hcompile := compile_eq (by decide) toDag_midway ((Flow.run_uncancelled _ _).trans hflow)
  refine ⟨result, hcompile.trans hresult, ⟨(distantPlacement.swap a b).physical 1, ?_, ?_⟩,
    fun p c hp => ?_⟩
  · rcases eq_of_isAdjacent_row hadj with (⟨rfl, rfl⟩ | ⟨rfl, rfl⟩) | ⟨rfl, rfl⟩ | ⟨rfl, rfl⟩ <;>
      decide
  · obtain ⟨ha, hb, -⟩ := (Device.Built.linear 3).wellFormed.lt_of_isAdjacent hadj
    rw [hplaces, hlast, hfinal, Option.some_or]
    exact (mem_placesOf_toLayout (Placement.isPermutation_swap isPermutation_distantPlacement ha hb)
      le_rfl (show ∀ q ∈ midwayDag.qubitsUsed, q < 3 by decide)).mpr
        ⟨show 1 ∈ midwayDag.qubitsUsed by decide, rfl⟩
  · obtain ⟨before, after, heq, -⟩ := (hmeasured p c).mp hp
    have hmem : (p, c) ∈ readings (midwayOutput a b) := by
      rw [← hes, ← hdag.readout_eq]
      exact heq ▸ by simp
    exact (Prod.mk.inj (List.mem_singleton.mp hmem)).1

theorem measured_midway : (Device.linear 3 : Device Float).Built ∧
    Routes (.linear 3) midwayCompiler ∧ ReadOnce (readings midway.instructions) 1 0 ∧
    ∃ result start before after p f, midwayCompiler.compile midway false = .ok result ∧
      Traces midwayCompiler midway result start (before ++ (.measure p 0, false) :: after) ∧
      (replay start before).2.physical 1 = p ∧ (1, f) ∈ result.final ∧
      (Rests after p → f = p ∧ (f, 0) ∈ result.measured) := by
  obtain ⟨result, h, -⟩ := exists_compile_midway
  have honce : ReadOnce (readings midway.instructions) 1 0 := rfl
  obtain ⟨start, _, before, after, p, f, htraces, rfl, hplace, -, -, hfinal, hrests⟩ :=
    measured_of_readOnce (.linear 3) (.trivial _ _) h honce
  exact ⟨.linear 3, .trivial _ _, honce, result, start, before, after, p, f, h, htraces, hplace,
    hfinal, hrests⟩

/-- The map does not follow a qubit that is moved after it was read, though the reading is the last that
the circuit does with it and nothing else is read into its classical bit. -/
theorem strays_midway : ¬ ∀ (device : Device Float) (compiler : Compiler Float)
    (circuit : Circuit Float) (result : Compiled Float) (q : Qubit) (c : Clbit) (f : Qubit),
    device.Built → Routes device compiler → compiler.compile circuit false = .ok result →
      ReadOnce (readings circuit.instructions) q c → circuit.endsRead q = true →
      (q, f) ∈ result.final → (f, c) ∈ result.measured := by
  intro hall
  obtain ⟨result, h, ⟨f, hf, hfinal⟩, hmeasured⟩ := exists_compile_midway
  exact hf (hmeasured f 0 (hall _ _ midway result 1 0 f (.linear 3) (.trivial _ _) h rfl rfl hfinal))

end Examples

end Compiler

end QuantumCompiler
