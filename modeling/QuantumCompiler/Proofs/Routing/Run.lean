import QuantumCompiler.Proofs.Routing.Graph
import QuantumCompiler.Proofs.Routing.Sweep

/-!
# Routed circuits

A sweep that starts within reach comes to its end, and with its end everything is done. For the routing
graph of a circuit this says that routing preserves the circuit: read back, the output is the operations
of the circuit, each once and in an order that dependence allows.
-/
namespace QuantumCompiler

variable {R : Type}

theorem Instruction.isTwoQubitGate_eq (i : Instruction R) : i.isTwoQubitGate = i.pair?.isSome := by
  rw [isTwoQubitGate, pair?]
  cases i.isGate with
  | false => rfl
  | true =>
    rcases i.qubits with _ | ⟨a, _ | ⟨b, _ | ⟨c, rest⟩⟩⟩ <;> simp

namespace Dag

/-- The operations that one directly waits for in a direction. -/
def directlyBefore (d : Dag R) : Direction → Nat → List Nat
  | .forward => d.predecessors
  | .reverse => d.successors

/-- Number of two-qubit gates. -/
def numTwoQubitGates (d : Dag R) : Nat :=
  d.nodes.countP fun id => (d.instruction? id).any Instruction.isTwoQubitGate

end Dag

/-! ## The end of a sweep -/

namespace Sweep

variable {s : Sweep R} {p : Placement}

/-- The check before a sweep accepts the placements that keep every gate within reach. -/
theorem checkReachable_eq_ok : s.checkReachable p = .ok () ↔ s.Reaches p := by
  rw [checkReachable, Outcome.forM_eq_ok]
  constructor
  · intro h k a b hk
    obtain ⟨i, hi, hp⟩ := Option.bind_eq_some_iff.mp hk
    obtain ⟨n, hn, rfl⟩ := Option.map_eq_some_iff.mp hi
    have hcheck := h n (Array.mem_toList_iff.mpr (Array.mem_of_getElem? hn))
    simp only [hp] at hcheck
    split at hcheck
    · rename_i hc
      exact hc
    · cases hcheck
  · intro h n hn
    obtain ⟨k, hk⟩ := Array.mem_iff_getElem?.mp (Array.mem_toList_iff.mp hn)
    cases hp : n.instruction.pair? with
    | none => rfl
    | some pair =>
      obtain ⟨a, b⟩ := pair
      have hpair : s.graph.pair? k = some (a, b) := by
        simp [RoutingGraph.pair?, RoutingGraph.instruction?, hk, hp]
      simp only [h k a b hpair, if_true]

variable [Scalar R]

theorem holds_begin (hp : p.IsPermutation s.device.numQubits) (hr : s.Reaches p) :
    s.Holds p (s.begin p) [] [] :=
  ⟨tracks_begin s hp, s.graph.progress_start s.direction, fun h => absurd rfl h, Nat.zero_le _,
    Nat.zero_le _, hr, fun _ => rfl⟩

/-- A sweep that starts within reach comes to its end, and the invariant holds there. -/
theorem Sound.exists_end (hs : s.Sound) (hp : p.IsPermutation s.device.numQubits)
    (hr : s.checkReachable p = .ok ()) :
    ∃ final done inserted, s.steps s.maxSteps (s.begin p) = .ok final ∧
      s.Holds p final done inserted ∧ final.front = [] := by
  have hbegin := holds_begin hp (checkReachable_eq_ok.mp hr)
  exact hbegin.steps hs hbegin.fuel_le

/-- What a finished sweep tells of itself. -/
def State.trial (final : State R) : Trial R :=
  ⟨final.placement, final.output, final.swaps, final.forced, final.cost⟩

theorem run_eq_ok {trial : Trial R} :
    s.run p = .ok trial ↔ s.checkReachable p = .ok () ∧
      ∃ final, s.steps s.maxSteps (s.begin p) = .ok final ∧ trial = final.trial := by
  rw [run, Outcome.bind_eq_ok]
  constructor
  · rintro ⟨_, hc, h⟩
    obtain ⟨final, hsteps, h⟩ := Outcome.bind_eq_ok.mp h
    exact ⟨hc, final, hsteps, (Except.ok.inj h).symm⟩
  · rintro ⟨hc, final, hsteps, rfl⟩
    exact ⟨(), hc, Outcome.bind_eq_ok.mpr ⟨final, hsteps, rfl⟩⟩

end Sweep

/-! ## Sweeps of circuits -/

section Circuit

variable {d : Dag R} {ids : List Nat} {g : RoutingGraph R}

theorem map_getD_range (ids : List Nat) :
    (List.range ids.length).map (fun k => ids.getD k 0) = ids := by
  apply List.ext_getElem
  · simp
  · intro k h1 h2
    simp [h2]

namespace RoutingGraph

theorem Numbers.getElem?_eq_some (h : Numbers d ids g) {k : Nat} (hk : k < g.size) :
    ids[k]? = some (ids.getD k 0) := by
  rw [h.size] at hk
  simp [hk]

theorem Numbers.instruction?_eq (h : Numbers d ids g) {k : Nat} (hk : k < g.size) :
    g.instruction? k = d.instruction? (ids.getD k 0) := by
  rw [h.instruction?, h.getElem?_eq_some hk]
  rfl

/-- What comes directly before an operation has a number directly before its number. -/
theorem Numbers.exists_previous (h : Numbers d ids g) (hr : d.Represents ids)
    (direction : Direction) {k : Nat} (hk : k < g.size) {u : Nat}
    (hu : u ∈ d.directlyBefore direction (ids.getD k 0)) :
    ∃ j ∈ g.previous direction k, ids.getD j 0 = u := by
  have hids := h.getElem?_eq_some hk
  have hmem : u ∈ ids := by
    cases direction
    · obtain ⟨w, hw, hl⟩ := hr.mem_predecessors.mp hu
      exact (hr.edge hw ((hr.perm_points hw).mem_iff.mpr hl)).1
    · obtain ⟨w, hw, hl⟩ := hr.mem_successors.mp hu
      exact (hr.edge hw ((hr.perm_points hw).mem_iff.mpr hl)).2.1
  obtain ⟨j, hj⟩ := List.mem_iff_getElem?.mp hmem
  refine ⟨j, ?_, by simp [hj]⟩
  cases direction
  · exact (h.mem_previous k j).mpr ⟨_, u, hids, hj, hu⟩
  · exact (h.mem_next k j).mpr ⟨_, u, hids, hj, hu⟩

end RoutingGraph

namespace Sweep

/-- A sweep of a circuit on a device that is wide enough is sound. -/
theorem sound_of_ofDag [Scalar R] (hd : d.Reachable) (hg : RoutingGraph.ofDag d = .ok g)
    {device : Device R} (hb : device.Built) (hn : d.numQubits ≤ device.numQubits)
    (plan : SearchPlan R) (direction : Direction) :
    Sound ⟨g, device, plan, direction⟩ := by
  obtain ⟨n, m, es, h⟩ := hd.holds
  have hnum := RoutingGraph.numbers_of_ofDag h hg
  refine ⟨hb.wellFormed, hnum.flows h.represents direction, ?_⟩
  intro k i hi
  rw [hnum.instruction?] at hi
  obtain ⟨id, -, hi⟩ := Option.bind_eq_some_iff.mp hi
  obtain ⟨hwires, hhas⟩ := h.represents.operands id i hi
  constructor
  · exact (List.nodup_append.mp hwires).1.of_map _
  · intro q hq
    have hw : d.HasWire (.qubit q) := hhas _ (Instruction.mem_wires.mpr (.inl ⟨q, hq, rfl⟩))
    exact Nat.lt_of_lt_of_le (Dag.hasWire_qubit.mp hw) hn

/-- A trial routes a circuit from a placement. Marks tell the swaps that were inserted, all of them on
coupled qubits, from the operations of the circuit, and read back with them the output is the circuit:
every operation once, behind all that it waits for. -/
structure Routes (d : Dag R) (direction : Direction) (device : Device R) (start : Placement)
    (trial : Trial R) (inserted : List Bool) (order : List Nat) : Prop where
  length : inserted.length = trial.output.length
  swaps : ∀ i, (i, true) ∈ trial.output.zip inserted →
    ∃ a b, i = swapGate (a, b) ∧ device.isAdjacent a b = true
  coupled : ∀ i ∈ trial.output, ∀ a b, i.pair? = some (a, b) → device.isAdjacent a b = true
  once : order.Perm d.nodes
  operations : (replay start (trial.output.zip inserted)).1.map some = order.map d.instruction?
  ordered : ∀ before v after, order = before ++ v :: after →
    ∀ u ∈ d.directlyBefore direction v, u ∈ before
  count : trial.swaps = inserted.count true
  placement : trial.placement = (replay start (trial.output.zip inserted)).2

section Final

variable {device : Device R} {plan : SearchPlan R} {direction : Direction} {start : Placement}
  {final : State R} {done : List Nat} {inserted : List Bool}

theorem Holds.perm_range {s : Sweep R} (hs : s.Sound)
    (h : s.Holds start final done inserted) (hfront : final.front = []) :
    done.Perm (List.range s.graph.size) := by
  have hp := h.progress
  rw [hfront] at hp
  exact hp.complete hs.flows

theorem perm_map_getD (hl : d.Listed ids) {done : List Nat}
    (hp : done.Perm (List.range ids.length)) :
    (done.map fun k => ids.getD k 0).Perm d.nodes := by
  have hm := hp.map fun k => ids.getD k 0
  rw [map_getD_range] at hm
  exact hm.trans hl.perm_nodes.symm

/-- At the end of a sweep the circuit is routed. -/
theorem Holds.routes (hs : Sound ⟨g, device, plan, direction⟩)
    (h : Holds ⟨g, device, plan, direction⟩ start final done inserted)
    (hfront : final.front = []) (hnum : RoutingGraph.Numbers d ids g) (hr : d.Represents ids) :
    Routes d direction device start final.trial inserted (done.map fun k => ids.getD k 0) := by
  have hlt := h.progress.done_lt
  have hperm := h.perm_range hs hfront
  rw [hnum.size] at hperm
  constructor
  · exact h.length
  · exact h.swaps
  · exact h.coupled
  · exact perm_map_getD hr.toListed hperm
  · rw [List.map_map]
    refine h.operations.trans (List.map_congr_left fun k hk => ?_)
    exact hnum.instruction?_eq (hlt k hk)
  · intro before v after hsplit u hu
    obtain ⟨ks, js, rfl, rfl, hjs⟩ := List.map_eq_append_iff.mp hsplit
    obtain ⟨k, js, rfl, rfl, -⟩ := List.map_eq_cons_iff.mp hjs
    obtain ⟨j, hj, rfl⟩ := hnum.exists_previous hr direction (hlt k (by simp)) hu
    exact List.mem_map_of_mem (h.progress.ordered ks k js rfl j hj)
  · exact h.count
  · -- nothing is pending at the end
    change final.placement = _
    rw [h.placement, h.settled hfront]
    rfl

/-- At the end of a sweep its two-qubit gates are those of the circuit. -/
theorem Holds.pairs_eq (hs : Sound ⟨g, device, plan, direction⟩)
    (h : Holds ⟨g, device, plan, direction⟩ start final done inserted)
    (hfront : final.front = []) (hnum : RoutingGraph.Numbers d ids g) (hr : d.Represents ids) :
    pairs ⟨g, device, plan, direction⟩ done = d.numTwoQubitGates := by
  have hperm := h.perm_range hs hfront
  rw [hnum.size] at hperm
  rw [Dag.numTwoQubitGates, ← (perm_map_getD hr.toListed hperm).countP_eq, List.countP_map]
  refine List.countP_congr fun k hk => ?_
  have hi := hnum.instruction?_eq (h.progress.done_lt k hk)
  simp only [RoutingGraph.pair?, hi, Function.comp_apply]
  cases d.instruction? (ids.getD k 0) with
  | none => simp
  | some i => simp [Instruction.isTwoQubitGate_eq]

end Final

/-! ## Routing preserves the circuit and ends -/

section Main

variable [Scalar R] {device : Device R} {p : Placement}

/-- Routing preserves the circuit. Whatever swaps the scores choose, a sweep that gives a trial gives one
that reads back as the circuit. -/
theorem routes_of_run (hd : d.Reachable) (hg : RoutingGraph.ofDag d = .ok g) (hb : device.Built)
    (hn : d.numQubits ≤ device.numQubits) (plan : SearchPlan R) (direction : Direction)
    (hp : p.IsPermutation device.numQubits) {trial : Trial R}
    (h : run ⟨g, device, plan, direction⟩ p = .ok trial) :
    ∃ inserted order, Routes d direction device p trial inserted order := by
  have hs := sound_of_ofDag hd hg hb hn plan direction
  obtain ⟨n, m, es, hholds⟩ := hd.holds
  have hnum := RoutingGraph.numbers_of_ofDag hholds hg
  obtain ⟨hc, final, hsteps, rfl⟩ := run_eq_ok.mp h
  obtain ⟨final', done, inserted, hsteps', hh, hfront⟩ := hs.exists_end hp hc
  obtain rfl := Except.ok.inj (hsteps.symm.trans hsteps')
  exact ⟨inserted, _, hh.routes hs hfront hnum hholds.represents⟩

/-- Two operations on a line of three qubits, the first one between its ends. -/
def distantCalls : List (Dag.Call Float) :=
  [.append (.ofStandard .cx [0, 2]), .append (.measure 2 0)]

/-- The routing graph of these. -/
def distantGraph : RoutingGraph Float :=
  { nodes := #[⟨.ofStandard .cx [0, 2], [1], []⟩, ⟨.measure 2 0, [], [0]⟩]
    numClbits := 1
    phase := 0 }

/-- A sweep that has to swap. -/
def distantSweep : Sweep Float :=
  ⟨distantGraph, Device.linear 3, ⟨.distance, 1, 0, .trivial, 0.001, 20, 5, 0.5⟩, .forward⟩

/-- Every qubit on the place of its number. -/
def distantPlacement : Placement := .ofList [0, 1, 2] 3

theorem reachable_distantCalls : (Dag.run 3 1 distantCalls).1.Reachable := by
  refine .run 3 1 ?_
  simp [distantCalls, Dag.Call.ClbitsDistinct, Dag.Call.instructions, Instruction.measure,
    Instruction.ofStandard, Instruction.ofGate]

theorem isPermutation_distantPlacement : distantPlacement.IsPermutation 3 := by
  constructor <;> decide

/-- On a row of three every placement is within reach. -/
theorem checkReachable_row {s : Sweep Float} (hs : s.Sound) (hd : s.device = .linear 3)
    (hp : p.IsPermutation 3) : s.checkReachable p = .ok () := by
  have hw : (Device.linear 3 : Device Float).WellFormed := (Device.Built.linear 3).wellFormed
  have hnear := hw.component?_eq (show Device.isAdjacent _ 0 1 = true from rfl)
  have hfar := hw.component?_eq (show Device.isAdjacent _ 1 2 = true from rfl)
  have hall : ∀ q < 3, (Device.linear 3 : Device Float).component? q =
      (Device.linear 3 : Device Float).component? 1 := by
    intro q hq
    interval_cases q
    exacts [hnear, rfl, hfar.symm]
  rw [checkReachable_eq_ok]
  intro k a b hk
  obtain ⟨ha, hb, -⟩ := hs.pair_operands hk
  rw [hd] at ha hb ⊢
  exact (hall _ (hp.physical_lt a ha)).trans (hall _ (hp.physical_lt b hb)).symm

theorem checkReachable_distantSweep : distantSweep.checkReachable distantPlacement = .ok () :=
  checkReachable_row (sound_of_ofDag reachable_distantCalls rfl (.linear 3) le_rfl _ _) rfl
    isPermutation_distantPlacement

theorem routes_distantSweep : (Dag.run 3 1 distantCalls).1.Reachable ∧
    RoutingGraph.ofDag (Dag.run 3 1 distantCalls).1 = .ok distantGraph ∧
    ∃ trial inserted order, distantSweep.run distantPlacement = .ok trial ∧
      Routes (Dag.run 3 1 distantCalls).1 .forward (Device.linear 3) distantPlacement trial
        inserted order := by
  have hs : distantSweep.Sound := sound_of_ofDag reachable_distantCalls rfl (.linear 3) le_rfl _ _
  obtain ⟨final, -, -, hsteps, -⟩ :=
    hs.exists_end isPermutation_distantPlacement checkReachable_distantSweep
  have hrun : distantSweep.run distantPlacement = .ok final.trial :=
    run_eq_ok.mpr ⟨checkReachable_distantSweep, final, hsteps, rfl⟩
  obtain ⟨inserted, order, h⟩ := routes_of_run reachable_distantCalls rfl (.linear 3) le_rfl _ _
    isPermutation_distantPlacement hrun
  exact ⟨reachable_distantCalls, rfl, _, inserted, order, hrun, h⟩

/-- Routing ends and does not fail. Whatever values the scores take, a placement that keeps every gate
within reach is routed: the front runs empty after at most `maxSteps` steps, more of them change
nothing, and at most `patience + 1` swaps are inserted for each two-qubit gate. -/
theorem ends_of_checkReachable (hd : d.Reachable) (hg : RoutingGraph.ofDag d = .ok g)
    (hb : device.Built) (hn : d.numQubits ≤ device.numQubits) (plan : SearchPlan R)
    (direction : Direction) (hp : p.IsPermutation device.numQubits)
    (h : checkReachable ⟨g, device, plan, direction⟩ p = .ok ()) :
    ∃ final : State R,
      (∀ n ≥ maxSteps ⟨g, device, plan, direction⟩,
        steps ⟨g, device, plan, direction⟩ n (begin ⟨g, device, plan, direction⟩ p) = .ok final) ∧
      final.front = [] ∧
      run ⟨g, device, plan, direction⟩ p = .ok final.trial ∧
      final.trial.swaps ≤ (10 * max device.numQubits 1 + 1) * d.numTwoQubitGates := by
  have hs := sound_of_ofDag hd hg hb hn plan direction
  obtain ⟨n, m, es, hholds⟩ := hd.holds
  have hnum := RoutingGraph.numbers_of_ofDag hholds hg
  obtain ⟨final, done, inserted, hsteps, hh, hfront⟩ := hs.exists_end hp h
  refine ⟨final, fun n hle => steps_of_le hsteps hle, hfront,
    run_eq_ok.mpr ⟨h, final, hsteps, rfl⟩, ?_⟩
  rw [← hh.pairs_eq hs hfront hnum hholds.represents]
  exact hh.bounded

theorem ends_distantSweep : distantSweep.checkReachable distantPlacement = .ok () ∧
    ∃ final : State Float, distantSweep.run distantPlacement = .ok final.trial ∧
      final.trial.swaps ≤ 31 := by
  obtain ⟨final, -, -, hrun, hswaps⟩ := ends_of_checkReachable reachable_distantCalls rfl
    (.linear 3) le_rfl _ _ isPermutation_distantPlacement checkReachable_distantSweep
  exact ⟨checkReachable_distantSweep, final, hrun, hswaps⟩

end Main

end Sweep

end Circuit

end QuantumCompiler
