import QuantumCompiler.Layout.Components
import QuantumCompiler.Routing.Sweep

/-!
# Layout and routing of a circuit

Routing from a given layout is one forward sweep. The search for a layout sweeps forward and
backward in turns: a backward sweep ends with the qubits where the circuit would like them to start.
The layout whose forward sweep was best is kept together with that sweep.
-/

namespace QuantumCompiler

variable {R : Type} [Scalar R]

/-- How a circuit was routed. -/
structure RoutingStats where
  swaps : Nat
  sweeps : Nat
  forced : Nat
  deriving DecidableEq, Repr

/-- A circuit over the qubits of a device. -/
structure Routed (R : Type) where
  dag : Dag R
  /-- Where its qubits sit before the first operation. -/
  initial : Layout
  /-- Where its qubits sit after the last operation. -/
  final : Layout
  stats : RoutingStats

namespace Routing

/-- The result of a trial that started from a placement. -/
def finish (graph : RoutingGraph R) (device : Device R) (start : Placement) (trial : Trial R)
    (sweeps : Nat) : Compile R (Routed R) := do
  let dag ← Compile.ofCircuit (Dag.ofInstructions device.numQubits graph.numClbits trial.output)
  return {
    dag := dag.setPhase graph.phase
    initial := start.toLayout
    final := trial.placement.toLayout
    stats := ⟨trial.swaps, sweeps, trial.forced⟩ }

/-- Routes a circuit from a layout by one forward sweep. -/
def fromLayout (device : Device R) (options : SearchOptions R) (fallback : Heuristic) (d : Dag R)
    (layout : Layout) : Compile R (Routed R) := do
  let plan := options.resolve device fallback
  let start ← Placement.ofLayout layout d.numQubits device.numQubits
  let graph ← RoutingGraph.ofDag d
  let trial ← Sweep.run ⟨graph, device, plan, .forward⟩ start
  finish graph device start trial 1

/-- Some gate of a circuit acts on several qubits. -/
def interacts (d : Dag R) : Bool :=
  d.instructions.any fun (_, i) => i.isGate && decide (i.qubits.length > 1)

/-- The layout that a search starts from: the given one, else the trivial one when no gate acts on
several qubits, else one that keeps interacting qubits together when the device has several
parts. -/
def firstLayout (device : Device R) (plan : SearchPlan R) (d : Dag R) :
    Option Layout → Compile R Layout
  | some layout => .ok layout
  | none =>
    if !interacts d then Layout.initial .trivial d.numQubits device.numQubits plan.seed
    else if device.numComponents > 1 then
      Layout.ofComponents d device plan.initialLayout plan.seed
    else Layout.initial plan.initialLayout d.numQubits device.numQubits plan.seed

/-- The trials of forward sweeps with the placements they started from, and the number of all sweeps.
Between two trials a backward sweep leads from the end of one to the start of the next. -/
def trials (graph : RoutingGraph R) (device : Device R) (plan : SearchPlan R) :
    Nat → Placement → Compile R (List (Placement × Trial R) × Nat)
  | 0, _ => .ok ([], 0)
  | rounds + 1, start => do
    let forward ← Sweep.run ⟨graph, device, plan, .forward⟩ start
    match rounds with
    | 0 => return ([(start, forward)], 1)
    | _ + 1 =>
      let backward ← Sweep.run ⟨graph, device, plan, .reverse⟩ forward.placement
      let (rest, sweeps) ← trials graph device plan rounds backward.placement
      return ((start, forward) :: rest, sweeps + 2)

/-- The best of several trials, the first one among equals. -/
def best? (heuristic : Heuristic) (trials : List (Placement × Trial R)) :
    Option (Placement × Trial R) :=
  bestOf? (fun a b => a.2.better heuristic b.2) trials

/-- Searches for a layout, from a given one if there is any, and routes a circuit from it. -/
def search (device : Device R) (options : SearchOptions R) (fallback : Heuristic) (d : Dag R)
    (given : Option Layout) : Compile R (Routed R) := do
  let plan := options.resolve device fallback
  let rounds := if interacts d then plan.maxIterations else 1
  let layout ← firstLayout device plan d given
  let start ← Placement.ofLayout layout d.numQubits device.numQubits
  let graph ← RoutingGraph.ofDag d
  let (found, sweeps) ← trials graph device plan rounds start
  match best? plan.heuristic found with
  | none => throw (.internal .noSweep)
  | some (start, trial) => finish graph device start trial sweeps

end Routing

end QuantumCompiler
