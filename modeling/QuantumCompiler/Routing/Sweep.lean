import QuantumCompiler.Routing.Graph
import QuantumCompiler.Routing.Score

/-!
# Routing sweeps

One run through a circuit that places every two-qubit gate on coupled qubits. The front holds the
operations whose predecessors are done. Whatever in it can be executed is; when nothing can, the
swap with the best score is applied, out of those on couplings that touch a waiting gate. A swap
raises the decay of its qubits, so that the search does not move the same ones for ever; should it
still make no progress, the swaps since the last execution are undone and the closest waiting gate
is routed along a shortest path.
-/

namespace QuantumCompiler

variable {R : Type} [Scalar R]

/-- What a sweep works on. -/
structure Sweep (R : Type) where
  graph : RoutingGraph R
  device : Device R
  plan : SearchPlan R
  /-- In which order. -/
  direction : Direction

/-- How far a sweep has come. -/
structure Sweep.State (R : Type) where
  placement : Placement
  front : List Nat
  /-- How many predecessors of each operation are not done. -/
  waiting : Array Nat
  /-- The gates that follow the front, once they were looked up. -/
  window : Option (List (Qubit × Qubit))
  pending : List (Qubit × Qubit)
  decay : Array R
  sinceReset : Nat
  /-- The operations so far, over physical qubits, without the pending swaps. -/
  output : List (Instruction R)
  swaps : Nat
  forced : Nat
  /-- The cost of all two-qubit gates and swaps in the output. -/
  cost : R

/-- The result of a sweep. -/
structure Trial (R : Type) where
  placement : Placement
  output : List (Instruction R)
  swaps : Nat
  forced : Nat
  cost : R
  deriving Repr

/-- A trial is better than another: fewer swaps and, among equals or where only fidelity counts, a
smaller cost. -/
def Trial.better (heuristic : Heuristic) (a b : Trial R) : Bool :=
  let cheaper := Scalar.lt a.cost (b.cost - Score.resolution)
  match heuristic with
  | .fidelity => cheaper
  | .distance | .mixture => decide (a.swaps < b.swaps) || (a.swaps == b.swaps && cheaper)

namespace Sweep

/-- An operation can be executed as the qubits sit now. -/
def executes (s : Sweep R) (p : Placement) (node : Nat) : Bool :=
  match s.graph.pair? node with
  | some (a, b) => s.device.isAdjacent (p.physical a) (p.physical b)
  | none => true

def swapGate (pair : Qubit × Qubit) : Instruction R := .ofStandard .swap [pair.1, pair.2]

def flush (s : Sweep R) (state : State R) : State R :=
  { state with
    pending := []
    output := state.output ++ state.pending.map swapGate
    swaps := state.swaps + state.pending.length
    cost := state.pending.foldl (fun cost (a, b) => cost + s.device.swapCost a b) state.cost }

def emit (s : Sweep R) (state : State R) (node : Nat) : Compile R (State R) := do
  let place := state.placement.physical
  let cost ← match s.graph.pair? node with
    | none => pure state.cost
    | some (a, b) =>
      match s.device.fidelity? (place a) (place b) with
      | some f => pure (state.cost + -Scalar.ln f)
      | none => throw (.internal (.uncoupledCommit (place a) (place b)))
  let output := match s.graph.instruction? node with
    | some i => state.output ++ [i.mapQubits place]
    | none => state.output
  return { state with cost, output }

/-- The decay of qubits that were not swapped. -/
def freshDecay (s : Sweep R) : Array R := Array.replicate s.device.numQubits 1

def execute (s : Sweep R) (state : State R) (ready blocked : List Nat) : Compile R (State R) := do
  let state ← ready.foldlM s.emit (s.flush state)
  let (waiting, free) ← s.graph.release s.direction state.waiting ready
  return { state with
    waiting
    front := blocked ++ free
    decay := s.freshDecay
    sinceReset := 0
    window := none }

/-- The operands of the gates in a front. -/
def frontPairs (s : Sweep R) (front : List Nat) : List (Qubit × Qubit) :=
  front.filterMap s.graph.pair?

/-- The couplings that touch a gate of the front, each once, in the order in which they are met. -/
def candidates (s : Sweep R) (p : Placement) (front : List Nat) : List (Qubit × Qubit) :=
  ((s.frontPairs front).flatMap fun (a, b) =>
    [p.physical a, p.physical b].flatMap fun q =>
      (s.device.neighbours q).map fun n => (min q n, max q n)).eraseDups

/-- Where a logical qubit sits after a swap. -/
def placeAfter (p : Placement) (swap : Qubit × Qubit) (logical : Qubit) : Qubit :=
  let place := p.physical logical
  if place = swap.1 then swap.2 else if place = swap.2 then swap.1 else place

/-- The candidate with the best score, the first one among equals. -/
def bestSwap? (s : Sweep R) (state : State R) (following : List (Qubit × Qubit)) :
    Option (Qubit × Qubit) :=
  let demand : Demand := ⟨s.frontPairs state.front, following⟩
  let decay (q : Qubit) : R := state.decay.getD q 1
  let score (swap : Qubit × Qubit) : Score R :=
    Score.ofSwap s.device s.plan demand (placeAfter state.placement swap)
      (Scalar.max (decay swap.1) (decay swap.2)) swap
  (bestOf? (fun a b => a.2.better b.2) <|
    (s.candidates state.placement state.front).map fun swap => (swap, score swap)).map (·.1)

/-- Applies a swap and raises the decay of its qubits; after as many swaps as the plan says the
decay starts again. -/
def applySwap (s : Sweep R) (state : State R) (swap : Qubit × Qubit) : State R :=
  let since := state.sinceReset + 1
  let state := { state with
    placement := state.placement.swap swap.1 swap.2
    pending := state.pending ++ [swap] }
  if since ≥ s.plan.decayResetInterval then
    { state with decay := s.freshDecay, sinceReset := 0 }
  else
    let raise (decay : Array R) (q : Qubit) : Array R := decay.modify q (· + s.plan.decayDelta)
    { state with decay := raise (raise state.decay swap.1) swap.2, sinceReset := since }

/-- The gates that follow the front, looked up once for each front. -/
def following (s : Sweep R) (state : State R) : Compile R (List (Qubit × Qubit)) :=
  match state.window with
  | some pairs => .ok pairs
  | none => s.graph.window s.direction s.plan.extendedSetSize state.waiting state.front

def improve (s : Sweep R) (state : State R) : Compile R (State R) := do
  let following ← s.following state
  let state := { state with window := some following }
  match s.bestSwap? state following with
  | some swap => return s.applySwap state swap
  | none => throw (.unreachableLayout .noCandidate)

/-- The swaps that bring the ends of a path together: each end walks toward the middle, and the last
link is left to the gate. -/
def meetingSwaps (path : List Qubit) : List (Qubit × Qubit) :=
  let half := path.length / 2
  let near := path.take half
  let far := path.drop half
  (near.zip near.tail ++ (far.zip far.tail).reverse.map Prod.swap).take (path.length - 2)

/-- The gate of a front whose operands are closest, the first one among equals. -/
def closest? (s : Sweep R) (p : Placement) (front : List Nat) : Option (Qubit × Qubit) :=
  let hops (pair : Qubit × Qubit) : Nat :=
    (s.device.distance? (p.physical pair.1) (p.physical pair.2)).getD maxIndex
  bestOf? (fun a b => decide (hops a < hops b)) (s.frontPairs front)

/-- The swaps that bring the closest gate of a front together. -/
def forcedSwaps (s : Sweep R) (p : Placement) (front : List Nat) :
    Compile R (List (Qubit × Qubit)) :=
  match s.closest? p front with
  | none => .error (.internal .nothingBlocked)
  | some (a, b) =>
    match s.device.path? (p.physical a) (p.physical b) with
    | none => .error (.unreachableLayout (.noPath a b))
    | some path => .ok (meetingSwaps path)

/-- Undoes the pending swaps and routes the closest gate instead. -/
def force (s : Sweep R) (state : State R) : Compile R (State R) := do
  let placement := state.placement.swaps state.pending.reverse
  let pending ← s.forcedSwaps placement state.front
  return { state with
    placement := placement.swaps pending
    pending
    forced := state.forced + 1 }

/-- The most swaps without an execution before a route is forced. -/
def patience (s : Sweep R) : Nat := 10 * max s.device.numQubits 1

/-- One step: execute, or force a route, or swap. -/
def step (s : Sweep R) (state : State R) : Compile R (State R) :=
  let (ready, blocked) := state.front.partition (s.executes state.placement)
  if !ready.isEmpty then s.execute state ready blocked
  else if state.pending.length > s.patience then s.force state
  else s.improve state

/-- Steps until the front is empty, at most the given number of them. -/
def steps (s : Sweep R) : Nat → State R → Compile R (State R)
  | 0, state => if state.front.isEmpty then .ok state else .error (.internal .endless)
  | n + 1, state => if state.front.isEmpty then .ok state else do s.steps n (← s.step state)

/-- Enough steps: between two executions come at most `patience + 1` swaps and one forced route. -/
def maxSteps (s : Sweep R) : Nat := s.graph.size * (s.patience + 3)

/-- The operands of every two-qubit gate sit in one connected part of the device, which no swap
changes. Fails for the first gate where they do not. -/
def checkReachable (s : Sweep R) (p : Placement) : Compile R Unit :=
  s.graph.nodes.toList.forM fun n =>
    match n.instruction.pair? with
    | none => .ok ()
    | some (a, b) =>
      let (pa, pb) := (p.physical a, p.physical b)
      if s.device.component? pa = s.device.component? pb then .ok ()
      else .error (.unreachableLayout
        (.disconnected n.instruction.name a b pa pb s.device.name))

/-- The state before the first step. -/
def begin (s : Sweep R) (p : Placement) : State R :=
  { placement := p
    front := s.graph.start s.direction
    waiting := s.graph.waiting s.direction
    window := none
    pending := []
    decay := s.freshDecay
    sinceReset := 0
    output := []
    swaps := 0
    forced := 0
    cost := 0 }

def run (s : Sweep R) (p : Placement) : Compile R (Trial R) := do
  s.checkReachable p
  let state ← s.steps s.maxSteps (s.begin p)
  return ⟨state.placement, state.output, state.swaps, state.forced, state.cost⟩

end Sweep

end QuantumCompiler
