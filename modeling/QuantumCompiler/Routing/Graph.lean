import QuantumCompiler.CompileError
import QuantumCompiler.Dag.Order

/-!
# Routing graphs

The dependency graph of a circuit as routing reads it: the operations are numbered in topological
order, each with its neighbours in both directions. A sweep runs in either direction.
-/

namespace QuantumCompiler

/-- The order in which a sweep runs through a circuit. -/
inductive Direction where
  /-- From the first operation on. -/
  | forward
  | reverse
  deriving DecidableEq, Repr

/-- An operation of a routing graph. -/
structure RoutingNode (R : Type) where
  instruction : Instruction R
  successors : List Nat
  predecessors : List Nat
  deriving Repr

/-- The operations of a circuit in topological order. -/
structure RoutingGraph (R : Type) where
  nodes : Array (RoutingNode R)
  numClbits : Nat
  phase : R
  deriving Repr

/-- The operands of a two-qubit gate, which have to be coupled when it is executed. -/
def Instruction.pair? {R : Type} (i : Instruction R) : Option (Qubit × Qubit) :=
  if i.isGate then
    match i.qubits with
    | [a, b] => some (a, b)
    | _ => none
  else none

namespace RoutingGraph

variable {R : Type}

/-- The number of each node in an order. -/
def ranks (order : List Nat) (size : Nat) : Array (Option Nat) :=
  order.zipIdx.foldl (fun table (id, k) => table.setIfInBounds id (some k))
    (Array.replicate size none)

/-- The routing graph of a dependency graph. Fails for a gate on three or more qubits. -/
def ofDag (d : Dag R) : Compile R (RoutingGraph R) := do
  let ops ← Compile.ofCircuit d.topologicalOps
  match ops.find? fun (_, i) => i.isGate && decide (i.qubits.length > 2) with
  | some (_, i) => throw (.unsupportedGate i.name .tooWideForRouting)
  | none =>
    let ranks := ranks (ops.map (·.1)) d.slots.size
    let rank? (id : Nat) : Option Nat := ranks.getD id none
    return {
      nodes := (ops.map fun (id, i) =>
        { instruction := i
          successors := (d.successors id).filterMap rank?
          predecessors := (d.predecessors id).filterMap rank? }).toArray
      numClbits := d.numClbits
      phase := d.phase }

def size (g : RoutingGraph R) : Nat := g.nodes.size

def instruction? (g : RoutingGraph R) (node : Nat) : Option (Instruction R) :=
  (g.nodes[node]?).map RoutingNode.instruction

/-- The operands of an operation that is a two-qubit gate. -/
def pair? (g : RoutingGraph R) (node : Nat) : Option (Qubit × Qubit) :=
  (g.instruction? node).bind Instruction.pair?

/-- The operations that come directly after one in a direction. -/
def next (g : RoutingGraph R) (direction : Direction) (node : Nat) : List Nat :=
  match g.nodes[node]?, direction with
  | some n, .forward => n.successors
  | some n, .reverse => n.predecessors
  | none, _ => []

/-- The operations that come directly before one in a direction. -/
def previous (g : RoutingGraph R) (direction : Direction) (node : Nat) : List Nat :=
  match direction with
  | .forward => g.next .reverse node
  | .reverse => g.next .forward node

/-- How many operations come directly before each one in a direction. -/
def waiting (g : RoutingGraph R) (direction : Direction) : Array Nat :=
  Array.ofFn fun k : Fin g.size => (g.previous direction k).length

/-- The operations with nothing before them, the first ones of the direction in front. -/
def start (g : RoutingGraph R) (direction : Direction) : List Nat :=
  let free := (List.range g.size).filter fun k => (g.previous direction k).isEmpty
  match direction with
  | .forward => free
  | .reverse => free.reverse

/-- Counts down an operation that waits; the last count makes it free. `waiting` counts for every
operation those directly before it that are not done, so a count that is used up is a fault. -/
def countDown (state : Array Nat × List Nat) (node : Nat) : Compile R (Array Nat × List Nat) :=
  match state.1[node]? with
  | some (left + 1) =>
    .ok (state.1.setIfInBounds node left, if left = 0 then state.2 ++ [node] else state.2)
  | _ => .error (.internal .overdrawn)

/-- Does operations in order and tells which ones become free by it. -/
def release (g : RoutingGraph R) (direction : Direction) (waiting : Array Nat) (done : List Nat) :
    Compile R (Array Nat × List Nat) :=
  (done.flatMap (g.next direction)).foldlM countDown (waiting, [])

/-- What looking ahead from a front has come to. -/
structure Outlook where
  waiting : Array Nat
  /-- The operations that became free last. -/
  layer : List Nat
  /-- The two-qubit gates that were met, in order. -/
  window : List (Qubit × Qubit)

/-- Counts down one operation and, if that makes it free, adds it to the layer and to the window. A full
window stays as it is, also in the middle of a layer. -/
def meet (g : RoutingGraph R) (limit : Nat) (o : Outlook) (node : Nat) : Compile R Outlook :=
  if limit ≤ o.window.length then .ok o
  else do
    let (waiting, free) ← countDown (o.waiting, []) node
    return ⟨waiting, o.layer ++ free, o.window ++ free.filterMap g.pair?⟩

/-- The next two-qubit gates behind a layer, layer by layer and at most `limit` of them. More layers than
there are operations are a fault. -/
def lookahead (g : RoutingGraph R) (direction : Direction) (limit : Nat) :
    Nat → Outlook → Compile R (List (Qubit × Qubit))
  | 0, _ => .error (.internal .endless)
  | layers + 1, o =>
    if o.layer.isEmpty || decide (limit ≤ o.window.length) then .ok o.window
    else do
      let o ← (o.layer.flatMap (g.next direction)).foldlM (g.meet limit) { o with layer := [] }
      g.lookahead direction limit layers o

/-- The two-qubit gates that a sweep looks ahead to from a front. -/
def window (g : RoutingGraph R) (direction : Direction) (limit : Nat) (waiting : Array Nat)
    (front : List Nat) : Compile R (List (Qubit × Qubit)) :=
  g.lookahead direction limit (g.size + 1) ⟨waiting, front, []⟩

end RoutingGraph

end QuantumCompiler
