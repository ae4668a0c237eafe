import QuantumCompiler.Dag.Basic

/-!
# Reading a dependency graph in order

Topological order by repeatedly taking, among the operations whose predecessors are all done, the
one with the smallest position. A graph that was never changed comes out in the order in which it
was built. An operation that depends on itself is never free, so on a cyclic graph the order is
shorter than the graph and reading it fails.
-/

namespace QuantumCompiler.Dag

variable {R : Type}

/-- The edges between operations, once for every wire. -/
def edges (d : Dag R) : List (Nat × Nat) :=
  d.links.wires.flatMap fun w => (d.along w).filterMap Link.ops?

def indegrees (d : Dag R) (edges : List (Nat × Nat)) : Array Nat :=
  edges.foldl (fun counts e => counts.modify e.2 (· + 1)) (Array.replicate d.slots.size 0)

def targets (d : Dag R) (edges : List (Nat × Nat)) : Array (List Nat) :=
  edges.foldl (fun ts e => ts.modify e.1 (e.2 :: ·)) (Array.replicate d.slots.size [])

/-- The position of an operation; a free slot has none and sorts first. -/
def position (d : Dag R) (id : Nat) : List Nat := ((d.op? id).map OpNode.position).getD []

/-- Sorts before: by position, then by slot. -/
def precedes (d : Dag R) (a b : Nat) : Bool :=
  let p := d.position a
  let q := d.position b
  decide (p < q) || (p == q && decide (a < b))

/-- Adds an operation to a list sorted by position. -/
def enqueue (d : Dag R) (id : Nat) : List Nat → List Nat
  | [] => [id]
  | x :: xs => if d.precedes id x then id :: x :: xs else x :: enqueue d id xs

/-- Takes the first free operation again and again. `waiting` counts for every operation the edges
from operations that are not done; one whose count reaches zero joins the sorted list of free
ones. Each step does one operation, so as many steps as there are operations suffice. -/
def drain (d : Dag R) (targets : Array (List Nat)) : Nat → Array Nat → List Nat → List Nat
  | 0, _, _ => []
  | _ + 1, _, [] => []
  | steps + 1, waiting, id :: ready =>
    let (waiting, ready) := ((targets[id]?).getD []).foldl
      (fun (acc : Array Nat × List Nat) v =>
        let waiting := acc.1.modify v (· - 1)
        (waiting, if waiting[v]? = some 0 then d.enqueue v acc.2 else acc.2))
      (waiting, ready)
    id :: drain d targets steps waiting ready

/-- The operations that can be reached in topological order. -/
def reachableOrder (d : Dag R) : List Nat :=
  let edges := d.edges
  let waiting := d.indegrees edges
  let nodes := d.nodes
  let free := nodes.filter fun id => waiting[id]? = some 0
  let ready := free.foldl (fun xs id => d.enqueue id xs) []
  d.drain (d.targets edges) nodes.length waiting ready

/-- All operations in topological order. -/
def topologicalNodes (d : Dag R) : Except CircuitError (List Nat) :=
  let order := d.reachableOrder
  if order.length = d.numOps then .ok order else .error (.invalidStructure .cycle)

/-- All operations in topological order with their instructions. -/
def topologicalOps (d : Dag R) : Except CircuitError (List (Nat × Instruction R)) :=
  return (← d.topologicalNodes).filterMap fun id => (d.instruction? id).map (id, ·)

/-- The instructions in topological order. -/
def linearize (d : Dag R) : Except CircuitError (List (Instruction R)) :=
  return (← d.topologicalOps).map (·.2)

/-- The depth of each wire after one more instruction: a layer behind the deepest of its wires, or
level with it for a barrier. -/
def deepen (depths : PerWire Nat) (i : Instruction R) : PerWire Nat × Nat :=
  let base := (i.wires.map fun w => (depths.get? w).getD 0).foldl max 0
  let depth := if i.isBarrier then base else base + 1
  (i.wires.foldl (fun ds w => ds.modify w fun _ => depth) depths, depth)

/-- Number of layers. Barriers synchronize their wires without adding a layer. -/
def depth (d : Dag R) : Nat :=
  (d.reachableOrder.filterMap d.instruction?).foldl
    (fun (acc : PerWire Nat × Nat) i =>
      let (depths, depth) := deepen acc.1 i
      (depths, max acc.2 depth))
    (.replicate d.numQubits d.numClbits 0, 0) |>.2

/-- The graph with the order of its operations reversed. Gates are not inverted. -/
def reversed [Scalar R] (d : Dag R) : Except CircuitError (Dag R) := do
  let is ← d.linearize
  let r ← ofInstructions d.numQubits d.numClbits is.reverse
  return { r with phase := d.phase }

/-- The qubits that some operation touches, in ascending order. -/
def qubitsUsed (d : Dag R) : List Qubit :=
  let used := d.instructions.flatMap fun (_, i) => i.qubits
  (List.range d.numQubits).filter used.contains

/-- Adds one to the count of a name in a list sorted by name. -/
def countName (name : String) : List (String × Nat) → List (String × Nat)
  | [] => [(name, 1)]
  | (n, k) :: rest =>
    if name = n then (n, k + 1) :: rest
    else if name < n then (name, 1) :: (n, k) :: rest
    else (n, k) :: countName name rest

/-- Number of operations of each name, sorted by name. -/
def countOps (d : Dag R) : List (String × Nat) :=
  d.instructions.foldl (fun counts (_, i) => countName i.name counts) []

/-- Number of points: an input and an output for every wire, and the operations. -/
def numPoints (d : Dag R) : Nat := 2 * (d.numQubits + d.numClbits) + d.numOps

/-- Follows a wire from a point to its output, by at most the given number of edges. -/
def follow (d : Dag R) (w : Wire) : Nat → Node → Except CircuitError Unit
  | 0, n =>
    if n = .output w then .ok ()
    else
      match d.successor? n w with
      | none => .error (d.brokenWire n w)
      | some _ => .error (.invalidStructure (.endlessWire w))
  | steps + 1, n =>
    if n = .output w then .ok ()
    else
      match d.successor? n w with
      | none => .error (d.brokenWire n w)
      | some next => follow d w steps next

/-- The wires of the edges that have a point on the given side. -/
def edgeWires (d : Dag R) (side : Link → Node) (n : Node) : List Wire :=
  d.links.wires.flatMap fun w => ((d.along w).filter fun l => side l == n).map fun _ => w

/-- Checks that the edges on one side of an operation are one for each of its wires. -/
def checkEdges (d : Dag R) (id : Nat) (i : Instruction R) (side : Link → Node) :
    Except CircuitError Unit :=
  let wires := d.edgeWires side (.op id)
  if wires.length ≠ i.qubits.length + i.clbits.length ∨ i.wires.any (fun w => !wires.contains w) then
    .error (.invalidStructure (.strayEdges i.name (d.number (.op id)) wires))
  else .ok ()

/-- Checks the structure: no operation depends on itself, every wire runs from its input to its
output, and every operation has one edge on either side for each of its wires and no others. -/
def verify (d : Dag R) : Except CircuitError Unit := do
  if d.reachableOrder.length ≠ d.numOps then throw (.invalidStructure .cycle)
  d.links.wires.forM fun w => d.follow w d.numPoints (.input w)
  d.instructions.forM fun (id, i) => [Link.target, Link.source].forM (d.checkEdges id i)

end QuantumCompiler.Dag
