import QuantumCompiler.Instruction

/-!
# Dependency graphs

A circuit as a graph of operations. Every wire starts at an input and ends at an output, and an edge
along a wire leads from one operation on it to the next, so that an operation depends on the one
before it on each of its wires. Changes cut and tie edges one wire at a time.

Every operation carries a position, a path of numbers compared lexicographically. An appended
operation gets the one-element path of a counter; the operations that replace one with path `p`
get `p ++ [0]`, `p ++ [1]` and so on, so they sort exactly where the replaced one did.

Operations sit in the slots of a table. Removing one frees its slot, and the slot freed last is the
first to be taken again; a node stays valid until its own operation is removed.

A change that fails leaves the graph as far as it got. `Dag.Edit` keeps both the failure and the
graph; `Dag.append`, `Dag.remove`, `Dag.substitute` and `Dag.replace` are for callers that have no
use for the graph of a failed change.
-/

namespace QuantumCompiler

/-- An operation of a dependency graph. -/
structure OpNode (R : Type) where
  instruction : Instruction R
  /-- Where it sorts among operations that do not depend on each other. -/
  position : List Nat
  deriving Repr, Inhabited

/-- A point of a dependency graph. -/
inductive Node where
  | input (w : Wire)
  | output (w : Wire)
  | op (id : Nat)
  deriving DecidableEq, Repr

def Node.op? : Node → Option Nat
  | .op id => some id
  | _ => none

@[simp] theorem Node.op?_input (w : Wire) : (Node.input w).op? = none := rfl

@[simp] theorem Node.op?_output (w : Wire) : (Node.output w).op? = none := rfl

@[simp] theorem Node.op?_op (id : Nat) : (Node.op id).op? = some id := rfl

/-- An edge: the target comes right after the source on some wire. -/
structure Link where
  source : Node
  target : Node
  deriving DecidableEq, Repr

/-- The edge starts or ends at a point. -/
def Link.touches (l : Link) (n : Node) : Bool := l.source == n || l.target == n

/-- The two operations that an edge joins, if it joins operations. -/
def Link.ops? : Link → Option (Nat × Nat)
  | ⟨.op a, .op b⟩ => some (a, b)
  | _ => none

/-- The dependency graph of a circuit over a fixed register. -/
structure Dag (R : Type) where
  slots : Array (Option (OpNode R))
  /-- The free slots, the one freed last in front. -/
  free : List Nat
  /-- The edges along each wire, the one added last in front. -/
  links : PerWire (List Link)
  /-- How many operations were appended, which is the position of the next one. The counter has no
  bound: graphs that `2³²` operations or more are appended to are out of scope. -/
  appended : Nat
  /-- The global phase, in radians. -/
  phase : R

namespace Dag

variable {R : Type}

/-- The graph without operations: every wire runs from its input to its output. -/
def empty [Scalar R] (numQubits numClbits : Nat) : Dag R :=
  { slots := #[], free := []
    links := (PerWire.replicate numQubits numClbits ()).mapWire fun w _ => [⟨.input w, .output w⟩]
    appended := 0, phase := 0 }

def numQubits (d : Dag R) : Nat := d.links.qubits.size

def numClbits (d : Dag R) : Nat := d.links.clbits.size

/-- The operation of a node, if the node has one. -/
def op? (d : Dag R) (id : Nat) : Option (OpNode R) := (d.slots[id]?).join

/-- The instruction of a node, if the node has one. -/
def instruction? (d : Dag R) (id : Nat) : Option (Instruction R) :=
  (d.op? id).map OpNode.instruction

/-- The nodes that hold an operation, in the order of the table. -/
def nodes (d : Dag R) : List Nat := (List.range d.slots.size).filter fun id => (d.op? id).isSome

/-- The instructions with their nodes, in the order of the table. -/
def instructions (d : Dag R) : List (Nat × Instruction R) :=
  d.nodes.filterMap fun id => (d.instruction? id).map (id, ·)

def numOps (d : Dag R) : Nat := d.nodes.length

/-- The number of a point: inputs and outputs of the wires come first, then the slots. -/
def number (d : Dag R) : Node → Nat
  | .input (.qubit q) => 2 * q
  | .output (.qubit q) => 2 * q + 1
  | .input (.clbit c) => 2 * (d.numQubits + c)
  | .output (.clbit c) => 2 * (d.numQubits + c) + 1
  | .op id => 2 * (d.numQubits + d.numClbits) + id

/-- The edges along a wire; none for a wire outside the register. -/
def along (d : Dag R) (w : Wire) : List Link := (d.links.get? w).getD []

/-- The edge that ends at a point on a wire. -/
def incoming? (d : Dag R) (n : Node) (w : Wire) : Option Link :=
  (d.along w).find? fun l => l.target == n

/-- The edge that starts at a point on a wire. -/
def outgoing? (d : Dag R) (n : Node) (w : Wire) : Option Link :=
  (d.along w).find? fun l => l.source == n

/-- The point just before a point on a wire. -/
def predecessor? (d : Dag R) (n : Node) (w : Wire) : Option Node :=
  (d.incoming? n w).map Link.source

/-- The point just after a point on a wire. -/
def successor? (d : Dag R) (n : Node) (w : Wire) : Option Node :=
  (d.outgoing? n w).map Link.target

/-- The operation just before a point on a wire. -/
def previousOp? (d : Dag R) (n : Node) (w : Wire) : Option Nat :=
  (d.predecessor? n w).bind Node.op?

/-- The operation just after a point on a wire. -/
def nextOp? (d : Dag R) (n : Node) (w : Wire) : Option Nat :=
  (d.successor? n w).bind Node.op?

/-- The operations met by following each wire of an operation one step, each once. -/
def neighbours (d : Dag R) (step : Node → Wire → Option Nat) (id : Nat) : List Nat :=
  match d.instruction? id with
  | none => []
  | some i => (i.wires.filterMap (step (.op id))).eraseDups

/-- The operations that directly depend on an operation, in operand order. -/
def successors (d : Dag R) (id : Nat) : List Nat := d.neighbours d.nextOp? id

/-- The operations that an operation directly depends on, in operand order. -/
def predecessors (d : Dag R) (id : Nat) : List Nat := d.neighbours d.previousOp? id

def link (d : Dag R) (w : Wire) (l : Link) : Dag R :=
  { d with links := d.links.modify w (l :: ·) }

def unlink (d : Dag R) (w : Wire) (l : Link) : Dag R :=
  { d with links := d.links.modify w (·.erase l) }

/-- Puts an operation into a slot, the one freed last if there is any, and tells which. -/
def addNode (d : Dag R) (n : OpNode R) : Nat × Dag R :=
  match d.free with
  | id :: rest => (id, { d with slots := d.slots.setIfInBounds id (some n), free := rest })
  | [] => (d.slots.size, { d with slots := d.slots.push (some n) })

/-- Frees the slot of an operation and takes all its edges away. -/
def removeNode (d : Dag R) (id : Nat) : Dag R :=
  { d with
    slots := d.slots.setIfInBounds id none
    free := id :: d.free
    links := d.links.mapWire fun _ ls => ls.filter fun l => !l.touches (.op id) }

/-- The fault of a wire that breaks off at a point. -/
def brokenWire (d : Dag R) (n : Node) (w : Wire) : CircuitError :=
  .invalidStructure (.brokenWire w (d.number n))

/-- A place on a wire where edges are missing: what comes before it and what after it. -/
structure Gap where
  wire : Wire
  /-- The last point before the gap. -/
  before : Node
  /-- The first point after the gap. -/
  after : Node
  deriving DecidableEq, Repr

/-- The gap that an operation would leave on a wire. -/
def gap (d : Dag R) (id : Nat) (w : Wire) : Except CircuitError Gap :=
  match d.predecessor? (.op id) w, d.successor? (.op id) w with
  | some before, some after => .ok ⟨w, before, after⟩
  | _, _ => .error (d.brokenWire (.op id) w)

/-- Moves the near side of the first gap on a wire on to a node. -/
def Gap.advance (id : Nat) (w : Wire) : List Gap → List Gap
  | [] => []
  | g :: gs => if g.wire = w then { g with before := .op id } :: gs else g :: advance id w gs

/-- Ties a new node to the near side of the gap on one of its wires. -/
def tie (id : Nat) (state : Dag R × List Gap) (w : Wire) : Dag R × List Gap :=
  match state.2.find? fun g => g.wire == w with
  | some g => (state.1.link w ⟨g.before, .op id⟩, Gap.advance id w state.2)
  | none => state

/-- Fills gaps with a sequence of operations, in order, and tells the new nodes. The operations get
the positions under the given one, from number `k` on. -/
def fill (position : List Nat) : Nat → List (Instruction R) → Dag R × List Gap →
    List Nat × Dag R × List Gap
  | _, [], state => ([], state)
  | k, i :: is, (d, gaps) =>
    let (id, d) := d.addNode ⟨i, position ++ [k]⟩
    let (ids, state) := fill position (k + 1) is (i.wires.foldl (tie id) (d, gaps))
    (id :: ids, state)

def close (d : Dag R) (gaps : List Gap) : Dag R :=
  gaps.foldl (fun d g => d.link g.wire ⟨g.before, g.after⟩) d

/-- Accepts a replacement for an operation on the given wires: every instruction is acceptable by
itself and stays on the wires. -/
def checkReplacement (d : Dag R) (wires : List Wire) (i : Instruction R) :
    Except CircuitError Unit := do
  i.validate d.numQubits d.numClbits
  match i.wires.find? fun w => !wires.contains w with
  | some w => throw (.invalidStructure (.strayWire i.name w))
  | none => pure ()

/-- A change of a dependency graph. Whatever was done before a failure stays done. -/
abbrev Edit (R : Type) (α : Type) := ExceptT CircuitError (StateM (Dag R)) α

namespace Edit

/-- Cuts the last edge of a wire and ties a node in. -/
def extend (id : Nat) (w : Wire) : Edit R Unit := do
  let d ← get
  if (d.links.get? w).isNone then throw (d.brokenWire (.op id) w)
  else
    match d.incoming? (.output w) w with
    | none => throw (d.brokenWire (.output w) w)
    | some l => set (((d.unlink w l).link w ⟨l.source, .op id⟩).link w ⟨.op id, .output w⟩)

/-- Appends an instruction behind everything on its wires and tells its node. -/
def append (i : Instruction R) : Edit R Nat := do
  let d ← get
  liftExcept (i.validate d.numQubits d.numClbits)
  let (id, d) := { d with appended := d.appended + 1 }.addNode ⟨i, [d.appended]⟩
  set d
  i.wires.forM (extend id)
  return id

/-- Removes an operation and tells what it was; its neighbours on each wire move together. -/
def remove (id : Nat) : Edit R (Instruction R) := do
  let d ← get
  match d.op? id with
  | none => throw .invalidNode
  | some n =>
    let gaps ← liftExcept (n.instruction.wires.mapM (d.gap id))
    set ((d.removeNode id).close gaps)
    return n.instruction

/-- Replaces an operation by a sequence on its wires and tells the new nodes. An empty sequence
removes it. -/
def substitute (id : Nat) (is : List (Instruction R)) : Edit R (List Nat) := do
  let d ← get
  if is.length > maxIndex then throw (.invalidStructure (.tooManyParts is.length))
  else
    match d.op? id with
    | none => throw .invalidNode
    | some n =>
      let wires := n.instruction.wires
      liftExcept (is.forM (d.checkReplacement wires))
      let gaps ← liftExcept (wires.mapM (d.gap id))
      let (created, d, gaps) := fill n.position 0 is (d.removeNode id, gaps)
      set (d.close gaps)
      return created

/-- Exchanges the instruction of a node for one over exactly the same wires. -/
def replace (id : Nat) (i : Instruction R) : Edit R Unit := do
  let d ← get
  liftExcept (i.validate d.numQubits d.numClbits)
  match d.op? id with
  | none => throw .invalidNode
  | some n =>
    if i.wires.isPerm n.instruction.wires then
      set { d with slots := d.slots.setIfInBounds id (some { n with instruction := i }) }
    else throw (.invalidStructure (.wiresDiffer i.name n.instruction.name))

end Edit

section Edit

variable {α β : Type}

/-- Changes a graph and tells what came of it, with the graph after it. -/
def edit (d : Dag R) (e : Edit R α) : Except CircuitError α × Dag R := (ExceptT.run e).run d

@[simp] theorem edit_pure (d : Dag R) (a : α) : d.edit (pure a : Edit R α) = (.ok a, d) := rfl

@[simp] theorem edit_throw (d : Dag R) (e : CircuitError) :
    d.edit (throw e : Edit R α) = (.error e, d) := rfl

@[simp] theorem edit_get (d : Dag R) : d.edit (get : Edit R (Dag R)) = (.ok d, d) := rfl

@[simp] theorem edit_set (d e : Dag R) : d.edit (set e : Edit R PUnit) = (.ok ⟨⟩, e) := rfl

@[simp] theorem edit_liftExcept (d : Dag R) (x : Except CircuitError α) :
    d.edit (liftExcept x : Edit R α) = (x, d) := by
  cases x <;> rfl

/-- The second change starts from the graph that the first one leaves, unless that fails. -/
theorem edit_bind (d : Dag R) (e : Edit R α) (f : α → Edit R β) :
    d.edit (e >>= f) =
      match d.edit e with
      | (.ok a, d) => d.edit (f a)
      | (.error x, d) => (.error x, d) := by
  simp only [edit, ExceptT.run_bind, StateT.run_bind]
  rcases (ExceptT.run e).run d with ⟨a | a, d⟩ <;> rfl

theorem edit_map (d : Dag R) (e : Edit R α) (f : α → β) :
    d.edit (f <$> e) = ((d.edit e).1.map f, (d.edit e).2) := by
  simp only [edit, ExceptT.run_map, StateT.run_map]
  rcases (ExceptT.run e).run d with ⟨a | a, d⟩ <;> rfl

/-- Changes a graph. The graph of a failed change is dropped. -/
def edited (d : Dag R) (e : Edit R α) : Except CircuitError (α × Dag R) :=
  match d.edit e with
  | (.ok a, d) => .ok (a, d)
  | (.error error, _) => .error error

end Edit

/-- Appends an instruction behind everything on its wires and tells its node. -/
def append (d : Dag R) (i : Instruction R) : Except CircuitError (Nat × Dag R) :=
  d.edited (.append i)

/-- Removes an operation and tells what it was. -/
def remove (d : Dag R) (id : Nat) : Except CircuitError (Instruction R × Dag R) :=
  d.edited (.remove id)

/-- Replaces an operation by a sequence on its wires and tells the new nodes. -/
def substitute (d : Dag R) (id : Nat) (is : List (Instruction R)) :
    Except CircuitError (List Nat × Dag R) :=
  d.edited (.substitute id is)

/-- Exchanges the instruction of a node for one over exactly the same wires. -/
def replace (d : Dag R) (id : Nat) (i : Instruction R) : Except CircuitError (Dag R) :=
  (d.edited (.replace id i)).map (·.2)

def ofInstructions [Scalar R] (numQubits numClbits : Nat) (is : List (Instruction R)) :
    Except CircuitError (Dag R) :=
  is.foldlM (fun d i => (d.append i).map (·.2)) (empty numQubits numClbits)

section Phase

variable [Scalar R]

/-- Sets the global phase, reduced to `[0, 2π)`. -/
def setPhase (d : Dag R) (phase : R) : Dag R :=
  { d with phase := Scalar.remEuclid phase Scalar.tau }

def addPhase (d : Dag R) (delta : R) : Dag R := d.setPhase (d.phase + delta)

/-- The graph without operations over the same register and with the same phase. -/
def cleared (d : Dag R) : Dag R :=
  { (empty d.numQubits d.numClbits : Dag R) with phase := d.phase }

end Phase

end Dag

end QuantumCompiler
