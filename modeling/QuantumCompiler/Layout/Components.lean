import QuantumCompiler.Classes
import QuantumCompiler.Dag.Order
import QuantumCompiler.Layout.Basic
import QuantumCompiler.Layout.Packing

/-!
# Layouts on a device in several parts

Qubits that interact, directly or through others, have to share a connected part of the device. The
groups of such qubits are packed into the parts, largest first; each group takes the next qubits of
its part in breadth-first order, and the other qubits fill what is left.
-/

namespace QuantumCompiler.Layout

variable {R : Type} [Scalar R]

/-- A label for each logical qubit, equal for qubits that gates join. -/
def interactionLabels (d : Dag R) : Array Nat :=
  Classes.ofPairs d.numQubits (d.instructions.flatMap fun (_, i) =>
    if i.isGate then i.qubits.zip i.qubits.tail else [])

/-- The groups of two or more qubits that gates join, the largest first, equal ones by their
smallest qubit. -/
def interactionGroups (d : Dag R) : List (List Qubit) :=
  let labels := interactionLabels d
  let label (q : Qubit) : Nat := labels.getD q q
  let qubits := List.range d.numQubits
  let leaders := qubits.filter fun q => !(List.range q).any fun p => label p == label q
  let groups := leaders.map fun q => qubits.filter fun p => label p == label q
  (groups.filter (·.length > 1)).mergeSort fun a b => b.length ≤ a.length

/-- The neighbours of a qubit in the order in which a run visits them. -/
def visitOrder (device : Device R) (strategy : LayoutStrategy) (random : Random.Stream)
    (q : Qubit) : List Qubit × Random.Stream :=
  match strategy with
  | .trivial => (device.neighbours q, random)
  | .random => random.shuffle (device.neighbours q)

/-- Breadth-first order from the qubits in a queue; `seen` are those that were ever in it. Every
qubit is in the queue once, so as many steps as there are qubits suffice. -/
def runFrom (device : Device R) (strategy : LayoutStrategy) :
    Nat → List Qubit → List Qubit → Random.Stream → List Qubit × Random.Stream
  | 0, _, _, random => ([], random)
  | _ + 1, [], _, random => ([], random)
  | steps + 1, q :: queue, seen, random =>
    let (next, random) := visitOrder device strategy random q
    let fresh := next.filter fun n => !seen.contains n
    let (rest, random) := runFrom device strategy steps (queue ++ fresh) (seen ++ fresh) random
    (q :: rest, random)

/-- The physical qubits of a connected part in breadth-first order, from its first qubit or from a
random one. -/
def partRun (device : Device R) (strategy : LayoutStrategy) (part : Nat) (random : Random.Stream) :
    List Qubit × Random.Stream :=
  let members := (List.range device.numQubits).filter fun q => device.component? q == some part
  let (start, random) := match strategy with
    | .trivial => (members.head?, random)
    | .random => random.choose? members
  match start with
  | none => (members, random)
  | some q => runFrom device strategy device.numQubits [q] [q] random

/-- Breadth-first orders of all parts, one random stream running through them. -/
def partRuns (device : Device R) (strategy : LayoutStrategy) (seed : Nat) : List (List Qubit) :=
  ((List.range device.numComponents).foldl (fun (acc : List (List Qubit) × Random.Stream) part =>
    let (run, random) := partRun device strategy part acc.2
    (acc.1 ++ [run], random)) ([], .ofSeed seed)).1

/-- Places a group on the next qubits of its part. -/
def placeGroup (state : Array (Option Qubit) × List (List Qubit)) (group : List Qubit)
    (part : Nat) : Array (Option Qubit) × List (List Qubit) :=
  let (places, parts) := state
  let run := parts.getD part []
  ((group.zip run).foldl (fun ps (q, p) => ps.setIfInBounds q (some p)) places,
    parts.set part (run.drop group.length))

/-- Places the qubits without a place on spare ones, in order; `none` when these run out. -/
def fillPlaces : List (Option Qubit) → List Qubit → Option (List Qubit)
  | [], _ => some []
  | some p :: places, spare => (fillPlaces places spare).map (p :: ·)
  | none :: places, p :: spare => (fillPlaces places spare).map (p :: ·)
  | none :: _, [] => none

/-- A first layout that keeps interacting qubits in one connected part. Fails only when the circuit
is too wide or no packing exists. -/
def ofComponents (d : Dag R) (device : Device R) (strategy : LayoutStrategy) (seed : Nat) :
    Compile R Layout :=
  if d.numQubits > device.numQubits then
    .error (.insufficientQubits d.numQubits device.numQubits)
  else
    let groups := interactionGroups d
    let parts := partRuns device strategy seed
    let sizes := groups.map List.length
    let rooms := parts.map List.length
    match Packing.pack? sizes rooms with
    | none => .error (.unreachableLayout (.noRoom sizes device.name rooms))
    | some (assignment, _) =>
      let (places, parts) := (groups.zip assignment).foldl
        (fun state (group, part) => placeGroup state group part)
        (Array.replicate d.numQubits none, parts)
      match fillPlaces places.toList parts.flatten with
      | some physical => .ok (ofPhysical physical)
      | none => .error (.internal .layoutExhausted)

end QuantumCompiler.Layout
