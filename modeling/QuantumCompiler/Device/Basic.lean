import QuantumCompiler.Classes
import QuantumCompiler.Device.Basis
import QuantumCompiler.Instruction

/-!
# Devices

A quantum processor: which qubits are coupled and how well, and which gates it executes. Couplings
work in both directions. From them follow, once for each device, the hop distances with the first
step of a shortest path, the connected components, and the cheapest paths when a link of fidelity
`f` costs `-ln f`.
-/

namespace QuantumCompiler

/-- A coupling of two qubits with the fidelity of a gate on them. -/
structure Coupling (R : Type) where
  source : Qubit
  target : Qubit
  /-- Fidelity of a two-qubit gate, above zero and at most one. -/
  fidelity : R
  deriving Repr

/-- The coupling joins these two qubits, in either order. -/
def Coupling.joins {R : Type} (c : Coupling R) (a b : Qubit) : Bool :=
  (c.source == a && c.target == b) || (c.source == b && c.target == a)

/-- Shortest paths to one qubit. -/
structure Approach where
  hops : Array (Option Nat)
  /-- The next qubit on the way from each qubit. -/
  next : Array (Option Qubit)
  deriving Repr, Inhabited

namespace Approach

/-- Meets a neighbour of a qubit whose distance is known: a qubit met for the first time is one link
farther away and joins the queue. -/
def meet (from_ : Qubit) (state : Approach × List Qubit) (q : Qubit) : Approach × List Qubit :=
  let (a, queue) := state
  match a.hops[q]? with
  | some none =>
    let distance := (a.hops[from_]?.join).map (· + 1)
    ({ hops := a.hops.setIfInBounds q distance, next := a.next.setIfInBounds q (some from_) },
      queue ++ [q])
  | _ => state

/-- Breadth-first search: looks at the neighbours of the first qubit in the queue. Every qubit joins
the queue once, so as many steps as there are qubits suffice. -/
def search (adjacency : Array (List Qubit)) : Nat → Approach × List Qubit → Approach
  | 0, (a, _) => a
  | _ + 1, (a, []) => a
  | steps + 1, (a, q :: queue) =>
    search adjacency steps ((adjacency.getD q []).foldl (meet q) (a, queue))

/-- Shortest paths to a qubit along the given neighbours. -/
def toQubit (adjacency : Array (List Qubit)) (target : Qubit) : Approach :=
  let n := adjacency.size
  search adjacency n
    ({ hops := (Array.replicate n none).setIfInBounds target (some 0)
       next := (Array.replicate n none).setIfInBounds target (some target) }, [target])

end Approach

/-- The cheapest paths over at most the intermediate qubits tried so far, missing where there is no
path. -/
abbrev CostTable (R : Type) := Array (Array (Option R))

namespace CostTable

variable {R : Type} [Scalar R]

def get? (t : CostTable R) (i j : Qubit) : Option R := (t.getD i #[]).getD j none

/-- The cheaper of two costs; the first one if they are equal. -/
def cheaper : Option R → Option R → Option R
  | some a, some b => if Scalar.lt b a then some b else some a
  | some a, none => some a
  | none, b => b

/-- Enters a cost where it is cheaper than the one that stands there. -/
def offer (t : CostTable R) (i j : Qubit) (cost : R) : CostTable R :=
  t.modify i (·.modify j fun old => cheaper old (some cost))

/-- Every qubit reaches itself for nothing. -/
def start (n : Nat) : CostTable R :=
  Array.ofFn fun i : Fin n => Array.ofFn fun j : Fin n => if i = j then some 0 else none

/-- The cost of single links, and nothing from a qubit to itself. -/
def direct (n : Nat) (links : List (Qubit × Qubit × R)) : CostTable R :=
  links.foldl (fun t (i, j, w) => (t.offer i j w).offer j i w) (start n)

/-- Offers the way from `i` to `j` that leads to `k` for a cost already known and on from there, if
there is one. The table changes in place: what leads on from `k` is read as it stands by then. -/
def throughEntry (k i : Qubit) (head : R) (t : CostTable R) (j : Qubit) : CostTable R :=
  match t.get? k j with
  | none => t
  | some tail => t.offer i j (head + tail)

/-- Offers the ways from `i` over `k`, unless there is no way to `k`. -/
def throughRow (k : Qubit) (t : CostTable R) (i : Qubit) : CostTable R :=
  match t.get? i k with
  | none => t
  | some head => (List.range t.size).foldl (throughEntry k i head) t

/-- Offers all ways over `k`. -/
def through (t : CostTable R) (k : Qubit) : CostTable R :=
  (List.range t.size).foldl (throughRow k) t

def cheapest (n : Nat) (links : List (Qubit × Qubit × R)) : CostTable R :=
  (List.range n).foldl through (direct n links)

end CostTable

/-- A quantum processor. -/
structure Device (R : Type) where
  name : String
  numQubits : Nat
  couplings : List (Coupling R)
  basis : Basis
  /-- Where the qubits are drawn, by row and column. -/
  positions : Option (List (Int × Int))
  /-- The neighbours of each qubit in ascending order. -/
  adjacency : Array (List Qubit)
  approaches : Array Approach
  costs : CostTable R
  /-- The connected component of each qubit, counted from the one of the first qubit on. -/
  components : Array Nat

namespace Device

variable {R : Type} [Scalar R]

/-- The couplings without those of a pair that came before. -/
def distinctPairs (edges : List (Coupling R)) : List (Coupling R) :=
  edges.foldl (fun kept e => if kept.any (·.joins e.source e.target) then kept else kept ++ [e]) []

/-- The qubits coupled to each qubit, in ascending order. -/
def neighbourLists (n : Nat) (couplings : List (Coupling R)) : Array (List Qubit) :=
  (couplings.foldl (fun (lists : Array (List Qubit)) e =>
    (lists.modify e.source (e.target :: ·)).modify e.target (e.source :: ·))
    (Array.replicate n [])).map fun qs => qs.mergeSort (· ≤ ·)

/-- Numbers the connected components in the order of their smallest qubits. -/
def numberComponents (n : Nat) (couplings : List (Coupling R)) : Array Nat :=
  Classes.renumber (Classes.ofPairs n (couplings.map fun c => (c.source, c.target)))

/-- The device of a list of acceptable couplings; a repeated pair keeps its first fidelity. -/
def ofCouplings (name : String) (n : Nat) (edges : List (Coupling R)) (basis : Basis) : Device R :=
  let couplings := distinctPairs edges
  let adjacency := neighbourLists n couplings
  let approaches := Array.ofFn fun q : Fin n => Approach.toQubit adjacency q
  { name, numQubits := n, couplings, basis, positions := none, adjacency, approaches
    costs := CostTable.cheapest n
      (couplings.map fun c => (c.source, c.target, -Scalar.ln c.fidelity))
    components := numberComponents n couplings }

/-- Accepts a coupling of two different qubits with a fidelity above zero and at most one. -/
def checkCoupling (n : Nat) (c : Coupling R) : Compile R Unit :=
  if c.source ≥ n ∨ c.target ≥ n then
    .error (.invalidConfiguration (.edgeOutOfRange c.source c.target n))
  else if c.source = c.target then .error (.invalidConfiguration (.selfLoop c.source))
  else if Scalar.gt c.fidelity 0 && Scalar.le c.fidelity 1 then .ok ()
  else .error (.invalidConfiguration (.fidelity c.fidelity c.source c.target))

/-- The device of a list of couplings. Fails on the first one that is not acceptable. -/
def ofEdges (name : String) (n : Nat) (edges : List (Coupling R)) (basis : Basis) :
    Compile R (Device R) := do
  edges.forM (checkCoupling n)
  return ofCouplings name n edges basis

/-- Draws the device: one place for each qubit. -/
def withPositions (d : Device R) (positions : List (Int × Int)) : Compile R (Device R) :=
  if positions.length = d.numQubits then .ok { d with positions := some positions }
  else .error (.invalidConfiguration (.positions positions.length d.numQubits))

def withBasis (d : Device R) (basis : Basis) : Device R := { d with basis }

/-- The coupled qubits in ascending order. -/
def neighbours (d : Device R) (q : Qubit) : List Qubit := d.adjacency.getD q []

def isAdjacent (d : Device R) (a b : Qubit) : Bool := d.couplings.any (·.joins a b)

def fidelity? (d : Device R) (a b : Qubit) : Option R :=
  (d.couplings.find? (·.joins a b)).map Coupling.fidelity

/-- Mean fidelity of the couplings, one without couplings. -/
def meanFidelity (d : Device R) : R :=
  if d.couplings.isEmpty then 1
  else Scalar.sum (d.couplings.map Coupling.fidelity) / Scalar.ofNat d.couplings.length

def distance? (d : Device R) (a b : Qubit) : Option Nat :=
  (d.approaches[b]?).bind fun approach => approach.hops.getD a none

def cost? (d : Device R) (a b : Qubit) : Option R := (d.costs.get? a b).filter Scalar.isFinite

/-- Follows the next qubits on the way to a target. -/
def walk (approach : Approach) : Nat → Qubit → List Qubit
  | 0, _ => []
  | steps + 1, q =>
    match approach.next.getD q none with
    | some next => next :: walk approach steps next
    | none => []

def path? (d : Device R) (a b : Qubit) : Option (List Qubit) := do
  let approach ← d.approaches[b]?
  let hops ← approach.hops.getD a none
  return a :: walk approach hops a

def component? (d : Device R) (q : Qubit) : Option Nat := d.components[q]?

def numComponents (d : Device R) : Nat := d.components.foldl (fun m c => max m (c + 1)) 0

/-- The device executes an instruction as it is. -/
def isNative (d : Device R) (i : Instruction R) : Bool := d.basis.contains i.name

end Device

end QuantumCompiler
