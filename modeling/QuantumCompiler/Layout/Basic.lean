import QuantumCompiler.Layout.QubitMap
import QuantumCompiler.Options
import QuantumCompiler.Random.Stream

/-!
# Layouts

A layout places qubits of a circuit, the logical ones, on qubits of a device, the physical ones. It
is a partial bijection, kept as a map in each direction: placing and swapping qubits write to both
maps one after the other.
-/

namespace QuantumCompiler

/-- Which logical qubit sits on which physical one. -/
structure Layout where
  /-- Where the logical qubits sit. -/
  toPhysical : QubitMap
  /-- What sits on the physical qubits. -/
  toLogical : QubitMap
  deriving DecidableEq, Repr, Inhabited

namespace Layout

def empty : Layout := ⟨.empty, .empty⟩

def physical? (l : Layout) (logical : Qubit) : Option Qubit := l.toPhysical.get? logical

/-- Which logical qubit sits on a physical one. -/
def logical? (l : Layout) (physical : Qubit) : Option Qubit := l.toLogical.get? physical

/-- Places a logical qubit; where it sat before and what sat there before is forgotten. -/
def add (l : Layout) (logical physical : Qubit) : Layout :=
  let toPhysical := l.toPhysical.forget (l.logical? physical) logical
  let toLogical := l.toLogical.forget (toPhysical.get? logical) physical
  ⟨toPhysical.insert logical physical, toLogical.insert physical logical⟩

/-- Puts a logical qubit on a physical one, or clears the physical one. -/
def occupy (l : Layout) (occupant : Option Qubit) (physical : Qubit) : Layout :=
  match occupant with
  | some logical => ⟨l.toPhysical.insert logical physical, l.toLogical.insert physical logical⟩
  | none => ⟨l.toPhysical, l.toLogical.erase physical⟩

/-- Exchanges what sits on two physical qubits, if anything. -/
def swap (l : Layout) (a b : Qubit) : Layout :=
  (l.occupy (l.logical? a) b).occupy (l.logical? b) a

/-- Places the logical qubits `0, 1, …` on the listed physical ones. -/
def ofPhysical (physical : List Qubit) : Layout :=
  physical.zipIdx.foldl (fun l (p, q) => l.add q p) empty

/-- Places each of the first `n` qubits on the physical qubit of its number. -/
def trivial (n : Nat) : Layout := ofPhysical (List.range n)

def size (l : Layout) : Nat := l.toPhysical.size

/-- The placed qubits with their places. -/
def pairs (l : Layout) : List (Qubit × Qubit) := l.toPhysical.entries

/-- The pairs in ascending order of the logical qubits, which is the order of the map. -/
def toList (l : Layout) : List (Qubit × Qubit) := l.pairs

/-- A first layout of a circuit on a device. A random one shuffles the physical qubits, so that
equal seeds give equal layouts. -/
def initial {R : Type} (strategy : LayoutStrategy) (numLogical numPhysical seed : Nat) :
    Compile R Layout :=
  if numLogical > numPhysical then .error (.insufficientQubits numLogical numPhysical)
  else
    match strategy with
    | .trivial => .ok (trivial numLogical)
    | .random =>
      let (physical, _) := (Random.Stream.ofSeed seed).shuffle (List.range numPhysical)
      .ok (ofPhysical (physical.take numLogical))

end Layout

end QuantumCompiler
