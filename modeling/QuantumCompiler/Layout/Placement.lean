import QuantumCompiler.Layout.Basic

/-!
# Placements

A layout completed to a permutation of the qubits of a device. Logical numbers from the width of the
circuit on stand for physical qubits that hold no circuit qubit, so a swap on any coupling exchanges
two entries of the permutation.
-/

namespace QuantumCompiler

/-- Where every logical qubit sits, and which one sits on every physical qubit. -/
structure Placement where
  toPhysical : Array Qubit
  toLogical : Array Qubit
  width : Nat
  deriving DecidableEq, Repr

namespace Placement

def physical (p : Placement) (logical : Qubit) : Qubit := p.toPhysical.getD logical 0

/-- Which logical qubit sits on a physical one. -/
def logical (p : Placement) (physical : Qubit) : Qubit := p.toLogical.getD physical 0

/-- The two tables while a layout is completed. -/
structure Filling where
  toPhysical : Array Qubit
  /-- Nothing where a physical qubit is free. -/
  toLogical : Array (Option Qubit)

namespace Filling

def start (numPhysical : Nat) : Filling := ⟨#[], .replicate numPhysical none⟩

def occupied (f : Filling) (physical : Qubit) : Bool := (f.toLogical.getD physical none).isSome

/-- Puts the next logical qubit on a physical one. -/
def put (f : Filling) (logical physical : Qubit) : Filling :=
  ⟨f.toPhysical.push physical, f.toLogical.setIfInBounds physical (some logical)⟩

/-- Puts a logical qubit where a layout has it. Fails when it has no place on the device, or the place
of another. -/
def choose {R : Type} (l : Layout) (f : Filling) (logical : Qubit) : Compile R Filling :=
  match (l.physical? logical).filter (· < f.toLogical.size) with
  | none => .error (.invalidConfiguration (.unplaced logical))
  | some p =>
    if f.occupied p then .error (.invalidConfiguration (.sharedPlace p)) else .ok (f.put logical p)

/-- Puts a logical qubit on the first free one of the physical qubits that were not looked at. -/
def takeFree {R : Type} : Filling × List Qubit → Qubit → Compile R (Filling × List Qubit)
  | (f, rest), logical =>
    match rest.dropWhile f.occupied with
    | [] => .error (.internal .physicalExhausted)
    | p :: rest => .ok (f.put logical p, rest)

end Filling

/-- Completes a layout: the physical qubits that are left take the logical numbers that are left,
both in ascending order. -/
def ofLayout {R : Type} (l : Layout) (numLogical numPhysical : Nat) : Compile R Placement :=
  if numLogical > numPhysical then .error (.insufficientQubits numLogical numPhysical)
  else do
    let f ← (List.range numLogical).foldlM (Filling.choose l) (.start numPhysical)
    let (f, _) ← (List.range' numLogical (numPhysical - numLogical)).foldlM Filling.takeFree
      (f, List.range numPhysical)
    return ⟨f.toPhysical, (f.toLogical.toList.map (·.getD 0)).toArray, numLogical⟩

/-- The part of the circuit, as a layout. -/
def toLayout (p : Placement) : Layout := .ofPhysical (p.toPhysical.toList.take p.width)

def swap (p : Placement) (a b : Qubit) : Placement :=
  let x := p.logical a
  let y := p.logical b
  { p with
    toPhysical := (p.toPhysical.setIfInBounds x b).setIfInBounds y a
    toLogical := (p.toLogical.setIfInBounds a y).setIfInBounds b x }

/-- Applies swaps in order. -/
def swaps (p : Placement) (pairs : List (Qubit × Qubit)) : Placement :=
  pairs.foldl (fun p (a, b) => p.swap a b) p

end Placement

end QuantumCompiler
