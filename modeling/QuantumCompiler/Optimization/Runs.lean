import QuantumCompiler.Device.Basic
import QuantumCompiler.Dag.Order
import QuantumCompiler.Synthesis.Euler

/-!
# Resynthesis of one-qubit runs

A maximal run of one-qubit gates on a qubit is one unitary. It is synthesized anew, and the new
gates take the place of the run when they are fewer and the device executes them.
-/

namespace QuantumCompiler.Runs

variable {R : Type} [Scalar R]

/-- The maximal blocks of neighbours with a property; `current` is the block that is open. -/
def maximalRuns {α : Type} (p : α → Bool) (current : List α) : List α → List (List α)
  | [] => if current.isEmpty then [] else [current]
  | x :: xs =>
    if p x then maximalRuns p (current ++ [x]) xs
    else if current.isEmpty then maximalRuns p [] xs
    else current :: maximalRuns p [] xs

/-- The standard gate of an operation that can be part of a run: on one qubit, with numbers for
angles. -/
def member? (i : Instruction R) : Option (StandardGate R) :=
  if i.qubits.length = 1 then
    i.standard?.filter fun g => g.numQubits == 1 && !g.isParameterized
  else none

/-- A run on a qubit, in time order. -/
structure Run (R : Type) where
  qubit : Qubit
  members : List (Nat × StandardGate R)

/-- All runs of a dependency graph, qubit by qubit. -/
def ofDag (d : Dag R) : Compile R (List (Run R)) := do
  let ops ← Compile.ofCircuit d.topologicalOps
  return (List.range d.numQubits).flatMap fun q =>
    let onQubit := ops.filter fun (_, i) => i.qubits.contains q
    (maximalRuns (fun (_, i) => (member? i).isSome) [] onQubit).map fun run =>
      ⟨q, run.filterMap fun (id, i) => (member? i).map (id, ·)⟩

/-- Puts a shorter sequence in the place of a run: its gates take the first nodes and the others are
removed. -/
def place (d : Dag R) (run : Run R) (s : OneQubitSequence R) : Compile R (Dag R) := do
  let nodes := run.members.map (·.1)
  let d ← (nodes.zip s.gates).foldlM (fun (d : Dag R) (id, g) =>
    Compile.ofCircuit (d.replace id (.ofStandard g [run.qubit]))) d
  let d ← (nodes.drop s.gates.length).foldlM (fun (d : Dag R) id => do
    return (← Compile.ofCircuit (d.remove id)).2) d
  return d.addPhase s.phase

/-- Rotations within this angle of zero are dropped. -/
def dropTolerance : R := Scalar.allowance 10

/-- Resynthesizes one run where that makes it shorter and all new gates are executed. A run without
a matrix stays as it is. -/
def resynthesize (family : EulerFamily) (executes : StandardGate R → Bool) (d : Dag R)
    (run : Run R) : Compile R (Dag R) :=
  match Mat2.ofSequence? (run.members.map (·.2)) with
  | none => .ok d
  | some u => do
    let s ← family.synthesize u dropTolerance
    if s.gates.length < run.members.length && s.gates.all executes then place d run s
    else return d

/-- The rotation family for runs; without a device any family will do. -/
def family? (device : Option (Device R)) (requested : Option EulerFamily) :
    Compile R (Option EulerFamily) :=
  match device with
  | some device => device.basis.resolveFamily requested
  | none => .ok (some (requested.getD .zyz))

/-- Resynthesizes all runs of a dependency graph. Nothing happens on a device without a rotation
family. -/
def all (device : Option (Device R)) (requested : Option EulerFamily) (d : Dag R) :
    Compile R (Dag R) := do
  match ← family? device requested with
  | none => return d
  | some family =>
    let executes (g : StandardGate R) : Bool :=
      match device with
      | some device => device.basis.contains g.name
      | none => true
    (← ofDag d).foldlM (resynthesize family executes) d

end QuantumCompiler.Runs
