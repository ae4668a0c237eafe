import QuantumCompiler.Circuit.Basic
import QuantumCompiler.Flow.Preset

/-!
# Compiling circuits for a device

A compiler is a device with a flow. Its result is the circuit over the physical qubits together with
where the qubits sit before and after it, which qubit each measurement reads, and figures on size
and quality.
-/

namespace QuantumCompiler

variable {R : Type} [Scalar R]

/-- A compiled circuit. -/
structure Compiled (R : Type) where
  circuit : Circuit R
  /-- The physical qubit of each logical one that is used, before the first operation. -/
  initial : List (Qubit × Qubit)
  /-- The physical qubit of each logical one that is used, after the last operation. -/
  final : List (Qubit × Qubit)
  /-- The classical bit of the last measurement of each physical qubit, in ascending order. -/
  measured : List (Qubit × Clbit)
  /-- Number of operations of each name, sorted by name. -/
  counts : List (String × Nat)
  depth : Nat
  numOps : Nat
  twoQubitGates : Nat
  swaps : Nat
  /-- Product of the fidelities of all two-qubit gates, if they are all on couplings. -/
  fidelity : Option R
  deriving Repr

/-- A device with the flow that compiles for it. -/
structure Compiler (R : Type) where
  device : Device R
  flow : Flow R

namespace Compiler

/-- The compiler of a preset. Refuses options that are not valid or that the device cannot
follow. -/
def ofOptions (device : Device R) (o : CompileOptions R) : Compile R (Compiler R) := do
  o.validate
  let _ ← device.basis.resolveFamily o.family
  return ⟨device, .preset o⟩

/-- Where a layout puts the given qubits; a qubit that it does not place stays where it is. -/
def placesOf (layout : Option Layout) (qubits : List Qubit) : List (Qubit × Qubit) :=
  qubits.map fun q => (q, (layout.bind (·.physical? q)).getD q)

/-- Notes that a measurement writes a classical bit, in a list sorted by qubit. -/
def noteMeasurement (q : Qubit) (c : Clbit) : List (Qubit × Clbit) → List (Qubit × Clbit)
  | [] => [(q, c)]
  | (p, b) :: rest =>
    if q = p then (p, c) :: rest
    else if q < p then (q, c) :: (p, b) :: rest
    else (p, b) :: noteMeasurement q c rest

/-- The classical bit that the last measurement of each qubit writes. -/
def measurements (is : List (Instruction R)) : List (Qubit × Clbit) :=
  (is.flatMap fun i => if i.isMeasure then i.qubits.zip i.clbits else []).foldl
    (fun map (q, c) => noteMeasurement q c map) []

/-- Product of the fidelities of the given pairs of qubits, if they are all coupled. -/
def fidelityOf (device : Device R) (pairs : List (Qubit × Qubit)) : Option R :=
  pairs.foldl (fun product (a, b) => do return (← product) * (← device.fidelity? a b)) (some 1)

/-- The result of a finished compilation of a circuit that uses the given qubits. -/
def collect (device : Device R) (name : String) (used : List Qubit) (c : Compilation R) :
    Compile R (Compiled R) := do
  let circuit ← Compile.ofCircuit (Circuit.ofDag name c.dag)
  let pairs := circuit.instructions.filterMap Instruction.pair?
  return {
    circuit
    initial := placesOf c.initial used
    final := placesOf (c.final.or c.initial) used
    measured := measurements circuit.instructions
    counts := c.dag.countOps
    depth := c.dag.depth
    numOps := c.dag.numOps
    twoQubitGates := pairs.length
    swaps := (c.routing.map RoutingStats.swaps).getD 0
    fidelity := fidelityOf device pairs }

/-- Compiles a circuit. Fails before any pass when the circuit is wider than the device; a pass that
fails ends the compilation without a result. -/
def compile (compiler : Compiler R) (circuit : Circuit R) (cancelled : Bool) :
    Compile R (Compiled R) := do
  let device := compiler.device
  if circuit.numQubits > device.numQubits then
    throw (.insufficientQubits circuit.numQubits device.numQubits)
  let dag ← Compile.ofCircuit circuit.toDag
  let c ← compiler.flow.run cancelled (.ofDag dag (some device) none)
  collect device circuit.name dag.qubitsUsed c

/-- Compiles many circuits; a failure of one does not stop the others. -/
def compileAll (compiler : Compiler R) (circuits : List (Circuit R)) :
    List (Compile R (Compiled R)) :=
  circuits.map fun circuit => compiler.compile circuit false

end Compiler

end QuantumCompiler
