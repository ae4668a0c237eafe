import QuantumCompiler.Wire

/-!
# Errors of circuits

Why an instruction, a circuit or a change of a dependency graph is refused. Every cause is a
constructor; the wording is in `CircuitError.message` alone.
-/

namespace QuantumCompiler

/-- A fault in the structure of a dependency graph. Points of the graph are given by their
numbers. -/
inductive StructureFault where
  | cycle
  | brokenWire (wire : Wire) (point : Nat)
  | endlessWire (wire : Wire)
  /-- The edges of an operation are not the ones of its wires. -/
  | strayEdges (operation : String) (point : Nat) (wires : List Wire)
  /-- A replacement leaves the wires of the operation it stands for. -/
  | strayWire (operation : String) (wire : Wire)
  /-- A replacement has more operations than there are positions under one. -/
  | tooManyParts (count : Nat)
  /-- An operation was to be exchanged for one on other wires. -/
  | wiresDiffer (new old : String)
  deriving DecidableEq, Repr

def StructureFault.message : StructureFault → String
  | cycle => "graph contains a cycle"
  | brokenWire wire point => s!"wire {wire.text} is not connected at node NodeIndex({point})"
  | endlessWire wire => s!"wire {wire.text} does not terminate"
  | strayEdges operation point wires =>
    s!"operation '{operation}' at NodeIndex({point}) has edges "
      ++ "[" ++ ", ".intercalate (wires.map Wire.label) ++ "]"
  | strayWire operation wire =>
    s!"replacement '{operation}' touches wire {wire.text} outside the substituted node"
  | tooManyParts count => s!"replacement of {count} operations does not fit one node position"
  | wiresDiffer new old => s!"replace_op: '{new}' does not act on the wires of '{old}'"

/-- Why a circuit or a change of one is refused. -/
inductive CircuitError where
  | qubitNotFound (qubit : Qubit) (numQubits : Nat) (gate : Option String)
  | clbitNotFound (clbit : Clbit) (numClbits : Nat) (gate : Option String)
  /-- A dependency graph is or would become ill-formed. -/
  | invalidStructure (fault : StructureFault)
  | invalidNode
  | qubitCountMismatch (operation : String) (expected got : Nat)
  /-- A measurement whose qubits and classical bits do not pair up. -/
  | measureArity (qubits clbits : Nat)
  /-- A matrix of the wrong size for the width of its gate. -/
  | matrixDimension (numQubits expected got : Nat)
  /-- A gate too wide for the entries of its matrix to be counted in a word: the check breaks off. -/
  | matrixOverflow (numQubits : Nat)
  | duplicateQubit (qubit : Qubit) (gate : Option String)
  /-- A text that is not the JSON form of a circuit. -/
  | malformedText
  deriving DecidableEq, Repr

/-- The gate an error speaks of, in parentheses. -/
def gateContext : Option String → String
  | some name => s!" (gate: {name})"
  | none => ""

def CircuitError.message : CircuitError → String
  | qubitNotFound qubit numQubits gate =>
    s!"Qubit q{qubit} out of range for {numQubits}-qubit circuit{gateContext gate}"
  | clbitNotFound clbit numClbits gate =>
    s!"Classical bit c{clbit} out of range for {numClbits}-bit register{gateContext gate}"
  | invalidStructure fault => s!"Invalid DAG structure: {fault.message}"
  | invalidNode => "Invalid node index"
  | qubitCountMismatch operation expected got =>
    s!"Gate '{operation}' requires {expected} qubits, got {got}"
  | measureArity qubits clbits =>
    s!"Measurement over {qubits} qubits writes {clbits} classical bits"
  | matrixDimension numQubits expected got =>
    s!"Matrix of length {got} does not fit a {numQubits}-qubit gate (expected {expected})"
  | matrixOverflow numQubits => s!"Matrix size of a {numQubits}-qubit gate overflows"
  | duplicateQubit qubit gate => s!"Duplicate qubit q{qubit} in operation{gateContext gate}"
  | malformedText => "Serialization error"

end QuantumCompiler
