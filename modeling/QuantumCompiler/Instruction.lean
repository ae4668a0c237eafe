import QuantumCompiler.Gate

/-!
# Instructions

One operation of a circuit with its operands. `Instruction.validate` is the check that every
instruction passes before it enters a circuit or a dependency graph.
-/

namespace QuantumCompiler

/-- What an instruction does. -/
inductive Operation (R : Type) where
  | gate (g : Gate R)
  /-- Reads each qubit into the classical bit at the same position. -/
  | measure
  | reset
  /-- Keeps the operations before and after it apart. -/
  | barrier
  | delay (duration : Nat)
  deriving Repr, BEq, Inhabited

/-- An operation with its operands. -/
structure Instruction (R : Type) where
  operation : Operation R
  /-- The qubits, in operand order. -/
  qubits : List Qubit
  /-- The classical bits, in operand order. -/
  clbits : List Clbit
  deriving Repr, BEq, Inhabited

namespace Instruction

variable {R : Type}

def ofGate (g : Gate R) (qubits : List Qubit) : Instruction R := ⟨.gate g, qubits, []⟩

def ofStandard (g : StandardGate R) (qubits : List Qubit) : Instruction R :=
  ofGate (.ofStandard g) qubits

def measure (q : Qubit) (c : Clbit) : Instruction R := ⟨.measure, [q], [c]⟩

def reset (q : Qubit) : Instruction R := ⟨.reset, [q], []⟩

def barrier (qubits : List Qubit) : Instruction R := ⟨.barrier, qubits, []⟩

def delay (q : Qubit) (duration : Nat) : Instruction R := ⟨.delay duration, [q], []⟩

def gate? (i : Instruction R) : Option (Gate R) :=
  match i.operation with
  | .gate g => some g
  | _ => none

/-- The standard gate, if the instruction applies one. -/
def standard? (i : Instruction R) : Option (StandardGate R) := i.gate?.bind Gate.standard?

def isGate (i : Instruction R) : Bool := i.gate?.isSome

def isMeasure (i : Instruction R) : Bool :=
  match i.operation with
  | .measure => true
  | _ => false

def isBarrier (i : Instruction R) : Bool :=
  match i.operation with
  | .barrier => true
  | _ => false

def isOneQubitGate (i : Instruction R) : Bool := i.isGate && i.qubits.length == 1

def isTwoQubitGate (i : Instruction R) : Bool := i.isGate && i.qubits.length == 2

/-- The name that counts and basis checks use. -/
def name (i : Instruction R) : String :=
  match i.operation with
  | .gate g => g.name
  | .measure => "measure"
  | .reset => "reset"
  | .barrier => "barrier"
  | .delay _ => "delay"

/-- The wires it touches, qubits first, in operand order. -/
def wires (i : Instruction R) : List Wire := i.qubits.map .qubit ++ i.clbits.map .clbit

def mapQubits (i : Instruction R) (f : Qubit → Qubit) : Instruction R :=
  { i with qubits := i.qubits.map f }

/-- The first element that occurs a second time. -/
def firstRepeated (seen : List Qubit) : List Qubit → Option Qubit
  | [] => none
  | q :: qs => if seen.contains q then some q else firstRepeated (q :: seen) qs

def checkArity (i : Instruction R) : Except CircuitError Unit :=
  let got := min i.qubits.length maxIndex
  match i.operation with
  | .gate g =>
    if g.numQubits ≠ got then .error (.qubitCountMismatch g.name g.numQubits got)
    else
      match g.kind with
      | .custom ⟨_, n, _, some matrix⟩ => CustomGate.checkMatrix n matrix
      | _ => .ok ()
  | .measure =>
    if i.qubits.length ≠ i.clbits.length ∨ i.qubits = [] then
      .error (.measureArity i.qubits.length i.clbits.length)
    else .ok ()
  | .reset | .delay _ =>
    if i.qubits.length ≠ 1 then .error (.qubitCountMismatch i.name 1 got) else .ok ()
  | .barrier => .ok ()

/-- Accepts an instruction for a register of the given size: the operand count fits, every operand
exists, and no qubit is named twice. The checks come in this order. -/
def validate (i : Instruction R) (numQubits numClbits : Nat) : Except CircuitError Unit := do
  let gateName := i.gate?.map Gate.name
  i.checkArity
  match i.qubits.find? (· ≥ numQubits) with
  | some q => throw (.qubitNotFound q numQubits gateName)
  | none => pure ()
  match i.clbits.find? (· ≥ numClbits) with
  | some c => throw (.clbitNotFound c numClbits gateName)
  | none => pure ()
  match firstRepeated [] i.qubits with
  | some q => throw (.duplicateQubit q gateName)
  | none => pure ()

end Instruction

end QuantumCompiler
