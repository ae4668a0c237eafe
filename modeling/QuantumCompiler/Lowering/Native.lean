import QuantumCompiler.Device.Basic
import QuantumCompiler.Lowering.Rules
import QuantumCompiler.Lowering.Wide
import QuantumCompiler.Synthesis.CxSequence
import QuantumCompiler.Synthesis.Euler

/-!
# Lowering into a basis

Every operation that a device does not execute is replaced by operations that it does. A rule takes
an operation apart once; its pieces are lowered again until they are in the basis. One-qubit pieces
are synthesized in the rotation family of the basis, two-qubit matrices through their interaction,
and wider operations are split first.
-/

namespace QuantumCompiler

variable {R : Type} [Scalar R]

/-- A piece of an operation that was taken apart. -/
inductive Piece (R : Type) where
  /-- A one-qubit unitary, to be synthesized; the name is for messages. -/
  | unitary (gate : String) (u : Mat2 R) (qubit : Qubit)
  | operation (i : Instruction R)
  deriving Repr

/-- An operation taken apart: its pieces in time order and the phases they miss. -/
structure Pieces (R : Type) where
  /-- The pieces, the first one acting first. -/
  pieces : List (Piece R)
  /-- The phases, in the order in which they came up. -/
  phases : List R
  deriving Repr

namespace Pieces

def ofInstructions (is : List (Instruction R)) : Pieces R := ⟨is.map .operation, []⟩

/-- The pieces of a sequence of `cx` and one-qubit unitaries on two operands. -/
def ofCxSequence (gate : String) (a b : Qubit) (s : CxSequence R) : Pieces R :=
  let operand (k : Fin 2) : Qubit := if k.val = 0 then a else b
  { pieces := s.steps.map fun
      | .block k u => .unitary gate u (operand k)
      | .cx control =>
        .operation (.ofStandard .cx [operand control, operand (CxStep.other control)])
    phases := [s.phase] }

end Pieces

/-- The gates of a kind that is split before any other rule applies. -/
def StandardGate.isSplit : StandardGate R → Bool
  | ccx | cswap | mcx _ | mcry .. | mcu .. => true
  | _ => false

namespace Basis

/-- Rotations within this angle of zero are dropped. -/
def dropTolerance : R := Scalar.allowance 10

def takeOneQubit (g : StandardGate R) (q : Qubit) : Compile R (Pieces R) :=
  match g.angles.find? Angle.isSymbolic with
  | some θ => .error (.unboundParameter g.name θ)
  | none =>
    match Mat2.ofGate? g with
    | some u => .ok ⟨[.unitary g.name u q], []⟩
    | none => .error (.internal (.noMatrix g.name))

def takeTwoQubit (basis : Basis) (g : StandardGate R) (a b : Qubit) : Compile R (Pieces R) :=
  match g with
  | .cx =>
    match Rules.cx? basis a b with
    | some lowered => .ok ⟨lowered.instructions.map .operation, lowered.phases⟩
    | none => .error (.unsupportedGate "cx" .noEntangler)
  | g =>
    match Rules.twoQubit? g a b with
    | some is => .ok (.ofInstructions is)
    | none => .error (.unsupportedGate g.name .noTwoQubitRule)

/-- Takes a custom gate on at most two qubits apart, by its matrix. -/
def takeCustom (g : CustomGate R) (qubits : List Qubit) : Compile R (Pieces R) :=
  match g.matrix with
  | none => .error (.unsupportedGate g.name .noMatrix)
  | some matrix =>
    match qubits with
    | [q] =>
      match Mat2.ofList? matrix with
      | some u => .ok ⟨[.unitary g.name u q], []⟩
      | none => .error (.malformedCircuit (.matrixShape g.name 2))
    | [a, b] =>
      match Square4.ofList? matrix with
      | some u => do
        let s ← (CxSequence.ofMatrix u).mapError (CompileError.blame g.name)
        return .ofCxSequence g.name a b s
      | none => .error (.malformedCircuit (.matrixShape g.name 4))
    | _ => .error (.unsupportedGate g.name .noOperands)

/-- Takes the application of a gate apart, one rule deep. -/
def takeApart (basis : Basis) (i : Instruction R) (g : Gate R) : Compile R (Pieces R) :=
  match g.kind, i.qubits with
  | .custom c, qubits =>
    if qubits.length > 2 then return .ofInstructions (← Wide.split i) else takeCustom c qubits
  | .standard gate, qubits =>
    if gate.isSplit then return .ofInstructions (← Wide.split i)
    else
      match qubits with
      | [q] => takeOneQubit gate q
      | [a, b] => takeTwoQubit basis gate a b
      | _ => .error (.unsupportedGate gate.name (.noRule qubits.length))

/-- Synthesizes a one-qubit unitary in a rotation family. -/
def synthesize (family : Option EulerFamily) (gate : String) (u : Mat2 R) (q : Qubit) :
    Compile R (Lowered R) :=
  match family with
  | none => .error (.unsupportedGate gate .noRotationFamily)
  | some family => do
    let s ← (family.synthesize u dropTolerance).mapError (CompileError.blame gate)
    return ⟨s.gates.map fun g => .ofStandard g [q], [s.phase]⟩

/-- Lowers one operation, applying rules to the pieces of rules at most `rules` deep. An operation
of the basis stays as it is. -/
def lower (basis : Basis) (family : Option EulerFamily) :
    Nat → Instruction R → Compile R (Lowered R)
  | rules, i =>
    match i.gate? with
    | none => .ok (.ofList [i])
    | some g =>
      if basis.contains i.name then .ok (.ofList [i])
      else
        match rules with
        | 0 => .error (.unsupportedGate i.name .noRuleChain)
        | rules + 1 => do
          let apart ← basis.takeApart i g
          apart.pieces.foldlM (fun lowered piece => do
            match piece with
            | .unitary gate u q => return lowered ++ (← synthesize family gate u q)
            | .operation j => return lowered ++ (← lower basis family rules j))
            ⟨[], apart.phases⟩

/-- How deep rules may apply to the pieces of rules. -/
def maxRules : Nat := 9

/-- Lowers every operation of a dependency graph that a device does not execute. -/
def lowerAll (device : Device R) (requested : Option EulerFamily) (d : Dag R) :
    Compile R (Dag R) := do
  let family ← device.basis.resolveFamily requested
  let (d, phases) ← d.lowerWhere (fun i => !device.isNative i) (device.basis.lower family maxRules)
  return d.addPhase (Scalar.sum phases)

end Basis

end QuantumCompiler
