import QuantumCompiler.Gate
import QuantumCompiler.Synthesis.Family

/-!
# Errors of a compilation

Why a compilation fails. The first failing pass ends a flow, and no partial circuit comes with the
error. Every cause is a constructor; the wording is in `CompileError.message` alone.
-/

namespace QuantumCompiler

/-- Why no lowering exists for a gate. -/
inductive Unsupported where
  | tooWide (numQubits : Nat)
  /-- Routing met a gate on three or more qubits. -/
  | tooWideForRouting
  | noRuleChain
  /-- A custom gate on one or two qubits without a matrix. -/
  | noMatrix
  /-- A custom gate on three or more qubits without a matrix. -/
  | noWideMatrix (numQubits : Nat)
  | noOperands
  /-- A standard gate with an operand count that no rule takes. -/
  | noRule (operands : Nat)
  | noSplit (operands : Nat)
  /-- A two-qubit gate without a rule. -/
  | noTwoQubitRule
  | noRotationFamily
  | noEntangler
  /-- A root of too high an order. -/
  | tooManyControls (controls : Nat)
  deriving DecidableEq, Repr

def Unsupported.message : Unsupported → String
  | tooWide n => s!"{n} qubits is too wide for dense synthesis"
  | tooWideForRouting => "routing needs gates on at most two qubits"
  | noRuleChain => "no rule chain reaches the backend basis"
  | noMatrix => "custom gate carries no matrix"
  | noWideMatrix n => s!"{n}-qubit custom gate carries no matrix"
  | noOperands => "custom gate without operands"
  | noRule n => s!"no rule for {n} operands"
  | noSplit n => s!"no decomposition rule for a {n}-qubit operation"
  | noTwoQubitRule => "no two-qubit rule"
  | noRotationFamily => "backend basis has no single-qubit rotation family"
  | noEntangler => "backend has none of cx, cz, cp or iswap"
  | tooManyControls n => s!"{n} controls exceed the root precision"

/-- Why the operands of a circuit do not fit. -/
inductive Malformation where
  | circuit (error : CircuitError)
  /-- A matrix is not square of the size its gate needs. -/
  | matrixShape (gate : String) (dimension : Nat)
  /-- A controlled gate without a target. -/
  | noTarget (gate : String)
  deriving DecidableEq, Repr

def Malformation.message : Malformation → String
  | circuit error => error.message
  | matrixShape gate n => s!"matrix of '{gate}' is not {n}x{n}"
  | noTarget gate => s!"{gate} without operands"

def bracketed (xs : List String) : String := "[" ++ ", ".intercalate xs ++ "]"

def quoted (s : String) : String := "\"" ++ s ++ "\""

/-- Why interacting qubits cannot be brought together. -/
inductive Unreachable where
  | uncoupled (gate : String) (a b : Qubit)
  /-- Groups of interacting qubits that the connected parts of a device have no room for. -/
  | noRoom (groups : List Nat) (device : String) (parts : List Nat)
  | disconnected (gate : String) (a b pa pb : Qubit) (device : String)
  | noCandidate
  | noPath (a b : Qubit)
  deriving DecidableEq, Repr

def Unreachable.message : Unreachable → String
  | uncoupled gate a b => s!"'{gate}' on physical qubits {a} and {b} which are not coupled"
  | noRoom groups device parts =>
    "interacting groups of " ++ bracketed (groups.map toString)
      ++ s!" qubits do not fit the connected parts of '{device}' ("
      ++ bracketed (parts.map toString) ++ " qubits)"
  | disconnected gate a b pa pb device =>
    s!"'{gate}' on q{a} and q{b}: physical qubits {pa} and {pb} "
      ++ s!"are in disconnected parts of '{device}'"
  | noCandidate => "blocked front layer has no candidate swap"
  | noPath a b => s!"no path between q{a} and q{b}"

/-- Why a device or the options are refused. -/
inductive Misconfiguration (R : Type) where
  | edgeOutOfRange (source target numQubits : Nat)
  | selfLoop (qubit : Qubit)
  /-- A fidelity that is no probability above zero. -/
  | fidelity (value : R) (source target : Qubit)
  | positions (count numQubits : Nat)
  /-- A search without rounds. -/
  | noIterations
  /-- A weight of the lookahead that is negative or no number. -/
  | weight (value : R)
  /-- A decay that is negative or no number. -/
  | decay (value : R)
  /-- A decay that is reset after no swap. -/
  | resetInterval
  | level (level : Nat)
  | parameter (name : String) (value : R)
  /-- A rotation family that the device does not provide. -/
  | family (family : EulerFamily)
  | unplaced (logical : Qubit)
  /-- A layout that puts two qubits in one place. -/
  | sharedPlace (physical : Qubit)
  deriving Repr

def Misconfiguration.message : Misconfiguration Float → String
  | edgeOutOfRange a b n => s!"edge ({a}, {b}) out of range for {n} qubits"
  | selfLoop q => s!"self-loop on qubit {q}"
  | fidelity f a b => "fidelity " ++ Double.text f ++ s!" of edge ({a}, {b}) outside (0, 1]"
  | positions count n => s!"{count} positions for {n} qubits"
  | noIterations => "sabre.max_iterations must be at least 1"
  | weight w => "sabre.extended_set_weight must be finite and non-negative, got " ++ Double.text w
  | decay d => "sabre.decay_delta must be finite and non-negative, got " ++ Double.text d
  | resetInterval => "sabre.decay_reset_interval must be at least 1"
  | level n => s!"optimization_level must be 0-3, got {n}"
  | parameter name v => s!"parameter '{name}' bound to non-finite value " ++ Double.text v
  | family f =>
    s!"euler basis {f.label} needs " ++ bracketed (f.gateNames.map quoted)
      ++ ", which the backend does not provide"
  | unplaced q => s!"layout does not place logical qubit {q} on the backend"
  | sharedPlace p => s!"layout places two logical qubits on physical qubit {p}"

/-- An invariant of the compiler itself that does not hold. -/
inductive Breach where
  | illFormed (error : CircuitError)
  /-- A gate on many qubits is still there after unrolling. -/
  | wideGate (gate : String) (operands : Nat)
  | noMatrix (gate : String)
  /-- The components of a device hold fewer qubits than counted. -/
  | layoutExhausted
  | physicalExhausted
  /-- A routed gate is on qubits that are not coupled. -/
  | uncoupledCommit (a b : Qubit)
  | nothingBlocked
  /-- A layout search without a round. -/
  | noSweep
  | endless
  /-- An operation was released more often than it waits. -/
  | overdrawn
  /-- A gate is on fewer operands than it takes. -/
  | missingOperand (gate : String)
  deriving DecidableEq, Repr

def Breach.message : Breach → String
  | .illFormed error => error.message
  | wideGate gate n => s!"'{gate}' on {n} qubits survived unrolling"
  | noMatrix gate => s!"no matrix for '{gate}'"
  | layoutExhausted => "component layout ran out of qubits"
  | physicalExhausted => "ran out of free physical qubits"
  | uncoupledCommit a b => s!"committed gate on uncoupled {a}-{b}"
  | nothingBlocked => "release valve with no blocked gate"
  | noSweep => "SABRE ran no iterations"
  | endless => "routing does not end"
  | overdrawn => "operation released too often"
  | missingOperand gate => s!"operand of '{gate}' is missing"

/-- Why a compilation fails. -/
inductive CompileError (R : Type) where
  /-- An operand is out of range or repeated, or an operand count is wrong. -/
  | malformedCircuit (cause : Malformation)
  | insufficientQubits (required available : Nat)
  | unboundParameter (gate : String) (parameter : Angle R)
  | unsupportedGate (gate : String) (reason : Unsupported)
  | decompositionTolerance (gate : String) (error tolerance : R)
  | unreachableLayout (cause : Unreachable)
  /-- The device or the options are refused. -/
  | invalidConfiguration (cause : Misconfiguration R)
  /-- A pass needs a device and has none. -/
  | missingBackend
  /-- Routing needs a layout and has none. -/
  | missingLayout
  /-- A gate with too many controls for their sets to be counted in a word: the ladder breaks off. -/
  | ladderOverflow (controls : Nat)
  /-- The flow was cancelled before a pass. -/
  | cancelled (pass : String)
  | internal (cause : Breach)
  deriving Repr

namespace CompileError

/-- A circuit error met in a compilation: a broken graph is a fault of the compiler, anything else
one of the input. -/
def ofCircuit {R : Type} : CircuitError → CompileError R
  | .invalidStructure fault => internal (.illFormed (.invalidStructure fault))
  | .invalidNode => internal (.illFormed .invalidNode)
  | error => malformedCircuit (.circuit error)

/-- The same error, blamed on another gate if it is a missed tolerance. -/
def blame {R : Type} (gate : String) : CompileError R → CompileError R
  | decompositionTolerance _ error tolerance => decompositionTolerance gate error tolerance
  | error => error

def message : CompileError Float → String
  | malformedCircuit cause => "Malformed circuit: " ++ cause.message
  | insufficientQubits required available =>
    s!"Circuit requires {required} qubits but backend only has {available}"
  | unboundParameter gate parameter =>
    "Parameter '" ++ parameter.text ++ s!"' of gate '{gate}' is unbound"
  | unsupportedGate gate reason => s!"Unsupported gate '{gate}': {reason.message}"
  | decompositionTolerance gate error tolerance =>
    s!"Decomposition of '{gate}' missed tolerance: error " ++ Double.scientific 3 error ++ " > "
      ++ Double.scientific 1 tolerance
  | unreachableLayout cause => "Unreachable layout: " ++ cause.message
  | invalidConfiguration cause => "Invalid configuration: " ++ cause.message
  | missingBackend => "Missing backend model"
  | missingLayout => "Missing layout for routing"
  | ladderOverflow controls => s!"Ladder over {controls} controls overflows"
  | cancelled pass => s!"Compilation cancelled before pass '{pass}'"
  | internal cause => "Internal error: " ++ cause.message

end CompileError

/-- The answer of a step that can fail. -/
abbrev Compile (R : Type) (α : Type) := Except (CompileError R) α

/-- Takes the answer of an operation on a circuit into a compilation. -/
def Compile.ofCircuit {R α : Type} (r : Except CircuitError α) : Compile R α :=
  r.mapError CompileError.ofCircuit

end QuantumCompiler
