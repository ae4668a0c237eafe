import QuantumCompiler.Device.Basic

/-!
# Options

What a caller can choose: the preset level, the rotation family, values for named angles, and how
the search for a layout and a routing proceeds. Unset fields take defaults that depend on the
device.
-/

namespace QuantumCompiler

/-- How a swap is scored. -/
inductive Heuristic where
  | distance
  /-- By the cost of cheapest paths, the swap itself included. -/
  | fidelity
  | mixture
  deriving DecidableEq, Repr, Inhabited

namespace Heuristic

def ofLevel (level : Nat) : Heuristic :=
  if level ≤ 1 then distance else if level = 2 then fidelity else mixture

def tag : Heuristic → String
  | distance => "distance"
  | fidelity => "fidelity"
  | mixture => "mixture"

def ofTag? (tag : String) : Option Heuristic :=
  [distance, fidelity, mixture].find? (·.tag == tag)

end Heuristic

/-- How the first layout is chosen. -/
inductive LayoutStrategy where
  /-- Qubit `i` of the circuit on qubit `i` of the device. -/
  | trivial
  | random
  deriving DecidableEq, Repr, Inhabited

namespace LayoutStrategy

def tag : LayoutStrategy → String
  | trivial => "trivial"
  | random => "random"

def ofTag? (tag : String) : Option LayoutStrategy := [trivial, random].find? (·.tag == tag)

end LayoutStrategy

/-- How the search for a layout and a routing proceeds. -/
structure SearchOptions (R : Type) where
  /-- How swaps are scored; unset, the preset level decides. -/
  heuristic : Option Heuristic
  maxIterations : Nat
  seed : Nat
  /-- How the first layout is chosen. -/
  initialLayout : LayoutStrategy
  /-- What each swap adds to the decay of its qubits; unset, a default of the heuristic. -/
  decayDelta : Option R
  /-- How many two-qubit gates the lookahead sees; unset, as many as the device has qubits. -/
  extendedSetSize : Option Nat
  /-- Number of swaps after which the decay starts again; unset, half the lookahead. -/
  decayResetInterval : Option Nat
  extendedSetWeight : R
  deriving Repr

/-- Search options with every field filled in for a device. -/
structure SearchPlan (R : Type) where
  heuristic : Heuristic
  /-- Rounds of forward and backward sweeps, at least one. -/
  maxIterations : Nat
  seed : Nat
  /-- How the first layout is chosen. -/
  initialLayout : LayoutStrategy
  /-- What each swap adds to the decay of its qubits. -/
  decayDelta : R
  extendedSetSize : Nat
  /-- Number of swaps after which the decay starts again. -/
  decayResetInterval : Nat
  extendedSetWeight : R
  deriving Repr

namespace SearchOptions

variable {R : Type} [Scalar R]

/-- The options without any choice. -/
def standard : SearchOptions R :=
  { heuristic := none, maxIterations := 3, seed := 0, initialLayout := .random, decayDelta := none,
    extendedSetSize := none, decayResetInterval := none, extendedSetWeight := Scalar.half }

/-- A number that may weigh something: finite and not below zero. -/
def isWeight (x : R) : Bool := Scalar.isFinite x && Scalar.ge x 0

/-- Refuses values that the search cannot work with. -/
def validate (o : SearchOptions R) : Compile R Unit := do
  if o.maxIterations = 0 then throw (.invalidConfiguration .noIterations)
  if !isWeight o.extendedSetWeight then
    throw (.invalidConfiguration (.weight o.extendedSetWeight))
  match o.decayDelta with
  | some delta => if !isWeight delta then throw (.invalidConfiguration (.decay delta))
  | none => pure ()
  if o.decayResetInterval = some 0 then throw (.invalidConfiguration .resetInterval)

/-- Fills in the unset fields for a device. -/
def resolve (o : SearchOptions R) (device : Device R) (fallback : Heuristic) : SearchPlan R :=
  let heuristic := o.heuristic.getD fallback
  let extendedSetSize := o.extendedSetSize.getD device.numQubits
  { heuristic
    maxIterations := max o.maxIterations 1
    seed := o.seed
    initialLayout := o.initialLayout
    decayDelta := o.decayDelta.getD (match heuristic with
      | .fidelity => 1 - device.meanFidelity
      | .distance | .mixture => Scalar.decimal 1 2)
    extendedSetSize
    decayResetInterval := o.decayResetInterval.getD (max (extendedSetSize / 2) 1)
    extendedSetWeight := o.extendedSetWeight }

end SearchOptions

/-- The options of a compiler. -/
structure CompileOptions (R : Type) where
  level : Nat
  search : SearchOptions R
  /-- Rotation family for one-qubit synthesis; unset, the cheapest one that the device provides. -/
  family : Option EulerFamily
  parameters : Assignment R
  deriving Repr

namespace CompileOptions

variable {R : Type} [Scalar R]

/-- The options of a preset level without any other choice. -/
def ofLevel (level : Nat) : CompileOptions R := ⟨level, .standard, none, []⟩

/-- The options without any choice. -/
def standard : CompileOptions R := ofLevel 1

def heuristic (o : CompileOptions R) : Heuristic :=
  o.search.heuristic.getD (.ofLevel o.level)

/-- Refuses a level that does not exist, values that the search cannot work with, and parameters
that are no numbers. -/
def validate (o : CompileOptions R) : Compile R Unit := do
  if o.level > 3 then throw (.invalidConfiguration (.level o.level))
  o.search.validate
  match o.parameters.find? fun p => !Scalar.isFinite p.2 with
  | some (name, value) => throw (.invalidConfiguration (.parameter name value))
  | none => pure ()

end CompileOptions

end QuantumCompiler
