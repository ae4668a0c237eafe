import QuantumCompiler.CompileError
import QuantumCompiler.Dag.Order

/-!
# Peephole optimization

Three local steps, each of which removes an operation: two rotations of a kind on the same operands
become one by adding their angles, a gate and its inverse vanish, and a gate that is the identity up
to a phase vanishes and leaves the phase behind. Sweeps in topological order repeat until none of
them applies.
-/

namespace QuantumCompiler

namespace StandardGate

variable {R : Type}

/-- The kind of a gate: what is left when its angles are forgotten. -/
def shape (g : StandardGate R) : StandardGate Unit := g.mapAngles fun _ => .const ()

/-- The second gate is the inverse of the first. -/
def cancels (a b : StandardGate R) : Bool := a.inverse?.any fun inv => inv.shape == b.shape

/-- One rotation for two of the same kind. -/
def merge? [Scalar R] : StandardGate R → StandardGate R → Option (StandardGate R)
  | rx a, rx b => some (rx (a + b).simplify)
  | ry a, ry b => some (ry (a + b).simplify)
  | rz a, rz b => some (rz (a + b).simplify)
  | p a, p b => some (p (a + b).simplify)
  | crx a, crx b => some (crx (a + b).simplify)
  | cry a, cry b => some (cry (a + b).simplify)
  | crz a, crz b => some (crz (a + b).simplify)
  | cp a, cp b => some (cp (a + b).simplify)
  | rxx a, rxx b => some (rxx (a + b).simplify)
  | ryy a, ryy b => some (ryy (a + b).simplify)
  | rzz a, rzz b => some (rzz (a + b).simplify)
  | _, _ => none

/-- Angles this close to a full turn are taken for it. -/
def closeness [Scalar R] : R := Scalar.allowance 10

/-- An angle is a multiple of a period, up to rounding. -/
def isMultiple [Scalar R] (period angle : R) : Bool :=
  let r := Scalar.remEuclid angle period
  Scalar.below r closeness || Scalar.below (period - r) closeness

/-- The phase `φ` of a gate that is `e^{iφ}` times the identity. A rotation by a full turn is minus
the identity; under a control it is not the identity at all. -/
def identityPhase? [Scalar R] : StandardGate R → Option R
  | id => some 0
  | rx θ | ry θ | rz θ | rxx θ | ryy θ | rzz θ => do
    let angle ← θ.value?
    let double : R := 2 * Scalar.tau
    if isMultiple double angle then some 0
    else if Scalar.below (Scalar.abs (Scalar.remEuclid angle double - Scalar.tau)) closeness then
      some Scalar.pi
    else none
  | p θ | cp θ => do if isMultiple Scalar.tau (← θ.value?) then some 0 else none
  | crx θ | cry θ | crz θ => do if isMultiple (2 * Scalar.tau) (← θ.value?) then some 0 else none
  | _ => none

end StandardGate

namespace Peephole

variable {R : Type} [Scalar R]

/-- The operation that comes right after an operation on all its qubits and acts on the same qubits
only. -/
def follower? (d : Dag R) (id : Nat) (i : Instruction R) : Option (Nat × Instruction R) := do
  let first ← i.qubits.head?
  let next ← d.nextOp? (.op id) (.qubit first)
  let j ← d.instruction? next
  if i.qubits.all (fun q => d.nextOp? (.op id) (.qubit q) == some next)
      && j.clbits.isEmpty && j.qubits.length == i.qubits.length
      && j.qubits.all i.qubits.contains then
    some (next, j)
  else none

def removeIdentity (d : Dag R) (id : Nat) (phase : R) : Compile R (Dag R) := do
  let (_, d) ← Compile.ofCircuit (d.remove id)
  return d.addPhase phase

/-- Puts one gate in the place of an operation and removes its follower. -/
def mergeInto (d : Dag R) (id next : Nat) (i : Instruction R) (g : StandardGate R) :
    Compile R (Dag R) := do
  let d ← Compile.ofCircuit (d.replace id (.ofStandard g i.qubits))
  let (_, d) ← Compile.ofCircuit (d.remove next)
  return d

def removePair (d : Dag R) (id next : Nat) : Compile R (Dag R) := do
  let (_, d) ← Compile.ofCircuit (d.remove next)
  let (_, d) ← Compile.ofCircuit (d.remove id)
  return d

/-- The local step that applies to an operation, if there is one. -/
def step (d : Dag R) (id : Nat) : Compile R (Option (Dag R)) :=
  match d.instruction? id with
  | none => .ok none
  | some i =>
    match i.standard? with
    | none => .ok none
    | some g =>
      match g.identityPhase? with
      | some phase => return some (← removeIdentity d id phase)
      | none =>
        match follower? d id i with
        | none => .ok none
        | some (next, j) =>
          match j.standard? with
          | none => .ok none
          | some other =>
            if i.qubits == j.qubits || g.isSymmetric then
              match g.merge? other with
              | some merged => return some (← mergeInto d id next i merged)
              | none =>
                if g.cancels other then return some (← removePair d id next) else .ok none
            else .ok none

/-- Tries every operation once, in topological order, and tells whether any step applied. -/
def sweep (d : Dag R) : Compile R (Dag R × Bool) := do
  let nodes ← Compile.ofCircuit d.topologicalNodes
  nodes.foldlM (fun (d, changed) id => do
    match ← step d id with
    | some d => return (d, true)
    | none => return (d, changed)) (d, false)

/-- Sweeps until nothing changes, at most the given number of times. -/
def sweeps : Nat → Dag R → Compile R (Dag R)
  | 0, d => .ok d
  | n + 1, d => do
    let (d, changed) ← sweep d
    if changed then sweeps n d else return d

/-- The most sweeps over a dependency graph. -/
def maxSweeps : Nat := 1000

/-- Combines neighbouring gates as long as a step applies. -/
def all (d : Dag R) : Compile R (Dag R) := sweeps maxSweeps d

end Peephole

end QuantumCompiler
