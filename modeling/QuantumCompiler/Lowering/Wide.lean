import QuantumCompiler.Lowering.Basic
import QuantumCompiler.Lowering.Ladder
import QuantumCompiler.Synthesis.Shannon

/-!
# Splitting wide operations

Gates on three or more qubits as gates on at most two, and measurements of several qubits as
measurements of one. Standard gates have fixed networks and ladders, a custom gate needs a matrix,
which is decomposed down to two-qubit blocks. Barriers keep their width.
-/

namespace QuantumCompiler.Wide

variable {R : Type} [Scalar R]

def blockName : String := "unitary"

def cx (control target : Qubit) : Instruction R := .ofStandard .cx [control, target]

/-- The network of a bit flip with two controls. -/
def ccx (a b c : Qubit) : List (Instruction R) :=
  [.ofStandard .h [c], cx b c, .ofStandard .tdg [c], cx a c, .ofStandard .t [c], cx b c,
    .ofStandard .tdg [c], cx a c, .ofStandard .t [b], .ofStandard .t [c], .ofStandard .h [c],
    cx a b, .ofStandard .t [a], .ofStandard .tdg [b], cx a b]

def cswap (control a b : Qubit) : List (Instruction R) :=
  [cx b a] ++ ccx control a b ++ [cx b a]

/-- The gates of the ladder over the given controls; `turn` makes the gate that turns the target. -/
def rungs (controls : List Qubit) (turn : Bool → Qubit → Instruction R) : List (Instruction R) :=
  let qubit (k : Nat) : Qubit := controls.getD k 0
  (Ladder.steps controls.length).map fun
    | .cx control target => cx (qubit control) (qubit target)
    | .turn odd control => turn odd (qubit control)

/-- The ladder over the given controls. It counts their sets in a word, which 64 controls overflow. -/
def ladder (controls : List Qubit) (turn : Bool → Qubit → Instruction R) :
    Compile R (List (Instruction R)) :=
  if controls.length < Ladder.wordBits then .ok (rungs controls turn)
  else .error (.ladderOverflow controls.length)

/-- How many roots a ladder over `n` controls multiplies where all of them are set. -/
def rootOrder (n : Nat) : Nat := Nat.pow 2 (n - 1)

/-- A phase where all controls and the target are set. -/
def mcphase (angle : R) (controls : List Qubit) (target : Qubit) :
    Compile R (List (Instruction R)) :=
  let root := angle / Scalar.ofNat (rootOrder controls.length)
  ladder controls fun odd control =>
    .ofStandard (.cp (.const ((if odd then 1 else -1) * root))) [control, target]

/-- A bit flip with any number of controls. -/
def mcx (controls : List Qubit) (target : Qubit) : Compile R (List (Instruction R)) :=
  match controls with
  | [] => .ok [.ofStandard .x [target]]
  | [c] => .ok [cx c target]
  | [a, b] => .ok (ccx a b target)
  | _ => do
    let phase ← mcphase Scalar.pi controls target
    return [.ofStandard .h [target]] ++ phase ++ [.ofStandard .h [target]]

/-- A rotation with any number of controls. Rotations about one axis compose by adding angles, so
the angle may have free names. -/
def mcry (θ : Angle R) (controls : List Qubit) (target : Qubit) :
    Compile R (List (Instruction R)) :=
  match controls with
  | [] => .ok [.ofStandard (.ry θ) [target]]
  | [c] => .ok [.ofStandard (.cry θ) [c, target]]
  | _ =>
    let root := θ.scaled (1 / Scalar.ofNat (rootOrder controls.length))
    ladder controls fun odd control =>
      .ofStandard (.cry (if odd then root else root.scaled (-1))) [control, target]

/-- A matrix with one control, as a dense block. -/
def controlledBlock (u : Mat2 R) : GateKind R :=
  .custom ⟨blockName, 2, [], some (Mat4.controlled u).toList⟩

/-- The most controls for which roots are precise. -/
def maxControls : Nat := 32

def number (gate : String) (θ : Angle R) : Compile R R :=
  match θ.value? with
  | some v => .ok v
  | none => .error (.unboundParameter gate θ)

/-- A general one-qubit gate with any number of controls, by controlled roots of its matrix. -/
def mcu (θ φ ψ : Angle R) (controls : List Qubit) (target : Qubit) :
    Compile R (List (Instruction R)) :=
  if controls.isEmpty then .ok [.ofStandard (.u θ φ ψ) [target]]
  else do
    let u := Mat2.u (← number "mcu" θ) (← number "mcu" φ) (← number "mcu" ψ)
    if controls.length > maxControls then
      throw (.unsupportedGate "mcu" (.tooManyControls controls.length))
    let root := u.root (rootOrder controls.length)
    let forward : Gate R := ⟨controlledBlock root, none⟩
    let backward : Gate R := ⟨controlledBlock root.dagger, none⟩
    ladder controls fun odd control =>
      .ofGate (if odd then forward else backward) [control, target]

/-- A step of a dense decomposition on the operands of its gate. -/
def ofShannonStep (operands : List Qubit) (s : ShannonStep R) : Instruction R :=
  let qubit (k : Nat) : Qubit := operands.getD k 0
  match s with
  | .ry q θ => .ofStandard (.ry (.const θ)) [qubit q]
  | .rz q θ => .ofStandard (.rz (.const θ)) [qubit q]
  | .cx control target => cx (qubit control) (qubit target)
  | .block qubits matrix =>
    .ofGate (.ofCustom ⟨blockName, qubits.length, [], some matrix⟩) (qubits.map qubit)

/-- A gate with any number of controls on controls and a target, which is the last operand. -/
def withTarget {α : Type} (gate : String) (qubits : List Qubit)
    (split : List Qubit → Qubit → Compile R α) : Compile R α :=
  match qubits.getLast? with
  | some target => split qubits.dropLast target
  | none => .error (.malformedCircuit (.noTarget gate))

/-- Splits the application of a gate. A standard gate on at most two qubits stays as it is. -/
def splitGate (i : Instruction R) (g : Gate R) : Compile R (List (Instruction R)) :=
  match g.kind, i.qubits with
  | .standard .ccx, a :: b :: c :: _ => .ok (ccx a b c)
  | .standard .cswap, a :: b :: c :: _ => .ok (cswap a b c)
  | .standard .ccx, _ | .standard .cswap, _ => .error (.internal (.missingOperand g.name))
  | .standard (.mcx _), qubits =>
    withTarget "mcx" qubits mcx
  | .standard (.mcry _ θ), qubits =>
    withTarget "mcry" qubits (mcry θ)
  | .standard (.mcu _ θ φ ψ), qubits => withTarget "mcu" qubits (mcu θ φ ψ)
  | .custom c, qubits@(_ :: _ :: _ :: _) =>
    match c.matrix with
    | some matrix => do
      return (← Shannon.decompose c.name matrix qubits.length).map (ofShannonStep qubits)
    | none => .error (.unsupportedGate c.name (.noWideMatrix qubits.length))
  | .standard _, qubits =>
    if qubits.length ≤ 2 then .ok [i]
    else .error (.unsupportedGate g.name (.noSplit qubits.length))
  | .custom c, qubits => .error (.unsupportedGate c.name (.noSplit qubits.length))

/-- Splits one operation. A measurement becomes one for each qubit. -/
def split (i : Instruction R) : Compile R (List (Instruction R)) :=
  match i.operation with
  | .measure => .ok (List.zipWith .measure i.qubits i.clbits)
  | .gate g => splitGate i g
  | _ => .ok [i]

/-- An operation that has to be split: a gate on three or more qubits, or a measurement of more than
one. -/
def isWide (i : Instruction R) : Bool :=
  match i.operation with
  | .gate _ => i.qubits.length > 2
  | .measure => i.qubits.length > 1
  | _ => false

/-- Splits every wide operation of a dependency graph. -/
def splitAll (d : Dag R) : Compile R (Dag R) := do
  let (d, _) ← d.lowerWhere isWide fun i => return .ofList (← split i)
  return d

end QuantumCompiler.Wide
