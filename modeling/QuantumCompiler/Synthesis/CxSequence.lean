import QuantumCompiler.Synthesis.Interaction

/-!
# Two-qubit unitaries with few `cx`

The interaction of a two-qubit unitary takes three `cx` in general, two when one angle vanishes, one
when a single angle is left and is a quarter turn, and none when all vanish. Half turns are taken
off first: each of them is a pair of equal Pauli gates.
-/

namespace QuantumCompiler

variable {R : Type} [Scalar R]

/-- One step of a `cx` sequence; the operands are `0` and `1`. -/
inductive CxStep (R : Type) where
  | block (qubit : Fin 2) (u : Mat2 R)
  /-- A `cx` from one operand onto the other. -/
  | cx (control : Fin 2)
  deriving Repr

/-- The operand that is not the given one. -/
def CxStep.other (qubit : Fin 2) : Fin 2 := 1 - qubit

def CxStep.matrix : CxStep R → Mat4 R
  | .block 0 u => Mat4.kron u Mat2.identity
  | .block 1 u => Mat4.kron Mat2.identity u
  | .cx 0 => Mat4.controlled Mat2.x
  | .cx 1 => Mat4.swapOperands (Mat4.controlled Mat2.x)

/-- Steps in time order and the phase they miss: the source is `e^{i·phase}` times their
product. -/
structure CxSequence (R : Type) where
  /-- The steps, the first one acting first. -/
  steps : List (CxStep R)
  /-- The phase of the source relative to the steps. -/
  phase : R
  deriving Repr

namespace CxSequence

open CxStep

/-- Product of steps in time order. -/
def product (steps : List (CxStep R)) : Mat4 R :=
  steps.foldl (fun m s => s.matrix * m) Mat4.identity

/-- Number of `cx`. -/
def cxCount (steps : List (CxStep R)) : Nat :=
  (steps.filter fun s => match s with
    | .cx _ => true
    | .block .. => false).length

/-- An axis of the interaction. -/
inductive Axis where
  /-- `X⊗X`. -/
  | x
  /-- `Y⊗Y`. -/
  | y
  /-- `Z⊗Z`. -/
  | z
  deriving DecidableEq, Repr

def Axis.pauli : Axis → Mat2 R
  | .x => Mat2.x
  | .y => Mat2.y
  | .z => Mat2.z

/-- The basis change that takes the first axis onto another. -/
def Axis.basis : Axis → Mat2 R
  | .x => Mat2.identity
  | .y => Mat2.rz Scalar.quarterTurn
  | .z => Mat2.h

def pair (u : Mat2 R) : List (CxStep R) := [block 0 u, block 1 u]

/-- `exp(-i/2 (x·XX + y·YY + z·ZZ))` with three `cx`. -/
def threeCx (x y z : R) : List (CxStep R) :=
  let quarter : R := Scalar.quarterTurn
  [block 1 (.rz quarter), cx 1, block 0 (.rz (z + quarter)), block 1 (.ry (x + quarter)), cx 0,
    block 1 (.ry (-y - quarter)), cx 1, block 0 (.rz (-quarter))]

/-- `exp(-i/2 (x·XX + z·ZZ))` with two `cx`. -/
def twoCx (x z : R) : List (CxStep R) := [cx 0, block 0 (.rx x), block 1 (.rz z), cx 0]

/-- A quarter turn about `X⊗X`, backwards, with one `cx`. -/
def oneCx : List (CxStep R) :=
  let quarter : R := Scalar.quarterTurn
  [block 0 .h, cx 0, block 0 (.rz (-quarter)), block 1 (.rx (-quarter)), block 0 .h]

/-- Steps conjugated by a basis change on both operands. -/
def conjugated (basis : Mat2 R) (core : List (CxStep R)) : List (CxStep R) :=
  pair basis ++ core ++ pair basis.dagger

/-- An interaction angle within a quarter turn on both sides, and whether an odd number of half
turns was taken off. -/
def reduceHalfTurns (angle : R) : R × Bool :=
  let turns := Scalar.round (angle / Scalar.pi)
  (angle - turns * Scalar.pi, Scalar.gt (Scalar.remEuclid turns 2) Scalar.half)

/-- Angles this close to zero or to a quarter turn are taken for it. -/
def snap : R := Scalar.allowance 9

/-- The steps of an interaction whose angles are reduced, and Pauli gates that complete them. -/
def core (x y z : R) : List (CxStep R) × List (CxStep R) :=
  let angle : Axis → R
    | .x => x
    | .y => y
    | .z => z
  let active := [Axis.x, .y, .z].filter fun a => Scalar.gt (Scalar.abs (angle a)) snap
  let general : List (CxStep R) :=
    match active with
    | [] => []
    | [.x] | [.z] | [.x, .z] => twoCx x z
    | [.y] | [.y, .z] => conjugated (.rz Scalar.quarterTurn) (twoCx y z)
    | [.x, .y] => conjugated (.rx Scalar.quarterTurn) (twoCx x y)
    | _ => threeCx x y z
  match active with
  | [a] =>
    if Scalar.below (Scalar.abs (Scalar.abs (angle a) - Scalar.quarterTurn)) snap then
      (conjugated a.basis oneCx, if Scalar.gt (angle a) 0 then pair a.pauli else [])
    else (general, [])
  | _ => (general, [])

/-- The steps of an interaction with any angles, up to a phase. -/
def ofAngles (x y z : R) : List (CxStep R) :=
  let (x, oddX) := reduceHalfTurns x
  let (y, oddY) := reduceHalfTurns y
  let (z, oddZ) := reduceHalfTurns z
  let halfTurns := (if oddX then pair Axis.x.pauli else []) ++
    (if oddY then pair Axis.y.pauli else []) ++ (if oddZ then pair Axis.z.pauli else [])
  let (steps, paulis) := core x y z
  steps ++ halfTurns ++ paulis

/-- A block, unless it is the identity. -/
def emitBlock (qubit : Fin 2) (u : Mat2 R) : List (CxStep R) :=
  if u.isIdentity then [] else [block qubit u]

/-- Fuses neighbouring blocks of an operand into one, starting from the blocks `u` and `v` and
ending with `after`. -/
def fuse (after : Mat2 R × Mat2 R) : List (CxStep R) → Mat2 R → Mat2 R → List (CxStep R)
  | [], u, v => emitBlock 0 (after.1 * u) ++ emitBlock 1 (after.2 * v)
  | block 0 w :: rest, u, v => fuse after rest (w * u) v
  | block 1 w :: rest, u, v => fuse after rest u (w * v)
  | cx control :: rest, u, v =>
    emitBlock 0 u ++ emitBlock 1 v ++ cx control :: fuse after rest .identity .identity

/-- Synthesizes a two-qubit unitary with the fewest `cx` its interaction allows. Fails when the
steps do not rebuild it. -/
def ofMatrix (u : Mat4 R) : Compile R (CxSequence R) := do
  let k ← Interaction.ofMatrix u
  let steps := fuse k.after (ofAngles k.xx k.yy k.zz) k.before.1 k.before.2
  return ⟨steps, ← Interaction.matchingPhase (product steps) u⟩

end CxSequence

end QuantumCompiler
