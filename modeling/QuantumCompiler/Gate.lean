import QuantumCompiler.Angle
import QuantumCompiler.Error
import QuantumCompiler.Numeric.Complex

/-!
# Gates

The standard gates, whose matrices the compiler knows, and custom gates, which are opaque unless
they carry a matrix. Operands of a controlled gate are the controls followed by the target.
-/

namespace QuantumCompiler

/-- Gates of known meaning. -/
inductive StandardGate (R : Type) where
  | id
  | x
  | y
  | z
  | h
  /-- `diag(1, i)`. -/
  | s
  /-- `diag(1, -i)`. -/
  | sdg
  /-- `diag(1, e^{iπ/4})`. -/
  | t
  /-- `diag(1, e^{-iπ/4})`. -/
  | tdg
  | sx
  /-- Inverse of `sx`. -/
  | sxdg
  /-- `exp(-iθX/2)`. -/
  | rx (θ : Angle R)
  /-- `exp(-iθY/2)`. -/
  | ry (θ : Angle R)
  /-- `exp(-iθZ/2)`. -/
  | rz (θ : Angle R)
  /-- `diag(1, e^{iθ})`. -/
  | p (θ : Angle R)
  /-- `Rz(φ) · Ry(θ) · Rz(ψ)` up to a global phase. -/
  | u (θ φ ψ : Angle R)
  | cx
  /-- Controlled `y`. -/
  | cy
  | cz
  | ch
  | swap
  /-- Exchange with a factor `i` on the states that change. -/
  | iswap
  /-- Controlled `rx`. -/
  | crx (θ : Angle R)
  /-- Controlled `ry`. -/
  | cry (θ : Angle R)
  /-- Controlled `rz`. -/
  | crz (θ : Angle R)
  /-- Controlled `p`; symmetric in its operands. -/
  | cp (θ : Angle R)
  /-- `exp(-iθ X⊗X/2)`. -/
  | rxx (θ : Angle R)
  /-- `exp(-iθ Y⊗Y/2)`. -/
  | ryy (θ : Angle R)
  /-- `exp(-iθ Z⊗Z/2)`. -/
  | rzz (θ : Angle R)
  | ccx
  | cswap
  | mcx (controls : Nat)
  /-- `ry` with any number of controls. -/
  | mcry (controls : Nat) (θ : Angle R)
  /-- `u` with any number of controls. -/
  | mcu (controls : Nat) (θ φ ψ : Angle R)
  deriving Repr, BEq, DecidableEq, Inhabited

/-- The largest register index; operand counts stop here. -/
def maxIndex : Nat := 0xFFFFFFFF

namespace StandardGate

variable {R : Type}

/-- The name under which a basis lists the gate. -/
def name : StandardGate R → String
  | id => "id"
  | x => "x"
  | y => "y"
  | z => "z"
  | h => "h"
  | s => "s"
  | sdg => "sdg"
  | t => "t"
  | tdg => "tdg"
  | sx => "sx"
  | sxdg => "sxdg"
  | rx _ => "rx"
  | ry _ => "ry"
  | rz _ => "rz"
  | p _ => "p"
  | u .. => "u"
  | cx => "cx"
  | cy => "cy"
  | cz => "cz"
  | ch => "ch"
  | swap => "swap"
  | iswap => "iswap"
  | crx _ => "crx"
  | cry _ => "cry"
  | crz _ => "crz"
  | cp _ => "cp"
  | rxx _ => "rxx"
  | ryy _ => "ryy"
  | rzz _ => "rzz"
  | ccx => "ccx"
  | cswap => "cswap"
  | mcx _ => "mcx"
  | mcry .. => "mcry"
  | mcu .. => "mcu"

/-- The gate of a name with its number of controls, which only some gates have, and its angles.
None when there is no such name, or when the gate takes another number of angles. -/
def ofName? (name : String) (controls : Nat) (angles : List (Angle R)) :
    Option (StandardGate R) :=
  match name, angles with
  | "id", [] => some id
  | "x", [] => some x
  | "y", [] => some y
  | "z", [] => some z
  | "h", [] => some h
  | "s", [] => some s
  | "sdg", [] => some sdg
  | "t", [] => some t
  | "tdg", [] => some tdg
  | "sx", [] => some sx
  | "sxdg", [] => some sxdg
  | "rx", [a] => some (rx a)
  | "ry", [a] => some (ry a)
  | "rz", [a] => some (rz a)
  | "p", [a] => some (p a)
  | "u", [a, b, c] => some (u a b c)
  | "cx", [] => some cx
  | "cy", [] => some cy
  | "cz", [] => some cz
  | "ch", [] => some ch
  | "swap", [] => some swap
  | "iswap", [] => some iswap
  | "crx", [a] => some (crx a)
  | "cry", [a] => some (cry a)
  | "crz", [a] => some (crz a)
  | "cp", [a] => some (cp a)
  | "rxx", [a] => some (rxx a)
  | "ryy", [a] => some (ryy a)
  | "rzz", [a] => some (rzz a)
  | "ccx", [] => some ccx
  | "cswap", [] => some cswap
  | "mcx", [] => some (mcx controls)
  | "mcry", [a] => some (mcry controls a)
  | "mcu", [a, b, c] => some (mcu controls a b c)
  | _, _ => none

def numQubits : StandardGate R → Nat
  | id | x | y | z | h | s | sdg | t | tdg | sx | sxdg | rx _ | ry _ | rz _ | p _ | u .. => 1
  | cx | cy | cz | ch | swap | iswap | crx _ | cry _ | crz _ | cp _ | rxx _ | ryy _ | rzz _ => 2
  | ccx | cswap => 3
  | mcx n | mcry n _ | mcu n .. => min (n + 1) maxIndex

/-- The angles in order. -/
def angles : StandardGate R → List (Angle R)
  | rx θ | ry θ | rz θ | p θ | crx θ | cry θ | crz θ | cp θ | rxx θ | ryy θ | rzz θ
  | mcry _ θ => [θ]
  | u θ φ ψ | mcu _ θ φ ψ => [θ, φ, ψ]
  | _ => []

def isParameterized (g : StandardGate R) : Bool := g.angles.any Angle.isSymbolic

/-- Changes every angle and keeps the kind of gate. -/
def mapAngles {S : Type} (f : Angle R → Angle S) : StandardGate R → StandardGate S
  | id => id
  | x => x
  | y => y
  | z => z
  | h => h
  | s => s
  | sdg => sdg
  | t => t
  | tdg => tdg
  | sx => sx
  | sxdg => sxdg
  | rx θ => rx (f θ)
  | ry θ => ry (f θ)
  | rz θ => rz (f θ)
  | p θ => p (f θ)
  | u θ φ ψ => u (f θ) (f φ) (f ψ)
  | cx => cx
  | cy => cy
  | cz => cz
  | ch => ch
  | swap => swap
  | iswap => iswap
  | crx θ => crx (f θ)
  | cry θ => cry (f θ)
  | crz θ => crz (f θ)
  | cp θ => cp (f θ)
  | rxx θ => rxx (f θ)
  | ryy θ => ryy (f θ)
  | rzz θ => rzz (f θ)
  | ccx => ccx
  | cswap => cswap
  | mcx n => mcx n
  | mcry n θ => mcry n (f θ)
  | mcu n θ φ ψ => mcu n (f θ) (f φ) (f ψ)

/-- The inverse of a gate without angles, where it is a standard gate itself. -/
def inverse? : StandardGate R → Option (StandardGate R)
  | id => some id
  | x => some x
  | y => some y
  | z => some z
  | h => some h
  | s => some sdg
  | sdg => some s
  | t => some tdg
  | tdg => some t
  | sx => some sxdg
  | sxdg => some sx
  | cx => some cx
  | cy => some cy
  | cz => some cz
  | ch => some ch
  | swap => some swap
  | ccx => some ccx
  | cswap => some cswap
  | mcx n => some (mcx n)
  | _ => none

/-- Exchanging the two operands leaves the gate as it is. -/
def isSymmetric : StandardGate R → Bool
  | cz | swap | iswap | cp _ | rxx _ | ryy _ | rzz _ => true
  | _ => false

end StandardGate

/-- A gate known by name, opaque unless it carries its matrix. The matrix is row-major; the first
operand is the most significant bit of an index. -/
structure CustomGate (R : Type) where
  /-- The name under which a basis may list the gate. -/
  name : String
  numQubits : Nat
  params : List (Angle R)
  matrix : Option (List (Cx R))
  deriving Repr, BEq, Inhabited

namespace CustomGate

variable {R : Type}

/-- A gate without angles and without a matrix. -/
def ofName (name : String) (numQubits : Nat) : CustomGate R := ⟨name, numQubits, [], none⟩

/-- Number of entries of the matrix of a gate. It is counted in a word of 64 bits, which 32 qubits
overflow. -/
def matrixSize (numQubits : Nat) : Except CircuitError Nat :=
  if numQubits < 32 then .ok (Nat.pow 4 numQubits) else .error (.matrixOverflow numQubits)

/-- Accepts a matrix of the size that a gate on so many qubits needs. -/
def checkMatrix (numQubits : Nat) (matrix : List (Cx R)) : Except CircuitError Unit := do
  let expected ← matrixSize numQubits
  if matrix.length = expected then return ()
  else throw (.matrixDimension numQubits expected matrix.length)

def withMatrix (g : CustomGate R) (matrix : List (Cx R)) :
    Except CircuitError (CustomGate R) := do
  checkMatrix g.numQubits matrix
  return { g with matrix := some matrix }

end CustomGate

/-- What a gate applies. -/
inductive GateKind (R : Type) where
  | standard (g : StandardGate R)
  | custom (g : CustomGate R)
  deriving Repr, BEq, Inhabited

/-- A gate with an optional label. -/
structure Gate (R : Type) where
  kind : GateKind R
  /-- A free text; gates that take the place of this one do not carry it. -/
  label : Option String := none
  deriving Repr, BEq, Inhabited

namespace Gate

variable {R : Type}

def ofStandard (g : StandardGate R) : Gate R := ⟨.standard g, none⟩

def ofCustom (g : CustomGate R) : Gate R := ⟨.custom g, none⟩

/-- The name under which a basis lists the gate. -/
def name (g : Gate R) : String :=
  match g.kind with
  | .standard gate => gate.name
  | .custom c => c.name

def numQubits (g : Gate R) : Nat :=
  match g.kind with
  | .standard gate => gate.numQubits
  | .custom c => c.numQubits

def standard? (g : Gate R) : Option (StandardGate R) :=
  match g.kind with
  | .standard gate => some gate
  | .custom _ => none

end Gate

end QuantumCompiler
