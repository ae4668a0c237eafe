import QuantumCompiler.CompileError
import QuantumCompiler.Matrix.Four

/-!
# The interaction of two qubits

Every two-qubit unitary is `e^{iφ} · (A₁⊗B₁) · exp(-i/2 (x·XX + y·YY + z·ZZ)) · (A₂⊗B₂)`. In the
magic basis local gates are real orthogonal and the interaction is diagonal, so the factors come
from a real orthogonal eigenbasis of the symmetric matrix `UᵀU` taken there.
-/

namespace QuantumCompiler

open Square4

variable {R : Type} [Scalar R]

/-- A two-qubit unitary as local gates around its interaction. -/
structure Interaction (R : Type) where
  /-- The locals that act first, on the first and the second operand. -/
  before : Mat2 R × Mat2 R
  /-- Angle about `X⊗X`. -/
  xx : R
  /-- Angle about `Y⊗Y`. -/
  yy : R
  /-- Angle about `Z⊗Z`. -/
  zz : R
  after : Mat2 R × Mat2 R
  /-- The phase of the source relative to the product. -/
  phase : R
  deriving Repr

/-- Factors for mixing the real and the imaginary part of a matrix: parts that commute share an
eigenbasis, and a generic factor separates it. -/
def mixingFactors : List R :=
  [1, Scalar.decimal 4142135 7, Scalar.decimal 27182818 7, Scalar.decimal 1234567 7,
    Scalar.decimal 7654321 6]

/-- The name of a two-qubit unitary in messages. -/
def twoQubitUnitary : String := "two-qubit unitary"

namespace Interaction

/-- The product, without the phase. -/
def matrix (k : Interaction R) : Mat4 R :=
  Mat4.kron k.after.1 k.after.2 * Mat4.rxx k.xx * Mat4.ryy k.yy * Mat4.rzz k.zz
    * Mat4.kron k.before.1 k.before.2

def magic : Mat4 R :=
  let r : Cx R := ⟨Scalar.invSqrtTwo, 0⟩
  let i : Cx R := ⟨0, Scalar.invSqrtTwo⟩
  let o : Cx R := ⟨0, 0⟩
  Mat4.ofRows (Mat4.row r o o i) (Mat4.row o i r o) (Mat4.row o i (-r) o) (Mat4.row r o o (-i))

def complexify (m : Square4 R) : Mat4 R := m.map Cx.ofReal

/-- A rotation in the plane of two coordinates. -/
def planeRotation (p q : Fin 4) (c s : R) : Square4 R :=
  ofFn fun i j =>
    if i = j then (if i = p ∨ i = q then c else 1)
    else if i = p ∧ j = q then s
    else if i = q ∧ j = p then -s
    else 0

/-- The smaller rotation, as cosine and sine, that makes an off-diagonal entry vanish; `theta` is
half the difference of the diagonal entries over the off-diagonal one. -/
def jacobiAngle (theta : R) : R × R :=
  let sign : R := if Scalar.ge theta 0 then 1 else -1
  let t := sign / (Scalar.abs theta + Scalar.sqrt (theta * theta + 1))
  let c := 1 / Scalar.sqrt (t * t + 1)
  (c, t * c)

/-- One rotation of a Jacobi sweep on a symmetric matrix and its eigenvectors so far. -/
def jacobiStep (state : Square4 R × Square4 R) (pq : Fin 4 × Fin 4) : Square4 R × Square4 R :=
  let (a, vectors) := state
  let (p, q) := pq
  if Scalar.below (Scalar.abs (a.get p q)) (Scalar.allowance 300) then state
  else
    let (c, s) := jacobiAngle ((a.get q q - a.get p p) / (2 * a.get p q))
    let rotation := planeRotation p q c s
    (rotation.transpose * a * rotation, vectors * rotation)

def jacobiPairs : List (Fin 4 × Fin 4) :=
  indices.flatMap fun p => (indices.filter (p < ·)).map fun q => (p, q)

/-- Sweeps until the off-diagonal entries vanish, at most the given number of times. -/
def jacobiSweeps : Nat → Square4 R × Square4 R → Square4 R
  | 0, state => state.2
  | sweeps + 1, state =>
    let off := Scalar.sum (state.1.offDiagonal.map fun x => x * x)
    if Scalar.below off (Scalar.allowance 30) then state.2
    else jacobiSweeps sweeps (jacobiPairs.foldl jacobiStep state)

/-- The orthogonal matrix whose columns are eigenvectors of a symmetric matrix. -/
def eigenvectors (a : Square4 R) : Square4 R := jacobiSweeps 64 (a, diagonal fun _ => 1)

/-- A matrix divided by a root of its determinant. -/
def normalized (m : Mat2 R) : Mat2 R :=
  let det := m.det
  if Scalar.below det.norm Scalar.vanishing then m else m.scale (1 / det.sqrt)

/-- The factors of a tensor product, each of determinant one: the two blocks through the entry of
largest modulus. -/
def factors (k : Mat4 R) : Mat2 R × Mat2 R :=
  let (i, j) := Mat4.largestEntry k
  let entry := Mat4.entry k
  let (ia, ib) := (i.val / 2, i.val % 2)
  let (ja, jb) := (j.val / 2, j.val % 2)
  let a : Mat2 R := ⟨entry 0 ib 0 jb, entry 0 ib 1 jb, entry 1 ib 0 jb, entry 1 ib 1 jb⟩
  let b : Mat2 R := ⟨entry ia 0 ja 0, entry ia 0 ja 1, entry ia 1 ja 0, entry ia 1 ja 1⟩
  (normalized a, normalized b)

/-- The largest deviation that a rebuilt matrix may have. -/
def reconstruction : R := Scalar.allowance 8

/-- The error of a decomposition that misses its source. -/
def missed (error : R) : CompileError R :=
  .decompositionTolerance twoQubitUnitary error reconstruction

/-- The phase that takes a rebuilt matrix to its source. Fails when the two differ by more. -/
def matchingPhase (rebuilt target : Mat4 R) : Compile R R :=
  let phase := (Mat4.trace (Mat4.dagger rebuilt * target)).arg
  let error := (Mat4.scale rebuilt (Cx.cis phase)).deviation target
  if Scalar.gt error reconstruction then .error (missed error) else .ok phase

/-- The first mixing factor whose eigenbasis diagonalizes a symmetric unitary, with the diagonal
form. -/
def diagonalize? (m : Mat4 R) : List R → Option (Square4 R × Mat4 R)
  | [] => none
  | κ :: rest =>
    let p := eigenvectors (m.map fun z => z.re + κ * z.im)
    let d := complexify p.transpose * m * complexify p
    let off := Scalar.maximum (d.offDiagonal.map Cx.norm)
    if Scalar.below off (Scalar.allowance 9) then some (p, d)
    else diagonalize? m rest

/-- Splits a two-qubit unitary. Fails when the factors do not rebuild it. -/
def ofMatrix (u : Mat4 R) : Compile R (Interaction R) := do
  let det := Mat4.det u
  if Scalar.below det.norm (Scalar.allowance 12) then throw (missed (1 - det.norm))
  let special := Mat4.scale u (1 / det.pow (Scalar.decimal 25 2))
  let b : Mat4 R := magic
  let up := Mat4.dagger b * special * b
  let some (p, d) := diagonalize? (up.transpose * up) mixingFactors
    | throw (missed Scalar.undefined)
  let p := if Scalar.lt (Mat4.realDet p) 0
    then ofFn fun i j => if j.val = 0 then -p.get i j else p.get i j
    else p
  let root (k : Fin 4) : Cx R := (d.get k k).sqrt
  let product := Cx.product (indices.map root)
  let root (k : Fin 4) : Cx R :=
    if k.val = 0 ∧ Scalar.lt product.re 0 = true then -root k else root k
  let k₁ := up * complexify p * diagonal fun k => (root k).inv
  let k₂ := complexify p.transpose
  let (θ₀, θ₁, θ₂, θ₃) := values fun k => (root k).arg
  let x := (θ₀ + θ₁ - θ₂ - θ₃) / 4
  let y := (-θ₀ + θ₁ - θ₂ + θ₃) / 4
  let z := (θ₀ - θ₁ - θ₂ + θ₃) / 4
  let k : Interaction R :=
    { before := factors (b * k₂ * Mat4.dagger b)
      xx := -2 * x
      yy := -2 * y
      zz := -2 * z
      after := factors (b * k₁ * Mat4.dagger b)
      phase := 0 }
  return { k with phase := ← matchingPhase k.matrix u }

end Interaction

end QuantumCompiler
