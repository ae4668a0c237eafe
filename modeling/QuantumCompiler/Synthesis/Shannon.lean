import QuantumCompiler.CompileError
import QuantumCompiler.Numeric.GrayCode
import QuantumCompiler.Synthesis.Interaction
import QuantumCompiler.Synthesis.Kernel

/-!
# Wide unitaries

The Shannon decomposition of a unitary on three or more qubits. The cosine-sine decomposition gives
two block-diagonal factors around a multiplexed `ry` on the first operand; a block-diagonal matrix
is two unitaries on the other operands around a multiplexed `rz`. The recursion ends at two
operands, whose dense blocks are left as they are. The result is checked against the source.
-/

namespace QuantumCompiler

variable {R : Type} [Scalar R]

/-- One step in time order. Qubits are positions in the operand list of the source. -/
inductive ShannonStep (R : Type) where
  | ry (qubit : Nat) (θ : R)
  | rz (qubit : Nat) (θ : R)
  | cx (control target : Nat)
  | block (qubits : List Nat) (matrix : List (Cx R))
  deriving Repr

namespace ShannonStep

def qubits : ShannonStep R → List Nat
  | ry q _ => [q]
  | rz q _ => [q]
  | cx control target => [control, target]
  | block qubits _ => qubits

/-- The matrix of a step over its operands. -/
def matrix : ShannonStep R → Dense (Cx R)
  | ry _ θ => .ofTwo (.ry θ)
  | rz _ θ => .ofTwo (.rz θ)
  | cx .. => ⟨4, #[1, 0, 0, 0, 0, 1, 0, 0, 0, 0, 0, 1, 0, 0, 1, 0]⟩
  | block qubits matrix => ⟨Nat.pow 2 qubits.length, matrix.toArray⟩

/-- Product of steps on an `n`-qubit register, in time order. -/
def product (n : Nat) (steps : List (ShannonStep R)) : Dense (Cx R) :=
  steps.foldl (fun m s => m.applyLocal n s.qubits s.matrix) (.identity (Nat.pow 2 n))

end ShannonStep

namespace Shannon

open ShannonStep

/-- The factorizations that the decomposition rests on. -/
structure Kernels (R : Type) where
  eigenvectors : Dense (Cx R) → Dense (Cx R)
  cosineSine : Dense (Cx R) → Dense (Cx R) → Dense (Cx R) → Dense (Cx R) → Dense.CosineSine R

def Kernels.jacobi : Kernels R := ⟨Dense.hermitianEigenvectors, Dense.cosineSine⟩

/-- Blocks and rotations below this count as the identity. -/
def negligible : R := Scalar.allowance 12

/-- The rotation in front of the `i`-th `cx` of a ladder: the mean of the angles, each with the sign
of the parity that its control value shares with the `i`-th code. -/
def ladderAngle (angles : List R) (i : Nat) : R :=
  Scalar.sum (angles.zipIdx.map fun (a, j) =>
    if popCount (j &&& gray i) % 2 = 0 then a else -a) / Scalar.ofNat angles.length

/-- A rotation of the target by `angles[j]` when the controls read `j`, as a ladder of rotations and
`cx`: between neighbouring codes the `cx` sits on the control whose bit changes. -/
def multiplexed (rotation : Nat → R → ShannonStep R) (angles : List R) (target : Nat)
    (controls : List Nat) : List (ShannonStep R) :=
  let count := angles.length
  (List.range count).flatMap fun i =>
    let θ := ladderAngle angles i
    let turn := if Scalar.gt (Scalar.abs θ) negligible then [rotation target θ] else []
    let changed := gray i ^^^ gray ((i + 1) % count)
    let flip :=
      match controls.reverse[trailingZeros changed]? with
      | some control => [cx control target]
      | none => []
    turn ++ flip

/-- A dense block, unless it is the identity. -/
def leaf (u : Dense (Cx R)) (qubits : List Nat) : List (ShannonStep R) :=
  if Scalar.below (u.sub (.identity u.size)).maxNorm negligible then []
  else [block qubits u.toList]

/-- The Hermitian mixture of the symmetric and antisymmetric part of a matrix. -/
def hermitianMixture (x : Dense (Cx R)) (κ : R) : Dense (Cx R) :=
  .ofFn x.size fun i j =>
    let symmetric := (x.get i j + (x.get j i).conj).scale Scalar.half
    let antisymmetric := (x.get i j - (x.get j i).conj) / ⟨0, 2⟩
    symmetric + antisymmetric.scale κ

/-- The eigenvectors and the diagonal form of a unitary by the first mixing factor that separates
them, or the smallest failure. -/
def diagonalize (kernels : Kernels R) (x : Dense (Cx R)) (residual : R) :
    List R → Except R (Dense (Cx R) × Dense (Cx R))
  | [] => .error residual
  | κ :: rest =>
    let v := kernels.eigenvectors (hermitianMixture x κ)
    let d := (v.adjoint.mul x).mul v
    let off := Scalar.maximum (d.offDiagonal.map Cx.norm)
    if Scalar.gt off (Scalar.allowance 9) then
      diagonalize kernels x (Scalar.min residual off) rest
    else .ok (v, d)

/-- `diag(a, b)` as two unitaries on the other operands around a multiplexed `rz` on the first. -/
def demultiplex (kernels : Kernels R) (name : String)
    (recurse : Dense (Cx R) → Compile R (List (ShannonStep R)))
    (target : Nat) (controls : List Nat) (a b : Dense (Cx R)) :
    Compile R (List (ShannonStep R)) := do
  let x := a.mul b.adjoint
  match diagonalize kernels x Scalar.unbounded mixingFactors with
  | .error residual => throw (.decompositionTolerance name residual (Scalar.allowance 9))
  | .ok (v, d) =>
    let roots := (List.range x.size).map fun i => (d.get i i).sqrt
    let w := ((Dense.diagonal roots.toArray).mul v.adjoint).mul b
    let first ← recurse w
    let middle := multiplexed rz (roots.map fun r => -2 * r.arg) target controls
    return first ++ middle ++ (← recurse v)

/-- The steps of a unitary on the given operands. -/
def steps (kernels : Kernels R) (name : String) :
    List Nat → Dense (Cx R) → Compile R (List (ShannonStep R))
  | [], u => .ok (leaf u [])
  | [q], u => .ok (leaf u [q])
  | [q, r], u => .ok (leaf u [q, r])
  | q :: r :: s :: rest, u => do
    let half := u.size / 2
    let u₀₀ := u.block 0 0 half
    let u₀₁ := u.block 0 half half
    let u₁₀ := u.block half 0 half
    let u₁₁ := u.block half half half
    let others := r :: s :: rest
    let recurse := steps kernels name others
    if Scalar.below u₀₁.maxNorm negligible && Scalar.below u₁₀.maxNorm negligible then
      if Scalar.below (u₀₀.sub u₁₁).maxNorm negligible then recurse u₀₀
      else demultiplex kernels name recurse q others u₀₀ u₁₁
    else
      let cs := kernels.cosineSine u₀₀ u₀₁ u₁₀ u₁₁
      let first ← demultiplex kernels name recurse q others cs.r₀ cs.r₁
      let angles := List.zipWith (fun c s => 2 * Scalar.atan2 s c) cs.cosines.toList
        cs.sines.toList
      let middle := multiplexed ry angles q others
      return first ++ middle ++ (← demultiplex kernels name recurse q others cs.l₀ cs.l₁)

/-- The largest deviation that a decomposition may have. -/
def reconstruction : R := Scalar.allowance 8

/-- Decomposes a `2ⁿ × 2ⁿ` unitary, given row by row; `name` is for messages. Fails when the matrix
has the wrong size, or when the steps do not rebuild it. -/
def decompose (name : String) (matrix : List (Cx R)) (n : Nat) :
    Compile R (List (ShannonStep R)) := do
  if n ≥ 64 then throw (.unsupportedGate name (.tooWide n))
  let dimension := Nat.pow 2 n
  if matrix.length ≠ dimension * dimension then
    throw (.malformedCircuit (.matrixShape name dimension))
  let u : Dense (Cx R) := ⟨dimension, matrix.toArray⟩
  let steps ← steps .jacobi name (List.range n) u
  let error := ((ShannonStep.product n steps).sub u).maxNorm
  if Scalar.gt error reconstruction then
    throw (.decompositionTolerance name error reconstruction)
  return steps

end Shannon

end QuantumCompiler
