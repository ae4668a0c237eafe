import QuantumCompiler.CompileError
import QuantumCompiler.Matrix.Two

/-!
# One-qubit synthesis

Every 2×2 unitary is `e^{iφ} · Rz(α) · Ry(β) · Rz(γ)`. The angles are read off the matrix once, and
each rotation family has a closed form in them. Angles are wrapped into half a turn on both sides;
a rotation by a full turn is minus the identity, so every turn taken off goes into the phase.
-/

namespace QuantumCompiler

/-- Gates in time order and the phase they miss: the source is `e^{i·phase}` times their
product. -/
structure OneQubitSequence (R : Type) where
  /-- The gates, the first one acting first. -/
  gates : List (StandardGate R)
  /-- The phase of the source relative to the gates. -/
  phase : R
  deriving Repr

/-- The angles of `e^{iφ} · Rz(α) · Ry(β) · Rz(γ)`. -/
structure EulerAngles (R : Type) where
  phase : R
  alpha : R
  beta : R
  /-- The rotation that acts first. -/
  gamma : R
  deriving Repr

variable {R : Type} [Scalar R]

def EulerAngles.ofMatrix (u : Mat2 R) : EulerAngles R :=
  let phase := u.det.arg / 2
  let v := u.scale (Cx.cis (-phase))
  let sum := 2 * v.d.arg
  let diff := 2 * v.c.arg
  { phase
    alpha := (sum + diff) / 2
    beta := 2 * Scalar.atan2 v.c.norm v.a.norm
    gamma := (sum - diff) / 2 }

namespace OneQubitSequence

/-- An angle within half a turn on both sides, and the number of full turns taken off. -/
def wrap (angle : R) : R × R :=
  let turns := Scalar.round (angle / Scalar.tau)
  (angle - turns * Scalar.tau, turns)

/-- Appends a rotation unless its wrapped angle is within the tolerance. -/
def rotate (tolerance : R) (s : OneQubitSequence R) (make : Angle R → StandardGate R)
    (angle : R) : OneQubitSequence R :=
  let (angle, turns) := wrap angle
  { phase := s.phase + turns * Scalar.pi
    gates := if Scalar.gt (Scalar.abs angle) tolerance then s.gates ++ [make (.const angle)]
      else s.gates }

def fixed (s : OneQubitSequence R) (g : StandardGate R) : OneQubitSequence R :=
  { s with gates := s.gates ++ [g] }

def finish (s : OneQubitSequence R) : OneQubitSequence R :=
  { s with phase := Scalar.remEuclid s.phase Scalar.tau }

/-- The matrix of the sequence, with its phase. -/
def matrix? (s : OneQubitSequence R) : Option (Mat2 R) :=
  (Mat2.ofSequence? s.gates).map (·.scale (Cx.cis s.phase))

/-- Largest deviation of an entry from the source. -/
def deviation (u : Mat2 R) (s : OneQubitSequence R) : R :=
  match s.matrix? with
  | some m => u.deviation m
  | none => Scalar.unbounded

end OneQubitSequence

namespace EulerFamily

open OneQubitSequence

/-- The gates of a unitary in a family; rotations within the tolerance are dropped. -/
def sequence (family : EulerFamily) (u : Mat2 R) (tolerance : R) : OneQubitSequence R :=
  let ⟨phase, α, β, γ⟩ := EulerAngles.ofMatrix u
  let flat := Scalar.lt (Scalar.abs β) tolerance
  let rotate := rotate tolerance
  let quarter : R := Scalar.quarterTurn
  match family with
  | zyz =>
    if flat then (rotate ⟨[], phase⟩ .rz (α + γ)).finish
    else (rotate (rotate (rotate ⟨[], phase⟩ .rz γ) .ry β) .rz α).finish
  | zxz =>
    if flat then (rotate ⟨[], phase⟩ .rz (α + γ)).finish
    else (rotate (rotate (rotate ⟨[], phase⟩ .rz (γ - quarter)) .rx β) .rz (α + quarter)).finish
  | xyx =>
    -- Conjugation by a Hadamard gate turns `rz` into `rx` and `ry` into its inverse.
    let ⟨phase, α, β, γ⟩ := EulerAngles.ofMatrix (Mat2.h * u * Mat2.h)
    if Scalar.lt (Scalar.abs β) tolerance then (rotate ⟨[], phase⟩ .rx (α + γ)).finish
    else (rotate (rotate (rotate ⟨[], phase⟩ .rx γ) .ry (-β)) .rx α).finish
  | u3 =>
    let phase := phase - (α + γ) / 2
    let gates :=
      if flat && Scalar.lt (Scalar.abs (wrap (α + γ)).1) tolerance then []
      else [.u (.const β) (.const (wrap α).1) (.const (wrap γ).1)]
    finish ⟨gates, phase⟩
  | zsx =>
    if flat then (rotate ⟨[], phase⟩ .rz (α + γ)).finish
    else
      -- `Ry(β)` is `e^{iπ/2} · Rz(π) · SX · Rz(β + π) · SX`.
      let s := (rotate ⟨[], phase + quarter⟩ .rz γ).fixed .sx
      let s := (rotate s .rz (β + Scalar.pi)).fixed .sx
      (rotate s .rz (α + Scalar.pi)).finish

/-- The largest deviation that a synthesized sequence may have. -/
def reconstruction : R := Scalar.allowance 8

/-- Splits a unitary into gates of a family. Fails when their product misses the unitary. -/
def synthesize (family : EulerFamily) (u : Mat2 R) (tolerance : R) :
    Compile R (OneQubitSequence R) :=
  let s := family.sequence u tolerance
  let error := s.deviation u
  if Scalar.gt error reconstruction then
    .error (.decompositionTolerance (family.label ++ " synthesis") error reconstruction)
  else .ok s

end EulerFamily

end QuantumCompiler
