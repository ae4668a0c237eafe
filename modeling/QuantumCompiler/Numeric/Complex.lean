import QuantumCompiler.Numeric.Scalar

/-!
# Complex numbers over a scalar

Cartesian complex numbers with the usual conventions: modulus by `hypot`, argument in `(-π, π]`
by `atan2`, quotients through the squared modulus, and principal square roots that respect the
sign of a zero part.
-/

namespace QuantumCompiler

/-- A complex number in Cartesian form. -/
structure Cx (R : Type) where
  re : R
  im : R
  deriving Repr, BEq, DecidableEq, Inhabited

namespace Cx

variable {R : Type} [Scalar R]

/-- The complex number of a real one. -/
@[inline] def ofReal (r : R) : Cx R := ⟨r, 0⟩

instance : Zero (Cx R) := ⟨⟨0, 0⟩⟩
instance : One (Cx R) := ⟨⟨1, 0⟩⟩

/-- The imaginary unit. -/
@[inline] def I : Cx R := ⟨0, 1⟩

instance : Add (Cx R) := ⟨fun a b => ⟨a.re + b.re, a.im + b.im⟩⟩
instance : Sub (Cx R) := ⟨fun a b => ⟨a.re - b.re, a.im - b.im⟩⟩
instance : Neg (Cx R) := ⟨fun a => ⟨-a.re, -a.im⟩⟩
instance : Mul (Cx R) :=
  ⟨fun a b => ⟨a.re * b.re - a.im * b.im, a.re * b.im + a.im * b.re⟩⟩

/-- Squared modulus. -/
@[inline] def normSq (z : Cx R) : R := z.re * z.re + z.im * z.im

instance : Div (Cx R) :=
  ⟨fun a b =>
    ⟨(a.re * b.re + a.im * b.im) / b.normSq, (a.im * b.re - a.re * b.im) / b.normSq⟩⟩

/-- Product with a real number, part by part. -/
@[inline] def scale (z : Cx R) (r : R) : Cx R := ⟨z.re * r, z.im * r⟩

/-- Quotient by a real number, part by part. -/
@[inline] def divReal (z : Cx R) (r : R) : Cx R := ⟨z.re / r, z.im / r⟩

/-- Complex conjugate. -/
@[inline] def conj (z : Cx R) : Cx R := ⟨z.re, -z.im⟩

/-- Modulus. -/
@[inline] def norm (z : Cx R) : R := Scalar.hypot z.re z.im

/-- Principal argument. -/
@[inline] def arg (z : Cx R) : R := Scalar.atan2 z.im z.re

/-- Reciprocal. -/
@[inline] def inv (z : Cx R) : Cx R := ⟨z.re / z.normSq, -z.im / z.normSq⟩

/-- The number of the given modulus and argument. -/
@[inline] def ofPolar (r θ : R) : Cx R := ⟨r * Scalar.cos θ, r * Scalar.sin θ⟩

/-- `e^{iθ}`. -/
@[inline] def cis (θ : R) : Cx R := ofPolar 1 θ

def pow (z : Cx R) (e : R) : Cx R := ofPolar (Scalar.pow z.norm e) (z.arg * e)

/-- Principal square root. On the axes it is taken part by part, so that the sign of a vanishing
imaginary part picks the side of the branch cut. -/
def sqrt (z : Cx R) : Cx R :=
  if Scalar.eq z.im 0 then
    if Scalar.isNegative z.re then
      let root := Scalar.sqrt (-z.re)
      ⟨0, if Scalar.isNegative z.im then -root else root⟩
    else ⟨Scalar.sqrt z.re, z.im⟩
  else if Scalar.eq z.re 0 then
    let root := Scalar.sqrt (Scalar.abs z.im / 2)
    ⟨root, if Scalar.isNegative z.im then -root else root⟩
  else ofPolar (Scalar.sqrt z.norm) (z.arg / 2)

/-- Sum of a list, taken from the left. -/
def sum (zs : List (Cx R)) : Cx R := zs.foldl (· + ·) 0

/-- Product of a list, taken from the left. -/
def product (zs : List (Cx R)) : Cx R := zs.foldl (· * ·) 1

def isFinite (z : Cx R) : Bool := Scalar.isFinite z.re && Scalar.isFinite z.im

end Cx

end QuantumCompiler
