import QuantumCompiler.Numeric.Scalar

/-!
# Doubles

Binary double-precision numbers as scalars. A finite double is `± m · 2^e` for natural `m`; the
decoding `Double.decode` reads `m` and `e` off the bit pattern, and the exact remainder of a
division is computed on these whole numbers.
-/

namespace QuantumCompiler.Double

/-- A finite double as sign, whole significand and binary exponent. -/
structure Parts where
  negative : Bool
  /-- Whole significand, below `2^53`. -/
  significand : Nat
  exponent : Int
  deriving Repr, DecidableEq

/-- The leading bit of a significand, which the bit pattern leaves out. -/
def hiddenBit : Nat := 1 <<< 52

/-- The parts of a finite double; `none` for an infinity or a value that is not a number. -/
def decode (x : Float) : Option Parts :=
  let bits := x.toBits.toNat
  let negative := bits >>> 63 == 1
  let biased : Nat := (bits >>> 52) % 2048
  let fraction : Nat := bits % hiddenBit
  if biased = 2047 then none
  else if biased = 0 then some ⟨negative, fraction, -1074⟩
  else some ⟨negative, hiddenBit + fraction, (biased : Int) - 1075⟩

/-- The sign bit, which infinities and missing values have as well. -/
def isNegative (x : Float) : Bool := x.toBits.toNat >>> 63 == 1

/-- The double `± m · 2^e`, for `m` below `2^53` and `e` from `-1074` to `971`. -/
def ofParts (p : Parts) : Float :=
  -- The leading bit moves up to the place of the hidden one, unless the exponent is used up before.
  let shift := min (52 - Nat.log2 p.significand) (p.exponent + 1074).toNat
  let significand := p.significand <<< shift
  let biased := if significand < hiddenBit then 0 else (p.exponent - shift + 1075).toNat
  let sign := if p.negative then 1 else 0
  Float.ofBits ((sign <<< 63) + (biased <<< 52) + significand % hiddenBit).toUInt64

/-- Remainder of the division truncated toward zero. It has the sign of the dividend and is
always representable, so it is computed without rounding. -/
def truncatedRemainder (x y : Float) : Float :=
  match decode x, decode y with
  | some px, some py =>
    if py.significand = 0 then 0.0 / 0.0
    else
      let e := min px.exponent py.exponent
      let a := px.significand <<< (px.exponent - e).toNat
      let b := py.significand <<< (py.exponent - e).toNat
      ofParts ⟨px.negative, a % b, e⟩
  | some _, none => if y.isInf then x else 0.0 / 0.0
  | none, _ => 0.0 / 0.0

/-- Remainder in `[0, |y|)`, up to rounding at the upper end. -/
def remEuclid (x y : Float) : Float :=
  let r := truncatedRemainder x y
  if r < 0.0 then r + y.abs else r

/-- Length of a vector whose squared legs neither overflow nor underflow, the longer leg first. One
correction step takes off most of the error that rounding the squares leaves. -/
def hypotWithin (long short : Float) : Float :=
  let h := (long * long + short * short).sqrt
  let (t, u) :=
    if h <= 2.0 * short then
      let δ := h - short
      (long * (2.0 * δ - long), (δ - 2.0 * (long - short)) * δ)
    else
      let δ := h - long
      (2.0 * δ * (long - 2.0 * short), (4.0 * δ - short) * short + δ * δ)
  h - (t + u) / (2.0 * h)

/-- Length of a vector. Legs too long or too short to be squared are scaled by a power of two, and a
leg below half a unit in the last place of the other one does not count. An infinite leg makes the
length infinite whatever the other is. -/
def hypot (x y : Float) : Float :=
  let a := x.abs
  let b := y.abs
  if a.isInf || b.isInf then 1.0 / 0.0
  else
    let long := if a < b then b else a
    let short := if a < b then a else b
    let scale : Int := if long > 1e150 then -600 else if short < 1e-135 then 600 else 0
    if short <= long.scaleB (-54) then long + short
    else if scale = 0 then hypotWithin long short
    else (hypotWithin (long.scaleB scale) (short.scaleB scale)).scaleB (-scale)

/-- The order of the reals, extended by `-0 < 0` and by values that are not numbers at both
ends, according to their sign. -/
def totalOrder (x y : Float) : Ordering :=
  let key (z : Float) : Int :=
    let bits := z.toBits.toNat
    if bits >>> 63 == 1 then (0x7FFFFFFFFFFFFFFF : Int) - bits else bits
  compare (key x) (key y)

def max (x y : Float) : Float :=
  if x.isNaN then y else if y.isNaN then x else if x < y then y else x

def min (x y : Float) : Float :=
  if x.isNaN then y else if y.isNaN then x else if y < x then y else x

instance : Scalar Float where
  ofNat := Float.ofNat
  decimal m k := Float.ofScientific m true k
  allowance k := Float.ofScientific 1 true k
  vanishing := Float.ofBits 0x0010000000000000
  pi := Float.ofBits 0x400921FB54442D18
  unbounded := 1.0 / 0.0
  undefined := 0.0 / 0.0
  sqrt := Float.sqrt
  sin := Float.sin
  cos := Float.cos
  ln := Float.log
  abs := Float.abs
  round := Float.round
  atan2 := Float.atan2
  hypot := hypot
  pow := Float.pow
  remEuclid := remEuclid
  max := max
  min := min
  eq x y := x == y
  lt x y := x < y
  le x y := x ≤ y
  order := totalOrder
  isNegative := isNegative
  isFinite := Float.isFinite

end QuantumCompiler.Double
