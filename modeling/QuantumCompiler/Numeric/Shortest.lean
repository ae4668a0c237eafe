import QuantumCompiler.Numeric.Double

/-!
# Shortest decimals

The shortest decimal that reads back as a given double, found by exact arithmetic on whole
numbers. A positive double `m · 2^e` is the nearest double for every real in an interval around
it; its ends belong to the interval exactly when `m` is even. For one digit, two digits and so on,
the two neighbours of the value on the grid of decimals with that many digits are tried, and the
first grid with a hit wins, the nearer neighbour first.
-/

namespace QuantumCompiler

/-- A positive decimal `0.d₁d₂… · 10^point`, the first digit not zero. -/
structure Decimal where
  digits : Nat
  length : Nat
  /-- Position of the decimal point, counted from before the first digit. -/
  point : Int
  deriving Repr, DecidableEq

namespace Decimal

/-- Number of decimal digits of a whole number. -/
def width (n : Nat) : Nat := (Nat.toDigits 10 n).length

/-- The exponent `p` with `10^(p-1) ≤ num / den < 10^p`, for positive arguments. -/
def magnitude (num den : Nat) : Int :=
  let guess : Int := (width num : Int) - width den
  let atLeast (p : Int) : Bool :=
    if p ≥ 0 then decide (num ≥ den * Nat.pow 10 p.toNat)
    else decide (num * Nat.pow 10 (-p).toNat ≥ den)
  if atLeast guess then guess + 1 else guess

/-- Value times `10^k`, as numerator and denominator. -/
def shift (num den : Nat) (k : Int) : Nat × Nat :=
  if k ≥ 0 then (num * Nat.pow 10 k.toNat, den) else (num, den * Nat.pow 10 (-k).toNat)

/-- Drops the zeros at the end of the digits. -/
def trim (d : Decimal) : Decimal :=
  go d.length d
where
  go : Nat → Decimal → Decimal
    | 0, d => d
    | n + 1, d =>
      if d.length > 1 && d.digits % 10 == 0 then go n ⟨d.digits / 10, d.length - 1, d.point⟩
      else d

/-- A whole number of units `10^(point - length)` as a decimal; `10^length` units carry over into
one more place before the point. -/
def ofUnits (units length : Nat) (point : Int) : Decimal :=
  if units = Nat.pow 10 length then ⟨Nat.pow 10 (length - 1), length, point + 1⟩
  else ⟨units, length, point⟩

/-- The reals that a double's neighbours leave to it: the value is `value / den`, the interval
runs from `low / den` to `high / den`. -/
structure Interval where
  value : Nat
  low : Nat
  high : Nat
  den : Nat
  closed : Bool

/-- The interval of a positive finite double. Below a power of two the spacing is halved. -/
def Interval.ofParts (p : Double.Parts) : Interval :=
  let quarter : Nat := if p.significand = Double.hiddenBit ∧ p.exponent > -1074 then 1 else 2
  let up := if p.exponent ≥ 2 then Nat.pow 2 (p.exponent - 2).toNat else 1
  let den := if p.exponent ≥ 2 then 1 else Nat.pow 2 (2 - p.exponent).toNat
  { value := 4 * p.significand * up
    low := (4 * p.significand - quarter) * up
    high := (4 * p.significand + 2) * up
    den
    closed := p.significand % 2 == 0 }

/-- The decimal `units · 10^k` lies in the interval. -/
def Interval.contains (i : Interval) (units : Nat) (k : Int) : Bool :=
  let (scaled, den) := shift units 1 k
  let x := scaled * i.den
  let low := i.low * den
  let high := i.high * den
  if i.closed then decide (low ≤ x) && decide (x ≤ high)
  else decide (low < x) && decide (x < high)

/-- The nearer neighbour first; a tie goes to the even one. -/
def neighbours (num den : Nat) : List Nat :=
  let below := num / den
  let rest := num % den
  if 2 * rest < den ∨ (2 * rest = den ∧ below % 2 = 0) then [below, below + 1]
  else [below + 1, below]

/-- The shortest decimal in the interval that is nearest to its value. -/
def Interval.shortest (i : Interval) : Decimal :=
  let point := magnitude i.value i.den
  let rec search : Nat → Nat → Decimal
    | 0, length =>
      let (num, den) := shift i.value i.den ((length : Int) - point)
      ofUnits (num / den) length point
    | fuel + 1, length =>
      let (num, den) := shift i.value i.den ((length : Int) - point)
      match (neighbours num den).find? (i.contains · (point - length)) with
      | some units => trim (ofUnits units length point)
      | none => search fuel (length + 1)
  search 17 1

/-- The decimal with the given number of digits nearest to `num / den`, exact ties to even. -/
def rounded (num den length : Nat) : Decimal :=
  let point := magnitude num den
  let (n, d) := shift num den ((length : Int) - point)
  ofUnits ((neighbours n d).headD 0) length point

def fraction (p : Double.Parts) : Nat × Nat :=
  if p.exponent ≥ 0 then (p.significand * Nat.pow 2 p.exponent.toNat, 1)
  else (p.significand, Nat.pow 2 (-p.exponent).toNat)

def digitChars (d : Decimal) : List Char :=
  let chars := Nat.toDigits 10 d.digits
  List.replicate (d.length - chars.length) '0' ++ chars

end Decimal

end QuantumCompiler
