import QuantumCompiler.Numeric.Text

/-!
# JSON values

A JSON text as data. Objects keep their fields in order, repeated names included, because the
codecs refuse a repeated field. A number keeps the form it was written in, because a whole
number field refuses a numeral with a point or an exponent.
-/

namespace QuantumCompiler

/-- A number as written: `± digits · 10^(exponent - places)`, where `places` counts the digits
behind the point and a numeral without a point has none. -/
structure Numeral where
  negative : Bool
  /-- All digits, before and behind the point, as one whole number. -/
  digits : Nat
  /-- How many of the digits stand behind the point. -/
  places : Nat
  exponent : Option Int
  deriving Repr, DecidableEq

namespace Numeral

def ofNat (n : Nat) : Numeral := ⟨false, n, 0, none⟩

/-- The value of a numeral that is written as a whole number without a sign. -/
def toNat? (n : Numeral) : Option Nat :=
  if n.negative || n.places != 0 || n.exponent.isSome then none else some n.digits

/-- The nearest double; `none` when the number is beyond the largest one. -/
def toDouble? (n : Numeral) : Option Float :=
  let exponent : Int := n.exponent.getD 0 - n.places
  let size : Int := Decimal.width n.digits + exponent
  let magnitude : Option Float :=
    if n.digits = 0 || size < -400 then some 0.0
    else if size > 400 then none
    else
      let x := Float.ofScientific n.digits (exponent < 0) exponent.natAbs
      if x.isInf then none else some x
  magnitude.map fun x => if n.negative then -x else x

/-- The numeral of a finite double: the fewest digits that read back, positional with at least
one digit behind the point from `10⁻⁵` to below `10¹⁶`, with an exponent outside that range. -/
def ofDouble? (x : Float) : Option Numeral :=
  (Double.decode x).map fun p =>
    if p.significand = 0 then ⟨p.negative, 0, 1, none⟩
    else
      let d := (Decimal.Interval.ofParts p).shortest
      let exponent := d.point - 1
      if -5 ≤ exponent ∧ exponent ≤ 15 then
        let places : Int := d.length - d.point
        if places ≥ 1 then ⟨p.negative, d.digits, places.toNat, none⟩
        else ⟨p.negative, d.digits * Nat.pow 10 (1 - places).toNat, 1, none⟩
      else ⟨p.negative, d.digits, d.length - 1, some exponent⟩

end Numeral

/-- A JSON value. -/
inductive Json where
  /-- The literal `null`. -/
  | null
  | bool (b : Bool)
  | number (n : Numeral)
  | string (s : String)
  /-- A quoted text with half of a surrogate pair in it: well-formed, but the text of nothing. -/
  | halfPair
  | array (items : List Json)
  /-- Named values, in order. -/
  | object (fields : List (String × Json))
  deriving Repr, Inhabited

namespace Json

def nat (n : Nat) : Json := .number (.ofNat n)

/-- A double; `null` stands for a value that is no finite number. -/
def double (x : Float) : Json :=
  match Numeral.ofDouble? x with
  | some n => .number n
  | none => .null

/-- The first value with the given name. -/
def field? (fields : List (String × Json)) (name : String) : Option Json :=
  (fields.find? (·.1 == name)).map (·.2)

end Json

end QuantumCompiler
