import QuantumCompiler.Numeric.Shortest

/-!
# Written numbers

The two written forms of a double in messages and angle expressions: positional with the fewest
digits that read back, and scientific with a fixed number of digits after the point.
-/

namespace QuantumCompiler

/-- The digits before and after the point. -/
def Decimal.positional (d : Decimal) : List Char × List Char :=
  let chars := d.digitChars
  if d.point ≤ 0 then (['0'], List.replicate (-d.point).toNat '0' ++ chars)
  else
    let places := d.point.toNat
    if places ≥ chars.length then (chars ++ List.replicate (places - chars.length) '0', [])
    else (chars.take places, chars.drop places)

namespace Double

/-- Text of a value that is no finite number. -/
def specialText (x : Float) : String :=
  if x.isNaN then "NaN" else if x < 0.0 then "-inf" else "inf"

/-- Positional text with the fewest digits that read back: no exponent, no point after a whole
number. -/
def text (x : Float) : String :=
  match decode x with
  | none => specialText x
  | some p =>
    let sign := if p.negative then "-" else ""
    if p.significand = 0 then sign ++ "0"
    else
      let (whole, fraction) := (Decimal.Interval.ofParts p).shortest.positional
      let tail := if fraction.isEmpty then [] else '.' :: fraction
      sign ++ String.ofList (whole ++ tail)

/-- Scientific text with `places` digits after the point, correctly rounded. -/
def scientific (places : Nat) (x : Float) : String :=
  match decode x with
  | none => specialText x
  | some p =>
    let sign := if p.negative then "-" else ""
    let (chars, exponent) : List Char × Int :=
      if p.significand = 0 then (List.replicate (places + 1) '0', 0)
      else
        let (num, den) := Decimal.fraction p
        let d := Decimal.rounded num den (places + 1)
        (d.digitChars, d.point - 1)
    let tail := if places = 0 then [] else '.' :: chars.drop 1
    sign ++ String.ofList (chars.take 1 ++ tail) ++ "e" ++ toString exponent

end Double

end QuantumCompiler
