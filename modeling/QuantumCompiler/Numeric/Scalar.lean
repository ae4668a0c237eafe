/-!
# Scalars

`Scalar R` lists what the compiler asks of a number: field operations, the elementary functions
of gate matrices, comparisons with a `Bool` answer, and the constants its algorithms name.
Everything numeric in the library is written over an arbitrary `Scalar`, so the same definitions
run on machine doubles and can be reasoned about over exact numbers.

The class carries no laws. Statements that hold "whatever the numbers do" are statements over
every `Scalar`; exact statements instantiate it.
-/

namespace QuantumCompiler

/-- Number arithmetic as the compiler uses it.

Comparisons answer with a `Bool`, so that a value which is not a number can compare false with
everything. `allowance k` is the margin `10⁻ᵏ` granted to accumulated rounding wherever the
compiler compares with a computed number: an exact scalar needs none and may set it to zero. -/
class Scalar (R : Type) extends Add R, Sub R, Mul R, Div R, Neg R where
  ofNat : Nat → R
  /-- `decimal m k` is `m / 10ᵏ`. -/
  decimal : Nat → Nat → R
  /-- The margin `10⁻ᵏ` granted to rounding; zero where arithmetic is exact. -/
  allowance : Nat → R
  /-- The margin below which a pivot or a norm counts as vanished. -/
  vanishing : R
  pi : R
  unbounded : R
  undefined : R
  sqrt : R → R
  /-- Sine of an angle in radians. -/
  sin : R → R
  /-- Cosine of an angle in radians. -/
  cos : R → R
  ln : R → R
  abs : R → R
  /-- The nearest whole number, halves going away from zero. -/
  round : R → R
  /-- `atan2 y x` is the angle of the point `(x, y)`. -/
  atan2 : R → R → R
  /-- Length of the vector with the two given legs. -/
  hypot : R → R → R
  pow : R → R → R
  /-- The remainder of a division that is never negative for a positive divisor. -/
  remEuclid : R → R → R
  /-- The larger of two numbers; a missing value loses against any number. -/
  max : R → R → R
  /-- The smaller of two numbers; a missing value loses against any number. -/
  min : R → R → R
  eq : R → R → Bool
  lt : R → R → Bool
  /-- Below or equal. -/
  le : R → R → Bool
  /-- A total order, used for sorting and for choosing pivots. -/
  order : R → R → Ordering
  /-- The sign is a minus, also in front of a zero. -/
  isNegative : R → Bool
  isFinite : R → Bool

namespace Scalar

variable {R : Type} [Scalar R]

instance (priority := low) instOfNat (n : Nat) : OfNat R n := ⟨ofNat n⟩

instance (priority := low) instZero : Zero R := ⟨ofNat 0⟩

/-- A full turn. -/
@[inline] def tau : R := 2 * pi

/-- A quarter turn. -/
@[inline] def quarterTurn : R := pi / 2

/-- One half. -/
@[inline] def half : R := decimal 5 1

/-- `1 / √2`. -/
@[inline] def invSqrtTwo : R := sqrt half

/-- Strictly above. -/
@[inline] def gt (a b : R) : Bool := lt b a

/-- Above or equal. -/
@[inline] def ge (a b : R) : Bool := le b a

/-- Below a margin. A margin of zero is met by zero itself, so that what is granted to rounding
becomes equality where arithmetic is exact. -/
def below (a margin : R) : Bool := lt a margin || (eq margin 0 && le a 0)

/-- Sum of a list, taken from the left. -/
def sum (xs : List R) : R := xs.foldl (· + ·) 0

/-- The largest element of a list of magnitudes, zero when there is none. -/
def maximum (xs : List R) : R := xs.foldl max 0

/-- Position of the last of the largest elements, `none` for an empty list. -/
def lastArgMax (xs : List (Nat × R)) : Option Nat :=
  (xs.foldl (fun best x =>
    match best with
    | none => some x
    | some b => if order b.2 x.2 = .gt then some b else some x) none).map (·.1)

end Scalar

end QuantumCompiler
