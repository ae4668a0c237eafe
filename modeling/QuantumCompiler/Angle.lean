import QuantumCompiler.Numeric.Text

/-!
# Angles

A gate angle is a number or an expression over named parameters. An expression without free names
has a value, unless it divides by zero; one with free names keeps its shape until the names are
bound.
-/

namespace QuantumCompiler

/-- A symbolic or numeric angle. -/
inductive Angle (R : Type) where
  | const (value : R)
  | symbol (name : String)
  | pi
  | neg (a : Angle R)
  | add (a b : Angle R)
  | sub (a b : Angle R)
  | mul (a b : Angle R)
  | div (a b : Angle R)
  deriving Repr, BEq, DecidableEq, Inhabited

abbrev Assignment (R : Type) := List (String × R)

def Assignment.get? {R : Type} (values : Assignment R) (name : String) : Option R :=
  (values.find? (·.1 == name)).map (·.2)

namespace Angle

variable {R : Type}

instance : Add (Angle R) := ⟨add⟩
instance : Sub (Angle R) := ⟨sub⟩
instance : Mul (Angle R) := ⟨mul⟩
instance : Div (Angle R) := ⟨div⟩
instance : Neg (Angle R) := ⟨neg⟩

def isSymbolic : Angle R → Bool
  | const _ | pi => false
  | symbol _ => true
  | neg a => a.isSymbolic
  | add a b | sub a b | mul a b | div a b => a.isSymbolic || b.isSymbolic

/-- Free names in order of appearance. -/
def names : Angle R → List String
  | const _ | pi => []
  | symbol name => [name]
  | neg a => a.names
  | add a b | sub a b | mul a b | div a b => a.names ++ b.names

/-- Adds a name to a sorted list without repetitions. -/
def insertName (name : String) : List String → List String
  | [] => [name]
  | n :: ns => if name = n then n :: ns else if name < n then name :: n :: ns
    else n :: insertName name ns

/-- Free names, sorted and without repetitions. -/
def symbols (a : Angle R) : List String := a.names.foldl (fun ns n => insertName n ns) []

def substitute (values : String → Option R) : Angle R → Angle R
  | const v => const v
  | symbol name => match values name with
    | some v => const v
    | none => symbol name
  | pi => pi
  | neg a => neg (a.substitute values)
  | add a b => add (a.substitute values) (b.substitute values)
  | sub a b => sub (a.substitute values) (b.substitute values)
  | mul a b => mul (a.substitute values) (b.substitute values)
  | div a b => div (a.substitute values) (b.substitute values)

def bind (a : Angle R) (name : String) (value : R) : Angle R :=
  a.substitute fun n => if n = name then some value else none

variable [Scalar R]

/-- The number an angle stands for: none while a name is free or a divisor is zero. -/
def value? : Angle R → Option R
  | const v => some v
  | symbol _ => none
  | pi => some Scalar.pi
  | neg a => a.value?.map (- ·)
  | add a b => do return (← a.value?) + (← b.value?)
  | sub a b => do return (← a.value?) - (← b.value?)
  | mul a b => do return (← a.value?) * (← b.value?)
  | div a b => do
    let divisor ← b.value?
    if Scalar.eq divisor 0 then none
    else return (← a.value?) / divisor

/-- The angle is a number equal to zero. -/
def isZero (a : Angle R) : Bool :=
  match a.value? with
  | some v => Scalar.eq v 0
  | none => false

/-- Folds the parts that are numbers and drops zero terms of sums and differences. -/
def simplify (a : Angle R) : Angle R :=
  match a.value? with
  | some v => const v
  | none =>
    match a with
    | neg a => neg a.simplify
    | add a b =>
      let a := a.simplify
      let b := b.simplify
      if a.isZero then b else if b.isZero then a else add a b
    | sub a b =>
      let a := a.simplify
      let b := b.simplify
      if b.isZero then a else sub a b
    | mul a b => mul a.simplify b.simplify
    | div a b => div a.simplify b.simplify
    | a => a

/-- Binds every name that has a number, then simplifies. -/
def bindAll (a : Angle R) (values : Assignment R) : Angle R :=
  (a.substitute values.get?).simplify

/-- Product with a number; stays a number if the angle is one. -/
def scaled (a : Angle R) (factor : R) : Angle R :=
  match a.value? with
  | some v => const (v * factor)
  | none => mul (const factor) a

end Angle

/-- An angle over doubles as text; every sum, difference, product and quotient is in
parentheses. -/
def Angle.text : Angle Float → String
  | .const v => Double.text v
  | .symbol name => name
  | .pi => "pi"
  | .neg a => "-(" ++ a.text ++ ")"
  | .add a b => "(" ++ a.text ++ " + " ++ b.text ++ ")"
  | .sub a b => "(" ++ a.text ++ " - " ++ b.text ++ ")"
  | .mul a b => "(" ++ a.text ++ " * " ++ b.text ++ ")"
  | .div a b => "(" ++ a.text ++ " / " ++ b.text ++ ")"

end QuantumCompiler
