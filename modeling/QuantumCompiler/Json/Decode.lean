import QuantumCompiler.Json.Value

/-!
# Decoding JSON values

The shapes that records, alternatives and numbers take in JSON. A record is an object, whose
unknown fields do not matter, or an array of its fields in order; no known field may be repeated.
An alternative is its tag, or an object with the tag as its only name.
-/

namespace QuantumCompiler.Json

def natUpTo? (bound : Nat) : Json → Option Nat
  | .number n => n.toNat?.filter (· ≤ bound)
  | _ => none

def word32? : Json → Option Nat := natUpTo? 0xFFFFFFFF

def word64? : Json → Option Nat := natUpTo? 0xFFFFFFFFFFFFFFFF

def double? : Json → Option Float
  | .number n => n.toDouble?
  | _ => none

def text? : Json → Option String
  | .string s => some s
  | _ => none

def list? {α : Type} (element : Json → Option α) : Json → Option (List α)
  | .array items => items.mapM element
  | _ => none

/-- A value that `null` stands in for. -/
def nullable? {α : Type} (value : Json → Option α) : Json → Option (Option α)
  | .null => some none
  | j => (value j).map some

/-- The fields of a record in the order of `names`. An array must hold at least the first
`required` ones; an object may lack any, which is for the caller to judge. -/
def record? (names : List String) (required : Nat) : Json → Option (List (Option Json))
  | .object fields =>
    if names.any fun n => decide (1 < (fields.filter (·.1 == n)).length) then none
    else some (names.map (field? fields))
  | .array items =>
    if required ≤ items.length ∧ items.length ≤ names.length then
      some (items.map some ++ List.replicate (names.length - items.length) none)
    else none
  | _ => none

/-- An optional field of a record: missing and `null` mean the same. -/
def optional? {α : Type} (value : Json → Option α) : Option Json → Option (Option α)
  | none => some none
  | some j => nullable? value j

/-- A field of a record that takes a default when it is missing. -/
def orDefault? {α : Type} (default : α) (value : Json → Option α) : Option Json → Option α
  | none => some default
  | some j => value j

/-- The tag of an alternative and what it carries. -/
def variant? : Json → Option (String × Option Json)
  | .string tag => some (tag, none)
  | .object [(tag, body)] => some (tag, some body)
  | _ => none

/-- The body of an alternative that carries nothing. -/
def isUnit : Option Json → Bool
  | none => true
  | some .null => true
  | _ => false

/-- An alternative that carries nothing, by its tag. -/
def tagged? {α : Type} (ofTag? : String → Option α) (j : Json) : Option α := do
  let (tag, body) ← variant? j
  if isUnit body then ofTag? tag else none

end QuantumCompiler.Json
