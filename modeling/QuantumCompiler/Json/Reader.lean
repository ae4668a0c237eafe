import QuantumCompiler.Json.Token

/-!
# Reading JSON

The grammar over tokens. `Json.read? s` is the value that the whole text `s` spells.
-/

namespace QuantumCompiler.Json

mutual

/-- A value at the front of the tokens. Each token is looked at once, so their number bounds the
nesting of calls. -/
def value? : Nat → List Token → Option (Json × List Token)
  | 0, _ => none
  | fuel + 1, ts =>
    match ts with
    | .scalar v :: rest => some (v, rest)
    | .openBracket :: .closeBracket :: rest => some (.array [], rest)
    | .openBracket :: rest => (items? fuel rest).map fun (vs, rest) => (.array vs, rest)
    | .openBrace :: .closeBrace :: rest => some (.object [], rest)
    | .openBrace :: rest => (fields? fuel rest).map fun (fs, rest) => (.object fs, rest)
    | _ => none

def items? : Nat → List Token → Option (List Json × List Token)
  | 0, _ => none
  | fuel + 1, ts =>
    match value? fuel ts with
    | some (v, .closeBracket :: rest) => some ([v], rest)
    | some (v, .comma :: rest) => (items? fuel rest).map fun (vs, rest) => (v :: vs, rest)
    | _ => none

/-- The named values up to the closing brace. -/
def fields? : Nat → List Token → Option (List (String × Json) × List Token)
  | 0, _ => none
  | fuel + 1, ts =>
    match ts with
    | .scalar (.string name) :: .colon :: ts =>
      match value? fuel ts with
      | some (v, .closeBrace :: rest) => some ([(name, v)], rest)
      | some (v, .comma :: rest) =>
        (fields? fuel rest).map fun (fs, rest) => ((name, v) :: fs, rest)
      | _ => none
    | _ => none

end

def read? (s : String) : Option Json := do
  let ts ← tokens? s.toList
  match value? (2 * ts.length) ts with
  | some (v, []) => some v
  | _ => none

end QuantumCompiler.Json
