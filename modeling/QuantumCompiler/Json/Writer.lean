import QuantumCompiler.Json.Value

/-!
# Writing JSON

The compact written form: no blanks, fields in order, and in texts only quotes, backslashes and
control characters escaped.
-/

namespace QuantumCompiler

/-- Exactly `places` digits for the part behind the point. -/
def Numeral.fractionChars (n : Numeral) : List Char :=
  let chars := Nat.toDigits 10 (n.digits % Nat.pow 10 n.places)
  List.replicate (n.places - chars.length) '0' ++ chars

/-- The part behind the point, with the point. -/
def Numeral.pointChars (n : Numeral) : List Char :=
  if n.places = 0 then [] else '.' :: n.fractionChars

/-- The exponent part; a positive exponent shows its sign. -/
def Numeral.exponentChars (n : Numeral) : List Char :=
  match n.exponent with
  | none => []
  | some e => 'e' :: (if e < 0 then '-' else '+') :: Nat.toDigits 10 e.natAbs

/-- The characters of a numeral. -/
def Numeral.chars (n : Numeral) : List Char :=
  let sign := if n.negative then ['-'] else []
  let whole := Nat.toDigits 10 (n.digits / Nat.pow 10 n.places)
  sign ++ whole ++ n.pointChars ++ n.exponentChars

namespace Json

def hexChar (n : Nat) : Char := (Nat.toDigits 16 n).headD '0'

/-- The written form of one character of a text. -/
def escaped (c : Char) : List Char :=
  if c == '"' then ['\\', '"']
  else if c == '\\' then ['\\', '\\']
  else if c == '\x08' then ['\\', 'b']
  else if c == '\x0c' then ['\\', 'f']
  else if c == '\n' then ['\\', 'n']
  else if c == '\r' then ['\\', 'r']
  else if c == '\t' then ['\\', 't']
  else if c.toNat < 0x20 then
    ['\\', 'u', '0', '0', hexChar (c.toNat / 16), hexChar (c.toNat % 16)]
  else [c]

def quotedChars (s : String) : List Char := '"' :: s.toList.flatMap escaped ++ ['"']

mutual

def chars : Json → List Char
  | .null => ['n', 'u', 'l', 'l']
  | .bool true => ['t', 'r', 'u', 'e']
  | .bool false => ['f', 'a', 'l', 's', 'e']
  | .number n => n.chars
  | .string s => quotedChars s
  | .halfPair => ['"', '\\', 'u', 'd', '8', '0', '0', '"']
  | .array [] => ['[', ']']
  | .array (v :: vs) => '[' :: chars v ++ itemChars vs ++ [']']
  | .object [] => ['\x7b', '\x7d']
  | .object (f :: fs) => '\x7b' :: fieldChars f ++ fieldsChars fs ++ ['\x7d']

/-- The values after the first one of an array. -/
def itemChars : List Json → List Char
  | [] => []
  | v :: vs => ',' :: chars v ++ itemChars vs

/-- The fields after the first one of an object. -/
def fieldsChars : List (String × Json) → List Char
  | [] => []
  | f :: fs => ',' :: fieldChars f ++ fieldsChars fs

def fieldChars : String × Json → List Char
  | (name, v) => quotedChars name ++ ':' :: chars v

end

def write (j : Json) : String := String.ofList j.chars

end Json

end QuantumCompiler
