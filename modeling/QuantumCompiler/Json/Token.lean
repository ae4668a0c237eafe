import QuantumCompiler.Json.Value

/-!
# JSON tokens

The lexical level of JSON: punctuation, literals, numbers and quoted texts. Blanks between tokens
carry no meaning. A number has no superfluous zero in front, digits on both sides of a point and at
least one digit in its exponent; a quoted text holds no raw control character.
-/

namespace QuantumCompiler.Json

/-- A token of a JSON text. -/
inductive Token where
  | openBrace
  | closeBrace
  | openBracket
  | closeBracket
  | colon
  | comma
  /-- A literal, number or quoted text. -/
  | scalar (value : Json)

/-- A quoted text is made of characters and of escaped 16-bit units. -/
inductive Piece where
  | char (c : Char)
  | unit (n : Nat)

/-- Joins the halves of surrogate pairs; `none` when a half stands alone. -/
def Piece.assemble : List Piece → Option (List Char)
  | [] => some []
  | .char c :: rest => (assemble rest).map (c :: ·)
  | .unit n :: rest =>
    if n < 0xD800 || n > 0xDFFF then (assemble rest).map (Char.ofNat n :: ·)
    else
      match rest with
      | .unit m :: rest =>
        if n < 0xDC00 && 0xDC00 ≤ m && m ≤ 0xDFFF then
          (assemble rest).map
            (Char.ofNat (0x10000 + (n - 0xD800) * 0x400 + (m - 0xDC00)) :: ·)
        else none
      | _ => none

def hexDigit? (c : Char) : Option Nat :=
  if c.isDigit then some (c.toNat - '0'.toNat)
  else if 'a' ≤ c && c ≤ 'f' then some (c.toNat - 'a'.toNat + 10)
  else if 'A' ≤ c && c ≤ 'F' then some (c.toNat - 'A'.toNat + 10)
  else none

def escape? : Char → Option Char
  | '"' => some '"'
  | '\\' => some '\\'
  | '/' => some '/'
  | 'b' => some '\x08'
  | 'f' => some '\x0c'
  | 'n' => some '\n'
  | 'r' => some '\r'
  | 't' => some '\t'
  | _ => none

/-- The pieces up to the closing quote, and what follows it. -/
def quoted? : List Char → Option (List Piece × List Char)
  | '"' :: rest => some ([], rest)
  | '\\' :: 'u' :: a :: b :: c :: d :: rest => do
    let n := ((← hexDigit? a) * 16 + (← hexDigit? b)) * 256 + (← hexDigit? c) * 16 + (← hexDigit? d)
    let (pieces, rest) ← quoted? rest
    return (.unit n :: pieces, rest)
  | '\\' :: c :: rest => do
    let c ← escape? c
    let (pieces, rest) ← quoted? rest
    return (.char c :: pieces, rest)
  | c :: rest =>
    if c.toNat < 0x20 || c == '\\' then none
    else do
      let (pieces, rest) ← quoted? rest
      return (.char c :: pieces, rest)
  | [] => none

/-- The digits at the front of a text, at least one of them, and what follows them. -/
def digits? (cs : List Char) : Option (List Char × List Char) :=
  match cs.takeWhile Char.isDigit with
  | [] => none
  | ds => some (ds, cs.dropWhile Char.isDigit)

def digitsValue (ds : List Char) : Nat := ds.foldl (fun n c => 10 * n + (c.toNat - '0'.toNat)) 0

/-- The digits in front of a point, without superfluous zeros. -/
def whole? (cs : List Char) : Option (List Char × List Char) :=
  match cs with
  | '0' :: rest => some (['0'], rest)
  | cs => digits? cs

/-- The digits behind a point, if there is one. -/
def fraction? (cs : List Char) : Option (List Char × List Char) :=
  match cs with
  | '.' :: rest => digits? rest
  | rest => some ([], rest)

/-- The exponent of the given sign whose digits stand at the front of a text. -/
def exponentDigits? (negative : Bool) (cs : List Char) : Option (Option Int × List Char) := do
  let (ds, rest) ← digits? cs
  let n : Int := digitsValue ds
  return (some (if negative then -n else n), rest)

/-- The exponent part at the front of a text; the outer `none` marks one without digits. -/
def exponent? (cs : List Char) : Option (Option Int × List Char) :=
  match cs with
  | c :: rest =>
    if c == 'e' || c == 'E' then
      match rest with
      | '-' :: rest => exponentDigits? true rest
      | '+' :: rest => exponentDigits? false rest
      | rest => exponentDigits? false rest
    else some (none, cs)
  | [] => some (none, [])

/-- The unsigned numeral at the front of a text. -/
def unsigned? (negative : Bool) (cs : List Char) : Option (Numeral × List Char) := do
  let (whole, rest) ← whole? cs
  let (fraction, rest) ← fraction? rest
  let (exponent, rest) ← exponent? rest
  return (⟨negative, digitsValue (whole ++ fraction), fraction.length, exponent⟩, rest)

/-- The token at the front of a text that does not start with a blank. -/
def token? : List Char → Option (Token × List Char)
  | '\x7b' :: rest => some (.openBrace, rest)
  | '\x7d' :: rest => some (.closeBrace, rest)
  | '[' :: rest => some (.openBracket, rest)
  | ']' :: rest => some (.closeBracket, rest)
  | ':' :: rest => some (.colon, rest)
  | ',' :: rest => some (.comma, rest)
  | '"' :: rest => do
    let (pieces, rest) ← quoted? rest
    match Piece.assemble pieces with
    | some cs => return (.scalar (.string (String.ofList cs)), rest)
    | none => return (.scalar .halfPair, rest)
  | '-' :: rest => do
    let (n, rest) ← unsigned? true rest
    return (.scalar (.number n), rest)
  | 'n' :: 'u' :: 'l' :: 'l' :: rest => some (.scalar .null, rest)
  | 't' :: 'r' :: 'u' :: 'e' :: rest => some (.scalar (.bool true), rest)
  | 'f' :: 'a' :: 'l' :: 's' :: 'e' :: rest => some (.scalar (.bool false), rest)
  | cs => do
    let (n, rest) ← unsigned? false cs
    return (.scalar (.number n), rest)

def isBlank (c : Char) : Bool := c == ' ' || c == '\n' || c == '\t' || c == '\r'

/-- All tokens of a text; every token takes at least one of the `fuel` many characters. -/
def tokensWithin : Nat → List Char → Option (List Token)
  | 0, cs => if (cs.dropWhile isBlank).isEmpty then some [] else none
  | fuel + 1, cs =>
    match cs.dropWhile isBlank with
    | [] => some []
    | cs => do
      let (t, rest) ← token? cs
      let ts ← tokensWithin fuel rest
      return t :: ts

/-- All tokens of a text; `none` when some part of it is none. -/
def tokens? (cs : List Char) : Option (List Token) := tokensWithin cs.length cs

end QuantumCompiler.Json
