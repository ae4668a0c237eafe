/-!
# Packing

Distributing groups of given sizes over parts of given capacities, by a search that goes back when a
group finds no room. The search keeps one account of the room and of the parts chosen so far; a choice
that leads nowhere is taken back.
-/

namespace QuantumCompiler.Packing

def take (free : List Nat) (part size : Nat) : List Nat := free.modify part (· - size)

def give (free : List Nat) (part size : Nat) : List Nat := free.modify part (· + size)

/-- How far a search has come. -/
structure State where
  /-- The room left in each part. -/
  free : List Nat
  /-- The parts of the sizes placed so far, in order. -/
  parts : List Nat
  deriving DecidableEq, Repr

def State.room (s : State) (part : Nat) : Nat := s.free.getD part 0

/-- Puts the next size into a part. -/
def State.place (s : State) (size part : Nat) : State := ⟨take s.free part size, s.parts ++ [part]⟩

/-- Takes the last size back out of its part. -/
def State.takeBack (s : State) (size part : Nat) : State :=
  ⟨give s.free part size, s.parts.dropLast⟩

/-- Puts a size into one part after another until the rest finds its place too. Of several parts with
equal room only the first is tried: `tried` are the rooms that led nowhere. -/
def tryParts (rest : State → Bool × State) (size : Nat) :
    List Nat → List Nat → State → Bool × State
  | _, [], s => (false, s)
  | tried, part :: parts, s =>
    if s.room part < size || tried.contains (s.room part) then tryParts rest size tried parts s
    else
      match rest (s.place size part) with
      | (true, s) => (true, s)
      | (false, left) =>
        tryParts rest size (s.room part :: tried) parts (left.takeBack size part)

/-- Places the sizes one by one, and tells whether there was a way. -/
def pack : List Nat → State → Bool × State
  | [], s => (true, s)
  | size :: sizes, s => tryParts (pack sizes) size [] (List.range s.free.length) s

/-- A part for each size, and the room that is left; `none` when there is no way. -/
def pack? (sizes free : List Nat) : Option (List Nat × List Nat) :=
  match pack sizes ⟨free, []⟩ with
  | (true, s) => some (s.parts, s.free)
  | (false, _) => none

end QuantumCompiler.Packing
