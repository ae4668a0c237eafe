import QuantumCompiler.Numeric.GrayCode

/-!
# Ladders over controls

A gate with many controls as powers of a root. The ladder walks through the nonempty sets of
controls in the order of the reflected binary code; before each turn the parity of the set is
gathered on its first control. Turning by a root for odd sets and back for even ones applies the
`2^(n-1)`-th power of the root where all `n` controls are set, and nothing elsewhere.
-/

namespace QuantumCompiler

/-- One step of a ladder; controls are named by their position. -/
inductive LadderStep where
  | cx (control target : Nat)
  /-- Turns the target, backwards unless `odd`, when the control is set. -/
  | turn (odd : Bool) (control : Nat)
  deriving DecidableEq, Repr

namespace Ladder

/-- The bits of a machine word, in which the sets of a ladder are counted. -/
def wordBits : Nat := 64

/-- The controls in a pattern over `n` controls, the first of which is the highest bit. -/
def active (n pattern : Nat) : List Nat :=
  (List.range n).filter fun k => pattern.testBit (n - 1 - k)

/-- The gates that gather the parity of a set on its first control, when the first control of the
set before it held the parity of that set: where the first control itself is new, the others are
added to it, and otherwise the one that joins or leaves is. -/
def gather (changed : List Nat) : List Nat → List LadderStep
  | [] => []
  | first :: rest =>
    match changed with
    | [] => []
    | c :: _ => if c = first then rest.map (.cx · first) else [.cx c first]

/-- The steps for the `i`-th set. -/
def stage (n i : Nat) : List LadderStep :=
  let set := active n (gray i)
  let moves := if i ≤ 1 then [] else gather (active n (gray i ^^^ gray (i - 1))) set
  match set with
  | [] => []
  | first :: _ => moves ++ [.turn (popCount (gray i) % 2 == 1) first]

/-- The ladder over `n` controls, a stage for each nonempty set. -/
def steps (n : Nat) : List LadderStep :=
  (List.range (Nat.pow 2 n - 1)).flatMap fun i => stage n (i + 1)

end Ladder

end QuantumCompiler
