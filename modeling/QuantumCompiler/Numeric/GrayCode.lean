/-!
# The reflected binary code

Numbers as bit patterns in an order in which neighbours differ in one bit. Multiplexed rotations and
ladders over controls walk through patterns in this order, so that each step costs one gate.
-/

namespace QuantumCompiler

/-- The reflected binary code of a number: neighbours differ in one bit. -/
def gray (i : Nat) : Nat := i ^^^ (i >>> 1)

/-- Number of ones in the binary form of a number. -/
def popCount (n : Nat) : Nat :=
  if n = 0 then 0 else n % 2 + popCount (n / 2)

/-- Number of zeros at the end of the binary form of a positive number. -/
def trailingZeros (n : Nat) : Nat :=
  if n = 0 ∨ n % 2 = 1 then 0 else trailingZeros (n / 2) + 1

end QuantumCompiler
