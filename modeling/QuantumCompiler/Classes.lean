/-!
# Disjoint classes

A table with one label for each qubit divides the qubits into classes: those with equal labels. In
the beginning every qubit is a class of its own, and two classes become one by sharing a label.
-/

namespace QuantumCompiler.Classes

/-- Every qubit is a class of its own. -/
def singletons (n : Nat) : Array Nat := Array.range n

/-- Gives the classes of two qubits one label. -/
def merge (labels : Array Nat) (a b : Nat) : Array Nat :=
  match labels[a]?, labels[b]? with
  | some x, some y => if x = y then labels else labels.map fun z => if z = y then x else z
  | _, _ => labels

def ofPairs (n : Nat) (pairs : List (Nat × Nat)) : Array Nat :=
  pairs.foldl (fun labels (a, b) => merge labels a b) (singletons n)

/-- Renames the labels to numbers in the order in which they are met. -/
def renumber (labels : Array Nat) : Array Nat :=
  let met := labels.toList.eraseDups
  labels.map fun l => met.idxOf l

end QuantumCompiler.Classes
