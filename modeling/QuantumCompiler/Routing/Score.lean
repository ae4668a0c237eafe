import QuantumCompiler.Layout.Placement

/-!
# Scores of swaps

A swap is judged by where it leaves the gates that wait: the mean cost of the front, plus a weighted
mean over the gates that follow, times the decay of the two qubits. The cost of a gate is the number
of links between its operands, or the cost of the cheapest path.
-/

namespace QuantumCompiler

/-- The best element of a list, the first one among equals. -/
def bestOf? {α : Type} (better : α → α → Bool) (xs : List α) : Option α :=
  xs.foldl (fun best x =>
    match best with
    | none => some x
    | some current => if better x current then some x else best) none

variable {R : Type} [Scalar R]

/-- The score of a swap; the second number only decides among equals. -/
structure Score (R : Type) where
  /-- What is compared first. -/
  primary : R
  secondary : R
  deriving Repr

namespace Score

/-- Two scores closer than this count as equal. -/
def resolution : R := Scalar.allowance 12

/-- The better of two scores is the smaller one. -/
def better (a b : Score R) : Bool :=
  if Scalar.gt (Scalar.abs (a.primary - b.primary)) resolution then
    Scalar.lt a.primary b.primary
  else Scalar.lt a.secondary (b.secondary - resolution)

end Score

/-- The gates that a swap is judged by. -/
structure Demand where
  /-- The operands of the gates that wait in front. -/
  front : List (Qubit × Qubit)
  following : List (Qubit × Qubit)
  deriving Repr

namespace Demand

def total (cost : Qubit → Qubit → R) (gates : List (Qubit × Qubit)) : R :=
  Scalar.sum (gates.map fun (a, b) => cost a b)

/-- The mean cost of the front plus the weighted mean of what follows. -/
def cost (d : Demand) (weight : R) (cost : Qubit → Qubit → R) : R :=
  let front := total cost d.front / Scalar.ofNat (max d.front.length 1)
  if d.following.isEmpty then front
  else front + weight * total cost d.following / Scalar.ofNat d.following.length

end Demand

namespace Device

def hopCost (device : Device R) (a b : Qubit) : R :=
  match device.distance? a b with
  | some n => Scalar.ofNat n
  | none => Scalar.unbounded

/-- The cost of the cheapest path between two qubits. -/
def pathCost (device : Device R) (a b : Qubit) : R :=
  (device.cost? a b).getD Scalar.unbounded

/-- The cost of a swap on a coupling, which takes three two-qubit gates. -/
def swapCost (device : Device R) (a b : Qubit) : R :=
  match device.fidelity? a b with
  | some f => -3 * Scalar.ln f
  | none => 0

end Device

/-- The score of a swap. `place` tells where each logical qubit sits after it, and `decay` is the
larger decay of its two qubits. -/
def Score.ofSwap (device : Device R) (plan : SearchPlan R) (demand : Demand) (place : Qubit → Qubit)
    (decay : R) (swap : Qubit × Qubit) : Score R :=
  let byDistance : R :=
    decay * demand.cost plan.extendedSetWeight fun a b => device.hopCost (place a) (place b)
  let byFidelity : R :=
    decay * demand.cost plan.extendedSetWeight (fun a b => device.pathCost (place a) (place b))
      + device.swapCost swap.1 swap.2
  match plan.heuristic with
  | .distance => ⟨byDistance, 0⟩
  | .fidelity => ⟨byFidelity, 0⟩
  | .mixture => ⟨byDistance, byFidelity⟩

end QuantumCompiler
