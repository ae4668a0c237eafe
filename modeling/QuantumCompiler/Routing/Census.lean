import QuantumCompiler.Dag.Order
import QuantumCompiler.Device.Basic

/-!
# Census of a routed circuit

The check that a circuit over physical qubits respects the couplings of a device, with the number of
its gates.
-/

namespace QuantumCompiler

/-- Number of gates by their width. -/
structure Census where
  oneQubit : Nat
  twoQubit : Nat
  deriving DecidableEq, Repr

namespace Census

variable {R : Type} [Scalar R]

/-- Counts one instruction. Fails for a gate on qubits that are not coupled, and for one that is not
on one or two qubits. -/
def count (device : Device R) (c : Census) (i : Instruction R) : Compile R Census :=
  if i.isGate then
    match i.qubits with
    | [_] => .ok { c with oneQubit := c.oneQubit + 1 }
    | [a, b] =>
      if device.isAdjacent a b then .ok { c with twoQubit := c.twoQubit + 1 }
      else .error (.unreachableLayout (.uncoupled i.name a b))
    | qubits => .error (.internal (.wideGate i.name qubits.length))
  else .ok c

/-- Counts the gates of a dependency graph over physical qubits, in the order of its table. -/
def ofDag (device : Device R) (d : Dag R) : Compile R Census :=
  d.instructions.foldlM (fun c (_, i) => count device c i) ⟨0, 0⟩

end Census

end QuantumCompiler
