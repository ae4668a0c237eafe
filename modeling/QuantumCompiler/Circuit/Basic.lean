import QuantumCompiler.Dag.Order

/-!
# Circuits

A circuit is a named sequence of instructions over fixed registers. Building it with the methods of
`Circuit/Builder` validates every instruction; a sequence given as a whole is validated when its
dependency graph is made.
-/

namespace QuantumCompiler

/-- A sequence of instructions over fixed registers. -/
structure Circuit (R : Type) where
  name : String
  numQubits : Nat
  numClbits : Nat
  /-- The instructions in program order. -/
  instructions : List (Instruction R)
  /-- Global phase, in radians. -/
  phase : R
  deriving Repr, BEq, Inhabited

namespace Circuit

variable {R : Type} [Scalar R]

/-- A circuit from a sequence of instructions, which are not looked at. -/
def ofInstructions (name : String) (numQubits numClbits : Nat) (is : List (Instruction R)) :
    Circuit R :=
  ⟨name, numQubits, numClbits, is, 0⟩

/-- The circuit without instructions. -/
def empty (name : String) (numQubits numClbits : Nat) : Circuit R :=
  ofInstructions name numQubits numClbits []

/-- A change of a circuit. Whatever was done before a failure stays done. -/
abbrev Edit (R : Type) (α : Type) := ExceptT CircuitError (StateM (Circuit R)) α

/-- What a change answers, and the circuit it leaves behind. -/
def edit {α : Type} (c : Circuit R) (e : Edit R α) : Except CircuitError α × Circuit R :=
  (ExceptT.run e).run c

/-- The circuit after a change that is done. -/
def edited (c : Circuit R) (e : Edit R Unit) : Except CircuitError (Circuit R) :=
  match c.edit e with
  | (.ok (), c) => .ok c
  | (.error x, _) => .error x

/-- Appends an instruction that fits the registers. -/
def Edit.push (i : Instruction R) : Edit R Unit := do
  let c ← get
  liftExcept (i.validate c.numQubits c.numClbits)
  set { c with instructions := c.instructions ++ [i] }

def push (c : Circuit R) (i : Instruction R) : Except CircuitError (Circuit R) := c.edited (.push i)

/-- The dependency graph; it has the phase of the circuit, reduced to one turn. -/
def toDag (c : Circuit R) : Except CircuitError (Dag R) :=
  return (← Dag.ofInstructions c.numQubits c.numClbits c.instructions).setPhase c.phase

/-- The circuit that a dependency graph stands for. -/
def ofDag (name : String) (d : Dag R) : Except CircuitError (Circuit R) :=
  return ⟨name, d.numQubits, d.numClbits, ← d.linearize, d.phase⟩

def depth (c : Circuit R) : Except CircuitError Nat := return (← c.toDag).depth

end Circuit

end QuantumCompiler
