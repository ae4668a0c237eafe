import QuantumCompiler.CompileError
import QuantumCompiler.Dag.Order

/-!
# Binding parameters

Numbers for the named angles of a circuit. Names without a number stay, and whatever has become
constant is folded.
-/

namespace QuantumCompiler

variable {R : Type} [Scalar R]

/-- The gate with numbers for names; `none` when all its angles are numbers already. -/
def Gate.bindAll? (g : Gate R) (values : Assignment R) : Option (Gate R) :=
  match g.kind with
  | .standard gate =>
    if gate.isParameterized then
      some { g with kind := .standard (gate.mapAngles (·.bindAll values)) }
    else none
  | .custom c =>
    if c.params.any Angle.isSymbolic then
      some { g with kind := .custom { c with params := c.params.map (·.bindAll values) } }
    else none

/-- The instruction with numbers for names; `none` when there is nothing to bind. -/
def Instruction.bindAll? (i : Instruction R) (values : Assignment R) : Option (Instruction R) :=
  match i.operation with
  | .gate g => (g.bindAll? values).map fun g => { i with operation := .gate g }
  | _ => none

def Dag.bindAll (d : Dag R) (values : Assignment R) : Compile R (Dag R) :=
  d.instructions.foldlM (fun (d : Dag R) (id, i) =>
    match i.bindAll? values with
    | some j => Compile.ofCircuit (d.replace id j)
    | none => .ok d) d

end QuantumCompiler
