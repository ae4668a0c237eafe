import QuantumCompiler.CompileError
import QuantumCompiler.Dag.Order

/-!
# Lowering in place

What an operation is lowered to, and the replacement of chosen operations of a dependency graph by
what they are lowered to. All operations that are not chosen keep their places.
-/

namespace QuantumCompiler

/-- Instructions in time order and the phases they miss: the source is `e^{iφ}` times their product,
where `φ` is the sum of the phases. -/
structure Lowered (R : Type) where
  /-- The instructions, the first one acting first. -/
  instructions : List (Instruction R)
  /-- The phases, in the order in which they came up. -/
  phases : List R
  deriving Repr

namespace Lowered

variable {R : Type}

def ofList (is : List (Instruction R)) : Lowered R := ⟨is, []⟩

/-- One after the other. -/
def append (a b : Lowered R) : Lowered R :=
  ⟨a.instructions ++ b.instructions, a.phases ++ b.phases⟩

instance : Append (Lowered R) := ⟨append⟩

end Lowered

/-- Replaces every operation that is picked by what it is lowered to, in topological order, and
tells the phases that come up. The first operation that cannot be lowered ends it. -/
def Dag.lowerWhere {R : Type} (d : Dag R) (pick : Instruction R → Bool)
    (lower : Instruction R → Compile R (Lowered R)) : Compile R (Dag R × List R) := do
  let targets := (← Compile.ofCircuit d.topologicalOps).filter fun (_, i) => pick i
  targets.foldlM (fun (d, phases) (id, i) => do
    let lowered ← lower i
    let (_, d) ← Compile.ofCircuit (d.substitute id lowered.instructions)
    return (d, phases ++ lowered.phases)) (d, [])

end QuantumCompiler
