import QuantumCompiler.Binding
import QuantumCompiler.Lowering.Native
import QuantumCompiler.Optimization.Peephole
import QuantumCompiler.Optimization.Runs
import QuantumCompiler.Routing.Census
import QuantumCompiler.Routing.Search

/-!
# Passes

One step of a compilation each. Passes work on a compilation in progress: the circuit, and what
passes before found out about it. Qubits are logical until a routing pass ran and physical from then
on.
-/

namespace QuantumCompiler

variable {R : Type} [Scalar R]

/-- A compilation in progress. -/
structure Compilation (R : Type) where
  dag : Dag R
  device : Option (Device R)
  /-- Where the qubits sit before the first operation. -/
  initial : Option Layout
  /-- Where the qubits sit after the last operation. -/
  final : Option Layout
  routing : Option RoutingStats
  census : Option Census

namespace Compilation

/-- A compilation of which nothing is known yet. -/
def ofDag (dag : Dag R) (device : Option (Device R)) (initial : Option Layout) : Compilation R :=
  ⟨dag, device, initial, none, none, none⟩

/-- The target. Fails when there is none. -/
def target (c : Compilation R) : Compile R (Device R) :=
  match c.device with
  | some device => .ok device
  | none => .error .missingBackend

def install (c : Compilation R) (r : Routed R) : Compilation R :=
  { c with
    dag := r.dag
    initial := some r.initial
    final := some r.final
    routing := some r.stats }

/-- A change to a compilation. One that fails leaves it as far as it got. -/
abbrev Edit (R : Type) (α : Type) := ExceptT (CompileError R) (StateM (Compilation R)) α

/-- Searches for a layout and routes the circuit from it. -/
def Edit.searchLayout (options : SearchOptions R) (fallback : Heuristic) : Edit R Unit := do
  let c ← get
  let device ← liftExcept c.target
  let routed ← liftExcept (Routing.search device options fallback c.dag c.initial)
  set (c.install routed)

/-- What a change answers, and the compilation it leaves behind. -/
def edit {α : Type} (c : Compilation R) (e : Edit R α) : Compile R α × Compilation R :=
  (ExceptT.run e).run c

/-- The compilation after a change that is done. -/
def edited (c : Compilation R) (e : Edit R Unit) : Compile R (Compilation R) :=
  match c.edit e with
  | (.ok (), c) => .ok c
  | (.error x, _) => .error x

end Compilation

/-- A pass with its settings. -/
inductive Pass (R : Type) where
  | bindParameters (values : Assignment R)
  /-- Operations on three or more qubits are split. -/
  | splitWide
  /-- Everything is lowered into the basis of the device. -/
  | lower (family : Option EulerFamily)
  | combine
  | resynthesize (family : Option EulerFamily)
  /-- The trivial layout, unless there is one. -/
  | trivialLayout
  | route (options : SearchOptions R) (fallback : Heuristic)
  | searchLayout (options : SearchOptions R) (fallback : Heuristic)
  | checkCouplings
  /-- Passes that repeat as long as the circuit gets smaller. -/
  | fixedPoint (passes : List (Pass R)) (rounds : Nat)

/-- Whether a pass changes the circuit. -/
inductive PassKind where
  /-- It only finds something out. -/
  | analysis
  | transformation
  deriving DecidableEq, Repr

namespace Pass

def name : Pass R → String
  | bindParameters _ => "ParameterBinding"
  | splitWide => "UnrollTo2Qubit"
  | lower _ => "UnrollToBasis"
  | combine => "GateCombine"
  | resynthesize _ => "OneQubitOptimization"
  | trivialLayout => "TrivialLayout"
  | route .. => "SabreRouting"
  | searchLayout .. => "SabreLayout"
  | checkCouplings => "CouplingVerification"
  | fixedPoint .. => "FixedPoint"

def kind : Pass R → PassKind
  | trivialLayout | checkCouplings => .analysis
  | _ => .transformation

def shouldRun (p : Pass R) (c : Compilation R) : Bool :=
  match p with
  | bindParameters values => !values.isEmpty
  | combine | resynthesize _ => c.dag.numOps > 0
  | trivialLayout => c.initial.isNone
  | _ => true

/-- Repeats a step until the circuit does not get smaller, at most the given number of times. -/
def untilStable (body : Compilation R → Compile R (Compilation R)) :
    Nat → Compilation R → Compile R (Compilation R)
  | 0, c => .ok c
  | rounds + 1, c => do
    let next ← body c
    if next.dag.numOps < c.dag.numOps then untilStable body rounds next else return next

mutual

def run : Pass R → Compilation R → Compile R (Compilation R)
  | bindParameters values, c => return { c with dag := ← c.dag.bindAll values }
  | splitWide, c => return { c with dag := ← Wide.splitAll c.dag }
  | lower family, c => do
    let device ← c.target
    return { c with dag := ← Basis.lowerAll device family c.dag }
  | combine, c => return { c with dag := ← Peephole.all c.dag }
  | resynthesize family, c => return { c with dag := ← Runs.all c.device family c.dag }
  | trivialLayout, c => do
    let device ← c.target
    return { c with initial := some (← Layout.initial .trivial c.dag.numQubits device.numQubits 0) }
  | route options fallback, c => do
    let device ← c.target
    match c.initial with
    | none => throw .missingLayout
    | some layout => return c.install (← Routing.fromLayout device options fallback c.dag layout)
  | searchLayout options fallback, c => c.edited (.searchLayout options fallback)
  | checkCouplings, c => do
    let device ← c.target
    return { c with census := some (← Census.ofDag device c.dag) }
  | fixedPoint passes rounds, c => untilStable (runAll passes) (max rounds 1) c

/-- Runs passes in order, those that have something to do. -/
def runAll : List (Pass R) → Compilation R → Compile R (Compilation R)
  | [], c => .ok c
  | p :: ps, c => do
    let c ← if p.shouldRun c then p.run c else pure c
    runAll ps c

end

end Pass

end QuantumCompiler
