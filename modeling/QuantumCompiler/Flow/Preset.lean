import QuantumCompiler.Flow.Pass

/-!
# Flows

Passes in order. The presets grow with the level: level 0 only lowers gates, the levels above also
place, route and optimize, with other scores for swaps on level 2 and a loop around the optimization
on level 3.
-/

namespace QuantumCompiler

variable {R : Type} [Scalar R]

/-- Passes in the order in which they run. -/
abbrev Flow (R : Type) := List (Pass R)

namespace Flow

/-- How often the optimization of the highest level may repeat. -/
def maxRounds : Nat := 8

/-- The flow of a preset level, which is the highest one for any number above it. -/
def preset (o : CompileOptions R) : Flow R :=
  let level := min o.level 3
  let binding : Flow R := if o.parameters.isEmpty then [] else [.bindParameters o.parameters]
  let optimization : Flow R := [.combine, .resynthesize o.family]
  binding ++ [.splitWide] ++
    if level = 0 then [.lower o.family]
    else
      [.searchLayout o.search (.ofLevel level), .lower o.family] ++
        (if level ≤ 2 then optimization else [.fixedPoint optimization maxRounds]) ++
        [.checkCouplings]

/-- Runs a flow. Once it is cancelled no pass starts, and the error names the one that would
have. -/
def run (flow : Flow R) (cancelled : Bool) (c : Compilation R) : Compile R (Compilation R) :=
  match cancelled, flow with
  | true, p :: _ => .error (.cancelled p.name)
  | _, _ => Pass.runAll flow c

end Flow

end QuantumCompiler
