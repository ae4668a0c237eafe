import QuantumCompiler.Instruction
import QuantumCompiler.Device.Basis
import QuantumCompiler.Lowering.Basic

/-!
# Rules for two-qubit gates

Every two-qubit standard gate as controlled bit flips and one-qubit gates, with no phase left over.
The controlled bit flip itself comes from whichever entangling gate a basis has.
-/

namespace QuantumCompiler.Rules

variable {R : Type} [Scalar R]

def on (g : StandardGate R) (qubits : List Qubit) : Instruction R := .ofStandard g qubits

def turn (make : Angle R → StandardGate R) (angle : R) : StandardGate R := make (.const angle)

/-- A two-qubit gate other than `cx`, one rule deep; `none` when there is no rule. -/
def twoQubit? (g : StandardGate R) (a b : Qubit) : Option (List (Instruction R)) :=
  let cx : Instruction R := on .cx [a, b]
  let half (θ : Angle R) : Angle R := θ.scaled Scalar.half
  let minusHalf (θ : Angle R) : Angle R := θ.scaled (-Scalar.half)
  let quarter : R := Scalar.quarterTurn
  match g with
  | .cy => some [on .sdg [b], cx, on .s [b]]
  | .cz => some [on .h [b], cx, on .h [b]]
  | .ch => some [on .s [b], on .h [b], on .t [b], cx, on .tdg [b], on .h [b], on .sdg [b]]
  | .swap => some [cx, on .cx [b, a], cx]
  | .iswap => some [on .s [a], on .s [b], on .h [a], cx, on .cx [b, a], on .h [b]]
  | .crx θ =>
    some [on .s [b], cx, on (.ry (minusHalf θ)) [b], cx, on (.ry (half θ)) [b], on .sdg [b]]
  | .cry θ => some [on (.ry (half θ)) [b], cx, on (.ry (minusHalf θ)) [b], cx]
  | .crz θ => some [on (.rz (half θ)) [b], cx, on (.rz (minusHalf θ)) [b], cx]
  | .cp θ => some [on (.p (half θ)) [a], cx, on (.p (minusHalf θ)) [b], cx, on (.p (half θ)) [b]]
  | .rzz θ => some [cx, on (.rz θ) [b], cx]
  | .rxx θ => some [on .h [a], on .h [b], on (.rzz θ) [a, b], on .h [a], on .h [b]]
  | .ryy θ =>
    some [on (turn .rx quarter) [a], on (turn .rx quarter) [b], on (.rzz θ) [a, b],
      on (turn .rx (-quarter)) [a], on (turn .rx (-quarter)) [b]]
  | _ => none

/-- A controlled bit flip by the entangling gate of a basis; `none` when the basis has none. -/
def cx? (basis : Basis) (control target : Qubit) : Option (Lowered R) :=
  let quarter : R := Scalar.quarterTurn
  let around (entangler : StandardGate R) : List (Instruction R) :=
    [on .h [target], on entangler [control, target], on .h [target]]
  if basis.contains "cz" then some (.ofList (around .cz))
  else if basis.contains "cp" then some (.ofList (around (turn .cp Scalar.pi)))
  else if basis.contains "iswap" then
    some
      { instructions :=
          [on (turn .rz (-quarter)) [control], on (turn .rx quarter) [target],
            on (turn .rz quarter) [target], on .iswap [control, target],
            on (turn .rx quarter) [control], on .iswap [control, target],
            on (turn .rz quarter) [target]]
        phases := [Scalar.pi / 4] }
  else none

end QuantumCompiler.Rules
