import QuantumCompiler.Circuit.Basic
import QuantumCompiler.Json.Decode
import QuantumCompiler.Json.Reader
import QuantumCompiler.Json.Writer

/-!
# Circuits as JSON

The JSON form of a circuit and its reader. Records are objects with their fields in a fixed order;
an alternative without contents is its tag, any other an object from the tag to the contents. The
reader opens at most 127 arrays and objects inside each other, which only a deeply nested angle can
exceed.
-/

namespace QuantumCompiler

open Json

namespace Angle

def toJson : Angle Float → Json
  | const v => .object [("Constant", .double v)]
  | symbol name => .object [("Symbol", .string name)]
  | pi => .string "Pi"
  | neg a => .object [("Neg", a.toJson)]
  | add a b => .object [("Add", .array [a.toJson, b.toJson])]
  | sub a b => .object [("Sub", .array [a.toJson, b.toJson])]
  | mul a b => .object [("Mul", .array [a.toJson, b.toJson])]
  | div a b => .object [("Div", .array [a.toJson, b.toJson])]

/-- The operation of a tag with two operands. -/
def binary? : String → Option (Angle Float → Angle Float → Angle Float)
  | "Add" => some add
  | "Sub" => some sub
  | "Mul" => some mul
  | "Div" => some div
  | _ => none

/-- The angle of a JSON value that opens at most `room` arrays and objects inside each other. -/
def ofJson? : Nat → Json → Option (Angle Float)
  | _, .string tag => if tag = "Pi" then some pi else none
  | room + 1, .object [(tag, body)] =>
    match tag with
    | "Constant" => body.double?.map const
    | "Symbol" => body.text?.map symbol
    | "Pi" => if isUnit (some body) then some pi else none
    | "Neg" => (ofJson? room body).map neg
    | tag =>
      match room, body with
      | room + 1, .array [a, b] => do
        return (← binary? tag) (← ofJson? room a) (← ofJson? room b)
      | _, _ => none
  | _, _ => none

end Angle

namespace StandardGate

def tag {R : Type} : StandardGate R → String
  | id => "I"
  | x => "X"
  | y => "Y"
  | z => "Z"
  | h => "H"
  | s => "S"
  | sdg => "Sdg"
  | t => "T"
  | tdg => "Tdg"
  | sx => "SX"
  | sxdg => "SXdg"
  | rx _ => "Rx"
  | ry _ => "Ry"
  | rz _ => "Rz"
  | p _ => "P"
  | u .. => "U"
  | cx => "CX"
  | cy => "CY"
  | cz => "CZ"
  | ch => "CH"
  | swap => "Swap"
  | iswap => "ISwap"
  | crx _ => "CRx"
  | cry _ => "CRy"
  | crz _ => "CRz"
  | cp _ => "CP"
  | rxx _ => "RXX"
  | ryy _ => "RYY"
  | rzz _ => "RZZ"
  | ccx => "CCX"
  | cswap => "CSwap"
  | mcx _ => "Mcx"
  | mcry .. => "Mcry"
  | mcu .. => "Mcu"

def toJson (g : StandardGate Float) : Json :=
  match g with
  | rx θ | ry θ | rz θ | p θ | crx θ | cry θ | crz θ | cp θ | rxx θ | ryy θ | rzz θ =>
    .object [(g.tag, θ.toJson)]
  | u θ φ ψ => .object [(g.tag, .array [θ.toJson, φ.toJson, ψ.toJson])]
  | mcx n => .object [(g.tag, .nat n)]
  | mcry n θ => .object [(g.tag, .array [.nat n, θ.toJson])]
  | mcu n θ φ ψ => .object [(g.tag, .array [.nat n, θ.toJson, φ.toJson, ψ.toJson])]
  | _ => .string g.tag

/-- The gate of a tag that carries nothing. -/
def ofUnitTag? : String → Option (StandardGate Float)
  | "I" => some id
  | "X" => some x
  | "Y" => some y
  | "Z" => some z
  | "H" => some h
  | "S" => some s
  | "Sdg" => some sdg
  | "T" => some t
  | "Tdg" => some tdg
  | "SX" => some sx
  | "SXdg" => some sxdg
  | "CX" => some cx
  | "CY" => some cy
  | "CZ" => some cz
  | "CH" => some ch
  | "Swap" => some swap
  | "ISwap" => some iswap
  | "CCX" => some ccx
  | "CSwap" => some cswap
  | _ => none

/-- The gate of a tag that carries one angle. -/
def ofAngleTag? : String → Option (Angle Float → StandardGate Float)
  | "Rx" => some rx
  | "Ry" => some ry
  | "Rz" => some rz
  | "P" => some p
  | "CRx" => some crx
  | "CRy" => some cry
  | "CRz" => some crz
  | "CP" => some cp
  | "RXX" => some rxx
  | "RYY" => some ryy
  | "RZZ" => some rzz
  | _ => none

/-- How many arrays and objects an angle may open that is all a gate carries. -/
def angleRoom : Nat := 120

/-- The standard gate of a JSON value inside a circuit. -/
def ofJson? (j : Json) : Option (StandardGate Float) :=
  match variant? j with
  | none => none
  | some (tag, body) =>
    match ofUnitTag? tag with
    | some g => if isUnit body then some g else none
    | none =>
      match ofAngleTag? tag, body with
      | some make, some body => (Angle.ofJson? angleRoom body).map make
      | _, _ =>
        let angle := Angle.ofJson? (angleRoom - 1)
        match tag, body with
        | "U", some (.array [a, b, c]) => do return u (← angle a) (← angle b) (← angle c)
        | "Mcx", some n => n.word32?.map mcx
        | "Mcry", some (.array [n, a]) => do return mcry (← n.word32?) (← angle a)
        | "Mcu", some (.array [n, a, b, c]) => do
          return mcu (← n.word32?) (← angle a) (← angle b) (← angle c)
        | _, _ => none

end StandardGate

/-- The JSON form of a complex number, a pair. -/
def Cx.toJson (z : Cx Float) : Json := .array [.double z.re, .double z.im]

def Cx.ofJson? : Json → Option (Cx Float)
  | .array [re, im] => do return ⟨← re.double?, ← im.double?⟩
  | _ => none

/-- A field that is left out when there is nothing to say. -/
def optionalField (name : String) : Option Json → List (String × Json)
  | some j => [(name, j)]
  | none => []

def CustomGate.toJson (g : CustomGate Float) : Json :=
  .object ([("name", .string g.name), ("num_qubits", .nat g.numQubits),
    ("params", .array (g.params.map Angle.toJson))] ++
    optionalField "matrix" (g.matrix.map fun m => .array (m.map Cx.toJson)))

/-- The custom gate of a JSON value inside a circuit. -/
def CustomGate.ofJson? (j : Json) : Option (CustomGate Float) := do
  match ← record? ["name", "num_qubits", "params", "matrix"] 4 j with
  | [some name, some width, some params, matrix] =>
    return {
      name := ← name.text?
      numQubits := ← width.word32?
      params := ← params.list? (Angle.ofJson? (StandardGate.angleRoom - 1))
      matrix := ← optional? (list? Cx.ofJson?) matrix }
  | _ => none

def GateKind.toJson : GateKind Float → Json
  | .standard gate => .object [("Standard", gate.toJson)]
  | .custom gate => .object [("Custom", gate.toJson)]

def Gate.toJson (g : Gate Float) : Json :=
  .object (("kind", g.kind.toJson) :: optionalField "label" (g.label.map .string))

/-- What a gate of a JSON value inside a circuit applies. -/
def GateKind.ofJson? (j : Json) : Option (GateKind Float) :=
  match variant? j with
  | some ("Standard", some body) => (StandardGate.ofJson? body).map .standard
  | some ("Custom", some body) => (CustomGate.ofJson? body).map .custom
  | _ => none

/-- The gate of a JSON value inside a circuit. -/
def Gate.ofJson? (j : Json) : Option (Gate Float) := do
  match ← record? ["kind", "label"] 2 j with
  | [some kind, label] =>
    return { kind := ← GateKind.ofJson? kind, label := ← optional? text? label }
  | _ => none

def Operation.toJson : Operation Float → Json
  | .gate g => .object [("Gate", g.toJson)]
  | .measure => .string "Measure"
  | .reset => .string "Reset"
  | .barrier => .string "Barrier"
  | .delay duration => .object [("Delay", .object [("duration", .nat duration)])]

/-- The operation of a JSON value inside a circuit. -/
def Operation.ofJson? (j : Json) : Option (Operation Float) :=
  match variant? j with
  | some ("Gate", some body) => (Gate.ofJson? body).map .gate
  | some ("Measure", body) => if isUnit body then some .measure else none
  | some ("Reset", body) => if isUnit body then some .reset else none
  | some ("Barrier", body) => if isUnit body then some .barrier else none
  | some ("Delay", some body) => do
    match ← record? ["duration"] 1 body with
    | [some duration] => return .delay (← duration.word64?)
    | _ => none
  | _ => none

def Instruction.toJson (i : Instruction Float) : Json :=
  .object [("kind", i.operation.toJson), ("qubits", .array (i.qubits.map .nat)),
    ("clbits", .array (i.clbits.map .nat))]

/-- The instruction of a JSON value inside a circuit. -/
def Instruction.ofJson? (j : Json) : Option (Instruction Float) := do
  match ← record? ["kind", "qubits", "clbits"] 3 j with
  | [some kind, some qubits, some clbits] =>
    return {
      operation := ← Operation.ofJson? kind
      qubits := ← qubits.list? word32?
      clbits := ← clbits.list? word32? }
  | _ => none

namespace Circuit

def toJson (c : Circuit Float) : Json :=
  .object [("name", .string c.name), ("num_qubits", .nat c.numQubits),
    ("num_clbits", .nat c.numClbits),
    ("instructions", .array (c.instructions.map Instruction.toJson)),
    ("global_phase", .double c.phase)]

/-- The circuit of a JSON value; only the phase may be missing. -/
def ofJson? (j : Json) : Option (Circuit Float) := do
  let names := ["name", "num_qubits", "num_clbits", "instructions", "global_phase"]
  match ← record? names 4 j with
  | [some name, some qubits, some clbits, some instructions, phase] =>
    return {
      name := ← name.text?
      numQubits := ← qubits.word32?
      numClbits := ← clbits.word32?
      instructions := ← instructions.list? Instruction.ofJson?
      phase := ← match phase with
        | some phase => phase.double?
        | none => some 0 }
  | _ => none

def write (c : Circuit Float) : String := c.toJson.write

/-- Reads the JSON text of a circuit. Nothing is checked beyond its form. -/
def read (text : String) : Except CircuitError (Circuit Float) :=
  match (Json.read? text).bind ofJson? with
  | some c => .ok c
  | none => .error .malformedText

end Circuit

end QuantumCompiler
