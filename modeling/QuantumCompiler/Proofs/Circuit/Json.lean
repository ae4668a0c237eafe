import QuantumCompiler.Circuit.Json
import QuantumCompiler.Proofs.Binding
import QuantumCompiler.Proofs.Json.Decode

/-!
# Circuits are read back from their JSON form

Each reader undoes its writer: a record with its optional fields left out or not, an alternative with its
contents or as a bare tag, and an angle as deep as the reader opens arrays and objects. A double that its
own written form does not give back is the only thing that a circuit can lose, and a circuit that is nested
too deep the only one that is refused.
-/
namespace QuantumCompiler

open Json

/-! ## Angles -/

namespace Angle

/-- The numbers in an expression. -/
def numbers {R : Type} : Angle R → List R
  | const v => [v]
  | symbol _ | pi => []
  | neg a => a.numbers
  | add a b | sub a b | mul a b | div a b => a.numbers ++ b.numbers

theorem depth_operands {tag : String} {a b : Angle Float} {room : Nat}
    (h : (Json.object [(tag, .array [a.toJson, b.toJson])]).depth ≤ room) :
    ∃ r, room = r + 2 ∧ a.toJson.depth ≤ r ∧ b.toJson.depth ≤ r := by
  have harray := depth_lt_of_mem_fields (List.mem_singleton_self (tag, Json.array [a.toJson, b.toJson]))
  have ha : a.toJson.depth < (Json.array [a.toJson, b.toJson]).depth := depth_lt_of_mem_items (.head _)
  have hb : b.toJson.depth < (Json.array [a.toJson, b.toJson]).depth :=
    depth_lt_of_mem_items (.tail _ (.head _))
  exact ⟨room - 2, by omega, by omega, by omega⟩

theorem depth_operand {tag : String} {v : Json} {room : Nat} (h : (Json.object [(tag, v)]).depth ≤ room) :
    ∃ r, room = r + 1 ∧ v.depth ≤ r := by
  have hv := depth_lt_of_mem_fields (List.mem_singleton_self (tag, v))
  exact ⟨room - 1, by omega, by omega⟩

/-- An expression is read back where there is room for all that it opens. -/
theorem ofJson?_toJson {a : Angle Float} (hx : ∀ x ∈ a.numbers, Recovered x) {room : Nat}
    (hd : a.toJson.depth ≤ room) : ofJson? room a.toJson = some a := by
  induction a generalizing room with
  | const v =>
    obtain ⟨r, rfl, -⟩ := depth_operand hd
    simp [toJson, ofJson?, recovered_iff.mp (hx v (.head _))]
  | symbol name =>
    obtain ⟨r, rfl, -⟩ := depth_operand hd
    rfl
  | pi => cases room <;> rfl
  | neg a ih =>
    obtain ⟨r, rfl, ha⟩ := depth_operand hd
    simp [toJson, ofJson?, ih hx ha]
  | add a b iha ihb | sub a b iha ihb | mul a b iha ihb | div a b iha ihb =>
    obtain ⟨r, rfl, ha, hb⟩ := depth_operands hd
    obtain ⟨hxa, hxb⟩ := List.forall_mem_append.mp hx
    simp [toJson, ofJson?, binary?, iha hxa ha, ihb hxb hb]

end Angle

/-! ## Gates -/

namespace StandardGate

/-- The number of controls, where the gate carries one. -/
def words {R : Type} : StandardGate R → List Nat
  | mcx n | mcry n _ | mcu n .. => [n]
  | _ => []

theorem ofJson?_unit {g : StandardGate Float} (h : ofUnitTag? g.tag = some g) :
    ofJson? (.string g.tag) = some g := by
  simp [ofJson?, variant?, h, isUnit]

theorem ofJson?_angle {tag : String} {make : Angle Float → StandardGate Float} {θ : Angle Float}
    (hunit : ofUnitTag? tag = none) (hmake : ofAngleTag? tag = some make)
    (hx : ∀ x ∈ θ.numbers, Recovered x) (hd : (Json.object [(tag, θ.toJson)]).depth ≤ angleRoom + 1) :
    ofJson? (.object [(tag, θ.toJson)]) = some (make θ) := by
  have hθ : Angle.ofJson? angleRoom θ.toJson = some θ := by
    obtain ⟨r, hr, hθ⟩ := Angle.depth_operand hd
    exact Angle.ofJson?_toJson hx (by omega)
  simp [ofJson?, variant?, hunit, hmake, hθ]

/-- An angle among several is read with room for one array less. -/
theorem ofJson?_of_mem {tag : String} {items : List Json} {θ : Angle Float} (hmem : θ.toJson ∈ items)
    (hx : ∀ x ∈ θ.numbers, Recovered x) (hd : (Json.object [(tag, .array items)]).depth ≤ angleRoom + 1) :
    Angle.ofJson? (angleRoom - 1) θ.toJson = some θ := by
  have hθ := depth_lt_of_mem_items hmem
  obtain ⟨r, hr, hitems⟩ := Angle.depth_operand hd
  exact Angle.ofJson?_toJson hx (by omega)

theorem ofJson?_toJson {g : StandardGate Float} (hx : ∀ a ∈ g.angles, ∀ x ∈ a.numbers, Recovered x)
    (hw : ∀ n ∈ g.words, n ≤ maxIndex) (hd : g.toJson.depth ≤ angleRoom + 1) :
    ofJson? g.toJson = some g := by
  cases g
  case rx θ | ry θ | rz θ | p θ | crx θ | cry θ | crz θ | cp θ | rxx θ | ryy θ | rzz θ =>
    exact ofJson?_angle rfl rfl (hx θ (.head _)) hd
  case u θ φ ψ =>
    have hθ := ofJson?_of_mem (.head _) (hx θ (.head _)) hd
    have hφ := ofJson?_of_mem (.tail _ (.head _)) (hx φ (.tail _ (.head _))) hd
    have hψ := ofJson?_of_mem (.tail _ (.tail _ (.head _))) (hx ψ (.tail _ (.tail _ (.head _)))) hd
    simp [toJson, tag, ofJson?, variant?, ofUnitTag?, ofAngleTag?, hθ, hφ, hψ]
  case mcx n =>
    have hn : (Json.nat n).word32? = some n := natUpTo?_nat (hw n (.head _))
    simp [toJson, tag, ofJson?, variant?, ofUnitTag?, ofAngleTag?, hn]
  case mcry n θ =>
    have hn : (Json.nat n).word32? = some n := natUpTo?_nat (hw n (.head _))
    have hθ := ofJson?_of_mem (.tail _ (.head _)) (hx θ (.head _)) hd
    simp [toJson, tag, ofJson?, variant?, ofUnitTag?, ofAngleTag?, hn, hθ]
  case mcu n θ φ ψ =>
    have hn : (Json.nat n).word32? = some n := natUpTo?_nat (hw n (.head _))
    have hθ := ofJson?_of_mem (.tail _ (.head _)) (hx θ (.head _)) hd
    have hφ := ofJson?_of_mem (.tail _ (.tail _ (.head _))) (hx φ (.tail _ (.head _))) hd
    have hψ := ofJson?_of_mem (.tail _ (.tail _ (.tail _ (.head _)))) (hx ψ (.tail _ (.tail _ (.head _)))) hd
    simp [toJson, tag, ofJson?, variant?, ofUnitTag?, ofAngleTag?, hn, hθ, hφ, hψ]
  all_goals exact ofJson?_unit rfl

end StandardGate

namespace CustomGate

/-- The numbers in the parameters and in the matrix. -/
def numbers {R : Type} (g : CustomGate R) : List R :=
  g.params.flatMap Angle.numbers ++ (g.matrix.getD []).flatMap fun z => [z.re, z.im]

theorem ofJson?_complex {z : Cx Float} (hre : Recovered z.re) (him : Recovered z.im) :
    Cx.ofJson? z.toJson = some z := by
  simp [Cx.toJson, Cx.ofJson?, recovered_iff.mp hre, recovered_iff.mp him]

theorem ofJson?_toJson {g : CustomGate Float} (hx : ∀ x ∈ g.numbers, Recovered x)
    (hw : g.numQubits ≤ maxIndex) (hd : g.toJson.depth ≤ StandardGate.angleRoom + 1) :
    ofJson? g.toJson = some g := by
  obtain ⟨name, width, params, matrix⟩ := g
  obtain ⟨hxparams, hxmatrix⟩ := List.forall_mem_append.mp hx
  have hwidth : (Json.nat width).word32? = some width := natUpTo?_nat hw
  have hparams : list? (Angle.ofJson? (StandardGate.angleRoom - 1)) (.array (params.map Angle.toJson)) =
      some params := by
    refine list?_map fun a ha => Angle.ofJson?_toJson ?_ ?_
    · exact fun x hx => hxparams x (List.mem_flatMap.mpr ⟨a, ha, hx⟩)
    · have harray : (Json.array (params.map Angle.toJson)).depth < (toJson ⟨name, width, params, matrix⟩).depth :=
        depth_lt_of_mem_fields (.tail _ (.tail _ (.head _)))
      have hangle : a.toJson.depth < (Json.array (params.map Angle.toJson)).depth :=
        depth_lt_of_mem_items (List.mem_map_of_mem ha)
      omega
  cases matrix with
  | none =>
    have hrecord : record? ["name", "num_qubits", "params", "matrix"] 4 (toJson ⟨name, width, params, none⟩) =
        some [some (.string name), some (.nat width), some (.array (params.map Angle.toJson)), none] := rfl
    simp [ofJson?, hrecord, hwidth, hparams, text?, optional?]
  | some m =>
    have hrecord : record? ["name", "num_qubits", "params", "matrix"] 4 (toJson ⟨name, width, params, some m⟩) =
        some [some (.string name), some (.nat width), some (.array (params.map Angle.toJson)),
          some (.array (m.map Cx.toJson))] := rfl
    have hmatrix : list? Cx.ofJson? (.array (m.map Cx.toJson)) = some m := by
      refine list?_map fun z hz => ofJson?_complex ?_ ?_
      · exact hxmatrix _ (List.mem_flatMap.mpr ⟨z, hz, .head _⟩)
      · exact hxmatrix _ (List.mem_flatMap.mpr ⟨z, hz, .tail _ (.head _)⟩)
    simp [ofJson?, hrecord, hwidth, hparams, text?, optional?, nullable?, hmatrix]

end CustomGate

namespace GateKind

def numbers {R : Type} : GateKind R → List R
  | standard g => g.angles.flatMap Angle.numbers
  | custom g => g.numbers

/-- The number of controls or of operands, where the gate carries one. -/
def words {R : Type} : GateKind R → List Nat
  | standard g => g.words
  | custom g => [g.numQubits]

theorem ofJson?_toJson {k : GateKind Float} (hx : ∀ x ∈ k.numbers, Recovered x)
    (hw : ∀ n ∈ k.words, n ≤ maxIndex) (hd : k.toJson.depth ≤ StandardGate.angleRoom + 2) :
    ofJson? k.toJson = some k := by
  cases k with
  | standard g =>
    obtain ⟨room, hroom, hg⟩ := Angle.depth_operand hd
    have hread := StandardGate.ofJson?_toJson (fun a ha x hxa => hx x (List.mem_flatMap.mpr ⟨a, ha, hxa⟩)) hw
      (by omega : g.toJson.depth ≤ _)
    simp [toJson, ofJson?, variant?, hread]
  | custom g =>
    obtain ⟨room, hroom, hg⟩ := Angle.depth_operand hd
    have hread := CustomGate.ofJson?_toJson hx (hw _ (.head _)) (by omega)
    simp [toJson, ofJson?, variant?, hread]

end GateKind

theorem Gate.ofJson?_toJson {g : Gate Float} (hx : ∀ x ∈ g.kind.numbers, Recovered x)
    (hw : ∀ n ∈ g.kind.words, n ≤ maxIndex) (hd : g.toJson.depth ≤ StandardGate.angleRoom + 3) :
    ofJson? g.toJson = some g := by
  obtain ⟨kind, label⟩ := g
  have hdepth : kind.toJson.depth < (toJson ⟨kind, label⟩).depth := depth_lt_of_mem_fields (.head _)
  have hkind : GateKind.ofJson? kind.toJson = some kind :=
    GateKind.ofJson?_toJson hx hw (Nat.lt_succ_iff.mp (hdepth.trans_le hd))
  cases label with
  | none =>
    have hrecord : record? ["kind", "label"] 2 (toJson ⟨kind, none⟩) = some [some kind.toJson, none] := rfl
    simp [ofJson?, hrecord, hkind, optional?]
  | some text =>
    have hrecord : record? ["kind", "label"] 2 (toJson ⟨kind, some text⟩) =
        some [some kind.toJson, some (.string text)] := rfl
    simp [ofJson?, hrecord, hkind, optional?, nullable?, text?]

/-! ## Instructions -/

namespace Operation

def numbers {R : Type} : Operation R → List R
  | gate g => g.kind.numbers
  | _ => []

/-- What is written in 32 bits. -/
def words {R : Type} : Operation R → List Nat
  | gate g => g.kind.words
  | _ => []

/-- The length of a delay, which is written in 64 bits. -/
def durations {R : Type} : Operation R → List Nat
  | delay duration => [duration]
  | _ => []

theorem ofJson?_toJson {o : Operation Float} (hx : ∀ x ∈ o.numbers, Recovered x)
    (hw : ∀ n ∈ o.words, n ≤ maxIndex) (ht : ∀ t ∈ o.durations, t ≤ 0xFFFFFFFFFFFFFFFF)
    (hd : o.toJson.depth ≤ StandardGate.angleRoom + 4) : ofJson? o.toJson = some o := by
  cases o with
  | gate g =>
    obtain ⟨room, hroom, hg⟩ := Angle.depth_operand hd
    have hread := Gate.ofJson?_toJson hx hw (by omega)
    simp [toJson, ofJson?, variant?, hread]
  | measure | reset | barrier => rfl
  | delay duration =>
    have hduration : (Json.nat duration).word64? = some duration := natUpTo?_nat (ht _ (.head _))
    have hrecord : record? ["duration"] 1 (.object [("duration", .nat duration)]) =
        some [some (.nat duration)] := rfl
    simp [toJson, ofJson?, variant?, hrecord, hduration]

end Operation

namespace Instruction

/-- What is written in 32 bits, the operands among it. -/
def words {R : Type} (i : Instruction R) : List Nat := i.operation.words ++ i.qubits ++ i.clbits

theorem ofJson?_toJson {i : Instruction Float} (hx : ∀ x ∈ i.operation.numbers, Recovered x)
    (hw : ∀ n ∈ i.words, n ≤ maxIndex) (ht : ∀ t ∈ i.operation.durations, t ≤ 0xFFFFFFFFFFFFFFFF)
    (hd : i.toJson.depth ≤ StandardGate.angleRoom + 5) : ofJson? i.toJson = some i := by
  obtain ⟨operation, qubits, clbits⟩ := i
  obtain ⟨hw, hclbits⟩ := List.forall_mem_append.mp hw
  obtain ⟨hw, hqubits⟩ := List.forall_mem_append.mp hw
  have hdepth : operation.toJson.depth < (toJson ⟨operation, qubits, clbits⟩).depth :=
    depth_lt_of_mem_fields (.head _)
  have hoperation : Operation.ofJson? operation.toJson = some operation :=
    Operation.ofJson?_toJson hx hw ht (Nat.lt_succ_iff.mp (hdepth.trans_le hd))
  have hoperands {ns : List Nat} (hns : ∀ n ∈ ns, n ≤ maxIndex) :
      list? word32? (.array (ns.map .nat)) = some ns :=
    list?_map fun n hn => natUpTo?_nat (hns n hn)
  have hrecord : record? ["kind", "qubits", "clbits"] 3 (toJson ⟨operation, qubits, clbits⟩) =
      some [some operation.toJson, some (.array (qubits.map .nat)), some (.array (clbits.map .nat))] := rfl
  simp [ofJson?, hrecord, hoperation, hoperands hqubits, hoperands hclbits]

end Instruction

/-! ## Circuits -/

namespace Circuit

/-- The doubles of a circuit: its phase, and the numbers in angles and matrices. -/
def numbers {R : Type} (c : Circuit R) : List R := c.phase :: c.instructions.flatMap (·.operation.numbers)

/-- What is written in 32 bits: registers, operands and the numbers of controls. -/
def words {R : Type} (c : Circuit R) : List Nat :=
  c.numQubits :: c.numClbits :: c.instructions.flatMap Instruction.words

/-- The lengths of delays, which are written in 64 bits. -/
def durations {R : Type} (c : Circuit R) : List Nat := c.instructions.flatMap (·.operation.durations)

/-- How many arrays and objects the reader opens inside each other. -/
def maxDepth : Nat := 127

theorem ofJson?_toJson {c : Circuit Float} (hx : ∀ x ∈ c.numbers, Recovered x)
    (hw : ∀ n ∈ c.words, n ≤ maxIndex) (ht : ∀ t ∈ c.durations, t ≤ 0xFFFFFFFFFFFFFFFF)
    (hd : c.toJson.depth ≤ maxDepth) : ofJson? c.toJson = some c := by
  obtain ⟨name, numQubits, numClbits, is, phase⟩ := c
  obtain ⟨hphase, hxis⟩ := List.forall_mem_cons.mp hx
  obtain ⟨hq, hw⟩ := List.forall_mem_cons.mp hw
  obtain ⟨hc, hwis⟩ := List.forall_mem_cons.mp hw
  have hqubits : (Json.nat numQubits).word32? = some numQubits := natUpTo?_nat hq
  have hclbits : (Json.nat numClbits).word32? = some numClbits := natUpTo?_nat hc
  have hinstructions : list? Instruction.ofJson? (.array (is.map Instruction.toJson)) = some is := by
    refine list?_map fun i hi => Instruction.ofJson?_toJson ?_ ?_ ?_ ?_
    · exact fun x hx => hxis x (List.mem_flatMap.mpr ⟨i, hi, hx⟩)
    · exact fun n hn => hwis n (List.mem_flatMap.mpr ⟨i, hi, hn⟩)
    · exact fun t h => ht t (List.mem_flatMap.mpr ⟨i, hi, h⟩)
    · have harray : (Json.array (is.map Instruction.toJson)).depth <
          (toJson ⟨name, numQubits, numClbits, is, phase⟩).depth :=
        depth_lt_of_mem_fields (.tail _ (.tail _ (.tail _ (.head _))))
      have hitem : i.toJson.depth < (Json.array (is.map Instruction.toJson)).depth :=
        depth_lt_of_mem_items (List.mem_map_of_mem hi)
      rw [maxDepth] at hd
      rw [StandardGate.angleRoom]
      omega
  have hrecord : record? ["name", "num_qubits", "num_clbits", "instructions", "global_phase"] 4
      (toJson ⟨name, numQubits, numClbits, is, phase⟩) =
        some [some (.string name), some (.nat numQubits), some (.nat numClbits),
          some (.array (is.map Instruction.toJson)), some (.double phase)] := rfl
  simp [ofJson?, hrecord, text?, hqubits, hclbits, hinstructions, recovered_iff.mp hphase]

/-- A circuit is read back from its JSON text, whatever it holds and whether or not it is valid, if its
doubles are read back from theirs, its whole numbers fit in their words and it is not nested deeper than the
reader goes. -/
theorem read_write (c : Circuit Float) (hx : ∀ x ∈ c.numbers, Recovered x) (hw : ∀ n ∈ c.words, n ≤ maxIndex)
    (ht : ∀ t ∈ c.durations, t ≤ 0xFFFFFFFFFFFFFFFF) (hd : c.toJson.depth ≤ maxDepth) :
    read c.write = .ok c := by
  rw [read, write, read?_write, Option.bind_some, ofJson?_toJson hx hw ht hd]

/-- A circuit that is not valid: a labelled gate with a matrix and an expression on an operand out of range,
a delay of the greatest length, and a name that has to be escaped. -/
def assorted : Circuit Float where
  name := "a \"name\"\n\x07 with \\ and é"
  numQubits := 1
  numClbits := 0
  instructions :=
    [⟨.gate ⟨.custom ⟨"gate 1", 1, [.div (.neg (.symbol "θ")) (.const 3)],
        some [⟨1, 0⟩, ⟨0, 0⟩, ⟨0, 0⟩, ⟨-0.0, 0.1⟩]⟩, some "label"⟩, [4294967295], []⟩,
      ⟨.gate ⟨.standard (.mcu 2 .pi (.const 1e300) (.add .pi (.const 5e-324))), none⟩, [0, 0], [7]⟩,
      ⟨.delay 18446744073709551615, [0], []⟩, ⟨.measure, [], []⟩]
  phase := 0.30000000000000004

theorem read_write_assorted : (∀ x ∈ assorted.numbers, Recovered x) ∧ (∀ n ∈ assorted.words, n ≤ maxIndex) ∧
    (∀ t ∈ assorted.durations, t ≤ 0xFFFFFFFFFFFFFFFF) ∧ assorted.toJson.depth ≤ maxDepth ∧
      read assorted.write = .ok assorted := by
  have hx : ∀ x ∈ assorted.numbers, Recovered x := by decide +kernel
  have hw : ∀ n ∈ assorted.words, n ≤ maxIndex := by decide
  have ht : ∀ t ∈ assorted.durations, t ≤ 0xFFFFFFFFFFFFFFFF := by decide
  have hd : assorted.toJson.depth ≤ maxDepth := by decide +kernel
  exact ⟨hx, hw, ht, hd, read_write assorted hx hw ht hd⟩

end Circuit

end QuantumCompiler
