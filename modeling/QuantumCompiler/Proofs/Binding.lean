import QuantumCompiler.Binding
import QuantumCompiler.Proofs.Angle
import QuantumCompiler.Proofs.Dag.Cyclic

/-!
# Binding in place

Numbers for named angles change the angles of a gate and nothing else about it. So every exchange that
binding makes is accepted, and the graph reads as before with each instruction bound.
-/
namespace QuantumCompiler

variable {R : Type}

namespace StandardGate

theorem name_mapAngles (g : StandardGate R) (f : Angle R → Angle R) : (g.mapAngles f).name = g.name := by
  cases g <;> rfl

theorem numQubits_mapAngles (g : StandardGate R) (f : Angle R → Angle R) :
    (g.mapAngles f).numQubits = g.numQubits := by
  cases g <;> rfl

theorem angles_mapAngles (g : StandardGate R) (f : Angle R → Angle R) :
    (g.mapAngles f).angles = g.angles.map f := by
  cases g <;> rfl

theorem mapAngles_mapAngles (g : StandardGate R) (f f' : Angle R → Angle R) :
    (g.mapAngles f).mapAngles f' = g.mapAngles (f' ∘ f) := by
  cases g <;> rfl

end StandardGate

namespace Gate

/-- The angles of a standard gate or the parameters of a custom one. -/
def angles (g : Gate R) : List (Angle R) :=
  match g.kind with
  | .standard gate => gate.angles
  | .custom c => c.params

/-- Changes every angle and nothing else. -/
def mapAngles (f : Angle R → Angle R) (g : Gate R) : Gate R :=
  match g.kind with
  | .standard gate => { g with kind := .standard (gate.mapAngles f) }
  | .custom c => { g with kind := .custom { c with params := c.params.map f } }

theorem angles_mapAngles (g : Gate R) (f : Angle R → Angle R) :
    (g.mapAngles f).angles = g.angles.map f := by
  obtain ⟨gate | c, label⟩ := g
  · exact gate.angles_mapAngles f
  · rfl

theorem mapAngles_mapAngles (g : Gate R) (f f' : Angle R → Angle R) :
    (g.mapAngles f).mapAngles f' = g.mapAngles (f' ∘ f) := by
  obtain ⟨gate | c, label⟩ := g
  · simp [mapAngles, gate.mapAngles_mapAngles]
  · simp [mapAngles]

/-- Both kinds of gates are bound alike. -/
theorem bindAll?_eq [Scalar R] (g : Gate R) (values : Assignment R) : g.bindAll? values =
    if g.angles.any Angle.isSymbolic then some (g.mapAngles (·.bindAll values)) else none := by
  obtain ⟨gate | c, label⟩ := g <;> rfl

end Gate

namespace Instruction

/-- The angles of the gate, if the instruction applies one. -/
def angles (i : Instruction R) : List (Angle R) :=
  match i.operation with
  | .gate g => g.angles
  | _ => []

def mapAngles (f : Angle R → Angle R) (i : Instruction R) : Instruction R :=
  match i.operation with
  | .gate g => { i with operation := .gate (g.mapAngles f) }
  | _ => i

/-- An instruction without its angles: the kind, name and controls of its gate with label and matrix, and
the operands. -/
def withoutAngles (i : Instruction R) : Instruction R := i.mapAngles fun _ => .pi

variable {i j : Instruction R}

theorem angles_mapAngles (i : Instruction R) (f : Angle R → Angle R) :
    (i.mapAngles f).angles = i.angles.map f := by
  obtain ⟨operation, qs, cs⟩ := i
  cases operation with
  | gate g => exact g.angles_mapAngles f
  | measure | reset | barrier | delay duration => rfl

theorem mapAngles_mapAngles (i : Instruction R) (f f' : Angle R → Angle R) :
    (i.mapAngles f).mapAngles f' = i.mapAngles (f' ∘ f) := by
  obtain ⟨operation, qs, cs⟩ := i
  cases operation with
  | gate g => simp [mapAngles, g.mapAngles_mapAngles]
  | measure | reset | barrier | delay duration => rfl

/-- An instruction that differs in the angles of its gate. -/
structure SameBut (i j : Instruction R) : Prop where
  qubits : j.qubits = i.qubits
  clbits : j.clbits = i.clbits
  isGate : j.isGate = i.isGate
  name : j.name = i.name
  checkArity : j.checkArity = i.checkArity

theorem sameBut_mapAngles (i : Instruction R) (f : Angle R → Angle R) : SameBut i (i.mapAngles f) := by
  obtain ⟨operation, qs, cs⟩ := i
  rcases operation with ⟨⟨g | ⟨n, k, ps, matrix⟩, label⟩⟩ | _ | _ | _ | _
  · refine ⟨rfl, rfl, rfl, g.name_mapAngles _, ?_⟩
    simp only [checkArity, mapAngles, Gate.mapAngles, Gate.numQubits, Gate.name, g.numQubits_mapAngles,
      g.name_mapAngles]
    rfl
  · refine ⟨rfl, rfl, rfl, rfl, ?_⟩
    cases matrix <;> rfl
  all_goals exact ⟨rfl, rfl, rfl, rfl, rfl⟩

theorem SameBut.validate (h : SameBut i j) {n m : Nat} (hi : i.validate n m = .ok ()) :
    j.validate n m = .ok () := by
  obtain ⟨ha, hf⟩ := validate_eq_ok.mp hi
  exact validate_eq_ok.mpr ⟨h.checkArity.trans ha, ⟨h.qubits ▸ hf.qubits, h.clbits ▸ hf.clbits,
    h.qubits ▸ hf.distinct⟩⟩

theorem SameBut.wires (h : SameBut i j) : j.wires = i.wires := by
  rw [Instruction.wires, Instruction.wires, h.qubits, h.clbits]

variable [Scalar R] {values : Assignment R}

/-- The instruction with numbers for names. -/
def bound (i : Instruction R) (values : Assignment R) : Instruction R := (i.bindAll? values).getD i

theorem bound_eq (i : Instruction R) (values : Assignment R) : i.bound values =
    if i.angles.any Angle.isSymbolic then i.mapAngles (·.bindAll values) else i := by
  obtain ⟨operation, qs, cs⟩ := i
  cases operation with
  | gate g =>
    simp only [bound, bindAll?, g.bindAll?_eq, angles, mapAngles]
    by_cases hany : g.angles.any Angle.isSymbolic = true <;> simp [hany]
  | measure | reset | barrier | delay duration => rfl

theorem sameBut_bound (i : Instruction R) (values : Assignment R) : SameBut i (i.bound values) := by
  rw [bound_eq]
  split
  · exact i.sameBut_mapAngles _
  · exact ⟨rfl, rfl, rfl, rfl, rfl⟩

theorem withoutAngles_bound (i : Instruction R) (values : Assignment R) :
    (i.bound values).withoutAngles = i.withoutAngles := by
  rw [bound_eq]
  split
  · exact i.mapAngles_mapAngles _ _
  · rfl

/-- Each angle keeps the symbols that have no number. -/
theorem symbols_bound (i : Instruction R) (values : Assignment R) :
    (i.bound values).angles.map Angle.symbols =
      i.angles.map fun θ => θ.symbols.filter fun n => (values.get? n).isNone := by
  rw [bound_eq]
  split
  · rw [angles_mapAngles, List.map_map]
    exact List.map_congr_left fun θ _ => θ.symbols_bindAll values
  · rename_i hany
    refine List.map_congr_left fun θ hθ => ?_
    have hnames : θ.names = [] := by
      simp only [List.any_eq_true, not_exists, not_and, Bool.not_eq_true] at hany
      exact Angle.isSymbolic_eq_false.mp (hany θ hθ)
    simp [Angle.symbols, hnames]

/-- A bound instruction is bound. -/
theorem bound_bound (i : Instruction R) (values : Assignment R) :
    (i.bound values).bound values = i.bound values := by
  by_cases hany : i.angles.any Angle.isSymbolic = true
  · have hb : i.bound values = i.mapAngles (·.bindAll values) := by rw [bound_eq, if_pos hany]
    rw [hb, bound_eq, mapAngles_mapAngles]
    have htwice : ((·.bindAll values) ∘ (·.bindAll values) : Angle R → Angle R) = (·.bindAll values) :=
      funext fun θ => θ.bindAll_bindAll values
    rw [htwice, ite_self]
  · have hb : i.bound values = i := by rw [bound_eq, if_neg hany]
    rw [hb, hb]

end Instruction

namespace Dag

variable [Scalar R] {d : Dag R} {es : Entries R} {values : Assignment R}

/-- One exchange. -/
def bindOne (values : Assignment R) (d : Dag R) (x : Nat × Instruction R) : Compile R (Dag R) :=
  match x.2.bindAll? values with
  | some j => Compile.ofCircuit (d.replace x.1 j)
  | none => .ok d

/-- A list with the instructions of some nodes bound. -/
def boundAt (values : Assignment R) (ids : List Nat) (es : Entries R) : Entries R :=
  es.map fun x => if x.1 ∈ ids then (x.1, x.2.bound values) else x

theorem boundAt_cons {id : Nat} {ids : List Nat} (hid : id ∉ ids) :
    boundAt values ids (boundAt values [id] es) = boundAt values (id :: ids) es := by
  rw [boundAt, boundAt, boundAt, List.map_map]
  refine List.map_congr_left fun x _ => ?_
  by_cases hx : x.1 = id
  · simp [hx, hid]
  · by_cases hm : x.1 ∈ ids <;> simp [hx, hm]

theorem Reads.bindOne (h : d.Reads es) (values : Assignment R) {x : Nat × Instruction R} (hx : x ∈ es) :
    ∃ e, Dag.bindOne values d x = .ok e ∧ e.Reads (boundAt values [x.1] es) ∧ SameFrame d e := by
  obtain ⟨id, i⟩ := x
  have hat : boundAt values [id] es =
      es.map fun x => if x.1 = id then (id, i.bound values) else x := by
    refine List.map_congr_left fun y hy => ?_
    by_cases he : y.1 = id
    · obtain rfl : y = (id, i) := h.unique_node hy hx he
      simp
    · simp [he]
  rw [hat]
  cases hb : i.bindAll? values with
  | none =>
    have hself : (es.map fun x => if x.1 = id then (id, i.bound values) else x) = es := by
      conv_rhs => rw [← List.map_id es]
      refine List.map_congr_left fun y hy => ?_
      split
      · rename_i he
        obtain rfl : y = (id, i) := h.unique_node hy hx he
        simp [Instruction.bound, hb]
      · rfl
    exact ⟨d, by rw [Dag.bindOne, hb], hself.symm ▸ h, rfl, rfl, rfl⟩
  | some j =>
    have hs := i.sameBut_bound values
    obtain ⟨e, he, hr, hf⟩ := h.exchange hx (hs.validate (h.valid _ hx))
      (hs.clbits ▸ h.nodup_clbits hx) (.of_eq hs.wires)
    rw [Instruction.bound, hb] at he
    refine ⟨e, ?_, hr, hf⟩
    rw [Dag.bindOne, hb]
    exact congrArg Compile.ofCircuit he

/-- Exchanges one after another. No exchange gets in the way of a later one. -/
theorem Reads.foldlM_bindOne (h : d.Reads es) (values : Assignment R) (xs : Entries R) (hn : (xs.map (·.1)).Nodup)
    (hx : ∀ x ∈ xs, x ∈ es) :
    ∃ e, xs.foldlM (Dag.bindOne values) d = .ok e ∧
      e.Reads (boundAt values (xs.map (·.1)) es) ∧ SameFrame d e := by
  induction xs generalizing d es with
  | nil => exact ⟨d, rfl, by simpa [boundAt] using h, rfl, rfl, rfl⟩
  | cons x xs ih =>
    obtain ⟨hnot, hn⟩ := List.nodup_cons.mp hn
    obtain ⟨f, hf, hr, hs⟩ := h.bindOne values (hx x (by simp))
    obtain ⟨e, he, hre, hse⟩ := ih hr hn fun y hy => by
      have hne : y.1 ≠ x.1 := fun heq => hnot (List.mem_map.mpr ⟨y, hy, heq⟩)
      exact List.mem_map.mpr ⟨y, hx y (by simp [hy]), by simp [hne]⟩
    refine ⟨e, ?_, ?_, hs.trans hse⟩
    · rw [List.foldlM_cons, hf]
      exact he
    · rw [List.map_cons, ← boundAt_cons hnot]
      exact hre

/-- Binding never fails, and it binds every instruction where it stands. -/
theorem Reads.bindAll (h : d.Reads es) (values : Assignment R) :
    ∃ e, d.bindAll values = .ok e ∧
      e.Reads (es.map fun x => (x.1, x.2.bound values)) ∧ SameFrame d e := by
  have hmem : ∀ x ∈ d.instructions, x ∈ es := fun x hx => h.mem_iff.mpr (mem_instructions.mp hx)
  obtain ⟨e, he, hr, hf⟩ := h.foldlM_bindOne values d.instructions
    (nodup_instructions d) hmem
  have hall : boundAt values (d.instructions.map (·.1)) es =
      es.map fun x => (x.1, x.2.bound values) := by
    refine List.map_congr_left fun x hx => if_pos ?_
    exact List.mem_map_of_mem (f := (·.1)) (mem_instructions.mpr (h.mem_iff.mp hx))
  exact ⟨e, he, hall ▸ hr, hf⟩

omit [Scalar R] in
theorem replace_self {id : Nat} {n : OpNode R}
    (hv : n.instruction.validate d.numQubits d.numClbits = .ok ()) (hop : d.op? id = some n) :
    d.replace id n.instruction = .ok d := by
  have hslot : d.slots[id]? = some (some n) := Option.join_eq_some_iff.mp hop
  have hslots : d.slots.setIfInBounds id (some n) = d.slots := by
    refine Array.ext_getElem? fun k => ?_
    rw [Array.getElem?_setIfInBounds]
    split_ifs with hk hsize
    · exact hk ▸ hslot.symm
    · exact absurd (Array.getElem?_eq_some_iff.mp hslot).1 hsize
    · rfl
  have hself : d.exchange id n.instruction n = d := congrArg (fun slots => { d with slots }) hslots
  rw [replace, edited_eq_ok.mpr ((edit_replace hv hop (List.Perm.refl _)).trans (by rw [hself]))]
  rfl

/-- Exchanging a bound instruction for itself changes nothing. -/
theorem Reads.bindOne_of_bound (h : d.Reads es) {x : Nat × Instruction R} (hx : x ∈ es)
    (hb : x.2.bound values = x.2) : Dag.bindOne values d x = .ok d := by
  obtain ⟨id, i⟩ := x
  rw [Dag.bindOne]
  cases hj : i.bindAll? values with
  | none => rfl
  | some j =>
    obtain rfl : j = i := by
      rw [Instruction.bound, hj] at hb
      exact hb
    obtain ⟨n, hop, rfl⟩ := op?_of_instruction? (h.mem_iff.mp hx)
    exact congrArg Compile.ofCircuit (replace_self (h.valid _ hx) hop)

/-- A graph of bound instructions stays as it is. -/
theorem Reads.bindAll_of_bound (h : d.Reads es) (hb : ∀ x ∈ es, x.2.bound values = x.2) :
    d.bindAll values = .ok d := by
  have hone : ∀ x ∈ d.instructions, Dag.bindOne values d x = .ok d := fun x hx =>
    have hx := h.mem_iff.mpr (mem_instructions.mp hx)
    h.bindOne_of_bound hx (hb x hx)
  rw [Dag.bindAll]
  change d.instructions.foldlM (Dag.bindOne values) d = .ok d
  generalize d.instructions = xs at hone
  induction xs with
  | nil => rfl
  | cons x xs ih =>
    rw [List.foldlM_cons, hone x (by simp)]
    exact ih fun y hy => hone y (by simp [hy])

/-- Binding is done on every graph and in place: register and phase stay, and in the list each instruction
keeps all but its angles. An angle loses the symbols that have a number and keeps the others. What is
bound stays as it is when it is bound again. -/
theorem bindAll_of_reachable (h : d.Reachable) (values : Assignment R) :
    ∃ e is, d.bindAll values = .ok e ∧ SameFrame d e ∧ d.linearize = .ok is ∧
      e.linearize = .ok (is.map (·.bound values)) ∧
      (∀ i ∈ is, (i.bound values).withoutAngles = i.withoutAngles ∧
        (i.bound values).angles.map Angle.symbols =
          i.angles.map fun θ => θ.symbols.filter fun n => (values.get? n).isNone) ∧
      e.bindAll values = .ok e := by
  obtain ⟨es, hd⟩ := h.exists_reads
  obtain ⟨e, he, hreads, hframe⟩ := hd.bindAll values
  refine ⟨e, es.map (·.2), he, hframe, hd.linearize_eq, ?_,
    fun i _ => ⟨i.withoutAngles_bound values, i.symbols_bound values⟩, ?_⟩
  · rw [hreads.linearize_eq, List.map_map, List.map_map]
    rfl
  · refine hreads.bindAll_of_bound fun x hx => ?_
    obtain ⟨y, -, rfl⟩ := List.mem_map.mp hx
    exact y.2.bound_bound values

/-- A labelled gate with two names and an opaque gate that shares one of them. -/
def symbolicGates : List (Instruction Float) :=
  [.ofGate ⟨.standard (.u (.symbol "a") (.symbol "b") .pi), some "turn"⟩ [0],
    .ofGate (.ofCustom ⟨"pulse", 2, [.neg (.symbol "a")], none⟩) [1, 0]]

theorem bindAll_of_symbolicGates : (run 2 0 (symbolicGates.map .append)).1.Reachable ∧
    ∃ e, (run 2 0 (symbolicGates.map .append)).1.bindAll [("a", 1)] = .ok e ∧
      e.linearize = .ok (symbolicGates.map (·.bound [("a", 1)])) ∧ e.bindAll [("a", 1)] = .ok e := by
  have hr : (run 2 0 (symbolicGates.map .append)).1.Reachable :=
    .run 2 0 (by simp [symbolicGates, Call.ClbitsDistinct, Call.instructions, Instruction.ofGate])
  obtain ⟨e, is, he, -, his, hlist, -, hagain⟩ := bindAll_of_reachable hr [("a", 1)]
  obtain rfl : symbolicGates = is := Except.ok.inj (Eq.trans (by rfl) his)
  exact ⟨hr, e, he, hlist, hagain⟩

/-- A graph that cannot be read stays unreadable. -/
theorem Cyclic.bindAll (h : d.Cyclic) {values : Assignment R} {e : Dag R}
    (he : d.bindAll values = .ok e) : e.Cyclic := by
  refine Outcome.foldlM_keeps (P := Cyclic) (f := bindOne values) (fun x _ f g hf hg => ?_) h he
  rw [bindOne] at hg
  split at hg
  · exact hf.replace (Outcome.ofCircuit_eq_ok.mp hg)
  · exact Except.ok.inj hg ▸ hf

end Dag

end QuantumCompiler
