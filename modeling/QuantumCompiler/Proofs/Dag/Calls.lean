import QuantumCompiler.Proofs.Dag.Changes
import QuantumCompiler.Proofs.Dag.Linear

/-!
# Runs of changes

A dependency graph is a list of instructions with their nodes. `Call.onList` says what each change does
to that list, knowing only the numbers of the nodes it creates, and `Call.Accepts` when it is done at
all. `Holds` ties a graph to its list. Every call keeps the two together, so a run of calls of any
length does: the graph reads as the list that the same calls give on lists.
-/
namespace QuantumCompiler.Dag

variable {R : Type}

/-- A call that changes a graph. -/
inductive Call (R : Type) where
  /-- Appends an instruction. -/
  | append (i : Instruction R)
  /-- Removes the operation of a node. -/
  | remove (id : Nat)
  /-- Replaces the operation of a node by a sequence. -/
  | substitute (id : Nat) (is : List (Instruction R))
  /-- Exchanges the instruction of a node. -/
  | replace (id : Nat) (i : Instruction R)

/-- Instructions with their nodes, in order. -/
abbrev Entries (R : Type) := List (Nat × Instruction R)

namespace Call

/-- The instructions that a call brings along. -/
def instructions : Call R → List (Instruction R)
  | append i => [i]
  | remove _ => []
  | substitute _ is => is
  | replace _ i => [i]

/-- No instruction names a classical bit twice. -/
def ClbitsDistinct (c : Call R) : Prop := ∀ i ∈ c.instructions, i.clbits.Nodup

theorem clbitsDistinct_append {i : Instruction R} :
    (append i).ClbitsDistinct ↔ i.clbits.Nodup := by
  simp [ClbitsDistinct, instructions]

theorem clbitsDistinct_replace {id : Nat} {i : Instruction R} :
    (replace id i).ClbitsDistinct ↔ i.clbits.Nodup := by
  simp [ClbitsDistinct, instructions]

/-- The change of the graph, with the nodes it creates. -/
def edit : Call R → Edit R (List Nat)
  | append i => do return [← Edit.append i]
  | remove id => do
    let _ ← Edit.remove id
    return []
  | substitute id is => Edit.substitute id is
  | replace id i => do
    Edit.replace id i
    return []

/-- The instructions of a sequence with the nodes created for them. -/
def entries (created : List Nat) (is : List (Instruction R)) : Entries R :=
  is.mapIdx fun k i => (created.getD k 0, i)

/-- What the call does to a list. -/
def onList (created : List Nat) : Call R → Entries R → Entries R
  | append i, es => es ++ entries created [i]
  | remove id, es => es.filter fun e => e.1 ≠ id
  | substitute id is, es => es.flatMap fun e => if e.1 = id then entries created is else [e]
  | replace id i, es => es.map fun e => if e.1 = id then (id, i) else e

/-- When the call is done on a list over a register. -/
def Accepts (numQubits numClbits : Nat) (es : Entries R) : Call R → Prop
  | append i => i.validate numQubits numClbits = .ok ()
  | remove id => ∃ old, (id, old) ∈ es
  | substitute id is => is.length ≤ maxIndex ∧ ∃ old, (id, old) ∈ es ∧
      ∀ i ∈ is, i.validate numQubits numClbits = .ok () ∧ ∀ w ∈ i.wires, w ∈ old.wires
  | replace id i => i.validate numQubits numClbits = .ok () ∧
      ∃ old, (id, old) ∈ es ∧ i.wires.Perm old.wires

end Call

/-- The call on a graph and, where it is done, on a list. -/
def step (s : Dag R × Entries R) (c : Call R) : Dag R × Entries R :=
  match s.1.edit c.edit with
  | (.ok created, d) => (d, c.onList created s.2)
  | (.error _, d) => (d, s.2)

/-- A run of calls from the graph without operations and the empty list. -/
def run [Scalar R] (numQubits numClbits : Nat) (cs : List (Call R)) : Dag R × Entries R :=
  cs.foldl step (empty numQubits numClbits, [])

/-- The graph over the register represents the list. -/
structure Holds (numQubits numClbits : Nat) (d : Dag R) (es : Entries R) : Prop where
  represents : Represents d (es.map (·.1))
  instruction? : ∀ e ∈ es, d.instruction? e.1 = some e.2
  numQubits : d.numQubits = numQubits
  numClbits : d.numClbits = numClbits

/-! ## Lists with nodes -/

theorem entries_eq_zip {created : List Nat} {is : List (Instruction R)}
    (h : created.length = is.length) : Call.entries created is = created.zip is := by
  apply List.ext_getElem
  · simp [Call.entries, h]
  · intro k hk _
    have hi : k < is.length := by simpa [Call.entries] using hk
    have hc : k < created.length := h ▸ hi
    simp [Call.entries, List.getD_eq_getElem?_getD, hc]

theorem map_fst_entries {created : List Nat} {is : List (Instruction R)}
    (h : created.length = is.length) : (Call.entries created is).map (·.1) = created := by
  rw [entries_eq_zip h]
  exact List.map_fst_zip (by omega)

theorem instruction?_of_zip {e : Dag R} {created : List Nat} {is : List (Instruction R)}
    (h : created.map e.instruction? = is.map some) {x : Nat × Instruction R}
    (hx : x ∈ created.zip is) : e.instruction? x.1 = some x.2 := by
  induction created generalizing is with
  | nil => simp at hx
  | cons id created ih =>
    cases is with
    | nil => simp at hx
    | cons i is =>
      rw [List.map_cons, List.map_cons, List.cons.injEq] at h
      rcases List.mem_cons.mp hx with rfl | hx
      · exact h.1
      · exact ih h.2 hx

/-- The only entry of a node divides the list. -/
theorem exists_split {es : Entries R} (hn : (es.map (·.1)).Nodup) {id : Nat} {old : Instruction R}
    (h : (id, old) ∈ es) :
    ∃ a b, es = a ++ (id, old) :: b ∧ (∀ e ∈ a, e.1 ≠ id) ∧ ∀ e ∈ b, e.1 ≠ id := by
  obtain ⟨a, b, rfl⟩ := List.append_of_mem h
  rw [List.map_append, List.map_cons] at hn
  have hnot := (List.nodup_cons.mp (List.nodup_middle.mp hn)).1
  refine ⟨a, b, rfl, ?_, ?_⟩
  · intro e he heq
    exact hnot (List.mem_append_left _ (heq ▸ List.mem_map_of_mem (f := (·.1)) he))
  · intro e he heq
    exact hnot (List.mem_append_right _ (heq ▸ List.mem_map_of_mem (f := (·.1)) he))

section Split

variable {a b : Entries R} {id : Nat} {old : Instruction R}
  (ha : ∀ e ∈ a, e.1 ≠ id) (hb : ∀ e ∈ b, e.1 ≠ id)

include ha hb

theorem onList_remove (created : List Nat) :
    Call.onList created (.remove id) (a ++ (id, old) :: b) = a ++ b := by
  have hfa : (a.filter fun e => decide (e.1 ≠ id)) = a := by
    rw [List.filter_eq_self]
    intro e he
    simpa using ha e he
  have hfb : (b.filter fun e => decide (e.1 ≠ id)) = b := by
    rw [List.filter_eq_self]
    intro e he
    simpa using hb e he
  rw [Call.onList, List.filter_append, List.filter_cons_of_neg (by simp), hfa, hfb]

theorem onList_substitute (created : List Nat) (is : List (Instruction R)) :
    Call.onList created (.substitute id is) (a ++ (id, old) :: b) =
      a ++ Call.entries created is ++ b := by
  have hkeep (es : Entries R) (h : ∀ e ∈ es, e.1 ≠ id) :
      (es.flatMap fun e => if e.1 = id then Call.entries created is else [e]) = es := by
    induction es with
    | nil => rfl
    | cons e es ih =>
      rw [List.flatMap_cons, if_neg (h e (by simp)), ih fun x hx => h x (by simp [hx])]
      rfl
  rw [Call.onList, List.flatMap_append, List.flatMap_cons, if_pos rfl, hkeep a ha, hkeep b hb,
    List.append_assoc]

theorem onList_replace (created : List Nat) (i : Instruction R) :
    Call.onList created (.replace id i) (a ++ (id, old) :: b) = a ++ (id, i) :: b := by
  have hkeep (es : Entries R) (h : ∀ e ∈ es, e.1 ≠ id) :
      (es.map fun e => if e.1 = id then (id, i) else e) = es := by
    conv_rhs => rw [← List.map_id es]
    apply List.map_congr_left
    intro e he
    rw [if_neg (h e he)]
    rfl
  rw [Call.onList, List.map_append, List.map_cons, if_pos rfl, hkeep a ha, hkeep b hb]

end Split

/-! ## One call -/

theorem represents_empty [Scalar R] (numQubits numClbits : Nat) :
    Represents (empty numQubits numClbits : Dag R) [] := by
  have hop (id : Nat) : (empty numQubits numClbits : Dag R).op? id = none := by
    simp [op?, empty]
  refine ⟨⟨.nil, ?_, .nil, by simp, ?_, .nil, by simp [empty]⟩, ?_⟩
  · intro id
    simp [hop]
  · intro id i hi
    simp [Dag.instruction?, hop] at hi
  · intro w hw
    obtain ⟨ls, hl⟩ := Option.isSome_iff_exists.mp hw
    have hlinks : ls = [⟨.input w, .output w⟩] := by
      simp only [empty, PerWire.get?_mapWire, PerWire.get?_replicate] at hl
      split at hl <;> simp at hl
      exact hl.symm
    have halong : (empty numQubits numClbits : Dag R).along w = [⟨.input w, .output w⟩] := by
      rw [along, hl, hlinks]
      rfl
    rw [halong]
    exact .refl _

theorem holds_empty [Scalar R] (numQubits numClbits : Nat) :
    Holds numQubits numClbits (empty numQubits numClbits : Dag R) [] :=
  ⟨represents_empty numQubits numClbits, by simp,
    by simp [Dag.numQubits, empty, PerWire.replicate, PerWire.mapWire],
    by simp [Dag.numClbits, empty, PerWire.replicate, PerWire.mapWire]⟩

section Spec

variable {n m : Nat} {d : Dag R} {es : Entries R}

namespace Holds

/-- A node of the graph is a node of the list. -/
theorem mem_of_op? (h : Holds n m d es) {id : Nat} {node : OpNode R}
    (hop : d.op? id = some node) : (id, node.instruction) ∈ es := by
  have hid : id ∈ es.map (·.1) := (h.represents.mem_iff id).mpr (by simp [hop])
  obtain ⟨e, he, rfl⟩ := List.mem_map.mp hid
  have hi := h.instruction? e he
  rw [instruction?_of_op? hop] at hi
  rw [Option.some.inj hi]
  exact he

theorem op?_of_mem (h : Holds n m d es) {id : Nat} {i : Instruction R} (he : (id, i) ∈ es) :
    ∃ node, d.op? id = some node ∧ node.instruction = i :=
  op?_of_instruction? (h.instruction? (id, i) he)

theorem notMem_of_op? (h : Holds n m d es) {id : Nat} (hop : d.op? id = none)
    (i : Instruction R) : (id, i) ∉ es := by
  intro he
  obtain ⟨node, hnode, -⟩ := h.op?_of_mem he
  rw [hop] at hnode
  cases hnode

theorem op?_unique (h : Holds n m d es) {id : Nat} {node : OpNode R} (hop : d.op? id = some node)
    {i : Instruction R} (he : (id, i) ∈ es) : i = node.instruction := by
  obtain ⟨node', hop', rfl⟩ := h.op?_of_mem he
  rw [hop] at hop'
  rw [Option.some.inj hop']

/-- The graph and the list after a change that takes some entries over. -/
theorem of_keeps (h : Holds n m d es) {e : Dag R} {es' : Entries R} (old : Entries R)
    (hr : Represents e (es'.map (·.1))) (hk : Keeps d e (old.map (·.1)))
    (hold : ∀ x ∈ old, x ∈ es) (hes : ∀ x ∈ es', x ∈ old ∨ e.instruction? x.1 = some x.2) :
    Holds n m e es' := by
  refine ⟨hr, ?_, by rw [hk.numQubits, h.numQubits], by rw [hk.numClbits, h.numClbits]⟩
  intro x hx
  rcases hes x hx with ho | hi
  · rw [hk.instruction? (List.mem_map_of_mem ho)]
    exact h.instruction? x (hold x ho)
  · exact hi

end Holds

/-- A call is either accepted, and then done on graph and list alike, or it leaves the graph as it
was. -/
def Obeys (n m : Nat) (d : Dag R) (es : Entries R) (c : Call R) : Prop :=
  (c.Accepts n m es ∧ ∃ created e, d.edit c.edit = (.ok created, e) ∧
    Holds n m e (c.onList created es)) ∨
  (¬ c.Accepts n m es ∧ ∃ x, d.edit c.edit = (.error x, d))

theorem obeys_append (h : Holds n m d es) {i : Instruction R} (hc : i.clbits.Nodup) :
    Obeys n m d es (.append i) := by
  have hv : (Call.append i).Accepts n m es ↔ i.validate d.numQubits d.numClbits = .ok () := by
    rw [h.numQubits, h.numClbits]
    exact Iff.rfl
  cases hval : i.validate d.numQubits d.numClbits with
  | error x =>
    refine .inr ⟨by simp [hv, hval], x, ?_⟩
    simp [Call.edit, edit_map, append_refused hval, Except.map]
  | ok _ =>
    obtain ⟨id, e, he, hr, hi, hk⟩ := append_accepted h.represents hval hc
    refine .inl ⟨hv.mpr hval, [id], e, ?_, ?_⟩
    · simp [Call.edit, edit_map, he, Except.map]
    · have hlist : Call.onList [id] (.append i) es = es ++ [(id, i)] := rfl
      rw [hlist]
      refine h.of_keeps es (by simpa using hr) hk (fun x hx => hx) ?_
      intro x hx
      rcases List.mem_append.mp hx with hx | hx
      · exact .inl hx
      · rw [List.mem_singleton.mp hx]
        exact .inr hi

theorem obeys_remove (h : Holds n m d es) (id : Nat) : Obeys n m d es (.remove id) := by
  cases hop : d.op? id with
  | none =>
    refine .inr ⟨?_, .invalidNode, ?_⟩
    · rintro ⟨old, ho⟩
      exact h.notMem_of_op? hop old ho
    · simp [Call.edit, edit_map, remove_refused hop, Except.map]
  | some node =>
    have hmem := h.mem_of_op? hop
    obtain ⟨a, b, rfl, ha, hb⟩ := exists_split h.represents.nodup hmem
    obtain ⟨e, he, hr, hk⟩ := remove_accepted (a := a.map (·.1)) (b := b.map (·.1))
      (by simpa using h.represents) hop
    refine .inl ⟨⟨_, hmem⟩, [], e, ?_, ?_⟩
    · simp [Call.edit, edit_map, he, Except.map]
    · rw [onList_remove ha hb]
      refine h.of_keeps (a ++ b) (by simpa using hr) (by simpa using hk) ?_
        (fun x hx => .inl hx)
      intro x hx
      rcases List.mem_append.mp hx with hx | hx <;> simp [hx]

theorem obeys_substitute (h : Holds n m d es) (id : Nat) {is : List (Instruction R)}
    (hc : ∀ i ∈ is, i.clbits.Nodup) : Obeys n m d es (.substitute id is) := by
  by_cases hlen : is.length ≤ maxIndex
  · cases hop : d.op? id with
    | none =>
      refine .inr ⟨?_, _, substitute_invalid hlen hop⟩
      rintro ⟨-, old, ho, -⟩
      exact h.notMem_of_op? hop old ho
    | some node =>
      have hmem := h.mem_of_op? hop
      have hacc : (Call.substitute id is).Accepts n m es ↔
          is.forM (d.checkReplacement node.instruction.wires) = .ok () := by
        simp only [Outcome.forM_eq_ok, checkReplacement_eq_ok, h.numQubits, h.numClbits]
        constructor
        · rintro ⟨-, old, ho, his⟩
          rwa [h.op?_unique hop ho] at his
        · intro his
          exact ⟨hlen, _, hmem, his⟩
      cases hchk : is.forM (d.checkReplacement node.instruction.wires) with
      | error x =>
        exact .inr ⟨by simp [hacc, hchk], x, substitute_refused hlen hop hchk⟩
      | ok _ =>
        have his := fun i hi => checkReplacement_eq_ok.mp (Outcome.forM_eq_ok.mp hchk i hi)
        have hyes := hacc.mpr hchk
        obtain ⟨a, b, rfl, ha, hb⟩ := exists_split h.represents.nodup hmem
        obtain ⟨new, e, he, hr, hnew, hk⟩ := substitute_accepted (a := a.map (·.1))
          (b := b.map (·.1)) (by simpa using h.represents) hop hlen his hc
        have hnl : new.length = is.length := by simpa using congrArg List.length hnew
        refine .inl ⟨hyes, new, e, he, ?_⟩
        rw [onList_substitute ha hb]
        refine h.of_keeps (a ++ b) ?_ (by simpa using hk) ?_ ?_
        · rw [List.map_append, List.map_append, map_fst_entries hnl]
          exact hr
        · intro x hx
          rcases List.mem_append.mp hx with hx | hx <;> simp [hx]
        · intro x hx
          simp only [List.mem_append] at hx ⊢
          rcases hx with (hx | hx) | hx
          · exact .inl (.inl hx)
          · rw [entries_eq_zip hnl] at hx
            exact .inr (instruction?_of_zip hnew hx)
          · exact .inl (.inr hx)
  · refine .inr ⟨fun ha => hlen ha.1, _, substitute_tooMany (Nat.lt_of_not_le hlen)⟩

theorem obeys_replace (h : Holds n m d es) (id : Nat) {i : Instruction R} (hc : i.clbits.Nodup) :
    Obeys n m d es (.replace id i) := by
  cases hval : i.validate d.numQubits d.numClbits with
  | error x =>
    refine .inr ⟨?_, x, ?_⟩
    · rintro ⟨hok, -⟩
      rw [h.numQubits, h.numClbits, hok] at hval
      cases hval
    · simp [Call.edit, edit_map, replace_refused hval, Except.map]
  | ok _ =>
    cases hop : d.op? id with
    | none =>
      refine .inr ⟨?_, .invalidNode, ?_⟩
      · rintro ⟨-, old, ho, -⟩
        exact h.notMem_of_op? hop old ho
      · simp [Call.edit, edit_map, replace_invalid hval hop, Except.map]
    | some node =>
      have hmem := h.mem_of_op? hop
      by_cases hp : i.wires.Perm node.instruction.wires
      · obtain ⟨a, b, rfl, ha, hb⟩ := exists_split h.represents.nodup hmem
        obtain ⟨e, he, hr, hi, hk⟩ := replace_accepted h.represents hop hval hc hp
        refine .inl ⟨⟨?_, _, hmem, hp⟩, [], e, ?_, ?_⟩
        · rwa [h.numQubits, h.numClbits] at hval
        · simp [Call.edit, edit_map, he, Except.map]
        · rw [onList_replace ha hb]
          have hnot : id ∉ (a ++ b).map (·.1) := by
            intro hm
            obtain ⟨x, hx, heq⟩ := List.mem_map.mp hm
            rcases List.mem_append.mp hx with hx | hx
            · exact ha x hx heq
            · exact hb x hx heq
          refine h.of_keeps (a ++ b) (by simpa using hr) (hk _ hnot) ?_ ?_
          · intro x hx
            rcases List.mem_append.mp hx with hx | hx <;> simp [hx]
          · intro x hx
            simp only [List.mem_append, List.mem_cons] at hx ⊢
            rcases hx with hx | rfl | hx
            · exact .inl (.inl hx)
            · exact .inr hi
            · exact .inl (.inr hx)
      · refine .inr ⟨?_, .invalidStructure (.wiresDiffer i.name node.instruction.name), ?_⟩
        · rintro ⟨-, old, ho, hp'⟩
          rw [h.op?_unique hop ho] at hp'
          exact hp hp'
        · simp [Call.edit, edit_map, replace_differ hval hop hp, Except.map]

theorem obeys (h : Holds n m d es) (c : Call R) (hc : c.ClbitsDistinct) : Obeys n m d es c := by
  cases c with
  | append i => exact obeys_append h (Call.clbitsDistinct_append.mp hc)
  | remove id => exact obeys_remove h id
  | substitute id is => exact obeys_substitute h id hc
  | replace id i => exact obeys_replace h id (Call.clbitsDistinct_replace.mp hc)

/-- One call keeps graph and list together. -/
theorem holds_step (h : Holds n m d es) {c : Call R} (hc : c.ClbitsDistinct) :
    Holds n m (step (d, es) c).1 (step (d, es) c).2 := by
  rcases obeys h c hc with ⟨-, created, e, he, hh⟩ | ⟨-, x, he⟩
  · simpa [step, he] using hh
  · simpa [step, he] using h

/-- A run of calls keeps graph and list together. -/
theorem holds_foldl (h : Holds n m d es) (cs : List (Call R)) (hcs : ∀ c ∈ cs, c.ClbitsDistinct) :
    Holds n m (cs.foldl step (d, es)).1 (cs.foldl step (d, es)).2 := by
  induction cs generalizing d es with
  | nil => exact h
  | cons c cs ih =>
    rw [List.foldl_cons]
    exact ih (holds_step h (hcs c (by simp))) fun c' hc' => hcs c' (by simp [hc'])

theorem Holds.linearize_eq (h : Holds n m d es) : d.linearize = .ok (es.map (·.2)) := by
  have ht := h.represents.topologicalOps_eq rfl h.instruction?
  rw [linearize, ht]
  rfl

end Spec

/-! ## Runs -/

theorem holds_run [Scalar R] {n m : Nat} {cs : List (Call R)} (hcs : ∀ c ∈ cs, c.ClbitsDistinct) :
    Holds n m (run n m cs).1 (run n m cs).2 :=
  holds_foldl (holds_empty n m) cs hcs

/-- Instructions appended one after another go to the end of the list. -/
theorem holds_appends {n m : Nat} (is : List (Instruction R)) {d e : Dag R} {es : Entries R}
    (h : Holds n m d es) (hc : ∀ i ∈ is, i.clbits.Nodup)
    (he : is.foldlM (fun d i => (d.append i).map (·.2)) d = .ok e) :
    ∃ es', Holds n m e es' ∧ es'.map (·.2) = es.map (·.2) ++ is := by
  induction is generalizing d es with
  | nil =>
    obtain rfl := Except.ok.inj he
    exact ⟨es, h, by simp⟩
  | cons i is ih =>
    rw [List.foldlM_cons, Outcome.bind_eq_ok] at he
    obtain ⟨f, hf, he⟩ := he
    obtain ⟨⟨id, f'⟩, hp, rfl⟩ := Outcome.map_eq_ok.mp hf
    have hs := holds_step h (Call.clbitsDistinct_append.mpr (hc i (by simp)))
    have hstep : step (d, es) (.append i) = (f', es ++ [(id, i)]) := by
      simp only [append, edited] at hp
      split at hp
      · rename_i a d' hedit
        cases hp
        simp [step, Call.edit, edit_map, hedit, Except.map, Call.onList, Call.entries]
      · cases hp
    rw [hstep] at hs
    obtain ⟨es', hh, hes⟩ := ih hs (fun j hj => hc j (by simp [hj])) he
    exact ⟨es', hh, by simpa using hes⟩

theorem exists_appends {n m : Nat} (is : List (Instruction R)) {d : Dag R} {es : Entries R}
    (h : Holds n m d es) (hc : ∀ i ∈ is, i.clbits.Nodup)
    (hv : ∀ i ∈ is, i.validate n m = .ok ()) :
    ∃ e, is.foldlM (fun d i => (d.append i).map (·.2)) d = .ok e := by
  induction is generalizing d es with
  | nil => exact ⟨d, rfl⟩
  | cons i is ih =>
    have hvi : i.validate d.numQubits d.numClbits = .ok () := by
      rw [h.numQubits, h.numClbits]
      exact hv i (by simp)
    obtain ⟨id, f, hf, -⟩ := append_accepted h.represents hvi (hc i (by simp))
    have hs := holds_step h (Call.clbitsDistinct_append.mpr (hc i (by simp)))
    have hstep : step (d, es) (.append i) = (f, es ++ [(id, i)]) := by
      simp [step, Call.edit, edit_map, hf, Except.map, Call.onList, Call.entries]
    rw [hstep] at hs
    obtain ⟨e, he⟩ := ih hs (fun j hj => hc j (by simp [hj])) (fun j hj => hv j (by simp [hj]))
    refine ⟨e, ?_⟩
    rw [List.foldlM_cons, Outcome.bind_eq_ok]
    exact ⟨f, by simp [append, edited, hf, Except.map], he⟩

/-- A dependency graph is a list of instructions. After every run of calls it reads as the list that
the calls give on lists; from there the next call is done exactly when the list accepts it, and one
that fails changes nothing. A graph built from a sequence reads as the sequence. -/
theorem linearize_run [Scalar R] (numQubits numClbits : Nat) (cs : List (Call R))
    (hcs : ∀ c ∈ cs, c.ClbitsDistinct) :
    (run numQubits numClbits cs).1.topologicalOps = .ok (run numQubits numClbits cs).2 ∧
    (run numQubits numClbits cs).1.linearize =
      .ok ((run numQubits numClbits cs).2.map (·.2)) ∧
    (∀ c : Call R, c.ClbitsDistinct →
      (c.Accepts numQubits numClbits (run numQubits numClbits cs).2 →
        ∃ created d, (run numQubits numClbits cs).1.edit c.edit = (.ok created, d)) ∧
      (¬ c.Accepts numQubits numClbits (run numQubits numClbits cs).2 →
        ∃ e, (run numQubits numClbits cs).1.edit c.edit =
          (.error e, (run numQubits numClbits cs).1))) ∧
    ∀ is : List (Instruction R), (∀ i ∈ is, i.clbits.Nodup) →
      (∀ d, ofInstructions numQubits numClbits is = .ok d → d.linearize = .ok is) ∧
      ((∀ i ∈ is, i.validate numQubits numClbits = .ok ()) →
        ∃ d, ofInstructions numQubits numClbits is = .ok d) := by
  have h := holds_run (n := numQubits) (m := numClbits) hcs
  refine ⟨h.represents.topologicalOps_eq rfl h.instruction?, h.linearize_eq, ?_, ?_⟩
  · intro c hc
    rcases obeys h c hc with ⟨hyes, created, e, he, -⟩ | ⟨hno, x, he⟩
    · exact ⟨fun _ => ⟨created, e, he⟩, fun hn => absurd hyes hn⟩
    · exact ⟨fun hy => absurd hy hno, fun _ => ⟨x, he⟩⟩
  · intro is hc
    constructor
    · intro d hd
      obtain ⟨es, hh, hes⟩ := holds_appends is (holds_empty numQubits numClbits) hc hd
      rw [hh.linearize_eq, hes]
      rfl
    · intro hv
      exact exists_appends is (holds_empty numQubits numClbits) hc hv

/-- The graphs that calls and changes of the phase lead to. No instruction names a classical bit twice:
such an instruction depends on itself, and no order exists from then on. -/
inductive Reachable [Scalar R] : Dag R → Prop
  /-- The graph without operations. -/
  | empty (numQubits numClbits : Nat) : Reachable (Dag.empty numQubits numClbits)
  /-- The graph that a call leaves, done or not. -/
  | call {d : Dag R} (h : Reachable d) (c : Call R) (hc : c.ClbitsDistinct) :
    Reachable (d.edit c.edit).2
  /-- The graph with another phase. -/
  | phase {d : Dag R} (h : Reachable d) (phase : R) : Reachable { d with phase := phase }

theorem Reachable.holds [Scalar R] {d : Dag R} (h : Reachable d) :
    ∃ n m es, Holds n m d es := by
  induction h with
  | empty n m => exact ⟨n, m, [], holds_empty n m⟩
  | call h c hc ih =>
    obtain ⟨n, m, es, hh⟩ := ih
    rcases obeys hh c hc with ⟨-, created, e, he, hn⟩ | ⟨-, x, he⟩
    · exact ⟨n, m, c.onList created es, by rw [he]; exact hn⟩
    · exact ⟨n, m, es, by rw [he]; exact hh⟩
  | phase h p ih =>
    obtain ⟨n, m, es, hh⟩ := ih
    have hl := hh.represents.toListed
    exact ⟨n, m, es, ⟨⟨⟨hl.nodup, hl.mem_iff, hl.ordered, hl.counted, hl.operands, hl.free_nodup,
      hl.free_empty⟩, hh.represents.threaded⟩, hh.instruction?, hh.numQubits, hh.numClbits⟩⟩

theorem Reachable.represents [Scalar R] {d : Dag R} (h : Reachable d) :
    ∃ ids, Represents d ids := by
  obtain ⟨n, m, es, hh⟩ := h.holds
  exact ⟨_, hh.represents⟩

theorem Reachable.foldl_step [Scalar R] {d : Dag R} (h : Reachable d) (es : Entries R)
    {cs : List (Call R)} (hcs : ∀ c ∈ cs, c.ClbitsDistinct) :
    Reachable (cs.foldl step (d, es)).1 := by
  induction cs generalizing d es with
  | nil => exact h
  | cons c cs ih =>
    have hstep : (step (d, es) c).1 = (d.edit c.edit).2 := by
      simp only [step]
      split <;> simp_all
    rw [List.foldl_cons]
    exact ih (hstep ▸ h.call c (hcs c (by simp))) _ fun c' hc' => hcs c' (by simp [hc'])

/-- A run of calls leads to a reachable graph. -/
theorem Reachable.run [Scalar R] (numQubits numClbits : Nat) {cs : List (Call R)}
    (hcs : ∀ c ∈ cs, c.ClbitsDistinct) : Reachable (Dag.run numQubits numClbits cs).1 :=
  (Reachable.empty numQubits numClbits).foldl_step [] hcs

/-- A measurement with the operation before it replaced twice over, and a node that is not there. -/
def nestedCalls : List (Call Float) :=
  [.append (.reset 0), .append (.measure 0 0), .substitute 0 [.reset 0, .delay 0 5],
    .substitute 0 [.delay 0 7, .reset 0], .remove 9]

theorem linearize_nestedCalls : (∀ c ∈ nestedCalls, c.ClbitsDistinct) ∧
    (run 1 1 nestedCalls).1.linearize =
      .ok [.delay 0 7, .reset 0, .delay 0 5, .measure 0 0] := by
  have hd : ∀ c ∈ nestedCalls, c.ClbitsDistinct := by
    simp [nestedCalls, Call.ClbitsDistinct, Call.instructions, Instruction.reset,
      Instruction.measure, Instruction.delay]
  exact ⟨hd, (linearize_run 1 1 nestedCalls hd).2.1⟩

end QuantumCompiler.Dag
