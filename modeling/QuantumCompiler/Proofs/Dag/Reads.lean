import QuantumCompiler.Proofs.Dag.Structure

/-!
# Graphs that passes work on

A pass changes a graph by removing, replacing and exchanging operations, and counts on each of these
to be done. `Reads d es` says that the graph was reached by calls, that it reads as the list `es`, and
that every instruction of the list passes the check of its register. Each change of such a graph is
done as soon as the list has the node and the new instructions are acceptable, and it leaves the
register and the phase alone.
-/
namespace QuantumCompiler.Dag

variable {R : Type}

/-! ## The phase under changes -/

section Phase

variable {α β : Type}

theorem edited_eq_ok {d e : Dag R} {f : Edit R α} {a : α} :
    d.edited f = .ok (a, e) ↔ d.edit f = (.ok a, e) := by
  rw [edited]
  generalize d.edit f = r
  obtain ⟨x | x, d'⟩ := r <;> simp

/-- What a change finds first is the graph. -/
theorem phase_get {d : Dag R} {f : Dag R → Edit R α} (h : (d.edit (f d)).2.phase = d.phase) :
    (d.edit (get >>= f)).2.phase = d.phase := by
  rw [edit_bind, edit_get]
  exact h

theorem phase_set {d e : Dag R} {f : PUnit → Edit R α} (he : e.phase = d.phase)
    (h : (e.edit (f ⟨⟩)).2.phase = e.phase) : (d.edit (set e >>= f)).2.phase = d.phase := by
  rw [edit_bind, edit_set]
  exact h.trans he

theorem phase_liftExcept {d : Dag R} {x : Except CircuitError β} {f : β → Edit R α}
    (h : ∀ b, (d.edit (f b)).2.phase = d.phase) :
    (d.edit (liftExcept x >>= f)).2.phase = d.phase := by
  rw [edit_bind, edit_liftExcept]
  cases x with
  | error e => rfl
  | ok b => exact h b

theorem phase_close (d : Dag R) (gaps : List Gap) : (d.close gaps).phase = d.phase := by
  induction gaps generalizing d with
  | nil => rfl
  | cons g gaps ih => exact ih _

theorem phase_foldl_tie (id : Nat) (ws : List Wire) (s : Dag R × List Gap) :
    (ws.foldl (tie id) s).1.phase = s.1.phase := by
  induction ws generalizing s with
  | nil => rfl
  | cons w ws ih =>
    rw [List.foldl_cons, ih, tie]
    split <;> rfl

theorem phase_fill (p : List Nat) (k : Nat) (is : List (Instruction R)) (s : Dag R × List Gap) :
    (fill p k is s).2.1.phase = s.1.phase := by
  induction is generalizing k s with
  | nil => rfl
  | cons i is ih =>
    obtain ⟨d, gaps⟩ := s
    exact ((ih (k + 1) _).trans (phase_foldl_tie _ _ _)).trans (phase_addNode d _)

theorem phase_extend (d : Dag R) (id : Nat) (ws : List Wire) :
    (d.edit (ws.forM (Edit.extend id))).2.phase = d.phase := by
  induction ws generalizing d with
  | nil => rfl
  | cons w ws ih =>
    have hone : (d.edit (Edit.extend id w)).2.phase = d.phase := by
      refine phase_get ?_
      split
      · rfl
      · split <;> rfl
    change (d.edit (Edit.extend id w >>= fun _ => ws.forM (Edit.extend id))).2.phase = _
    rw [edit_bind]
    generalize d.edit (Edit.extend id w) = r at hone ⊢
    obtain ⟨x | x, e⟩ := r
    · exact hone
    · exact (ih e).trans hone

/-- No call touches the phase. -/
theorem phase_edit (d : Dag R) (c : Call R) : (d.edit c.edit).2.phase = d.phase := by
  cases c with
  | append i =>
    rw [Call.edit, bind_pure_comp, edit_map]
    refine phase_get (phase_liftExcept fun _ => phase_set (phase_addNode _ _) ?_)
    rw [bind_pure_comp, edit_map]
    exact phase_extend _ _ _
  | remove id =>
    rw [Call.edit, bind_pure_comp, edit_map]
    refine phase_get ?_
    split
    · rfl
    · exact phase_liftExcept fun gaps => phase_set (phase_close _ _) rfl
  | substitute id is =>
    refine phase_get ?_
    split
    · rfl
    · split
      · rfl
      · exact phase_liftExcept fun _ => phase_liftExcept fun gaps =>
          phase_set ((phase_close _ _).trans (phase_fill _ _ _ _)) rfl
  | replace id i =>
    rw [Call.edit, bind_pure_comp, edit_map]
    refine phase_get (phase_liftExcept fun _ => ?_)
    split
    · rfl
    · split <;> rfl

end Phase

/-! ## Instructions that pass the check -/

theorem map_snd_entries (created : List Nat) (is : List (Instruction R)) :
    (Call.entries created is).map (·.2) = is := by
  simp only [Call.entries, List.mapIdx_eq_zipIdx_map, List.map_map]
  exact List.zipIdx_map_fst 0 is

/-- A call that is done keeps the check of every instruction. -/
theorem validate_onList {n m : Nat} {es : Entries R} {c : Call R}
    (hv : ∀ e ∈ es, e.2.validate n m = .ok ()) (hc : c.Accepts n m es) (created : List Nat) :
    ∀ e ∈ c.onList created es, e.2.validate n m = .ok () := by
  have hnew (is : List (Instruction R)) (his : ∀ i ∈ is, i.validate n m = .ok ()) :
      ∀ e ∈ Call.entries created is, e.2.validate n m = .ok () := by
    intro e he
    apply his
    rw [← map_snd_entries created is]
    exact List.mem_map_of_mem he
  intro e he
  cases c with
  | append i =>
    rcases List.mem_append.mp he with he | he
    · exact hv e he
    · exact hnew [i] (by simpa [Call.Accepts] using hc) e he
  | remove id => exact hv e (List.mem_of_mem_filter he)
  | substitute id is =>
    obtain ⟨-, old, -, his⟩ := hc
    obtain ⟨x, hx, hxe⟩ := List.mem_flatMap.mp he
    split at hxe
    · exact hnew is (fun i hi => (his i hi).1) e hxe
    · exact List.mem_singleton.mp hxe ▸ hv x hx
  | replace id i =>
    obtain ⟨x, hx, rfl⟩ := List.mem_map.mp he
    split
    · exact hc.1
    · exact hv x hx

theorem Holds.withPhase {n m : Nat} {d : Dag R} {es : Entries R} (h : Holds n m d es) (phase : R) :
    Holds n m { d with phase := phase } es := by
  have hl := h.represents.toListed
  exact ⟨⟨⟨hl.nodup, hl.mem_iff, hl.ordered, hl.counted, hl.operands, hl.free_nodup,
    hl.free_empty⟩, h.represents.threaded⟩, h.instruction?, h.numQubits, h.numClbits⟩

/-- A graph over the same register and with the same phase. -/
structure SameFrame (d e : Dag R) : Prop where
  numQubits : e.numQubits = d.numQubits
  numClbits : e.numClbits = d.numClbits
  phase : e.phase = d.phase

theorem SameFrame.trans {d e f : Dag R} (h : SameFrame d e) (g : SameFrame e f) : SameFrame d f :=
  ⟨g.numQubits.trans h.numQubits, g.numClbits.trans h.numClbits, g.phase.trans h.phase⟩

variable [Scalar R]

/-- A reachable graph, its list of instructions with their nodes, and the check of each. -/
structure Reads (d : Dag R) (es : Entries R) : Prop where
  reachable : d.Reachable
  holds : Holds d.numQubits d.numClbits d es
  valid : ∀ e ∈ es, e.2.validate d.numQubits d.numClbits = .ok ()

theorem Reachable.exists_reads {d : Dag R} (h : d.Reachable) : ∃ es, Reads d es := by
  suffices hs : ∃ n m es, Holds n m d es ∧ ∀ e ∈ es, e.2.validate n m = .ok () by
    obtain ⟨n, m, es, hh, hv⟩ := hs
    obtain rfl := hh.numQubits
    obtain rfl := hh.numClbits
    exact ⟨es, h, hh, hv⟩
  induction h with
  | empty n m => exact ⟨n, m, [], holds_empty n m, by simp⟩
  | call _ c hc ih =>
    obtain ⟨n, m, es, hh, hv⟩ := ih
    rcases obeys hh c hc with ⟨hacc, created, e, he, hn⟩ | ⟨-, x, he⟩
    · refine ⟨n, m, c.onList created es, ?_, validate_onList hv hacc created⟩
      rw [he]
      exact hn
    · refine ⟨n, m, es, ?_, hv⟩
      rw [he]
      exact hh
  | phase _ p ih =>
    obtain ⟨n, m, es, hh, hv⟩ := ih
    exact ⟨n, m, es, hh.withPhase p, hv⟩

namespace Reads

variable {d : Dag R} {es a b : Entries R} {id : Nat} {i : Instruction R}

theorem topologicalOps_eq (h : Reads d es) : d.topologicalOps = .ok es :=
  h.holds.represents.topologicalOps_eq rfl h.holds.instruction?

theorem topologicalNodes_eq (h : Reads d es) : d.topologicalNodes = .ok (es.map (·.1)) :=
  h.holds.represents.topologicalNodes_eq

theorem linearize_eq (h : Reads d es) : d.linearize = .ok (es.map (·.2)) := h.holds.linearize_eq

theorem numOps_eq (h : Reads d es) : d.numOps = es.length := by
  rw [h.holds.represents.numOps_eq, List.length_map]

/-- A graph has one list. -/
theorem unique {es' : Entries R} (h : Reads d es) (h' : Reads d es') : es = es' :=
  Except.ok.inj (h.topologicalOps_eq.symm.trans h'.topologicalOps_eq)

theorem nodup (h : Reads d es) : (es.map (·.1)).Nodup := h.holds.represents.nodup

theorem mem_iff (h : Reads d es) : (id, i) ∈ es ↔ d.instruction? id = some i := by
  constructor
  · exact h.holds.instruction? (id, i)
  · intro hi
    obtain ⟨node, hop, rfl⟩ := op?_of_instruction? hi
    exact h.holds.mem_of_op? hop

theorem unique_node (h : Reads d es) {x y : Nat × Instruction R} (hx : x ∈ es) (hy : y ∈ es)
    (he : x.1 = y.1) : x = y :=
  Prod.ext he (Option.some.inj ((h.mem_iff.mp hx).symm.trans (he ▸ h.mem_iff.mp hy)))

theorem nodup_wires (h : Reads d es) (hi : (id, i) ∈ es) : i.wires.Nodup :=
  (h.holds.represents.operands id i (h.mem_iff.mp hi)).1

theorem hasWire (h : Reads d es) (hi : (id, i) ∈ es) : ∀ w ∈ i.wires, d.HasWire w :=
  (h.holds.represents.operands id i (h.mem_iff.mp hi)).2

theorem nodup_clbits (h : Reads d es) (hi : (id, i) ∈ es) : i.clbits.Nodup := by
  have hn := h.nodup_wires hi
  rw [Instruction.wires, List.nodup_append] at hn
  exact hn.2.1.of_map _

theorem fits (h : Reads d es) (hi : (id, i) ∈ es) : i.Fits d.numQubits d.numClbits :=
  Instruction.fits_of_validate (h.valid _ hi)

theorem withPhase (h : Reads d es) (phase : R) : Reads { d with phase := phase } es :=
  ⟨h.reachable.phase phase, h.holds.withPhase phase, h.valid⟩

/-- A call that the list accepts is done, on graph and list alike. -/
theorem call (h : Reads d es) {c : Call R} (hc : c.ClbitsDistinct)
    (hacc : c.Accepts d.numQubits d.numClbits es) :
    ∃ created e, d.edit c.edit = (.ok created, e) ∧ Reads e (c.onList created es) ∧
      SameFrame d e := by
  rcases obeys h.holds c hc with ⟨-, created, e, he, hh⟩ | ⟨hno, -⟩
  · have hr := h.reachable.call c hc
    have hp := phase_edit d c
    rw [he] at hr hp
    have hv := validate_onList h.valid hacc created
    refine ⟨created, e, he, ⟨hr, ?_, ?_⟩, hh.numQubits, hh.numClbits, hp⟩
    · rw [hh.numQubits, hh.numClbits]
      exact hh
    · rw [hh.numQubits, hh.numClbits]
      exact hv
  · exact absurd hacc hno

/-- What a call that was done has made of the list. -/
theorem of_call (h : Reads d es) {c : Call R} (hc : c.ClbitsDistinct) {created : List Nat}
    {e : Dag R} (he : d.edit c.edit = (.ok created, e)) :
    Reads e (c.onList created es) ∧ SameFrame d e := by
  rcases obeys h.holds c hc with ⟨hacc, -⟩ | ⟨-, x, hx⟩
  · obtain ⟨created', e', he', hr, hf⟩ := h.call hc hacc
    obtain ⟨hcreated, rfl⟩ := Prod.mk.inj (he'.symm.trans he)
    exact ⟨Except.ok.inj hcreated ▸ hr, hf⟩
  · cases hx.symm.trans he

/-- What an exchange that was done has made of the list. -/
theorem of_replace (h : Reads d es) {j : Instruction R} (hc : j.clbits.Nodup) {e : Dag R}
    (he : d.replace id j = .ok e) :
    Reads e (es.map fun x => if x.1 = id then (id, j) else x) ∧ SameFrame d e := by
  obtain ⟨⟨_, e'⟩, hedit, rfl⟩ := Outcome.map_eq_ok.mp he
  have hcall : d.edit (Call.replace id j).edit = (.ok [], e') := by
    rw [Call.edit, bind_pure_comp, edit_map, edited_eq_ok.mp hedit]
    rfl
  exact h.of_call (Call.clbitsDistinct_replace.mpr hc) hcall

/-- What a removal that was done has made of the list. -/
theorem of_remove (h : Reads d es) {j : Instruction R} {e : Dag R}
    (he : d.remove id = .ok (j, e)) :
    Reads e (es.filter fun x => x.1 ≠ id) ∧ SameFrame d e := by
  have hcall : d.edit (Call.remove id).edit = (.ok [], e) := by
    rw [Call.edit, bind_pure_comp, edit_map, edited_eq_ok.mp he]
    rfl
  exact h.of_call (by simp [Call.ClbitsDistinct, Call.instructions]) hcall

theorem parted (h : Reads d (a ++ (id, i) :: b)) : (∀ e ∈ a, e.1 ≠ id) ∧ ∀ e ∈ b, e.1 ≠ id := by
  have hn := h.nodup
  rw [List.map_append, List.map_cons] at hn
  have hnot := (List.nodup_cons.mp (List.nodup_middle.mp hn)).1
  constructor
  · rintro e he rfl
    exact hnot (List.mem_append_left _ (List.mem_map_of_mem (f := (·.1)) he))
  · rintro e he rfl
    exact hnot (List.mem_append_right _ (List.mem_map_of_mem (f := (·.1)) he))

/-- A node has one place in the list. -/
theorem split_unique {j : Instruction R} {a' b' : Entries R} (h : Reads d (a ++ (id, i) :: b))
    (heq : a ++ (id, i) :: b = a' ++ (id, j) :: b') : a = a' ∧ b = b' := by
  have hj : (id, j) ∈ a ++ (id, i) :: b := by
    rw [heq]
    simp
  obtain rfl : i = j := Option.some.inj ((h.mem_iff.mp (by simp)).symm.trans (h.mem_iff.mp hj))
  have ha : (id, i) ∉ a := fun hm => h.parted.1 _ hm rfl
  have hb : (id, i) ∉ b := fun hm => h.parted.2 _ hm rfl
  obtain ⟨hab, -, hbb⟩ := (List.append_cons_inj_of_notMem ha hb).mp heq
  exact ⟨hab, hbb⟩

/-- Removing an operation takes it out of the list. -/
theorem remove (h : Reads d (a ++ (id, i) :: b)) :
    ∃ j e, d.remove id = .ok (j, e) ∧ Reads e (a ++ b) ∧ SameFrame d e := by
  obtain ⟨created, e, he, hr, hf⟩ := h.call (c := .remove id)
    (by simp [Call.ClbitsDistinct, Call.instructions]) ⟨i, by simp⟩
  rw [onList_remove h.parted.1 h.parted.2] at hr
  rw [Call.edit, bind_pure_comp, edit_map, Prod.mk.injEq] at he
  obtain ⟨j, hj, -⟩ := Outcome.map_eq_ok.mp he.1
  exact ⟨j, e, edited_eq_ok.mpr (Prod.ext hj he.2), hr, hf⟩

/-- Exchanging an instruction exchanges it in the list. -/
theorem exchange (h : Reads d es) (hi : (id, i) ∈ es) {j : Instruction R}
    (hv : j.validate d.numQubits d.numClbits = .ok ()) (hc : j.clbits.Nodup)
    (hp : j.wires.Perm i.wires) :
    ∃ e, d.replace id j = .ok e ∧ Reads e (es.map fun x => if x.1 = id then (id, j) else x) ∧
      SameFrame d e := by
  obtain ⟨created, e, he, hr, hf⟩ := h.call (c := .replace id j)
    (Call.clbitsDistinct_replace.mpr hc) ⟨hv, i, hi, hp⟩
  rw [Call.edit, bind_pure_comp, edit_map, Prod.mk.injEq] at he
  obtain ⟨x, hx, -⟩ := Outcome.map_eq_ok.mp he.1
  refine ⟨e, ?_, hr, hf⟩
  rw [Dag.replace, edited_eq_ok.mpr (Prod.ext hx he.2)]
  rfl

/-- Exchanging an instruction puts the new one in the place of the old. -/
theorem replace (h : Reads d (a ++ (id, i) :: b)) {j : Instruction R}
    (hv : j.validate d.numQubits d.numClbits = .ok ()) (hc : j.clbits.Nodup)
    (hp : j.wires.Perm i.wires) :
    ∃ e, d.replace id j = .ok e ∧ Reads e (a ++ (id, j) :: b) ∧ SameFrame d e := by
  have hi : (id, i) ∈ a ++ (id, i) :: b := by simp
  obtain ⟨e, he, hr, hf⟩ := h.exchange hi hv hc hp
  exact ⟨e, he, onList_replace h.parted.1 h.parted.2 [] j ▸ hr, hf⟩

/-- Replacing an operation by a sequence puts the sequence in its place. -/
theorem substitute (h : Reads d (a ++ (id, i) :: b)) {is : List (Instruction R)}
    (hlen : is.length ≤ maxIndex)
    (his : ∀ j ∈ is, j.validate d.numQubits d.numClbits = .ok () ∧ ∀ w ∈ j.wires, w ∈ i.wires)
    (hc : ∀ j ∈ is, j.clbits.Nodup) :
    ∃ created e, d.substitute id is = .ok (created, e) ∧
      Reads e (a ++ Call.entries created is ++ b) ∧ SameFrame d e := by
  obtain ⟨created, e, he, hr, hf⟩ := h.call (c := .substitute id is) hc
    ⟨hlen, i, by simp, his⟩
  rw [onList_substitute h.parted.1 h.parted.2] at hr
  exact ⟨created, e, edited_eq_ok.mpr he, hr, hf⟩

/-- An acceptable instruction goes to the end of the list. -/
theorem append (h : Reads d es) (hv : i.validate d.numQubits d.numClbits = .ok ())
    (hc : i.clbits.Nodup) :
    ∃ new e, d.append i = .ok (new, e) ∧ Reads e (es ++ [(new, i)]) ∧ SameFrame d e := by
  obtain ⟨created, e, he, hr, hf⟩ := h.call (c := .append i)
    (Call.clbitsDistinct_append.mpr hc) hv
  rw [Call.edit, bind_pure_comp, edit_map, Prod.mk.injEq] at he
  obtain ⟨new, hn, hcr⟩ := Outcome.map_eq_ok.mp he.1
  subst hcr
  exact ⟨new, e, edited_eq_ok.mpr (Prod.ext hn he.2), hr, hf⟩

theorem touches_iff (h : Reads d es) {w : Wire} {x : Nat × Instruction R} (hx : x ∈ es) :
    d.touches w x.1 = true ↔ w ∈ x.2.wires := by
  rw [touches_eq_true, h.holds.instruction? x hx]
  simp

/-- Where nothing between two operations is on a wire of both, the second is the next one on it. -/
theorem nextOp?_of_split {next : Nat} {j : Instruction R} {c : Entries R} {w : Wire}
    (h : Reads d (a ++ (id, i) :: (b ++ (next, j) :: c))) (hi : w ∈ i.wires) (hj : w ∈ j.wires)
    (hb : ∀ e ∈ b, w ∉ e.2.wires) : d.nextOp? (.op id) w = some next := by
  have hfirst : d.touches w id = true := (h.touches_iff (x := (id, i)) (by simp)).mpr hi
  have hnext : d.touches w next = true := (h.touches_iff (x := (next, j)) (by simp)).mpr hj
  have hbetween : (b.map (·.1)).filter (d.touches w) = [] := by
    rw [List.filter_eq_nil_iff, List.forall_mem_map]
    intro x hx ht
    exact hb x hx ((h.touches_iff (by simp [hx])).mp ht)
  have hmem : (id, i) ∈ a ++ (id, i) :: (b ++ (next, j) :: c) := by simp
  refine Option.bind_eq_some_iff.mpr ⟨.op next, h.holds.represents.successor?_eq_some.mpr
    ⟨h.hasWire hmem w hi, ?_⟩, rfl⟩
  rw [mem_linksOf]
  refine ⟨.input w :: ((a.map (·.1)).filter (d.touches w)).map .op,
    ((c.map (·.1)).filter (d.touches w)).map .op ++ [.output w], ?_⟩
  simp [points, hbetween, hfirst, hnext]

/-- The next operation on a wire: nothing between the two is on it. -/
theorem split_of_nextOp? (h : Reads d es) {w : Wire} {next : Nat}
    (hn : d.nextOp? (.op id) w = some next) :
    ∃ i j a b c, es = a ++ (id, i) :: (b ++ (next, j) :: c) ∧ w ∈ j.wires ∧
      ∀ e ∈ b, w ∉ e.2.wires := by
  obtain ⟨n, hs, hop⟩ := Option.bind_eq_some_iff.mp hn
  rw [op?_eq_some.mp hop, h.holds.represents.successor?_eq_some] at hs
  obtain ⟨before, after, hp⟩ := mem_linksOf.mp hs.2
  rw [points_eq] at hp
  have hf := op_mem_path rfl hp
  generalize before.filterMap Node.op? = pre at hf
  generalize after.filterMap Node.op? = post at hf
  have htouch : ∀ e ∈ es, d.touches w e.1 = true ↔ w ∈ e.2.wires := fun e he => h.touches_iff he
  rw [List.filter_map, List.map_eq_append_iff] at hf
  obtain ⟨es₁, es₂, hes, -, hf⟩ := hf
  obtain ⟨⟨_, i⟩, es₃, rfl, rfl, hf'⟩ := List.map_eq_cons_iff.mp hf
  obtain ⟨⟨_, j⟩, es₄, rfl, rfl, -⟩ := List.map_eq_cons_iff.mp hf'
  obtain ⟨a, rest, rfl, -, hrest⟩ := List.filter_eq_append_iff.mp hes
  obtain ⟨a', rest', rfl, -, -, hrest'⟩ := List.filter_eq_cons_iff.mp hrest
  obtain ⟨b, c, rfl, hb, hj, -⟩ := List.filter_eq_cons_iff.mp hrest'
  refine ⟨i, j, a ++ a', b, c, by simp, (htouch _ (by simp)).mp hj, ?_⟩
  intro e he hw
  exact hb e he ((htouch e (by simp [he])).mpr hw)

/-- Acceptable instructions go to the end of the list one after another. -/
theorem appends (is : List (Instruction R)) (h : Reads d es)
    (hv : ∀ i ∈ is, i.validate d.numQubits d.numClbits = .ok ()) (hc : ∀ i ∈ is, i.clbits.Nodup) :
    ∃ e new, is.foldlM (fun d i => (d.append i).map (·.2)) d = .ok e ∧ Reads e (es ++ new) ∧
      new.map (·.2) = is ∧ SameFrame d e := by
  induction is generalizing d es with
  | nil => exact ⟨d, [], rfl, by simpa using h, rfl, rfl, rfl, rfl⟩
  | cons i is ih =>
    obtain ⟨id, f, hf, hr, hs⟩ := h.append (hv i (by simp)) (hc i (by simp))
    obtain ⟨e, new, he, hre, hnew, hse⟩ := ih hr
      (fun j hj => by
        rw [hs.numQubits, hs.numClbits]
        exact hv j (by simp [hj]))
      (fun j hj => hc j (by simp [hj]))
    refine ⟨e, (id, i) :: new, ?_, by simpa using hre, by simp [hnew], hs.trans hse⟩
    rw [List.foldlM_cons, hf]
    exact he

/-- Instructions that were all appended are at the end of the list. -/
theorem of_appends (is : List (Instruction R)) (h : Reads d es) (hc : ∀ i ∈ is, i.clbits.Nodup)
    {e : Dag R} (he : is.foldlM (fun d i => (d.append i).map (·.2)) d = .ok e) :
    ∃ new, Reads e (es ++ new) ∧ new.map (·.2) = is ∧ SameFrame d e := by
  induction is generalizing d es with
  | nil =>
    obtain rfl := Except.ok.inj he
    exact ⟨[], by simpa using h, rfl, rfl, rfl, rfl⟩
  | cons i is ih =>
    rw [List.foldlM_cons, Outcome.bind_eq_ok] at he
    obtain ⟨f, hf, he⟩ := he
    obtain ⟨⟨id, f'⟩, hp, rfl⟩ := Outcome.map_eq_ok.mp hf
    have hcall : d.edit (Call.append i).edit = (.ok [id], f') := by
      rw [Call.edit, bind_pure_comp, edit_map, edited_eq_ok.mp hp]
      rfl
    obtain ⟨hr, hf'⟩ := h.of_call (Call.clbitsDistinct_append.mpr (hc i (by simp))) hcall
    obtain ⟨new, hr', hnew, hs⟩ := ih hr (fun j hj => hc j (by simp [hj])) he
    exact ⟨(id, i) :: new, by simpa [Call.onList, Call.entries] using hr', by simp [hnew],
      hf'.trans hs⟩

end Reads

theorem reads_empty (numQubits numClbits : Nat) :
    Reads (empty numQubits numClbits : Dag R) [] := by
  have hh := holds_empty (R := R) numQubits numClbits
  refine ⟨.empty _ _, ?_, by simp⟩
  rw [hh.numQubits, hh.numClbits]
  exact hh

/-- Acceptable instructions make a graph that reads as their list. -/
theorem exists_reads_ofInstructions (numQubits numClbits : Nat) (is : List (Instruction R))
    (hv : ∀ i ∈ is, i.validate numQubits numClbits = .ok ()) (hc : ∀ i ∈ is, i.clbits.Nodup) :
    ∃ d es, ofInstructions numQubits numClbits is = .ok d ∧ d.Reads es ∧ es.map (·.2) = is ∧
      d.numQubits = numQubits ∧ d.numClbits = numClbits := by
  have hh := holds_empty (R := R) numQubits numClbits
  obtain ⟨d, es, hd, hr, hes, hf⟩ := (reads_empty numQubits numClbits).appends is
    (by rwa [hh.numQubits, hh.numClbits]) hc
  exact ⟨d, es, hd, hr, hes, hf.numQubits.trans hh.numQubits, hf.numClbits.trans hh.numClbits⟩

/-- A graph of instructions none of which names a classical bit twice reads as their list. -/
theorem reads_of_ofInstructions {numQubits numClbits : Nat} {is : List (Instruction R)} {d : Dag R}
    (hc : ∀ i ∈ is, i.clbits.Nodup) (h : ofInstructions numQubits numClbits is = .ok d) :
    ∃ es, d.Reads es ∧ es.map (·.2) = is ∧ d.numQubits = numQubits := by
  obtain ⟨es, hr, hes, hf⟩ := (reads_empty numQubits numClbits).of_appends is hc h
  exact ⟨es, hr, hes, hf.numQubits.trans (holds_empty (R := R) numQubits numClbits).numQubits⟩

/-! ## Properties of all instructions -/

/-- A reachable graph whose instructions all have a property. -/
structure HasOnly (d : Dag R) (P : Instruction R → Prop) : Prop where
  reachable : d.Reachable
  all : ∀ id i, d.instruction? id = some i → P i

section HasOnly

variable {d : Dag R} {es : Entries R} {P Q : Instruction R → Prop}

theorem Reads.hasOnly_iff (h : d.Reads es) : d.HasOnly P ↔ ∀ i ∈ es.map (·.2), P i := by
  constructor
  · intro hp i hi
    obtain ⟨x, hx, rfl⟩ := List.mem_map.mp hi
    exact hp.all x.1 x.2 (h.mem_iff.mp hx)
  · exact fun hp => ⟨h.reachable, fun id i hi => hp i (List.mem_map_of_mem (h.mem_iff.mpr hi))⟩

theorem HasOnly.imp (h : d.HasOnly P) (hpq : ∀ i, P i → Q i) : d.HasOnly Q :=
  ⟨h.reachable, fun id i hi => hpq i (h.all id i hi)⟩

theorem HasOnly.setPhase (h : d.HasOnly P) (phase : R) : (d.setPhase phase).HasOnly P :=
  ⟨h.reachable.phase _, h.all⟩

/-- What is exchanged has the property if what comes in its place does. -/
theorem HasOnly.replace (h : d.HasOnly P) {id : Nat} {j : Instruction R} {e : Dag R} (hj : P j)
    (hc : j.clbits.Nodup) (he : d.replace id j = .ok e) : e.HasOnly P := by
  obtain ⟨es, hr⟩ := h.reachable.exists_reads
  obtain ⟨hr', -⟩ := hr.of_replace hc he
  refine hr'.hasOnly_iff.mpr fun i hi => ?_
  obtain ⟨x, hx, rfl⟩ := List.mem_map.mp hi
  obtain ⟨y, hy, rfl⟩ := List.mem_map.mp hx
  split
  · exact hj
  · exact hr.hasOnly_iff.mp h _ (List.mem_map_of_mem hy)

theorem HasOnly.remove (h : d.HasOnly P) {id : Nat} {j : Instruction R} {e : Dag R}
    (he : d.remove id = .ok (j, e)) : e.HasOnly P := by
  obtain ⟨es, hr⟩ := h.reachable.exists_reads
  obtain ⟨hr', -⟩ := hr.of_remove he
  refine hr'.hasOnly_iff.mpr fun i hi => ?_
  obtain ⟨x, hx, rfl⟩ := List.mem_map.mp hi
  exact hr.hasOnly_iff.mp h _ (List.mem_map_of_mem (List.mem_of_mem_filter hx))

end HasOnly

end QuantumCompiler.Dag
