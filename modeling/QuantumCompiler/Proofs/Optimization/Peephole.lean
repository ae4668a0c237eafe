import QuantumCompiler.Proofs.Dag.Reads
import QuantumCompiler.Proofs.Dag.Structure
import QuantumCompiler.Proofs.Numeric.Exact
import QuantumCompiler.Optimization.Peephole

/-!
# Peephole optimization as rewriting

A sweep edits the graph while it works through nodes listed before. What comes of it is a sequence of
local rewrites of the list of instructions: the follower of an operation is the next one on all its
wires, so whatever the list has between the two shares no wire with them and they can be brought
together. `Rewrites` is this relation on lists; the phases of the gates that vanish are collected along
the way.
-/
namespace QuantumCompiler

deriving instance ReflBEq, LawfulBEq for Angle
deriving instance ReflBEq, LawfulBEq for StandardGate

namespace StandardGate

variable {R : Type}

theorem angles_shape (g : StandardGate R) : g.shape.angles = g.angles.map fun _ => .const () := by
  cases g <;> rfl

/-- A gate without angles is known by its kind. -/
theorem mapAngles_shape {g : StandardGate R} (h : g.angles = []) (f : Angle Unit → Angle R) :
    g.shape.mapAngles f = g := by
  cases g <;> first | rfl | cases h

theorem angles_of_inverse? {g inv : StandardGate R} (h : g.inverse? = some inv) :
    inv.angles = [] := by
  cases g <;> cases h <;> rfl

/-- Gates cancel when the second is the inverse of the first. -/
theorem cancels_eq_true {a b : StandardGate R} : a.cancels b = true ↔ a.inverse? = some b := by
  cases h : a.inverse? with
  | none => simp [cancels, h]
  | some inv =>
    have hi := angles_of_inverse? h
    simp only [cancels, h, Option.any_some, beq_iff_eq, Option.some.injEq]
    constructor
    · intro hs
      have hb : b.angles = [] := by
        have hl := congrArg StandardGate.angles hs
        rw [angles_shape, angles_shape, hi] at hl
        exact List.map_eq_nil_iff.mp hl.symm
      rw [← mapAngles_shape hi (fun _ => .pi), hs, mapAngles_shape hb]
    · rintro rfl
      rfl

section Merge

variable [Scalar R] {a b merged : StandardGate R}

theorem name_of_merge? (h : a.merge? b = some merged) : merged.name = a.name := by
  unfold merge? at h
  split at h <;> cases h <;> rfl

theorem numQubits_of_merge? (h : a.merge? b = some merged) : merged.numQubits = a.numQubits := by
  unfold merge? at h
  split at h <;> cases h <;> rfl

end Merge

end StandardGate

namespace Peephole

variable {R : Type} [Scalar R]

/-- The second list of operands is the first, in any order if the gate does not mind. -/
def SameOperands (g : StandardGate R) (qs rs : List Qubit) : Prop :=
  rs = qs ∨ g.isSymmetric = true ∧ rs.Perm qs

/-- One local change of a sequence, with the phases it leaves behind. -/
inductive Rewrite : List (Instruction R) → List R → List (Instruction R) → Prop
  /-- Neighbours without a common wire change places. -/
  | exchange (a b : List (Instruction R)) {i j : Instruction R} (hd : ∀ w ∈ i.wires, w ∉ j.wires) :
    Rewrite (a ++ i :: j :: b) [] (a ++ j :: i :: b)
  /-- Two rotations of a kind become one. -/
  | merge (a b : List (Instruction R)) {i j : Instruction R} {g other merged : StandardGate R}
    (hi : i.standard? = some g) (hj : j.standard? = some other) (hic : i.clbits = [])
    (hjc : j.clbits = []) (ho : SameOperands g i.qubits j.qubits)
    (hm : g.merge? other = some merged) :
    Rewrite (a ++ i :: j :: b) [] (a ++ .ofStandard merged i.qubits :: b)
  /-- A gate and its inverse vanish. -/
  | cancel (a b : List (Instruction R)) {i j : Instruction R} {g other : StandardGate R}
    (hi : i.standard? = some g) (hj : j.standard? = some other) (hic : i.clbits = [])
    (hjc : j.clbits = []) (ho : SameOperands g i.qubits j.qubits)
    (hinv : g.inverse? = some other) : Rewrite (a ++ i :: j :: b) [] (a ++ b)
  /-- A gate that is the identity up to a phase vanishes and leaves the phase behind. -/
  | vanish (a b : List (Instruction R)) {i : Instruction R} {g : StandardGate R} {phase : R}
    (hi : i.standard? = some g) (hp : g.identityPhase? = some phase) :
    Rewrite (a ++ i :: b) [phase] (a ++ b)

/-- Local changes one after another, with all the phases they leave behind. -/
inductive Rewrites : List (Instruction R) → List R → List (Instruction R) → Prop
  | refl (is : List (Instruction R)) : Rewrites is [] is
  | tail {is js ks : List (Instruction R)} {ps qs : List R} (h : Rewrites is ps js)
    (hs : Rewrite js qs ks) : Rewrites is (ps ++ qs) ks

namespace Rewrites

variable {is js ks : List (Instruction R)} {ps qs : List R}

theorem trans (h : Rewrites is ps js) (h' : Rewrites js qs ks) : Rewrites is (ps ++ qs) ks := by
  induction h' with
  | refl => rwa [List.append_nil]
  | tail _ hs ih =>
    rw [← List.append_assoc]
    exact ih.tail hs

theorem head (hs : Rewrite is ps js) (h : Rewrites js qs ks) : Rewrites is (ps ++ qs) ks :=
  (Rewrites.tail (.refl is) hs).trans h

/-- What holds of every gate of a kind on its operands is kept. -/
theorem forall_mem {P : Instruction R → Prop}
    (hP : ∀ i g g', P i → i.standard? = some g → g'.name = g.name →
      g'.numQubits = g.numQubits → P (.ofStandard g' i.qubits))
    (h : Rewrites is ps js) (his : ∀ i ∈ is, P i) : ∀ j ∈ js, P j := by
  induction h with
  | refl => exact his
  | tail _ hs ih =>
    intro j hj
    cases hs with
    | exchange a b hd =>
      apply ih
      simp only [List.mem_append, List.mem_cons] at hj ⊢
      tauto
    | merge a b hi hj' hic hjc ho hm =>
      simp only [List.mem_append, List.mem_cons] at hj
      rcases hj with hj | rfl | hj
      · exact ih j (by simp [hj])
      · exact hP _ _ _ (ih _ (by simp)) hi (StandardGate.name_of_merge? hm)
          (StandardGate.numQubits_of_merge? hm)
      · exact ih j (by simp [hj])
    | cancel a b hi hj' hic hjc ho hinv =>
      apply ih
      simp only [List.mem_append, List.mem_cons] at hj ⊢
      tauto
    | vanish a b hi hp =>
      apply ih
      simp only [List.mem_append, List.mem_cons] at hj ⊢
      tauto

/-- An instruction moves to the left past others that share no wire with it. -/
theorem moveLeft (a c : List (Instruction R)) {j : Instruction R} (b : List (Instruction R))
    (hb : ∀ i ∈ b, ∀ w ∈ i.wires, w ∉ j.wires) :
    Rewrites (a ++ (b ++ j :: c)) [] (a ++ j :: (b ++ c)) := by
  induction b using List.reverseRecOn generalizing c with
  | nil => exact .refl _
  | append_singleton b x ih =>
    have hx : Rewrite (a ++ (b ++ [x] ++ j :: c)) [] (a ++ (b ++ j :: x :: c)) := by
      simpa using Rewrite.exchange (a ++ b) c (hb x (by simp))
    have hrest := ih (x :: c) fun i hi => hb i (by simp [hi])
    simpa using head hx hrest

end Rewrites

/-! ## One step -/

/-- The gates of a list act on qubits only. -/
def Bare (es : Dag.Entries R) : Prop := ∀ e ∈ es, e.2.isGate = true → e.2.clbits = []

/-- A graph and its list after local changes, which leave phases behind. -/
structure Combines (d : Dag R) (es : Dag.Entries R) (e : Dag R) (es' : Dag.Entries R)
    (phases : List R) : Prop where
  reads : e.Reads es'
  rewrites : Rewrites (es.map (·.2)) phases (es'.map (·.2))
  numQubits : e.numQubits = d.numQubits
  numClbits : e.numClbits = d.numClbits
  phase : e.phase = phases.foldl (fun p x => Scalar.remEuclid (p + x) Scalar.tau) d.phase

section Step

variable {d : Dag R} {es : Dag.Entries R} {id next : Nat} {i j : Instruction R}

/-- Nothing between an operation and its follower is on a wire of the follower. -/
theorem split_of_follower? (h : d.Reads es) (hi : (id, i) ∈ es)
    (hf : follower? d id i = some (next, j)) :
    ∃ a b c, es = a ++ (id, i) :: (b ++ (next, j) :: c) ∧
      (∀ e ∈ b, ∀ w ∈ e.2.wires, w ∉ j.wires) ∧ j.qubits.Perm i.qubits ∧ j.clbits = [] := by
  obtain ⟨first, hfirst, hf⟩ := Option.bind_eq_some_iff.mp hf
  obtain ⟨next', hnext, hf⟩ := Option.bind_eq_some_iff.mp hf
  obtain ⟨j', hj, hf⟩ := Option.bind_eq_some_iff.mp hf
  split at hf
  · rename_i hcond
    obtain ⟨rfl, rfl⟩ := Prod.mk.inj (Option.some.inj hf)
    simp only [Bool.and_eq_true, List.all_eq_true, beq_iff_eq, List.isEmpty_iff,
      List.contains_eq_mem, decide_eq_true_eq] at hcond
    obtain ⟨⟨⟨hall, hclbits⟩, hlen⟩, hsub⟩ := hcond
    have hperm : j'.qubits.Perm i.qubits :=
      (List.subperm_of_subset (h.fits (h.mem_iff.mpr hj)).distinct hsub).perm_of_length_le hlen.ge
    obtain ⟨i₁, j₁, a, b, c, rfl, -, -⟩ := h.split_of_nextOp? hnext
    obtain rfl : i₁ = i := Option.some.inj ((h.mem_iff.mp (by simp)).symm.trans (h.mem_iff.mp hi))
    obtain rfl : j₁ = j' := Option.some.inj ((h.mem_iff.mp (by simp)).symm.trans hj)
    refine ⟨a, b, c, rfl, ?_, hperm, hclbits⟩
    intro e he w hw hwj
    -- the wire leads from the operation to the follower as well, so it passes by what is between
    rcases Instruction.mem_wires.mp hwj with ⟨q, hq, rfl⟩ | ⟨k, hk, -⟩
    · obtain ⟨i₂, j₂, a₂, b₂, c₂, hes, -, hb⟩ :=
        h.split_of_nextOp? (hall q (hperm.mem_iff.mp hq))
      obtain ⟨rfl, hrest⟩ := h.split_unique hes
      have hr : d.Reads ((a ++ (id, i₁) :: b) ++ (next', j₁) :: c) := by simpa using h
      have heq : (a ++ (id, i₁) :: b) ++ (next', j₁) :: c =
          (a ++ (id, i₁) :: b₂) ++ (next', j₂) :: c₂ := by
        simpa using hrest
      have hbb : b = b₂ := by simpa using (hr.split_unique heq).1
      exact hb e (hbb ▸ he) hw
    · rw [hclbits] at hk
      cases hk
  · cases hf

omit [Scalar R] in
theorem sameOperands {g : StandardGate R} (hp : j.qubits.Perm i.qubits)
    (h : (i.qubits == j.qubits || g.isSymmetric) = true) :
    SameOperands g i.qubits j.qubits := by
  rcases Bool.or_eq_true_iff.mp h with h | h
  · exact .inl (eq_of_beq h).symm
  · exact .inr ⟨h, hp⟩

theorem combines_removeIdentity {a b : Dag.Entries R} (h : d.Reads (a ++ (id, i) :: b))
    {g : StandardGate R} {phase : R} (hg : i.standard? = some g)
    (hp : g.identityPhase? = some phase) :
    ∃ e, removeIdentity d id phase = .ok e ∧
      Combines d (a ++ (id, i) :: b) e (a ++ b) [phase] := by
  obtain ⟨x, e, he, hr, hf⟩ := h.remove
  refine ⟨e.addPhase phase, ?_, ⟨hr.withPhase _, ?_, hf.numQubits, hf.numClbits, ?_⟩⟩
  · rw [removeIdentity, he]
    rfl
  · simpa using (Rewrites.refl _).tail
      (Rewrite.vanish (a.map (·.2)) (b.map (·.2)) hg hp)
  · rw [List.foldl_cons, List.foldl_nil, ← hf.phase]
    rfl

section Pair

variable {a b c : Dag.Entries R} {g other : StandardGate R}

/-- Past what is between them, a pair can be brought together and rewritten there. -/
theorem rewrites_pair (id next : Nat) {ps : List R} {ks : List (Instruction R)}
    (hb : ∀ e ∈ b, ∀ w ∈ e.2.wires, w ∉ j.wires)
    (hr : Rewrite (a.map (·.2) ++ i :: j :: (b ++ c).map (·.2)) ps ks) :
    Rewrites ((a ++ (id, i) :: (b ++ (next, j) :: c)).map (·.2)) ps ks := by
  have hmove := Rewrites.moveLeft (a.map (·.2) ++ [i]) (c.map (·.2)) (j := j) (b.map (·.2))
    (by simpa using fun k n hm => hb (n, k) hm)
  have hlist : (a ++ (id, i) :: (b ++ (next, j) :: c)).map (·.2) =
      a.map (·.2) ++ [i] ++ (b.map (·.2) ++ j :: c.map (·.2)) := by simp
  rw [hlist]
  exact hmove.tail (by simpa using hr)

theorem combines_mergeInto (h : d.Reads (a ++ (id, i) :: (b ++ (next, j) :: c)))
    (hb : ∀ e ∈ b, ∀ w ∈ e.2.wires, w ∉ j.wires) (hi : i.standard? = some g)
    (hj : j.standard? = some other) (hic : i.clbits = []) (hjc : j.clbits = [])
    (ho : SameOperands g i.qubits j.qubits) {merged : StandardGate R}
    (hm : g.merge? other = some merged) :
    ∃ e, mergeInto d id next i merged = .ok e ∧
      Combines d (a ++ (id, i) :: (b ++ (next, j) :: c)) e
        (a ++ (id, .ofStandard merged i.qubits) :: (b ++ c)) [] := by
  have hv := Instruction.validate_ofStandard (h.valid (id, i) (by simp)) hi
    (StandardGate.numQubits_of_merge? hm)
  obtain ⟨e, he, hr, hf⟩ := h.replace hv (by simp [Instruction.ofStandard, Instruction.ofGate])
    (by simp [Instruction.wires, Instruction.ofStandard, Instruction.ofGate, hic])
  rw [← List.cons_append, ← List.append_assoc] at hr
  obtain ⟨x, e', he', hr', hf'⟩ := hr.remove
  refine ⟨e', ?_, ⟨by simpa using hr', ?_, (hf.trans hf').numQubits, (hf.trans hf').numClbits,
    (hf.trans hf').phase⟩⟩
  · rw [mergeInto, he]
    change (Compile.ofCircuit (e.remove next) >>= _) = _
    rw [he']
    rfl
  · have hs := Rewrite.merge (a.map (·.2)) ((b ++ c).map (·.2)) hi hj hic hjc ho hm
    simpa using rewrites_pair id next hb hs

theorem combines_removePair (h : d.Reads (a ++ (id, i) :: (b ++ (next, j) :: c)))
    (hb : ∀ e ∈ b, ∀ w ∈ e.2.wires, w ∉ j.wires) (hi : i.standard? = some g)
    (hj : j.standard? = some other) (hic : i.clbits = []) (hjc : j.clbits = [])
    (ho : SameOperands g i.qubits j.qubits) (hinv : g.inverse? = some other) :
    ∃ e, removePair d id next = .ok e ∧
      Combines d (a ++ (id, i) :: (b ++ (next, j) :: c)) e (a ++ (b ++ c)) [] := by
  have h' : d.Reads ((a ++ (id, i) :: b) ++ (next, j) :: c) := by simpa using h
  obtain ⟨x, e, he, hr, hf⟩ := h'.remove
  rw [List.append_assoc, List.cons_append] at hr
  obtain ⟨y, e', he', hr', hf'⟩ := hr.remove
  refine ⟨e', ?_, ⟨hr', ?_, (hf.trans hf').numQubits, (hf.trans hf').numClbits,
    (hf.trans hf').phase⟩⟩
  · rw [removePair, he]
    change (Compile.ofCircuit (e.remove id) >>= _) = _
    rw [he']
    rfl
  · have hs := Rewrite.cancel (a.map (·.2)) ((b ++ c).map (·.2)) hi hj hic hjc ho hinv
    simpa using rewrites_pair id next hb hs

end Pair

/-- A step that applies is done, and it is a local change that makes the list shorter. -/
theorem combines_step (h : d.Reads es) (hbare : Bare es) (id : Nat) :
    step d id = .ok none ∨
      ∃ e es' phases, step d id = .ok (some e) ∧ Combines d es e es' phases ∧
        es'.length < es.length := by
  unfold step
  split
  · exact .inl rfl
  · rename_i i hi
    have hmem := h.mem_iff.mpr hi
    split
    · exact .inl rfl
    · rename_i g hg
      have hic : i.clbits = [] := hbare _ hmem (Instruction.isGate_of_standard? hg)
      split
      · rename_i phase hp
        obtain ⟨a, b, rfl⟩ := List.append_of_mem hmem
        obtain ⟨e, he, hc⟩ := combines_removeIdentity h hg hp
        exact .inr ⟨e, _, _, by rw [he]; rfl, hc, by simp⟩
      · split
        · exact .inl rfl
        · rename_i next j hf
          obtain ⟨a, b, c, rfl, hb, hperm, hjc⟩ := split_of_follower? h hmem hf
          split
          · exact .inl rfl
          · rename_i other ho
            split
            · rename_i hsame
              have hops := sameOperands hperm hsame
              split
              · rename_i merged hm
                obtain ⟨e, he, hc⟩ := combines_mergeInto h hb hg ho hic hjc hops hm
                exact .inr ⟨e, _, _, by rw [he]; rfl, hc, by simp⟩
              · split
                · rename_i hcancel
                  obtain ⟨e, he, hc⟩ := combines_removePair h hb hg ho hic hjc hops
                    (StandardGate.cancels_eq_true.mp hcancel)
                  exact .inr ⟨e, _, _, by rw [he]; rfl, hc, by simp⟩
                · exact .inl rfl
            · exact .inl rfl

end Step

/-! ## Runs -/

section Run

variable {d e f : Dag R} {es es' fs : Dag.Entries R} {ps qs : List R}

theorem Combines.refl (h : d.Reads es) : Combines d es d es [] :=
  ⟨h, .refl _, rfl, rfl, rfl⟩

theorem Combines.trans (h : Combines d es e es' ps) (h' : Combines e es' f fs qs) :
    Combines d es f fs (ps ++ qs) := by
  refine ⟨h'.reads, h.rewrites.trans h'.rewrites, h'.numQubits.trans h.numQubits,
    h'.numClbits.trans h.numClbits, ?_⟩
  rw [h'.phase, h.phase, List.foldl_append]

theorem Combines.bare (h : Combines d es e es' ps) (hb : Bare es) : Bare es' := by
  intro x hx
  refine h.rewrites.forall_mem (P := fun i => i.isGate = true → i.clbits = [])
    (fun _ _ _ _ _ _ _ _ => rfl) ?_ x.2 (List.mem_map_of_mem hx)
  intro i hi
  obtain ⟨y, hy, rfl⟩ := List.mem_map.mp hi
  exact hb y hy

/-- Trying any nodes in turn ends well. Some of them may be gone when their turn comes. Either nothing
applied and nothing is different, or the list is shorter. -/
theorem combines_foldlM (h : d.Reads es) (hb : Bare es) (nodes : List Nat) (changed : Bool) :
    ∃ e es' ps changed', nodes.foldlM (fun (d, changed) id => do
      match ← step d id with
      | some d => return (d, true)
      | none => return (d, changed)) (d, changed) = .ok (e, changed') ∧
      Combines d es e es' ps ∧
      ((e = d ∧ changed' = changed) ∨ (changed' = true ∧ es'.length < es.length)) := by
  induction nodes generalizing d es changed with
  | nil => exact ⟨d, es, [], changed, rfl, .refl h, .inl ⟨rfl, rfl⟩⟩
  | cons id nodes ih =>
    rw [List.foldlM_cons]
    rcases combines_step h hb id with hs | ⟨e, es', ps, hs, hc, hlt⟩
    · obtain ⟨e, es', ps, changed', hrun, hc, hless⟩ := ih h hb changed
      exact ⟨e, es', ps, changed', by simp only [hs]; exact hrun, hc, hless⟩
    · obtain ⟨f, fs, qs, changed', hrun, hc', hless⟩ := ih hc.reads (hc.bare hb) true
      refine ⟨f, fs, ps ++ qs, changed', by simp only [hs]; exact hrun, hc.trans hc', .inr ?_⟩
      rcases hless with ⟨rfl, rfl⟩ | ⟨rfl, hlt'⟩
      · rw [hc'.reads.unique hc.reads]
        exact ⟨rfl, hlt⟩
      · exact ⟨rfl, hlt'.trans hlt⟩

/-- A sweep tells whether it changed anything. If it did, the list is shorter. -/
theorem combines_sweep (h : d.Reads es) (hb : Bare es) :
    sweep d = .ok (d, false) ∨ ∃ e es' ps, sweep d = .ok (e, true) ∧ Combines d es e es' ps ∧
      es'.length < es.length := by
  obtain ⟨e, es', ps, changed, hrun, hc, hless⟩ := combines_foldlM h hb (es.map (·.1)) false
  have hsweep : sweep d = .ok (e, changed) := by
    rw [sweep, h.topologicalNodes_eq]
    exact hrun
  rcases hless with ⟨rfl, rfl⟩ | ⟨rfl, hlt⟩
  · exact .inl hsweep
  · exact .inr ⟨e, es', ps, hsweep, hc, hlt⟩

theorem combines_sweeps (n : Nat) (h : d.Reads es) (hb : Bare es) :
    ∃ e es' ps, sweeps n d = .ok e ∧ Combines d es e es' ps := by
  induction n generalizing d es with
  | zero => exact ⟨d, es, [], rfl, .refl h⟩
  | succ n ih =>
    rcases combines_sweep h hb with hs | ⟨e, es', ps, hs, hc, -⟩
    · exact ⟨d, es, [], by rw [sweeps, hs]; rfl, .refl h⟩
    · obtain ⟨f, fs, qs, hrun, hc'⟩ := ih hc.reads (hc.bare hb)
      exact ⟨f, fs, ps ++ qs, by rw [sweeps, hs]; exact hrun, hc.trans hc'⟩

/-- What holds of every gate of a kind on its operands is kept. -/
theorem hasOnly_all {P : Instruction R → Prop} (hbare : ∀ i, P i → i.isGate = true → i.clbits = [])
    (hP : ∀ i g g', P i → i.standard? = some g → g'.name = g.name →
      g'.numQubits = g.numQubits → P (.ofStandard g' i.qubits))
    (h : d.HasOnly P) : ∃ e, all d = .ok e ∧ e.HasOnly P := by
  obtain ⟨es, hr⟩ := h.reachable.exists_reads
  have hes := hr.hasOnly_iff.mp h
  obtain ⟨e, es', ps, he, hc⟩ := combines_sweeps maxSweeps hr
    fun x hx => hbare x.2 (hes x.2 (List.mem_map_of_mem hx))
  exact ⟨e, he, hc.reads.hasOnly_iff.mpr (hc.rewrites.forall_mem hP hes)⟩

end Run

/-- Combining gates is a sequence of sound local rewrites. It never fails on a graph whose gates carry
no classical bits. Its list comes from the list of the graph by exchanging neighbours without a common
wire, merging neighbouring rotations, and dropping inverse pairs and identities, and the phase grows by
the phases of the dropped identities, up to full turns. -/
theorem rewrites_of_all {d : Dag R} (h : d.Reachable)
    (hb : ∀ id i, d.instruction? id = some i → i.isGate = true → i.clbits = []) :
    ∃ e is js phases, all d = .ok e ∧ d.linearize = .ok is ∧ e.linearize = .ok js ∧
      Rewrites is phases js ∧ e.Reachable ∧
      ∀ value : R → ℝ, Scalar.Exact value → ∃ k : ℤ,
        value e.phase = value d.phase + (phases.map value).sum + k * (2 * Real.pi) := by
  obtain ⟨es, hr⟩ := h.exists_reads
  obtain ⟨e, es', phases, he, hc⟩ := combines_sweeps maxSweeps hr
    (fun x hx => hb x.1 x.2 (hr.mem_iff.mp hx))
  refine ⟨e, _, _, phases, he, hr.linearize_eq, hc.reads.linearize_eq, hc.rewrites,
    hc.reads.reachable, ?_⟩
  intro value hv
  rw [hc.phase]
  exact hv.foldl_remEuclid phases d.phase

/-- Two gates with a barrier on another qubit between them, and an identity. -/
def parted : List (Instruction ℝ) :=
  [.ofStandard .h [0], .barrier [1], .ofStandard .h [0], .ofStandard .id [1]]

attribute [local instance] Scalar.real in
theorem rewrites_parted : ∃ d e js phases, Dag.ofInstructions 2 0 parted = .ok d ∧
    all d = .ok e ∧ e.linearize = .ok js ∧ Rewrites parted phases js ∧
    ∃ k : ℤ, e.phase = d.phase + (phases.map fun x => x).sum + k * (2 * Real.pi) := by
  obtain ⟨d, es, hd, hr, hes, -⟩ := Dag.exists_reads_ofInstructions 2 0 parted
    (by
      simp only [parted, List.forall_mem_cons]
      exact ⟨rfl, rfl, rfl, rfl, by simp⟩)
    (by simp [parted, Instruction.ofStandard, Instruction.ofGate, Instruction.barrier])
  have hb : ∀ id i, d.instruction? id = some i → i.isGate = true → i.clbits = [] := by
    intro id i hi _
    have hm : i ∈ parted := hes ▸ List.mem_map_of_mem (f := (·.2)) (hr.mem_iff.mpr hi)
    simp only [parted, List.mem_cons, List.not_mem_nil, or_false] at hm
    rcases hm with rfl | rfl | rfl | rfl <;> rfl
  obtain ⟨e, is, js, phases, he, his, hjs, hrw, -, hphase⟩ := rewrites_of_all hr.reachable hb
  obtain rfl : parted = is := by
    rw [hr.linearize_eq, hes] at his
    exact Except.ok.inj his
  exact ⟨d, e, js, phases, hd, he, hjs, hrw, hphase (fun x => x) Scalar.exact_real⟩

end Peephole

end QuantumCompiler
