import QuantumCompiler.Lowering.Basic
import QuantumCompiler.Proofs.Dag.Reads

/-!
# Lowering in place on lists

Replacing chosen operations of a graph one after another comes to replacing them in its list. A
replacement is always done, as long as every new instruction is acceptable and stays on the wires of
the old one and there are no more of them than positions under one.
-/
namespace QuantumCompiler.Dag

variable {R : Type}

/-- An instruction that may stand in the place of another. -/
structure Replaces (numQubits numClbits : Nat) (i j : Instruction R) : Prop where
  validate : j.validate numQubits numClbits = .ok ()
  wires : ∀ w ∈ j.wires, w ∈ i.wires
  clbits : j.clbits.Nodup

/-- What an instruction is lowered to; itself, if that fails. -/
def lowering (lower : Instruction R → Compile R (Lowered R)) (i : Instruction R) : Lowered R :=
  match lower i with
  | .ok l => l
  | .error _ => .ofList [i]

/-- A list with every picked instruction replaced by what it is lowered to. -/
def lowerList (pick : Instruction R → Bool) (lower : Instruction R → Compile R (Lowered R))
    (is : List (Instruction R)) : List (Instruction R) :=
  is.flatMap fun i => if pick i then (lowering lower i).instructions else [i]

/-- The phases that come up where a list is lowered. -/
def loweredPhases (pick : Instruction R → Bool) (lower : Instruction R → Compile R (Lowered R))
    (is : List (Instruction R)) : List R :=
  (is.filter pick).flatMap fun i => (lowering lower i).phases

/-- An instruction that is lowered, to no more parts than there are positions under one. -/
structure Lowers (lower : Instruction R → Compile R (Lowered R)) (i : Instruction R) : Prop where
  eq : lower i = .ok (lowering lower i)
  short : (lowering lower i).instructions.length ≤ maxIndex

/-- Why replacing an instruction fails: it cannot be lowered, or it has more parts than there are
positions under one. -/
def Refuses (lower : Instruction R → Compile R (Lowered R)) (i : Instruction R)
    (x : CompileError R) : Prop :=
  lower i = .error x ∨ ∃ l, lower i = .ok l ∧ maxIndex < l.instructions.length ∧
    x = .ofCircuit (.invalidStructure (.tooManyParts l.instructions.length))

section LowerList

variable {pick : Instruction R → Bool} {lower : Instruction R → Compile R (Lowered R)}
  {i : Instruction R} {is : List (Instruction R)}

theorem lowering_eq {l : Lowered R} (h : lower i = .ok l) : lowering lower i = l := by
  rw [lowering, h]

theorem lowerList_cons_of_pick {l : Lowered R} (hp : pick i = true) (h : lower i = .ok l) :
    lowerList pick lower (i :: is) = l.instructions ++ lowerList pick lower is := by
  rw [lowerList, List.flatMap_cons, if_pos hp, lowering_eq h]
  rfl

theorem lowerList_cons_of_not_pick (hp : pick i = false) :
    lowerList pick lower (i :: is) = i :: lowerList pick lower is := by
  rw [lowerList, List.flatMap_cons, hp]
  rfl

theorem mem_lowerList {j : Instruction R} (h : j ∈ lowerList pick lower is) :
    (j ∈ is ∧ pick j = false) ∨ ∃ i ∈ is, pick i = true ∧ j ∈ (lowering lower i).instructions := by
  obtain ⟨i, hi, hj⟩ := List.mem_flatMap.mp h
  split at hj
  · exact .inr ⟨i, hi, by assumption, hj⟩
  · obtain rfl := List.mem_singleton.mp hj
    exact .inl ⟨hi, by simpa using ‹¬ pick j = true›⟩

/-- A list without an instruction to pick stays as it is. -/
theorem lowerList_eq_self (h : ∀ i ∈ is, pick i = false) : lowerList pick lower is = is := by
  induction is with
  | nil => rfl
  | cons i is ih =>
    rw [lowerList_cons_of_not_pick (h i (by simp)), ih fun j hj => h j (by simp [hj])]

theorem loweredPhases_eq_nil (h : ∀ i ∈ is, pick i = false) :
    loweredPhases pick lower is = [] := by
  rw [loweredPhases, List.filter_eq_nil_iff.mpr fun i hi => by simp [h i hi]]
  rfl

end LowerList

variable [Scalar R] {pick : Instruction R → Bool} {lower : Instruction R → Compile R (Lowered R)}

/-- One replacement, with the phases so far. -/
def lowerStep (lower : Instruction R → Compile R (Lowered R)) (s : Dag R × List R)
    (x : Nat × Instruction R) : Compile R (Dag R × List R) := do
  let lowered ← lower x.2
  let (_, d) ← Compile.ofCircuit (s.1.substitute x.1 lowered.instructions)
  return (d, s.2 ++ lowered.phases)

/-- A replacement is done, or the instruction is refused. -/
theorem lowerStep_spec {d : Dag R} {a b : Entries R} {id : Nat} {i : Instruction R}
    (phases : List R) (h : d.Reads (a ++ (id, i) :: b))
    (hl : ∀ l, lower i = .ok l → ∀ j ∈ l.instructions, Replaces d.numQubits d.numClbits i j) :
    (∃ l created e, lower i = .ok l ∧ l.instructions.length ≤ maxIndex ∧
      lowerStep lower (d, phases) (id, i) = .ok (e, phases ++ l.phases) ∧
      e.Reads (a ++ Call.entries created l.instructions ++ b) ∧ SameFrame d e) ∨
    ∃ x, lowerStep lower (d, phases) (id, i) = .error x ∧ Refuses lower i x := by
  cases hli : lower i with
  | error x =>
    refine .inr ⟨x, ?_, .inl hli⟩
    rw [lowerStep, hli]
    rfl
  | ok l =>
    have hrep := hl l hli
    by_cases hlen : l.instructions.length ≤ maxIndex
    · obtain ⟨created, e, he, hr, hs⟩ := h.substitute hlen
        (fun j hj => ⟨(hrep j hj).validate, (hrep j hj).wires⟩) (fun j hj => (hrep j hj).clbits)
      refine .inl ⟨l, created, e, rfl, hlen, ?_, hr, hs⟩
      rw [lowerStep, hli]
      change (Compile.ofCircuit (d.substitute id l.instructions) >>= _) = _
      rw [he]
      rfl
    · have hmany : maxIndex < l.instructions.length := by omega
      refine .inr ⟨_, ?_, .inr ⟨l, hli, hmany, rfl⟩⟩
      rw [lowerStep, hli]
      change (Compile.ofCircuit (d.substitute id l.instructions) >>= _) = _
      rw [substitute, edited, substitute_tooMany hmany]
      rfl

/-- The replacements from one place of the list on. What was replaced before is in front of it. -/
theorem foldlM_lowerStep (rest done : Entries R) {d : Dag R} (phases : List R)
    (h : d.Reads (done ++ rest))
    (hl : ∀ x ∈ rest, pick x.2 = true → ∀ l, lower x.2 = .ok l →
      ∀ j ∈ l.instructions, Replaces d.numQubits d.numClbits x.2 j) :
    (∃ e new, (rest.filter fun x => pick x.2).foldlM (lowerStep lower) (d, phases) =
        .ok (e, phases ++ loweredPhases pick lower (rest.map (·.2))) ∧
      e.Reads (done ++ new) ∧ new.map (·.2) = lowerList pick lower (rest.map (·.2)) ∧
      SameFrame d e ∧ ∀ x ∈ rest, pick x.2 = true → Lowers lower x.2) ∨
    ∃ x, (rest.filter fun x => pick x.2).foldlM (lowerStep lower) (d, phases) = .error x ∧
      ∃ y ∈ rest, pick y.2 = true ∧ Refuses lower y.2 x := by
  induction rest generalizing d done phases with
  | nil => exact .inl ⟨d, [], by simp [loweredPhases]; rfl, h, rfl, ⟨rfl, rfl, rfl⟩, by simp⟩
  | cons x rest ih =>
    obtain ⟨id, i⟩ := x
    cases hp : pick i with
    | false =>
      have hfilter : ((id, i) :: rest).filter (fun x => pick x.2) =
          rest.filter fun x => pick x.2 := List.filter_cons_of_neg (by simp [hp])
      have hphases : loweredPhases pick lower (((id, i) :: rest).map (·.2)) =
          loweredPhases pick lower (rest.map (·.2)) := by
        rw [loweredPhases, List.map_cons, List.filter_cons_of_neg (by simp [hp])]
        rfl
      rw [hfilter, hphases]
      rcases ih (done ++ [(id, i)]) phases (by simpa using h)
        (fun y hy => hl y (by simp [hy])) with
        ⟨e, new, hok, hr, hnew, hs, hall⟩ | ⟨x, hx, y, hy, hy'⟩
      · refine .inl ⟨e, (id, i) :: new, hok, by simpa using hr, ?_, hs, ?_⟩
        · rw [List.map_cons, List.map_cons, lowerList_cons_of_not_pick hp, hnew]
        · intro y hy hpy
          rcases List.mem_cons.mp hy with rfl | hy
          · rw [hp] at hpy
            cases hpy
          · exact hall y hy hpy
      · exact .inr ⟨x, hx, y, by simp [hy], hy'⟩
    | true =>
      have hfilter : ((id, i) :: rest).filter (fun x => pick x.2) =
          (id, i) :: rest.filter fun x => pick x.2 := List.filter_cons_of_pos (by simp [hp])
      rw [hfilter, List.foldlM_cons]
      rcases lowerStep_spec phases h (hl (id, i) (by simp) hp) with
        ⟨l, created, e, hli, hshort, hstep, hr, hs⟩ | ⟨x, hx, hx'⟩
      · rw [hstep]
        rcases ih (done ++ Call.entries created l.instructions) (phases ++ l.phases) hr
          (fun y hy => by
            rw [hs.numQubits, hs.numClbits]
            exact hl y (by simp [hy])) with
          ⟨f, new, hok, hrf, hnew, hsf, hall⟩ | ⟨x, hx, y, hy, hy'⟩
        · refine .inl ⟨f, Call.entries created l.instructions ++ new, ?_, by simpa using hrf, ?_,
            hs.trans hsf, ?_⟩
          · refine hok.trans ?_
            rw [loweredPhases, loweredPhases, List.map_cons, List.filter_cons_of_pos hp,
              List.flatMap_cons, lowering_eq hli, List.append_assoc]
          · rw [List.map_append, List.map_cons, lowerList_cons_of_pick hp hli, hnew,
              map_snd_entries]
          · intro y hy hpy
            rcases List.mem_cons.mp hy with rfl | hy
            · rw [← lowering_eq hli] at hshort
              exact ⟨hli.trans (congrArg _ (lowering_eq hli).symm), hshort⟩
            · exact hall y hy hpy
        · exact .inr ⟨x, hx, y, by simp [hy], hy'⟩
      · rw [hx]
        exact .inr ⟨x, rfl, (id, i), by simp, hp, hx'⟩

/-- Lowering in place is lowering the list, and the graph stays reachable. The only way to fail is at
an instruction that cannot be lowered or has too many parts. -/
theorem Reads.lowerWhere {d : Dag R} {es : Entries R} (h : d.Reads es)
    (hl : ∀ x ∈ es, pick x.2 = true → ∀ l, lower x.2 = .ok l →
      ∀ j ∈ l.instructions, Replaces d.numQubits d.numClbits x.2 j) :
    (∃ e es', d.lowerWhere pick lower = .ok (e, loweredPhases pick lower (es.map (·.2))) ∧
      e.Reads es' ∧ es'.map (·.2) = lowerList pick lower (es.map (·.2)) ∧
      SameFrame d e ∧ ∀ x ∈ es, pick x.2 = true → Lowers lower x.2) ∨
    ∃ x, d.lowerWhere pick lower = .error x ∧ ∃ y ∈ es, pick y.2 = true ∧ Refuses lower y.2 x := by
  have hrun : d.lowerWhere pick lower =
      (es.filter fun x => pick x.2).foldlM (lowerStep lower) (d, []) := by
    rw [Dag.lowerWhere, h.topologicalOps_eq]
    rfl
  rw [hrun]
  exact foldlM_lowerStep es [] [] h hl

end QuantumCompiler.Dag
