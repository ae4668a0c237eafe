import QuantumCompiler.Proofs.Optimization.Peephole

/-!
# Where combining comes to rest

A sweep that changes something removes an operation, and one that changes nothing leaves the very same
graph. So combining ends at a graph that it keeps, unless it has spent all its sweeps. Gates nested in
their inverses come apart by one pair a sweep, which shows that this can happen.
-/
namespace QuantumCompiler.Peephole

variable {R : Type} [Scalar R]

/-- Sweeps one after another, each of which changed something. -/
inductive Swept : Nat → Dag R → Dag R → Prop
  | zero (d : Dag R) : Swept 0 d d
  | succ {n : Nat} {d e f : Dag R} (h : sweep d = .ok (e, true)) (hs : Swept n e f) :
    Swept (n + 1) d f

section Rest

variable {d e : Dag R} {es : Dag.Entries R}

/-- Sweeps end at a graph in which no step applies, or have all changed something. -/
theorem exists_sweeps (n : Nat) (h : d.Reads es) (hb : Bare es) :
    ∃ e es', sweeps n d = .ok e ∧ e.Reads es' ∧ Bare es' ∧
      (sweep e = .ok (e, false) ∨ (Swept n d e ∧ es'.length + n ≤ es.length)) := by
  induction n generalizing d es with
  | zero => exact ⟨d, es, rfl, h, hb, .inr ⟨.zero d, le_rfl⟩⟩
  | succ n ih =>
    rcases combines_sweep h hb with hs | ⟨e, es', ps, hs, hc, hlt⟩
    · exact ⟨d, es, by rw [sweeps, hs]; rfl, h, hb, .inl hs⟩
    · obtain ⟨f, fs, hrun, hr, hbare, hend⟩ := ih hc.reads (hc.bare hb)
      refine ⟨f, fs, by rw [sweeps, hs]; exact hrun, hr, hbare, hend.imp_right ?_⟩
      rintro ⟨hswept, hle⟩
      exact ⟨.succ hs hswept, by omega⟩

/-- Where no step applies, combining changes nothing. -/
theorem all_of_sweep (h : sweep e = .ok (e, false)) : all e = .ok e := by
  rw [all, maxSweeps, sweeps, h]
  rfl

theorem sweep_of_reads_nil (h : e.Reads []) : sweep e = .ok (e, false) := by
  rw [sweep, h.topologicalNodes_eq]
  rfl

/-- Combining a graph whose gates carry no classical bits ends well. What it ends at is kept by
combining once more, operations and phase alike, unless all sweeps were spent and each of them has
removed an operation. So it is kept whenever there were no more operations than sweeps. -/
theorem all_rests_or_spent (h : d.Reachable)
    (hb : ∀ id i, d.instruction? id = some i → i.isGate = true → i.clbits = []) :
    ∃ e, all d = .ok e ∧
      (all e = .ok e ∨ (Swept maxSweeps d e ∧ e.numOps + maxSweeps ≤ d.numOps)) ∧
      (d.numOps ≤ maxSweeps → all e = .ok e) := by
  obtain ⟨es, hr⟩ := h.exists_reads
  obtain ⟨e, es', he, hr', -, hend⟩ := exists_sweeps maxSweeps hr
    (fun x hx => hb x.1 x.2 (hr.mem_iff.mp hx))
  rw [← hr.numOps_eq, ← hr'.numOps_eq] at hend
  refine ⟨e, he, hend.imp_left all_of_sweep, fun hfew => ?_⟩
  rcases hend with hs | ⟨-, hle⟩
  · exact all_of_sweep hs
  · -- all operations are gone
    have hnil : es' = [] := List.length_eq_zero_iff.mp (by rw [← hr'.numOps_eq]; omega)
    exact all_of_sweep (sweep_of_reads_nil (hnil ▸ hr'))

end Rest

/-! ## Nested pairs -/

/-- Phase gates on one qubit, and then as many of their inverses. -/
def nested (n : Nat) : List (Instruction R) :=
  .replicate n (.ofStandard .s [0]) ++ .replicate n (.ofStandard .sdg [0])

section Nested

variable {d e : Dag R} {es a c : Dag.Entries R} {id next : Nat} {i j : Instruction R}
  {g other : StandardGate R}

/-- An operation right behind another one on the same qubits follows it. -/
theorem follower?_cons (h : d.Reads (a ++ (id, i) :: (next, j) :: c)) (hi : i.qubits ≠ [])
    (hq : j.qubits = i.qubits) (hc : j.clbits = []) : follower? d id i = some (next, j) := by
  have hnext : ∀ q ∈ i.qubits, d.nextOp? (.op id) (.qubit q) = some next := by
    intro q hmem
    have hwire {k : Instruction R} (hk : q ∈ k.qubits) : Wire.qubit q ∈ k.wires :=
      Instruction.mem_wires.mpr (.inl ⟨q, hk, rfl⟩)
    exact Dag.Reads.nextOp?_of_split (b := []) h (hwire hmem) (hwire (hq ▸ hmem)) (by simp)
  have hhead : i.qubits.head? = some (i.qubits.head hi) := List.head?_eq_some_head hi
  have hinst : d.instruction? next = some j := h.mem_iff.mp (by simp)
  simp only [follower?, hhead, hnext _ (List.head_mem hi), hinst,
    Option.bind_eq_bind, Option.bind_some]
  rw [if_pos]
  simpa [hq, hc] using hnext

/-- Nothing follows the last operation. -/
theorem follower?_last (h : d.Reads (a ++ [(id, i)])) : follower? d id i = none := by
  rw [Option.eq_none_iff_forall_ne_some]
  rintro ⟨next, j⟩ hf
  obtain ⟨a', b, c, hes, -⟩ := split_of_follower? h (by simp) hf
  have hrest := (h.split_unique hes).2
  simp at hrest

/-- Nothing happens at a gate that neither vanishes nor goes with its like, when the next one is like
it. -/
theorem step_repeated (h : d.Reads (a ++ (id, i) :: c)) (hi : i.qubits ≠ [])
    (hic : i.clbits = []) (hg : i.standard? = some g) (hp : g.identityPhase? = none)
    (hm : g.merge? g = none) (hinv : g.inverse? ≠ some g) (hnext : ∀ x ∈ c.head?, x.2 = i) :
    step d id = .ok none := by
  have hinst : d.instruction? id = some i := h.mem_iff.mp (by simp)
  cases c with
  | nil => simp only [step, hinst, hg, hp, follower?_last h]
  | cons x c =>
    obtain ⟨next, _⟩ := x
    obtain rfl := hnext _ rfl
    have hcancels : g.cancels g = false :=
      Bool.eq_false_iff.mpr fun hc => hinv (StandardGate.cancels_eq_true.mp hc)
    simp only [step, hinst, hg, hp, follower?_cons h hi rfl hic, hm, hcancels, beq_self_eq_true,
      Bool.true_or, if_true]
    rfl

/-- A gate right before its inverse goes away with it, and nothing happens when its turn comes. -/
theorem step_cancel (h : d.Reads (a ++ (id, i) :: (next, j) :: c)) (hi : i.qubits ≠ [])
    (hic : i.clbits = []) (hg : i.standard? = some g) (hp : g.identityPhase? = none)
    (hq : j.qubits = i.qubits) (hjc : j.clbits = []) (ho : j.standard? = some other)
    (hm : g.merge? other = none) (hinv : g.inverse? = some other) :
    ∃ e, step d id = .ok (some e) ∧ e.Reads (a ++ c) ∧ step e next = .ok none := by
  have hinst : d.instruction? id = some i := h.mem_iff.mp (by simp)
  obtain ⟨e, he, hc⟩ := combines_removePair (b := []) h (by simp) hg ho hic hjc (.inl hq) hinv
  have hr : e.Reads (a ++ c) := by simpa using hc.reads
  refine ⟨e, ?_, hr, ?_⟩
  · simp only [step, hinst, hg, hp, follower?_cons h hi hq hjc, ho, hm,
      StandardGate.cancels_eq_true.mpr hinv, hq, beq_self_eq_true, Bool.true_or, if_true, he]
    rfl
  · have hparted : d.Reads ((a ++ [(id, i)]) ++ (next, j) :: c) := by simpa using h
    have hnone : e.instruction? next = none := by
      refine Option.eq_none_iff_forall_ne_some.mpr fun k hk => ?_
      rcases List.mem_append.mp (hr.mem_iff.mpr hk) with hmem | hmem
      · exact hparted.parted.1 _ (List.mem_append_left _ hmem) rfl
      · exact hparted.parted.2 _ hmem rfl
    simp only [step, hnone]

/-- Trying nodes at which nothing happens. -/
theorem foldlM_idle {nodes : List Nat} (h : ∀ id ∈ nodes, step d id = .ok none)
    (changed : Bool) :
    nodes.foldlM (fun (d, changed) id => do
      match ← step d id with
      | some d => return (d, true)
      | none => return (d, changed)) (d, changed) = (.ok (d, changed) : Compile R _) := by
  induction nodes with
  | nil => rfl
  | cons id nodes ih =>
    rw [List.foldlM_cons]
    simp only [h id (by simp)]
    exact ih fun k hk => h k (by simp [hk])

/-- Of nested pairs only the innermost one goes away in a sweep. -/
theorem sweep_nested {n : Nat} (h : d.Reads es) (hes : es.map (·.2) = nested (n + 1)) :
    ∃ e es', sweep d = .ok (e, true) ∧ e.Reads es' ∧ es'.map (·.2) = nested n := by
  have hlist : es.map (·.2) = .replicate n (.ofStandard .s [0]) ++
      .ofStandard .s [0] :: .ofStandard .sdg [0] :: .replicate n (.ofStandard .sdg [0]) := by
    rw [hes, nested, List.replicate_succ', List.replicate_succ]
    simp
  obtain ⟨a, es₁, rfl, ha, hfirst⟩ := List.map_eq_append_iff.mp hlist
  obtain ⟨⟨id, _⟩, es₂, rfl, rfl, hsecond⟩ := List.map_eq_cons_iff.mp hfirst
  obtain ⟨⟨next, _⟩, c, rfl, rfl, hc⟩ := List.map_eq_cons_iff.mp hsecond
  have hs : ∀ x ∈ a, x.2 = .ofStandard .s [0] := fun x hx =>
    List.eq_of_mem_replicate (ha ▸ List.mem_map_of_mem hx)
  have hsdg : ∀ x ∈ c, x.2 = .ofStandard .sdg [0] := fun x hx =>
    List.eq_of_mem_replicate (hc ▸ List.mem_map_of_mem hx)
  obtain ⟨e, he, hr, hgone⟩ :=
    step_cancel h (List.cons_ne_nil _ _) rfl rfl rfl rfl rfl rfl rfl rfl
  have hbefore : ∀ k ∈ a.map (·.1), step d k = .ok none := by
    intro k hk
    obtain ⟨⟨k, i⟩, hx, rfl⟩ := List.mem_map.mp hk
    obtain rfl := hs _ hx
    obtain ⟨a₁, a₂, rfl⟩ := List.append_of_mem hx
    rw [List.append_assoc, List.cons_append] at h
    refine step_repeated h (List.cons_ne_nil _ _) rfl rfl rfl rfl nofun fun y hy => ?_
    cases a₂ with
    | nil => exact Option.some.inj hy ▸ rfl
    | cons z a₂ => exact Option.some.inj hy ▸ hs z (by simp)
  have hafter : ∀ k ∈ c.map (·.1), step e k = .ok none := by
    intro k hk
    obtain ⟨⟨k, i⟩, hx, rfl⟩ := List.mem_map.mp hk
    obtain rfl := hsdg _ hx
    obtain ⟨c₁, c₂, rfl⟩ := List.append_of_mem hx
    rw [← List.append_assoc] at hr
    refine step_repeated hr (List.cons_ne_nil _ _) rfl rfl rfl rfl nofun fun y hy => ?_
    exact hsdg y (by simp [List.mem_of_mem_head? hy])
  refine ⟨e, a ++ c, ?_, hr, by rw [List.map_append, ha, hc, nested]⟩
  rw [sweep, h.topologicalNodes_eq, List.map_append, List.map_cons, List.map_cons]
  change List.foldlM _ _ _ = _
  rw [List.foldlM_append]
  refine Outcome.bind_eq_ok.mpr ⟨_, foldlM_idle hbefore false, ?_⟩
  rw [List.foldlM_cons]
  simp only [he]
  exact foldlM_idle (List.forall_mem_cons.mpr ⟨hgone, hafter⟩) true

/-- Each sweep takes one of the nested pairs. -/
theorem sweeps_nested (k more : Nat) {n : Nat} (h : d.Reads es)
    (hes : es.map (·.2) = nested (n + k)) :
    ∃ e es', sweeps (k + more) d = sweeps more e ∧ e.Reads es' ∧ es'.map (·.2) = nested n := by
  induction k generalizing d es with
  | zero => exact ⟨d, es, by rw [Nat.zero_add], h, hes⟩
  | succ k ih =>
    obtain ⟨f, fs, hf, hr, hfs⟩ := sweep_nested h hes
    obtain ⟨e, es', he, hr', hes'⟩ := ih hr hfs
    refine ⟨e, es', ?_, hr', hes'⟩
    rw [Nat.succ_add, sweeps, hf]
    exact he

omit [Scalar R] in
theorem mem_nested {n : Nat} (h : i ∈ nested n) :
    i = .ofStandard .s [0] ∨ i = .ofStandard .sdg [0] :=
  (List.mem_append.mp h).imp List.eq_of_mem_replicate List.eq_of_mem_replicate

/-- The graph of nested pairs. -/
theorem exists_reads_nested (n : Nat) : ∃ d : Dag R, ∃ es,
    Dag.ofInstructions 1 0 (nested n) = .ok d ∧ d.Reads es ∧ es.map (·.2) = nested n ∧
      ∀ id i, d.instruction? id = some i → i.isGate = true → i.clbits = [] := by
  obtain ⟨d, es, hd, hr, hes, -⟩ := Dag.exists_reads_ofInstructions (R := R) 1 0 (nested n)
    (fun i hi => by rcases mem_nested hi with rfl | rfl <;> rfl)
    (fun i hi => by rcases mem_nested hi with rfl | rfl <;> exact List.nodup_nil)
  refine ⟨d, es, hd, hr, hes, fun id i hi _ => ?_⟩
  have hmem : i ∈ es.map (·.2) := List.mem_map_of_mem (hr.mem_iff.mpr hi)
  rcases mem_nested (hes ▸ hmem) with rfl | rfl <;> rfl

end Nested

theorem all_rests_or_spent_nested : ∃ d e : Dag Float, Dag.ofInstructions 1 0 (nested 2) = .ok d ∧
    all d = .ok e ∧ all e = .ok e := by
  obtain ⟨d, es, hd, hr, hes, hb⟩ := exists_reads_nested (R := Float) 2
  obtain ⟨e, he, -, hrests⟩ := all_rests_or_spent hr.reachable hb
  refine ⟨d, e, hd, he, hrests ?_⟩
  rw [hr.numOps_eq, ← List.length_map (f := (·.2)), hes]
  decide

/-- With one pair more than there are sweeps, combining once more takes the last pair. -/
theorem restless_nested : ∃ d e f : Dag Float, Dag.ofInstructions 1 0 (nested 1001) = .ok d ∧
    d.HasOnly (fun i => i.isGate = true → i.clbits = []) ∧ all d = .ok e ∧ all e = .ok f ∧
      e.linearize = .ok [.ofStandard .s [0], .ofStandard .sdg [0]] ∧ f.linearize = .ok [] := by
  obtain ⟨d, es, hd, hr, hes, hb⟩ := exists_reads_nested (R := Float) 1001
  obtain ⟨e, es', he, hr', hes'⟩ := sweeps_nested (n := 1) 1000 0 hr hes
  obtain ⟨f, fs, hf, hr'', hfs⟩ := sweeps_nested (n := 0) 1 999 hr' hes'
  obtain rfl : fs = [] := List.map_eq_nil_iff.mp hfs
  refine ⟨d, e, f, hd, ⟨hr.reachable, hb⟩, he, ?_, ?_, hr''.linearize_eq⟩
  · refine Eq.trans hf ?_
    rw [sweeps, sweep_of_reads_nil hr'']
    rfl
  · rw [hr'.linearize_eq, hes']
    rfl

end QuantumCompiler.Peephole
