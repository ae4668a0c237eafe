import QuantumCompiler.Proofs.Optimization.Resynthesis
import QuantumCompiler.Proofs.Optimization.Runs

/-!
# Resynthesis as one change of the list

Every edit of a run touches the nodes of that run, and no node is in two runs. So all edits together are
one change of the list of operations, made at each operation for itself: one in a run that gets shorter
becomes a new gate or goes away, and every other one stays.
-/
namespace QuantumCompiler.Runs

variable {R : Type} [Scalar R] {d e : Dag R} {es : Dag.Entries R}

/-! ## One run as a change of the list -/

omit [Scalar R] in
/-- An operation after gates on a qubit were put at some nodes. -/
def put (q : Qubit) (xs : List (Nat × StandardGate R)) (x : Nat × Instruction R) :
    Nat × Instruction R :=
  match xs.lookup x.1 with
  | some g => (x.1, .ofStandard g [q])
  | none => x

omit [Scalar R] in
theorem lookup_eq_none {xs : List (Nat × StandardGate R)} {k : Nat} :
    xs.lookup k = none ↔ k ∉ xs.map (·.1) := by
  simp only [List.lookup_eq_none_iff, bne_iff_ne, List.mem_map, not_exists, not_and, ne_comm (a := k)]

theorem reads_replaceAll {q : Qubit} {xs : List (Nat × StandardGate R)}
    (hn : (xs.map (·.1)).Nodup) (h : d.Reads es)
    (he : xs.foldlM (fun d x => Compile.ofCircuit (d.replace x.1 (.ofStandard x.2 [q]))) d =
      (.ok e : Compile R _)) : e.Reads (es.map (put q xs)) ∧ Dag.SameFrame d e := by
  induction xs generalizing d es with
  | nil =>
    obtain rfl := Except.ok.inj he
    have hid : es.map (put q []) = es := List.map_id es
    exact ⟨hid.symm ▸ h, rfl, rfl, rfl⟩
  | cons x xs ih =>
    obtain ⟨hnot, hn⟩ := List.nodup_cons.mp hn
    obtain ⟨f, hf, he⟩ := Outcome.bind_eq_ok.mp he
    obtain ⟨hr, hs⟩ := h.of_replace List.nodup_nil (Outcome.ofCircuit_eq_ok.mp hf)
    obtain ⟨hr', hs'⟩ := ih hn hr he
    refine ⟨?_, hs.trans hs'⟩
    have hfresh : xs.lookup x.1 = none := lookup_eq_none.mpr hnot
    have hmap : (es.map fun y => if y.1 = x.1 then (x.1, .ofStandard x.2 [q]) else y).map
        (put q xs) = es.map (put q (x :: xs)) := by
      rw [List.map_map]
      refine List.map_congr_left fun y _ => ?_
      obtain ⟨k, g⟩ := x
      by_cases hy : y.1 = k
      · simp [put, hy, hfresh]
      · simp [put, hy, List.lookup_cons, beq_false_of_ne hy]
    exact hmap ▸ hr'

theorem reads_removeAll {ks : List Nat} (h : d.Reads es)
    (he : ks.foldlM (fun (d : Dag R) k => do return (← Compile.ofCircuit (d.remove k)).2) d =
      (.ok e : Compile R _)) : e.Reads (es.filter fun x => x.1 ∉ ks) ∧ Dag.SameFrame d e := by
  induction ks generalizing d es with
  | nil =>
    obtain rfl := Except.ok.inj he
    exact ⟨by simpa using h, rfl, rfl, rfl⟩
  | cons k ks ih =>
    obtain ⟨f, hf, he⟩ := Outcome.bind_eq_ok.mp he
    obtain ⟨⟨j, f'⟩, hremove, hf⟩ := Outcome.bind_eq_ok.mp hf
    obtain rfl := Except.ok.inj hf
    obtain ⟨hr, hs⟩ := h.of_remove (Outcome.ofCircuit_eq_ok.mp hremove)
    obtain ⟨hr', hs'⟩ := ih hr he
    refine ⟨?_, hs.trans hs'⟩
    rw [List.filter_filter] at hr'
    simpa [Bool.and_comm] using hr'

/-- What becomes of an operation when a sequence takes the place of a run. -/
def placed (run : Run R) (s : OneQubitSequence R) (x : Nat × Instruction R) :
    Option (Nat × Instruction R) :=
  if x.1 ∈ run.members.map (·.1) then
    (((run.members.map (·.1)).zip s.gates).lookup x.1).map fun g =>
      (x.1, .ofStandard g [run.qubit])
  else some x

omit [Scalar R] in
/-- Gates at the first nodes of a run and none of its other nodes. -/
theorem filter_map_put {run : Run R} (s : OneQubitSequence R)
    (hn : (run.members.map (·.1)).Nodup) (es : Dag.Entries R) :
    (es.map (put run.qubit ((run.members.map (·.1)).zip s.gates))).filter
      (fun x => x.1 ∉ (run.members.map (·.1)).drop s.gates.length) =
        es.filterMap (placed run s) := by
  have hsplit : (run.members.map (·.1)).take s.gates.length ++
      (run.members.map (·.1)).drop s.gates.length = run.members.map (·.1) :=
    List.take_append_drop _ _
  have hzip := map_fst_zip_eq_take (run.members.map (·.1)) s.gates
  have hdisjoint := (List.nodup_append.mp (hsplit ▸ hn)).2.2
  rw [← List.filterMap_eq_filter, List.filterMap_map]
  refine List.filterMap_congr fun x _ => ?_
  have hmem : x.1 ∈ run.members.map (·.1) ↔ x.1 ∈ (run.members.map (·.1)).take s.gates.length ∨
      x.1 ∈ (run.members.map (·.1)).drop s.gates.length := by
    rw [← List.mem_append, hsplit]
  cases hl : ((run.members.map (·.1)).zip s.gates).lookup x.1 with
  | none =>
    have hnot : x.1 ∉ (run.members.map (·.1)).take s.gates.length := hzip ▸ lookup_eq_none.mp hl
    by_cases hd : x.1 ∈ (run.members.map (·.1)).drop s.gates.length
    · simp [placed, put, hl, hmem, hd]
    · simp [placed, put, hl, hmem, hd, hnot]
  | some g =>
    have hin : x.1 ∈ (run.members.map (·.1)).take s.gates.length := by
      by_contra hnot
      rw [← hzip, ← lookup_eq_none, hl] at hnot
      cases hnot
    have hd : x.1 ∉ (run.members.map (·.1)).drop s.gates.length :=
      fun hm => hdisjoint _ hin _ hm rfl
    simp [placed, put, hl, hmem, hd, hin]

theorem reads_place {run : Run R} {s : OneQubitSequence R} (hn : (run.members.map (·.1)).Nodup)
    (h : d.Reads es) (he : place d run s = .ok e) :
    e.Reads (es.filterMap (placed run s)) ∧ e.numQubits = d.numQubits ∧
      e.numClbits = d.numClbits ∧ e.phase = Scalar.remEuclid (d.phase + s.phase) Scalar.tau := by
  obtain ⟨f, hf, he⟩ := Outcome.bind_eq_ok.mp he
  obtain ⟨f', hf', he⟩ := Outcome.bind_eq_ok.mp he
  obtain rfl := Except.ok.inj he
  have hfirst : (((run.members.map (·.1)).zip s.gates).map (·.1)).Nodup := by
    rw [map_fst_zip_eq_take]
    exact hn.sublist (List.take_sublist _ _)
  obtain ⟨hr, hs⟩ := reads_replaceAll hfirst h hf
  obtain ⟨hr', hs'⟩ := reads_removeAll hr hf'
  have hframe := hs.trans hs'
  refine ⟨(filter_map_put s hn es ▸ hr').withPhase _, hframe.numQubits, hframe.numClbits, ?_⟩
  rw [← hframe.phase]
  rfl

/-! ## All runs as one change of the list -/

section Families

variable (family : EulerFamily) (executes : StandardGate R → Bool)

/-- The sequence that takes the place of some gates: their product exists, and what is synthesized for
it is shorter and executed. -/
def improved? (gates : List (StandardGate R)) : Option (OneQubitSequence R) :=
  (Mat2.ofSequence? gates).bind fun u =>
    (family.synthesize u dropTolerance).toOption.filter fun s =>
      s.gates.length < gates.length && s.gates.all executes

/-- What becomes of an operation when a run is resynthesized. -/
def rebuilt (run : Run R) (x : Nat × Instruction R) : Option (Nat × Instruction R) :=
  match improved? family executes (run.members.map (·.2)) with
  | some s => placed run s x
  | none => some x

/-- What becomes of an operation when runs without common nodes are resynthesized. -/
def rebuiltAll (runs : List (Run R)) (x : Nat × Instruction R) : Option (Nat × Instruction R) :=
  match runs.find? fun run => x.1 ∈ run.members.map (·.1) with
  | some run => rebuilt family executes run x
  | none => some x

/-- The phase of the sequence that takes the place of a run. -/
def addedPhase? (run : Run R) : Option R :=
  (improved? family executes (run.members.map (·.2))).map OneQubitSequence.phase

variable {family executes}

/-- Every product of gates is synthesized. -/
def Synthesizes (family : EulerFamily) (gates : List (StandardGate R)) : Prop :=
  ∀ u, Mat2.ofSequence? gates = some u → ∃ s, family.synthesize u dropTolerance = .ok s

theorem resynthesize_eq_ok {run : Run R} (he : resynthesize family executes d run = .ok e) :
    Synthesizes family (run.members.map (·.2)) ∧
      match improved? family executes (run.members.map (·.2)) with
      | some s => place d run s = .ok e
      | none => e = d := by
  unfold resynthesize at he
  cases hu : Mat2.ofSequence? (run.members.map (·.2)) with
  | none =>
    rw [hu] at he
    refine ⟨fun u hu' => absurd (hu.symm.trans hu') nofun, ?_⟩
    simpa [improved?, hu] using (Except.ok.inj he).symm
  | some u =>
    rw [hu] at he
    obtain ⟨s, hs, he⟩ := Outcome.bind_eq_ok.mp he
    refine ⟨fun u' hu' => ⟨s, Option.some.inj (hu.symm.trans hu') ▸ hs⟩, ?_⟩
    simp only [improved?, hu, Option.bind_some, Outcome.toOption_eq_some.mpr hs, Option.filter_some,
      List.length_map]
    split at he
    · rename_i hc
      rw [if_pos hc]
      exact he
    · rename_i hc
      rw [if_neg hc]
      exact (Except.ok.inj he).symm

theorem reads_resynthesize {run : Run R} (hn : (run.members.map (·.1)).Nodup) (h : d.Reads es)
    (he : resynthesize family executes d run = .ok e) :
    e.Reads (es.filterMap (rebuilt family executes run)) ∧ e.numQubits = d.numQubits ∧
      e.numClbits = d.numClbits ∧
      e.phase = (addedPhase? family executes run).toList.foldl
        (fun p x => Scalar.remEuclid (p + x) Scalar.tau) d.phase := by
  have hrun := (resynthesize_eq_ok he).2
  unfold rebuilt addedPhase?
  split at hrun
  · rename_i s hs
    simp only [hs]
    exact reads_place hn h hrun
  · rename_i hs
    simp only [hs, List.filterMap_some]
    subst hrun
    exact ⟨h, rfl, rfl, rfl⟩

omit [Scalar R] in
theorem placed_of_notMem {run : Run R} (s : OneQubitSequence R) {x : Nat × Instruction R}
    (hx : x.1 ∉ run.members.map (·.1)) : placed run s x = some x :=
  if_neg hx

theorem rebuilt_of_notMem {run : Run R} {x : Nat × Instruction R}
    (hx : x.1 ∉ run.members.map (·.1)) : rebuilt family executes run x = some x := by
  unfold rebuilt
  split
  · exact placed_of_notMem _ hx
  · rfl

/-- An operation stays at its node. -/
theorem fst_of_rebuilt {run : Run R} {x y : Nat × Instruction R}
    (h : rebuilt family executes run x = some y) : y.1 = x.1 := by
  unfold rebuilt at h
  split at h
  · unfold placed at h
    split at h
    · obtain ⟨g, -, rfl⟩ := Option.map_eq_some_iff.mp h
      rfl
    · exact Option.some.inj h ▸ rfl
  · exact Option.some.inj h ▸ rfl

theorem rebuiltAll_cons_of_mem {run : Run R} {x : Nat × Instruction R}
    (hx : x.1 ∈ run.members.map (·.1)) (runs : List (Run R)) :
    rebuiltAll family executes (run :: runs) x = rebuilt family executes run x := by
  have hfind : (run :: runs).find? (fun run => x.1 ∈ run.members.map (·.1)) = some run :=
    List.find?_cons_of_pos (decide_eq_true hx)
  rw [rebuiltAll, hfind]

theorem rebuiltAll_cons_of_notMem {run : Run R} {x : Nat × Instruction R}
    (hx : x.1 ∉ run.members.map (·.1)) (runs : List (Run R)) :
    rebuiltAll family executes (run :: runs) x = rebuiltAll family executes runs x := by
  have hfind : (run :: runs).find? (fun run => x.1 ∈ run.members.map (·.1)) =
      runs.find? fun run => x.1 ∈ run.members.map (·.1) :=
    List.find?_cons_of_neg (by simpa using hx)
  rw [rebuiltAll, rebuiltAll, hfind]

theorem rebuiltAll_of_notMem {runs : List (Run R)} {x : Nat × Instruction R}
    (hx : ∀ run ∈ runs, x.1 ∉ run.members.map (·.1)) :
    rebuiltAll family executes runs x = some x := by
  induction runs with
  | nil => rfl
  | cons run runs ih =>
    obtain ⟨hrun, hruns⟩ := List.forall_mem_cons.mp hx
    exact (rebuiltAll_cons_of_notMem hrun runs).trans (ih hruns)

/-- Runs that share no node are resynthesized as if each was the only one. -/
theorem rebuilt_bind_rebuiltAll {run : Run R} {runs : List (Run R)}
    (hdisjoint : ∀ k ∈ run.members.map (·.1), ∀ later ∈ runs, k ∉ later.members.map (·.1))
    (x : Nat × Instruction R) :
    (rebuilt family executes run x).bind (rebuiltAll family executes runs) =
      rebuiltAll family executes (run :: runs) x := by
  by_cases hx : x.1 ∈ run.members.map (·.1)
  · rw [rebuiltAll_cons_of_mem hx]
    cases hy : rebuilt family executes run x with
    | none => rfl
    | some y =>
      refine rebuiltAll_of_notMem fun later hl => ?_
      rw [fst_of_rebuilt hy]
      exact hdisjoint x.1 hx later hl
  · rw [rebuiltAll_cons_of_notMem hx, rebuilt_of_notMem hx, Option.bind_some]

theorem reads_foldlM {runs : List (Run R)}
    (hn : (runs.flatMap fun run => run.members.map (·.1)).Nodup) (h : d.Reads es)
    (he : runs.foldlM (resynthesize family executes) d = .ok e) :
    e.Reads (es.filterMap (rebuiltAll family executes runs)) ∧ e.numQubits = d.numQubits ∧
      e.numClbits = d.numClbits ∧
      e.phase = (runs.filterMap (addedPhase? family executes)).foldl
        (fun p x => Scalar.remEuclid (p + x) Scalar.tau) d.phase ∧
      ∀ run ∈ runs, Synthesizes family (run.members.map (·.2)) := by
  induction runs generalizing d es with
  | nil =>
    obtain rfl := Except.ok.inj he
    have hid : es.filterMap (rebuiltAll family executes []) = es := List.filterMap_some
    exact ⟨hid.symm ▸ h, rfl, rfl, rfl, by simp⟩
  | cons run runs ih =>
    rw [List.flatMap_cons, List.nodup_append] at hn
    obtain ⟨hfirst, hrest, hdisjoint⟩ := hn
    obtain ⟨f, hf, he⟩ := Outcome.bind_eq_ok.mp he
    obtain ⟨hr, hq, hc, hp⟩ := reads_resynthesize hfirst h hf
    obtain ⟨hr', hq', hc', hp', hall⟩ := ih hrest hr he
    refine ⟨?_, hq'.trans hq, hc'.trans hc, ?_,
      List.forall_mem_cons.mpr ⟨(resynthesize_eq_ok hf).1, hall⟩⟩
    · rw [List.filterMap_filterMap] at hr'
      rwa [List.filterMap_congr fun x _ => rebuilt_bind_rebuiltAll (fun k hk later hl hkl =>
        hdisjoint k hk k (List.mem_flatMap.mpr ⟨later, hl, hkl⟩) rfl) x] at hr'
    · rw [hp', hp, ← List.foldl_append, List.filterMap_cons]
      cases addedPhase? family executes run <;> rfl

/-! ## What becomes of an operation -/

/-- In runs without common nodes an operation has one run only. -/
theorem rebuiltAll_of_mem {runs : List (Run R)}
    (hn : (runs.flatMap fun run => run.members.map (·.1)).Nodup) {run : Run R} (hrun : run ∈ runs)
    {x : Nat × Instruction R} (hx : x.1 ∈ run.members.map (·.1)) :
    rebuiltAll family executes runs x = rebuilt family executes run x := by
  induction runs with
  | nil => cases hrun
  | cons first runs ih =>
    rw [List.flatMap_cons, List.nodup_append] at hn
    obtain ⟨-, hrest, hdisjoint⟩ := hn
    rcases List.mem_cons.mp hrun with rfl | hrun
    · exact rebuiltAll_cons_of_mem hx runs
    · have hfirst : x.1 ∉ first.members.map (·.1) := fun hm =>
        hdisjoint x.1 hm x.1 (List.mem_flatMap.mpr ⟨run, hrun, hx⟩) rfl
      exact (rebuiltAll_cons_of_notMem hfirst runs).trans (ih hrest hrun)

/-- A sequence for the product of some gates that has fewer gates, all of them executed. -/
structure Shortens (family : EulerFamily) (executes : StandardGate R → Bool)
    (gates : List (StandardGate R)) (s : OneQubitSequence R) : Prop where
  synthesized : ∃ u, Mat2.ofSequence? gates = some u ∧ family.synthesize u dropTolerance = .ok s
  shorter : s.gates.length < gates.length
  executed : ∀ g ∈ s.gates, executes g = true

theorem improved?_eq_some {gates : List (StandardGate R)} {s : OneQubitSequence R} :
    improved? family executes gates = some s ↔ Shortens family executes gates s := by
  simp only [improved?, Option.bind_eq_some_iff, Option.filter_eq_some_iff,
    Outcome.toOption_eq_some, Bool.and_eq_true, decide_eq_true_eq, List.all_eq_true]
  constructor
  · rintro ⟨u, hu, hs, hlt, hall⟩
    exact ⟨⟨u, hu, hs⟩, hlt, hall⟩
  · rintro ⟨⟨u, hu, hs⟩, hlt, hall⟩
    exact ⟨u, hu, hs, hlt, hall⟩

omit [Scalar R] in
/-- A numeric gate on a qubit can be part of a run. -/
theorem member?_ofStandard {g : StandardGate R} (hg : family.EmitsNumeric g) (q : Qubit) :
    member? (.ofStandard g [q]) = some g := by
  have hstandard : (Instruction.ofStandard g [q]).standard? = some g := rfl
  have hone : (Instruction.ofStandard g [q]).qubits.length = 1 := rfl
  rw [member?, if_pos hone, hstandard, Option.filter_some, hg.1.1, hg.2]
  rfl

/-- A change under which an operation stays what it is, or is a gate of a run and goes away or becomes
another gate that can be part of a run, on the same qubit. -/
def Regates (change : Nat × Instruction R → Option (Nat × Instruction R))
    (x : Nat × Instruction R) : Prop :=
  change x = some x ∨ ∃ g q, member? x.2 = some g ∧ x.2.qubits = [q] ∧
    ∀ y, change x = some y → ∃ g', y = (x.1, .ofStandard g' [q]) ∧ member? y.2 = some g'

theorem regates_rebuiltAll (h : d.Reads es) (n : Nat) {x : Nat × Instruction R} (hx : x ∈ es) :
    Regates (rebuiltAll family executes ((List.range n).flatMap (onQubit es))) x := by
  unfold Regates rebuiltAll
  split
  · rename_i run hfind
    have hk : x.1 ∈ run.members.map (·.1) := by simpa using List.find?_some hfind
    obtain ⟨q, -, hrun⟩ := List.mem_flatMap.mp (List.mem_of_find?_eq_some hfind)
    obtain ⟨hqubit, hmembers⟩ := member_of_mem_onQubit hrun
    obtain ⟨i, g, hi, hg, hq⟩ := hmembers x.1 hk
    obtain rfl : x.2 = i := congrArg Prod.snd (h.unique_node hx hi rfl)
    unfold rebuilt
    split
    · rename_i s hs
      obtain ⟨⟨u, -, hsynth⟩, -, -⟩ := improved?_eq_some.mp hs
      refine .inr ⟨g, q, hg, hq, fun y hy => ?_⟩
      rw [placed, if_pos hk, hqubit, Option.map_eq_some_iff] at hy
      obtain ⟨g', hlookup, rfl⟩ := hy
      obtain ⟨before, after, hzip, -⟩ := List.lookup_eq_some_iff.mp hlookup
      have hmem : g' ∈ s.gates := (List.of_mem_zip (a := x.1) (by rw [hzip]; simp)).2
      rw [EulerFamily.eq_sequence_of_synthesize hsynth] at hmem
      exact ⟨g', rfl, member?_ofStandard (family.emits_sequence u _ g' hmem) q⟩
    · exact .inl rfl
  · exact .inl rfl

omit [Scalar R] in
theorem Regates.qubits {change : Nat × Instruction R → Option (Nat × Instruction R)}
    {x y : Nat × Instruction R} (h : Regates change x) (hy : change x = some y) :
    y.2.qubits = x.2.qubits := by
  rcases h with hx | ⟨g, q, -, hq, hgate⟩
  · rw [Option.some.inj (hy.symm.trans hx)]
  · obtain ⟨g', rfl, -⟩ := hgate y hy
    exact hq.symm

end Families

/-- The list after all runs of a graph were resynthesized. -/
theorem reads_all (h : d.Reads es) {device : Option (Device R)} {requested : Option EulerFamily}
    {family : EulerFamily} (hfamily : family? device requested = .ok (some family))
    (he : all device requested d = .ok e) :
    e.Reads (es.filterMap (rebuiltAll family (executedBy device)
        ((List.range d.numQubits).flatMap (onQubit es)))) ∧
      e.numQubits = d.numQubits ∧ e.numClbits = d.numClbits ∧
      e.phase = (((List.range d.numQubits).flatMap (onQubit es)).filterMap
        (addedPhase? family (executedBy device))).foldl
          (fun p x => Scalar.remEuclid (p + x) Scalar.tau) d.phase ∧
      ∀ run ∈ (List.range d.numQubits).flatMap (onQubit es),
        Synthesizes family (run.members.map (·.2)) := by
  obtain ⟨family', hfamily', he⟩ := Outcome.bind_eq_ok.mp he
  obtain rfl := Except.ok.inj (hfamily.symm.trans hfamily')
  obtain ⟨runs, hruns, he⟩ := Outcome.bind_eq_ok.mp he
  rw [ofDag_eq h] at hruns
  obtain rfl := Except.ok.inj hruns
  exact reads_foldlM (nodup_runs h d.numQubits) h he

end QuantumCompiler.Runs
