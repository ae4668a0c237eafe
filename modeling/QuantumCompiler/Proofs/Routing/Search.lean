import QuantumCompiler.Proofs.Dag.Reads
import QuantumCompiler.Proofs.Layout.Completion
import QuantumCompiler.Proofs.Layout.Components
import QuantumCompiler.Proofs.Routing.Run
import QuantumCompiler.Routing.Search

/-!
# The search for a layout

A first layout that keeps the operands of every gate connected is found whenever there is one. Sweeps
move qubits inside their parts only, forward and backward, so no later sweep fails either, and the best
one of them is a circuit over the qubits of the device.
-/
namespace QuantumCompiler.Routing

open Layout (Suits Narrow)
open Placement (Choice)

variable {R : Type} {device : Device R} {d : Dag R}

/-- The operands of every two-qubit gate sit in one component. -/
def Together (device : Device R) (d : Dag R) (place : Qubit → Qubit) : Prop :=
  ∀ id i a b, d.instruction? id = some i → i.isGate = true → i.qubits = [a, b] →
    device.component? (place a) = device.component? (place b)

section Together

variable [Scalar R] {es : Dag.Entries R}

theorem operands_lt (h : d.Reads es) {id : Nat} {i : Instruction R} {a b : Qubit}
    (hi : d.instruction? id = some i) (hq : i.qubits = [a, b]) :
    a < d.numQubits ∧ b < d.numQubits := by
  have hf := (h.fits (h.mem_iff.mpr hi)).qubits
  rw [hq] at hf
  exact ⟨hf a (by simp), hf b (by simp)⟩

theorem Together.congr {place place' : Qubit → Qubit} (ht : Together device d place)
    (h : d.Reads es) (heq : ∀ q < d.numQubits, place' q = place q) : Together device d place' := by
  intro id i a b hi hg hq
  obtain ⟨ha, hb⟩ := operands_lt h hi hq
  rw [heq a ha, heq b hb]
  exact ht id i a b hi hg hq

/-- A permutation that keeps operands in one component suits the circuit. -/
theorem suits_of_isPermutation (hd : device.WellFormed) (h : d.Reads es)
    (hw : d.numQubits ≤ device.numQubits) {p : Placement}
    (hp : p.IsPermutation device.numQubits) (ht : Together device d p.physical) :
    Suits device d p.physical := by
  constructor
  · exact fun q hq => hp.physical_lt q (hq.trans_le hw)
  · exact fun k hk l hl => hp.physical_inj (hk.trans_le hw) (hl.trans_le hw)
  · intro id i a b hi hg hq
    obtain ⟨ha, -⟩ := operands_lt h hi hq
    exact (hd.connected_iff (hp.physical_lt a (ha.trans_le hw))).mpr (ht id i a b hi hg hq)

end Together

/-! ## The first layout -/

section First

variable [Scalar R] {es : Dag.Entries R}

omit [Scalar R] in
theorem initial_of_le (strategy : LayoutStrategy) {k n : Nat} (seed : Nat) (hk : k ≤ n) :
    ∃ physical, (Layout.initial strategy k n seed : Compile R _) = .ok (.ofPhysical physical) ∧
      Choice k n physical := by
  unfold Layout.initial
  rw [if_neg (by omega)]
  cases strategy with
  | trivial =>
    refine ⟨List.range k, rfl, by simp, List.nodup_range, fun p hp => ?_⟩
    exact (List.mem_range.mp hp).trans_le hk
  | random =>
    have hperm := (Random.Stream.ofSeed seed).perm_shuffle (List.range n)
    generalize (Random.Stream.ofSeed seed).shuffle (List.range n) = shuffled at hperm ⊢
    obtain ⟨physical, stream⟩ := shuffled
    refine ⟨physical.take k, rfl, ?_, ?_, ?_⟩
    · have hlen : physical.length = n := by simpa using hperm.length_eq
      rw [List.length_take, hlen, Nat.min_eq_left hk]
    · exact (hperm.nodup_iff.mpr List.nodup_range).sublist (List.take_sublist k _)
    · exact fun p hp => List.mem_range.mp (hperm.mem_iff.mp (List.mem_of_mem_take hp))

omit [Scalar R] in
theorem together_of_not_interacts (hi : interacts d = false) (place : Qubit → Qubit) :
    Together device d place := by
  intro id i a b hid hg hq
  have hnot := List.any_eq_false.mp hi (id, i) (Dag.mem_instructions.mpr hid)
  simp [hg, hq] at hnot

/-- On a device in one part every placement on the device keeps operands together. -/
theorem together_of_numComponents (hd : device.WellFormed) (hone : device.numComponents ≤ 1)
    (h : d.Reads es) {place : Qubit → Qubit} (hlt : ∀ q < d.numQubits, place q < device.numQubits) :
    Together device d place := by
  intro id i a b hi hg hq
  obtain ⟨ha, hb⟩ := operands_lt h hi hq
  obtain ⟨x, hx⟩ := hd.exists_component? (hlt a ha)
  obtain ⟨y, hy⟩ := hd.exists_component? (hlt b hb)
  have hxlt := Layout.component?_lt hx
  have hylt := Layout.component?_lt hy
  obtain rfl : x = y := by omega
  rw [hx, hy]

/-- A layout that keeps every group in one part keeps operands together. -/
theorem together_of_groups (h : d.Reads es) (hn : Narrow d) {physical : List Qubit}
    (hgroups : ∀ group ∈ Layout.interactionGroups d, ∃ part, ∀ q ∈ group, ∃ p,
      physical[q]? = some p ∧ device.component? p = some part)
    {place : Qubit → Qubit} (hplace : ∀ q < d.numQubits, physical[q]? = some (place q)) :
    Together device d place := by
  intro id i a b hi hg hq
  obtain ⟨ha, hb⟩ := operands_lt h hi hq
  have hab : a ≠ b := by
    have hd := (h.fits (h.mem_iff.mpr hi)).distinct
    rw [hq] at hd
    simpa using hd
  have hlabel := Layout.label_eq_of_interaction h
    ((Layout.mem_interactions_iff hn).mpr ⟨id, i, hi, hg, hq⟩)
  obtain ⟨group, hgroup, hag, hbg⟩ := Layout.exists_group ha hb hab hlabel
  obtain ⟨part, hpart⟩ := hgroups group hgroup
  obtain ⟨p, hp, hpc⟩ := hpart a hag
  obtain ⟨q, hq, hqc⟩ := hpart b hbg
  obtain rfl : p = place a := Option.some.inj (hp.symm.trans (hplace a ha))
  obtain rfl : q = place b := Option.some.inj (hq.symm.trans (hplace b hb))
  rw [hpc, hqc]

/-- The first layout keeps operands together. It is missing only where no placement does. -/
theorem firstLayout_spec (hd : device.WellFormed) (h : d.Reads es) (hn : Narrow d)
    (hw : d.numQubits ≤ device.numQubits) (plan : SearchPlan R) :
    (∃ physical, firstLayout device plan d none = .ok (.ofPhysical physical) ∧
      Choice d.numQubits device.numQubits physical ∧
      ∀ place : Qubit → Qubit, (∀ q < d.numQubits, physical[q]? = some (place q)) →
        Together device d place) ∨
    (¬ (∃ place, Suits device d place) ∧
      ∃ reason, firstLayout device plan d none = .error (.unreachableLayout reason)) := by
  unfold firstLayout
  by_cases hi : interacts d = true
  · simp only [hi, Bool.not_true, Bool.false_eq_true, if_false]
    by_cases hparts : device.numComponents > 1
    · rw [if_pos hparts]
      obtain ⟨hlen, hrooms⟩ := Layout.map_length_partRuns plan.initialLayout plan.seed hd
      cases hpack : Packing.pack? ((Layout.interactionGroups d).map List.length)
        ((Layout.partRuns device plan.initialLayout plan.seed).map List.length) with
      | some found =>
        obtain ⟨physical, hok, hc, hgroups⟩ := Layout.ofComponents_eq_ok _ _ hd hw hpack
        exact .inl ⟨physical, hok, hc, fun place hplace => together_of_groups h hn hgroups hplace⟩
      | none =>
        refine .inr ⟨?_, Layout.ofComponents_eq_error _ _ hw hpack⟩
        rintro ⟨place, hs⟩
        obtain ⟨found, hfound⟩ :=
          Packing.exists_pack?_of_distributes (hs.distributes hd h hn hlen hrooms)
        rw [hpack] at hfound
        cases hfound
    · rw [if_neg hparts]
      obtain ⟨physical, hok, hc⟩ := initial_of_le (R := R) plan.initialLayout plan.seed hw
      refine .inl ⟨physical, hok, hc, fun place hplace => ?_⟩
      exact together_of_numComponents hd (by omega) h
        fun q hq => hc.lt _ (List.mem_of_getElem? (hplace q hq))
  · have hno : interacts d = false := by simpa using hi
    obtain ⟨physical, hok, hc⟩ := initial_of_le (R := R) .trivial plan.seed hw
    simp only [hno, Bool.not_false, if_true]
    exact .inl ⟨physical, hok, hc, fun place _ => together_of_not_interacts hno place⟩

omit [Scalar R] in
/-- A circuit that is too wide has no first layout. -/
theorem firstLayout_of_lt (hw : device.numQubits < d.numQubits) (plan : SearchPlan R) :
    firstLayout device plan d none =
      .error (.insufficientQubits d.numQubits device.numQubits) := by
  have hinitial (strategy : LayoutStrategy) :
      (Layout.initial strategy d.numQubits device.numQubits plan.seed : Compile R _) =
        .error (.insufficientQubits d.numQubits device.numQubits) := by
    unfold Layout.initial
    rw [if_pos hw]
  have hcomponents : Layout.ofComponents d device plan.initialLayout plan.seed =
      .error (.insufficientQubits d.numQubits device.numQubits) := by
    rw [Layout.ofComponents, if_pos hw]
  unfold firstLayout
  simp only [hinitial, hcomponents, ite_self]

end First

/-! ## Sweeps -/

section Sweeps

variable [Scalar R] {es : Dag.Entries R} {g : RoutingGraph R} {p : Placement}

theorem exists_ofDag (h : d.Reads es) (hn : Narrow d) :
    ∃ g, RoutingGraph.ofDag d = .ok g ∧ g.numClbits = d.numClbits := by
  have hops : (Compile.ofCircuit d.topologicalOps : Compile R _) = .ok es := by
    rw [h.topologicalOps_eq]
    rfl
  cases hg : RoutingGraph.ofDag d with
  | ok g =>
    refine ⟨g, rfl, ?_⟩
    simp only [RoutingGraph.ofDag, hops, bind, Except.bind] at hg
    split at hg
    · cases hg
    · rw [← Except.ok.inj hg]
  | error x =>
    simp only [RoutingGraph.ofDag, hops, bind, Except.bind] at hg
    split at hg
    · rename_i id i hwide
      have hle := hn id i (h.mem_iff.mp (List.mem_of_find?_eq_some hwide))
      have hgt := List.find?_some hwide
      simp only [Bool.and_eq_true, decide_eq_true_eq] at hgt
      exact absurd (hle hgt.1) (by omega)
    · cases hg

/-- Gates are within reach of a sweep when their operands are together. -/
theorem reaches_iff (h : d.Reads es) (hg : RoutingGraph.ofDag d = .ok g) (plan : SearchPlan R)
    (direction : Direction) :
    Sweep.Reaches ⟨g, device, plan, direction⟩ p ↔ Together device d p.physical := by
  have hnum := RoutingGraph.numbers_of_ofDag h.holds hg
  constructor
  · intro hr id i a b hi hgate hq
    obtain ⟨k, hk⟩ := List.mem_iff_getElem?.mp
      (List.mem_map_of_mem (f := (·.1)) (h.mem_iff.mpr hi))
    refine hr k a b ?_
    rw [RoutingGraph.pair?, hnum.instruction?, hk]
    exact (congrArg (·.bind Instruction.pair?) hi).trans (Sweep.pair?_eq_some.mpr ⟨hgate, hq⟩)
  · intro ht k a b hk
    obtain ⟨i, hi, hpair⟩ := Option.bind_eq_some_iff.mp hk
    obtain ⟨id, -, hid⟩ := Option.bind_eq_some_iff.mp ((hnum.instruction? k).symm.trans hi)
    obtain ⟨hgate, hq⟩ := Sweep.pair?_eq_some.mp hpair
    exact ht id i a b hid hgate hq

/-- What routing writes: swaps on couplings, and operations of the circuit over the qubits where their
operands sit. -/
def Writes (device : Device R) (d : Dag R) (o : Instruction R) : Prop :=
  (∃ a b, o = Sweep.swapGate (a, b) ∧ device.isAdjacent a b = true) ∨
    ∃ (id : Nat) (i : Instruction R) (p : Placement), d.instruction? id = some i ∧
      p.IsPermutation device.numQubits ∧ o = i.mapQubits p.physical

/-- A trial whose output may be executed and whose end is as good a start as its start was. -/
structure Arrives (device : Device R) (d : Dag R) (trial : Trial R) : Prop where
  valid : trial.placement.IsPermutation device.numQubits
  together : Together device d trial.placement.physical
  written : ∀ o ∈ trial.output, Writes device d o
  coupled : ∀ o ∈ trial.output, ∀ a b, o.pair? = some (a, b) → device.isAdjacent a b = true

/-- A sweep from where operands are together arrives. -/
theorem exists_run (hb : device.Built) (h : d.Reads es) (hg : RoutingGraph.ofDag d = .ok g)
    (hw : d.numQubits ≤ device.numQubits) (plan : SearchPlan R) (direction : Direction)
    (hp : p.IsPermutation device.numQubits) (ht : Together device d p.physical) :
    ∃ trial, Sweep.run ⟨g, device, plan, direction⟩ p = .ok trial ∧ Arrives device d trial := by
  have hs := Sweep.sound_of_ofDag h.reachable hg hb hw plan direction
  have hnum := RoutingGraph.numbers_of_ofDag h.holds hg
  have hc := Sweep.checkReachable_eq_ok.mpr ((reaches_iff h hg plan direction).mpr ht)
  obtain ⟨final, done, inserted, hsteps, hh, -⟩ := hs.exists_end hp hc
  refine ⟨final.trial, Sweep.run_eq_ok.mpr ⟨hc, final, hsteps, rfl⟩,
    hh.toTracks.isPermutation hs.device, (reaches_iff h hg plan direction).mp hh.reaches, ?_,
    hh.coupled⟩
  intro o ho
  rcases hh.written o ho with hswap | ⟨k, i, q, hi, hq, rfl⟩
  · exact .inl hswap
  · obtain ⟨id, -, hid⟩ := Option.bind_eq_some_iff.mp ((hnum.instruction? k).symm.trans hi)
    exact .inr ⟨id, i, q, hid, hq, rfl⟩

/-- All sweeps of a search arrive: each one starts where another one ended. Every trial but the last one
is followed by a sweep back. -/
theorem exists_trials (hb : device.Built) (h : d.Reads es) (hg : RoutingGraph.ofDag d = .ok g)
    (hw : d.numQubits ≤ device.numQubits) (plan : SearchPlan R) (rounds : Nat)
    (hp : p.IsPermutation device.numQubits) (ht : Together device d p.physical) :
    ∃ ts, trials g device plan rounds p = .ok (ts, 2 * rounds - 1) ∧ ts.length = rounds ∧
      ∀ t ∈ ts, t.1.IsPermutation device.numQubits ∧ Arrives device d t.2 := by
  induction rounds generalizing p with
  | zero => exact ⟨[], rfl, rfl, by simp⟩
  | succ rounds ih =>
    obtain ⟨forward, hforward, hf⟩ := exists_run hb h hg hw plan .forward hp ht
    cases rounds with
    | zero =>
      refine ⟨[(p, forward)], ?_, rfl, by simpa using ⟨hp, hf⟩⟩
      rw [trials, hforward]
      rfl
    | succ rounds =>
      obtain ⟨backward, hbackward, hbw⟩ := exists_run hb h hg hw plan .reverse hf.valid hf.together
      obtain ⟨ts, hts, hlen, hall⟩ := ih hbw.valid hbw.together
      refine ⟨(p, forward) :: ts, ?_, by simp [hlen], ?_⟩
      · rw [trials, hforward]
        change (Sweep.run _ _ >>= _) = _
        rw [hbackward]
        change (trials _ _ _ _ _ >>= _) = _
        rw [hts, show 2 * (rounds + 1 + 1) - 1 = 2 * (rounds + 1) - 1 + 2 by omega]
        rfl
      · intro t ht
        rcases List.mem_cons.mp ht with rfl | ht
        · exact ⟨hp, hf⟩
        · exact hall t ht

end Sweeps

/-! ## The routed circuit -/

section Search

variable [Scalar R] {es : Dag.Entries R}

omit [Scalar R] in
theorem validate_swapGate (hd : device.WellFormed) {a b : Qubit}
    (hab : device.isAdjacent a b = true) (m : Nat) :
    (Sweep.swapGate (R := R) (a, b)).validate device.numQubits m = .ok () := by
  obtain ⟨ha, hb, hne⟩ := hd.lt_of_isAdjacent hab
  have hs : (Sweep.swapGate (R := R) (a, b)).standard? = some .swap := rfl
  refine Instruction.validate_eq_ok.mpr ⟨(Instruction.checkArity_of_standard? hs).mpr rfl,
    ⟨?_, by simp [Sweep.swapGate, Instruction.ofStandard, Instruction.ofGate], ?_⟩⟩
  · simp [Sweep.swapGate, Instruction.ofStandard, Instruction.ofGate, ha, hb]
  · simpa [Sweep.swapGate, Instruction.ofStandard, Instruction.ofGate] using hne

/-- What routing writes is accepted over the register of the device. -/
theorem Writes.validate (hd : device.WellFormed) (h : d.Reads es)
    (hw : d.numQubits ≤ device.numQubits) {o : Instruction R} (ho : Writes device d o) :
    o.validate device.numQubits d.numClbits = .ok () ∧ o.clbits.Nodup := by
  rcases ho with ⟨a, b, rfl, hab⟩ | ⟨id, i, p, hi, hp, rfl⟩
  · exact ⟨validate_swapGate hd hab _, List.nodup_nil⟩
  · have hmem := h.mem_iff.mpr hi
    have hlt : ∀ q ∈ i.qubits, q < device.numQubits :=
      fun q hq => ((h.fits hmem).qubits q hq).trans_le hw
    have hclbits : i.clbits.Nodup := h.nodup_clbits hmem
    refine ⟨Instruction.validate_mapQubits (h.valid _ hmem) ?_ ?_, hclbits⟩
    · exact fun q hq => hp.physical_lt q (hlt q hq)
    · exact fun k hk l hl => hp.physical_inj (hlt k hk) (hlt l hl)

/-- What routing has made of a circuit: operations over the register of the device, written for the
circuit, with every two-qubit gate on a coupling. -/
structure Realizes (device : Device R) (d e : Dag R) : Prop where
  reachable : e.Reachable
  numQubits : e.numQubits = device.numQubits
  numClbits : e.numClbits = d.numClbits
  written : ∀ id o, e.instruction? id = some o → Writes device d o
  coupled : ∀ id o a b, e.instruction? id = some o → o.pair? = some (a, b) →
    device.isAdjacent a b = true

theorem exists_finish (hd : device.WellFormed) (h : d.Reads es) {g : RoutingGraph R}
    (hclbits : g.numClbits = d.numClbits) (hw : d.numQubits ≤ device.numQubits)
    (start : Placement) {trial : Trial R} (ht : Arrives device d trial) (sweeps : Nat) :
    ∃ r, finish g device start trial sweeps = .ok r ∧ Realizes device d r.dag := by
  obtain ⟨e, es', he, hr, hes, hq, hc⟩ := Dag.exists_reads_ofInstructions device.numQubits
    g.numClbits trial.output
    (fun o ho => hclbits ▸ ((ht.written o ho).validate hd h hw).1)
    (fun o ho => ((ht.written o ho).validate hd h hw).2)
  have hmem {id : Nat} {o : Instruction R} (ho : e.instruction? id = some o) : o ∈ trial.output :=
    hes ▸ List.mem_map_of_mem (f := (·.2)) (hr.mem_iff.mpr ho)
  refine ⟨⟨e.setPhase g.phase, start.toLayout, trial.placement.toLayout,
    ⟨trial.swaps, sweeps, trial.forced⟩⟩, ?_, hr.reachable.phase _, hq, hc.trans hclbits, ?_, ?_⟩
  · rw [finish, he]
    rfl
  · exact fun id o ho => ht.written o (hmem ho)
  · exact fun id o a b ho => ht.coupled o (hmem ho) a b

/-- How many forward sweeps a search makes. -/
def rounds (d : Dag R) (plan : SearchPlan R) : Nat := if interacts d then plan.maxIterations else 1

/-- However its options are set, a search sweeps at least once. -/
theorem rounds_pos (d : Dag R) (device : Device R) (options : SearchOptions R)
    (fallback : Heuristic) : 0 < rounds d (options.resolve device fallback) := by
  unfold rounds
  split
  · exact Nat.lt_of_lt_of_le Nat.one_pos (le_max_right _ _)
  · exact Nat.one_pos

/-- The search from a start where operands are together succeeds. -/
theorem exists_best (hb : device.Built) (h : d.Reads es) (hn : Narrow d)
    (hw : d.numQubits ≤ device.numQubits) (plan : SearchPlan R) {rounds : Nat} (hpos : 0 < rounds)
    {start : Placement} (hp : start.IsPermutation device.numQubits)
    (ht : Together device d start.physical) (heuristic : Heuristic) :
    ∃ g ts sweeps best r, RoutingGraph.ofDag d = .ok g ∧
      trials g device plan rounds start = .ok (ts, sweeps) ∧
      best? heuristic ts = some best ∧ finish g device best.1 best.2 sweeps = .ok r ∧
      Realizes device d r.dag := by
  obtain ⟨g, hg, hclbits⟩ := exists_ofDag h hn
  obtain ⟨ts, hts, hlen, hall⟩ := exists_trials hb h hg hw plan rounds hp ht
  have hne : ts ≠ [] := List.ne_nil_of_length_pos (hlen ▸ hpos)
  obtain ⟨best, hbest, heq⟩ :=
    exists_bestOf? (fun a b => a.2.better heuristic b.2) hne
  obtain ⟨r, hr, hreal⟩ :=
    exists_finish hb.wellFormed h hclbits hw best.1 (hall best hbest).2 (2 * rounds - 1)
  exact ⟨g, ts, _, best, r, hg, hts, heq, hr, hreal⟩

/-- How a search for a layout ends. -/
theorem search_spec (hb : device.Built) (h : d.Reads es) (hn : Narrow d)
    (options : SearchOptions R) (fallback : Heuristic) :
    (d.numQubits ≤ device.numQubits ∧ (∃ place, Suits device d place) ∧
      ∃ r, search device options fallback d none = .ok r ∧ Realizes device d r.dag) ∨
    (d.numQubits ≤ device.numQubits ∧ (¬ ∃ place, Suits device d place) ∧
      ∃ reason, search device options fallback d none = .error (.unreachableLayout reason)) ∨
    (device.numQubits < d.numQubits ∧ search device options fallback d none =
      .error (.insufficientQubits d.numQubits device.numQubits)) := by
  rcases Nat.lt_or_ge device.numQubits d.numQubits with hlt | hw
  · refine .inr (.inr ⟨hlt, ?_⟩)
    rw [search]
    simp only [firstLayout_of_lt hlt]
    rfl
  · rcases firstLayout_spec hb.wellFormed h hn hw (options.resolve device fallback) with
      ⟨physical, hfirst, hc, htogether⟩ | ⟨hno, reason, hfirst⟩
    · obtain ⟨start, hstart, hp, -, hphys⟩ := Placement.exists_ofLayout (R := R) hw hc
      have ht := htogether start.physical hphys
      obtain ⟨g, ts, sweeps, best, r, hg, hts, hbest, hr, hreal⟩ := exists_best hb h hn hw
        (options.resolve device fallback) (rounds_pos d device options fallback) hp ht
        (options.resolve device fallback).heuristic
      refine .inl ⟨hw, ⟨_, suits_of_isPermutation hb.wellFormed h hw hp ht⟩, r, ?_, hreal⟩
      simp only [search, hfirst]
      refine Outcome.bind_eq_ok.mpr ⟨_, rfl, Outcome.bind_eq_ok.mpr ⟨start, hstart,
        Outcome.bind_eq_ok.mpr ⟨g, hg, Outcome.bind_eq_ok.mpr ⟨(ts, sweeps), hts, ?_⟩⟩⟩⟩
      simp only [hbest]
      exact hr
    · refine .inr (.inl ⟨hw, hno, reason, ?_⟩)
      rw [search]
      simp only [hfirst]
      rfl

end Search

end QuantumCompiler.Routing
