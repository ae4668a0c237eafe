import QuantumCompiler.Proofs.Readings
import QuantumCompiler.Proofs.Routing.Search

/-!
# Where a measurement is written

A measurement is written over the physical qubit on which its qubit sits by then. The qubit stays there
as long as no later swap touches the place, and until then whatever reads the place reads the qubit.
-/
namespace QuantumCompiler

variable {R : Type}

/-! ## Qubits that are read once -/

section Once

variable {rs xs ys : List (Qubit × Clbit)} {q : Qubit} {c : Clbit}

/-- The qubit is read once, into a classical bit that takes no other reading. -/
def ReadOnce (rs : List (Qubit × Clbit)) (q : Qubit) (c : Clbit) : Prop :=
  rs.filter (fun x => x.1 = q ∨ x.2 = c) = [(q, c)]

instance (rs : List (Qubit × Clbit)) (q : Qubit) (c : Clbit) : Decidable (ReadOnce rs q c) :=
  inferInstanceAs (Decidable (_ = _))

theorem ReadOnce.perm (h : ReadOnce rs q c) (hp : rs.Perm xs) : ReadOnce xs q c :=
  List.perm_singleton.mp ((hp.filter _).symm.trans (.of_eq h))

theorem ReadOnce.mem (h : ReadOnce rs q c) : (q, c) ∈ rs :=
  List.mem_of_mem_filter (h ▸ List.mem_singleton_self _)

/-- Nothing else is read from the qubit or into the classical bit. -/
theorem readOnce_append_cons : ReadOnce (xs ++ (q, c) :: ys) q c ↔
    ∀ x ∈ xs ++ ys, x.1 ≠ q ∧ x.2 ≠ c := by
  have hnil (zs : List (Qubit × Clbit)) :
      zs.filter (fun x => x.1 = q ∨ x.2 = c) = [] ↔ ∀ x ∈ zs, x.1 ≠ q ∧ x.2 ≠ c := by
    simp
  rw [ReadOnce, List.filter_append, List.filter_cons_of_pos (by simp), List.forall_mem_append, ← hnil,
    ← hnil]
  constructor
  · intro h
    have hlen := congrArg List.length h
    rw [List.length_append, List.length_cons, List.length_singleton] at hlen
    exact ⟨List.eq_nil_of_length_eq_zero (by omega), List.eq_nil_of_length_eq_zero (by omega)⟩
  · rintro ⟨hx, hy⟩
    rw [hx, hy]
    rfl

end Once

namespace Placement

variable {p : Placement} {n : Nat} {q : Qubit}

theorem nodup_toPhysical (h : p.IsPermutation n) : p.toPhysical.toList.Nodup := by
  rw [List.nodup_iff_injective_get]
  rintro ⟨k, hk⟩ ⟨l, hl⟩ heq
  have hsize := h.size_physical
  simp only [Array.length_toList] at hk hl
  have hkl : p.physical k = p.physical l := by
    simpa [physical, hk, hl] using heq
  exact Fin.ext (h.physical_inj (hsize ▸ hk) (hsize ▸ hl) hkl)

/-- The layout of a placement says where the qubits of the circuit sit. -/
theorem physical?_toLayout (h : p.IsPermutation n) (hw : p.width ≤ n) (hq : q < p.width) :
    p.toLayout.physical? q = some (p.physical q) := by
  rw [toLayout, physical?_ofPhysical ((nodup_toPhysical h).sublist (List.take_sublist _ _)),
    List.getElem?_take_of_lt hq]
  have hlt : q < p.toPhysical.size := h.size_physical ▸ hq.trans_le hw
  simp [physical, hlt]

end Placement

namespace Sweep

/-! ## Outputs read back -/

section Replay

variable {ops : List (Instruction R × Bool)} {p : Placement} {n : Nat} {q x : Qubit} {b c : Clbit}

@[simp] theorem readings_swapGate (s : Qubit × Qubit) : (swapGate (R := R) s).readings = [] := rfl

/-- Marks are at swaps of qubits of the register. -/
def Marked (n : Nat) (ops : List (Instruction R × Bool)) : Prop :=
  ∀ i, (i, true) ∈ ops → ∃ a b, i = swapGate (a, b) ∧ a < n ∧ b < n

theorem Marked.tail {o : Instruction R × Bool} (h : Marked n (o :: ops)) : Marked n ops :=
  fun i hi => h i (by simp [hi])

theorem Marked.right {ops' : List (Instruction R × Bool)} (h : Marked n (ops ++ ops')) :
    Marked n ops' :=
  fun i hi => h i (by simp [hi])

theorem Marked.left {ops' : List (Instruction R × Bool)} (h : Marked n (ops ++ ops')) :
    Marked n ops :=
  fun i hi => h i (by simp [hi])

theorem width_replay (p : Placement) (ops : List (Instruction R × Bool)) :
    (replay p ops).2.width = p.width := by
  induction ops generalizing p with
  | nil => rfl
  | cons o ops ih =>
    obtain ⟨i, inserted⟩ := o
    cases inserted with
    | false => exact ih p
    | true =>
      rw [replay]
      split <;> exact ih _

theorem isPermutation_replay (hm : Marked n ops) (hp : p.IsPermutation n) :
    (replay p ops).2.IsPermutation n := by
  induction ops generalizing p with
  | nil => exact hp
  | cons o ops ih =>
    obtain ⟨i, inserted⟩ := o
    cases inserted with
    | false => exact ih hm.tail hp
    | true =>
      obtain ⟨a, b, rfl, ha, hb⟩ := hm i (by simp)
      exact ih hm.tail (Placement.isPermutation_swap hp ha hb)

/-- What is read back was written by some operation, from where the placement was by then. -/
theorem exists_written {i : Instruction R} (hm : Marked n ops) (hi : i ∈ (replay p ops).1) :
    ∃ before o after, ops = before ++ (o, false) :: after ∧
      i = o.mapQubits (replay p before).2.logical := by
  induction ops generalizing p with
  | nil => cases hi
  | cons o ops ih =>
    obtain ⟨k, inserted⟩ := o
    cases inserted with
    | false =>
      rcases List.mem_cons.mp hi with rfl | hi
      · exact ⟨[], k, ops, rfl, rfl⟩
      · obtain ⟨before, o, after, rfl, rfl⟩ := ih hm.tail hi
        exact ⟨(k, false) :: before, o, after, rfl, rfl⟩
    | true =>
      obtain ⟨a, b, rfl, -⟩ := hm k (by simp)
      obtain ⟨before, o, after, rfl, rfl⟩ := ih hm.tail (p := p.swap a b) hi
      exact ⟨(swapGate (a, b), true) :: before, o, after, rfl, rfl⟩

/-- What is not inserted is read back, over some qubits. -/
theorem exists_mem_replay {o : Instruction R} (hm : Marked n ops) (ho : (o, false) ∈ ops) :
    ∃ f, o.mapQubits f ∈ (replay p ops).1 := by
  obtain ⟨before, after, rfl⟩ := List.append_of_mem ho
  rw [replay_append]
  exact ⟨(replay p before).2.logical, List.mem_append_right _ (List.mem_cons_self)⟩

/-- Every reading of the output reads back as one into the same classical bit. -/
theorem exists_reading (hm : Marked n ops) (hx : (x, b) ∈ readings (ops.map Prod.fst)) :
    ∃ q, (q, b) ∈ readings (replay p ops).1 := by
  induction ops generalizing p with
  | nil => cases hx
  | cons o ops ih =>
    obtain ⟨i, inserted⟩ := o
    rw [List.map_cons, readings_cons, List.mem_append] at hx
    cases inserted with
    | false =>
      simp only [replay, readings_cons, List.mem_append]
      rcases hx with hx | hx
      · refine ⟨p.logical x, .inl ?_⟩
        rw [Instruction.readings_mapQubits]
        exact List.mem_map_of_mem (f := fun y => (p.logical y.1, y.2)) hx
      · obtain ⟨q, hq⟩ := ih hm.tail hx
        exact ⟨q, .inr hq⟩
    | true =>
      obtain ⟨a, d, rfl, -⟩ := hm i (by simp)
      exact ih hm.tail (hx.resolve_left (by simp))

/-- No marked swap is on the physical qubit. -/
def Rests (ops : List (Instruction R × Bool)) (x : Qubit) : Prop :=
  ∀ a b, (swapGate (a, b), true) ∈ ops → x ≠ a ∧ x ≠ b

/-- A qubit on which no swap is done stays, and what reads its place reads it. -/
theorem stays_of_rests (hm : Marked n ops) (hp : p.IsPermutation n) (hq : q < n)
    (hr : Rests ops (p.physical q)) : (replay p ops).2.physical q = p.physical q ∧
      ∀ b, (p.physical q, b) ∈ readings (ops.map Prod.fst) → (q, b) ∈ readings (replay p ops).1 := by
  -- the place of the qubit is the same after every operation, so each step starts like the first
  induction ops generalizing p with
  | nil => exact ⟨rfl, fun b hb => by cases hb⟩
  | cons o ops ih =>
    obtain ⟨i, inserted⟩ := o
    simp only [List.map_cons, readings_cons, List.mem_append]
    cases inserted with
    | false =>
      obtain ⟨hstay, hread⟩ := ih hm.tail hp fun a b hab => hr a b (by simp [hab])
      refine ⟨hstay, fun b hb => ?_⟩
      simp only [replay, readings_cons, List.mem_append]
      refine hb.imp (fun hb => ?_) (hread b)
      rw [Instruction.readings_mapQubits, List.mem_map]
      exact ⟨_, hb, by rw [hp.logical_physical q hq]⟩
    | true =>
      obtain ⟨a, d, rfl, ha, hd⟩ := hm i (by simp)
      obtain ⟨hxa, hxd⟩ := hr a d (by simp)
      have hsame : (p.swap a d).physical q = p.physical q := by
        rw [Placement.physical_swap hp ha hd hq, Equiv.swap_apply_of_ne_of_ne hxa hxd]
      obtain ⟨hstay, hread⟩ := ih hm.tail (Placement.isPermutation_swap hp ha hd) (by
        rw [hsame]
        exact fun a b hab => hr a b (by simp [hab]))
      rw [hsame] at hstay hread
      exact ⟨hstay, fun b hb => hread b (hb.resolve_left (by simp))⟩

/-- A qubit that is read once is read where it sits by then. Nothing else is read into its classical
bit, and if no later swap is on that place, then the qubit stays there and nothing else is read there
later. -/
theorem exists_measure (hm : Marked n ops) (hp : p.IsPermutation n)
    (hlt : ∀ o ∈ ops, ∀ x ∈ o.1.qubits, x < n)
    (hone : ∀ o ∈ ops, o.1.isMeasure = true → o.1.qubits.length = 1 ∧ o.1.clbits.length = 1)
    (honce : ReadOnce (readings (replay p ops).1) q c) :
    ∃ before after x, ops = before ++ (.measure x c, false) :: after ∧
      (replay p before).2.physical q = x ∧
      (∀ y ∈ readings (before.map Prod.fst) ++ readings (after.map Prod.fst), y.2 ≠ c) ∧
      (Rests after x → (replay p ops).2.physical q = x ∧
        x ∉ (readings (after.map Prod.fst)).map Prod.fst) := by
  obtain ⟨i, hi, hqc⟩ := List.mem_flatMap.mp honce.mem
  obtain ⟨before, o, after, rfl, rfl⟩ := exists_written hm hi
  rw [Instruction.readings_mapQubits, List.mem_map] at hqc
  obtain ⟨⟨x, b⟩, hx, hpair⟩ := hqc
  obtain ⟨hxq, rfl⟩ : (replay p before).2.logical x = q ∧ b = c := Prod.mk.inj hpair
  have hmem : (o, false) ∈ before ++ (o, false) :: after := by simp
  obtain ⟨hqs, hcs⟩ := hone (o, false) hmem (Instruction.isMeasure_of_mem_readings hx)
  obtain rfl : o = .measure x b := Instruction.eq_measure_of_mem_readings hqs.le hcs.le hx
  have hb : (replay p before).2.IsPermutation n := isPermutation_replay hm.left hp
  have hxn : x < n := hlt (.measure x b, false) hmem x (List.mem_singleton_self x)
  have hphys : (replay p before).2.physical q = x := by
    rw [← hxq, hb.physical_logical x hxn]
  have hqn : q < n := hxq ▸ hb.logical_lt x hxn
  have hafter : Marked n after := hm.right.tail
  have hsplit : ReadOnce (readings (replay p before).1 ++
      (q, b) :: readings (replay (replay p before).2 after).1) q b := by
    rw [replay_append, readings_append, replay, readings_cons, Instruction.readings_mapQubits,
      Instruction.readings_measure, List.map_singleton, hxq] at honce
    exact honce
  -- whatever else is written reads back as a reading of another qubit into another bit
  have hother := readOnce_append_cons.mp hsplit
  refine ⟨before, after, x, rfl, hphys, fun y hy => ?_, fun hrests => ?_⟩
  · rcases List.mem_append.mp hy with hy | hy
    · obtain ⟨r, hr⟩ := exists_reading (p := p) hm.left hy
      exact (hother (r, y.2) (List.mem_append_left _ hr)).2
    · obtain ⟨r, hr⟩ := exists_reading (p := (replay p before).2) hafter hy
      exact (hother (r, y.2) (List.mem_append_right _ hr)).2
  · obtain ⟨hstay, hread⟩ := stays_of_rests hafter hb hqn (hphys.symm ▸ hrests)
    rw [hphys] at hstay hread
    refine ⟨?_, fun hmem => ?_⟩
    · rw [replay_append]
      exact hstay
    · obtain ⟨⟨y, d⟩, hy, rfl⟩ := List.mem_map.mp hmem
      exact (hother (q, d) (List.mem_append_right _ (hread d hy))).1 rfl

end Replay

/-! ## Trials of circuits -/

section Trials

variable [Scalar R] {d : Dag R} {es : Dag.Entries R} {g : RoutingGraph R} {device : Device R}
  {plan : SearchPlan R} {direction : Direction} {start : Placement} {trial : Trial R}
  {inserted : List Bool} {order : List Nat}

omit [Scalar R] in
theorem Routes.marked (hd : device.WellFormed)
    (h : Routes d direction device start trial inserted order) :
    Marked device.numQubits (trial.output.zip inserted) := by
  intro i hi
  obtain ⟨a, b, rfl, hab⟩ := h.swaps i hi
  obtain ⟨ha, hb, -⟩ := hd.lt_of_isAdjacent hab
  exact ⟨a, b, rfl, ha, hb⟩

omit [Scalar R] in
/-- A sweep ends on a placement of the same qubits. -/
theorem Routes.ends (hd : device.WellFormed)
    (h : Routes d direction device start trial inserted order)
    (hp : start.IsPermutation device.numQubits) :
    trial.placement.IsPermutation device.numQubits ∧ trial.placement.width = start.width := by
  rw [h.placement]
  exact ⟨isPermutation_replay (h.marked hd) hp, width_replay _ _⟩

/-- Read back, an output has the operations of the circuit. -/
theorem Routes.perm (h : Routes d direction device start trial inserted order) (hr : d.Reads es) :
    (replay start (trial.output.zip inserted)).1.Perm (es.map (·.2)) := by
  have hes : (es.map (·.1)).filterMap d.instruction? = es.map (·.2) := by
    rw [List.filterMap_map, ← List.filterMap_eq_map]
    exact List.filterMap_congr fun x hx => hr.mem_iff.mp hx
  have hops : (replay start (trial.output.zip inserted)).1 = order.filterMap d.instruction? := by
    have h' := congrArg (List.filterMap id) h.operations
    simpa [List.filterMap_map] using h'
  rw [hops, ← hes]
  exact (h.once.trans hr.holds.represents.toListed.perm_nodes).filterMap _

/-- Read back, an output has the readings of the circuit. -/
theorem Routes.readings (h : Routes d direction device start trial inserted order) (hr : d.Reads es) :
    (QuantumCompiler.readings (replay start (trial.output.zip inserted)).1).Perm
      (QuantumCompiler.readings (es.map (·.2))) :=
  (h.perm hr).flatMap_right _

omit [Scalar R] in
/-- The swaps that are counted are those with a mark. -/
theorem Routes.countP (h : Routes d direction device start trial inserted order) :
    trial.swaps = (trial.output.zip inserted).countP Prod.snd := by
  have hsnd : (trial.output.zip inserted).map Prod.snd = inserted :=
    List.map_snd_zip h.length.le
  rw [h.count]
  nth_rewrite 1 [← hsnd]
  rw [List.count, List.countP_map]
  exact List.countP_congr fun x _ => by simp

/-- Operations of the output that are no marked swaps are operations of the circuit, on other qubits. -/
theorem Routes.exists_mapQubits (hd : device.WellFormed)
    (h : Routes d direction device start trial inserted order) (hr : d.Reads es)
    {o : Instruction R × Bool} (ho : o ∈ trial.output.zip inserted) :
    (∃ a b, o.1 = swapGate (a, b)) ∨ ∃ f, o.1.mapQubits f ∈ es.map (·.2) := by
  obtain ⟨i, mark⟩ := o
  cases mark with
  | true =>
    obtain ⟨a, b, rfl, -⟩ := h.swaps i ho
    exact .inl ⟨a, b, rfl⟩
  | false =>
    obtain ⟨f, hf⟩ := exists_mem_replay (p := start) (h.marked hd) ho
    exact .inr ⟨f, (h.perm hr).mem_iff.mp hf⟩

/-- A sweep of a circuit routes it, with the classical bits of its operations. -/
theorem exists_routes (h : d.Reads es) (hg : RoutingGraph.ofDag d = .ok g) (hb : device.Built)
    (hn : d.numQubits ≤ device.numQubits) (hp : start.IsPermutation device.numQubits)
    (hrun : run ⟨g, device, plan, direction⟩ start = .ok trial) :
    (∃ inserted order, Routes d direction device start trial inserted order) ∧
      ∀ o ∈ trial.output, o.clbits.Nodup := by
  have hs := sound_of_ofDag h.reachable hg hb hn plan direction
  have hnum := RoutingGraph.numbers_of_ofDag h.holds hg
  obtain ⟨hc, final, hsteps, rfl⟩ := run_eq_ok.mp hrun
  obtain ⟨final', done, inserted, hsteps', hh, hfront⟩ := hs.exists_end hp hc
  obtain rfl := Except.ok.inj (hsteps.symm.trans hsteps')
  refine ⟨⟨inserted, _, hh.routes hs hfront hnum h.holds.represents⟩, fun o ho => ?_⟩
  rcases hh.written o ho with ⟨a, b, rfl, -⟩ | ⟨k, i, p, hi, -, rfl⟩
  · exact List.nodup_nil
  · obtain ⟨id, -, hid⟩ := Option.bind_eq_some_iff.mp ((hnum.instruction? k).symm.trans hi)
    have hc : i.clbits.Nodup := h.nodup_clbits (h.mem_iff.mpr hid)
    exact hc

end Trials

end Sweep

namespace Routing

variable [Scalar R] {device : Device R} {d : Dag R} {es : Dag.Entries R} {g : RoutingGraph R}
  {options : SearchOptions R} {fallback : Heuristic} {r : Routed R}

/-- A routed circuit with the trial that it was made of. -/
structure MadeOf (device : Device R) (d : Dag R) (r : Routed R) (start : Placement)
    (trial : Trial R) : Prop where
  routes : ∃ inserted order, Sweep.Routes d .forward device start trial inserted order
  fits : d.numQubits ≤ device.numQubits
  isPermutation : start.IsPermutation device.numQubits
  width : start.width = d.numQubits
  reads : ∃ es, r.dag.Reads es ∧ es.map (·.2) = trial.output
  numQubits : r.dag.numQubits = device.numQubits
  initial : r.initial = start.toLayout
  final : r.final = trial.placement.toLayout
  swaps : r.stats.swaps = trial.swaps

namespace MadeOf

variable {start : Placement} {trial : Trial R}

theorem linearize_eq (h : MadeOf device d r start trial) : r.dag.linearize = .ok trial.output := by
  obtain ⟨es, hr, hes⟩ := h.reads
  exact hes ▸ hr.linearize_eq

theorem readout_eq (h : MadeOf device d r start trial) : r.dag.readout = readings trial.output := by
  obtain ⟨es, hr, hes⟩ := h.reads
  exact hes ▸ hr.readout_eq

/-- What is written is written on the device. -/
theorem qubits_lt (h : MadeOf device d r start trial) :
    ∀ i ∈ trial.output, ∀ q ∈ i.qubits, q < device.numQubits := by
  obtain ⟨es, hr, hes⟩ := h.reads
  intro i hi q hq
  obtain ⟨x, hx, rfl⟩ := List.mem_map.mp (hes ▸ hi)
  exact h.numQubits ▸ (hr.fits hx).qubits q hq

theorem ends (hd : device.WellFormed) (h : MadeOf device d r start trial) :
    trial.placement.IsPermutation device.numQubits ∧ trial.placement.width = d.numQubits := by
  obtain ⟨inserted, order, hroutes⟩ := h.routes
  exact (hroutes.ends hd h.isPermutation).imp_right (·.trans h.width)

end MadeOf

theorem madeOf_finish {start : Placement} {trial : Trial R} {sweeps : Nat} (h : d.Reads es)
    (hg : RoutingGraph.ofDag d = .ok g) (hb : device.Built) (hn : d.numQubits ≤ device.numQubits)
    (hp : start.IsPermutation device.numQubits) (hw : start.width = d.numQubits)
    {plan : SearchPlan R} (hrun : Sweep.run ⟨g, device, plan, .forward⟩ start = .ok trial)
    (hr : finish g device start trial sweeps = .ok r) : MadeOf device d r start trial := by
  obtain ⟨hroutes, hclbits⟩ := Sweep.exists_routes h hg hb hn hp hrun
  obtain ⟨e, he, hr⟩ := Outcome.bind_eq_ok.mp hr
  rw [Outcome.ofCircuit_eq_ok] at he
  obtain rfl := Except.ok.inj hr
  obtain ⟨es', hreads, hes, hq⟩ := Dag.reads_of_ofInstructions hclbits he
  exact ⟨hroutes, hn, hp, hw, ⟨es', hreads.withPhase _, hes⟩, hq, rfl, rfl, rfl⟩

/-- Every trial of a search is a sweep from a placement of the circuit. -/
theorem forall_trials (h : d.Reads es) (hg : RoutingGraph.ofDag d = .ok g) (hb : device.Built)
    (hn : d.numQubits ≤ device.numQubits) {plan : SearchPlan R} {rounds : Nat} {start : Placement}
    (hp : start.IsPermutation device.numQubits) {ts : List (Placement × Trial R)} {sweeps : Nat}
    (hts : trials g device plan rounds start = .ok (ts, sweeps)) :
    ∀ t ∈ ts, t.1.IsPermutation device.numQubits ∧ t.1.width = start.width ∧
      Sweep.run ⟨g, device, plan, .forward⟩ t.1 = .ok t.2 := by
  induction rounds generalizing start ts sweeps with
  | zero =>
    obtain ⟨rfl, -⟩ := Prod.mk.inj (Except.ok.inj hts)
    exact List.forall_mem_nil _
  | succ rounds ih =>
    obtain ⟨forward, hforward, hts⟩ := Outcome.bind_eq_ok.mp hts
    obtain ⟨⟨_, _, hroutes⟩, -⟩ := Sweep.exists_routes h hg hb hn hp hforward
    obtain ⟨hfp, hfw⟩ := hroutes.ends hb.wellFormed hp
    cases rounds with
    | zero =>
      obtain ⟨rfl, -⟩ := Prod.mk.inj (Except.ok.inj hts)
      exact List.forall_mem_singleton.mpr ⟨hp, rfl, hforward⟩
    | succ rounds =>
      obtain ⟨backward, hbackward, hts⟩ := Outcome.bind_eq_ok.mp hts
      obtain ⟨⟨rest, more⟩, hrest, hts⟩ := Outcome.bind_eq_ok.mp hts
      obtain ⟨rfl, -⟩ := Prod.mk.inj (Except.ok.inj hts)
      obtain ⟨⟨_, _, hroutes'⟩, -⟩ := Sweep.exists_routes h hg hb hn hfp hbackward
      obtain ⟨hbp, hbw⟩ := hroutes'.ends hb.wellFormed hfp
      refine List.forall_mem_cons.mpr ⟨⟨hp, rfl, hforward⟩, ?_⟩
      rw [← hfw, ← hbw]
      exact ih hbp hrest

theorem madeOf_fromLayout {layout : Layout} (h : d.Reads es) (hb : device.Built)
    (hr : fromLayout device options fallback d layout = .ok r) :
    ∃ start trial, MadeOf device d r start trial := by
  obtain ⟨start, hstart, hr⟩ := Outcome.bind_eq_ok.mp hr
  obtain ⟨g, hg, hr⟩ := Outcome.bind_eq_ok.mp hr
  obtain ⟨trial, htrial, hr⟩ := Outcome.bind_eq_ok.mp hr
  obtain ⟨hn, hp, hw, -⟩ := Placement.of_ofLayout hstart
  exact ⟨start, trial, madeOf_finish h hg hb hn hp hw htrial hr⟩

theorem madeOf_search {given : Option Layout} (h : d.Reads es) (hb : device.Built)
    (hr : search device options fallback d given = .ok r) :
    ∃ start trial, MadeOf device d r start trial := by
  obtain ⟨layout, -, hr⟩ := Outcome.bind_eq_ok.mp hr
  obtain ⟨start, hstart, hr⟩ := Outcome.bind_eq_ok.mp hr
  obtain ⟨g, hg, hr⟩ := Outcome.bind_eq_ok.mp hr
  obtain ⟨⟨ts, sweeps⟩, hts, hr⟩ := Outcome.bind_eq_ok.mp hr
  obtain ⟨hn, hp, hw, -⟩ := Placement.of_ofLayout hstart
  dsimp only at hr
  split at hr
  · cases hr
  · rename_i best trial hbest
    obtain ⟨hbp, hbw, hrun⟩ :=
      forall_trials h hg hb hn hp hts _ (mem_of_bestOf? hbest)
    exact ⟨best, trial, madeOf_finish h hg hb hn hbp (hbw.trans hw) hrun hr⟩

end Routing

end QuantumCompiler
