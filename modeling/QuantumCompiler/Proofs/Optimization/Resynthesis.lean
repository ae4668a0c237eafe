import QuantumCompiler.Optimization.Runs
import QuantumCompiler.Proofs.Lowering.Settled

/-!
# Runs do not get in each other's way

A run is a row of gates on one qubit, and no operation is in two runs. A shorter sequence only touches
the nodes of its run, so every other run is still where it was found, and no exchange or removal is
refused. Resynthesis fails at a missed tolerance and nowhere else.
-/
namespace QuantumCompiler

open Outcome (Faultless Yields faultless_ok yields_ok yields_of_eq_ok)

variable {R : Type} [Scalar R]

namespace Dag

/-- A reachable graph over the same register that differs at some nodes at most. -/
structure ChangedAt (nodes : List Nat) (d e : Dag R) : Prop where
  reachable : e.Reachable
  numQubits : e.numQubits = d.numQubits
  numClbits : e.numClbits = d.numClbits
  elsewhere : ∀ k, k ∉ nodes → e.instruction? k = d.instruction? k

theorem ChangedAt.refl {d : Dag R} (h : d.Reachable) : ChangedAt [] d d :=
  ⟨h, rfl, rfl, fun _ _ => rfl⟩

theorem ChangedAt.trans {ks ls : List Nat} {d e f : Dag R} (h : ChangedAt ks d e)
    (g : ChangedAt ls e f) : ChangedAt (ks ++ ls) d f := by
  refine ⟨g.reachable, g.numQubits.trans h.numQubits, g.numClbits.trans h.numClbits, ?_⟩
  intro k hk
  rw [List.mem_append, not_or] at hk
  exact (g.elsewhere k hk.2).trans (h.elsewhere k hk.1)

theorem ChangedAt.mono {ks ls : List Nat} {d e : Dag R} (h : ChangedAt ks d e)
    (hs : ∀ k ∈ ks, k ∈ ls) : ChangedAt ls d e :=
  ⟨h.reachable, h.numQubits, h.numClbits, fun k hk => h.elsewhere k fun hm => hk (hs k hm)⟩

section Changes

variable {d : Dag R} {id : Nat} {i j : Instruction R}

/-- Exchanging an instruction for an acceptable one on its wires is done, and nothing else changes. -/
theorem Reachable.exists_replace (h : d.Reachable) (hi : d.instruction? id = some i)
    (hv : j.validate d.numQubits d.numClbits = .ok ()) (hc : j.clbits.Nodup)
    (hp : j.wires.Perm i.wires) : ∃ e, d.replace id j = .ok e ∧ ChangedAt [id] d e := by
  obtain ⟨es, hr⟩ := h.exists_reads
  obtain ⟨e, he, hre, hs⟩ := hr.exchange (hr.mem_iff.mpr hi) hv hc hp
  refine ⟨e, he, hre.reachable, hs.numQubits, hs.numClbits, fun k hk => Option.ext fun x => ?_⟩
  have hne : k ≠ id := by simpa using hk
  rw [← hre.mem_iff, ← hr.mem_iff, List.mem_map]
  constructor
  · rintro ⟨y, hy, he⟩
    split at he
    · exact absurd (congrArg Prod.fst he).symm hne
    · exact he ▸ hy
  · exact fun hx => ⟨(k, x), hx, if_neg hne⟩

/-- Removing an operation is done, and nothing else changes. -/
theorem Reachable.exists_remove (h : d.Reachable) (hi : d.instruction? id = some i) :
    ∃ j e, d.remove id = .ok (j, e) ∧ ChangedAt [id] d e := by
  obtain ⟨es, hr⟩ := h.exists_reads
  obtain ⟨a, b, rfl⟩ := List.append_of_mem (hr.mem_iff.mpr hi)
  obtain ⟨j, e, he, hre, hs⟩ := hr.remove
  refine ⟨j, e, he, hre.reachable, hs.numQubits, hs.numClbits, fun k hk => Option.ext fun x => ?_⟩
  have hne : k ≠ id := by simpa using hk
  rw [← hre.mem_iff, ← hr.mem_iff]
  simp [hne]

end Changes

theorem ChangedAt.addPhase {ks : List Nat} {d e : Dag R} (h : ChangedAt ks d e) (phase : R) :
    ChangedAt ks d (e.addPhase phase) :=
  ⟨h.reachable.phase _, h.numQubits, h.numClbits, h.elsewhere⟩

end Dag

namespace Runs

variable {d : Dag R} {run : Run R}

/-- A gate on a qubit and on no other wire is at the node. -/
def BareAt (d : Dag R) (q : Qubit) (k : Nat) : Prop :=
  ∃ i, d.instruction? k = some i ∧ i.qubits = [q] ∧ i.clbits = []

/-- A one-qubit gate may take the place of a gate on the same qubit. -/
theorem BareAt.exists_replace {q : Qubit} {k : Nat} (h : BareAt d q k) (hd : d.Reachable)
    {g : StandardGate R} (hg : g.numQubits = 1) :
    ∃ e, d.replace k (.ofStandard g [q]) = .ok e ∧ Dag.ChangedAt [k] d e := by
  obtain ⟨i, hi, hq, hc⟩ := h
  obtain ⟨es, hr⟩ := hd.exists_reads
  have hnarrow : (Instruction.ofStandard g [q]).Narrow i.qubits :=
    Instruction.narrow_one hg (by simp [hq])
  refine hd.exists_replace hi (hnarrow.validate (hr.valid _ (hr.mem_iff.mpr hi))) List.nodup_nil
    (.of_eq ?_)
  simp [Instruction.wires, Instruction.ofStandard, Instruction.ofGate, hq, hc]

/-- Gates that take the place of gates on the same qubit are all put there. -/
theorem changedAt_replaceAll {q : Qubit} {xs : List (Nat × StandardGate R)}
    (hn : (xs.map (·.1)).Nodup) (hb : ∀ x ∈ xs, BareAt d q x.1 ∧ x.2.numQubits = 1)
    (hd : d.Reachable) :
    ∃ e, xs.foldlM (fun d x => Compile.ofCircuit (d.replace x.1 (.ofStandard x.2 [q]))) d =
        (.ok e : Compile R _) ∧ Dag.ChangedAt (xs.map (·.1)) d e := by
  induction xs generalizing d with
  | nil => exact ⟨d, rfl, .refl hd⟩
  | cons x xs ih =>
    obtain ⟨hnot, hn⟩ := List.nodup_cons.mp hn
    obtain ⟨hx, hg⟩ := hb x (by simp)
    obtain ⟨f, hf, hchange⟩ := hx.exists_replace hd hg
    obtain ⟨e, he, hrest⟩ := ih hn (fun y hy => by
      have hne : y.1 ∉ [x.1] := fun hm => hnot (List.mem_map.mpr ⟨y, hy, List.mem_singleton.mp hm⟩)
      rw [BareAt, hchange.elsewhere y.1 hne]
      exact hb y (by simp [hy])) hchange.reachable
    refine ⟨e, ?_, hchange.trans hrest⟩
    rw [List.foldlM_cons, hf]
    exact he

/-- Operations that are there are all removed. -/
theorem changedAt_removeAll {ks : List Nat} (hn : ks.Nodup)
    (hk : ∀ k ∈ ks, ∃ i, d.instruction? k = some i) (hd : d.Reachable) :
    ∃ e, ks.foldlM (fun (d : Dag R) k => do return (← Compile.ofCircuit (d.remove k)).2) d =
        (.ok e : Compile R _) ∧ Dag.ChangedAt ks d e := by
  induction ks generalizing d with
  | nil => exact ⟨d, rfl, .refl hd⟩
  | cons k ks ih =>
    obtain ⟨hnot, hn⟩ := List.nodup_cons.mp hn
    obtain ⟨i, hi⟩ := hk k (by simp)
    obtain ⟨j, f, hf, hchange⟩ := hd.exists_remove hi
    obtain ⟨e, he, hrest⟩ := ih hn (fun l hl => by
      have hne : l ∉ [k] := fun hm => hnot (List.mem_singleton.mp hm ▸ hl)
      rw [hchange.elsewhere l hne]
      exact hk l (by simp [hl])) hchange.reachable
    refine ⟨e, ?_, hchange.trans hrest⟩
    rw [List.foldlM_cons, hf]
    exact he

omit [Scalar R] in
/-- The nodes that get a gate are the first ones. -/
theorem map_fst_zip_eq_take (nodes : List Nat) (gates : List (StandardGate R)) :
    (nodes.zip gates).map (·.1) = nodes.take gates.length := by
  rw [List.zip_eq_zip_take_min]
  exact (List.map_fst_zip (by simp)).trans (List.take_eq_take_iff.mpr (by omega))

/-- A run as it was found: bare gates on its qubit, at nodes that differ. -/
structure Run.At (d : Dag R) (run : Run R) : Prop where
  nodup : (run.members.map (·.1)).Nodup
  bare : ∀ k ∈ run.members.map (·.1), BareAt d run.qubit k

/-- Putting one-qubit gates in the place of a run is done, and it only touches the run. -/
theorem Run.At.exists_place (h : run.At d) (hd : d.Reachable) {s : OneQubitSequence R}
    (hs : ∀ g ∈ s.gates, g.numQubits = 1) :
    ∃ e, place d run s = .ok e ∧ Dag.ChangedAt (run.members.map (·.1)) d e := by
  obtain ⟨hn, hb⟩ := h
  generalize hnodes : run.members.map (·.1) = nodes at hn hb ⊢
  have hsplit : nodes.take s.gates.length ++ nodes.drop s.gates.length = nodes :=
    List.take_append_drop _ _
  rw [← hsplit, List.nodup_append] at hn
  obtain ⟨hfirst, hrest, hdisjoint⟩ := hn
  have hzip := map_fst_zip_eq_take nodes s.gates
  have hbare : ∀ x ∈ nodes.zip s.gates, BareAt d run.qubit x.1 ∧ x.2.numQubits = 1 :=
    fun x hx => ⟨hb x.1 (List.of_mem_zip hx).1, hs x.2 (List.of_mem_zip hx).2⟩
  obtain ⟨f, hf, hchange⟩ := changedAt_replaceAll (hzip ▸ hfirst) hbare hd
  rw [hzip] at hchange
  obtain ⟨e, he, hremoved⟩ := changedAt_removeAll hrest (fun k hk => by
    rw [hchange.elsewhere k fun hm => hdisjoint k hm k hk rfl]
    obtain ⟨i, hi, -⟩ := hb k (List.mem_of_mem_drop hk)
    exact ⟨i, hi⟩) hchange.reachable
  refine ⟨e.addPhase s.phase, ?_, hsplit ▸ (hchange.trans hremoved).addPhase _⟩
  rw [place, hnodes]
  refine Outcome.bind_eq_ok.mpr ⟨f, hf, Outcome.bind_eq_ok.mpr ⟨e, he, rfl⟩⟩

/-- Resynthesizing a run blames the input if it fails, and it only touches the run. -/
theorem Run.At.yields_resynthesize (h : run.At d) (hd : d.Reachable) (family : EulerFamily)
    (executes : StandardGate R → Bool) :
    Yields (resynthesize family executes d run)
      (Dag.ChangedAt (run.members.map (·.1)) d) := by
  have hsame : Dag.ChangedAt (run.members.map (·.1)) d d := ⟨hd, rfl, rfl, fun _ _ => rfl⟩
  unfold resynthesize
  split
  · exact yields_ok hsame
  · rename_i u _
    refine (Yields.mk (family.missed_synthesize u dropTolerance).faultless_of_missed fun s hs =>
      EulerFamily.emits_synthesize hs).bind fun s hs => ?_
    split
    · obtain ⟨e, he, hchange⟩ := h.exists_place hd fun g hg => (hs g hg).1
      exact yields_of_eq_ok he hchange
    · exact yields_ok hsame

/-- Runs that share no node are resynthesized one after another. -/
theorem faultless_foldlM (family : EulerFamily) (executes : StandardGate R → Bool)
    {runs : List (Run R)} (hn : (runs.flatMap fun run => run.members.map (·.1)).Nodup)
    (h : ∀ run ∈ runs, run.At d) (hd : d.Reachable) :
    Faultless (runs.foldlM (resynthesize family executes) d) := by
  induction runs generalizing d with
  | nil => exact faultless_ok d
  | cons run runs ih =>
    rw [List.flatMap_cons, List.nodup_append] at hn
    obtain ⟨-, hrest, hdisjoint⟩ := hn
    have hfirst := (h run (by simp)).yields_resynthesize hd family executes
    rw [List.foldlM_cons]
    refine hfirst.faultless.bind fun e he => ?_
    have hchange := hfirst.value e he
    -- later runs hold none of the nodes that this one has touched
    refine ih hrest (fun later hl => ?_) hchange.reachable
    obtain ⟨hnodup, hbare⟩ := h later (by simp [hl])
    refine ⟨hnodup, fun k hk => ?_⟩
    have hother : k ∉ run.members.map (·.1) := fun hm =>
      hdisjoint k hm k (List.mem_flatMap.mpr ⟨later, hl, hk⟩) rfl
    rw [BareAt, hchange.elsewhere k hother]
    exact hbare k hk

/-! ## The runs of a graph -/

omit [Scalar R] in
/-- Maximal blocks only leave things out. -/
theorem flatten_maximalRuns {α : Type} (p : α → Bool) (current xs : List α) :
    (maximalRuns p current xs).flatten.Sublist (current ++ xs) := by
  induction xs generalizing current with
  | nil =>
    rw [maximalRuns]
    split <;> simp
  | cons x xs ih =>
    rw [maximalRuns]
    split
    · simpa using ih (current ++ [x])
    · split
      · exact ((ih []).trans (List.sublist_cons_self x xs)).trans (List.sublist_append_right _ _)
      · rw [List.flatten_cons]
        exact ((ih []).trans (List.sublist_cons_self x xs)).append_left current

omit [Scalar R] in
/-- An operation that can be part of a run is a gate on one qubit. -/
theorem of_member?_eq_some {i : Instruction R} {g : StandardGate R} (h : member? i = some g) :
    i.isGate = true ∧ ∃ q, i.qubits = [q] := by
  unfold member? at h
  split at h
  · obtain ⟨hs, -⟩ := Option.filter_eq_some_iff.mp h
    exact ⟨Instruction.isGate_of_standard? hs, List.length_eq_one_iff.mp (by assumption)⟩
  · cases h

/-- The run that a block of neighbours on a qubit makes. -/
def ofBlock (q : Qubit) (block : Dag.Entries R) : Run R :=
  ⟨q, block.filterMap fun x => (member? x.2).map (x.1, ·)⟩

/-- The runs on a qubit. -/
def onQubit (es : Dag.Entries R) (q : Qubit) : List (Run R) :=
  (maximalRuns (fun x => (member? x.2).isSome) []
    (es.filter fun x => x.2.qubits.contains q)).map (ofBlock q)

theorem ofDag_eq {es : Dag.Entries R} (h : d.Reads es) :
    ofDag d = .ok ((List.range d.numQubits).flatMap (onQubit es)) := by
  rw [ofDag, h.topologicalOps_eq]
  rfl

omit [Scalar R] in
theorem nodes_ofBlock (q : Qubit) (block : Dag.Entries R) :
    ((ofBlock q block).members.map (·.1)).Sublist (block.map (·.1)) := by
  induction block with
  | nil => exact List.Sublist.refl _
  | cons x block ih =>
    rw [ofBlock, List.filterMap_cons]
    cases member? x.2 with
    | none => exact ih.cons _
    | some g => exact ih.cons_cons _

omit [Scalar R] in
/-- The nodes of the runs on a qubit are nodes of the list, in order. -/
theorem nodes_onQubit (es : Dag.Entries R) (q : Qubit) :
    ((onQubit es q).flatMap fun run => run.members.map (·.1)).Sublist (es.map (·.1)) := by
  have hblocks (blocks : List (Dag.Entries R)) :
      ((blocks.map (ofBlock q)).flatMap fun run => run.members.map (·.1)).Sublist
        (blocks.flatten.map (·.1)) := by
    induction blocks with
    | nil => exact List.Sublist.refl _
    | cons block blocks ih =>
      rw [List.map_cons, List.flatMap_cons, List.flatten_cons, List.map_append]
      exact (nodes_ofBlock q block).append ih
  have hflat := flatten_maximalRuns (fun x : Nat × Instruction R => (member? x.2).isSome) []
    (es.filter fun x => x.2.qubits.contains q)
  exact (hblocks _).trans ((hflat.trans (List.filter_sublist)).map _)

omit [Scalar R] in
/-- A node of a run on a qubit holds a gate on that qubit that can be part of a run. -/
theorem member_of_mem_onQubit {es : Dag.Entries R} {q : Qubit} (hrun : run ∈ onQubit es q) :
    run.qubit = q ∧ ∀ k ∈ run.members.map (·.1), ∃ i g, (k, i) ∈ es ∧ member? i = some g ∧
      i.qubits = [q] := by
  obtain ⟨block, hblock, rfl⟩ := List.mem_map.mp hrun
  refine ⟨rfl, fun k hk => ?_⟩
  obtain ⟨y, hy, rfl⟩ := List.mem_map.mp hk
  obtain ⟨x, hx, hxy⟩ := List.mem_filterMap.mp hy
  obtain ⟨g, hg, rfl⟩ := Option.map_eq_some_iff.mp hxy
  obtain ⟨-, p, hp⟩ := of_member?_eq_some hg
  have hmem := (flatten_maximalRuns _ _ _).subset (List.mem_flatten.mpr ⟨block, hblock, hx⟩)
  obtain ⟨hes, hq⟩ : x ∈ es ∧ q ∈ x.2.qubits := by simpa using hmem
  refine ⟨x.2, g, hes, hg, ?_⟩
  rw [hp] at hq ⊢
  simpa [eq_comm] using hq

/-- No operation is in two runs. -/
theorem nodup_runs {es : Dag.Entries R} (h : d.Reads es) (n : Nat) :
    (((List.range n).flatMap (onQubit es)).flatMap fun run => run.members.map (·.1)).Nodup := by
  rw [List.flatMap_assoc, List.nodup_flatMap]
  refine ⟨fun q _ => (nodes_onQubit es q).nodup h.nodup, ?_⟩
  refine List.nodup_range.pairwise_of_forall_ne fun p _ q _ hne k hp hq => ?_
  obtain ⟨run, hrun, hk⟩ := List.mem_flatMap.mp hp
  obtain ⟨run', hrun', hk'⟩ := List.mem_flatMap.mp hq
  obtain ⟨i, -, hi, -, hip⟩ := (member_of_mem_onQubit hrun).2 k hk
  obtain ⟨j, -, hj, -, hjq⟩ := (member_of_mem_onQubit hrun').2 k hk'
  obtain rfl : i = j := congrArg Prod.snd (h.unique_node hi hj rfl)
  exact hne (List.singleton_inj.mp (hip.symm.trans hjq))

/-- Resynthesis of a graph whose gates carry no classical bits blames the input if it fails. -/
theorem faultless_all (h : d.HasOnly fun i => i.isGate = true → i.clbits = [])
    (device : Device R) (requested : Option EulerFamily) :
    Faultless (all (some device) requested d) := by
  obtain ⟨es, hr⟩ := h.reachable.exists_reads
  refine (Basis.faultless_resolveFamily device.basis requested).bind fun family? _ => ?_
  cases family? with
  | none => exact faultless_ok d
  | some family =>
    rw [ofDag_eq hr]
    have hn := nodup_runs hr d.numQubits
    refine faultless_foldlM family _ hn (fun run hrun => ?_) h.reachable
    refine ⟨(List.nodup_flatMap.mp hn).1 run hrun, fun k hk => ?_⟩
    obtain ⟨q, -, hrun⟩ := List.mem_flatMap.mp hrun
    obtain ⟨rfl, hgates⟩ := member_of_mem_onQubit hrun
    obtain ⟨i, g, hi, hg, hq⟩ := hgates k hk
    have hki := hr.mem_iff.mp hi
    exact ⟨i, hki, hq, h.all k i hki (of_member?_eq_some hg).1⟩

end Runs

end QuantumCompiler
