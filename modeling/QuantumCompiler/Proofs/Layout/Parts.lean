import QuantumCompiler.Layout.Components
import QuantumCompiler.Proofs.Device.Built
import QuantumCompiler.Proofs.Random.Stream

/-!
# The parts of a device

A breadth-first run meets every qubit of its connected part once, in whatever order it looks at
neighbours. The runs of all parts together meet every qubit of the device once.
-/
namespace QuantumCompiler.Layout

variable {R : Type} {device : Device R}

def members (device : Device R) (part : Nat) : List Qubit :=
  (List.range device.numQubits).filter fun q => device.component? q == some part

theorem mem_members {part : Nat} {q : Qubit} :
    q ∈ members device part ↔ q < device.numQubits ∧ device.component? q = some part := by
  simp [members]

theorem nodup_members (device : Device R) (part : Nat) : (members device part).Nodup :=
  List.nodup_range.filter _

theorem perm_visitOrder (strategy : LayoutStrategy) (random : Random.Stream) (q : Qubit) :
    (visitOrder device strategy random q).1.Perm (device.neighbours q) := by
  cases strategy with
  | trivial => rfl
  | random => exact random.perm_shuffle _

/-! ## One run -/

/-- The invariant of a run: those that were seen are the ones that are done and the ones in the queue,
and the neighbours of the former were seen. -/
structure Running (device : Device R) (root : Qubit) (part : Nat) (done queue seen : List Qubit) :
    Prop where
  perm : seen.Perm (done ++ queue)
  nodup : seen.Nodup
  subset : seen ⊆ members device part
  closed : ∀ q ∈ done, ∀ r ∈ device.neighbours q, r ∈ seen
  root : root ∈ seen

namespace Running

variable {root : Qubit} {part : Nat} {done queue seen : List Qubit}

theorem length_le (h : Running device root part done queue seen) :
    done.length + queue.length ≤ device.numQubits := by
  have hsub : seen ⊆ List.range device.numQubits :=
    fun q hq => List.mem_range.mpr (mem_members.mp (h.subset hq)).1
  have hle := (List.subperm_of_subset h.nodup hsub).length_le
  rwa [h.perm.length_eq, List.length_append, List.length_range] at hle

/-- The first qubit of the queue is done when its fresh neighbours have joined the queue. -/
theorem visit (hd : device.WellFormed) {q : Qubit}
    (h : Running device root part done (q :: queue) seen) {next : List Qubit}
    (hnext : next.Perm (device.neighbours q)) :
    Running device root part (done ++ [q]) (queue ++ next.filter fun n => !seen.contains n)
      (seen ++ next.filter fun n => !seen.contains n) := by
  have hq : q ∈ seen := h.perm.mem_iff.mpr (by simp)
  have hpart := mem_members.mp (h.subset hq)
  have hfresh {r : Qubit} (hr : r ∈ next.filter fun n => !seen.contains n) :
      r ∈ device.neighbours q ∧ r ∉ seen := by
    obtain ⟨hn, hs⟩ := List.mem_filter.mp hr
    exact ⟨hnext.mem_iff.mp hn, by simpa using hs⟩
  constructor
  · exact (h.perm.append_right _).trans (by simp)
  · refine List.nodup_append.mpr ⟨h.nodup, ?_, ?_⟩
    · exact (hnext.nodup_iff.mpr (hd.nodup_neighbours q)).filter _
    · rintro r hr _ hf rfl
      exact (hfresh hf).2 hr
  · intro r hr
    rcases List.mem_append.mp hr with hr | hr
    · exact h.subset hr
    · have hadj := hd.mem_neighbours.mp (hfresh hr).1
      refine mem_members.mpr ⟨(hd.lt_of_isAdjacent hadj).2.1, ?_⟩
      rw [← hd.component?_eq hadj]
      exact hpart.2
  · intro p hp r hr
    rcases List.mem_append.mp hp with hp | hp
    · exact List.mem_append_left _ (h.closed p hp r hr)
    · obtain rfl := List.mem_singleton.mp hp
      by_cases hs : r ∈ seen
      · exact List.mem_append_left _ hs
      · exact List.mem_append_right _
          (List.mem_filter.mpr ⟨hnext.mem_iff.mpr hr, by simpa using hs⟩)
  · exact List.mem_append_left _ h.root

/-- A run that has as many steps as there are qubits left comes to its end. -/
theorem runFrom (hd : device.WellFormed) (strategy : LayoutStrategy) (steps : Nat)
    (random : Random.Stream) (h : Running device root part done queue seen)
    (hsteps : device.numQubits ≤ done.length + steps) :
    ∃ all, Running device root part all [] all ∧
      all = done ++ (Layout.runFrom device strategy steps queue seen random).1 := by
  induction steps generalizing done queue seen random with
  | zero =>
    have hle := h.length_le
    obtain rfl : queue = [] := List.length_eq_zero_iff.mp (by omega)
    refine ⟨done, ?_, by simp [Layout.runFrom]⟩
    have hp : seen.Perm done := by simpa using h.perm
    exact ⟨by simp, hp.nodup_iff.mp h.nodup, fun q hq => h.subset (hp.mem_iff.mpr hq),
      fun q hq r hr => hp.mem_iff.mp (h.closed q hq r hr), hp.mem_iff.mp h.root⟩
  | succ steps ih =>
    cases queue with
    | nil =>
      refine ⟨done, ?_, by simp [Layout.runFrom]⟩
      have hp : seen.Perm done := by simpa using h.perm
      exact ⟨by simp, hp.nodup_iff.mp h.nodup, fun q hq => h.subset (hp.mem_iff.mpr hq),
        fun q hq r hr => hp.mem_iff.mp (h.closed q hq r hr), hp.mem_iff.mp h.root⟩
    | cons q queue =>
      have hnext : (visitOrder device strategy random q).1.Perm (device.neighbours q) :=
        perm_visitOrder strategy random q
      rw [Layout.runFrom]
      generalize visitOrder device strategy random q = visited at hnext ⊢
      obtain ⟨next, random'⟩ := visited
      obtain ⟨all, hall, heq⟩ := ih random' (h.visit hd hnext) (by simp; omega)
      exact ⟨all, hall, by simpa using heq⟩

/-- At its end a run has met its whole part. -/
theorem perm_members (hd : device.WellFormed) {all : List Qubit}
    (h : Running device root part all [] all) : all.Perm (members device part) := by
  rw [List.perm_ext_iff_of_nodup h.nodup (nodup_members device part)]
  intro q
  refine ⟨fun hq => h.subset hq, fun hq => ?_⟩
  have hroot := (mem_members.mp (h.subset h.root)).2
  have hconn := hd.separates.connects root q part hroot (mem_members.mp hq).2
  have hreach := (hd.reaches_of_connected hconn).1
  clear hconn hq
  induction hreach with
  | refl => exact h.root
  | tail _ hstep ih => exact h.closed _ ih _ hstep

end Running

theorem perm_partRun (hd : device.WellFormed) (strategy : LayoutStrategy) (part : Nat)
    (random : Random.Stream) :
    (partRun device strategy part random).1.Perm (members device part) := by
  have hrun {q : Qubit} (hq : q ∈ members device part) (random : Random.Stream) :
      (runFrom device strategy device.numQubits [q] [q] random).1.Perm (members device part) := by
    have hstart : Running device q part [] [q] [q] :=
      ⟨by simp, by simp, by simpa using hq, by simp, by simp⟩
    obtain ⟨all, hall, heq⟩ := hstart.runFrom hd strategy device.numQubits random (by simp)
    rw [List.nil_append] at heq
    exact heq ▸ hall.perm_members hd
  have hmembers : ((List.range device.numQubits).filter fun q => device.component? q == some part) =
      members device part := rfl
  unfold partRun
  rw [hmembers]
  cases strategy with
  | trivial =>
    cases hh : (members device part).head? with
    | none =>
      simp only [hh]
      rfl
    | some q =>
      simp only [hh]
      exact hrun (List.mem_of_mem_head? hh) random
  | random =>
    have hmem : ∀ q, (random.choose? (members device part)).1 = some q →
        q ∈ members device part := fun q => Random.Stream.mem_of_choose?
    dsimp only
    generalize random.choose? (members device part) = chosen at hmem ⊢
    obtain ⟨start, random'⟩ := chosen
    cases start with
    | none => rfl
    | some q => exact hrun (hmem q rfl) random'

/-! ## All runs -/

/-- There is one run for each part, and it meets the qubits of that part. -/
theorem partRuns_spec (hd : device.WellFormed) (strategy : LayoutStrategy) (seed : Nat) :
    (partRuns device strategy seed).length = device.numComponents ∧
      ∀ (part : Nat) (run : List Qubit), (partRuns device strategy seed)[part]? = some run →
        run.Perm (members device part) := by
  rw [partRuns]
  induction device.numComponents with
  | zero => simp
  | succ n ih =>
    rw [List.range_succ, List.foldl_append, List.foldl_cons, List.foldl_nil]
    generalize (List.range n).foldl _ _ = acc at ih ⊢
    have hrun := perm_partRun hd strategy n acc.2
    generalize partRun device strategy n acc.2 = ran at hrun ⊢
    obtain ⟨run, random⟩ := ran
    obtain ⟨hlen, hruns⟩ := ih
    refine ⟨by simp [hlen], fun part r hr => ?_⟩
    rcases Nat.lt_trichotomy part n with hlt | rfl | hgt
    · rw [List.getElem?_append_left (by omega)] at hr
      exact hruns part r hr
    · rw [List.getElem?_append_right (by omega), hlen, Nat.sub_self] at hr
      obtain rfl := Option.some.inj hr
      exact hrun
    · rw [List.getElem?_eq_none (by simp; omega)] at hr
      cases hr

theorem component?_lt {q : Qubit} {part : Nat} (h : device.component? q = some part) :
    part < device.numComponents := by
  exact Device.lt_numComponents_iff.mpr ⟨part, Array.mem_of_getElem? h, le_rfl⟩

/-- The runs together meet every qubit once. -/
theorem perm_flatten_partRuns (hd : device.WellFormed) (strategy : LayoutStrategy) (seed : Nat) :
    (partRuns device strategy seed).flatten.Perm (List.range device.numQubits) := by
  obtain ⟨hlen, hruns⟩ := partRuns_spec hd strategy seed
  generalize partRuns device strategy seed = runs at hlen hruns
  have hnodup : runs.flatten.Nodup := by
    rw [List.nodup_flatten]
    constructor
    · intro run hrun
      obtain ⟨part, hpart⟩ := List.mem_iff_getElem?.mp hrun
      exact (hruns part run hpart).nodup_iff.mpr (nodup_members device part)
    · rw [List.pairwise_iff_getElem]
      intro i j hi hj hij q hqi hqj
      have hpi := mem_members.mp ((hruns i _ (List.getElem?_eq_getElem hi)).mem_iff.mp hqi)
      have hpj := mem_members.mp ((hruns j _ (List.getElem?_eq_getElem hj)).mem_iff.mp hqj)
      have heq : i = j := Option.some.inj (hpi.2.symm.trans hpj.2)
      omega
  rw [List.perm_ext_iff_of_nodup hnodup List.nodup_range]
  intro q
  rw [List.mem_flatten, List.mem_range]
  constructor
  · rintro ⟨run, hrun, hq⟩
    obtain ⟨part, hpart⟩ := List.mem_iff_getElem?.mp hrun
    exact (mem_members.mp ((hruns part run hpart).mem_iff.mp hq)).1
  · intro hq
    obtain ⟨part, hpart⟩ := hd.exists_component? hq
    have hlt : part < runs.length := hlen ▸ component?_lt hpart
    refine ⟨runs[part], List.getElem_mem hlt, ?_⟩
    exact (hruns part _ (List.getElem?_eq_getElem hlt)).mem_iff.mpr (mem_members.mpr ⟨hq, hpart⟩)

end QuantumCompiler.Layout
