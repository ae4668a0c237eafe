import QuantumCompiler.Proofs.Device.Search

/-!
# Breadth-first distances are least

The queue of a search holds qubits at one distance and behind them qubits one link farther away, so no
link leads from a finished qubit to one that is more than one link farther. `Layered` is this invariant.
When the queue is empty, what is known is the least number of links of a walk to the target, and
following the next qubits until the target is reached comes to an end.
-/
namespace QuantumCompiler.Approach

variable {adjacency : Array (List Qubit)} {target : Qubit} {a b : Approach}

/-- A distance after the neighbours of a qubit were met: one of a new qubit, or one that was known. -/
theorem Meets.knows_cases {from_ : Qubit} {k : Nat} {ns new : List Qubit}
    (hm : Meets from_ k ns a b new) {q : Qubit} {h : Nat} (hq : b.Knows q h) :
    (q ∈ new ∧ h = k + 1) ∨ (q ∉ new ∧ a.Knows q h) := by
  by_cases hn : q ∈ new
  · have hk := (hm.fresh q hn).2.2.1
    rw [Knows, hq] at hk
    exact .inl ⟨hn, Option.some.inj (Option.some.inj hk)⟩
  · exact .inr ⟨hn, (hm.old q hn).1.symm.trans hq⟩

theorem Knows.unique {q : Qubit} {h k : Nat} (hq : a.Knows q h) (hk : a.Knows q k) : h = k :=
  Option.some.inj (Option.some.inj (hq.symm.trans hk))

/-- The order in which a search finds qubits. -/
structure Layered (adjacency : Array (List Qubit)) (a : Approach) (queue : List Qubit) : Prop where
  /-- The queue is sorted by distance. -/
  ordered : queue.Pairwise fun p q => ∀ h k, a.Knows p h → a.Knows q k → h ≤ k
  /-- Nothing is known that is more than one link farther than the first qubit in the queue. -/
  span : ∀ p ∈ queue.head?, ∀ h, a.Knows p h → ∀ q k, a.Knows q k → k ≤ h + 1
  /-- A link from a finished qubit makes the way at most one link longer. -/
  near : ∀ q h, a.Knows q h → q ∉ queue → ∀ r ∈ adjacency.getD q [], ∀ k, a.Knows r k → k ≤ h + 1

/-- Looking at the neighbours of the first qubit in the queue keeps the order. -/
theorem layered_step (a b : Approach) (q : Qubit) (queue new : List Qubit) (k : Nat)
    (h : Searching adjacency target a (q :: queue)) (hl : Layered adjacency a (q :: queue))
    (hq : a.Knows q k) (hm : Meets q k (adjacency.getD q []) a b new) :
    Layered adjacency b (queue ++ new) := by
  obtain ⟨hfirst, hrest⟩ := List.pairwise_cons.mp hl.ordered
  -- everything known is at most one link farther than `q`, and what is queued is not nearer
  have hmost : ∀ r e, b.Knows r e → e ≤ k + 1 := by
    intro r e hr
    rcases hm.knows_cases hr with ⟨-, rfl⟩ | ⟨-, hr⟩
    · exact le_rfl
    · exact hl.span q rfl k hq r e hr
  have hleast : ∀ r ∈ queue ++ new, ∀ e, b.Knows r e → k ≤ e := by
    intro r hr e he
    rcases hm.knows_cases he with ⟨-, rfl⟩ | ⟨hn, he⟩
    · exact Nat.le_succ k
    · exact hfirst r ((List.mem_append.mp hr).resolve_right hn) k e hq he
  constructor
  · rw [List.pairwise_append]
    refine ⟨hrest.imp_of_mem fun {p r} hp hr hpr d e hd he => ?_, ?_, ?_⟩
    · obtain ⟨d', hd'⟩ := h.queued p (by simp [hp])
      obtain ⟨e', he'⟩ := h.queued r (by simp [hr])
      rw [hd.unique (hm.knows hd').1, he.unique (hm.knows he').1]
      exact hpr d' e' hd' he'
    · refine List.pairwise_of_forall_mem_list fun p hp r hr d e hd he => ?_
      rw [hd.unique (hm.fresh p hp).2.2.1, he.unique (hm.fresh r hr).2.2.1]
    · intro p _ r hr d e hd he
      rw [he.unique (hm.fresh r hr).2.2.1]
      exact hmost p d hd
  · intro p hp d hd r e he
    have hle := hleast p (List.mem_of_mem_head? hp) d hd
    have hr := hmost r e he
    omega
  · intro p d hd hnot r hr e he
    rw [List.mem_append, not_or] at hnot
    rcases hm.knows_cases hd with ⟨hn, -⟩ | ⟨-, hd⟩
    · exact absurd hn hnot.2
    · by_cases hpq : p = q
      · subst hpq
        rw [hd.unique hq]
        exact hmost r e he
      · have hdone : p ∉ q :: queue := by simp [hpq, hnot.1]
        rcases hm.knows_cases he with ⟨hn, -⟩ | ⟨-, he⟩
        · exact absurd (hm.fresh r hn).2.1 (h.closed p d hd hdone r hr)
        · exact hl.near p d hd hdone r hr e he

theorem layered_start (ht : target < adjacency.size) :
    Layered adjacency (start adjacency target) [target] := by
  constructor
  · exact List.pairwise_singleton _ _
  · intro p _ h _ q k hk
    rw [((knows_start ht).mp hk).2]
    exact Nat.zero_le _
  · intro q h hq hnot
    exact absurd (List.mem_singleton.mpr ((knows_start ht).mp hq).1) hnot

theorem layered_toQubit (ht : target < adjacency.size) :
    Layered adjacency (toQubit adjacency target) [] :=
  (search_keeps layered_step _ (searching_start ht) (layered_start ht) (unknown_start ht)).2

/-! ## Walks -/

section Walks

variable {G : SimpleGraph Qubit} {q : Qubit}

/-- What is known is the length of a walk. -/
theorem exists_walk (h : Searching adjacency target a [])
    (hG : ∀ p r, r ∈ adjacency.getD p [] ↔ G.Adj p r) (d : Nat) (hq : a.Knows q d) :
    ∃ w : G.Walk q target, w.length = d := by
  induction d generalizing q with
  | zero =>
    rcases h.back q 0 hq with ⟨-, rfl⟩ | ⟨p, k, hk, -⟩
    · exact ⟨.nil, rfl⟩
    · omega
  | succ d ih =>
    rcases h.back q (d + 1) hq with ⟨hd, -⟩ | ⟨p, k, hk, -, hpk, hqp⟩
    · omega
    · obtain rfl : k = d := by omega
      obtain ⟨w, hw⟩ := ih hpk
      exact ⟨.cons ((hG p q).mp hqp).symm w, by simp [hw]⟩

/-- Along a walk to the target everything is known, and no walk is shorter. -/
theorem exists_knows_le (h : Searching adjacency target a []) (hl : Layered adjacency a [])
    (hG : ∀ p r, r ∈ adjacency.getD p [] ↔ G.Adj p r)
    (hn : ∀ p r, r ∈ adjacency.getD p [] → r < a.hops.size) (w : G.Walk q target) :
    ∃ d ≤ w.length, a.Knows q d := by
  induction w with
  | nil => exact ⟨0, le_rfl, h.start⟩
  | @cons q p target hqp w ih =>
    obtain ⟨d, hd, hp⟩ := ih h
    have hadj : q ∈ adjacency.getD p [] := (hG p q).mpr hqp.symm
    obtain ⟨e, he⟩ := exists_knows_of_adjacent h hn hp hadj
    have hle := hl.near p d hp (by simp) q hadj e he
    refine ⟨e, ?_, he⟩
    rw [SimpleGraph.Walk.length_cons]
    omega

/-- A search that has come to its end knows the least number of links. -/
theorem knows_iff_isLeast (h : Searching adjacency target a []) (hl : Layered adjacency a [])
    (hG : ∀ p r, r ∈ adjacency.getD p [] ↔ G.Adj p r)
    (hn : ∀ p r, r ∈ adjacency.getD p [] → r < a.hops.size) {d : Nat} :
    a.Knows q d ↔ IsLeast {k | ∃ w : G.Walk q target, w.length = k} d := by
  constructor
  · intro hq
    refine ⟨exists_walk h hG d hq, ?_⟩
    rintro k ⟨w, rfl⟩
    obtain ⟨e, he, hqe⟩ := exists_knows_le h hl hG hn w
    exact hq.unique hqe ▸ he
  · rintro ⟨⟨w, rfl⟩, hleast⟩
    obtain ⟨e, he, hq⟩ := exists_knows_le h hl hG hn w
    have hge : w.length ≤ e := hleast (exists_walk h hG e hq)
    exact Nat.le_antisymm he hge ▸ hq

end Walks

/-! ## The loop of the walk -/

/-- Following the next qubits for as long as the target is not reached meets these qubits. -/
inductive Leads (a : Approach) (target : Qubit) : Qubit → List Qubit → Prop
  | stop : Leads a target target []
  | step {q p : Qubit} {rest : List Qubit} (hq : q ≠ target) (hp : a.next.getD q none = some p)
    (h : Leads a target p rest) : Leads a target q (p :: rest)

/-- From a qubit of known distance the target is reached, and the way is the one that is walked. -/
theorem leads_walk (h : Searching adjacency target a []) (d : Nat) {q : Qubit} (hq : a.Knows q d) :
    a.Leads target q (Device.walk a d q) := by
  induction d generalizing q with
  | zero =>
    rcases h.back q 0 hq with ⟨-, rfl⟩ | ⟨p, k, hk, -⟩
    · exact .stop
    · omega
  | succ d ih =>
    have hne : q ≠ target := by
      rintro rfl
      exact absurd (hq.unique h.start) (Nat.succ_ne_zero d)
    rcases h.back q (d + 1) hq with ⟨hd, -⟩ | ⟨p, k, hk, hp, hpk, -⟩
    · omega
    · obtain rfl : k = d := by omega
      have hnext : a.next.getD q none = some p := by
        rw [Array.getD_eq_getD_getElem?, hp]
        rfl
      rw [Device.walk, hnext]
      exact .step hne hnext (ih hpk)

end QuantumCompiler.Approach
