import QuantumCompiler.Proofs.Outcome
import QuantumCompiler.Routing.Graph

/-!
# Progress through a routing graph

Operations are done in an order in which each comes after those directly before it. `Progress` ties the
operations that are done to the front and to the counters: the front holds what waits for nothing more,
and each counter is the number of operations directly before that are not done. Doing part of the front
keeps this, no counter runs below zero, and once the front is empty everything is done.
-/
namespace QuantumCompiler.RoutingGraph

variable {R : Type}

/-- The neighbours of a routing graph in one direction fit together: each is listed once, from both
ends, and none comes before itself. -/
structure Flows (g : RoutingGraph R) (direction : Direction) : Prop where
  converse : ∀ k j, j ∈ g.next direction k ↔ k ∈ g.previous direction j
  next_lt : ∀ k j, j ∈ g.next direction k → j < g.size
  previous_lt : ∀ k j, j ∈ g.previous direction k → j < g.size
  nodup_next : ∀ k, (g.next direction k).Nodup
  nodup_previous : ∀ k, (g.previous direction k).Nodup
  acyclic : ∃ rank : Nat → Nat, ∀ k j, j ∈ g.next direction k → rank k < rank j

/-- How far a run through a routing graph has come. -/
structure Progress (g : RoutingGraph R) (direction : Direction) (done front : List Nat)
    (waiting : Array Nat) : Prop where
  nodup : (done ++ front).Nodup
  done_lt : ∀ v ∈ done, v < g.size
  size : waiting.size = g.size
  counts : ∀ v < g.size,
    waiting[v]? = some ((g.previous direction v).countP fun u => decide (u ∉ done))
  mem_front : ∀ v, v ∈ front ↔
    v < g.size ∧ v ∉ done ∧ ∀ u ∈ g.previous direction v, u ∈ done
  ordered : ∀ before v after, done = before ++ v :: after →
    ∀ u ∈ g.previous direction v, u ∈ before

/-! ## Counting down -/

/-- Counters that are large enough are counted down, and those that reach zero are freed. -/
theorem foldlM_countDown (need : Nat → Nat) (ts : List Nat) (waiting : Array Nat)
    (acc : List Nat) (ht : ∀ v ∈ ts, v < waiting.size)
    (hw : ∀ v < waiting.size, waiting[v]? = some (need v + ts.count v)) :
    ∃ waiting' freed, ts.foldlM countDown (waiting, acc) =
        (.ok (waiting', acc ++ freed) : Compile R _) ∧
      waiting'.size = waiting.size ∧ (∀ v < waiting.size, waiting'[v]? = some (need v)) ∧
      freed.Nodup ∧ ∀ v, v ∈ freed ↔ v ∈ ts ∧ need v = 0 := by
  induction ts generalizing waiting acc with
  | nil => exact ⟨waiting, [], by simp [pure, Except.pure], rfl, by simpa using hw, .nil, by simp⟩
  | cons t ts ih =>
    have htl := ht t (by simp)
    have hwt : waiting[t]? = some (need t + ts.count t + 1) := by
      rw [hw t htl, List.count_cons_self]
      rfl
    set left := need t + ts.count t with hleft
    have hstep : countDown (waiting, acc) t = (.ok (waiting.setIfInBounds t left,
        if left = 0 then acc ++ [t] else acc) : Compile R _) := by
      simp [countDown, hwt]
    obtain ⟨waiting', freed, hfold, hsize, hneed, hnd, hmem⟩ := ih (waiting.setIfInBounds t left)
      (if left = 0 then acc ++ [t] else acc) (fun v hv => by simpa using ht v (by simp [hv]))
      (fun v hv => by
        rw [Array.size_setIfInBounds] at hv
        rw [Array.getElem?_setIfInBounds]
        by_cases he : t = v
        · rw [if_pos he, if_pos htl, hleft, he]
        · rw [if_neg he, hw v hv, List.count_cons_of_ne he])
    rw [Array.size_setIfInBounds] at hsize hneed
    rw [List.foldlM_cons, hstep]
    by_cases hz : left = 0
    · have hnot : t ∉ ts := List.count_eq_zero.mp (by omega)
      refine ⟨waiting', t :: freed, ?_, hsize, hneed, ?_, ?_⟩
      · rw [if_pos hz, List.append_assoc] at hfold
        rw [if_pos hz]
        exact hfold
      · exact List.nodup_cons.mpr ⟨fun h => hnot ((hmem t).mp h).1, hnd⟩
      · intro v
        rw [List.mem_cons, hmem, List.mem_cons]
        constructor
        · rintro (rfl | ⟨hv, hn⟩)
          · exact ⟨.inl rfl, by omega⟩
          · exact ⟨.inr hv, hn⟩
        · rintro ⟨rfl | hv, hn⟩
          · exact .inl rfl
          · exact .inr ⟨hv, hn⟩
    · refine ⟨waiting', freed, ?_, hsize, hneed, hnd, ?_⟩
      · rw [if_neg hz] at hfold ⊢
        exact hfold
      · intro v
        rw [hmem, List.mem_cons]
        constructor
        · rintro ⟨hv, hn⟩
          exact ⟨.inr hv, hn⟩
        · rintro ⟨rfl | hv, hn⟩
          · exact ⟨List.count_pos_iff.mp (by omega), hn⟩
          · exact ⟨hv, hn⟩

theorem countP_mem_comm {xs ys : List Nat} (hx : xs.Nodup) (hy : ys.Nodup) :
    (xs.countP fun x => decide (x ∈ ys)) = ys.countP fun y => decide (y ∈ xs) := by
  rw [List.countP_eq_length_filter, List.countP_eq_length_filter]
  apply List.Perm.length_eq
  rw [List.perm_ext_iff_of_nodup (hx.filter _) (hy.filter _)]
  intro v
  simp [and_comm]

section Release

variable {g : RoutingGraph R} {direction : Direction} {done front ready blocked : List Nat}
  {waiting : Array Nat}

theorem count_flatMap_next (hf : g.Flows direction) (ready : List Nat) (v : Nat) :
    (ready.flatMap (g.next direction)).count v =
      ready.countP fun u => decide (u ∈ g.previous direction v) := by
  induction ready with
  | nil => rfl
  | cons k ready ih =>
    rw [List.flatMap_cons, List.count_append, ih, List.countP_cons, (hf.nodup_next k).count]
    simp only [hf.converse k v, decide_eq_true_eq]
    omega

/-- What the operations before one that are not done split into. -/
theorem countP_previous (hf : g.Flows direction) (hn : ready.Nodup)
    (hd : ∀ u ∈ ready, u ∉ done) (v : Nat) :
    ((g.previous direction v).countP fun u => decide (u ∉ done)) =
      ((g.previous direction v).countP fun u => decide (u ∉ done ++ ready)) +
        (ready.flatMap (g.next direction)).count v := by
  rw [count_flatMap_next hf, countP_mem_comm hn (hf.nodup_previous v)]
  generalize g.previous direction v = us
  induction us with
  | nil => rfl
  | cons u us ih =>
    simp only [List.countP_cons, ih, List.mem_append, not_or, decide_eq_true_eq]
    by_cases hr : u ∈ ready
    · simp [hr, hd u hr]
      omega
    · simp [hr]
      omega

/-- What waits for an operation of the front is neither done nor in front itself. -/
theorem Progress.notMem_of_previous (h : g.Progress direction done front waiting) {k v : Nat}
    (hk : k ∈ front) (hkv : k ∈ g.previous direction v) : v ∉ done ∧ v ∉ front := by
  have hkd := ((h.mem_front k).mp hk).2.1
  constructor
  · intro hd
    obtain ⟨before, after, hsplit⟩ := List.append_of_mem hd
    have hkb := h.ordered before v after hsplit k hkv
    exact hkd (by rw [hsplit]; simp [hkb])
  · intro hv
    exact hkd (((h.mem_front v).mp hv).2.2 k hkv)

/-- Doing operations of the front keeps the order. -/
theorem Progress.ordered_append (h : g.Progress direction done front waiting)
    (hr : ∀ v ∈ ready, v ∈ front) (before : List Nat) (v : Nat) (after : List Nat)
    (hsplit : done ++ ready = before ++ v :: after) :
    ∀ u ∈ g.previous direction v, u ∈ before := by
  intro u hu
  have hready (hv : v ∈ ready) : u ∈ done := ((h.mem_front v).mp (hr v hv)).2.2 u hu
  rcases List.append_eq_append_iff.mp hsplit with ⟨mid, rfl, rfl⟩ | ⟨mid, rfl, ha⟩
  · simp [hready (by simp)]
  · cases mid with
    | nil =>
      rw [List.nil_append] at ha
      simpa using hready (by simp [← ha])
    | cons x mid =>
      rw [List.cons_append, List.cons.injEq] at ha
      exact h.ordered before v mid (by rw [ha.1]) u hu

/-- Operations become free by doing some others: they wait for one of these, and for nothing more. -/
def Frees (g : RoutingGraph R) (direction : Direction) (done ready free : List Nat) : Prop :=
  ∀ v, v ∈ free ↔ (∃ k ∈ ready, k ∈ g.previous direction v) ∧
    ∀ u ∈ g.previous direction v, u ∈ done ++ ready

/-- The front after doing part of it: what is left, and what became free. -/
theorem Progress.mem_front_append (hf : g.Flows direction)
    (h : g.Progress direction done front waiting) (hp : (ready ++ blocked).Perm front)
    (hd : ∀ v ∈ blocked, v ∉ ready) {free : List Nat} (hfree : g.Frees direction done ready free)
    (v : Nat) : v ∈ blocked ++ free ↔
      v < g.size ∧ v ∉ done ++ ready ∧ ∀ u ∈ g.previous direction v, u ∈ done ++ ready := by
  have hfront (v : Nat) : v ∈ ready ++ blocked ↔ v ∈ front := hp.mem_iff
  rw [List.mem_append, List.mem_append, not_or]
  constructor
  · rintro (hb | hv)
    · obtain ⟨hlt, hnd, hprev⟩ := (h.mem_front v).mp ((hfront v).mp (by simp [hb]))
      exact ⟨hlt, ⟨hnd, hd v hb⟩, fun u hu => by simp [hprev u hu]⟩
    · obtain ⟨⟨k, hk, hkv⟩, hprev⟩ := (hfree v).mp hv
      obtain ⟨hvd, hvf⟩ := h.notMem_of_previous ((hfront k).mp (by simp [hk])) hkv
      refine ⟨hf.next_lt k v ((hf.converse k v).mpr hkv), ⟨hvd, ?_⟩, hprev⟩
      exact fun hr => hvf ((hfront v).mp (by simp [hr]))
  · rintro ⟨hlt, ⟨hvd, hvr⟩, hprev⟩
    by_cases hall : ∀ u ∈ g.previous direction v, u ∈ done
    · have hv := (hfront v).mpr ((h.mem_front v).mpr ⟨hlt, hvd, hall⟩)
      exact .inl ((List.mem_append.mp hv).resolve_left hvr)
    · obtain ⟨u, hu⟩ := not_forall.mp hall
      obtain ⟨hu, hud⟩ := Classical.not_imp.mp hu
      exact .inr ((hfree v).mpr ⟨⟨u, (List.mem_append.mp (hprev u hu)).resolve_left hud, hu⟩, hprev⟩)

/-- Doing part of the front succeeds and keeps the run in order. -/
theorem Progress.release (hf : g.Flows direction) (h : g.Progress direction done front waiting)
    (hp : (ready ++ blocked).Perm front) :
    ∃ waiting' free, g.release direction waiting ready = .ok (waiting', free) ∧
      g.Progress direction (done ++ ready) (blocked ++ free) waiting' := by
  have hnd : (done ++ (ready ++ blocked)).Nodup := (hp.append_left done).nodup_iff.mpr h.nodup
  have hrb := List.nodup_append.mp (List.nodup_append.mp hnd).2.1
  have hfront : ∀ v ∈ ready, v ∈ front := fun v hv => hp.mem_iff.mp (by simp [hv])
  have hready : ∀ u ∈ ready, u ∉ done := fun u hu => ((h.mem_front u).mp (hfront u hu)).2.1
  obtain ⟨waiting', free, hfold, hsize, hneed, hfnd, hfmem⟩ := foldlM_countDown (R := R)
    (fun v => (g.previous direction v).countP fun u => decide (u ∉ done ++ ready))
    (ready.flatMap (g.next direction)) waiting []
    (fun v hv => by
      obtain ⟨k, -, hk⟩ := List.mem_flatMap.mp hv
      rw [h.size]
      exact hf.next_lt k v hk)
    (fun v hv => by
      rw [h.size] at hv
      rw [h.counts v hv, countP_previous hf hrb.1 hready])
  have hfree : g.Frees direction done ready free := by
    intro v
    rw [hfmem, List.mem_flatMap, List.countP_eq_zero]
    simp only [hf.converse, decide_eq_true_eq, not_not]
  have hmem := h.mem_front_append hf hp (fun v hb hr => hrb.2.2 v hr v hb rfl) hfree
  refine ⟨waiting', free, by simpa [RoutingGraph.release] using hfold, ?_⟩
  constructor
  · have hall : ((done ++ (ready ++ blocked)) ++ free).Nodup := by
      refine List.nodup_append.mpr ⟨hnd, hfnd, ?_⟩
      rintro x hx y hy rfl
      obtain ⟨⟨k, hk, hkx⟩, -⟩ := (hfree x).mp hy
      obtain ⟨hxd, hxf⟩ := h.notMem_of_previous (hfront k hk) hkx
      rcases List.mem_append.mp hx with hd | hr
      · exact hxd hd
      · exact hxf (hp.mem_iff.mp hr)
    simpa [List.append_assoc] using hall
  · intro v hv
    rcases List.mem_append.mp hv with hd | hr
    · exact h.done_lt v hd
    · exact ((h.mem_front v).mp (hfront v hr)).1
  · rw [hsize, h.size]
  · intro v hv
    exact hneed v (by rw [h.size]; exact hv)
  · exact hmem
  · exact h.ordered_append hfront

end Release

/-! ## From the start to the end -/

section Ends

variable {g : RoutingGraph R} {direction : Direction} {done front : List Nat}
  {waiting : Array Nat}

theorem mem_start {v : Nat} :
    v ∈ g.start direction ↔ v < g.size ∧ g.previous direction v = [] := by
  cases direction <;> simp [start]

theorem nodup_start : (g.start direction).Nodup := by
  cases direction
  · exact List.nodup_range.filter _
  · exact List.nodup_reverse.mpr (List.nodup_range.filter _)

/-- In the beginning nothing is done. -/
theorem progress_start (g : RoutingGraph R) (direction : Direction) :
    g.Progress direction [] (g.start direction) (g.waiting direction) := by
  constructor
  · exact nodup_start
  · simp
  · simp [RoutingGraph.waiting]
  · intro v hv
    simp [RoutingGraph.waiting, hv]
  · intro v
    simp [mem_start, List.eq_nil_iff_forall_not_mem]
  · intro before v after hsplit
    simp at hsplit

/-- With nothing in front everything is done. -/
theorem Progress.complete (hf : g.Flows direction) (h : g.Progress direction done [] waiting) :
    done.Perm (List.range g.size) := by
  have hdone := (List.nodup_append.mp h.nodup).1
  rw [List.perm_ext_iff_of_nodup hdone List.nodup_range]
  intro v
  rw [List.mem_range]
  refine ⟨h.done_lt v, ?_⟩
  obtain ⟨rank, hrank⟩ := hf.acyclic
  -- by induction on the rank: what comes directly before is done already
  induction hk : rank v using Nat.strong_induction_on generalizing v with
  | _ k ih =>
    intro hv
    by_contra hnot
    have hprev : ∀ u ∈ g.previous direction v, u ∈ done := by
      intro u hu
      have hlt := hrank u v ((hf.converse u v).mpr hu)
      exact ih (rank u) (by omega) u rfl (hf.previous_lt v u hu)
    have hfront := (h.mem_front v).mpr ⟨hv, hnot, hprev⟩
    simp at hfront

end Ends

end QuantumCompiler.RoutingGraph
