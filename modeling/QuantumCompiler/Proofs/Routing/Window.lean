import QuantumCompiler.Proofs.Routing.Graph

/-!
# Looking ahead

Looking ahead from a front does, layer by layer, what a run that executes everything would do, until its
window is full. What it would do without a limit is an order of all operations that are left, each behind
those directly before it; the window is the beginning of the two-qubit gates of that order.
-/
namespace QuantumCompiler.RoutingGraph

variable {R : Type} {g : RoutingGraph R} {direction : Direction} {limit : Nat}

/-! ## One layer -/

section Layer

variable {waiting waiting' : Array Nat} {acc layer : List Nat} {window : List (Qubit × Qubit)}

/-- Counting down appends to what is free already. -/
theorem countDown_eq_ok {node : Nat}
    (h : (countDown (waiting, acc) node : Compile R _) = .ok (waiting', layer)) :
    ∃ free, layer = acc ++ free ∧ free.length ≤ 1 ∧
      (countDown (waiting, []) node : Compile R _) = .ok (waiting', free) := by
  simp only [countDown] at h ⊢
  split at h
  · rename_i left _
    obtain ⟨rfl, rfl⟩ := Prod.mk.inj (Except.ok.inj h)
    by_cases hz : left = 0
    · exact ⟨[node], by simp [hz], le_rfl, by simp [hz]⟩
    · exact ⟨[], by simp [hz], Nat.zero_le 1, by simp [hz]⟩
  · cases h

/-- A full window stays as it is. -/
theorem foldlM_meet_of_full {o : Outlook} (hfull : limit ≤ o.window.length) (nodes : List Nat) :
    nodes.foldlM (g.meet limit) o = .ok o := by
  induction nodes with
  | nil => rfl
  | cons v nodes ih =>
    have hstep : g.meet limit o v = .ok o := by rw [meet, if_pos hfull]
    rw [List.foldlM_cons, hstep]
    exact ih

/-- Looking ahead over operations that are counted down meets those that become free, in order and as far
as the window has room. While it has, the counters are those of the run. -/
theorem foldlM_meet {nodes : List Nat}
    (h : (nodes.foldlM countDown (waiting, acc) : Compile R _) = .ok (waiting', layer))
    (hw : window.length ≤ limit) :
    ∃ free o, layer = acc ++ free ∧
      nodes.foldlM (g.meet limit) ⟨waiting, acc, window⟩ = .ok o ∧
      o.window = (window ++ free.filterMap g.pair?).take limit ∧
      (o.window.length < limit → o = ⟨waiting', layer, o.window⟩) := by
  induction nodes generalizing waiting acc window with
  | nil =>
    obtain ⟨rfl, rfl⟩ := Prod.mk.inj (Except.ok.inj h)
    exact ⟨[], _, by simp, rfl, by simp [List.take_of_length_le hw], fun _ => rfl⟩
  | cons v nodes ih =>
    rw [List.foldlM_cons] at h
    obtain ⟨⟨counted, freed⟩, hv, h⟩ := Outcome.bind_eq_ok.mp h
    obtain ⟨first, rfl, hfirst, hcount⟩ := countDown_eq_ok hv
    by_cases hfull : limit ≤ window.length
    · obtain ⟨free, -, rfl, -, -, -⟩ := ih h hw
      refine ⟨first ++ free, ⟨waiting, acc, window⟩, by simp, foldlM_meet_of_full hfull _, ?_,
        fun hlt => absurd hlt (Nat.not_lt.mpr hfull)⟩
      rw [List.take_append_of_le_length hfull, List.take_of_length_le hw]
    · have hstep : g.meet limit ⟨waiting, acc, window⟩ v =
          .ok ⟨counted, acc ++ first, window ++ first.filterMap g.pair?⟩ := by
        rw [meet, if_neg hfull]
        exact Outcome.bind_eq_ok.mpr ⟨_, hcount, rfl⟩
      have hroom : (window ++ first.filterMap g.pair?).length ≤ limit := by
        have hle := List.length_filterMap_le g.pair? first
        rw [List.length_append]
        omega
      obtain ⟨free, o, rfl, hrun, hwindow, ho⟩ := ih h hroom
      refine ⟨first ++ free, o, by simp, ?_, by simpa using hwindow, ho⟩
      rw [List.foldlM_cons]
      exact Outcome.bind_eq_ok.mpr ⟨_, hstep, hrun⟩

end Layer

/-! ## All layers -/

section Layers

variable {done front : List Nat} {waiting : Array Nat} {window : List (Qubit × Qubit)}

/-- The rest of a run behind a front: with it every operation is done, each behind those directly before
it. -/
structure Completes (g : RoutingGraph R) (direction : Direction) (done behind : List Nat) : Prop where
  perm : (done ++ behind).Perm (List.range g.size)
  ordered : ∀ before v after, done ++ behind = before ++ v :: after →
    ∀ u ∈ g.previous direction v, u ∈ before

theorem take_take_append {α : Type} (xs ys : List α) (n : Nat) :
    (xs.take n ++ ys).take n = (xs ++ ys).take n := by
  rw [List.take_append, List.take_append, List.take_take, Nat.min_self, List.length_take]
  congr 2
  omega

theorem Progress.length_le (h : g.Progress direction done front waiting) :
    done.length + front.length ≤ g.size := by
  have hsub : done ++ front ⊆ List.range g.size := by
    intro v hv
    rw [List.mem_range]
    rcases List.mem_append.mp hv with hv | hv
    · exact h.done_lt v hv
    · exact ((h.mem_front v).mp hv).1
  have hle := (h.nodup.subperm hsub).length_le
  rwa [List.length_append, List.length_range] at hle

/-- Looking ahead never counts below zero and comes to an end. The window is continued by the two-qubit
gates in the order of the rest of the run. -/
theorem Progress.lookahead (hf : g.Flows direction) {layers : Nat}
    (h : g.Progress direction done front waiting) (hlayers : g.size - done.length < layers)
    (hw : window.length ≤ limit) :
    ∃ behind, g.Completes direction (done ++ front) behind ∧
      g.lookahead direction limit layers ⟨waiting, front, window⟩ =
        .ok ((window ++ behind.filterMap g.pair?).take limit) := by
  induction layers generalizing done front waiting window with
  | zero => exact absurd hlayers (Nat.not_lt_zero _)
  | succ layers ih =>
    by_cases hempty : front = []
    · subst hempty
      refine ⟨[], ⟨by simpa using h.complete hf, by simpa using h.ordered⟩, ?_⟩
      simp [RoutingGraph.lookahead, List.take_of_length_le hw]
    · obtain ⟨waiting', free, hrelease, hp⟩ := h.release hf
        (show (front ++ []).Perm front by simp)
      have hless : g.size - (done ++ front).length < layers := by
        have hle := h.length_le
        have hpos := List.length_pos_iff.mpr hempty
        rw [List.length_append]
        omega
      obtain ⟨_, o, rfl, hrun, hwindow, ho⟩ := foldlM_meet (g := g) hrelease hw
      have hroom : o.window.length ≤ limit := by
        rw [hwindow]
        exact List.length_take_le _ _
      obtain ⟨behind, hc, hrest⟩ := ih hp hless hroom
      have hnext : g.lookahead direction limit layers o =
          .ok ((o.window ++ behind.filterMap g.pair?).take limit) := by
        by_cases hfull : limit ≤ o.window.length
        · obtain ⟨layers, rfl⟩ := Nat.exists_eq_succ_of_ne_zero (Nat.ne_zero_of_lt hless)
          rw [List.take_append_of_le_length hfull, List.take_of_length_le hroom]
          simp [RoutingGraph.lookahead, hfull]
        · rw [ho (Nat.lt_of_not_le hfull)]
          exact hrest
      refine ⟨free ++ behind, ⟨by simpa using hc.perm, by simpa using hc.ordered⟩, ?_⟩
      rw [RoutingGraph.lookahead]
      by_cases hfull : limit ≤ window.length
      · rw [List.take_append_of_le_length hfull, List.take_of_length_le hw]
        simp [hfull]
      · rw [if_neg (by simp [hempty, hfull])]
        refine Outcome.bind_eq_ok.mpr ⟨o, hrun, ?_⟩
        rw [hnext, hwindow, take_take_append, List.filterMap_append, List.append_assoc]

/-- From wherever a run is, looking ahead shows the first two-qubit gates of the rest of it. -/
theorem Progress.exists_window (hf : g.Flows direction) (h : g.Progress direction done front waiting)
    (limit : Nat) : ∃ behind, g.Completes direction (done ++ front) behind ∧
      g.window direction limit waiting front = .ok ((behind.filterMap g.pair?).take limit) := by
  have hempty : ([] : List (Qubit × Qubit)).length ≤ limit := Nat.zero_le limit
  exact h.lookahead hf (Nat.lt_succ_of_le (Nat.sub_le _ _)) hempty

end Layers

/-! ## What the window shows -/

section Shown

variable {done : Finset Nat} {front : List Nat} {waiting : Array Nat}

/-- How far a sweep has come: the operations of a set are done, with each of them all that come before
it. The front holds the other ones of which this is true, and every counter is the number of different
operations directly before that are not done. -/
structure Stands (g : RoutingGraph R) (direction : Direction) (done : Finset Nat) (front : List Nat)
    (waiting : Array Nat) : Prop where
  done_lt : ∀ v ∈ done, v < g.size
  closed : ∀ v ∈ done, ∀ u ∈ g.previous direction v, u ∈ done
  nodup_front : front.Nodup
  mem_front : ∀ v, v ∈ front ↔ v < g.size ∧ v ∉ done ∧ ∀ u ∈ g.previous direction v, u ∈ done
  size : waiting.size = g.size
  counts : ∀ v < g.size,
    waiting[v]? = some ((g.previous direction v).toFinset.filter (· ∉ done)).card

/-- The two-qubit gates that are left behind a front. -/
def ahead (g : RoutingGraph R) (done : Finset Nat) (front : List Nat) : Finset Nat :=
  (Finset.range g.size).filter fun v => v ∉ done ∧ v ∉ front ∧ (g.pair? v).isSome = true

/-- Sorted by rank, what is done was done in an order of a run. -/
theorem Stands.exists_progress (hf : g.Flows direction) (h : g.Stands direction done front waiting) :
    ∃ order : List Nat, (∀ v, v ∈ order ↔ v ∈ done) ∧
      g.Progress direction order front waiting := by
  obtain ⟨rank, hrank⟩ := hf.acyclic
  let sorted := done.toList.mergeSort fun a b => decide (rank a ≤ rank b)
  have hperm : sorted.Perm done.toList := List.mergeSort_perm _ _
  have hmem (v : Nat) : v ∈ sorted ↔ v ∈ done := by rw [hperm.mem_iff, Finset.mem_toList]
  have hascends : sorted.Pairwise fun a b => rank a ≤ rank b := by
    refine (List.pairwise_mergeSort ?_ ?_ done.toList).imp fun hab => decide_eq_true_iff.mp hab
    · intro a b c hab hbc
      simp only [decide_eq_true_eq] at hab hbc ⊢
      omega
    · intro a b
      simp only [Bool.or_eq_true, decide_eq_true_eq]
      omega
  refine ⟨sorted, hmem, ?_, ?_, h.size, ?_, ?_, ?_⟩
  · refine List.nodup_append.mpr ⟨hperm.nodup_iff.mpr done.nodup_toList, h.nodup_front, ?_⟩
    rintro v hv w hw rfl
    exact ((h.mem_front v).mp hw).2.1 ((hmem v).mp hv)
  · exact fun v hv => h.done_lt v ((hmem v).mp hv)
  · intro v hv
    have hset : (g.previous direction v).toFinset.filter (· ∉ done) =
        ((g.previous direction v).filter fun u => decide (u ∉ sorted)).toFinset := by
      ext u
      simp [hmem]
    rw [h.counts v hv, hset, List.toFinset_card_of_nodup ((hf.nodup_previous v).filter _),
      List.countP_eq_length_filter]
  · simp only [hmem]
    exact h.mem_front
  · intro before v after hsplit u hu
    have hv : v ∈ sorted := by simp [hsplit]
    have hus := (hmem u).mpr (h.closed v ((hmem v).mp hv) u hu)
    have hlt := hrank u v ((hf.converse u v).mpr hu)
    rw [hsplit] at hus hascends
    rcases List.mem_append.mp hus with hb | hb
    · exact hb
    · rcases List.mem_cons.mp hb with rfl | ha
      · exact absurd hlt (Nat.lt_irrefl _)
      · have hle := (List.pairwise_cons.mp (List.pairwise_append.mp hascends).2.1).1 u ha
        exact absurd hlt (Nat.not_lt.mpr hle)

/-- In the order of a run an operation is behind all that it depends on. -/
theorem Completes.mem_of_transGen {done behind : List Nat} (h : g.Completes direction done behind)
    {u v : Nat} (huv : Relation.TransGen (fun a b => a ∈ g.previous direction b) u v)
    {before after : List Nat} (hsplit : done ++ behind = before ++ v :: after) : u ∈ before := by
  induction huv generalizing before after with
  | single hu => exact h.ordered before _ after hsplit _ hu
  | @tail w v _ hwv ih =>
    obtain ⟨first, second, rfl⟩ := List.append_of_mem (h.ordered before _ after hsplit _ hwv)
    have hfirst : done ++ behind = first ++ w :: (second ++ v :: after) := by
      rw [hsplit, List.append_assoc, List.cons_append]
    exact List.mem_append_left _ (ih hfirst)

/-- Among some of the operations that are left, each is behind those that it depends on. -/
theorem Completes.mem_of_filter {done behind : List Nat} (h : g.Completes direction done behind)
    {p : Nat → Bool} {before after : List Nat} {u v : Nat}
    (hsplit : behind.filter p = before ++ v :: after) (hu : u ∉ done) (hp : p u = true)
    (huv : Relation.TransGen (fun a b => a ∈ g.previous direction b) u v) : u ∈ before := by
  obtain ⟨first, rest, rfl, rfl, hrest⟩ := List.filter_eq_append_iff.mp hsplit
  obtain ⟨passed, last, rfl, hpassed, -, -⟩ := List.filter_eq_cons_iff.mp hrest
  have hall : done ++ (first ++ (passed ++ v :: last)) = (done ++ first ++ passed) ++ v :: last := by
    simp
  have hmem := h.mem_of_transGen huv hall
  rcases List.mem_append.mp hmem with hmem | hmem
  · exact List.mem_filter.mpr ⟨(List.mem_append.mp hmem).resolve_left hu, hp⟩
  · exact absurd hp (hpassed u hmem)

theorem map_filter_isSome {α β : Type} (f : α → Option β) (xs : List α) :
    (xs.filter fun x => (f x).isSome).map f = (xs.filterMap f).map some := by
  induction xs with
  | nil => rfl
  | cons x xs ih => cases hx : f x <;> simp [hx, ih]

/-- The rest of a run goes through what is left behind the front. -/
theorem Completes.mem_gates {order behind : List Nat} (h : g.Completes direction (order ++ front) behind)
    (horder : ∀ v, v ∈ order ↔ v ∈ done) (v : Nat) :
    v ∈ (behind.filter fun v => (g.pair? v).isSome) ↔ v ∈ g.ahead done front := by
  have hnodup := List.nodup_append.mp (h.perm.nodup_iff.mpr List.nodup_range)
  rw [List.mem_filter, ahead, Finset.mem_filter, Finset.mem_range]
  constructor
  · rintro ⟨hb, hgate⟩
    have hlt := List.mem_range.mp (h.perm.mem_iff.mp (List.mem_append_right (order ++ front) hb))
    have hnot : v ∉ order ++ front := fun hv => hnodup.2.2 v hv v hb rfl
    rw [List.mem_append, not_or, horder] at hnot
    exact ⟨hlt, hnot.1, hnot.2, hgate⟩
  · rintro ⟨hlt, hdone, hfront, hgate⟩
    have hv := h.perm.mem_iff.mpr (List.mem_range.mpr hlt)
    rw [List.mem_append, List.mem_append, horder] at hv
    exact ⟨(hv.resolve_left fun hv => hv.elim hdone hfront), hgate⟩

/-- The lookahead window is exact. The neighbours of a routing graph flow in both directions, and from
wherever a sweep stands, looking ahead ends without counting below zero. It shows the operands of
different two-qubit gates that are left behind the front, each behind all of these that it depends on, at
most as many as the limit says, and all of them if there are no more. -/
theorem window_is_exact [Scalar R] :
    (∀ (d : Dag R) (g : RoutingGraph R), d.Reachable → ofDag d = .ok g →
      ∀ direction, g.Flows direction) ∧
    ∀ (g : RoutingGraph R) (direction : Direction) (done : Finset Nat) (front : List Nat)
      (waiting : Array Nat) (limit : Nat), g.Flows direction →
      g.Stands direction done front waiting →
      ∃ gates pairs, g.window direction limit waiting front = .ok pairs ∧
        gates.map g.pair? = pairs.map some ∧ pairs.length ≤ limit ∧ gates.Nodup ∧
        (∀ v ∈ gates, v ∈ g.ahead done front) ∧
        (∀ before v after, gates = before ++ v :: after → ∀ u ∈ g.ahead done front,
          Relation.TransGen (fun a b => a ∈ g.previous direction b) u v → u ∈ before) ∧
        ((g.ahead done front).card ≤ limit → ∀ v ∈ g.ahead done front, v ∈ gates) := by
  constructor
  · intro d g hd hg direction
    obtain ⟨n, m, es, h⟩ := hd.holds
    exact (numbers_of_ofDag h hg).flows h.represents direction
  · intro g direction done front waiting limit hf h
    obtain ⟨order, horder, hp⟩ := h.exists_progress hf
    obtain ⟨behind, hc, hrun⟩ := hp.exists_window hf limit
    set all := behind.filter fun v => (g.pair? v).isSome with hdef
    have hall (v : Nat) : v ∈ all ↔ v ∈ g.ahead done front := hc.mem_gates horder v
    have hnodup : all.Nodup :=
      (List.nodup_append.mp (hc.perm.nodup_iff.mpr List.nodup_range)).2.1.filter _
    refine ⟨all.take limit, _, hrun, ?_, List.length_take_le _ _, hnodup.sublist (List.take_sublist _ _),
      fun v hv => (hall v).mp (List.mem_of_mem_take hv), ?_, ?_⟩
    · rw [List.map_take, List.map_take, hdef, map_filter_isSome]
    · intro before v after hsplit u hu huv
      have hfull : all = before ++ v :: (after ++ all.drop limit) := by
        rw [← List.cons_append, ← List.append_assoc, ← hsplit, List.take_append_drop]
      obtain ⟨-, hdone, hfront, hgate⟩ := Finset.mem_filter.mp hu
      have hleft : u ∉ order ++ front := by
        rw [List.mem_append, not_or, horder]
        exact ⟨hdone, hfront⟩
      exact hc.mem_of_filter hfull hleft hgate huv
    · intro hcard v hv
      have hlen : all.length ≤ limit := by
        rw [← List.toFinset_card_of_nodup hnodup]
        refine le_trans (Finset.card_le_card fun x hx => ?_) hcard
        exact (hall x).mp (List.mem_toFinset.mp hx)
      rw [List.take_of_length_le hlen]
      exact (hall v).mpr hv

/-- A gate on each pair of three qubits, and a measurement. -/
def pairwiseCalls : List (Dag.Call Float) :=
  [.append (.ofStandard .cx [0, 1]), .append (.ofStandard .cx [1, 2]),
    .append (.ofStandard .cx [0, 2]), .append (.measure 2 0)]

/-- The routing graph of these. -/
def pairwiseGraph : RoutingGraph Float :=
  { nodes := #[⟨.ofStandard .cx [0, 1], [2, 1], []⟩, ⟨.ofStandard .cx [1, 2], [2], [0]⟩,
      ⟨.ofStandard .cx [0, 2], [3], [0, 1]⟩, ⟨.measure 2 0, [], [2]⟩]
    numClbits := 1
    phase := 0 }

example : pairwiseGraph.window .forward 1 #[0, 1, 2, 1] [0] = .ok [(1, 2)] := rfl

theorem window_of_pairwiseGraph : (Dag.run 3 1 pairwiseCalls).1.Reachable ∧
    ofDag (Dag.run 3 1 pairwiseCalls).1 = .ok pairwiseGraph ∧
    pairwiseGraph.Stands .forward {0} [1] #[0, 0, 1, 1] ∧
    ∃ (gates : List Nat) (pairs : List (Qubit × Qubit)),
      pairwiseGraph.window .forward 5 #[0, 0, 1, 1] [1] = .ok pairs ∧
      gates.map pairwiseGraph.pair? = pairs.map some ∧ 2 ∈ gates := by
  have hd : (Dag.run 3 1 pairwiseCalls).1.Reachable := by
    refine .run 3 1 ?_
    simp [pairwiseCalls, Dag.Call.ClbitsDistinct, Dag.Call.instructions, Instruction.measure,
      Instruction.ofStandard, Instruction.ofGate]
  have hg : ofDag (Dag.run 3 1 pairwiseCalls).1 = .ok pairwiseGraph := rfl
  have hstands : pairwiseGraph.Stands .forward {0} [1] #[0, 0, 1, 1] := by
    refine ⟨by decide, by decide, by decide, ?_, rfl, ?_⟩
    · intro v
      by_cases hv : v < 4
      · interval_cases v <;> decide
      · have hlt : ¬v < pairwiseGraph.size := hv
        have hne : v ≠ 1 := by omega
        simp [hlt, hne]
    · intro v hv
      change v < 4 at hv
      interval_cases v <;> rfl
  obtain ⟨hflows, hexact⟩ := window_is_exact (R := Float)
  obtain ⟨gates, pairs, hrun, hpairs, -, -, -, -, hall⟩ :=
    hexact pairwiseGraph .forward {0} [1] #[0, 0, 1, 1] 5 (hflows _ _ hd hg .forward) hstands
  exact ⟨hd, hg, hstands, gates, pairs, hrun, hpairs, hall (by decide) 2 (by decide)⟩

end Shown

end QuantumCompiler.RoutingGraph
