import QuantumCompiler.Proofs.Dag.Structure
import QuantumCompiler.Proofs.Routing.Progress

/-!
# Routing graphs of dependency graphs

The routing graph of a dependency graph numbers its operations in topological order and keeps their
neighbours. Numbers grow along dependence, so both directions of the routing graph flow.
-/
namespace QuantumCompiler.RoutingGraph

variable {R : Type}

/-! ## Numbers of nodes -/

theorem getD_foldl_set (ps : List (Nat × Nat)) (table : Array (Option Nat))
    (hn : (ps.map Prod.fst).Nodup) (hlt : ∀ p ∈ ps, p.1 < table.size) (id k : Nat) :
    (ps.foldl (fun table (id, k) => table.setIfInBounds id (some k)) table).getD id none = some k ↔
      (id, k) ∈ ps ∨ (id ∉ ps.map Prod.fst ∧ table.getD id none = some k) := by
  induction ps generalizing table with
  | nil => simp
  | cons p ps ih =>
    obtain ⟨x, j⟩ := p
    obtain ⟨hx, hn⟩ := List.nodup_cons.mp hn
    have hxl : x < table.size := hlt (x, j) (by simp)
    rw [List.foldl_cons, ih _ hn fun q hq => by simpa using hlt q (by simp [hq])]
    have hset : (table.setIfInBounds x (some j)).getD id none =
        if x = id then some j else table.getD id none := by
      simp only [Array.getD_eq_getD_getElem?, Array.getElem?_setIfInBounds, hxl, if_true]
      by_cases he : x = id <;> simp [he]
    rw [hset]
    by_cases he : x = id
    · subst he
      constructor
      · rintro (hm | ⟨-, hj⟩)
        · exact .inl (by simp [hm])
        · rw [if_pos rfl] at hj
          exact .inl (by simp [Option.some.inj hj])
      · rintro (hm | ⟨hnot, -⟩)
        · rcases List.mem_cons.mp hm with hm | hm
          · cases hm
            exact .inr ⟨hx, by simp⟩
          · exact .inl hm
        · simp at hnot
    · simp [he, Ne.symm he]

/-- A node has the number of its place in the order. -/
theorem getD_ranks (order : List Nat) (size : Nat) (hn : order.Nodup)
    (hlt : ∀ id ∈ order, id < size) (id k : Nat) :
    (ranks order size).getD id none = some k ↔ order[k]? = some id := by
  have hfst : order.zipIdx.map Prod.fst = order := List.zipIdx_map_fst 0 order
  have h := getD_foldl_set order.zipIdx (Array.replicate size none) (by rwa [hfst])
    (fun p hp => by simpa using hlt p.1 (List.fst_mem_of_mem_zipIdx hp)) id k
  have hempty : (Array.replicate size (none : Option Nat)).getD id none ≠ some k := by
    simp only [Array.getD_eq_getD_getElem?, Array.getElem?_replicate]
    split <;> simp
  rw [ranks]
  simpa only [hempty, and_false, or_false, List.mk_mem_zipIdx_iff_getElem?] using h

/-- The routing graph numbers the operations of a dependency graph in the given order. -/
structure Numbers (d : Dag R) (ids : List Nat) (g : RoutingGraph R) : Prop where
  size : g.size = ids.length
  instruction? : ∀ k, g.instruction? k = (ids[k]?).bind d.instruction?
  mem_next : ∀ k j, j ∈ g.next .forward k ↔
    ∃ u v, ids[k]? = some u ∧ ids[j]? = some v ∧ v ∈ d.successors u
  mem_previous : ∀ k j, j ∈ g.next .reverse k ↔
    ∃ u v, ids[k]? = some u ∧ ids[j]? = some v ∧ v ∈ d.predecessors u
  nodup : ∀ direction k, (g.next direction k).Nodup
  narrow : ∀ k i, g.instruction? k = some i → i.isGate = true → i.qubits.length ≤ 2

section OfDag

variable {d : Dag R} {n m : Nat} {es : Dag.Entries R}

theorem mem_filterMap_rank {rank? : Nat → Option Nat} {ids : List Nat}
    (hr : ∀ id k, rank? id = some k ↔ ids[k]? = some id) (vs : List Nat) (j : Nat) :
    j ∈ vs.filterMap rank? ↔ ∃ v, ids[j]? = some v ∧ v ∈ vs := by
  rw [List.mem_filterMap]
  constructor
  · rintro ⟨v, hv, hj⟩
    exact ⟨v, (hr v j).mp hj, hv⟩
  · rintro ⟨v, hj, hv⟩
    exact ⟨v, hv, (hr v j).mpr hj⟩

theorem nodup_filterMap_rank {rank? : Nat → Option Nat} {ids : List Nat}
    (hr : ∀ id k, rank? id = some k ↔ ids[k]? = some id) {vs : List Nat} (hn : vs.Nodup) :
    (vs.filterMap rank?).Nodup := by
  apply hn.filterMap
  intro u v k hu hv
  have h := (hr u k).mp hu
  rw [(hr v k).mp hv] at h
  exact (Option.some.inj h).symm

/-- The routing graph that a dependency graph gives. -/
theorem numbers_of_ofDag (h : Dag.Holds n m d es) {g : RoutingGraph R}
    (hg : ofDag d = .ok g) : Numbers d (es.map (·.1)) g := by
  have hops := h.represents.topologicalOps_eq rfl h.instruction?
  rw [ofDag, hops] at hg
  obtain ⟨ops, hops, hg⟩ := Outcome.bind_eq_ok.mp hg
  obtain rfl : es = ops := Except.ok.inj hops
  split at hg
  · cases hg
  · rename_i hnarrow
    obtain rfl := Except.ok.inj hg
    have hr := getD_ranks (es.map (·.1)) d.slots.size h.represents.nodup
      fun id hid => Dag.lt_size_of_op? ((h.represents.mem_iff id).mp hid)
    have hget (k : Nat) : (es.map (·.1))[k]? = (es[k]?).map (·.1) := List.getElem?_map
    constructor
    · simp [RoutingGraph.size]
    · intro k
      rw [hget]
      simp only [RoutingGraph.instruction?, List.getElem?_toArray, List.getElem?_map]
      cases he : es[k]? with
      | none => rfl
      | some e => exact (h.instruction? e (List.mem_of_getElem? he)).symm
    · intro k j
      rw [hget]
      simp only [next, List.getElem?_toArray, List.getElem?_map]
      cases he : es[k]? with
      | none => simp
      | some e => simpa using mem_filterMap_rank hr (d.successors e.1) j
    · intro k j
      rw [hget]
      simp only [next, List.getElem?_toArray, List.getElem?_map]
      cases he : es[k]? with
      | none => simp
      | some e => simpa using mem_filterMap_rank hr (d.predecessors e.1) j
    · intro direction k
      simp only [next, List.getElem?_toArray, List.getElem?_map]
      cases he : es[k]? with
      | none => simp
      | some e =>
        cases direction
        · exact nodup_filterMap_rank hr (Dag.nodup_neighbours d _ e.1)
        · exact nodup_filterMap_rank hr (Dag.nodup_neighbours d _ e.1)
    · intro k i hi hgate
      simp only [RoutingGraph.instruction?, List.getElem?_toArray, List.getElem?_map] at hi
      cases he : es[k]? with
      | none => simp [he] at hi
      | some e =>
        obtain rfl : e.2 = i := by simpa [he] using hi
        have hno := List.find?_eq_none.mp hnarrow e (List.mem_of_getElem? he)
        simpa [hgate] using hno

end OfDag

/-! ## Flow -/

section Flow

variable {d : Dag R} {ids : List Nat} {g : RoutingGraph R}

theorem Numbers.lt_of_getElem? (h : Numbers d ids g) {k u : Nat} (hk : ids[k]? = some u) :
    k < g.size := by
  rw [h.size]
  exact (List.getElem?_eq_some_iff.mp hk).1

theorem Numbers.mem_next_iff (h : Numbers d ids g) (hr : d.Represents ids) (k j : Nat) :
    j ∈ g.next .forward k ↔ k ∈ g.next .reverse j := by
  rw [h.mem_next, h.mem_previous]
  constructor
  · rintro ⟨u, v, hu, hv, hs⟩
    exact ⟨v, u, hv, hu, hr.mem_successors_iff.mp hs⟩
  · rintro ⟨v, u, hv, hu, hs⟩
    exact ⟨u, v, hu, hv, hr.mem_successors_iff.mpr hs⟩

/-- Numbers grow along dependence. -/
theorem Numbers.lt_of_mem_next (h : Numbers d ids g) (hr : d.Represents ids) {k j : Nat}
    (hj : j ∈ g.next .forward k) : k < j := by
  obtain ⟨u, v, hu, hv, hs⟩ := (h.mem_next k j).mp hj
  obtain ⟨w, hw, hl⟩ := hr.mem_successors.mp hs
  have hlt := (hr.edge hw ((hr.perm_points hw).mem_iff.mpr hl)).2.2
  obtain ⟨hkl, hku⟩ := List.getElem?_eq_some_iff.mp hu
  obtain ⟨hjl, hjv⟩ := List.getElem?_eq_some_iff.mp hv
  rw [← hku, ← hjv] at hlt
  by_contra hle
  rcases Nat.lt_or_eq_of_le (Nat.le_of_not_lt hle) with hjk | rfl
  · have hback := List.pairwise_iff_getElem.mp hr.sorted j k hjl hkl hjk
    exact List.lt_asymm hlt hback
  · exact List.lt_irrefl _ hlt

theorem Numbers.next_lt (h : Numbers d ids g) (direction : Direction) {k j : Nat}
    (hj : j ∈ g.next direction k) : j < g.size := by
  cases direction
  · obtain ⟨u, v, hu, hv, -⟩ := (h.mem_next k j).mp hj
    exact h.lt_of_getElem? hv
  · obtain ⟨u, v, hu, hv, -⟩ := (h.mem_previous k j).mp hj
    exact h.lt_of_getElem? hv

/-- Both directions of a routing graph flow. -/
theorem Numbers.flows (h : Numbers d ids g) (hr : d.Represents ids) (direction : Direction) :
    g.Flows direction := by
  cases direction
  · refine ⟨h.mem_next_iff hr, fun k j => h.next_lt .forward, fun k j => h.next_lt .reverse,
      h.nodup .forward, h.nodup .reverse, fun k => k, ?_⟩
    intro k j hj
    exact h.lt_of_mem_next hr hj
  · refine ⟨fun k j => (h.mem_next_iff hr j k).symm, fun k j => h.next_lt .reverse,
      fun k j => h.next_lt .forward, h.nodup .reverse, h.nodup .forward, fun k => g.size - k, ?_⟩
    intro k j hj
    have hlt := h.lt_of_mem_next hr ((h.mem_next_iff hr j k).mpr hj)
    have hks := h.next_lt .forward ((h.mem_next_iff hr j k).mpr hj)
    change g.size - k < g.size - j
    omega

end Flow

end QuantumCompiler.RoutingGraph
