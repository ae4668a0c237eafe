import QuantumCompiler.Proofs.Dag.Listing

/-!
# The topological order of a represented graph

Reading a graph in topological order gives back the list the graph represents. Edges between
operations lead forward in the list, so its first operation is always free; among the free ones it
has the smallest position. What is left of the list is the invariant of `drain`: the free operations
are those of the rest without an edge from the rest, in the order of the list.
-/
namespace QuantumCompiler.Dag

variable {R : Type}

/-! ## Counting edges -/

section Count

variable (d : Dag R)

theorem foldl_modify_count (es : List (Nat × Nat)) (counts : Array Nat) (v : Nat) :
    (es.foldl (fun counts e => counts.modify e.2 (· + 1)) counts)[v]? =
      counts[v]?.map (· + es.countP (·.2 == v)) := by
  induction es generalizing counts with
  | nil => simp
  | cons e es ih =>
    rw [List.foldl_cons, ih, Array.getElem?_modify, List.countP_cons]
    by_cases he : e.2 = v
    · cases counts[v]? with
      | none => simp [he]
      | some k =>
        simp only [he, if_true, Option.map_some, beq_self_eq_true, Option.some.injEq]
        omega
    · simp [he]

/-- The counters start at the numbers of incoming edges. -/
theorem getElem?_indegrees (es : List (Nat × Nat)) {v : Nat} (hv : v < d.slots.size) :
    (d.indegrees es)[v]? = some (es.countP (·.2 == v)) := by
  rw [indegrees, foldl_modify_count, Array.getElem?_replicate, if_pos hv]
  simp

theorem foldl_modify_push (es : List (Nat × Nat)) (ts : Array (List Nat)) (u : Nat) :
    (es.foldl (fun ts e => ts.modify e.1 (e.2 :: ·)) ts)[u]? =
      ts[u]?.map (((es.filter (·.1 == u)).map (·.2)).reverse ++ ·) := by
  induction es generalizing ts with
  | nil => simp
  | cons e es ih =>
    rw [List.foldl_cons, ih, Array.getElem?_modify]
    by_cases he : e.1 = u
    · cases ts[u]? <;> simp [he]
    · simp [he]

/-- The targets of an operation, one for each outgoing edge. -/
theorem getElem?_targets (es : List (Nat × Nat)) {u : Nat} (hu : u < d.slots.size) :
    ((d.targets es)[u]?).getD [] = ((es.filter (·.1 == u)).map (·.2)).reverse := by
  rw [targets, foldl_modify_push, Array.getElem?_replicate, if_pos hu]
  simp

end Count

/-! ## The list of free operations -/

section Enqueue

variable {d : Dag R} {xs : List Nat}

theorem enqueue_of_forall {v : Nat} (h : ∀ x ∈ xs, d.precedes v x = true) :
    d.enqueue v xs = v :: xs := by
  cases xs with
  | nil => rfl
  | cons x xs => simp [enqueue, h x (by simp)]

/-- An operation that becomes free takes its place among the free ones. -/
theorem enqueue_filter (hs : xs.Pairwise fun a b => d.position a < d.position b)
    {p : Nat → Bool} {v : Nat} (hv : v ∈ xs) (hp : p v = false) :
    d.enqueue v (xs.filter p) = xs.filter fun x => p x || x == v := by
  induction xs with
  | nil => simp at hv
  | cons x xs ih =>
    obtain ⟨hx, hs⟩ := List.pairwise_cons.mp hs
    by_cases he : x = v
    · subst he
      have hnot : x ∉ xs := fun hm => List.lt_irrefl _ (hx x hm)
      have htail : (xs.filter fun y => p y || y == x) = xs.filter p := by
        apply List.filter_congr
        intro y hy
        have hne : y ≠ x := fun h => hnot (h ▸ hy)
        simp [hne]
      rw [List.filter_cons_of_neg (by simp [hp]), List.filter_cons_of_pos (by simp), htail]
      apply enqueue_of_forall
      intro y hy
      exact precedes_of_lt (hx y (List.mem_of_mem_filter hy))
    · have hv' : v ∈ xs := by simpa [Ne.symm he] using hv
      by_cases hpx : p x = true
      · rw [List.filter_cons_of_pos hpx, List.filter_cons_of_pos (by simp [hpx]), enqueue,
          not_precedes_of_lt (hx v hv'), ih hs hv']
        rfl
      · rw [List.filter_cons_of_neg hpx, List.filter_cons_of_neg (by simp [hpx, he]), ih hs hv']

/-- Operations that are free together come in the order of the list, however they are found. -/
theorem foldl_enqueue (hs : xs.Pairwise fun a b => d.position a < d.position b) (ns : List Nat)
    (p : Nat → Bool) (hn : ns.Nodup) (hmem : ∀ v ∈ ns, v ∈ xs) (hp : ∀ v ∈ ns, p v = false) :
    ns.foldl (fun ready id => d.enqueue id ready) (xs.filter p) =
      xs.filter fun x => p x || ns.contains x := by
  induction ns generalizing p with
  | nil => simp
  | cons v ns ih =>
    obtain ⟨hv, hn⟩ := List.nodup_cons.mp hn
    rw [List.foldl_cons, enqueue_filter hs (hmem v (by simp)) (hp v (by simp)),
      ih (fun x => p x || x == v) hn (fun u hu => hmem u (by simp [hu]))]
    · apply List.filter_congr
      intro x _
      rw [Bool.or_assoc, List.contains_cons]
    · intro u hu
      have hne : u ≠ v := fun h => hv (h ▸ hu)
      simp [hp u (by simp [hu]), hne]

/-- Counting the targets of a finished operation down frees those that waited for nothing else. -/
theorem foldl_release (hs : xs.Pairwise fun a b => d.position a < d.position b)
    (need : Nat → Nat) (ts : List Nat) (waiting : Array Nat) (ht : ∀ v ∈ ts, v ∈ xs)
    (hw : ∀ v ∈ xs, waiting[v]? = some (need v + ts.count v)) :
    ∃ waiting', ts.foldl
        (fun (acc : Array Nat × List Nat) v =>
          (acc.1.modify v (· - 1),
            if (acc.1.modify v (· - 1))[v]? = some 0 then d.enqueue v acc.2 else acc.2))
        (waiting, xs.filter fun v => need v + ts.count v == 0) =
          (waiting', xs.filter fun v => need v == 0) ∧
      ∀ v ∈ xs, waiting'[v]? = some (need v) := by
  induction ts generalizing waiting with
  | nil => exact ⟨waiting, by simp, by simpa using hw⟩
  | cons t ts ih =>
    have htx := ht t (by simp)
    have hw' : ∀ v ∈ xs, (waiting.modify t (· - 1))[v]? = some (need v + ts.count v) := by
      intro v hv
      rw [Array.getElem?_modify, hw v hv]
      by_cases he : t = v
      · simp [he]
      · simp [he]
    have hready : (if (waiting.modify t (· - 1))[t]? = some 0 then
          d.enqueue t (xs.filter fun v => need v + (t :: ts).count v == 0)
        else xs.filter fun v => need v + (t :: ts).count v == 0) =
        xs.filter fun v => need v + ts.count v == 0 := by
      rw [hw' t htx]
      by_cases hz : need t + ts.count t = 0
      · rw [if_pos (by rw [hz]), enqueue_filter hs htx (by simp)]
        apply List.filter_congr
        intro v _
        by_cases he : v = t
        · subst he
          simpa using hz
        · simp [he, Ne.symm he]
      · rw [if_neg (by simpa using hz)]
        apply List.filter_congr
        intro v _
        by_cases he : v = t
        · subst he
          simpa using hz
        · simp [Ne.symm he]
    rw [List.foldl_cons, hready]
    exact ih (waiting.modify t (· - 1)) (fun v hv => ht v (by simp [hv])) hw'

end Enqueue

/-! ## Taking operations in order -/

section Drain

variable {d : Dag R}

/-- The edges that start at an operation that is not done. -/
def pending (es : List (Nat × Nat)) (rest : List Nat) : List (Nat × Nat) :=
  es.filter fun e => rest.contains e.1

/-- Finishing an operation takes its outgoing edges away. -/
theorem countP_pending {es : List (Nat × Nat)} {u : Nat} {rest : List Nat} (hu : u ∉ rest)
    (v : Nat) :
    (pending es (u :: rest)).countP (·.2 == v) =
      (pending es rest).countP (·.2 == v) + ((es.filter (·.1 == u)).map (·.2)).count v := by
  induction es with
  | nil => rfl
  | cons e es ih =>
    simp only [pending, List.filter_cons] at ih ⊢
    by_cases he : e.1 = u
    · have hnot : rest.contains e.1 = false := by simpa [he] using hu
      by_cases hv : e.2 = v
      · simp [he, hu, hv] at ih ⊢
        omega
      · simp [he, hu, hv] at ih ⊢
        omega
    · by_cases hr : e.1 ∈ rest
      · simp [he, hr, List.countP_cons] at ih ⊢
        omega
      · simpa [he, hr] using ih

/-- The edges lead from operations of a list to later ones. -/
def Forward (d : Dag R) (es : List (Nat × Nat)) (ids : List Nat) : Prop :=
  ∀ e ∈ es, e.1 ∈ ids ∧ e.2 ∈ ids ∧ d.position e.1 < d.position e.2

variable {es : List (Nat × Nat)} {done rest : List Nat} {u : Nat}

/-- Nothing of the rest leads to its first operation. -/
theorem countP_head (hf : d.Forward es (done ++ u :: rest))
    (hs : (done ++ u :: rest).Pairwise fun a b => d.position a < d.position b) :
    (pending es (u :: rest)).countP (·.2 == u) = 0 := by
  rw [List.countP_eq_zero]
  intro e he hu
  obtain ⟨hem, hes⟩ := List.mem_filter.mp he
  obtain rfl : e.2 = u := by simpa using hu
  have hlt := (hf e hem).2.2
  have hrest := (List.pairwise_cons.mp (List.pairwise_append.mp hs).2.1).1
  rcases List.mem_cons.mp (List.contains_iff_mem.mp hes) with heq | hmem
  · exact List.lt_irrefl _ (heq ▸ hlt)
  · exact List.lt_asymm hlt (hrest e.1 hmem)

/-- The targets of the first operation are in the rest. -/
theorem target_mem_rest (hf : d.Forward es (done ++ u :: rest))
    (hs : (done ++ u :: rest).Pairwise fun a b => d.position a < d.position b) {v : Nat}
    (hv : v ∈ ((es.filter (·.1 == u)).map (·.2)).reverse) : v ∈ rest := by
  obtain ⟨e, he, rfl⟩ := List.mem_map.mp (List.mem_reverse.mp hv)
  obtain ⟨hem, heu⟩ := List.mem_filter.mp he
  obtain rfl : e.1 = u := by simpa using heu
  obtain ⟨-, hmem, hlt⟩ := hf e hem
  rcases List.mem_append.mp hmem with hd | hc
  · have hbefore := (List.pairwise_append.mp hs).2.2 e.2 hd e.1 (by simp)
    exact absurd hbefore (List.lt_asymm hlt)
  · rcases List.mem_cons.mp hc with heq | hr
    · rw [heq] at hlt
      exact absurd hlt (List.lt_irrefl _)
    · exact hr

/-- From the free operations of the rest of a list, the rest comes out in order. -/
theorem drain_eq (done rest : List Nat) (waiting : Array Nat)
    (hf : d.Forward es (done ++ rest))
    (hs : (done ++ rest).Pairwise fun a b => d.position a < d.position b)
    (hb : ∀ v ∈ rest, v < d.slots.size)
    (hw : ∀ v ∈ rest, waiting[v]? = some ((pending es rest).countP (·.2 == v))) :
    d.drain (d.targets es) rest.length waiting
      (rest.filter fun v => (pending es rest).countP (·.2 == v) == 0) = rest := by
  induction rest generalizing done waiting with
  | nil => rfl
  | cons u rest ih =>
    have hrest := List.pairwise_cons.mp (List.pairwise_append.mp hs).2.1
    have hu : u ∉ rest := fun hm => List.lt_irrefl _ (hrest.1 u hm)
    set ts := ((es.filter (·.1 == u)).map (·.2)).reverse with hts
    have hcount (v : Nat) : (pending es (u :: rest)).countP (·.2 == v) =
        (pending es rest).countP (·.2 == v) + ts.count v := by
      rw [countP_pending hu, hts, List.count_reverse]
    obtain ⟨waiting', hfold, hw'⟩ := foldl_release hrest.2
      (fun v => (pending es rest).countP (·.2 == v)) ts waiting
      (fun v hv => target_mem_rest hf hs hv)
      (fun v hv => by rw [hw v (by simp [hv]), hcount])
    rw [List.filter_cons_of_pos (by rw [countP_head hf hs]; rfl)]
    simp only [hcount, List.length_cons, drain, getElem?_targets d es (hb u (by simp)), ← hts]
    rw [hfold, ih (done ++ [u]) waiting' (by simpa using hf) (by simpa using hs)
      (fun v hv => hb v (by simp [hv])) hw']

end Drain

/-! ## The order of a represented graph -/

section Represented

variable {d : Dag R} {ids : List Nat}

theorem op_mem_path {w : Wire} {before after : List Node} {l : Link} {a b : Nat}
    (hl : l = ⟨.op a, .op b⟩)
    (hp : d.near w ids ++ d.far w [] = before ++ l.source :: l.target :: after) :
    ids.filter (d.touches w) =
      before.filterMap Node.op? ++ a :: b :: after.filterMap Node.op? := by
  have hops : (d.near w ids ++ d.far w []).filterMap Node.op? = ids.filter (d.touches w) := by
    simp [near, far, List.filterMap_cons, List.filterMap_map, Function.comp_def]
  rw [← hops, hp, hl]
  simp

theorem mem_nodes {id : Nat} : id ∈ d.nodes ↔ (d.op? id).isSome := by
  rw [nodes, List.mem_filter, List.mem_range]
  exact ⟨fun h => h.2, fun h => ⟨lt_size_of_op? h, h⟩⟩

theorem mem_instructions {id : Nat} {i : Instruction R} :
    (id, i) ∈ d.instructions ↔ d.instruction? id = some i := by
  simp only [instructions, List.mem_filterMap, Option.map_eq_some_iff, Prod.mk.injEq]
  constructor
  · rintro ⟨_, -, _, hi, rfl, rfl⟩
    exact hi
  · intro hi
    refine ⟨id, ?_, i, hi, rfl, rfl⟩
    rw [mem_nodes, ← Option.isSome_map (f := OpNode.instruction)]
    exact Option.isSome_of_eq_some hi

theorem nodup_nodes (d : Dag R) : d.nodes.Nodup := List.nodup_range.filter _

theorem nodup_instructions (d : Dag R) : (d.instructions.map (·.1)).Nodup := by
  rw [instructions, List.map_filterMap]
  refine (nodup_nodes d).filterMap fun a b c ha hb => ?_
  obtain ⟨x, hx, rfl⟩ := Option.map_eq_some_iff.mp ha
  obtain ⟨i, -, rfl⟩ := Option.map_eq_some_iff.mp hx
  obtain ⟨y, hy, hc⟩ := Option.map_eq_some_iff.mp hb
  obtain ⟨j, -, rfl⟩ := Option.map_eq_some_iff.mp hy
  exact hc.symm

theorem Listed.perm_nodes (h : Listed d ids) : d.nodes.Perm ids := by
  rw [List.perm_ext_iff_of_nodup (nodup_nodes d) h.nodup]
  intro id
  rw [mem_nodes, h.mem_iff]

theorem Listed.numOps_eq (h : Listed d ids) : d.numOps = ids.length := h.perm_nodes.length_eq

theorem Listed.sorted (h : Listed d ids) :
    ids.Pairwise fun a b => d.position a < d.position b :=
  h.ordered.imp Precedes.lt

/-- An edge between operations leads from one of the list to a later one on the same wire. -/
theorem Represents.edge (h : Represents d ids) {w : Wire} (hw : d.HasWire w) {a b : Nat}
    (hl : ⟨.op a, .op b⟩ ∈ d.along w) :
    a ∈ ids ∧ b ∈ ids ∧ d.position a < d.position b := by
  obtain ⟨before, after, hp⟩ := mem_linksOf.mp ((h.threaded w hw).mem_iff.mp hl)
  have hf := op_mem_path rfl hp
  have hsub : (ids.filter (d.touches w)).Sublist ids := List.filter_sublist
  have hs := h.sorted.sublist hsub
  rw [hf] at hs hsub
  refine ⟨hsub.subset (by simp), hsub.subset (by simp), ?_⟩
  exact (List.pairwise_cons.mp (List.pairwise_append.mp hs).2.1).1 b (by simp)

theorem mem_edges {e : Nat × Nat} :
    e ∈ d.edges ↔ ∃ w, d.HasWire w ∧ ⟨.op e.1, .op e.2⟩ ∈ d.along w := by
  simp only [edges, List.mem_flatMap, PerWire.mem_wires, List.mem_filterMap]
  constructor
  · rintro ⟨w, hw, l, hl, he⟩
    refine ⟨w, hw, ?_⟩
    rcases l with ⟨_ | _ | a, _ | _ | b⟩ <;> simp only [Link.ops?, reduceCtorEq] at he
    obtain rfl := Option.some.inj he
    exact hl
  · rintro ⟨w, hw, hl⟩
    exact ⟨w, hw, _, hl, rfl⟩

theorem Represents.forward (h : Represents d ids) : d.Forward d.edges ids := by
  intro e he
  obtain ⟨w, hw, hl⟩ := mem_edges.mp he
  exact h.edge hw hl

/-- The topological order of a represented graph is its list. -/
theorem Represents.reachableOrder_eq (h : Represents d ids) : d.reachableOrder = ids := by
  have hperm := h.perm_nodes
  have hlt : ∀ v ∈ ids, v < d.slots.size := fun v hv => lt_size_of_op? ((h.mem_iff v).mp hv)
  have hpend : pending d.edges ids = d.edges := by
    rw [pending, List.filter_eq_self]
    intro e he
    simpa using (h.forward e he).1
  have hcount : ∀ v ∈ ids, (d.indegrees d.edges)[v]? =
      some ((pending d.edges ids).countP (·.2 == v)) := by
    intro v hv
    rw [hpend, getElem?_indegrees d _ (hlt v hv)]
  have hfree : ∀ v ∈ d.nodes.filter (fun id => (d.indegrees d.edges)[id]? = some 0), v ∈ ids :=
    fun v hv => hperm.mem_iff.mp (List.mem_of_mem_filter hv)
  have hready := foldl_enqueue h.sorted
    (d.nodes.filter fun id => (d.indegrees d.edges)[id]? = some 0) (fun _ => false)
    ((nodup_nodes d).filter _) hfree (fun _ _ => rfl)
  have hfilter : (ids.filter fun x => false || (d.nodes.filter fun id =>
      (d.indegrees d.edges)[id]? = some 0).contains x) =
      ids.filter fun v => (pending d.edges ids).countP (·.2 == v) == 0 := by
    apply List.filter_congr
    intro v hv
    have hvn : v ∈ d.nodes := hperm.mem_iff.mpr hv
    rw [Bool.eq_iff_iff]
    simp [List.mem_filter, hvn, hcount v hv]
  rw [List.filter_false, hfilter] at hready
  have hforward : d.Forward d.edges ([] ++ ids) := h.forward
  have hdrain := drain_eq [] ids (d.indegrees d.edges) hforward h.sorted hlt hcount
  rw [reachableOrder, hperm.length_eq]
  simp only [hready]
  exact hdrain

theorem Represents.topologicalNodes_eq (h : Represents d ids) : d.topologicalNodes = .ok ids := by
  simp [topologicalNodes, h.reachableOrder_eq, h.numOps_eq]

/-- A graph reads as the list of its operations with their instructions. -/
theorem Represents.topologicalOps_eq (h : Represents d ids) {ops : List (Nat × Instruction R)}
    (hids : ops.map (·.1) = ids) (hops : ∀ e ∈ ops, d.instruction? e.1 = some e.2) :
    d.topologicalOps = .ok ops := by
  have hf : (ids.filterMap fun id => (d.instruction? id).map (id, ·)) = ops := by
    rw [← hids, List.filterMap_map]
    conv_rhs => rw [← List.filterMap_some (l := ops)]
    apply List.filterMap_congr
    intro e he
    simp [hops e he]
  simp only [topologicalOps, h.topologicalNodes_eq]
  exact congrArg Except.ok hf

end Represented

end QuantumCompiler.Dag
