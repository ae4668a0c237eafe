import QuantumCompiler.Proofs.Dag.Calls

/-!
# The structure of a reachable graph

What the edges of a represented graph say to those who follow them: each wire is a walk from its input
through its operations to its output, the points before are the inverse of the points after, and the
check of the structure finds no fault.
-/
namespace QuantumCompiler.Dag

variable {R : Type}

/-- A wire of a graph with the given order: its input, the operations on it in that order, its
output. -/
def points (d : Dag R) (ids : List Nat) (w : Wire) : List Node :=
  .input w :: (ids.filter (d.touches w)).map .op ++ [.output w]

section Walk

variable {d : Dag R} {ids : List Nat} {w : Wire}

theorem points_eq (d : Dag R) (ids : List Nat) (w : Wire) :
    d.points ids w = d.near w ids ++ d.far w [] := by
  simp [points, near, far]

theorem Represents.nodup_points (h : Represents d ids) (w : Wire) : (d.points ids w).Nodup := by
  rw [points_eq]
  exact nodup_path d w (by simpa using h.nodup)

theorem Represents.perm_points (h : Represents d ids) (hw : d.HasWire w) :
    (d.along w).Perm (linksOf (d.points ids w)) := by
  rw [points_eq]
  exact h.threaded w hw

theorem op_mem_points {id : Nat} :
    .op id ∈ d.points ids w ↔ id ∈ ids ∧ d.touches w id = true := by
  simp [points]

theorem along_eq_nil (hw : ¬ d.HasWire w) : d.along w = [] := by
  have hn : d.links.get? w = none := by simpa [HasWire] using hw
  rw [along, hn]
  rfl

/-- One point leads to another exactly when an edge joins them. -/
theorem Represents.across?_eq_some (h : Represents d ids) (s : Side) {a b : Node} :
    d.across? s a w = some b ↔ d.HasWire w ∧ s.link a b ∈ linksOf (d.points ids w) := by
  by_cases hw : d.HasWire w
  · rw [Dag.across?_eq_some (h.perm_points hw) (h.nodup_points w)]
    exact (and_iff_right hw).symm
  · simp [across?, along_eq_nil hw, hw]

/-- One point is after another exactly when an edge joins them. -/
theorem Represents.successor?_eq_some (h : Represents d ids) {a b : Node} :
    d.successor? a w = some b ↔ d.HasWire w ∧ ⟨a, b⟩ ∈ linksOf (d.points ids w) :=
  h.across?_eq_some .source

theorem Represents.predecessor?_eq_some (h : Represents d ids) {a b : Node} :
    d.predecessor? b w = some a ↔ d.HasWire w ∧ ⟨a, b⟩ ∈ linksOf (d.points ids w) :=
  h.across?_eq_some .target

theorem Represents.successor?_iff_predecessor? (h : Represents d ids) {a b : Node} :
    d.successor? a w = some b ↔ d.predecessor? b w = some a := by
  rw [h.successor?_eq_some, h.predecessor?_eq_some]

/-- Each point of a wire is at this end of an edge, but for one end of the wire. -/
theorem perm_cons_map_point (d : Dag R) (ids : List Nat) (w : Wire) (s : Side) :
    (d.points ids w).Perm (s.terminal w :: (linksOf (d.points ids w)).map s.point) := by
  cases s with
  | source =>
    show (d.points ids w).Perm (.output w :: (linksOf (d.points ids w)).map Link.source)
    rw [map_source_linksOf, points, List.dropLast_concat]
    exact List.perm_append_singleton _ _
  | target =>
    show (d.points ids w).Perm (.input w :: (linksOf (d.points ids w)).map Link.target)
    rw [map_target_linksOf]
    rfl

/-- Nothing comes after the output of a wire or before its input. -/
theorem Represents.across?_terminal (h : Represents d ids) (s : Side) (w : Wire) :
    d.across? s (s.terminal w) w = none := by
  have hn := (perm_cons_map_point d ids w s).nodup (h.nodup_points w)
  cases hs : d.across? s (s.terminal w) w with
  | none => rfl
  | some b =>
    have hmem := List.mem_map_of_mem (f := s.point) ((h.across?_eq_some s).mp hs).2
    rw [s.point_link] at hmem
    exact absurd hmem (List.nodup_cons.mp hn).1

/-- Following a wire meets its points one after another. -/
theorem Represents.isChain_points (h : Represents d ids) (hw : d.HasWire w) :
    (d.points ids w).IsChain fun a b => d.successor? a w = some b ∧ d.predecessor? b w = some a := by
  refine (isChain_linksOf (d.points ids w)).imp ?_
  intro a b hab
  exact ⟨h.successor?_eq_some.mpr ⟨hw, hab⟩, h.predecessor?_eq_some.mpr ⟨hw, hab⟩⟩

end Walk

/-! ## Neighbours -/

section Neighbours

variable {d : Dag R} {ids : List Nat}

theorem nodup_eraseDups {α : Type} [BEq α] [LawfulBEq α] (xs : List α) : xs.eraseDups.Nodup := by
  generalize hn : xs.length = n
  induction n using Nat.strong_induction_on generalizing xs with
  | _ n ih =>
    cases xs with
    | nil => simp
    | cons x xs =>
      rw [List.eraseDups_cons, List.nodup_cons]
      constructor
      · simp
      · refine ih _ ?_ _ rfl
        have hle := List.length_filter_le (fun y => !y == x) xs
        simp only [List.length_cons] at hn
        omega

theorem nodup_neighbours (d : Dag R) (step : Node → Wire → Option Nat) (id : Nat) :
    (d.neighbours step id).Nodup := by
  unfold neighbours
  split
  · exact .nil
  · exact nodup_eraseDups _

theorem mem_neighbours {step : Node → Wire → Option Nat} {id x : Nat} :
    x ∈ d.neighbours step id ↔ ∃ w, d.touches w id = true ∧ step (.op id) w = some x := by
  unfold neighbours
  cases hi : d.instruction? id with
  | none => simp [touches, hi]
  | some i => simp [touches, hi]

theorem op?_eq_some {n : Node} {id : Nat} : n.op? = some id ↔ n = .op id := by
  cases n <;> simp

/-- Operations are neighbours when an edge along some wire joins them. -/
theorem Represents.mem_neighbours_across (h : Represents d ids) (s : Side) {u v : Nat} :
    v ∈ d.neighbours (fun n w => (d.across? s n w).bind Node.op?) u ↔
      ∃ w, d.HasWire w ∧ s.link (.op u) (.op v) ∈ linksOf (d.points ids w) := by
  simp only [mem_neighbours, Option.bind_eq_some_iff, op?_eq_some]
  constructor
  · rintro ⟨w, -, _, hs, rfl⟩
    exact ⟨w, (h.across?_eq_some s).mp hs⟩
  · rintro ⟨w, hw, hm⟩
    have hmem : Node.op u ∈ d.points ids w := s.point_link (.op u) (.op v) ▸ s.point_mem hm
    exact ⟨w, (op_mem_points.mp hmem).2, _, (h.across?_eq_some s).mpr ⟨hw, hm⟩, rfl⟩

/-- One operation directly depends on another when an edge leads from the other to it. -/
theorem Represents.mem_successors (h : Represents d ids) {u v : Nat} :
    v ∈ d.successors u ↔ ∃ w, d.HasWire w ∧ ⟨.op u, .op v⟩ ∈ linksOf (d.points ids w) :=
  h.mem_neighbours_across .source

theorem Represents.mem_predecessors (h : Represents d ids) {u v : Nat} :
    u ∈ d.predecessors v ↔ ∃ w, d.HasWire w ∧ ⟨.op u, .op v⟩ ∈ linksOf (d.points ids w) :=
  h.mem_neighbours_across .target

theorem Represents.mem_successors_iff (h : Represents d ids) {u v : Nat} :
    v ∈ d.successors u ↔ u ∈ d.predecessors v := by
  rw [h.mem_successors, h.mem_predecessors]

end Neighbours

/-! ## The check of the structure -/

section Verify

variable {d : Dag R} {ids : List Nat}

/-- Following a path to an output needs one step for each of its edges. -/
theorem follow_eq_ok {w : Wire} (path : List Node) (a : Node) (steps : Nat)
    (hn : (a :: path).Nodup) (hlast : (a :: path).getLast? = some (.output w))
    (hc : (a :: path).IsChain fun a b => d.successor? a w = some b)
    (hlen : path.length ≤ steps) : d.follow w steps a = .ok () := by
  induction path generalizing a steps with
  | nil =>
    obtain rfl : a = .output w := by simpa using hlast
    cases steps <;> simp [follow]
  | cons b path ih =>
    have hne : a ≠ .output w := by
      rintro rfl
      have hm : Node.output w ∈ b :: path := List.mem_of_getLast? (by simpa using hlast)
      exact (List.nodup_cons.mp hn).1 hm
    cases steps with
    | zero => simp at hlen
    | succ steps =>
      obtain ⟨hab, hc⟩ := List.isChain_cons_cons.mp hc
      rw [follow, if_neg hne, hab]
      exact ih b steps (List.nodup_cons.mp hn).2 (by simpa using hlast) hc (by simpa using hlen)

theorem Represents.follow_input (h : Represents d ids) {w : Wire} (hw : d.HasWire w) :
    d.follow w d.numPoints (.input w) = .ok () := by
  have hwires : 1 ≤ d.numQubits + d.numClbits := by
    cases w with
    | qubit q =>
      have hpos : 0 < d.numQubits := Nat.zero_lt_of_lt (hasWire_qubit.mp hw)
      omega
    | clbit c =>
      have hpos : 0 < d.numClbits := Nat.zero_lt_of_lt (hasWire_clbit.mp hw)
      omega
  have hfilter := List.length_filter_le (d.touches w) ids
  have hp : d.points ids w =
      .input w :: ((ids.filter (d.touches w)).map .op ++ [.output w]) := rfl
  have hn := h.nodup_points w
  have hc := (h.isChain_points hw).imp fun a b hab => hab.1
  rw [hp] at hn hc
  refine follow_eq_ok _ _ _ hn ?_ hc ?_
  · rw [← List.cons_append]
    exact List.getLast?_concat
  · simp only [List.length_append, List.length_map, List.length_cons, List.length_nil, numPoints,
      h.numOps_eq]
    omega

theorem flatMap_replicate_eq_filter {α : Type} (xs : List α) (p : α → Bool) :
    (xs.flatMap fun x => List.replicate (if p x then 1 else 0) x) = xs.filter p := by
  induction xs with
  | nil => rfl
  | cons x xs ih =>
    rw [List.flatMap_cons, ih]
    cases hp : p x <;> simp [hp]

/-- An operation has one edge on a side for each of its wires, if every wire has as many points there
as the operation occurs on it. -/
theorem edgeWires_eq {side : Link → Node} {id : Nat}
    (hs : ∀ w, d.HasWire w →
      ((d.along w).map side).count (.op id) = if d.touches w id then 1 else 0) :
    d.edgeWires side (.op id) = d.links.wires.filter fun w => d.touches w id := by
  rw [edgeWires, ← flatMap_replicate_eq_filter]
  apply List.flatMap_congr
  intro w hw
  rw [List.map_const', ← hs w (PerWire.mem_wires.mp hw), List.count, List.countP_map,
    List.countP_eq_length_filter]
  rfl

theorem Represents.count_point (h : Represents d ids) (s : Side) {id : Nat} (hid : id ∈ ids) {w : Wire}
    (hw : d.HasWire w) :
    ((d.along w).map s.point).count (.op id) = if d.touches w id then 1 else 0 := by
  have hne : s.terminal w ≠ .op id := by cases s <;> nofun
  have hcount := (perm_cons_map_point d ids w s).count_eq (.op id)
  rw [List.count_cons_of_ne hne, (h.nodup_points w).count] at hcount
  rw [((h.perm_points hw).map s.point).count_eq, ← hcount]
  simp [op_mem_points, hid]

theorem checkEdges_eq_ok {side : Link → Node} {id : Nat} {i : Instruction R}
    (hi : d.instruction? id = some i) (hw : i.wires.Nodup ∧ ∀ w ∈ i.wires, d.HasWire w)
    (hs : d.edgeWires side (.op id) = d.links.wires.filter fun w => d.touches w id) :
    d.checkEdges id i side = .ok () := by
  have hmem (w : Wire) : w ∈ d.edgeWires side (.op id) ↔ w ∈ i.wires := by
    rw [hs, List.mem_filter, PerWire.mem_wires, touches_eq_true]
    constructor
    · rintro ⟨-, j, hj, hm⟩
      rw [hi] at hj
      exact Option.some.inj hj ▸ hm
    · intro hm
      exact ⟨hw.2 w hm, i, hi, hm⟩
  have hnd : (d.edgeWires side (.op id)).Nodup := by
    rw [hs]
    exact (PerWire.nodup_wires d.links).filter _
  have hlen : (d.edgeWires side (.op id)).length = i.qubits.length + i.clbits.length := by
    rw [((List.perm_ext_iff_of_nodup hnd hw.1).mpr hmem).length_eq]
    simp [Instruction.wires]
  have hany : i.wires.any (fun w => !(d.edgeWires side (.op id)).contains w) = false := by
    simp [hmem]
  rw [checkEdges]
  simp only [hlen, hany, ne_eq, not_true_eq_false, Bool.false_eq_true, or_self, if_false]

theorem Represents.verify_eq_ok (h : Represents d ids) : d.verify = .ok () := by
  have hfollow : d.links.wires.forM (fun w => d.follow w d.numPoints (.input w)) = .ok () :=
    Outcome.forM_eq_ok.mpr fun w hw => h.follow_input (PerWire.mem_wires.mp hw)
  have hlen : ¬ d.reachableOrder.length ≠ d.numOps := by
    rw [h.reachableOrder_eq, h.numOps_eq]
    simp
  rw [verify, if_neg hlen]
  refine Outcome.bind_eq_ok.mpr ⟨(), hfollow, Outcome.forM_eq_ok.mpr ?_⟩
  rintro ⟨id, i⟩ hm
  obtain ⟨x, hx, he⟩ := List.mem_filterMap.mp hm
  obtain ⟨j, hj, hp⟩ := Option.map_eq_some_iff.mp he
  cases hp
  have hid : id ∈ ids := h.perm_nodes.mem_iff.mp hx
  have hw := h.operands id i hj
  rw [Outcome.forM_eq_ok]
  intro side hside
  simp only [List.mem_cons, List.not_mem_nil, or_false] at hside
  rcases hside with rfl | rfl
  · exact checkEdges_eq_ok hj hw (edgeWires_eq fun w => h.count_point .target hid)
  · exact checkEdges_eq_ok hj hw (edgeWires_eq fun w => h.count_point .source hid)

end Verify

/-- Every graph that changes lead to is sound. The check of the structure accepts it. Each wire, followed
from its input, meets the operations on it, each once and in topological order, and ends at its output;
followed backwards it meets the same points. Direct dependence lists every operation once and reads the
same from both ends. -/
theorem structure_of_reachable [Scalar R] {d : Dag R} (h : Reachable d) :
    d.verify = .ok () ∧ ∃ ids, d.topologicalNodes = .ok ids ∧
      ids.Nodup ∧ (∀ id, id ∈ ids ↔ (d.op? id).isSome) ∧
      (∀ w ∈ d.links.wires,
        (d.points ids w).IsChain
          (fun a b => d.successor? a w = some b ∧ d.predecessor? b w = some a) ∧
        d.successor? (.output w) w = none ∧ d.predecessor? (.input w) w = none ∧
        ∀ a b, d.successor? a w = some b ↔ d.predecessor? b w = some a) ∧
      ∀ u, (d.successors u).Nodup ∧ (d.predecessors u).Nodup ∧
        ∀ v, v ∈ d.successors u ↔ u ∈ d.predecessors v := by
  obtain ⟨ids, hr⟩ := h.represents
  refine ⟨hr.verify_eq_ok, ids, hr.topologicalNodes_eq, hr.nodup, hr.mem_iff, ?_, ?_⟩
  · intro w hw
    exact ⟨hr.isChain_points (PerWire.mem_wires.mp hw), hr.across?_terminal .source w,
      hr.across?_terminal .target w, fun a b => hr.successor?_iff_predecessor?⟩
  · intro u
    exact ⟨nodup_neighbours d _ u, nodup_neighbours d _ u, fun v => hr.mem_successors_iff⟩

/-- Two operations on the same two qubits and a measurement between them, with the first one replaced
by one that touches a single wire of it. -/
def narrowedCalls : List (Call Float) :=
  [.append (.barrier [0, 1]), .append (.measure 1 0), .append (.barrier [1, 0]),
    .substitute 0 [.reset 1]]

theorem structure_of_narrowedCalls : Reachable (run 2 1 narrowedCalls).1 ∧
    (run 2 1 narrowedCalls).1.verify = .ok () := by
  have hd : ∀ c ∈ narrowedCalls, c.ClbitsDistinct := by
    simp [narrowedCalls, Call.ClbitsDistinct, Call.instructions, Instruction.barrier,
      Instruction.measure, Instruction.reset]
  have hr : Reachable (run 2 1 narrowedCalls).1 := .run 2 1 hd
  exact ⟨hr, (structure_of_reachable hr).1⟩

end QuantumCompiler.Dag
