import QuantumCompiler.Proofs.Dag.Depth

/-!
# Depth as the length of a longest chain

The walk over the list finds a longest chain of dependences: barriers pass a chain on without counting.
Neighbours of a chain have a wire in common, and along the list a chain of operations with common wires is
never longer than the depth. The latter says nothing about direction. So the depth belongs to the
dependences alone, whatever list is rebuilt into a graph, and mirroring the list keeps it.
-/
namespace QuantumCompiler.Dag

variable {R : Type}

/-- Operations of which each directly depends on the one before it. -/
structure IsPath (d : Dag R) (ids : List Nat) : Prop where
  ops : ∀ id ∈ ids, (d.op? id).isSome = true
  depends : ids.IsChain fun u v => v ∈ d.successors u

/-- Number of operations of a list of nodes that are no barriers. -/
def layersOn (d : Dag R) (ids : List Nat) : Nat :=
  ids.countP fun id => (d.instruction? id).any fun i => !i.isBarrier

/-- Number of instructions that are no barriers. -/
def layers (is : List (Instruction R)) : Nat := is.countP fun i => !i.isBarrier

/-- Two operations with a wire in common. -/
def Meets (i j : Instruction R) : Prop := ∃ w ∈ i.wires, w ∈ j.wires

theorem Meets.symm {i j : Instruction R} (h : Meets i j) : Meets j i := by
  obtain ⟨w, hi, hj⟩ := h
  exact ⟨w, hj, hi⟩

theorem layers_cons (i : Instruction R) (is : List (Instruction R)) :
    layers (i :: is) = layers [i] + layers is := by
  rw [layers, layers, layers, ← List.countP_append]
  rfl

theorem layer_eq (f : Wire → Nat) (i : Instruction R) :
    layer f i = base f i.wires + layers [i] := by
  rw [layer, layers, List.countP_singleton]
  cases i.isBarrier <;> rfl

/-! ## No chain is longer than the depth -/

section Bound

variable {f : Wire → Nat} {is l : List (Instruction R)}

/-- Behind a wire that has reached layer `k`, a chain along the list reaches as many layers more as it has
operations that count. -/
theorem add_layers_le (hl : l.Sublist is) (hc : l.IsChain Meets) (hne : l ≠ []) {k : Nat}
    (hk : ∀ i ∈ l.head?, k ≤ base f i.wires) : k + layers l ≤ depthFrom f is := by
  induction hl generalizing f k with
  | slnil => exact absurd rfl hne
  | @cons l is a hl ih =>
    have hraised : ∀ i ∈ l.head?, k ≤ base (raise f a) i.wires := fun i hi =>
      (hk i hi).trans (base_mono (le_raise f a) i.wires)
    exact (ih hc hne hraised).trans (le_max_right _ _)
  | @cons_cons l is a hl ih =>
    have hfirst : k + layers [a] ≤ layer f a := by
      rw [layer_eq]
      exact Nat.add_le_add_right (hk a rfl) _
    cases l with
    | nil => exact hfirst.trans (le_max_left _ _)
    | cons b l =>
      obtain ⟨⟨w, ha, hb⟩, hc⟩ := List.isChain_cons_cons.mp hc
      -- the common wire carries the layer of the first operation to the second one
      have hnext : k + layers [a] ≤ base (raise f a) b.wires := by
        refine hfirst.trans ?_
        have hw : raise f a w = layer f a := if_pos ha
        exact hw ▸ base_le_iff.mp le_rfl w hb
      rw [layers_cons, ← Nat.add_assoc]
      refine (ih hc (by simp) fun i hi => ?_).trans (le_max_right _ _)
      obtain rfl : b = i := by simpa using hi
      exact hnext

theorem layers_le (hl : l.Sublist is) (hc : l.IsChain Meets) : layers l ≤ depthFrom f is := by
  by_cases hne : l = []
  · rw [hne]
    exact Nat.zero_le _
  · have := add_layers_le (f := f) hl hc hne (k := 0) fun _ _ => Nat.zero_le _
    rwa [Nat.zero_add] at this

end Bound

/-! ## Some chain is as long as the depth -/

section Attained

/-- Some wire has reached the last layer, if there is one. -/
theorem exists_eq_base (f : Wire → Nat) (ws : List Wire) :
    base f ws = 0 ∨ ∃ w ∈ ws, f w = base f ws := by
  by_contra h
  push Not at h
  obtain ⟨hpos, hne⟩ := h
  have hlt : ∀ w ∈ ws, f w ≤ base f ws - 1 := fun w hw =>
    Nat.le_sub_one_of_lt (lt_of_le_of_ne (base_le_iff.mp le_rfl w hw) (hne w hw))
  have := base_le_iff.mpr hlt
  omega

/-- The layers of all wires after a list of operations. -/
def raises (is : List (Instruction R)) : Wire → Nat := is.foldl raise fun _ => 0

theorem raises_concat (is : List (Instruction R)) (i : Instruction R) :
    raises (is ++ [i]) = raise (raises is) i := List.foldl_concat ..

theorem depthFrom_concat (f : Wire → Nat) (is : List (Instruction R)) (i : Instruction R) :
    depthFrom f (is ++ [i]) = max (depthFrom f is) (layer (is.foldl raise f) i) := by
  induction is generalizing f with
  | nil => simp [depthFrom]
  | cons j is ih => rw [List.cons_append, depthFrom, ih, depthFrom, List.foldl_cons, max_assoc]

variable [Scalar R] {d : Dag R} {es a b : Entries R}

theorem Reads.layersOn_eq (h : d.Reads es) (hs : a.Sublist es) :
    d.layersOn (a.map (·.1)) = layers (a.map (·.2)) := by
  rw [layersOn, layers, List.countP_map, List.countP_map]
  refine List.countP_congr fun x hx => ?_
  simp [h.holds.instruction? x (hs.subset hx)]

/-- A path that ends at an operation and counts as many layers as the operation has. -/
structure Deepest (d : Dag R) (id n : Nat) (ids : List Nat) : Prop where
  path : d.IsPath (ids ++ [id])
  layers : d.layersOn (ids ++ [id]) = n

/-- What the layer of a wire stands for: a path that ends at the last operation on the wire. -/
def Backed (d : Dag R) (a : Entries R) (w : Wire) : Prop :=
  raises (a.map (·.2)) w = 0 ∨ ∃ x before after ids, a = before ++ x :: after ∧ w ∈ x.2.wires ∧
    (∀ y ∈ after, w ∉ y.2.wires) ∧ d.Deepest x.1 (raises (a.map (·.2)) w) ids

/-- An operation continues the path of the wire that holds it up. -/
theorem Reads.exists_deepest {x : Nat × Instruction R} (h : d.Reads (a ++ x :: b))
    (hw : ∀ w, d.Backed a w) : ∃ ids, d.Deepest x.1 (layer (raises (a.map (·.2))) x.2) ids := by
  have hx : d.instruction? x.1 = some x.2 := h.holds.instruction? x (by simp)
  have hop : (d.op? x.1).isSome = true := by
    obtain ⟨n, hn, -⟩ := op?_of_instruction? hx
    exact Option.isSome_of_eq_some hn
  have hone : d.layersOn [x.1] = layers [x.2] := by
    simp [layersOn, Dag.layers, hx]
  rw [layer_eq]
  have hzero (hb : base (raises (a.map (·.2))) x.2.wires = 0) :
      ∃ ids, d.Deepest x.1 (base (raises (a.map (·.2))) x.2.wires + Dag.layers [x.2]) ids := by
    refine ⟨[], ⟨by simpa using hop, .singleton _⟩, ?_⟩
    rw [hb, Nat.zero_add]
    exact hone
  rcases exists_eq_base (raises (a.map (·.2))) x.2.wires with hb | ⟨w, hmem, hbase⟩
  · exact hzero hb
  rcases hw w with hb | ⟨y, before, after, ids, rfl, hy, hafter, hpath, hlayers⟩
  · exact hzero (hbase ▸ hb)
  · have hread : d.Reads (before ++ (y.1, y.2) :: (after ++ (x.1, x.2) :: b)) := by simpa using h
    have hnext : d.nextOp? (.op y.1) w = some x.1 := hread.nextOp?_of_split hy hmem hafter
    have htouch : d.touches w y.1 = true := (h.touches_iff (by simp)).mpr hy
    refine ⟨ids ++ [y.1], ⟨?_, ?_⟩, ?_⟩
    · intro id hid
      rcases List.mem_append.mp hid with hid | hid
      · exact hpath.ops id hid
      · exact List.mem_singleton.mp hid ▸ hop
    · refine hpath.depends.append (.singleton _) ?_
      intro u hu v hv
      obtain rfl : y.1 = u := by simpa using hu
      obtain rfl : x.1 = v := by simpa using hv
      exact mem_neighbours.mpr ⟨w, htouch, hnext⟩
    · rw [layersOn, List.countP_append]
      exact congrArg₂ (· + ·) (hlayers.trans hbase) hone

theorem Reads.backed (a : Entries R) (h : d.Reads (a ++ b)) (w : Wire) : d.Backed a w := by
  induction a using List.reverseRecOn generalizing b w with
  | nil => exact .inl rfl
  | append_singleton a x ih =>
    have h' : d.Reads (a ++ x :: b) := by simpa using h
    have hraise : raises ((a ++ [x]).map (·.2)) w = raise (raises (a.map (·.2))) x.2 w := by
      rw [List.map_append, List.map_singleton, raises_concat]
    rw [Backed, hraise, raise]
    by_cases hw : w ∈ x.2.wires
    · obtain ⟨ids, hids⟩ := h'.exists_deepest fun v => ih h' v
      rw [if_pos hw]
      exact .inr ⟨x, a, [], ids, rfl, hw, by simp, hids⟩
    · rw [if_neg hw]
      rcases ih h' w with hzero | ⟨y, before, after, ids, rfl, hy, hafter, hids⟩
      · exact .inl hzero
      · refine .inr ⟨y, before, after ++ [x], ids, by simp, hy, ?_, hids⟩
        intro z hz
        rcases List.mem_append.mp hz with hz | hz
        · exact hafter z hz
        · exact List.mem_singleton.mp hz ▸ hw

theorem Reads.exists_path (a : Entries R) (h : d.Reads (a ++ b)) :
    ∃ ids, d.IsPath ids ∧ d.layersOn ids = depthFrom (fun _ => 0) (a.map (·.2)) := by
  induction a using List.reverseRecOn generalizing b with
  | nil => exact ⟨[], ⟨by simp, .nil⟩, rfl⟩
  | append_singleton a x ih =>
    have h' : d.Reads (a ++ x :: b) := by simpa using h
    rw [List.map_append, List.map_singleton, depthFrom_concat]
    rcases max_choice (depthFrom (fun _ => 0) (a.map (·.2))) (layer (raises (a.map (·.2))) x.2)
      with hmax | hmax
    · obtain ⟨ids, hpath, hids⟩ := ih h'
      exact ⟨ids, hpath, hids.trans hmax.symm⟩
    · obtain ⟨ids, hids⟩ := h'.exists_deepest fun w => Reads.backed a h' w
      exact ⟨ids ++ [x.1], hids.path, hids.layers.trans hmax.symm⟩

end Attained

/-! ## Paths along the list -/

section Paths

variable [Scalar R] {d : Dag R} {es : Entries R}

/-- A path runs along the list, and its neighbours have a wire in common. -/
theorem Reads.exists_sublist_cons (h : d.Reads es) (ids : List Nat) {u : Nat}
    (hp : d.IsPath (u :: ids)) :
    ∃ (before : Entries R) (i : Instruction R) (after rest : Entries R),
      es = before ++ (u, i) :: after ∧ rest.Sublist after ∧
      rest.map (·.1) = ids ∧ (i :: rest.map (·.2)).IsChain Meets := by
  induction ids generalizing u with
  | nil =>
    obtain ⟨n, hn⟩ := Option.isSome_iff_exists.mp (hp.ops u (by simp))
    have hmem : (u, n.instruction) ∈ es := h.mem_iff.mpr (instruction?_of_op? hn)
    obtain ⟨before, after, hes⟩ := List.append_of_mem hmem
    exact ⟨before, n.instruction, after, [], hes, List.nil_sublist _, rfl, .singleton _⟩
  | cons v ids ih =>
    obtain ⟨huv, hdepends⟩ := List.isChain_cons_cons.mp hp.depends
    obtain ⟨before, j, after, rest, hes, hrest, rfl, hc⟩ :=
      ih ⟨fun id hid => hp.ops id (List.mem_cons_of_mem _ hid), hdepends⟩
    obtain ⟨w, htouch, hnext⟩ := mem_neighbours.mp huv
    obtain ⟨i, j', a, b, c, hes', hj, -⟩ := h.split_of_nextOp? hnext
    have hsplit : a ++ (u, i) :: (b ++ (v, j') :: c) = (a ++ (u, i) :: b) ++ (v, j') :: c := by simp
    have hread : d.Reads ((a ++ (u, i) :: b) ++ (v, j') :: c) := hsplit ▸ hes' ▸ h
    have hsame : (a ++ (u, i) :: b) ++ (v, j') :: c = before ++ (v, j) :: after :=
      (hsplit.symm.trans hes'.symm).trans hes
    obtain ⟨-, rfl⟩ := hread.split_unique hsame
    obtain rfl : j' = j := by
      have hm : (v, j) ∈ es := hes ▸ by simp
      have hm' : (v, j') ∈ es := hes' ▸ by simp
      exact congrArg Prod.snd (h.unique_node hm' hm rfl)
    have hi : w ∈ i.wires := (h.touches_iff (x := (u, i)) (hes' ▸ by simp)).mp htouch
    exact ⟨a, i, b ++ (v, j') :: c, (v, j') :: rest, hes',
      (hrest.cons_cons _).trans (List.sublist_append_right b _), rfl,
      List.isChain_cons_cons.mpr ⟨⟨w, hi, hj⟩, hc⟩⟩

theorem Reads.exists_sublist (h : d.Reads es) {ids : List Nat} (hp : d.IsPath ids) :
    ∃ l, l.Sublist (es.map (·.2)) ∧ l.IsChain Meets ∧ layers l = d.layersOn ids := by
  cases ids with
  | nil => exact ⟨[], List.nil_sublist _, .nil, rfl⟩
  | cons u ids =>
    obtain ⟨before, i, after, rest, rfl, hrest, rfl, hc⟩ := h.exists_sublist_cons ids hp
    have hsub : ((u, i) :: rest).Sublist (before ++ (u, i) :: after) :=
      (hrest.cons_cons _).trans (List.sublist_append_right before _)
    exact ⟨_, hsub.map (·.2), hc, (h.layersOn_eq hsub).symm⟩

/-- The depth of a graph is that of a longest path. -/
theorem Reads.isGreatest_depth (h : d.Reads es) :
    IsGreatest {n | ∃ ids, d.IsPath ids ∧ d.layersOn ids = n} d.depth := by
  rw [h.depth_eq]
  constructor
  · exact Reads.exists_path es (b := []) (by simpa using h)
  · rintro n ⟨ids, hp, rfl⟩
    obtain ⟨l, hl, hc, hlayers⟩ := h.exists_sublist hp
    exact hlayers ▸ layers_le hl hc

/-- A longest path, read backwards, is a chain along the mirrored list. -/
theorem Reads.depth_le_reverse (h : d.Reads es) :
    d.depth ≤ depthFrom (fun _ => 0) (es.map (·.2)).reverse := by
  obtain ⟨ids, hp, hids⟩ := h.isGreatest_depth.1
  obtain ⟨l, hl, hc, hlayers⟩ := h.exists_sublist hp
  have hc' : l.reverse.IsChain Meets :=
    List.isChain_reverse.mpr (hc.imp fun _ _ hm => hm.symm)
  calc d.depth
    _ = layers l := hids.symm.trans hlayers.symm
    _ = layers l.reverse := (List.countP_reverse ..).symm
    _ ≤ _ := layers_le hl.reverse hc'

end Paths

/-! ## Counting operations -/

section Counts

/-- The order in which two names are counted makes no difference. -/
theorem countName_comm (a b : String) (counts : List (String × Nat)) :
    countName a (countName b counts) = countName b (countName a counts) := by
  induction counts with
  | nil =>
    rcases lt_trichotomy a b with h | rfl | h
    · simp [countName, h, h.ne, h.ne', h.not_gt]
    · rfl
    · simp [countName, h, h.ne, h.ne', h.not_gt]
  | cons x counts ih =>
    obtain ⟨n, k⟩ := x
    simp only [countName]
    split_ifs <;> grind [countName]

variable [Scalar R] {d : Dag R} {es : Entries R}

/-- The operations are counted as they are read. -/
theorem Reads.countOps_eq (h : d.Reads es) :
    d.countOps = (es.map (·.2)).foldl (fun counts i => countName i.name counts) [] := by
  have hperm : d.instructions.Perm es := by
    refine (List.perm_ext_iff_of_nodup d.nodup_instructions.of_map h.nodup.of_map).mpr ?_
    rintro ⟨id, i⟩
    rw [mem_instructions, h.mem_iff]
  rw [countOps, List.foldl_map]
  exact hperm.foldl_eq' (fun x _ y _ counts => countName_comm _ _ _) []

end Counts

/-! ## Rebuilt and mirrored graphs -/

section Rebuilt

variable [Scalar R] {d e : Dag R} {es es' : Entries R}

/-- Instructions of a graph, in any order, make a graph over the same register. -/
theorem Reads.exists_made (h : d.Reads es) {is : List (Instruction R)} (his : is ⊆ es.map (·.2)) :
    ∃ e es', ofInstructions d.numQubits d.numClbits is = .ok e ∧ e.Reads es' ∧
      es'.map (·.2) = is := by
  have hfound : ∀ i ∈ is, ∃ id, (id, i) ∈ es := fun i hi => by
    obtain ⟨x, hx, rfl⟩ := List.mem_map.mp (his hi)
    exact ⟨x.1, hx⟩
  obtain ⟨e, es', he, hreads, hes, -⟩ := exists_reads_ofInstructions d.numQubits d.numClbits is
    (fun i hi => (hfound i hi).elim fun id hid => h.valid (id, i) hid)
    (fun i hi => (hfound i hi).elim fun _ hid => h.nodup_clbits hid)
  exact ⟨e, es', he, hreads, hes⟩

/-- What graphs that read as the same instructions have in common. -/
theorem Reads.rebuilt (h : d.Reads es) (h' : e.Reads es') (he : es'.map (·.2) = es.map (·.2)) :
    e.linearize = d.linearize ∧ e.depth = d.depth ∧ e.numOps = d.numOps ∧
      e.countOps = d.countOps := by
  refine ⟨?_, ?_, ?_, ?_⟩
  · rw [h.linearize_eq, h'.linearize_eq, he]
  · rw [h.depth_eq, h'.depth_eq, he]
  · rw [h.numOps_eq, h'.numOps_eq, ← List.length_map (f := (·.2)), he, List.length_map]
  · rw [h.countOps_eq, h'.countOps_eq, he]

/-- The mirror of a graph reads as the mirrored list. -/
theorem Reads.exists_reversed (h : d.Reads es) : ∃ m es', d.reversed = .ok m ∧ m.Reads es' ∧
    es'.map (·.2) = (es.map (·.2)).reverse ∧ m.phase = d.phase := by
  obtain ⟨r, es', hr, hreads, hes⟩ := h.exists_made (List.reverse_subset.mpr (List.Subset.refl _))
  refine ⟨{ r with phase := d.phase }, es', ?_, hreads.withPhase d.phase, hes, rfl⟩
  simp [reversed, h.linearize_eq, hr, bind, Except.bind, pure, Except.pure]

/-- Mirroring the list keeps the depth. -/
theorem Reads.depth_mirror (h : d.Reads es) (h' : e.Reads es')
    (he : es'.map (·.2) = (es.map (·.2)).reverse) : e.depth = d.depth := by
  refine le_antisymm ?_ ?_
  · rw [h.depth_eq, ← List.reverse_reverse (es.map (·.2)), ← he]
    exact h'.depth_le_reverse
  · rw [h'.depth_eq, he]
    exact h.depth_le_reverse

end Rebuilt

/-- Depth belongs to the dependences. It is the largest number of operations other than barriers on a
path of the graph. The graph rebuilt from the list of instructions has the same list, depth and counts, and
the mirrored graph has the mirrored list and the same phase and depth. -/
theorem longest_path_of_reachable [Scalar R] {d : Dag R} (h : d.Reachable) :
    IsGreatest {n | ∃ ids, d.IsPath ids ∧ d.layersOn ids = n} d.depth ∧
      ∃ is, d.linearize = .ok is ∧
        (∃ r, ofInstructions d.numQubits d.numClbits is = .ok r ∧ r.linearize = .ok is ∧
          r.depth = d.depth ∧ r.numOps = d.numOps ∧ r.countOps = d.countOps) ∧
        ∃ m, d.reversed = .ok m ∧ m.linearize = .ok is.reverse ∧ m.phase = d.phase ∧
          m.depth = d.depth := by
  obtain ⟨es, hd⟩ := h.exists_reads
  obtain ⟨r, es', hr, hreads, hes'⟩ := hd.exists_made (List.Subset.refl _)
  obtain ⟨m, es'', hm, hmirror, hes'', hphase⟩ := hd.exists_reversed
  obtain ⟨hlist, hdepth, hops, hcounts⟩ := hd.rebuilt hreads hes'
  refine ⟨hd.isGreatest_depth, es.map (·.2), hd.linearize_eq,
    ⟨r, hr, hlist.trans hd.linearize_eq, hdepth, hops, hcounts⟩,
    m, hm, ?_, hphase, hd.depth_mirror hmirror hes''⟩
  rw [hmirror.linearize_eq, hes'']

/-- Two qubits that a barrier brings to one layer, with the second gate replaced by two. -/
def synchronizedCalls : List (Call Float) :=
  [.append (.ofStandard .h [0]), .append (.barrier [0, 1]), .append (.ofStandard .x [1]),
    .append (.measure 1 0), .substitute 2 [.ofStandard .x [1], .ofStandard .x [1]]]

theorem longest_path_of_synchronizedCalls :
    Reachable (run 2 1 synchronizedCalls).1 ∧ (run 2 1 synchronizedCalls).1.depth = 4 ∧
    IsGreatest {n | ∃ ids, (run 2 1 synchronizedCalls).1.IsPath ids ∧
      (run 2 1 synchronizedCalls).1.layersOn ids = n} 4 := by
  have hd : ∀ c ∈ synchronizedCalls, c.ClbitsDistinct := by
    simp [synchronizedCalls, Call.ClbitsDistinct, Call.instructions, Instruction.barrier,
      Instruction.measure, Instruction.ofStandard, Instruction.ofGate]
  have hr : Reachable (run 2 1 synchronizedCalls).1 := .run 2 1 hd
  have hdepth : (run 2 1 synchronizedCalls).1.depth = 4 := by decide +kernel
  exact ⟨hr, hdepth, hdepth ▸ (longest_path_of_reachable hr).1⟩

end QuantumCompiler.Dag
