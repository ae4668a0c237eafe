import QuantumCompiler.Proofs.Dag.Listing

/-!
# Cutting and tying edges

What the steps of a change do to the list a graph represents. Removing a node leaves its wires open at
its place: the graph is `Torn` there. Filling the gaps puts operations into that place, and closing
them makes the graph whole again. Tying a node in at the ends of its wires puts it behind everything.
-/
namespace QuantumCompiler.Dag

variable {R : Type}

/-! ## Cutting an operation out -/

/-- The gap on a wire between two parts of a list. -/
def gapBetween (d : Dag R) (before after : List Nat) (w : Wire) : Gap :=
  ⟨w, (d.near w before).getLastD (.input w), (d.far w after).headD (.output w)⟩

theorem getLast?_near (d : Dag R) (a b : List Nat) (w : Wire) :
    (d.near w a).getLast? = some (d.gapBetween a b w).before := by
  obtain ⟨n, hn⟩ := d.exists_getLast?_near w a
  rw [gapBetween, List.getLastD_eq_getLast?, hn]
  rfl

theorem head?_far (d : Dag R) (a b : List Nat) (w : Wire) :
    (d.far w b).head? = some (d.gapBetween a b w).after := by
  obtain ⟨n, hn⟩ := d.exists_head?_far w b
  rw [gapBetween, List.headD_eq_head?_getD, hn]
  rfl

theorem path_through {d : Dag R} {id : Nat} {w : Wire} (ht : d.touches w id = true)
    (a b : List Nat) :
    d.near w (a ++ id :: b) ++ d.far w [] = d.near w a ++ .op id :: d.far w b := by
  rw [near_append_far, List.append_nil]
  simp [far, ht]

theorem path_past {d : Dag R} {id : Nat} {w : Wire} (ht : d.touches w id = false)
    (a b : List Nat) :
    d.near w (a ++ id :: b) ++ d.far w [] = d.near w a ++ d.far w b := by
  rw [near_append_far, List.append_nil]
  simp [far, ht]

theorem hasWire_gapBetween {d : Dag R} {id : Nat} {ids : List Nat} {i : Instruction R}
    (h : Listed d ids) (hi : d.instruction? id = some i) (a b : List Nat) :
    ∀ g ∈ i.wires.map (d.gapBetween a b), d.HasWire g.wire := by
  intro g hg
  obtain ⟨w, hw, rfl⟩ := List.mem_map.mp hg
  exact (h.operands id i hi).2 w hw

theorem map_wire_gapBetween (d : Dag R) (a b : List Nat) (ws : List Wire) :
    (ws.map (d.gapBetween a b)).map Gap.wire = ws := by
  rw [List.map_map]
  exact List.map_id'' (fun _ => rfl) ws

section Cut

variable {d : Dag R} {id : Nat} {i : Instruction R} {a b : List Nat}

/-- The points before and after an operation are found on each of its wires. -/
theorem gap_eq_ok (h : Represents d (a ++ id :: b)) (hi : d.instruction? id = some i) {w : Wire}
    (hw : w ∈ i.wires) : d.gap id w = .ok (d.gapBetween a b w) := by
  have ht : d.touches w id = true := touches_eq_true.mpr ⟨i, hi, hw⟩
  have hp := h.threaded w ((h.operands id i hi).2 w hw)
  have hnd : (d.near w (a ++ id :: b) ++ d.far w []).Nodup :=
    nodup_path d w (by simpa using h.nodup)
  rw [path_through ht] at hp hnd
  have hl := getLast?_near d a b w
  have hh := head?_far d a b w
  have hin : (⟨(d.gapBetween a b w).before, .op id⟩ : Link) ∈
      linksOf (d.near w a ++ .op id :: d.far w b) := by
    rw [linksOf_append hl (b := .op id) (by simp)]
    simp
  have hout : (⟨.op id, (d.gapBetween a b w).after⟩ : Link) ∈
      linksOf (d.near w a ++ .op id :: d.far w b) := by
    rw [show d.near w a ++ .op id :: d.far w b = (d.near w a ++ [.op id]) ++ d.far w b by simp,
      linksOf_append (a := .op id) (by simp) hh]
    simp
  have hpre : d.predecessor? (.op id) w = some (d.gapBetween a b w).before :=
    (across?_eq_some hp hnd .target).mpr hin
  have hsuc : d.successor? (.op id) w = some (d.gapBetween a b w).after :=
    (across?_eq_some hp hnd .source).mpr hout
  rw [gap, hpre, hsuc]
  rfl

theorem listed_removeNode (h : Listed d (a ++ id :: b)) : Listed (d.removeNode id) (a ++ b) := by
  have hsub : (a ++ b).Sublist (a ++ id :: b) :=
    (List.sublist_cons_self id b).append_left a
  have hmid := List.nodup_middle.mp h.nodup
  have hop := op?_removeNode_of_mem (d := d) h.nodup
  have hlive : (d.op? id).isSome := (h.mem_iff id).mp (by simp)
  constructor
  · exact h.nodup.sublist hsub
  · intro x
    rw [op?_removeNode]
    by_cases hx : x = id
    · subst hx
      simpa using (List.nodup_cons.mp hmid).1
    · rw [if_neg hx, ← h.mem_iff]
      simp [hx]
  · refine (h.ordered.sublist hsub).imp_of_mem ?_
    intro x y hx hy hxy
    rwa [position_congr (hop x hx), position_congr (hop y hy)]
  · intro x hx
    rw [position_congr (hop x hx)]
    exact h.counted x (hsub.subset hx)
  · intro x j hj
    have hx : x ≠ id := by
      rintro rfl
      simp [instruction?, op?_removeNode] at hj
    have ho : (d.removeNode id).op? x = d.op? x := by rw [op?_removeNode, if_neg hx]
    rw [instruction?_congr ho] at hj
    obtain ⟨hn, hw⟩ := h.operands x j hj
    exact ⟨hn, fun w hm => (hasWire_removeNode d id w).mpr (hw w hm)⟩
  · refine List.nodup_cons.mpr ⟨?_, h.free_nodup⟩
    intro hf
    simp [(h.free_empty id hf).2] at hlive
  · intro x hx
    rw [op?_removeNode]
    rcases List.mem_cons.mp hx with rfl | hf
    · exact ⟨by simpa [removeNode] using lt_size_of_op? hlive, by simp⟩
    · obtain ⟨hs, ho⟩ := h.free_empty x hf
      exact ⟨by simpa [removeNode] using hs, by simp [ho]⟩

/-- Removing a node leaves its wires open at its place. -/
theorem torn_removeNode (h : Represents d (a ++ id :: b)) (hi : d.instruction? id = some i) :
    Torn (d.removeNode id) a b (i.wires.map (d.gapBetween a b)) := by
  have hmid := List.nodup_middle.mp h.nodup
  have hop := op?_removeNode_of_mem (d := d) h.nodup
  have hna (w : Wire) : (d.removeNode id).near w a = d.near w a :=
    near_congr (fun x hx => hop x (by simp [hx])) w
  have hfb (w : Wire) : (d.removeNode id).far w b = d.far w b :=
    far_congr (fun x hx => hop x (by simp [hx])) w
  have hnota (w : Wire) : .op id ∉ d.near w a := by
    intro hm
    exact (List.nodup_cons.mp hmid).1 (by simp [(op_mem_near.mp hm).1])
  have hnotb (w : Wire) : .op id ∉ d.far w b := by
    intro hm
    exact (List.nodup_cons.mp hmid).1 (by simp [(op_mem_far.mp hm).1])
  constructor
  · rw [map_wire_gapBetween]
    exact (h.operands id i hi).1
  · intro g hg
    exact (hasWire_removeNode d id _).mpr (hasWire_gapBetween h.toListed hi a b g hg)
  · intro g hg
    obtain ⟨w, hw, rfl⟩ := List.mem_map.mp hg
    change ((d.removeNode id).along w).Perm _
    rw [along_removeNode]
    have hp := (h.threaded w ((h.operands id i hi).2 w hw)).filter fun l => !l.touches (.op id)
    rw [path_through (touches_eq_true.mpr ⟨i, hi, hw⟩),
      filter_touches (getLast?_near d a b w) (head?_far d a b w) (hnota w) (hnotb w)] at hp
    simpa only [gapBetween, hna, hfb] using hp
  · intro g hg
    obtain ⟨w, -, rfl⟩ := List.mem_map.mp hg
    change ((d.removeNode id).near w a).getLast? = _
    rw [hna]
    exact getLast?_near d a b w
  · intro g hg
    obtain ⟨w, -, rfl⟩ := List.mem_map.mp hg
    change ((d.removeNode id).far w b).head? = _
    rw [hfb]
    exact head?_far d a b w
  · intro w hw hnot
    rw [map_wire_gapBetween] at hnot
    rw [along_removeNode, hna, hfb]
    have ht : d.touches w id = false := by simp [touches, hi, hnot]
    have hp := (h.threaded w ((hasWire_removeNode d id w).mp hw)).filter
      fun l => !l.touches (.op id)
    rw [path_past ht, filter_touches_of_notMem] at hp
    · exact hp
    · simp [hnota w, hnotb w]

end Cut

/-! ## Putting operations in -/

/-- What was there stays: operations, counters and wires. -/
structure Extends (d e : Dag R) : Prop where
  op? : ∀ id n, d.op? id = some n → e.op? id = some n
  appended : e.appended = d.appended
  phase : e.phase = d.phase
  hasWire : ∀ w, e.HasWire w ↔ d.HasWire w

theorem Extends.refl (d : Dag R) : Extends d d := ⟨fun _ _ h => h, rfl, rfl, fun _ => Iff.rfl⟩

theorem Extends.trans {d e f : Dag R} (h : Extends d e) (g : Extends e f) : Extends d f :=
  ⟨fun id n hn => g.op? id n (h.op? id n hn), g.appended.trans h.appended,
    g.phase.trans h.phase, fun w => (g.hasWire w).trans (h.hasWire w)⟩

theorem SameOps.extends {d e : Dag R} (h : SameOps d e) : Extends d e :=
  ⟨fun id n hn => by rw [h.op?, hn], h.appended, h.phase, h.hasWire⟩

theorem Extends.op?_eq {d e : Dag R} (h : Extends d e) {id : Nat} (hs : (d.op? id).isSome) :
    e.op? id = d.op? id := by
  obtain ⟨n, hn⟩ := Option.isSome_iff_exists.mp hs
  rw [hn, h.op? id n hn]

section Put

variable {d : Dag R} {a b : List Nat} {n : OpNode R}

theorem extends_addNode (h : Listed d a) (n : OpNode R) : Extends d (d.addNode n).2 := by
  refine ⟨fun id m hm => ?_, addNode_appended d n, phase_addNode d n, hasWire_addNode d n⟩
  rw [op?_addNode h.free_empty, if_neg, hm]
  rintro rfl
  rw [op?_addNode_fresh h.free_empty] at hm
  cases hm

/-- A new item in its place keeps a list in order. -/
theorem pairwise_insert {α : Type} {r : α → α → Prop} {xs ys : List α} {z : α}
    (h : (xs ++ ys).Pairwise r) (hxs : ∀ x ∈ xs, r x z) (hys : ∀ y ∈ ys, r z y) :
    (xs ++ z :: ys).Pairwise r := by
  rw [List.pairwise_append] at h
  refine List.pairwise_append.mpr ⟨h.1, List.pairwise_cons.mpr ⟨hys, h.2.1⟩, fun x hx y hy => ?_⟩
  rcases List.mem_cons.mp hy with rfl | hy
  · exact hxs x hx
  · exact h.2.2 x hx y hy

/-- A node at a place of the list where its position belongs. -/
theorem listed_addNode (h : Listed d (a ++ b))
    (ha : ∀ x ∈ a, Precedes (d.position x) n.position)
    (hb : ∀ x ∈ b, Precedes n.position (d.position x))
    (hc : ∃ k rest, n.position = k :: rest ∧ k < d.appended)
    (hw : n.instruction.wires.Nodup ∧ ∀ w ∈ n.instruction.wires, d.HasWire w) :
    Listed (d.addNode n).2 (a ++ (d.addNode n).1 :: b) := by
  have hfresh := op?_addNode_fresh h.free_empty n
  have hop := op?_addNode h.free_empty n
  have hex := extends_addNode h n
  generalize (d.addNode n).1 = new at hfresh hop ⊢
  have hnot : new ∉ a ++ b := by
    intro hm
    have hs := (h.mem_iff new).mp hm
    rw [hfresh] at hs
    cases hs
  have hpos : ∀ x ∈ a ++ b, (d.addNode n).2.position x = d.position x := fun x hx =>
    position_congr (hex.op?_eq ((h.mem_iff x).mp hx))
  have hnew : (d.addNode n).2.op? new = some n := by rw [hop, if_pos rfl]
  have hfree := free_addNode h.free_nodup h.free_empty n
  constructor
  · exact List.nodup_middle.mpr (List.nodup_cons.mpr ⟨hnot, h.nodup⟩)
  · intro x
    rw [hop]
    by_cases hx : x = new
    · simp [hx]
    · rw [if_neg hx, ← h.mem_iff]
      simp [hx]
  · refine pairwise_insert (h.ordered.imp_of_mem fun hx hy hxy => ?_) (fun x hx => ?_) fun y hy => ?_
    · rwa [hpos _ hx, hpos _ hy]
    · rw [hpos x (List.mem_append_left b hx), position_of_op? hnew]
      exact ha x hx
    · rw [hpos y (List.mem_append_right a hy), position_of_op? hnew]
      exact hb y hy
  · intro x hx
    rw [hex.appended]
    by_cases hxn : x = new
    · rw [hxn, position_of_op? hnew]
      exact hc
    · have hx' : x ∈ a ++ b := by simpa [hxn] using hx
      rw [hpos x hx']
      exact h.counted x hx'
  · intro x j hj
    by_cases hxn : x = new
    · rw [hxn, instruction?_of_op? hnew] at hj
      obtain rfl := Option.some.inj hj
      exact ⟨hw.1, fun w hm => (hex.hasWire w).mpr (hw.2 w hm)⟩
    · have ho : (d.addNode n).2.op? x = d.op? x := by rw [hop, if_neg hxn]
      rw [instruction?_congr ho] at hj
      obtain ⟨hn, hws⟩ := h.operands x j hj
      exact ⟨hn, fun w hm => (hex.hasWire w).mpr (hws w hm)⟩
  · exact hfree.1
  · exact hfree.2

/-- A new operation at the end of a list is on the way along its wires. -/
theorem near_concat {e : Dag R} {new : Nat} {i : Instruction R}
    (hold : ∀ x ∈ a, e.op? x = d.op? x) (hnew : e.instruction? new = some i) (w : Wire) :
    e.near w (a ++ [new]) =
      if w ∈ i.wires then d.near w a ++ [.op new] else d.near w a := by
  rw [near_append, near_congr hold w]
  by_cases hw : w ∈ i.wires
  · have ht : e.touches w new = true := touches_eq_true.mpr ⟨i, hnew, hw⟩
    simp [ht, hw]
  · have ht : e.touches w new = false := by simp [touches, hnew, hw]
    simp [ht, hw]

/-- Edges from where gaps began to a new operation move these gaps behind it. -/
theorem torn_move {gaps : List Gap} (ht : Torn d a b gaps) {e : Dag R} {new : Nat}
    {i : Instruction R} (hold : ∀ x ∈ a ++ b, e.op? x = d.op? x)
    (hnew : e.instruction? new = some i) (hwire : ∀ w, e.HasWire w ↔ d.HasWire w)
    (hw : ∀ w ∈ i.wires, w ∈ gaps.map Gap.wire)
    (hin : ∀ g ∈ gaps, g.wire ∈ i.wires →
      e.along g.wire = ⟨g.before, .op new⟩ :: d.along g.wire)
    (hout : ∀ w, w ∉ i.wires → e.along w = d.along w) :
    Torn e (a ++ [new]) b (gaps.map (Gap.move new i.wires)) := by
  have hnear := near_concat (fun x hx => hold x (List.mem_append_left b hx)) hnew
  have hfar (w : Wire) : e.far w b = d.far w b :=
    far_congr (fun x hx => hold x (List.mem_append_right a hx)) w
  constructor
  · rw [map_wire_move]
    exact ht.distinct
  · intro g hg
    obtain ⟨k, hk, rfl⟩ := List.mem_map.mp hg
    rw [wire_move, hwire]
    exact ht.hasWire k hk
  · intro g hg
    obtain ⟨k, hk, rfl⟩ := List.mem_map.mp hg
    rw [wire_move, hfar, hnear]
    by_cases hkw : k.wire ∈ i.wires
    · rw [hin k hk hkw, if_pos hkw, linksOf_concat (ht.near_end k hk)]
      have hp := (ht.parted k hk).cons (⟨k.before, .op new⟩ : Link)
      refine hp.trans ?_
      rw [List.append_assoc]
      exact List.perm_middle.symm
    · rw [hout _ hkw, if_neg hkw]
      exact ht.parted k hk
  · intro g hg
    obtain ⟨k, hk, rfl⟩ := List.mem_map.mp hg
    rw [wire_move, hnear]
    by_cases hkw : k.wire ∈ i.wires
    · rw [if_pos hkw, Gap.move, if_pos hkw]
      simp
    · rw [if_neg hkw, move_of_notMem hkw]
      exact ht.near_end k hk
  · intro g hg
    obtain ⟨k, hk, rfl⟩ := List.mem_map.mp hg
    rw [wire_move, after_move, hfar]
    exact ht.far_end k hk
  · intro w hw' hnot
    rw [map_wire_move] at hnot
    have hkw : w ∉ i.wires := fun hm => hnot (hw w hm)
    rw [hout w hkw, hnear, if_neg hkw, hfar]
    exact ht.whole w ((hwire w).mp hw') hnot

/-- A new operation on some of the open wires moves their gaps behind itself. -/
theorem torn_tie (h : Listed d (a ++ b)) {gaps : List Gap} (ht : Torn d a b gaps)
    (n : OpNode R) (hn : n.instruction.wires.Nodup)
    (hw : ∀ w ∈ n.instruction.wires, w ∈ gaps.map Gap.wire) :
    SameOps (d.addNode n).2
        (n.instruction.wires.foldl (tie (d.addNode n).1) ((d.addNode n).2, gaps)).1 ∧
      (n.instruction.wires.foldl (tie (d.addNode n).1) ((d.addNode n).2, gaps)).2 =
        gaps.map (Gap.move (d.addNode n).1 n.instruction.wires) ∧
      Torn (n.instruction.wires.foldl (tie (d.addNode n).1) ((d.addNode n).2, gaps)).1
        (a ++ [(d.addNode n).1]) b
        (gaps.map (Gap.move (d.addNode n).1 n.instruction.wires)) := by
  have hop := op?_addNode h.free_empty n
  have hex := extends_addNode h n
  have hal (w : Wire) : (d.addNode n).2.along w = d.along w := along_addNode d n w
  obtain ⟨hs, hm, hin, hout⟩ := foldl_tie (d.addNode n).1 n.instruction.wires (d.addNode n).2 gaps
    hn ht.distinct hw fun g hg => (hex.hasWire g.wire).mpr (ht.hasWire g hg)
  refine ⟨hs, hm, torn_move ht ?_ ?_ ?_ hw ?_ ?_⟩
  · intro x hx
    rw [hs.op?, hex.op?_eq ((h.mem_iff x).mp hx)]
  · exact instruction?_of_op? (by rw [hs.op?, hop, if_pos rfl])
  · intro w
    rw [hs.hasWire, hex.hasWire]
  · intro g hg hgw
    rw [hin g hg hgw, hal]
  · intro w hnot
    rw [hout w hnot, hal]

end Put

/-- Filling the gaps puts the operations into the list, at the place of the gaps and in order. -/
theorem fill_spec {b : List Nat} (p : List Nat) (is : List (Instruction R)) (k : Nat)
    (a : List Nat) (d : Dag R) (gaps : List Gap) (h : Listed d (a ++ b)) (ht : Torn d a b gaps)
    (ha : ∀ x ∈ a, ∀ j, k ≤ j → Precedes (d.position x) (p ++ [j]))
    (hb : ∀ x ∈ b, ∀ j, Precedes (p ++ [j]) (d.position x))
    (hc : ∃ c rest, p = c :: rest ∧ c < d.appended)
    (hw : ∀ i ∈ is, i.wires.Nodup ∧ ∀ w ∈ i.wires, w ∈ gaps.map Gap.wire) :
    ∃ new e gaps', fill p k is (d, gaps) = (new, e, gaps') ∧ Listed e (a ++ new ++ b) ∧
      Torn e (a ++ new) b gaps' ∧ Extends d e ∧ new.map e.instruction? = is.map some := by
  induction is generalizing k a d gaps with
  | nil => exact ⟨[], d, gaps, rfl, by simpa using h, by simpa using ht, .refl d, rfl⟩
  | cons i is ih =>
    have hi := hw i (by simp)
    obtain ⟨c, rest, rfl, hlt⟩ := hc
    have hwires : ∀ w ∈ i.wires, d.HasWire w := by
      intro w hm
      obtain ⟨g, hg, rfl⟩ := List.mem_map.mp (hi.2 w hm)
      exact ht.hasWire g hg
    have hl := listed_addNode (n := ⟨i, c :: rest ++ [k]⟩) h (fun x hx => ha x hx k le_rfl)
      (fun x hx => hb x hx k) ⟨c, rest ++ [k], rfl, hlt⟩ ⟨hi.1, hwires⟩
    obtain ⟨hs, hm, htorn⟩ := torn_tie h ht ⟨i, c :: rest ++ [k]⟩ hi.1 hi.2
    have hop := op?_addNode h.free_empty ⟨i, c :: rest ++ [k]⟩
    have hex := extends_addNode h ⟨i, c :: rest ++ [k]⟩
    have hf : fill (c :: rest) k (i :: is) (d, gaps) =
        ((d.addNode ⟨i, c :: rest ++ [k]⟩).1 ::
          (fill (c :: rest) (k + 1) is (i.wires.foldl (tie (d.addNode ⟨i, c :: rest ++ [k]⟩).1)
            ((d.addNode ⟨i, c :: rest ++ [k]⟩).2, gaps))).1,
        (fill (c :: rest) (k + 1) is (i.wires.foldl (tie (d.addNode ⟨i, c :: rest ++ [k]⟩).1)
            ((d.addNode ⟨i, c :: rest ++ [k]⟩).2, gaps))).2) := rfl
    rw [hf]
    generalize (d.addNode ⟨i, c :: rest ++ [k]⟩).1 = id at hl hs hm htorn hop ⊢
    generalize (d.addNode ⟨i, c :: rest ++ [k]⟩).2 = e at hl hs hm htorn hop hex ⊢
    generalize i.wires.foldl (tie id) (e, gaps) = r at hs hm htorn ⊢
    obtain ⟨f, gs⟩ := r
    obtain rfl : gs = _ := hm
    have hdf : Extends d f := hex.trans hs.extends
    have hid : f.op? id = some ⟨i, c :: rest ++ [k]⟩ := by rw [hs.op?, hop, if_pos rfl]
    have hold : ∀ x ∈ a ++ b, f.position x = d.position x := fun x hx =>
      position_congr (hdf.op?_eq ((h.mem_iff x).mp hx))
    obtain ⟨new, e', gaps', hfill, hl', ht', hex', hnew⟩ := ih (k + 1) (a ++ [id]) f _
      (by simpa using hs.listed hl) htorn
      (by
        intro x hx j hj
        rcases List.mem_append.mp hx with hx | hx
        · rw [hold x (by simp [hx])]
          exact ha x hx j (by omega)
        · rw [List.mem_singleton.mp hx, position_of_op? hid]
          exact .children _ (by omega))
      (by
        intro x hx j
        rw [hold x (by simp [hx])]
        exact hb x hx j)
      ⟨c, rest, rfl, by rw [hdf.appended]; exact hlt⟩
      (fun j hj => by
        rw [map_wire_move]
        exact hw j (by simp [hj]))
    refine ⟨id :: new, e', gaps', by rw [hfill], by simpa using hl', by simpa using ht',
      hdf.trans hex', ?_⟩
    rw [List.map_cons, List.map_cons, hnew, instruction?_of_op? (hex'.op? id _ hid)]

/-- Closing the gaps makes the graph represent the whole list. -/
theorem represents_close {d : Dag R} {a b : List Nat} {gaps : List Gap}
    (h : Listed d (a ++ b)) (ht : Torn d a b gaps) :
    Represents (d.close gaps) (a ++ b) ∧ SameOps d (d.close gaps) := by
  obtain ⟨hs, hin, hout⟩ := close_spec d gaps ht.distinct ht.hasWire
  refine ⟨⟨hs.listed h, ?_⟩, hs⟩
  intro w hw
  have hnear : (d.close gaps).near w a = d.near w a := near_congr (fun x _ => hs.op? x) w
  have hfar : (d.close gaps).far w b = d.far w b := far_congr (fun x _ => hs.op? x) w
  rw [near_append_far, List.append_nil, hnear, hfar]
  by_cases hg : w ∈ gaps.map Gap.wire
  · obtain ⟨g, hgm, rfl⟩ := List.mem_map.mp hg
    rw [hin g hgm, linksOf_append (ht.near_end g hgm) (ht.far_end g hgm)]
    exact ((ht.parted g hgm).cons _).trans List.perm_middle.symm
  · rw [hout w hg]
    exact ht.whole w ((hs.hasWire w).mp hw) hg

/-! ## Tying in at the end -/

/-- Tying a node in at the ends of some wires. -/
theorem forM_extend (id : Nat) (prior : Wire → Node) (ws : List Wire) (d : Dag R) (hn : ws.Nodup)
    (hw : ∀ w ∈ ws, d.HasWire w)
    (hp : ∀ w ∈ ws, d.incoming? (.output w) w = some ⟨prior w, .output w⟩) :
    ∃ e, d.edit (ws.forM (Edit.extend id)) = (.ok (), e) ∧ SameOps d e ∧
      (∀ w ∈ ws, e.along w = ⟨.op id, .output w⟩ :: ⟨prior w, .op id⟩ ::
        (d.along w).erase ⟨prior w, .output w⟩) ∧
      ∀ w, w ∉ ws → e.along w = d.along w := by
  induction ws generalizing d with
  | nil => exact ⟨d, rfl, .refl d, by simp, by simp⟩
  | cons w ws ih =>
    obtain ⟨hnot, hn⟩ := List.nodup_cons.mp hn
    have hhas : d.HasWire w := hw w (by simp)
    obtain ⟨ls, hls⟩ := Option.isSome_iff_exists.mp hhas
    have hone : d.edit (Edit.extend id w) = (.ok (), ((d.unlink w ⟨prior w, .output w⟩).link w
        ⟨prior w, .op id⟩).link w ⟨.op id, .output w⟩) := by
      simp [Edit.extend, edit_bind, hls, hp w (by simp)]
    generalize hf : ((d.unlink w ⟨prior w, .output w⟩).link w ⟨prior w, .op id⟩).link w
      ⟨.op id, .output w⟩ = f at hone
    have hsf : SameOps d f := hf ▸
      (((SameOps.unlink d w _).trans (.link _ w _)).trans (.link _ w _))
    have hself : f.along w = ⟨.op id, .output w⟩ :: ⟨prior w, .op id⟩ ::
        (d.along w).erase ⟨prior w, .output w⟩ := by
      rw [← hf, along_link (by simpa using hhas), along_link (by simpa using hhas), along_unlink]
    have hother {v : Wire} (hv : v ≠ w) : f.along v = d.along v := by
      rw [← hf, along_link_of_ne _ hv.symm, along_link_of_ne _ hv.symm,
        along_unlink_of_ne _ hv.symm]
    obtain ⟨e, he, hs, hin, hout⟩ := ih f hn
      (fun v hv => (hsf.hasWire v).mpr (hw v (by simp [hv])))
      (fun v hv => by
        have hne : v ≠ w := fun h => hnot (h ▸ hv)
        rw [incoming?, hother hne]
        exact hp v (by simp [hv]))
    refine ⟨e, ?_, hsf.trans hs, ?_, ?_⟩
    · change d.edit (Edit.extend id w >>= fun _ => ws.forM (Edit.extend id)) = _
      rw [edit_bind, hone]
      exact he
    · intro v hv
      rcases List.mem_cons.mp hv with rfl | hv
      · rw [hout _ hnot, hself]
      · have hne : v ≠ w := fun h => hnot (h ▸ hv)
        rw [hin v hv, hother hne]
    · intro v hv
      rw [List.mem_cons, not_or] at hv
      rw [hout v hv.2, hother hv.1]

/-- The last edge of a wire is the one into its output. -/
theorem incoming?_output {d : Dag R} {ids : List Nat} (h : Represents d ids) {w : Wire}
    (hw : d.HasWire w) :
    d.incoming? (.output w) w = some ⟨(d.gapBetween ids [] w).before, .output w⟩ := by
  have hl : (⟨(d.gapBetween ids [] w).before, .output w⟩ : Link) ∈
      linksOf (d.near w ids ++ d.far w []) := by
    rw [linksOf_append (getLast?_near d ids [] w) (b := .output w) (by simp [far])]
    simp
  exact find?_point (h.threaded w hw) (nodup_path d w (by simpa using h.nodup)) .target hl

/-- The wires after a node was tied in at the ends of its own. -/
theorem represents_extend {d e : Dag R} {ids : List Nat} {id : Nat} {n : OpNode R}
    (h : Represents d ids) (hl : Listed e (ids ++ [id]))
    (hnew : e.op? id = some n) (hold : ∀ x ∈ ids, e.op? x = d.op? x)
    (hw : ∀ w, e.HasWire w → d.HasWire w)
    (hin : ∀ w ∈ n.instruction.wires, e.along w = ⟨.op id, .output w⟩ ::
      ⟨(d.gapBetween ids [] w).before, .op id⟩ ::
        (d.along w).erase ⟨(d.gapBetween ids [] w).before, .output w⟩)
    (hout : ∀ w, w ∉ n.instruction.wires → e.along w = d.along w) :
    Represents e (ids ++ [id]) := by
  refine ⟨hl, ?_⟩
  intro w hwe
  have hp := h.threaded w (hw w hwe)
  have hlast := getLast?_near d ids [] w
  have hend (f : Dag R) : f.far w [] = [.output w] := by simp [far]
  rw [hend, linksOf_concat hlast] at hp
  rw [near_concat hold (instruction?_of_op? hnew), hend]
  by_cases hm : w ∈ n.instruction.wires
  · have hends : linksOf (d.near w ids ++ [.op id, .output w]) =
        linksOf (d.near w ids) ++ [⟨(d.gapBetween ids [] w).before, .op id⟩,
          ⟨.op id, .output w⟩] := by
      rw [linksOf_append hlast (b := .op id) (by simp)]
      rfl
    have herase := hp.erase ⟨(d.gapBetween ids [] w).before, .output w⟩
    have hnot : (⟨(d.gapBetween ids [] w).before, .output w⟩ : Link) ∉
        linksOf (d.near w ids) := by
      intro hmem
      have hlast : Node.output w ∈ d.near w ids := Side.target.point_mem hmem
      simp [near] at hlast
    rw [List.erase_append_right _ hnot, List.erase_cons_head, List.append_nil] at herase
    rw [if_pos hm, List.append_assoc, List.singleton_append, hends, hin w hm]
    refine ((herase.cons _).cons _).trans ?_
    refine (List.Perm.swap _ _ _).trans ?_
    have hcomm (l m : Link) (ls : List Link) : ([l, m] ++ ls).Perm (ls ++ [l, m]) :=
      List.perm_append_comm
    exact hcomm _ _ _
  · rw [if_neg hm, linksOf_concat hlast, hout w hm]
    exact hp

end QuantumCompiler.Dag
