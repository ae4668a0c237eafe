import QuantumCompiler.Proofs.Dag.Path
import QuantumCompiler.Proofs.Dag.Position

/-!
# Graphs as lists of operations

A dependency graph represents the list of its operations in the order of their positions: the edges
along a wire are those of the path through the operations of the list that touch the wire.
`Represents` is this invariant.
-/
namespace QuantumCompiler.Dag

variable {R : Type}

/-- The wire belongs to the register. -/
def HasWire (d : Dag R) (w : Wire) : Prop := (d.links.get? w).isSome

/-- The operation of a node is on a wire. -/
def touches (d : Dag R) (w : Wire) (id : Nat) : Bool :=
  (d.instruction? id).any fun i => i.wires.contains w

/-- A wire from its input through the operations of a list. -/
def near (d : Dag R) (w : Wire) (ids : List Nat) : List Node :=
  .input w :: (ids.filter (d.touches w)).map .op

/-- A wire through the operations of a list to its output. -/
def far (d : Dag R) (w : Wire) (ids : List Nat) : List Node :=
  (ids.filter (d.touches w)).map .op ++ [.output w]

/-- The operations are those of the list, in the order of their positions, and the free slots hold
none of them. -/
structure Listed (d : Dag R) (ids : List Nat) : Prop where
  nodup : ids.Nodup
  mem_iff : ∀ id, id ∈ ids ↔ (d.op? id).isSome
  ordered : ids.Pairwise fun a b => Precedes (d.position a) (d.position b)
  counted : ∀ id ∈ ids, ∃ k rest, d.position id = k :: rest ∧ k < d.appended
  operands : ∀ id i, d.instruction? id = some i → i.wires.Nodup ∧ ∀ w ∈ i.wires, d.HasWire w
  free_nodup : d.free.Nodup
  free_empty : ∀ id ∈ d.free, id < d.slots.size ∧ d.op? id = none

/-- The graph holds the operations of the list, and every wire runs through those that touch it. -/
structure Represents (d : Dag R) (ids : List Nat) : Prop extends Listed d ids where
  threaded : ∀ w, d.HasWire w → (d.along w).Perm (linksOf (d.near w ids ++ d.far w []))

/-- The wires of the gaps are open between two parts of a list; the others run through both. -/
structure Torn (d : Dag R) (before after : List Nat) (gaps : List Gap) : Prop where
  distinct : (gaps.map Gap.wire).Nodup
  hasWire : ∀ g ∈ gaps, d.HasWire g.wire
  parted : ∀ g ∈ gaps,
    (d.along g.wire).Perm (linksOf (d.near g.wire before) ++ linksOf (d.far g.wire after))
  near_end : ∀ g ∈ gaps, (d.near g.wire before).getLast? = some g.before
  far_end : ∀ g ∈ gaps, (d.far g.wire after).head? = some g.after
  whole : ∀ w, d.HasWire w → w ∉ gaps.map Gap.wire →
    (d.along w).Perm (linksOf (d.near w before ++ d.far w after))

/-! ## Wires as paths -/

theorem near_append (d : Dag R) (w : Wire) (a b : List Nat) :
    d.near w (a ++ b) = d.near w a ++ (b.filter (d.touches w)).map .op := by
  simp [near]

theorem far_append (d : Dag R) (w : Wire) (a b : List Nat) :
    d.far w (a ++ b) = (a.filter (d.touches w)).map .op ++ d.far w b := by
  simp [far]

/-- Where a wire is divided makes no difference to the whole. -/
theorem near_append_far (d : Dag R) (w : Wire) (a b c : List Nat) :
    d.near w (a ++ b) ++ d.far w c = d.near w a ++ d.far w (b ++ c) := by
  rw [near_append, far_append, List.append_assoc]

theorem exists_getLast?_near (d : Dag R) (w : Wire) (ids : List Nat) :
    ∃ n, (d.near w ids).getLast? = some n := by
  cases h : (d.near w ids).getLast? with
  | none => simp [near] at h
  | some n => exact ⟨n, rfl⟩

theorem exists_head?_far (d : Dag R) (w : Wire) (ids : List Nat) :
    ∃ n, (d.far w ids).head? = some n := by
  cases h : (d.far w ids).head? with
  | none => simp [far] at h
  | some n => exact ⟨n, rfl⟩

theorem op_mem_near {d : Dag R} {w : Wire} {ids : List Nat} {id : Nat} :
    .op id ∈ d.near w ids ↔ id ∈ ids ∧ d.touches w id = true := by
  simp [near]

theorem op_mem_far {d : Dag R} {w : Wire} {ids : List Nat} {id : Nat} :
    .op id ∈ d.far w ids ↔ id ∈ ids ∧ d.touches w id = true := by
  simp [far]

theorem nodup_path (d : Dag R) (w : Wire) {a b : List Nat} (h : (a ++ b).Nodup) :
    (d.near w a ++ d.far w b).Nodup := by
  have hops : (((a ++ b).filter (d.touches w)).map Node.op).Nodup :=
    (h.filter _).map fun x y he => Node.op.inj he
  have he : d.near w a ++ d.far w b =
      .input w :: (((a ++ b).filter (d.touches w)).map .op ++ [.output w]) := by
    simp [near, far]
  rw [he, List.nodup_cons, List.nodup_append]
  refine ⟨by simp, hops, by simp, ?_⟩
  intro x hx y hy
  obtain ⟨id, -, rfl⟩ := List.mem_map.mp hx
  rw [List.mem_singleton.mp hy]
  exact fun he => nomatch he

/-! ## What a look at an operation depends on -/

theorem instruction?_congr {d e : Dag R} {id : Nat} (h : e.op? id = d.op? id) :
    e.instruction? id = d.instruction? id := by
  rw [instruction?, instruction?, h]

theorem position_congr {d e : Dag R} {id : Nat} (h : e.op? id = d.op? id) :
    e.position id = d.position id := by
  rw [position, position, h]

theorem filter_touches_congr {d e : Dag R} {ids : List Nat}
    (h : ∀ id ∈ ids, e.op? id = d.op? id) (w : Wire) :
    ids.filter (e.touches w) = ids.filter (d.touches w) := by
  apply List.filter_congr
  intro id hid
  rw [touches, touches, instruction?_congr (h id hid)]

theorem near_congr {d e : Dag R} {ids : List Nat} (h : ∀ id ∈ ids, e.op? id = d.op? id)
    (w : Wire) : e.near w ids = d.near w ids := by
  rw [near, near, filter_touches_congr h]

theorem far_congr {d e : Dag R} {ids : List Nat} (h : ∀ id ∈ ids, e.op? id = d.op? id)
    (w : Wire) : e.far w ids = d.far w ids := by
  rw [far, far, filter_touches_congr h]

theorem touches_eq_true {d : Dag R} {w : Wire} {id : Nat} :
    d.touches w id = true ↔ ∃ i, d.instruction? id = some i ∧ w ∈ i.wires := by
  cases h : d.instruction? id with
  | none => simp [touches, h]
  | some i => simp [touches, h]

theorem op?_of_instruction? {d : Dag R} {id : Nat} {i : Instruction R}
    (h : d.instruction? id = some i) : ∃ n, d.op? id = some n ∧ n.instruction = i :=
  Option.map_eq_some_iff.mp h

theorem instruction?_of_op? {d : Dag R} {id : Nat} {n : OpNode R} (h : d.op? id = some n) :
    d.instruction? id = some n.instruction := by
  rw [instruction?, h]
  rfl

theorem position_of_op? {d : Dag R} {id : Nat} {n : OpNode R} (h : d.op? id = some n) :
    d.position id = n.position := by
  rw [position, h]
  rfl

/-! ## Slots -/

theorem lt_size_of_op? {d : Dag R} {id : Nat} (h : (d.op? id).isSome) : id < d.slots.size := by
  by_contra hge
  simp [op?, Array.getElem?_eq_none (Nat.le_of_not_lt hge)] at h

theorem op?_removeNode (d : Dag R) (id x : Nat) :
    (d.removeNode id).op? x = if x = id then none else d.op? x := by
  simp only [op?, removeNode, Array.getElem?_setIfInBounds]
  by_cases hx : x = id
  · subst hx
    by_cases hs : x < d.slots.size <;> simp [hs]
  · simp [hx, Ne.symm hx]

/-- The other operations of a list stay. -/
theorem op?_removeNode_of_mem {d : Dag R} {a b : List Nat} {id : Nat} (h : (a ++ id :: b).Nodup) :
    ∀ x ∈ a ++ b, (d.removeNode id).op? x = d.op? x := by
  intro x hx
  rw [op?_removeNode, if_neg]
  rintro rfl
  exact (List.nodup_cons.mp (List.nodup_middle.mp h)).1 hx

theorem addNode_links (d : Dag R) (n : OpNode R) : (d.addNode n).2.links = d.links := by
  unfold addNode
  split <;> rfl

theorem addNode_appended (d : Dag R) (n : OpNode R) :
    (d.addNode n).2.appended = d.appended := by
  unfold addNode
  split <;> rfl

theorem phase_addNode (d : Dag R) (n : OpNode R) : (d.addNode n).2.phase = d.phase := by
  unfold addNode
  split <;> rfl

/-- A node for a new operation had none before. -/
theorem op?_addNode_fresh {d : Dag R}
    (h : ∀ id ∈ d.free, id < d.slots.size ∧ d.op? id = none) (n : OpNode R) :
    d.op? (d.addNode n).1 = none := by
  unfold addNode
  split
  · rename_i id rest hf
    exact (h id (by simp [hf])).2
  · simp [op?]

theorem op?_addNode {d : Dag R} (h : ∀ id ∈ d.free, id < d.slots.size ∧ d.op? id = none)
    (n : OpNode R) (x : Nat) :
    (d.addNode n).2.op? x = if x = (d.addNode n).1 then some n else d.op? x := by
  unfold addNode
  split
  · rename_i id rest hf
    have hid := (h id (by simp [hf])).1
    simp only [op?, Array.getElem?_setIfInBounds, hid, if_true]
    by_cases hx : x = id
    · simp [hx]
    · simp [hx, Ne.symm hx]
  · simp only [op?, Array.getElem?_push]
    by_cases hx : x = d.slots.size <;> simp [hx]

theorem free_addNode {d : Dag R} (hn : d.free.Nodup)
    (h : ∀ id ∈ d.free, id < d.slots.size ∧ d.op? id = none) (n : OpNode R) :
    (d.addNode n).2.free.Nodup ∧ ∀ id ∈ (d.addNode n).2.free,
      id < (d.addNode n).2.slots.size ∧ (d.addNode n).2.op? id = none := by
  have hop := op?_addNode h n
  unfold addNode at hop ⊢
  split at hop
  · rename_i first rest hf
    rw [hf] at hn
    have hc := List.nodup_cons.mp hn
    refine ⟨hc.2, ?_⟩
    intro id hid
    have hne : id ≠ first := fun he => hc.1 (he ▸ hid)
    have ho := h id (by rw [hf]; exact List.mem_cons_of_mem _ hid)
    refine ⟨by simpa using ho.1, ?_⟩
    rw [hop id, if_neg hne]
    exact ho.2
  · rename_i hf
    refine ⟨hn, ?_⟩
    intro id hid
    simp [hf] at hid

/-! ## Edges along a wire -/

theorem along_link {d : Dag R} {w : Wire} (hw : d.HasWire w) (l : Link) :
    (d.link w l).along w = l :: d.along w := by
  obtain ⟨ls, hl⟩ := Option.isSome_iff_exists.mp hw
  simp [along, link, hl]

theorem along_link_of_ne (d : Dag R) {v w : Wire} (h : v ≠ w) (l : Link) :
    (d.link v l).along w = d.along w := by
  simp [along, link, h]

theorem along_unlink (d : Dag R) (w : Wire) (l : Link) :
    (d.unlink w l).along w = (d.along w).erase l := by
  cases hw : d.links.get? w <;> simp [along, unlink, hw]

theorem along_unlink_of_ne (d : Dag R) {v w : Wire} (h : v ≠ w) (l : Link) :
    (d.unlink v l).along w = d.along w := by
  simp [along, unlink, h]

theorem along_removeNode (d : Dag R) (id : Nat) (w : Wire) :
    (d.removeNode id).along w = (d.along w).filter fun l => !l.touches (.op id) := by
  simp only [along, removeNode, PerWire.get?_mapWire]
  cases d.links.get? w <;> simp

@[simp] theorem hasWire_link (d : Dag R) (v w : Wire) (l : Link) :
    (d.link v l).HasWire w ↔ d.HasWire w := by
  simp only [HasWire, link, PerWire.get?_modify]
  by_cases h : v = w <;> simp [h]

@[simp] theorem hasWire_unlink (d : Dag R) (v w : Wire) (l : Link) :
    (d.unlink v l).HasWire w ↔ d.HasWire w := by
  simp only [HasWire, unlink, PerWire.get?_modify]
  by_cases h : v = w <;> simp [h]

@[simp] theorem hasWire_removeNode (d : Dag R) (id : Nat) (w : Wire) :
    (d.removeNode id).HasWire w ↔ d.HasWire w := by
  simp [HasWire, removeNode]

@[simp] theorem hasWire_addNode (d : Dag R) (n : OpNode R) (w : Wire) :
    (d.addNode n).2.HasWire w ↔ d.HasWire w := by
  rw [HasWire, HasWire, addNode_links]

theorem along_addNode (d : Dag R) (n : OpNode R) (w : Wire) :
    (d.addNode n).2.along w = d.along w := by
  rw [along, along, addNode_links]

/-- A graph that differs in its edges only. -/
structure SameOps (d e : Dag R) : Prop where
  slots : e.slots = d.slots
  free : e.free = d.free
  appended : e.appended = d.appended
  phase : e.phase = d.phase
  hasWire : ∀ w, e.HasWire w ↔ d.HasWire w

namespace SameOps

variable {d e f : Dag R}

theorem refl (d : Dag R) : SameOps d d := ⟨rfl, rfl, rfl, rfl, fun _ => Iff.rfl⟩

theorem trans (h : SameOps d e) (g : SameOps e f) : SameOps d f :=
  ⟨g.slots.trans h.slots, g.free.trans h.free, g.appended.trans h.appended,
    g.phase.trans h.phase, fun w => (g.hasWire w).trans (h.hasWire w)⟩

theorem link (d : Dag R) (w : Wire) (l : Link) : SameOps d (d.link w l) :=
  ⟨rfl, rfl, rfl, rfl, fun v => hasWire_link d w v l⟩

theorem unlink (d : Dag R) (w : Wire) (l : Link) : SameOps d (d.unlink w l) :=
  ⟨rfl, rfl, rfl, rfl, fun v => hasWire_unlink d w v l⟩

theorem op? (h : SameOps d e) (id : Nat) : e.op? id = d.op? id := by
  rw [Dag.op?, Dag.op?, h.slots]

/-- Edges do not matter to the list of operations. -/
theorem listed (h : SameOps d e) {ids : List Nat} (hl : Listed d ids) : Listed e ids := by
  constructor
  · exact hl.nodup
  · intro id
    rw [h.op?]
    exact hl.mem_iff id
  · refine hl.ordered.imp ?_
    intro a b hab
    rwa [position_congr (h.op? a), position_congr (h.op? b)]
  · intro id hid
    rw [position_congr (h.op? id), h.appended]
    exact hl.counted id hid
  · intro id i hi
    rw [instruction?_congr (h.op? id)] at hi
    obtain ⟨hn, hw⟩ := hl.operands id i hi
    exact ⟨hn, fun w hm => (h.hasWire w).mpr (hw w hm)⟩
  · rw [h.free]
    exact hl.free_nodup
  · intro id hid
    rw [h.free] at hid
    rw [h.slots, h.op?]
    exact hl.free_empty id hid

end SameOps

/-! ## Tying and closing -/

/-- The gap on a wire is at the place of the wire. -/
theorem find?_gap {gaps : List Gap} (hd : (gaps.map Gap.wire).Nodup) {g : Gap} (hg : g ∈ gaps) :
    (gaps.find? fun h => h.wire == g.wire) = some g := by
  apply find?_eq_some_of_unique hg (by simp)
  intro h hh he
  exact List.inj_on_of_nodup_map hd hh hg (by simpa using he)

/-- A gap after a node was tied to it on some wires. -/
def Gap.move (id : Nat) (ws : List Wire) (g : Gap) : Gap :=
  if g.wire ∈ ws then { g with before := .op id } else g

@[simp] theorem wire_move (id : Nat) (ws : List Wire) (g : Gap) : (g.move id ws).wire = g.wire := by
  unfold Gap.move
  split <;> rfl

@[simp] theorem after_move (id : Nat) (ws : List Wire) (g : Gap) :
    (g.move id ws).after = g.after := by
  unfold Gap.move
  split <;> rfl

theorem move_nil (id : Nat) (g : Gap) : g.move id [] = g := by
  simp [Gap.move]

theorem move_of_notMem {id : Nat} {ws : List Wire} {g : Gap} (h : g.wire ∉ ws) :
    g.move id ws = g := by
  rw [Gap.move, if_neg h]

theorem move_cons (id : Nat) (w : Wire) (ws : List Wire) (g : Gap) :
    (g.move id [w]).move id ws = g.move id (w :: ws) := by
  by_cases hw : g.wire = w <;> by_cases hs : g.wire ∈ ws <;> simp [Gap.move, hw, hs]

theorem map_wire_move (id : Nat) (ws : List Wire) (gaps : List Gap) :
    (gaps.map (Gap.move id ws)).map Gap.wire = gaps.map Gap.wire := by
  simp

theorem advance_eq_map {gaps : List Gap} (hd : (gaps.map Gap.wire).Nodup) (id : Nat) (w : Wire) :
    Gap.advance id w gaps = gaps.map (Gap.move id [w]) := by
  induction gaps with
  | nil => rfl
  | cons g gs ih =>
    rw [List.map_cons, List.nodup_cons] at hd
    by_cases h : g.wire = w
    · have hs : gs.map (Gap.move id [w]) = gs.map fun k => k := by
        apply List.map_congr_left
        intro k hk
        have hne : k.wire ≠ w := fun he => hd.1 (h ▸ he ▸ List.mem_map_of_mem hk)
        exact move_of_notMem (by simpa using hne)
      rw [List.map_cons, hs, List.map_id']
      simp [Gap.advance, Gap.move, h]
    · rw [Gap.advance, if_neg h, ih hd.2, List.map_cons, move_of_notMem (by simpa using h)]

/-- Tying a node on some of the wires of gaps adds one edge on each of them and moves their gaps
on. -/
theorem foldl_tie (id : Nat) (ws : List Wire) (d : Dag R) (gaps : List Gap) (hn : ws.Nodup)
    (hd : (gaps.map Gap.wire).Nodup) (hws : ∀ w ∈ ws, w ∈ gaps.map Gap.wire)
    (hg : ∀ g ∈ gaps, d.HasWire g.wire) :
    SameOps d (ws.foldl (tie id) (d, gaps)).1 ∧
      (ws.foldl (tie id) (d, gaps)).2 = gaps.map (Gap.move id ws) ∧
      (∀ g ∈ gaps, g.wire ∈ ws →
        (ws.foldl (tie id) (d, gaps)).1.along g.wire = ⟨g.before, .op id⟩ :: d.along g.wire) ∧
      ∀ w, w ∉ ws → (ws.foldl (tie id) (d, gaps)).1.along w = d.along w := by
  induction ws generalizing d gaps with
  | nil => exact ⟨.refl d, (List.map_id'' (move_nil id) gaps).symm, by simp, by simp⟩
  | cons w ws ih =>
    obtain ⟨hw, hn'⟩ := List.nodup_cons.mp hn
    obtain ⟨k, hk, rfl⟩ := List.mem_map.mp (hws w (by simp))
    have ht : tie id (d, gaps) k.wire =
        (d.link k.wire ⟨k.before, .op id⟩, gaps.map (Gap.move id [k.wire])) := by
      rw [tie, find?_gap hd hk]
      simp only [advance_eq_map hd]
    rw [List.foldl_cons, ht]
    obtain ⟨hs, hm, hin, hout⟩ := ih (d.link k.wire ⟨k.before, .op id⟩)
      (gaps.map (Gap.move id [k.wire])) hn' (by rwa [map_wire_move])
      (fun v hv => by rw [map_wire_move]; exact hws v (by simp [hv]))
      (fun m hm => by
        obtain ⟨g, hg', rfl⟩ := List.mem_map.mp hm
        simpa using hg g hg')
    refine ⟨(SameOps.link d k.wire _).trans hs, ?_, ?_, ?_⟩
    · rw [hm, List.map_map]
      exact List.map_congr_left fun g _ => move_cons id k.wire ws g
    · intro g hg' hgw
      by_cases he : g.wire = k.wire
      · obtain rfl : g = k := List.inj_on_of_nodup_map hd hg' hk he
        rw [hout _ hw, along_link (hg g hg')]
      · have hgs : g.wire ∈ ws := (List.mem_cons.mp hgw).resolve_left he
        have hmv : g.move id [k.wire] = g := move_of_notMem (by simpa using he)
        have ha := hin g (by rw [← hmv]; exact List.mem_map_of_mem hg') hgs
        rw [ha, along_link_of_ne d (Ne.symm he)]
    · intro v hv
      rw [hout v (fun h => hv (by simp [h])), along_link_of_ne d]
      exact fun he => hv (by simp [he])

/-- Closing gaps adds one edge on each of their wires. -/
theorem close_spec (d : Dag R) (gaps : List Gap) (hd : (gaps.map Gap.wire).Nodup)
    (hg : ∀ g ∈ gaps, d.HasWire g.wire) :
    SameOps d (d.close gaps) ∧
      (∀ g ∈ gaps, (d.close gaps).along g.wire = ⟨g.before, g.after⟩ :: d.along g.wire) ∧
      ∀ w, w ∉ gaps.map Gap.wire → (d.close gaps).along w = d.along w := by
  induction gaps generalizing d with
  | nil => exact ⟨.refl d, by simp, by simp [close]⟩
  | cons g gs ih =>
    rw [List.map_cons, List.nodup_cons] at hd
    obtain ⟨hs, hin, hout⟩ := ih (d.link g.wire ⟨g.before, g.after⟩) hd.2
      (fun k hk => by simpa using hg k (by simp [hk]))
    have hc : d.close (g :: gs) = (d.link g.wire ⟨g.before, g.after⟩).close gs := rfl
    rw [hc]
    refine ⟨(SameOps.link d g.wire _).trans hs, ?_, ?_⟩
    · intro k hk
      rcases List.mem_cons.mp hk with rfl | hk
      · rw [hout _ hd.1, along_link (hg k (by simp))]
      · have hne : g.wire ≠ k.wire := fun he => hd.1 (he ▸ List.mem_map_of_mem hk)
        rw [hin k hk, along_link_of_ne d hne]
    · intro w hw
      rw [List.map_cons, List.mem_cons, not_or] at hw
      rw [hout w hw.2, along_link_of_ne d (Ne.symm hw.1)]

end QuantumCompiler.Dag
