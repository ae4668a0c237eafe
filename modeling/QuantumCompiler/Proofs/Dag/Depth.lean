import QuantumCompiler.Proofs.Dag.Reads

/-!
# Depth of a list of operations

Depth is a longest chain, found by walking the list with the layer that every wire has reached. As a
function of the wires this state is monotone under every operation. So leaving an operation out makes
nothing deeper, an operation on the same wires counts the same, and neighbours without a common wire may
change places.
-/
namespace QuantumCompiler.Dag

variable {R : Type}

/-- The last layer that some wires have reached. -/
def base (f : Wire → Nat) (ws : List Wire) : Nat := (ws.map f).foldl max 0

/-- The layer of an operation on wires that have reached the given layers. -/
def layer (f : Wire → Nat) (i : Instruction R) : Nat :=
  if i.isBarrier then base f i.wires else base f i.wires + 1

/-- The layers of the wires after an operation. -/
def raise (f : Wire → Nat) (i : Instruction R) : Wire → Nat :=
  fun w => if w ∈ i.wires then layer f i else f w

/-- The last layer of a list of operations on wires that have reached the given layers. -/
def depthFrom (f : Wire → Nat) : List (Instruction R) → Nat
  | [] => 0
  | i :: is => max (layer f i) (depthFrom (raise f i) is)

/-! ## The depth of a graph is that of its list -/

theorem get?_foldl_modify (depth : Nat) (ws : List Wire) (t : PerWire Nat) (w : Wire) :
    (ws.foldl (fun ds w => ds.modify w fun _ => depth) t).get? w =
      if w ∈ ws then (t.get? w).map fun _ => depth else t.get? w := by
  induction ws generalizing t with
  | nil => simp
  | cons v ws ih =>
    rw [List.foldl_cons, ih, PerWire.get?_modify]
    by_cases hv : v = w
    · by_cases hw : w ∈ ws <;> simp [hv, hw, Function.comp_def]
    · simp [hv, Ne.symm hv]

/-- The layers that a table holds; outside of the register a wire has reached none. -/
def reached (t : PerWire Nat) : Wire → Nat := fun w => (t.get? w).getD 0

theorem deepen_spec {t : PerWire Nat} {i : Instruction R}
    (hi : ∀ w ∈ i.wires, (t.get? w).isSome = true) :
    (deepen t i).2 = layer (reached t) i ∧ reached (deepen t i).1 = raise (reached t) i ∧
      ∀ w, ((deepen t i).1.get? w).isSome = (t.get? w).isSome := by
  have hlayer : (deepen t i).2 = layer (reached t) i := rfl
  have hget (w : Wire) : (deepen t i).1.get? w =
      if w ∈ i.wires then (t.get? w).map fun _ => (deepen t i).2 else t.get? w :=
    get?_foldl_modify _ _ _ _
  refine ⟨hlayer, ?_, fun w => ?_⟩
  · funext w
    rw [reached, hget, raise, ← hlayer]
    split
    · rename_i hw
      obtain ⟨k, hk⟩ := Option.isSome_iff_exists.mp (hi w hw)
      rw [hk]
      rfl
    · rfl
  · rw [hget]
    split <;> simp

theorem foldl_deepen (is : List (Instruction R)) (t : PerWire Nat) (m : Nat)
    (his : ∀ i ∈ is, ∀ w ∈ i.wires, (t.get? w).isSome = true) :
    (is.foldl (fun (acc : PerWire Nat × Nat) i =>
      let (depths, depth) := deepen acc.1 i
      (depths, max acc.2 depth)) (t, m)).2 = max m (depthFrom (reached t) is) := by
  induction is generalizing t m with
  | nil => simp [depthFrom]
  | cons i is ih =>
    obtain ⟨hlayer, hraise, hsome⟩ := deepen_spec (his i (by simp))
    rw [List.foldl_cons, ih _ _ fun j hj w hw => (hsome w).trans (his j (by simp [hj]) w hw),
      hraise, hlayer, depthFrom, max_assoc]

/-- The depth of a graph is the depth of its list. -/
theorem Reads.depth_eq [Scalar R] {d : Dag R} {es : Entries R} (h : d.Reads es) :
    d.depth = depthFrom (fun _ => 0) (es.map (·.2)) := by
  have horder : d.reachableOrder.filterMap d.instruction? = es.map (·.2) := by
    rw [h.holds.represents.reachableOrder_eq, List.filterMap_map, ← List.filterMap_eq_map]
    exact List.filterMap_congr fun x hx => h.holds.instruction? x hx
  have hstart : reached (.replicate d.numQubits d.numClbits 0) = fun _ => 0 := by
    funext w
    rw [reached, PerWire.get?_replicate]
    split <;> rfl
  rw [depth, horder, foldl_deepen, hstart, Nat.zero_max]
  intro i hi w hw
  obtain ⟨x, hx, rfl⟩ := List.mem_map.mp hi
  have hwire : w ∈ d.links.wires := PerWire.mem_wires.mpr (h.hasWire hx w hw)
  rw [PerWire.get?_replicate, if_pos]
  · rfl
  · simpa [PerWire.wires, PerWire.replicate, numQubits, numClbits] using hwire

/-! ## Layers grow with the layers before -/

section Layers

variable {f g : Wire → Nat} {i j : Instruction R} {is js : List (Instruction R)}

theorem foldl_max_le_iff {xs : List Nat} {m n : Nat} :
    xs.foldl max m ≤ n ↔ m ≤ n ∧ ∀ x ∈ xs, x ≤ n := by
  induction xs generalizing m with
  | nil => simp
  | cons x xs ih => rw [List.foldl_cons, ih, max_le_iff, List.forall_mem_cons, and_assoc]

theorem base_le_iff {ws : List Wire} {n : Nat} : base f ws ≤ n ↔ ∀ w ∈ ws, f w ≤ n := by
  rw [base, foldl_max_le_iff, List.forall_mem_map]
  exact and_iff_right (Nat.zero_le n)

theorem base_mono (hfg : ∀ w, f w ≤ g w) (ws : List Wire) : base f ws ≤ base g ws :=
  base_le_iff.mpr fun w hw => (hfg w).trans (base_le_iff.mp le_rfl w hw)

theorem layer_mono (hfg : ∀ w, f w ≤ g w) (i : Instruction R) : layer f i ≤ layer g i := by
  rw [layer, layer]
  split
  · exact base_mono hfg i.wires
  · exact Nat.succ_le_succ (base_mono hfg i.wires)

theorem raise_mono (hfg : ∀ w, f w ≤ g w) (i : Instruction R) (w : Wire) :
    raise f i w ≤ raise g i w := by
  rw [raise, raise]
  split
  · exact layer_mono hfg i
  · exact hfg w

/-- No operation sets a wire back. -/
theorem le_raise (f : Wire → Nat) (i : Instruction R) (w : Wire) : f w ≤ raise f i w := by
  rw [raise]
  split
  · rename_i hw
    have hbase := base_le_iff.mp (le_refl (base f i.wires)) w hw
    rw [layer]
    split
    · exact hbase
    · exact Nat.le_succ_of_le hbase
  · exact le_rfl

theorem depthFrom_mono (hfg : ∀ w, f w ≤ g w) (is : List (Instruction R)) :
    depthFrom f is ≤ depthFrom g is := by
  induction is generalizing f g with
  | nil => exact le_rfl
  | cons i is ih => exact max_le_max (layer_mono hfg i) (ih (raise_mono hfg i))

/-! ## Changes that count the same -/

theorem layer_raise (hd : ∀ w ∈ i.wires, w ∉ j.wires) (f : Wire → Nat) :
    layer (raise f i) j = layer f j := by
  have hsame : ∀ w ∈ j.wires, raise f i w = f w := fun w hw => if_neg fun hi => hd w hi hw
  have hbase : base (raise f i) j.wires = base f j.wires := by
    rw [base, base, List.map_congr_left hsame]
  rw [layer, layer, hbase]

/-- Neighbours without a common wire may change places. -/
theorem depthFrom_exchange (hd : ∀ w ∈ i.wires, w ∉ j.wires) (is : List (Instruction R))
    (f : Wire → Nat) : depthFrom f (i :: j :: is) = depthFrom f (j :: i :: is) := by
  have hd' : ∀ w ∈ j.wires, w ∉ i.wires := fun w hj hi => hd w hi hj
  have hraise : raise (raise f i) j = raise (raise f j) i := by
    funext w
    simp only [raise, layer_raise hd, layer_raise hd']
    by_cases hi : w ∈ i.wires
    · simp [hi, hd w hi]
    · simp [hi]
  rw [depthFrom, depthFrom, depthFrom, depthFrom, layer_raise hd, layer_raise hd', hraise,
    max_left_comm]

/-- Operations that depth does not tell apart: on the same wires, and barriers both or neither. -/
structure Alike (i j : Instruction R) : Prop where
  wires : i.wires = j.wires
  isBarrier : i.isBarrier = j.isBarrier

theorem layer_congr (h : Alike i j) (f : Wire → Nat) : layer f i = layer f j := by
  rw [layer, layer, h.wires, h.isBarrier]

theorem raise_congr (h : Alike i j) (f : Wire → Nat) : raise f i = raise f j := by
  funext w
  rw [raise, raise, h.wires, layer_congr h]

end Layers

/-! ## Lists that shrink -/

/-- The second list is no longer than the first one, and behind whatever operations it is no deeper. -/
structure Shrinks (is js : List (Instruction R)) : Prop where
  length : js.length ≤ is.length
  depth : ∀ f, depthFrom f js ≤ depthFrom f is

namespace Shrinks

variable {i j : Instruction R} {is js ks : List (Instruction R)}

theorem refl (is : List (Instruction R)) : Shrinks is is := ⟨le_rfl, fun _ => le_rfl⟩

theorem trans (h : Shrinks is js) (g : Shrinks js ks) : Shrinks is ks :=
  ⟨g.length.trans h.length, fun f => (g.depth f).trans (h.depth f)⟩

/-- The first operation is left out: without it no wire starts higher. -/
theorem drop (i : Instruction R) (h : Shrinks is js) : Shrinks (i :: is) js := by
  refine ⟨h.length.trans (Nat.le_succ _), fun f => ?_⟩
  calc depthFrom f js
    _ ≤ depthFrom f is := h.depth f
    _ ≤ depthFrom (raise f i) is := depthFrom_mono (le_raise f i) is
    _ ≤ depthFrom f (i :: is) := le_max_right _ _

/-- An operation in the place of one like it. -/
theorem replace (hij : Alike i j) (h : Shrinks is js) : Shrinks (i :: is) (j :: js) := by
  refine ⟨Nat.succ_le_succ h.length, fun f => ?_⟩
  rw [depthFrom, depthFrom, layer_congr hij, raise_congr hij]
  exact max_le_max le_rfl (h.depth _)

theorem cons (i : Instruction R) (h : Shrinks is js) : Shrinks (i :: is) (i :: js) :=
  h.replace ⟨rfl, rfl⟩

theorem append_left (a : List (Instruction R)) (h : Shrinks is js) : Shrinks (a ++ is) (a ++ js) := by
  induction a with
  | nil => exact h
  | cons i a ih => exact ih.cons i

theorem exchange (hd : ∀ w ∈ i.wires, w ∉ j.wires) (is : List (Instruction R)) :
    Shrinks (i :: j :: is) (j :: i :: is) :=
  ⟨le_rfl, fun f => (depthFrom_exchange hd is f).ge⟩

/-- A change of a list that leaves operations out and puts others in the place of ones like them. -/
theorem filterMap {es : Entries R} {change : Nat × Instruction R → Option (Nat × Instruction R)}
    (h : ∀ x ∈ es, ∀ y, change x = some y → Alike x.2 y.2) :
    Shrinks (es.map (·.2)) ((es.filterMap change).map (·.2)) := by
  induction es with
  | nil => exact .refl []
  | cons x es ih =>
    obtain ⟨hx, hes⟩ := List.forall_mem_cons.mp h
    rw [List.filterMap_cons]
    cases hy : change x with
    | none => exact (ih hes).drop x.2
    | some y => exact (ih hes).replace (hx y hy)

end Shrinks

end QuantumCompiler.Dag
