import QuantumCompiler.Proofs.Device.Tables

/-!
# Distances on the regular shapes

A guess at the distances to a qubit is right when it is zero there, changes by at most one along a
coupling, and has at every other qubit a coupling along which it falls. The first two facts bound every
walk from below, the third one walks down to the target. `Potential` names the three, and each shape has
to show them of its formula only.
-/
namespace QuantumCompiler.Device

variable {R : Type}

/-! ## Potentials -/

/-- A guess at the distances to a qubit. -/
structure Potential (d : Device R) (b : Qubit) (f : Qubit → Nat) : Prop where
  target : f b = 0
  smooth : ∀ p q, d.isAdjacent p q = true → f p ≤ f q + 1
  falls : ∀ p < d.numQubits, p ≠ b → ∃ q, d.isAdjacent p q = true ∧ f p = f q + 1

namespace Potential

variable {d : Device R} {a b : Qubit} {f : Qubit → Nat}

/-- No walk to the target is shorter than the guess. -/
theorem le_length (hf : d.Potential b f) (h : WellFormed d)
    (w : (couplingGraph d.couplings).Walk a b) : f a ≤ w.length := by
  induction w with
  | nil => exact hf.target.le
  | @cons p q _ hpq w ih =>
    have hstep := hf.smooth p q (h.graph_adj.mp hpq)
    have hrest := ih hf
    rw [SimpleGraph.Walk.length_cons]
    omega

/-- Falling along couplings reaches the target. -/
theorem exists_walk (hf : d.Potential b f) (h : WellFormed d) (k : Nat) (ha : a < d.numQubits)
    (hk : f a = k) : ∃ w : (couplingGraph d.couplings).Walk a b, w.length = k := by
  induction k generalizing a with
  | zero =>
    by_cases hab : a = b
    · subst hab
      exact ⟨.nil, rfl⟩
    · obtain ⟨q, -, hq⟩ := hf.falls a ha hab
      omega
  | succ k ih =>
    have hab : a ≠ b := by
      rintro rfl
      rw [hf.target] at hk
      omega
    obtain ⟨q, hadj, hq⟩ := hf.falls a ha hab
    obtain ⟨w, hw⟩ := ih (h.lt_of_isAdjacent hadj).2.1 (by omega)
    exact ⟨.cons (h.graph_adj.mpr hadj) w, by rw [SimpleGraph.Walk.length_cons, hw]⟩

/-- A potential is the distance. -/
theorem distance?_eq (hf : d.Potential b f) (h : WellFormed d) (ha : a < d.numQubits)
    (hb : b < d.numQubits) : d.distance? a b = some (f a) := by
  rw [h.distance?_isLeast hb]
  refine ⟨hf.exists_walk h _ ha rfl, ?_⟩
  rintro k ⟨w, rfl⟩
  exact hf.le_length h w

end Potential

/-- The qubits of the device are in one component, the only one if there are any. -/
structure IsConnected (d : Device R) (n : Nat) : Prop where
  numQubits : d.numQubits = n
  component : ∀ i < n, ∀ j < n, d.component? i = d.component? j
  components : d.numComponents = min n 1

/-- The device is connected, and its distances are given by a formula. -/
structure HasMetric (d : Device R) (n : Nat) (f : Qubit → Qubit → Nat) : Prop
    extends IsConnected d n where
  distance : ∀ i < n, ∀ j < n, d.distance? i j = some (f i j)

theorem isConnected_of_distance {d : Device R} (h : WellFormed d)
    (hd : ∀ i < d.numQubits, ∀ j < d.numQubits, (d.distance? i j).isSome = true) :
    d.IsConnected d.numQubits := by
  have hcomp (i : Qubit) (hi : i < d.numQubits) (j : Qubit) (hj : j < d.numQubits) :
      d.component? i = d.component? j := (h.component?_eq_iff hi hj).mpr (hd i hi j hj)
  refine ⟨rfl, hcomp, ?_⟩
  rcases Nat.eq_zero_or_pos d.numQubits with hz | hpos
  · -- every component has a qubit
    by_contra hne
    obtain ⟨q, hq, -⟩ := h.exists_component?_iff.mpr (show 0 < d.numComponents by omega)
    omega
  · obtain ⟨c, hc⟩ := h.exists_component? hpos
    have hone : ∀ e < d.numComponents, e = c := by
      intro e he
      obtain ⟨q, hq, hqe⟩ := h.exists_component?_iff.mpr he
      rw [hcomp q hq 0 hpos, hc] at hqe
      exact (Option.some.inj hqe).symm
    have hc' : c < d.numComponents := h.exists_component?_iff.mp ⟨0, hpos, hc⟩
    have hfirst := hone 0 (by omega)
    have hlast := hone (d.numComponents - 1) (by omega)
    omega

/-- Potentials to all qubits give the distances and connect the device. -/
theorem hasMetric_of_potential {d : Device R} {f : Qubit → Qubit → Nat} (h : WellFormed d)
    (hf : ∀ j < d.numQubits, d.Potential j fun i => f i j) : d.HasMetric d.numQubits f := by
  have hdist (i : Qubit) (hi : i < d.numQubits) (j : Qubit) (hj : j < d.numQubits) :
      d.distance? i j = some (f i j) := (hf j hj).distance?_eq h hi hj
  refine ⟨isConnected_of_distance h fun i hi j hj => ?_, hdist⟩
  rw [hdist i hi j hj]
  rfl

/-! ## The couplings of the shapes -/

section Shapes

variable [Scalar R] {a b : Nat}

theorem isAdjacent_uniform (name : String) (n : Nat) (pairs : List (Qubit × Qubit)) :
    (uniform name n pairs : Device R).isAdjacent a b = true ↔ (a, b) ∈ pairs ∨ (b, a) ∈ pairs := by
  rw [isAdjacent, uniform, ofCouplings, List.any_eq_true, ← List.find?_isSome, find?_distinctPairs,
    List.find?_isSome]
  constructor
  · rintro ⟨c, hc, hj⟩
    obtain ⟨⟨x, y⟩, hxy, rfl⟩ := List.mem_map.mp hc
    rcases joins_iff.mp hj with ⟨rfl, rfl⟩ | ⟨rfl, rfl⟩
    · exact .inl hxy
    · exact .inr hxy
  · rintro (h | h)
    · exact ⟨_, List.mem_map_of_mem h, joins_iff.mpr (.inl ⟨rfl, rfl⟩)⟩
    · exact ⟨_, List.mem_map_of_mem h, joins_iff.mpr (.inr ⟨rfl, rfl⟩)⟩

theorem mem_linePairs {n : Nat} : (a, b) ∈ linePairs n ↔ a + 1 = b ∧ b < n := by
  simp only [linePairs, List.mem_map, List.mem_range, Prod.mk.injEq]
  constructor
  · rintro ⟨i, hi, rfl, rfl⟩
    exact ⟨rfl, by omega⟩
  · rintro ⟨rfl, hb⟩
    exact ⟨a, by omega, rfl, rfl⟩

theorem isAdjacent_linear (n : Nat) : (linear n : Device R).isAdjacent a b = true ↔
    (a + 1 = b ∧ b < n) ∨ (b + 1 = a ∧ a < n) := by
  rw [linear, isAdjacent_uniform, mem_linePairs, mem_linePairs]

theorem isAdjacent_ring (n : Nat) : (ring n : Device R).isAdjacent a b = true ↔
    (a + 1 = b ∧ b < n) ∨ (b + 1 = a ∧ a < n) ∨
      (2 < n ∧ ((a + 1 = n ∧ b = 0) ∨ (b + 1 = n ∧ a = 0))) := by
  have hmem (x y : Nat) : (x, y) ∈ (if n > 2 then [((n - 1, 0) : Qubit × Qubit)] else []) ↔
      2 < n ∧ x + 1 = n ∧ y = 0 := by
    by_cases hn : n > 2
    · rw [if_pos hn, List.mem_singleton, Prod.mk.injEq]
      show x = n - 1 ∧ y = 0 ↔ _
      omega
    · simp [hn]
  rw [ring, isAdjacent_uniform, List.mem_append, List.mem_append, mem_linePairs, mem_linePairs,
    hmem, hmem]
  omega

theorem isAdjacent_star (n : Nat) : (star n : Device R).isAdjacent a b = true ↔
    (a = 0 ∧ 0 < b ∧ b < n) ∨ (b = 0 ∧ 0 < a ∧ a < n) := by
  have hmem (x y : Nat) : (x, y) ∈ (List.range (n - 1)).map (fun i => ((0, i + 1) : Qubit × Qubit)) ↔
      x = 0 ∧ 0 < y ∧ y < n := by
    simp only [List.mem_map, List.mem_range, Prod.mk.injEq]
    constructor
    · rintro ⟨i, hi, rfl, rfl⟩
      exact ⟨rfl, by omega, by omega⟩
    · rintro ⟨rfl, hpos, hy⟩
      exact ⟨y - 1, by omega, rfl, Nat.succ_pred_eq_of_pos hpos⟩
  rw [star, isAdjacent_uniform, hmem, hmem]

theorem isAdjacent_full (n : Nat) :
    (full n : Device R).isAdjacent a b = true ↔ a ≠ b ∧ a < n ∧ b < n := by
  have hmem (x y : Nat) : (x, y) ∈ (List.range n).flatMap (fun i =>
      (List.range (n - 1 - i)).map fun k => ((i, i + 1 + k) : Qubit × Qubit)) ↔ x < y ∧ y < n := by
    simp only [List.mem_flatMap, List.mem_map, List.mem_range, Prod.mk.injEq]
    constructor
    · rintro ⟨i, hi, k, hk, rfl, rfl⟩
      omega
    · rintro ⟨hxy, hy⟩
      exact ⟨x, by omega, y - (x + 1), by omega, rfl, Nat.add_sub_cancel' hxy⟩
  rw [full, isAdjacent_uniform, hmem, hmem]
  omega

theorem mem_gridPlaces {rows columns r c : Nat} :
    (r, c) ∈ gridPlaces rows columns ↔ r < rows ∧ c < columns := by
  simp only [gridPlaces, List.mem_flatMap, List.mem_map, List.mem_range, Prod.mk.injEq]
  constructor
  · rintro ⟨r, hr, c, hc, rfl, rfl⟩
    exact ⟨hr, hc⟩
  · rintro ⟨hr, hc⟩
    exact ⟨r, hr, c, hc, rfl, rfl⟩

theorem mem_gridPairs {rows columns : Nat} : (a, b) ∈ gridPairs rows columns ↔
    ∃ r < rows, ∃ c < columns, a = r * columns + c ∧
      ((c + 1 < columns ∧ b = r * columns + (c + 1)) ∨
        (r + 1 < rows ∧ b = (r + 1) * columns + c)) := by
  have hbelow (r c : Nat) : r * columns + c + columns = (r + 1) * columns + c := by ring
  simp only [gridPairs, List.mem_flatMap, Prod.exists, mem_gridPlaces, List.mem_append,
    List.mem_ite_nil_right, List.mem_singleton, Prod.mk.injEq, hbelow]
  constructor
  · rintro ⟨r, c, ⟨hr, hc⟩, ⟨hnext, rfl, rfl⟩ | ⟨hnext, rfl, rfl⟩⟩
    · exact ⟨r, hr, c, hc, rfl, .inl ⟨hnext, rfl⟩⟩
    · exact ⟨r, hr, c, hc, rfl, .inr ⟨hnext, rfl⟩⟩
  · rintro ⟨r, hr, c, hc, rfl, ⟨hnext, rfl⟩ | ⟨hnext, rfl⟩⟩
    · exact ⟨r, c, ⟨hr, hc⟩, .inl ⟨hnext, rfl, rfl⟩⟩
    · exact ⟨r, c, ⟨hr, hc⟩, .inr ⟨hnext, rfl, rfl⟩⟩

theorem isAdjacent_grid (rows columns : Nat) : (grid rows columns : Device R).isAdjacent a b = true ↔
    (a, b) ∈ gridPairs rows columns ∨ (b, a) ∈ gridPairs rows columns :=
  isAdjacent_uniform s!"grid_{rows}x{columns}" (rows * columns) (gridPairs rows columns)

/-! ## The distances of the shapes -/

theorem potential_linear {n j : Nat} (hj : j < n) :
    (linear n : Device R).Potential j fun i => ((i : ℤ) - j).natAbs := by
  constructor
  · omega
  · intro p q hpq
    rw [isAdjacent_linear] at hpq
    omega
  · intro p hp hne
    change p < n at hp
    rcases Nat.lt_or_gt_of_ne hne with hlt | hgt
    · exact ⟨p + 1, (isAdjacent_linear n).mpr (by omega), by omega⟩
    · exact ⟨p - 1, (isAdjacent_linear n).mpr (by omega), by omega⟩

theorem potential_ring {n j : Nat} (hj : j < n) : (ring n : Device R).Potential j fun i =>
    min ((i : ℤ) - j).natAbs (n - ((i : ℤ) - j).natAbs) := by
  constructor
  · omega
  · intro p q hpq
    rw [isAdjacent_ring] at hpq
    omega
  · intro p hp hne
    change p < n at hp
    -- the way that does not cross the closing coupling is the shorter one, or the other one is
    by_cases hnear : ((p : ℤ) - j).natAbs ≤ n - ((p : ℤ) - j).natAbs
    · rcases Nat.lt_or_gt_of_ne hne with hlt | hgt
      · exact ⟨p + 1, (isAdjacent_ring n).mpr (by omega), by omega⟩
      · exact ⟨p - 1, (isAdjacent_ring n).mpr (by omega), by omega⟩
    · rcases Nat.lt_or_gt_of_ne hne with hlt | hgt
      · by_cases hfirst : p = 0
        · exact ⟨n - 1, (isAdjacent_ring n).mpr (by omega), by omega⟩
        · exact ⟨p - 1, (isAdjacent_ring n).mpr (by omega), by omega⟩
      · by_cases hlast : p + 1 = n
        · exact ⟨0, (isAdjacent_ring n).mpr (by omega), by omega⟩
        · exact ⟨p + 1, (isAdjacent_ring n).mpr (by omega), by omega⟩

theorem potential_star {n j : Nat} (hj : j < n) : (star n : Device R).Potential j fun i =>
    if i = j then 0 else if i = 0 ∨ j = 0 then 1 else 2 := by
  constructor
  · exact if_pos rfl
  · intro p q hpq
    rw [isAdjacent_star] at hpq
    grind
  · intro p hp hne
    change p < n at hp
    -- the middle is next, or the target is
    by_cases hend : p = 0 ∨ j = 0
    · exact ⟨j, (isAdjacent_star n).mpr (by omega), by simp [hne, hend]⟩
    · exact ⟨0, (isAdjacent_star n).mpr (by omega), by grind⟩

theorem potential_full {n j : Nat} (hj : j < n) :
    (full n : Device R).Potential j fun i => if i = j then 0 else 1 := by
  constructor
  · exact if_pos rfl
  · intro p q _
    split <;> omega
  · intro p hp hne
    exact ⟨j, (isAdjacent_full n).mpr ⟨hne, hp, hj⟩, by simp [hne]⟩

/-- The row and the column of a place. -/
theorem grid_place {columns r c : Nat} (hc : c < columns) :
    (r * columns + c) / columns = r ∧ (r * columns + c) % columns = c := by
  constructor
  · rw [Nat.mul_comm, Nat.mul_add_div (by omega), Nat.div_eq_of_lt hc, Nat.add_zero]
  · rw [Nat.mul_comm, Nat.mul_add_mod, Nat.mod_eq_of_lt hc]

theorem exists_grid_place {rows columns p : Nat} (hp : p < rows * columns) :
    ∃ r < rows, ∃ c < columns, p = r * columns + c := by
  have hpos : 0 < columns := by
    rcases Nat.eq_zero_or_pos columns with rfl | hpos
    · omega
    · exact hpos
  refine ⟨p / columns, Nat.div_lt_of_lt_mul (by rwa [Nat.mul_comm]), p % columns,
    Nat.mod_lt p hpos, ?_⟩
  rw [Nat.mul_comm, Nat.div_add_mod]

/-- Along a coupling of a grid either the row or the column changes, by one. -/
theorem grid_step {rows columns p q : Nat}
    (h : (grid rows columns : Device R).isAdjacent p q = true) :
    (p / columns = q / columns ∧ (p % columns + 1 = q % columns ∨ q % columns + 1 = p % columns)) ∨
      (p % columns = q % columns ∧
        (p / columns + 1 = q / columns ∨ q / columns + 1 = p / columns)) := by
  rcases (isAdjacent_grid rows columns).mp h with h | h
  · obtain ⟨r, -, c, hc, rfl, ⟨hnext, rfl⟩ | ⟨-, rfl⟩⟩ := mem_gridPairs.mp h
    · simp only [grid_place hc, grid_place hnext, true_and, true_or]
    · simp only [grid_place hc, true_and, true_or, or_true]
  · obtain ⟨r, -, c, hc, rfl, ⟨hnext, rfl⟩ | ⟨-, rfl⟩⟩ := mem_gridPairs.mp h
    · simp only [grid_place hc, grid_place hnext, true_and, or_true, true_or]
    · simp only [grid_place hc, true_and, or_true]

theorem potential_grid {rows columns s e : Nat} (hs : s < rows) (he : e < columns) :
    (grid rows columns : Device R).Potential (s * columns + e) fun i =>
      (((i / columns : ℕ) : ℤ) - s).natAbs + (((i % columns : ℕ) : ℤ) - e).natAbs := by
  constructor
  · simp only [grid_place he, sub_self, Int.natAbs_zero, Nat.add_zero]
  · intro p q hpq
    have h := grid_step hpq
    generalize p / columns = r, p % columns = c, q / columns = r', q % columns = c' at h ⊢
    omega
  · intro p hp hne
    obtain ⟨r, hr, c, hc, rfl⟩ := exists_grid_place hp
    -- first to the right row, then to the right column
    rcases Nat.lt_trichotomy r s with hrs | rfl | hrs
    · refine ⟨(r + 1) * columns + c, (isAdjacent_grid rows columns).mpr (.inl (mem_gridPairs.mpr
        ⟨r, hr, c, hc, rfl, .inr ⟨by omega, rfl⟩⟩)), ?_⟩
      simp only [grid_place hc]
      omega
    · rcases Nat.lt_trichotomy c e with hce | rfl | hce
      · have hnext : c + 1 < columns := by omega
        refine ⟨r * columns + (c + 1), (isAdjacent_grid rows columns).mpr (.inl (mem_gridPairs.mpr
          ⟨r, hr, c, hc, rfl, .inl ⟨hnext, rfl⟩⟩)), ?_⟩
        simp only [grid_place hc, grid_place hnext]
        omega
      · exact absurd rfl hne
      · obtain ⟨c, rfl⟩ := Nat.exists_eq_add_one_of_ne_zero (show c ≠ 0 by omega)
        have hleft : c < columns := by omega
        refine ⟨r * columns + c, (isAdjacent_grid rows columns).mpr (.inr (mem_gridPairs.mpr
          ⟨r, hr, c, hleft, rfl, .inl ⟨hc, rfl⟩⟩)), ?_⟩
        simp only [grid_place hc, grid_place hleft]
        omega
    · obtain ⟨r, rfl⟩ := Nat.exists_eq_add_one_of_ne_zero (show r ≠ 0 by omega)
      have habove : r < rows := by omega
      refine ⟨r * columns + c, (isAdjacent_grid rows columns).mpr (.inr (mem_gridPairs.mpr
        ⟨r, habove, c, hc, rfl, .inr ⟨hr, rfl⟩⟩)), ?_⟩
      simp only [grid_place hc]
      omega

/-- A grid numbers its places row by row. -/
theorem gridPlaces_eq (rows columns : Nat) : gridPlaces rows columns =
    (List.range (rows * columns)).map fun q => (q / columns, q % columns) := by
  induction rows with
  | zero => simp [gridPlaces]
  | succ rows ih =>
    have hlast : (List.range columns).map (fun c => (rows, c)) =
        ((List.range columns).map (rows * columns + ·)).map fun q => (q / columns, q % columns) := by
      rw [List.map_map]
      refine List.map_congr_left fun c hc => ?_
      obtain ⟨hr, hc⟩ := grid_place (r := rows) (List.mem_range.mp hc)
      rw [Function.comp_apply, hr, hc]
    rw [gridPlaces, List.range_succ, List.flatMap_append, Nat.succ_mul, List.range_add,
      List.map_append, ← hlast, ← ih, gridPlaces, List.flatMap_singleton]

theorem hasMetric_grid (rows columns : Nat) :
    (grid rows columns : Device R).HasMetric (rows * columns) fun i j =>
      (((i / columns : ℕ) : ℤ) - (j / columns : ℕ)).natAbs +
        (((i % columns : ℕ) : ℤ) - (j % columns : ℕ)).natAbs := by
  refine hasMetric_of_potential (Built.grid rows columns).wellFormed fun j hj => ?_
  obtain ⟨s, hs, e, he, rfl⟩ := exists_grid_place hj
  simp only [grid_place he]
  exact potential_grid hs he

/-- The distances on the regular shapes: along a line, the shorter way around a ring, at most two over
the middle of a star, one between any two qubits that are all coupled, and by rows and columns on a grid,
which draws each qubit at its row and column. All of them are connected, also those of few qubits. -/
theorem shapes_have_metrics :
    (∀ n, (linear n : Device R).HasMetric n fun i j => ((i : ℤ) - j).natAbs) ∧
    (∀ n, (ring n : Device R).HasMetric n fun i j =>
      min ((i : ℤ) - j).natAbs (n - ((i : ℤ) - j).natAbs)) ∧
    (∀ n, (star n : Device R).HasMetric n fun i j =>
      if i = j then 0 else if i = 0 ∨ j = 0 then 1 else 2) ∧
    (∀ n, (full n : Device R).HasMetric n fun i j => if i = j then 0 else 1) ∧
    ∀ rows columns, (grid rows columns : Device R).IsConnected (rows * columns) ∧
      ∃ places, (grid rows columns : Device R).positions = some places ∧
        places.length = rows * columns ∧
        ∀ r < rows, ∀ c < columns, places[r * columns + c]? = some ((r : ℤ), (c : ℤ)) ∧
          ∀ s < rows, ∀ e < columns,
            (grid rows columns : Device R).distance? (r * columns + c) (s * columns + e) =
              some (((r : ℤ) - s).natAbs + ((c : ℤ) - e).natAbs) := by
  refine ⟨fun n => ?_, fun n => ?_, fun n => ?_, fun n => ?_, fun rows columns => ?_⟩
  · exact hasMetric_of_potential (Built.linear n).wellFormed fun j hj => potential_linear hj
  · exact hasMetric_of_potential (Built.ring n).wellFormed fun j hj => potential_ring hj
  · exact hasMetric_of_potential (Built.star n).wellFormed fun j hj => potential_star hj
  · exact hasMetric_of_potential (Built.full n).wellFormed fun j hj => potential_full hj
  · have hgrid := hasMetric_grid (R := R) rows columns
    refine ⟨hgrid.toIsConnected, _, rfl, by simp [gridPlaces_eq], fun r hr c hc => ⟨?_, ?_⟩⟩
    · rw [gridPlaces_eq, List.getElem?_map, List.getElem?_map,
        List.getElem?_range (grid_place_lt hr hc), Option.map_some, Option.map_some,
        (grid_place hc).1, (grid_place hc).2]
      rfl
    · intro s hs e he
      rw [hgrid.distance _ (grid_place_lt hr hc) _ (grid_place_lt hs he)]
      simp only [grid_place hc, grid_place he]

theorem shapes_have_metrics_few : (ring 6 : Device Float).distance? 0 5 = some 1 ∧
    (ring 2 : Device Float).distance? 0 1 = some 1 ∧ (star 5 : Device Float).distance? 1 2 = some 2 ∧
    (grid 2 3 : Device Float).distance? 2 3 = some 3 ∧
    (grid 3 0 : Device Float).numComponents = 0 := by
  obtain ⟨-, hring, hstar, -, hgrid⟩ := shapes_have_metrics (R := Float)
  obtain ⟨-, places, -, -, hplaces⟩ := hgrid 2 3
  exact ⟨(hring 6).distance 0 (by decide) 5 (by decide),
    (hring 2).distance 0 (by decide) 1 (by decide), (hstar 5).distance 1 (by decide) 2 (by decide),
    (hplaces 0 (by decide) 2 (by decide)).2 1 (by decide) 0 (by decide), (hgrid 3 0).1.components⟩

end Shapes

end QuantumCompiler.Device
