import QuantumCompiler.Layout.Placement
import QuantumCompiler.Proofs.Layout.Bijection

/-!
# Placements as permutations

A placement of the qubits of a device is a permutation kept in both directions. A swap exchanges two
physical qubits in both, so swapping the same two again undoes it, and undoing several swaps goes from
the last one back.
-/
namespace QuantumCompiler.Placement

/-- The two tables are permutations of the first `n` qubits and inverse to each other. -/
structure IsPermutation (p : Placement) (n : Nat) : Prop where
  size_physical : p.toPhysical.size = n
  size_logical : p.toLogical.size = n
  physical_lt : ∀ l < n, p.physical l < n
  logical_lt : ∀ q < n, p.logical q < n
  logical_physical : ∀ l < n, p.logical (p.physical l) = l
  physical_logical : ∀ q < n, p.physical (p.logical q) = q

variable {p q : Placement} {n : Nat} {a b : Qubit}

theorem IsPermutation.physical_inj (h : p.IsPermutation n) {k l : Qubit} (hk : k < n) (hl : l < n)
    (he : p.physical k = p.physical l) : k = l := by
  rw [← h.logical_physical k hk, he, h.logical_physical l hl]

theorem swap_lt (ha : a < n) (hb : b < n) {x : Qubit} (hx : x < n) : Equiv.swap a b x < n := by
  rw [Equiv.swap_apply_def]
  split
  · exact hb
  · split
    · exact ha
    · exact hx

/-- After a swap a logical qubit sits on the other of the two physical qubits, or where it sat. -/
theorem physical_swap (h : p.IsPermutation n) (ha : a < n) (hb : b < n) {l : Qubit} (hl : l < n) :
    (p.swap a b).physical l = Equiv.swap a b (p.physical l) := by
  have hx := h.logical_lt a ha
  have hy := h.logical_lt b hb
  simp only [physical, swap, Array.getD_eq_getD_getElem?, Array.getElem?_setIfInBounds,
    Array.size_setIfInBounds, h.size_physical]
  rw [Equiv.swap_apply_def]
  by_cases hly : p.logical b = l
  · have hpl : p.physical l = b := by rw [← hly, h.physical_logical b hb]
    simp only [physical, Array.getD_eq_getD_getElem?] at hpl
    rw [if_pos hly, if_pos hy, hpl]
    by_cases hab : b = a <;> simp [hab]
  · rw [if_neg hly]
    by_cases hlx : p.logical a = l
    · have hpl : p.physical l = a := by rw [← hlx, h.physical_logical a ha]
      simp only [physical, Array.getD_eq_getD_getElem?] at hpl
      rw [if_pos hlx, if_pos hx, hpl]
      simp
    · rw [if_neg hlx]
      have hpa : p.physical l ≠ a := fun he => hlx (by rw [← he, h.logical_physical l hl])
      have hpb : p.physical l ≠ b := fun he => hly (by rw [← he, h.logical_physical l hl])
      simp only [physical, Array.getD_eq_getD_getElem?] at hpa hpb
      rw [if_neg hpa, if_neg hpb]

/-- After a swap a physical qubit holds what the other one of the two held. -/
theorem logical_swap (h : p.IsPermutation n) (ha : a < n) (hb : b < n) (x : Qubit) :
    (p.swap a b).logical x = p.logical (Equiv.swap a b x) := by
  simp only [logical, swap, Array.getD_eq_getD_getElem?, Array.getElem?_setIfInBounds,
    Array.size_setIfInBounds, h.size_logical]
  rw [Equiv.swap_apply_def]
  by_cases hxb : b = x
  · subst hxb
    by_cases hab : b = a
    · simp [hab, ha]
    · simp [hb, hab]
  · rw [if_neg hxb]
    by_cases hxa : a = x
    · subst hxa
      simp [ha]
    · simp [hxa, Ne.symm hxa, Ne.symm hxb]

theorem isPermutation_swap (h : p.IsPermutation n) (ha : a < n) (hb : b < n) :
    (p.swap a b).IsPermutation n := by
  constructor
  · simp [swap, h.size_physical]
  · simp [swap, h.size_logical]
  · intro l hl
    rw [physical_swap h ha hb hl]
    exact swap_lt ha hb (h.physical_lt l hl)
  · intro x hx
    rw [logical_swap h ha hb]
    exact h.logical_lt _ (swap_lt ha hb hx)
  · intro l hl
    rw [logical_swap h ha hb, physical_swap h ha hb hl, Equiv.swap_apply_self,
      h.logical_physical l hl]
  · intro x hx
    have hs := swap_lt ha hb hx
    rw [logical_swap h ha hb, physical_swap h ha hb (h.logical_lt _ hs), h.physical_logical _ hs,
      Equiv.swap_apply_self]

/-- Permutations that place every logical qubit alike are equal. -/
theorem ext_of_physical (hp : p.IsPermutation n) (hq : q.IsPermutation n)
    (hw : p.width = q.width) (h : ∀ l < n, p.physical l = q.physical l) : p = q := by
  have hlog : ∀ x < n, p.logical x = q.logical x := by
    intro x hx
    apply hp.physical_inj (hp.logical_lt x hx) (hq.logical_lt x hx)
    rw [hp.physical_logical x hx, h _ (hq.logical_lt x hx), hq.physical_logical x hx]
  obtain ⟨tp, tl, w⟩ := p
  obtain ⟨sp, sl, v⟩ := q
  simp only [Placement.mk.injEq]
  refine ⟨?_, ?_, hw⟩
  · apply Array.ext
    · rw [hp.size_physical, hq.size_physical]
    · intro i hi hj
      have he := h i (by rw [← hp.size_physical]; exact hi)
      simpa [physical, hi, hj] using he
  · apply Array.ext
    · rw [hp.size_logical, hq.size_logical]
    · intro i hi hj
      have he := hlog i (by rw [← hp.size_logical]; exact hi)
      simpa [logical, hi, hj] using he

/-- The same swap again undoes it. -/
theorem swap_swap (h : p.IsPermutation n) (ha : a < n) (hb : b < n) :
    (p.swap a b).swap a b = p := by
  have hs := isPermutation_swap h ha hb
  refine ext_of_physical (isPermutation_swap hs ha hb) h rfl ?_
  intro l hl
  rw [physical_swap hs ha hb hl, physical_swap h ha hb hl, Equiv.swap_apply_self]

section Swaps

variable {ps : List (Qubit × Qubit)}

@[simp] theorem swaps_cons (p : Placement) (s : Qubit × Qubit) (ps : List (Qubit × Qubit)) :
    p.swaps (s :: ps) = (p.swap s.1 s.2).swaps ps := rfl

theorem swaps_append (p : Placement) (ps qs : List (Qubit × Qubit)) :
    p.swaps (ps ++ qs) = (p.swaps ps).swaps qs := by
  simp [swaps, List.foldl_append]

theorem isPermutation_swaps (h : p.IsPermutation n) (hps : ∀ s ∈ ps, s.1 < n ∧ s.2 < n) :
    (p.swaps ps).IsPermutation n := by
  induction ps generalizing p with
  | nil => exact h
  | cons s ps ih =>
    obtain ⟨ha, hb⟩ := hps s (by simp)
    rw [swaps_cons]
    exact ih (isPermutation_swap h ha hb) fun t ht => hps t (by simp [ht])

/-- The swaps from the last one back undo what they did. -/
theorem swaps_reverse (h : p.IsPermutation n) (hps : ∀ s ∈ ps, s.1 < n ∧ s.2 < n) :
    (p.swaps ps).swaps ps.reverse = p := by
  induction ps generalizing p with
  | nil => rfl
  | cons s ps ih =>
    obtain ⟨ha, hb⟩ := hps s (by simp)
    rw [swaps_cons, List.reverse_cons, swaps_append,
      ih (isPermutation_swap h ha hb) (fun t ht => hps t (by simp [ht]))]
    exact swap_swap h ha hb

/-- Where a sequence of swaps takes a physical qubit. -/
def carry (ps : List (Qubit × Qubit)) (x : Qubit) : Qubit :=
  ps.foldl (fun x s => Equiv.swap s.1 s.2 x) x

theorem carry_append (ps qs : List (Qubit × Qubit)) (x : Qubit) :
    carry (ps ++ qs) x = carry qs (carry ps x) := by
  simp [carry, List.foldl_append]

/-- Swaps carry every logical qubit along. -/
theorem physical_swaps (h : p.IsPermutation n) (hps : ∀ s ∈ ps, s.1 < n ∧ s.2 < n) {l : Qubit}
    (hl : l < n) : (p.swaps ps).physical l = carry ps (p.physical l) := by
  induction ps generalizing p with
  | nil => rfl
  | cons s ps ih =>
    obtain ⟨ha, hb⟩ := hps s (by simp)
    rw [swaps_cons, ih (isPermutation_swap h ha hb) (fun t ht => hps t (by simp [ht])),
      physical_swap h ha hb hl]
    rfl

/-- A qubit that no swap names stays. -/
theorem carry_of_notMem {x : Qubit} (h : ∀ s ∈ ps, s.1 ≠ x ∧ s.2 ≠ x) : carry ps x = x := by
  induction ps with
  | nil => rfl
  | cons s ps ih =>
    obtain ⟨h1, h2⟩ := h s (by simp)
    have hs : Equiv.swap s.1 s.2 x = x := Equiv.swap_apply_of_ne_of_ne h1.symm h2.symm
    have hcons : carry (s :: ps) x = carry ps (Equiv.swap s.1 s.2 x) := rfl
    rw [hcons, hs, ih fun t ht => h t (by simp [ht])]

end Swaps

/-! ## Listing the physical qubits -/

section Listed

variable {physical : List Qubit}

/-- The placement that puts logical qubit `i` on the `i`-th of the listed physical qubits. -/
def ofList (physical : List Qubit) (width : Nat) : Placement :=
  { toPhysical := physical.toArray
    toLogical := physical.zipIdx.foldl (fun table (p, q) => table.setIfInBounds p q)
      (Array.replicate physical.length 0)
    width }

theorem size_foldl_set (ps : List (Qubit × Qubit)) (table : Array Qubit) :
    (ps.foldl (fun table (p, q) => table.setIfInBounds p q) table).size = table.size := by
  induction ps generalizing table with
  | nil => rfl
  | cons x ps ih => rw [List.foldl_cons, ih, Array.size_setIfInBounds]

theorem getD_foldl_set (ps : List (Qubit × Qubit)) (table : Array Qubit)
    (hn : (ps.map Prod.fst).Nodup) (hlt : ∀ x ∈ ps, x.1 < table.size) {x : Qubit × Qubit}
    (h : x ∈ ps ∨ (x.1 ∉ ps.map Prod.fst ∧ table.getD x.1 0 = x.2)) :
    (ps.foldl (fun table (p, q) => table.setIfInBounds p q) table).getD x.1 0 = x.2 := by
  induction ps generalizing table with
  | nil => simpa using h
  | cons y ps ih =>
    obtain ⟨hy, hn⟩ := List.nodup_cons.mp hn
    have hyl := hlt y (by simp)
    rw [List.foldl_cons]
    refine ih _ hn (fun z hz => by simpa using hlt z (by simp [hz])) ?_
    have hset : (table.setIfInBounds y.1 y.2).getD x.1 0 =
        if y.1 = x.1 then y.2 else table.getD x.1 0 := by
      simp only [Array.getD_eq_getD_getElem?, Array.getElem?_setIfInBounds, hyl, if_true]
      by_cases he : y.1 = x.1 <;> simp [he]
    rcases h with hx | ⟨hx, ht⟩
    · rcases List.mem_cons.mp hx with rfl | hx
      · exact .inr ⟨hy, by rw [hset, if_pos rfl]⟩
      · exact .inl hx
    · rw [List.map_cons, List.mem_cons, not_or] at hx
      exact .inr ⟨hx.2, by rw [hset, if_neg (Ne.symm hx.1), ht]⟩

theorem physical_ofList (physical : List Qubit) (width : Nat) {l : Nat} (hl : l < physical.length) :
    (ofList physical width).physical l = physical[l] := by
  simp [ofList, Placement.physical, hl]

/-- All qubits of a device in some order are a permutation. -/
theorem isPermutation_ofList (h : physical.Perm (List.range n)) (width : Nat) :
    (ofList physical width).IsPermutation n := by
  have hlen : physical.length = n := by simpa using h.length_eq
  have hn : physical.Nodup := h.nodup_iff.mpr List.nodup_range
  have hmem (p : Qubit) : p ∈ physical ↔ p < n := by rw [h.mem_iff, List.mem_range]
  have hfst : physical.zipIdx.map Prod.fst = physical := List.zipIdx_map_fst 0 physical
  have hlogical {l : Nat} (hl : l < physical.length) :
      (ofList physical width).logical physical[l] = l :=
    getD_foldl_set physical.zipIdx (Array.replicate physical.length 0) (by rwa [hfst])
      (fun x hx => by simpa [hlen, ← hmem] using List.fst_mem_of_mem_zipIdx hx)
      (.inl (List.mk_mem_zipIdx_iff_getElem?.mpr (List.getElem?_eq_getElem hl)))
  constructor
  · simpa [ofList] using hlen
  · rw [ofList, size_foldl_set, Array.size_replicate, hlen]
  · intro l hl
    rw [physical_ofList physical width (hlen ▸ hl), ← hmem]
    exact List.getElem_mem _
  · intro q hq
    obtain ⟨l, hl, rfl⟩ := List.getElem_of_mem ((hmem q).mpr hq)
    rw [hlogical hl]
    exact hlen ▸ hl
  · intro l hl
    rw [physical_ofList physical width (hlen ▸ hl), hlogical]
  · intro q hq
    obtain ⟨l, hl, rfl⟩ := List.getElem_of_mem ((hmem q).mpr hq)
    rw [hlogical hl, physical_ofList physical width hl]

/-- Different physical qubits, one for each logical one. -/
structure Choice (k n : Nat) (physical : List Qubit) : Prop where
  length : physical.length = k
  nodup : physical.Nodup
  lt : ∀ p ∈ physical, p < n

/-- The physical qubits that are not listed, in ascending order. -/
def unlisted (n : Nat) (physical : List Qubit) : List Qubit :=
  (List.range n).filter fun p => !physical.contains p

/-- The qubits that are left complete a choice to all qubits. -/
theorem Choice.perm_range {k : Nat} (h : Choice k n physical) :
    (physical ++ unlisted n physical).Perm (List.range n) := by
  have hchosen : physical.Perm ((List.range n).filter fun p => physical.contains p) := by
    rw [List.perm_ext_iff_of_nodup h.nodup (List.nodup_range.filter _)]
    intro p
    simpa using h.lt p
  exact (hchosen.append_right _).trans (List.filter_append_perm _ _)

/-- Listing physical qubits places each logical qubit on the one of its number. -/
theorem physical?_ofPhysical (h : physical.Nodup) (q : Qubit) :
    (Layout.ofPhysical physical).physical? q = physical[q]? := by
  induction physical using List.reverseRecOn generalizing q with
  | nil => rfl
  | append_singleton ps p ih =>
    obtain ⟨hps, -, hdisjoint⟩ := List.nodup_append.mp h
    have hstep : Layout.ofPhysical (ps ++ [p]) = (Layout.ofPhysical ps).add ps.length p := by
      simp [Layout.ofPhysical, List.zipIdx_append]
    have hfree : (Layout.ofPhysical ps).physical? q ≠ some p := by
      rw [ih hps]
      exact fun hq => hdisjoint p (List.mem_of_getElem? hq) p (by simp) rfl
    rw [hstep, Layout.physical?_add (Layout.inverse_ofPhysical ps), if_neg hfree, ih hps]
    by_cases hq : q = ps.length
    · simp [hq]
    · rcases Nat.lt_or_gt_of_ne hq with hlt | hgt
      · rw [if_neg hq, List.getElem?_append_left hlt]
      · rw [if_neg hq, List.getElem?_eq_none hgt.le, List.getElem?_eq_none (by simpa using hgt)]


end Listed

end QuantumCompiler.Placement
