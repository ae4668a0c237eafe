import Mathlib
import QuantumCompiler.Classes

/-!
# Labels and connection

Two qubits have equal labels exactly when pairs connect them, in any number of steps and in either
direction.
-/
namespace QuantumCompiler.Classes

/-- Pairs connect two qubits. -/
def Connected (pairs : List (Nat × Nat)) : Nat → Nat → Prop :=
  Relation.EqvGen fun a b => (a, b) ∈ pairs

namespace Connected

variable {pairs : List (Nat × Nat)} {a b c : Nat}

theorem symm (h : Connected pairs a b) : Connected pairs b a := Relation.EqvGen.symm a b h

theorem trans (h : Connected pairs a b) (g : Connected pairs b c) : Connected pairs a c :=
  Relation.EqvGen.trans a b c h g

theorem mono {more : List (Nat × Nat)} (hs : pairs ⊆ more) (h : Connected pairs a b) :
    Connected more a b := by
  induction h with
  | rel a b hab => exact .rel a b (hs hab)
  | refl a => exact .refl a
  | symm a b _ ih => exact ih.symm
  | trans a b c _ _ ih jh => exact ih.trans jh

end Connected

/-- Labels tell which qubits some pairs connect. -/
structure Separates (labels : Array Nat) (pairs : List (Nat × Nat)) : Prop where
  joined : ∀ p ∈ pairs, labels[p.1]? = labels[p.2]?
  connects : ∀ u v l, labels[u]? = some l → labels[v]? = some l → Connected pairs u v

theorem size_merge (labels : Array Nat) (a b : Nat) : (merge labels a b).size = labels.size := by
  unfold merge
  split
  · split <;> simp
  · rfl

/-- The label after a merge depends on the label before it alone. -/
theorem getElem?_merge {labels : Array Nat} {a b x y : Nat} (ha : labels[a]? = some x)
    (hb : labels[b]? = some y) (u : Nat) :
    (merge labels a b)[u]? = labels[u]?.map fun z => if z = y then x else z := by
  simp only [merge, ha, hb]
  by_cases hxy : x = y
  · subst hxy
    have hid (z : Nat) : (if z = x then x else z) = z := by
      by_cases hz : z = x <;> simp [hz]
    simp [hid]
  · simp [hxy]

theorem separates_singletons (n : Nat) : Separates (singletons n) [] := by
  refine ⟨by simp, ?_⟩
  intro u v l hu hv
  obtain ⟨-, rfl⟩ : u < n ∧ u = l := by simpa [singletons, Array.getElem?_eq_some_iff] using hu
  obtain ⟨-, rfl⟩ : v < n ∧ v = u := by simpa [singletons, Array.getElem?_eq_some_iff] using hv
  exact .refl v

/-- A merge connects the classes of its two qubits and no others. -/
theorem separates_merge {labels : Array Nat} {pairs : List (Nat × Nat)}
    (h : Separates labels pairs) {a b : Nat} (ha : a < labels.size) (hb : b < labels.size) :
    Separates (merge labels a b) (pairs ++ [(a, b)]) := by
  have hla : labels[a]? = some labels[a] := Array.getElem?_eq_getElem ha
  have hlb : labels[b]? = some labels[b] := Array.getElem?_eq_getElem hb
  have hab : Connected (pairs ++ [(a, b)]) a b := .rel a b (by simp)
  have hold {w k l : Nat} (hw : labels[w]? = some l) (hk : labels[k]? = some l) :
      Connected (pairs ++ [(a, b)]) w k :=
    (h.connects w k l hw hk).mono (List.subset_append_left _ _)
  constructor
  · intro p hp
    rw [getElem?_merge hla hlb, getElem?_merge hla hlb]
    rcases List.mem_append.mp hp with hp | hp
    · rw [h.joined p hp]
    · rw [List.mem_singleton.mp hp, hla, hlb]
      simp
  · intro u v l hu hv
    rw [getElem?_merge hla hlb, Option.map_eq_some_iff] at hu hv
    obtain ⟨x, hu, hx⟩ := hu
    obtain ⟨y, hv, rfl⟩ := hv
    by_cases huy : x = labels[b] <;> by_cases hvy : y = labels[b]
    · exact hold hu (by rw [hv, hvy, huy])
    · rw [if_pos huy, if_neg hvy] at hx
      exact ((hold hu (huy ▸ hlb)).trans hab.symm).trans (hold hla (hx ▸ hv))
    · rw [if_neg huy, if_pos hvy] at hx
      exact ((hold hu (hx ▸ hla)).trans hab).trans (hold hlb (hvy ▸ hv))
    · rw [if_neg huy, if_neg hvy] at hx
      exact hold hu (hx ▸ hv)

theorem separates_foldl (pairs : List (Nat × Nat)) {labels : Array Nat} {done : List (Nat × Nat)}
    (h : Separates labels done) (hp : ∀ p ∈ pairs, p.1 < labels.size ∧ p.2 < labels.size) :
    Separates (pairs.foldl (fun labels (a, b) => merge labels a b) labels) (done ++ pairs) ∧
      (pairs.foldl (fun labels (a, b) => merge labels a b) labels).size = labels.size := by
  induction pairs generalizing labels done with
  | nil => exact ⟨by simpa using h, rfl⟩
  | cons p pairs ih =>
    obtain ⟨ha, hb⟩ := hp p (by simp)
    obtain ⟨hs, hsize⟩ := ih (separates_merge h ha hb)
      (fun q hq => by simpa only [size_merge] using hp q (by simp [hq]))
    rw [size_merge] at hsize
    exact ⟨by simpa using hs, hsize⟩

/-- Joining pairs gives equal labels to what they connect. -/
theorem separates_ofPairs {n : Nat} {pairs : List (Nat × Nat)}
    (hp : ∀ p ∈ pairs, p.1 < n ∧ p.2 < n) :
    Separates (ofPairs n pairs) pairs ∧ (ofPairs n pairs).size = n := by
  have hsize : (singletons n).size = n := by simp [singletons]
  obtain ⟨hs, hz⟩ := separates_foldl pairs (separates_singletons n) (by simpa only [hsize] using hp)
  exact ⟨hs, hz.trans hsize⟩

theorem getElem?_renumber (labels : Array Nat) (u : Nat) : (renumber labels)[u]? =
    labels[u]?.map fun l => labels.toList.eraseDups.idxOf l := by
  simp [renumber]

/-- Renaming labels keeps their classes. -/
theorem separates_renumber {labels : Array Nat} {pairs : List (Nat × Nat)}
    (h : Separates labels pairs) : Separates (renumber labels) pairs := by
  constructor
  · intro p hp
    rw [getElem?_renumber, getElem?_renumber, h.joined p hp]
  · intro u v l hu hv
    rw [getElem?_renumber, Option.map_eq_some_iff] at hu hv
    obtain ⟨x, hu, hx⟩ := hu
    obtain ⟨y, hv, hy⟩ := hv
    have hxm : x ∈ labels.toList.eraseDups := by
      rw [List.mem_eraseDups, Array.mem_toList_iff]
      exact Array.mem_of_getElem? hu
    obtain rfl : x = y := (List.idxOf_inj hxm).mp (hx.trans hy.symm)
    exact h.connects u v x hu hv

/-! ## The order of the numbers -/

/-- Labels are met in the order of their first places. -/
theorem pairwise_eraseDups (xs : List Nat) :
    xs.eraseDups.Pairwise fun l m => xs.idxOf l < xs.idxOf m := by
  induction xs using List.reverseRecOn with
  | nil => exact .nil
  | append_singleton xs a ih =>
    rw [List.eraseDups_append, List.pairwise_append]
    refine ⟨ih.imp_of_mem fun hl hm hlm => ?_, ?_, ?_⟩
    · rw [List.mem_eraseDups] at hl hm
      rwa [List.idxOf_append_of_mem hl, List.idxOf_append_of_mem hm]
    · by_cases ha : a ∈ xs <;> simp [List.removeAll, ha, List.eraseDups_cons]
    · intro l hl m hm
      rw [List.mem_eraseDups] at hl hm
      obtain ⟨hma, hnew⟩ : m = a ∧ m ∉ xs := by simpa [List.removeAll] using hm
      subst hma
      rw [List.idxOf_append_of_mem hl, List.idxOf_append_of_notMem hnew]
      exact Nat.lt_add_right _ (List.idxOf_lt_length_iff.mpr hl)

/-- The numbers are those below the number of different labels. -/
theorem exists_renumber_iff {labels : Array Nat} {c : Nat} :
    (∃ u : Nat, (renumber labels)[u]? = some c) ↔ c < labels.toList.eraseDups.length := by
  constructor
  · rintro ⟨u, hu⟩
    rw [getElem?_renumber, Option.map_eq_some_iff] at hu
    obtain ⟨l, hl, rfl⟩ := hu
    rw [List.idxOf_lt_length_iff, List.mem_eraseDups, Array.mem_toList_iff]
    exact Array.mem_of_getElem? hl
  · intro hc
    have hmem : labels.toList.eraseDups[c] ∈ labels.toList :=
      List.mem_eraseDups.mp (List.getElem_mem hc)
    obtain ⟨u, hu, hl⟩ := List.getElem_of_mem hmem
    have hnodup : labels.toList.eraseDups.Nodup :=
      (pairwise_eraseDups labels.toList).imp fun h he => by simp [he] at h
    refine ⟨u, ?_⟩
    rw [getElem?_renumber, ← Array.getElem?_toList, List.getElem?_eq_getElem hu, hl,
      Option.map_some, hnodup.idxOf_getElem c hc]

/-- A label is met at the least qubit with its number. -/
theorem exists_idxOf_of_isLeast {labels : Array Nat} {c u : Nat}
    (hu : IsLeast {u | (renumber labels)[u]? = some c} u) :
    ∃ l ∈ labels.toList.eraseDups, labels.toList.eraseDups.idxOf l = c ∧
      labels.toList.idxOf l = u := by
  have hget : (renumber labels)[u]? = some c := hu.1
  rw [getElem?_renumber, Option.map_eq_some_iff] at hget
  obtain ⟨l, hl, hc⟩ := hget
  rw [← Array.getElem?_toList] at hl
  have hmem : l ∈ labels.toList := List.mem_of_getElem? hl
  refine ⟨l, List.mem_eraseDups.mpr hmem, hc, le_antisymm ?_ (hu.2 ?_)⟩
  · rw [← Nat.lt_succ_iff, ← List.mem_take_iff_idxOf_lt hmem]
    exact List.mem_of_getElem? ((List.getElem?_take_of_lt u.lt_succ_self).trans hl)
  · change (renumber labels)[_]? = some c
    rw [getElem?_renumber, ← Array.getElem?_toList, List.getElem?_idxOf hmem, Option.map_some, hc]

/-- Numbers ascend with the least qubits of their classes. -/
theorem renumber_lt_iff {labels : Array Nat} {c e u v : Nat}
    (hu : IsLeast {u | (renumber labels)[u]? = some c} u)
    (hv : IsLeast {u | (renumber labels)[u]? = some e} v) : c < e ↔ u < v := by
  obtain ⟨l, hl, rfl, rfl⟩ := exists_idxOf_of_isLeast hu
  obtain ⟨m, hm, rfl, rfl⟩ := exists_idxOf_of_isLeast hv
  have hmono {x y : Nat} (hx : x ∈ labels.toList.eraseDups) (hy : y ∈ labels.toList.eraseDups)
      (h : labels.toList.eraseDups.idxOf x < labels.toList.eraseDups.idxOf y) :
      labels.toList.idxOf x < labels.toList.idxOf y := by
    have hlt := List.pairwise_iff_getElem.mp (pairwise_eraseDups labels.toList) _ _
      (List.idxOf_lt_length_iff.mpr hx) (List.idxOf_lt_length_iff.mpr hy) h
    rwa [List.getElem_idxOf, List.getElem_idxOf] at hlt
  constructor
  · exact hmono hl hm
  · intro h
    rcases Nat.lt_trichotomy (labels.toList.eraseDups.idxOf l)
      (labels.toList.eraseDups.idxOf m) with hlt | he | hgt
    · exact hlt
    · rw [(List.idxOf_inj hl).mp he] at h
      exact absurd h (Nat.lt_irrefl _)
    · exact absurd (hmono hm hl hgt) (Nat.lt_asymm h)

end QuantumCompiler.Classes
