import QuantumCompiler.Proofs.Layout.Packing
import QuantumCompiler.Proofs.Layout.Parts

/-!
# Placing groups

Groups take qubits from the runs of their parts and the other qubits fill what is left. No physical
qubit is lost or used twice on the way: those that were handed out and those that are left are always
the ones that there were.
-/
namespace QuantumCompiler.Layout

/-! ## Handing out -/

section Lists

variable {α : Type}

/-- A gap that is filled adds one value. -/
theorem perm_filterMap_set {l : List (Option α)} {i : Nat} (h : l[i]? = some none) (a : α) :
    ((l.set i (some a)).filterMap id).Perm (a :: l.filterMap id) := by
  induction l generalizing i with
  | nil => cases h
  | cons x l ih =>
    cases i with
    | zero =>
      obtain rfl : x = none := by simpa using h
      simp
    | succ i =>
      have ih := ih (i := i) (by simpa using h)
      cases x with
      | none => simpa using ih
      | some b =>
        simp only [List.set_cons_succ, List.filterMap_cons, id]
        exact (ih.cons b).trans (.swap a b _)

/-- What is taken from the front of a list and what is left are what there was. -/
theorem perm_flatten_set {ls : List (List α)} {i : Nat} {l : List α} (h : ls[i]? = some l)
    (k : Nat) : (l.take k ++ (ls.set i (l.drop k)).flatten).Perm ls.flatten := by
  obtain ⟨hlt, rfl⟩ := List.getElem?_eq_some_iff.mp h
  have hset := (List.set_perm_cons_eraseIdx hlt (ls[i].drop k)).flatten
  have hsplit := (List.getElem_cons_eraseIdx_perm hlt).flatten
  rw [List.flatten_cons] at hset hsplit
  refine (hset.append_left _).trans ?_
  rwa [← List.append_assoc, List.take_append_drop]

end Lists

/-- What handing out the qubits of a run to a group does to the places. -/
structure HandsOut (group run : List Qubit) (places places' : Array (Option Qubit)) : Prop where
  size : places'.size = places.size
  perm : (places'.toList.filterMap id).Perm
    (run.take group.length ++ places.toList.filterMap id)
  inside : ∀ q ∈ group, ∃ p ∈ run, places'[q]? = some (some p)
  outside : ∀ q, q ∉ group → places'[q]? = places[q]?

theorem handsOut (group run : List Qubit) {places : Array (Option Qubit)}
    (hlen : group.length ≤ run.length) (hn : group.Nodup)
    (hnone : ∀ q ∈ group, places[q]? = some none) :
    HandsOut group run places
      ((group.zip run).foldl (fun ps (q, p) => ps.setIfInBounds q (some p)) places) := by
  induction group generalizing run places with
  | nil => exact ⟨rfl, by simp, by simp, fun _ _ => rfl⟩
  | cons q group ih =>
    cases run with
    | nil => cases hlen
    | cons p run =>
      obtain ⟨hq, hn⟩ := List.nodup_cons.mp hn
      have hgap := hnone q (by simp)
      have hlt := (Array.getElem?_eq_some_iff.mp hgap).1
      rw [List.zip_cons_cons, List.foldl_cons]
      have hothers : ∀ r ∈ group, (places.setIfInBounds q (some p))[r]? = some none := by
        intro r hr
        have hne : q ≠ r := fun he => hq (he ▸ hr)
        rw [Array.getElem?_setIfInBounds_ne hne]
        exact hnone r (by simp [hr])
      obtain ⟨hsize, hperm, hin, hout⟩ := ih run (by simpa using hlen) hn hothers
      have hself : (places.setIfInBounds q (some p))[q]? = some (some p) := by
        simp [hlt]
      refine ⟨by simpa using hsize, ?_, ?_, ?_⟩
      · have hset := perm_filterMap_set (l := places.toList) (i := q) (by simpa using hgap) p
        rw [Array.toList_setIfInBounds] at hperm
        exact hperm.trans ((hset.append_left _).trans List.perm_middle)
      · intro r hr
        rcases List.mem_cons.mp hr with rfl | hr
        · exact ⟨p, by simp, (hout r hq).trans hself⟩
        · obtain ⟨x, hx, he⟩ := hin r hr
          exact ⟨x, .tail _ hx, he⟩
      · intro r hr
        obtain ⟨hne, hr⟩ := not_or.mp (mt List.mem_cons.mpr hr)
        rw [hout r hr, Array.getElem?_setIfInBounds_ne (Ne.symm hne)]

/-! ## Groups -/

variable {R : Type} {device : Device R} {runs : List (List Qubit)} {n : Nat}
  {done : List (List Qubit)} {state : Array (Option Qubit) × List (List Qubit)}

/-- The groups that are done have places, each group in one part. -/
structure Placed (device : Device R) (runs : List (List Qubit)) (n : Nat)
    (done : List (List Qubit)) (state : Array (Option Qubit) × List (List Qubit)) : Prop where
  size : state.1.size = n
  perm : (state.1.toList.filterMap id ++ state.2.flatten).Perm runs.flatten
  within : ∀ (part : Nat) (run : List Qubit), state.2[part]? = some run →
    ∀ p ∈ run, device.component? p = some part
  unplaced : ∀ q < n, q ∉ done.flatten → state.1[q]? = some none
  together : ∀ group ∈ done, ∃ part, ∀ q ∈ group, ∃ p, state.1[q]? = some (some p) ∧
    device.component? p = some part

theorem placeGroup_eq {group run : List Qubit} {part : Nat} (hrun : state.2[part]? = some run) :
    placeGroup state group part =
      ((group.zip run).foldl (fun ps (q, p) => ps.setIfInBounds q (some p)) state.1,
        state.2.set part (run.drop group.length)) := by
  obtain ⟨places, parts⟩ := state
  have hget : parts.getD part [] = run := by
    rw [List.getD_eq_getElem?_getD, hrun]
    rfl
  rw [placeGroup, hget]

/-- The part has as much less room as the group has qubits. -/
theorem rooms_placeGroup {group run : List Qubit} {part : Nat} (hrun : state.2[part]? = some run) :
    (placeGroup state group part).2.map List.length =
      Packing.take (state.2.map List.length) part group.length := by
  rw [placeGroup_eq hrun]
  apply List.ext_getElem?
  intro k
  rw [List.map_set, List.getElem?_set, Packing.getElem?_take, List.length_map]
  by_cases hk : part = k
  · subst hk
    have hmap : (state.2.map List.length)[part]? = some run.length := by
      rw [List.getElem?_map, hrun]
      rfl
    rw [if_pos rfl, if_pos (List.getElem?_eq_some_iff.mp hrun).1, hmap]
    simp
  · cases (state.2.map List.length)[k]? <;> simp [hk]

/-- A group goes to one part and takes the first qubits of its run. -/
theorem Placed.placeGroup (h : Placed device runs n done state) {group run : List Qubit}
    (hn : group.Nodup) (hlt : ∀ q ∈ group, q < n) (hnew : ∀ q ∈ group, q ∉ done.flatten)
    {part : Nat} (hrun : state.2[part]? = some run) (hle : group.length ≤ run.length) :
    Placed device runs n (done ++ [group]) (placeGroup state group part) := by
  have hout := handsOut group run hle hn fun q hq => h.unplaced q (hlt q hq) (hnew q hq)
  rw [placeGroup_eq hrun]
  obtain ⟨places, parts⟩ := state
  generalize (group.zip run).foldl _ _ = places' at hout
  refine ⟨hout.size.trans h.size, ?_, ?_, ?_, ?_⟩
  · -- what the group takes is what the run loses
    have htaken := perm_flatten_set hrun group.length
    calc (places'.toList.filterMap id ++ (parts.set part (run.drop group.length)).flatten).Perm
          ((places.toList.filterMap id ++ run.take group.length) ++
            (parts.set part (run.drop group.length)).flatten) :=
          (hout.perm.trans List.perm_append_comm).append_right _
      _ |>.Perm (places.toList.filterMap id ++ parts.flatten) := by
          rw [List.append_assoc]
          exact htaken.append_left _
      _ |>.Perm runs.flatten := h.perm
  · intro k run' hk p hp
    rw [List.getElem?_set] at hk
    split at hk
    · rename_i heq
      split at hk
      · obtain rfl := Option.some.inj hk
        exact heq ▸ h.within part run hrun p (List.mem_of_mem_drop hp)
      · cases hk
    · exact h.within k run' hk p hp
  · intro q hq hqd
    rw [List.flatten_append, List.mem_append, not_or] at hqd
    rw [hout.outside q (by simpa using hqd.2)]
    exact h.unplaced q hq hqd.1
  · intro g hg
    rcases List.mem_append.mp hg with hg | hg
    · obtain ⟨k, hk⟩ := h.together g hg
      refine ⟨k, fun q hq => ?_⟩
      have hqg : q ∉ group := fun hqg => hnew q hqg (List.mem_flatten.mpr ⟨g, hg, hq⟩)
      rw [hout.outside q hqg]
      exact hk q hq
    · obtain rfl := List.mem_singleton.mp hg
      refine ⟨part, fun q hq => ?_⟩
      obtain ⟨p, hp, he⟩ := hout.inside q hq
      exact ⟨p, he, h.within part run hrun p hp⟩

/-- Groups that are distributed over parts with room for them all get places. -/
theorem Placed.placeGroups (groups : List (List Qubit)) {assignment : List Nat}
    (h : Placed device runs n done state)
    (hfit : Packing.Distributes (groups.map List.length) (state.2.map List.length) assignment)
    (hlt : ∀ q ∈ groups.flatten, q < n) (hn : (done ++ groups).flatten.Nodup) :
    Placed device runs n (done ++ groups) ((groups.zip assignment).foldl
      (fun state (group, part) => Layout.placeGroup state group part) state) := by
  induction groups generalizing done state assignment with
  | nil => simpa using h
  | cons group groups ih =>
    cases assignment with
    | nil => exact hfit.elim
    | cons part assignment =>
      obtain ⟨⟨room, hroom, hle⟩, hrest⟩ := hfit
      rw [List.getElem?_map] at hroom
      obtain ⟨run, hrun, rfl⟩ := Option.map_eq_some_iff.mp hroom
      have hsplit : done ++ group :: groups = (done ++ [group]) ++ groups := by simp
      have hparts : done.flatten ++ (group ++ groups.flatten) = (done ++ group :: groups).flatten := by
        simp
      obtain ⟨-, hgroup, hdisjoint⟩ := List.nodup_append.mp (hparts ▸ hn)
      have hstep := h.placeGroup (List.nodup_append.mp hgroup).1
        (fun q hq => hlt q (by simp [hq]))
        (fun q hq hd => hdisjoint q hd q (List.mem_append_left _ hq) rfl) hrun hle
      rw [hsplit] at hn ⊢
      exact ih hstep (rooms_placeGroup hrun ▸ hrest)
        (fun q hq => hlt q (by rw [List.flatten_cons]; exact List.mem_append_right _ hq)) hn

/-! ## Filling the gaps -/

/-- Enough spare qubits fill all gaps, and what had a place keeps it. -/
theorem exists_fillPlaces (places : List (Option Qubit)) (spare : List Qubit)
    (h : places.length ≤ (places.filterMap id).length + spare.length) :
    ∃ physical, fillPlaces places spare = some physical ∧ physical.length = places.length ∧
      (∃ rest, (physical ++ rest).Perm (places.filterMap id ++ spare)) ∧
      ∀ (q p : Qubit), places[q]? = some (some p) → physical[q]? = some p := by
  induction places generalizing spare with
  | nil => exact ⟨[], rfl, rfl, ⟨spare, .refl _⟩, by simp⟩
  | cons x places ih =>
    cases x with
    | some p =>
      rw [List.filterMap_cons_some (f := id) rfl, List.length_cons, List.length_cons] at h
      obtain ⟨physical, hfill, hlen, ⟨rest, hperm⟩, hkeep⟩ := ih spare (by omega)
      refine ⟨p :: physical, by rw [fillPlaces, hfill]; rfl, by simp [hlen],
        ⟨rest, by simpa using hperm⟩, ?_⟩
      intro q r hq
      cases q with
      | zero => simpa using hq
      | succ q => exact hkeep q r (by simpa using hq)
    | none =>
      rw [List.filterMap_cons_none (f := id) rfl, List.length_cons] at h
      cases spare with
      | nil =>
        have hle := List.length_filterMap_le id places
        rw [List.length_nil] at h
        omega
      | cons p spare =>
        rw [List.length_cons] at h
        obtain ⟨physical, hfill, hlen, ⟨rest, hperm⟩, hkeep⟩ := ih spare (by omega)
        refine ⟨p :: physical, by rw [fillPlaces, hfill]; rfl, by simp [hlen], ⟨rest, ?_⟩, ?_⟩
        · exact (hperm.cons p).trans List.perm_middle.symm
        · intro q r hq
          cases q with
          | zero => cases hq
          | succ q => exact hkeep q r (by simpa using hq)

end QuantumCompiler.Layout
