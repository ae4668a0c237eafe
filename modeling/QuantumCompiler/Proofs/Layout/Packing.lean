import Mathlib
import QuantumCompiler.Layout.Packing

/-!
# Packing is exact

A distribution puts every size into a part that has room for it. Which of several parts with equal room
takes a size does not matter for the rest, so trying the first one of them misses no distribution: the
search answers exactly when there is one. A choice that led nowhere is taken back in full, so where there
is none the search leaves everything as it was.
-/
namespace QuantumCompiler.Packing

/-- Every size goes into a part that has room for it. -/
def Distributes : List Nat → List Nat → List Nat → Prop
  | [], _, [] => True
  | size :: sizes, free, part :: parts =>
    (∃ room, free[part]? = some room ∧ size ≤ room) ∧
      Distributes sizes (take free part size) parts
  | _, _, _ => False

section Take

variable {free free' : List Nat} {part part' room size : Nat}

theorem getElem?_take (free : List Nat) (part size k : Nat) :
    (take free part size)[k]? = free[k]?.map fun room => if part = k then room - size else room := by
  rw [take, List.getElem?_modify]
  split <;> simp [*]

/-- Taking room from a part changes one of the rooms. -/
theorem take_perm (h : free[part]? = some room) (size : Nat) :
    (take free part size).Perm ((room - size) :: free.erase room) := by
  obtain ⟨hlt, rfl⟩ := List.getElem?_eq_some_iff.mp h
  rw [take, List.modify_eq_set_get _ hlt]
  exact (List.set_perm_cons_eraseIdx hlt _).trans (.cons _ (List.erase_getElem hlt).symm)

/-- What is left depends on the rooms alone, and not on the order of the parts. -/
theorem take_perm_take (hp : free.Perm free') (h : free[part]? = some room)
    (h' : free'[part']? = some room) (size : Nat) :
    (take free part size).Perm (take free' part' size) :=
  calc (take free part size).Perm ((room - size) :: free.erase room) := take_perm h size
    _ |>.Perm ((room - size) :: free'.erase room) := .cons _ (hp.erase room)
    _ |>.Perm (take free' part' size) := (take_perm h' size).symm

end Take

/-- Parts in another order allow a distribution as well. -/
theorem exists_distributes_of_perm {sizes free free' parts : List Nat} (hp : free.Perm free')
    (h : Distributes sizes free parts) : ∃ parts', Distributes sizes free' parts' := by
  induction sizes generalizing free free' parts with
  | nil => exact ⟨[], trivial⟩
  | cons size sizes ih =>
    cases parts with
    | nil => exact h.elim
    | cons part parts =>
      obtain ⟨⟨room, hroom, hle⟩, hrest⟩ := h
      obtain ⟨part', hpart'⟩ := List.mem_iff_getElem?.mp (hp.mem_iff.mp (List.mem_of_getElem? hroom))
      obtain ⟨parts', hparts'⟩ := ih (take_perm_take hp hroom hpart' size) hrest
      exact ⟨part' :: parts', ⟨room, hpart', hle⟩, hparts'⟩

/-! ## The search -/

/-- A search that leaves everything as it was where it finds no way. -/
def Restores (rest : State → Bool × State) : Prop := ∀ s, (rest s).1 = false → (rest s).2 = s

section TryParts

variable {rest : State → Bool × State} {size part : Nat} {tried parts : List Nat} {s s' : State}

theorem getElem?_free (hlt : part < s.free.length) : s.free[part]? = some (s.room part) := by
  rw [State.room, List.getD_eq_getElem _ _ hlt, List.getElem?_eq_getElem hlt]

theorem room_eq {room : Nat} (h : s.free[part]? = some room) : s.room part = room := by
  rw [State.room, List.getD_eq_getElem?_getD, h, Option.getD_some]

/-- Room that was taken is given back in full, since a size only goes where there is room for it. -/
theorem takeBack_place (hle : size ≤ s.room part) : (s.place size part).takeBack size part = s := by
  have hfree : give (take s.free part size) part size = s.free := by
    apply List.ext_getElem?
    intro k
    rw [give, List.getElem?_modify, getElem?_take]
    cases hk : s.free[k]? with
    | none => rfl
    | some room =>
      by_cases hp : part = k
      · subst hp
        rw [room_eq hk] at hle
        simp [Nat.sub_add_cancel hle]
      · simp [hp]
  rw [State.takeBack, State.place, hfree, List.dropLast_concat]

/-- What trying a part comes to: it is passed over, or the rest succeeds behind it, or the search goes on
as if it had not been tried, but for its room. -/
theorem tryParts_cons (hrest : Restores rest) (size part : Nat) (tried parts : List Nat) (s : State) :
    tryParts rest size tried (part :: parts) s =
      if s.room part < size ∨ s.room part ∈ tried then tryParts rest size tried parts s
      else if (rest (s.place size part)).1 = true then rest (s.place size part)
      else tryParts rest size (s.room part :: tried) parts s := by
  rw [tryParts]
  by_cases hskip : s.room part < size ∨ s.room part ∈ tried
  · rw [if_pos (by simpa using hskip), if_pos hskip]
  · rw [if_neg (by simpa using hskip), if_neg hskip]
    have hback := hrest (s.place size part)
    rcases hfound : rest (s.place size part) with ⟨found, left⟩
    rw [hfound] at hback
    cases found with
    | true => rfl
    | false =>
      obtain rfl : left = s.place size part := hback rfl
      show tryParts rest size _ parts ((s.place size part).takeBack size part) = _
      rw [takeBack_place (not_lt.mp fun hlt => hskip (.inl hlt))]
      rfl

theorem restores_tryParts (hrest : Restores rest) (size : Nat) (tried parts : List Nat) :
    Restores (tryParts rest size tried parts) := by
  intro s hfalse
  induction parts generalizing tried with
  | nil => rfl
  | cons part parts ih =>
    rw [tryParts_cons hrest] at hfalse ⊢
    split_ifs at hfalse ⊢ with hskip hfound
    · exact ih tried hfalse
    · exact absurd hfound (by simp [hfalse])
    · exact ih _ hfalse

/-- Where the search succeeds, the size has gone into a part with room for it. -/
theorem exists_of_tryParts (hrest : Restores rest)
    (h : tryParts rest size tried parts s = (true, s')) :
    ∃ part ∈ parts, size ≤ s.room part ∧ rest (s.place size part) = (true, s') := by
  induction parts generalizing tried with
  | nil => cases h
  | cons part parts ih =>
    rw [tryParts_cons hrest] at h
    split_ifs at h with hskip hfound
    · obtain ⟨p, hp, hplaced⟩ := ih h
      exact ⟨p, .tail _ hp, hplaced⟩
    · rw [not_or, not_lt] at hskip
      exact ⟨part, .head _, hskip.1, h⟩
    · obtain ⟨p, hp, hplaced⟩ := ih h
      exact ⟨p, .tail _ hp, hplaced⟩

/-- If parts with equal room are as good as each other, the search misses no part that would do. -/
theorem tryParts_of_mem (hrest : Restores rest)
    (hsame : ∀ p ∈ parts, ∀ q ∈ parts, s.room p = s.room q →
      (rest (s.place size p)).1 = true → (rest (s.place size q)).1 = true)
    (hpart : part ∈ parts) (hle : size ≤ s.room part) (htried : s.room part ∉ tried)
    (hfound : (rest (s.place size part)).1 = true) :
    (tryParts rest size tried parts s).1 = true := by
  induction parts generalizing tried with
  | nil => cases hpart
  | cons p parts ih =>
    have hsame' := fun a ha b hb => hsame a (.tail p ha) b (.tail p hb)
    rw [tryParts_cons hrest]
    split_ifs with hskip hp
    · refine ih hsame' ((List.mem_cons.mp hpart).resolve_left ?_) htried
      rintro rfl
      exact hskip.elim (not_lt.mpr hle) htried
    · exact hp
    · -- the first part led nowhere, so no part of its room is one that would do
      have hroom : s.room part ≠ s.room p := fun heq =>
        hp (hsame part hpart p (.head _) heq hfound)
      have hmem : part ∈ parts :=
        (List.mem_cons.mp hpart).resolve_left fun heq => hroom (congrArg s.room heq)
      exact ih hsame' hmem (List.not_mem_cons_of_ne_of_not_mem hroom htried)

end TryParts

/-- The room that sizes leave when they go into parts. -/
def remaining (free sizes parts : List Nat) : List Nat :=
  (sizes.zip parts).foldl (fun free x => take free x.2 x.1) free

section Pack

variable {sizes parts free left : List Nat} {s s' : State}

/-- Where the search finds no way it leaves everything as it was. -/
theorem restores_pack (sizes : List Nat) : Restores (pack sizes) := by
  induction sizes with
  | nil => exact fun s h => by cases h
  | cons size sizes ih => exact fun s => restores_tryParts ih size [] _ s

/-- What the search finds is a distribution, and its account is that of the distribution. -/
theorem distributes_of_pack (h : pack sizes s = (true, s')) :
    ∃ parts, Distributes sizes s.free parts ∧
      s' = ⟨remaining s.free sizes parts, s.parts ++ parts⟩ := by
  induction sizes generalizing s with
  | nil =>
    cases h
    exact ⟨[], trivial, by rw [List.append_nil]; rfl⟩
  | cons size sizes ih =>
    obtain ⟨part, hpart, hle, hrest⟩ := exists_of_tryParts (restores_pack sizes) h
    obtain ⟨parts, hparts, rfl⟩ := ih hrest
    refine ⟨part :: parts, ⟨⟨_, getElem?_free (List.mem_range.mp hpart), hle⟩, hparts⟩, ?_⟩
    rw [State.place, List.append_assoc, List.singleton_append]
    rfl

/-- The search finds a way exactly when there is a distribution. -/
theorem pack_eq_true_iff : (pack sizes s).1 = true ↔ ∃ parts, Distributes sizes s.free parts := by
  constructor
  · intro h
    obtain ⟨parts, hparts, -⟩ := distributes_of_pack (Prod.ext h rfl)
    exact ⟨parts, hparts⟩
  · intro h
    induction sizes generalizing s with
    | nil => rfl
    | cons size sizes ih =>
      obtain ⟨parts, h⟩ := h
      cases parts with
      | nil => exact h.elim
      | cons part parts =>
        obtain ⟨⟨room, hroom, hle⟩, hparts⟩ := h
        have hmem : part ∈ List.range s.free.length :=
          List.mem_range.mpr (List.getElem?_eq_some_iff.mp hroom).1
        refine tryParts_of_mem (restores_pack sizes) ?_ hmem (by rwa [room_eq hroom])
          List.not_mem_nil (ih ⟨parts, hparts⟩)
        -- taking a size from parts of equal room leaves the same rooms, in another order
        intro p hp q hq heq hfound
        obtain ⟨parts, hparts, -⟩ := distributes_of_pack (Prod.ext hfound rfl)
        have hp := getElem?_free (List.mem_range.mp hp)
        have hq := getElem?_free (List.mem_range.mp hq)
        exact ih (exists_distributes_of_perm (take_perm_take (.refl _) hp (heq ▸ hq) size) hparts)

theorem pack?_eq_some (h : pack? sizes free = some (parts, left)) :
    pack sizes ⟨free, []⟩ = (true, ⟨left, parts⟩) := by
  rw [pack?] at h
  split at h
  · rename_i heq
    cases h
    exact heq
  · cases h

/-- What the search finds is a distribution. -/
theorem distributes_of_pack? (h : pack? sizes free = some (parts, left)) :
    Distributes sizes free parts := by
  obtain ⟨parts', hparts, heq⟩ := distributes_of_pack (pack?_eq_some h)
  obtain ⟨-, rfl⟩ := State.mk.inj heq
  exact hparts

/-- Where there is a distribution the search finds one. -/
theorem exists_pack?_of_distributes (h : Distributes sizes free parts) :
    ∃ found, pack? sizes free = some found := by
  have hfound : (pack sizes ⟨free, []⟩).1 = true := pack_eq_true_iff.mpr ⟨parts, h⟩
  rw [pack?]
  split
  · exact ⟨_, rfl⟩
  · rename_i heq
    rw [heq] at hfound
    cases hfound

end Pack

/-! ## Loads -/

/-- How much goes into a part. -/
def load (sizes parts : List Nat) (part : Nat) : Nat :=
  ((sizes.zip parts).filter (·.2 == part)).map (·.1) |>.sum

theorem load_cons (size p : Nat) (sizes parts : List Nat) (part : Nat) :
    load (size :: sizes) (p :: parts) part =
      (if p = part then size else 0) + load sizes parts part := by
  rw [load, load, List.zip_cons_cons, List.filter_cons]
  by_cases hp : p = part <;> simp [hp]

/-- Parts that are not overloaded are a distribution. -/
theorem distributes_of_load {sizes free parts : List Nat} (hlen : sizes.length = parts.length)
    (hparts : ∀ part ∈ parts, part < free.length)
    (hload : ∀ part room, free[part]? = some room → load sizes parts part ≤ room) :
    Distributes sizes free parts := by
  induction sizes generalizing free parts with
  | nil =>
    obtain rfl := List.length_eq_zero_iff.mp hlen.symm
    trivial
  | cons size sizes ih =>
    cases parts with
    | nil => cases hlen
    | cons p parts =>
      obtain ⟨room, hp⟩ : ∃ room, free[p]? = some room :=
        ⟨_, List.getElem?_eq_getElem (hparts p (by simp))⟩
      have hfits := hload p room hp
      rw [load_cons, if_pos rfl] at hfits
      refine ⟨⟨_, hp, by omega⟩, ih (by simpa using hlen) ?_ ?_⟩
      · intro part hpart
        simpa [take] using hparts part (by simp [hpart])
      · intro part left hleft
        rw [getElem?_take] at hleft
        obtain ⟨old, hold, rfl⟩ := Option.map_eq_some_iff.mp hleft
        have hle := hload part old hold
        rw [load_cons] at hle
        by_cases hpart : p = part
        · rw [if_pos hpart] at hle ⊢
          omega
        · rw [if_neg hpart] at hle ⊢
          omega

/-- Sizes leave of each room what is not loaded into it. -/
theorem getElem?_remaining (free sizes parts : List Nat) (k : Nat) :
    (remaining free sizes parts)[k]? = free[k]?.map (· - load sizes parts k) := by
  induction sizes generalizing free parts with
  | nil => simp [remaining, load]
  | cons size sizes ih =>
    cases parts with
    | nil => simp [remaining, load]
    | cons p parts =>
      have hstep : remaining free (size :: sizes) (p :: parts) =
          remaining (take free p size) sizes parts := rfl
      rw [hstep, ih, getElem?_take, Option.map_map, load_cons]
      congr 1
      funext room
      by_cases hp : p = k
      · simp [hp, Nat.sub_sub]
      · simp [hp]

/-- A distribution overloads no part. -/
theorem load_of_distributes {sizes free parts : List Nat} (h : Distributes sizes free parts) :
    parts.length = sizes.length ∧ (∀ part ∈ parts, part < free.length) ∧
      ∀ part room, free[part]? = some room → load sizes parts part ≤ room := by
  induction sizes generalizing free parts with
  | nil =>
    cases parts with
    | nil => simp [load]
    | cons part parts => exact h.elim
  | cons size sizes ih =>
    cases parts with
    | nil => exact h.elim
    | cons p parts =>
      obtain ⟨⟨room, hp, hfits⟩, hrest⟩ := h
      obtain ⟨hlen, hparts, hload⟩ := ih hrest
      rw [take, List.length_modify] at hparts
      refine ⟨by simp [hlen], ?_, ?_⟩
      · exact List.forall_mem_cons.mpr ⟨(List.getElem?_eq_some_iff.mp hp).1, hparts⟩
      · intro part left hleft
        have hle := hload part (if p = part then left - size else left) (by rw [getElem?_take, hleft]; rfl)
        rw [load_cons]
        by_cases hpart : p = part
        · subst hpart
          obtain rfl : left = room := Option.some.inj (hleft.symm.trans hp)
          rw [if_pos rfl] at hle ⊢
          omega
        · rw [if_neg hpart] at hle ⊢
          omega

/-! ## Maps of sizes to parts -/

/-- How much a map sends into a part. -/
def total {n : Nat} (sizes : List Nat) (place : Fin sizes.length → Fin n) (part : Fin n) : Nat :=
  ∑ i with place i = part, sizes[i]

/-- A map of sizes to parts that sends no more into a part than it holds. -/
def Fits (sizes free : List Nat) (place : Fin sizes.length → Fin free.length) : Prop :=
  ∀ part, total sizes place part ≤ free[part]

/-- The parts of the sizes, in order. -/
def listed {n : Nat} {sizes : List Nat} (place : Fin sizes.length → Fin n) : List Nat :=
  List.ofFn fun i => (place i).val

theorem load_eq_sum {sizes parts : List Nat} (hlen : parts.length = sizes.length) (part : Nat) :
    load sizes parts part = ∑ i : Fin sizes.length, if parts[i]? = some part then sizes[i] else 0 := by
  induction sizes generalizing parts with
  | nil => simp [load]
  | cons size sizes ih =>
    cases parts with
    | nil => cases hlen
    | cons p parts =>
      rw [load_cons, ih (Nat.succ.inj hlen)]
      refine Eq.trans ?_ (Fin.sum_univ_succ (n := sizes.length) _).symm
      simp

theorem load_listed {n : Nat} {sizes : List Nat} (place : Fin sizes.length → Fin n) (part : Fin n) :
    load sizes (listed place) part = total sizes place part := by
  rw [load_eq_sum (by simp [listed]), total, Finset.sum_filter]
  refine Finset.sum_congr rfl fun i _ => ?_
  simp [listed, Fin.ext_iff]

/-- A distribution is a map that fits, listed. -/
theorem distributes_iff_exists_fits {sizes free parts : List Nat} :
    Distributes sizes free parts ↔ ∃ place, Fits sizes free place ∧ parts = listed place := by
  constructor
  · intro h
    obtain ⟨hlen, hparts, hload⟩ := load_of_distributes h
    let place (i : Fin sizes.length) : Fin free.length :=
      ⟨parts[i], hparts _ (List.getElem_mem (i.isLt.trans_eq hlen.symm))⟩
    have hlisted : parts = listed place := List.ext_getElem (by simp [listed, hlen]) (by simp [listed, place])
    refine ⟨place, fun part => ?_, hlisted⟩
    rw [← load_listed, ← hlisted]
    exact hload part free[part] (List.getElem?_eq_getElem part.isLt)
  · rintro ⟨place, hfits, rfl⟩
    refine distributes_of_load (by simp [listed]) (by simp [listed]) fun part room hroom => ?_
    obtain ⟨hlt, rfl⟩ := List.getElem?_eq_some_iff.mp hroom
    exact (load_listed place ⟨part, hlt⟩).trans_le (hfits ⟨part, hlt⟩)

theorem remaining_listed {sizes free : List Nat} (place : Fin sizes.length → Fin free.length) :
    remaining free sizes (listed place) =
      List.ofFn fun part => free[part] - total sizes place part := by
  apply List.ext_getElem?
  intro k
  rw [getElem?_remaining, List.getElem?_ofFn]
  by_cases hk : k < free.length
  · rw [dif_pos hk, List.getElem?_eq_getElem hk, Option.map_some, load_listed place ⟨k, hk⟩]
    rfl
  · rw [dif_neg hk, List.getElem?_eq_none (not_lt.mp hk), Option.map_none]

/-- The search is exact. It finds a way exactly when some map sends no more into any part than it holds.
Then its account is that of such a map: the part of each size, and of each room what the map leaves of it.
Otherwise its account is the one it began with. -/
theorem pack_exact (sizes free : List Nat) :
    ((pack sizes ⟨free, []⟩).1 = true ↔ ∃ place, Fits sizes free place) ∧
    (∀ s, pack sizes ⟨free, []⟩ = (true, s) → ∃ place, Fits sizes free place ∧
      s = ⟨List.ofFn fun part => free[part] - total sizes place part, listed place⟩) ∧
    (∀ s, pack sizes ⟨free, []⟩ = (false, s) → s = ⟨free, []⟩) := by
  refine ⟨?_, fun s h => ?_, fun s h => ?_⟩
  · rw [pack_eq_true_iff]
    constructor
    · rintro ⟨parts, hparts⟩
      obtain ⟨place, hfits, -⟩ := distributes_iff_exists_fits.mp hparts
      exact ⟨place, hfits⟩
    · rintro ⟨place, hfits⟩
      exact ⟨listed place, distributes_iff_exists_fits.mpr ⟨place, hfits, rfl⟩⟩
  · obtain ⟨parts, hparts, rfl⟩ := distributes_of_pack h
    obtain ⟨place, hfits, rfl⟩ := distributes_iff_exists_fits.mp hparts
    exact ⟨place, hfits, by rw [remaining_listed, List.nil_append]⟩
  · have hback := restores_pack sizes ⟨free, []⟩
    rw [h] at hback
    exact hback rfl

/-- Filling the first part with the two largest sizes would strand a pair. -/
theorem pack_exact_stranded :
    pack [3, 3, 2, 2, 2] ⟨[7, 5], []⟩ = (true, ⟨[0, 0], [0, 1, 0, 0, 1]⟩) ∧
    ∃ place, Fits [3, 3, 2, 2, 2] [7, 5] place ∧ listed place = [0, 1, 0, 0, 1] := by
  have h : pack [3, 3, 2, 2, 2] ⟨[7, 5], []⟩ = (true, ⟨[0, 0], [0, 1, 0, 0, 1]⟩) := by decide
  obtain ⟨place, hfits, heq⟩ := (pack_exact [3, 3, 2, 2, 2] [7, 5]).2.1 _ h
  exact ⟨h, place, hfits, (State.mk.inj heq).2.symm⟩

end QuantumCompiler.Packing
