import QuantumCompiler.Layout.Basic
import QuantumCompiler.Proofs.Outcome

/-!
# Layouts as partial bijections

A layout keeps two maps that are written one after the other, and no check compares them. They stay
inverse to each other all the same: placing a qubit first forgets what would contradict it in either
map, and a swap writes both occupants to their new places, whether there are any or not.
-/
namespace QuantumCompiler

namespace QubitMap

variable {m n : QubitMap} {k x v y : Qubit}

theorem mem_entries : (k, v) ∈ m.entries ↔ m.get? k = some v := by
  rw [get?, Option.map_eq_some_iff]
  constructor
  · intro h
    refine ⟨(k, v), ?_, rfl⟩
    obtain ⟨before, after, hsplit⟩ := List.append_of_mem h
    have hasc := m.ascending
    rw [hsplit, List.pairwise_append] at hasc
    rw [hsplit, List.find?_eq_some_iff_append]
    refine ⟨by simp, before, after, rfl, fun e he => ?_⟩
    have hlt : e.1 < k := hasc.2.2 e he (k, v) (by simp)
    simpa using hlt.ne
  · rintro ⟨e, he, rfl⟩
    obtain rfl : e.1 = k := by simpa using List.find?_some he
    exact List.mem_of_find?_eq_some he

theorem nodup_entries (m : QubitMap) : m.entries.Nodup :=
  m.ascending.imp fun hlt he => hlt.ne (congrArg Prod.fst he)

/-- Maps that look up alike are equal. -/
theorem ext_get? (h : ∀ x, m.get? x = n.get? x) : m = n := by
  have hmem (e : Qubit × Qubit) : e ∈ m.entries ↔ e ∈ n.entries := by
    rw [mem_entries, mem_entries, h]
  have hperm : m.entries.Perm n.entries :=
    (List.perm_ext_iff_of_nodup m.nodup_entries n.nodup_entries).mpr hmem
  have heq : m.entries = n.entries :=
    hperm.eq_of_pairwise (fun a b _ _ hab hba => absurd hab hba.not_gt) m.ascending n.ascending
  cases m
  cases n
  simpa using heq

@[simp] theorem get?_empty (x : Qubit) : empty.get? x = none := rfl

@[simp] theorem get?_insert (m : QubitMap) (k v x : Qubit) :
    (m.insert k v).get? x = if x = k then some v else m.get? x := by
  ext y
  rw [← mem_entries, insert, List.mem_append, List.mem_cons, List.mem_filter, List.mem_filter]
  simp only [decide_eq_true_eq, Prod.mk.injEq, mem_entries]
  split
  · rename_i hx
    simp [hx, eq_comm]
  · rename_i hx
    rcases lt_or_gt_of_ne hx with hlt | hgt
    · simp [hx, hlt, hlt.not_gt]
    · simp [hx, hgt, hgt.not_gt]

@[simp] theorem get?_erase (m : QubitMap) (k x : Qubit) :
    (m.erase k).get? x = if x = k then none else m.get? x := by
  ext y
  rw [← mem_entries, erase, List.mem_filter, mem_entries]
  by_cases hx : x = k <;> simp [hx]

theorem get?_forget (m : QubitMap) (key : Option Qubit) (stays x : Qubit) :
    (m.forget key stays).get? x = if key = some x ∧ x ≠ stays then none else m.get? x := by
  cases key with
  | none => simp [forget]
  | some k =>
    rw [forget]
    by_cases hk : k = stays
    · have hnot : ¬ (some k = some x ∧ x ≠ stays) := by
        rintro ⟨hkx, hx⟩
        exact hx (hk ▸ (Option.some.inj hkx).symm)
      rw [if_pos hk, if_neg hnot]
    · rw [if_neg hk, get?_erase]
      by_cases hx : x = k
      · subst hx
        simp [hk]
      · simp [hx, Ne.symm hx]

/-- The size of a map depends on its keys alone. -/
theorem size_congr (h : ∀ x, (m.get? x).isSome = (n.get? x).isSome) : m.size = n.size := by
  have hkeys (l : QubitMap) : (l.entries.map Prod.fst).Nodup :=
    List.pairwise_map.mpr (l.ascending.imp fun hlt => hlt.ne)
  have hmem (l : QubitMap) (x : Qubit) : x ∈ l.entries.map Prod.fst ↔ (l.get? x).isSome := by
    simp [Option.isSome_iff_exists, ← mem_entries]
  have hperm : (m.entries.map Prod.fst).Perm (n.entries.map Prod.fst) := by
    rw [List.perm_ext_iff_of_nodup (hkeys m) (hkeys n)]
    intro x
    rw [hmem, hmem, h]
  simpa [size] using hperm.length_eq

end QubitMap

namespace Layout

variable {l : Layout} {q p x y a b : Qubit}

theorem ext_of_lookups {k l : Layout} (hp : ∀ x, k.physical? x = l.physical? x)
    (hl : ∀ y, k.logical? y = l.logical? y) : k = l := by
  obtain ⟨kp, kl⟩ := k
  obtain ⟨lp, ll⟩ := l
  rw [mk.injEq]
  exact ⟨QubitMap.ext_get? hp, QubitMap.ext_get? hl⟩

/-- The two maps of a layout are inverse to each other. -/
def Inverse (l : Layout) : Prop := ∀ q p, l.physical? q = some p ↔ l.logical? p = some q

theorem inverse_empty : empty.Inverse := by
  intro q p
  simp [empty, physical?, logical?]

/-! ## Placing -/

/-- A logical qubit that is placed sits on its place, and whatever sat there is gone. -/
theorem physical?_add (h : l.Inverse) (q p x : Qubit) : (l.add q p).physical? x =
    if x = q then some p else if l.physical? x = some p then none else l.physical? x := by
  rw [physical?, add, QubitMap.get?_insert, QubitMap.get?_forget]
  by_cases hx : x = q
  · rw [if_pos hx, if_pos hx]
  · rw [if_neg hx, if_neg hx]
    simp only [← h x p, hx, ne_eq, not_false_eq_true, and_true]
    rfl

/-- A physical qubit that takes a logical one holds it, and no other one does. -/
theorem logical?_add (h : l.Inverse) (q p y : Qubit) : (l.add q p).logical? y =
    if y = p then some q else if l.logical? y = some q then none else l.logical? y := by
  have hplace : (l.toPhysical.forget (l.logical? p) q).get? q = l.physical? q := by
    simp [QubitMap.get?_forget, physical?]
  rw [logical?, add, QubitMap.get?_insert, hplace, QubitMap.get?_forget]
  by_cases hy : y = p
  · rw [if_pos hy, if_pos hy]
  · rw [if_neg hy, if_neg hy]
    simp only [h q y, hy, ne_eq, not_false_eq_true, and_true]
    rfl

theorem Inverse.add (h : l.Inverse) (q p : Qubit) : (l.add q p).Inverse := by
  intro x y
  rw [physical?_add h, logical?_add h]
  have hxy := h x y
  by_cases hx : x = q <;> by_cases hy : y = p
  · simp [hx, hy]
  · simp [hx, hy, Ne.symm hy]
  · simp [hx, hy, Ne.symm hx]
  · rw [if_neg hx, if_neg hy]
    constructor
    · intro hs
      split at hs
      · cases hs
      · have hl := hxy.mp hs
        rw [if_neg, hl]
        rw [hl]
        simpa using hx
    · intro hs
      split at hs
      · cases hs
      · have hp := hxy.mpr hs
        rw [if_neg, hp]
        rw [hp]
        simpa using hy

/-! ## Swapping -/

theorem physical?_occupy (l : Layout) (o : Option Qubit) (p x : Qubit) :
    (l.occupy o p).physical? x = if o = some x then some p else l.physical? x := by
  cases o with
  | none => simp [occupy, physical?]
  | some q => simp [occupy, physical?, eq_comm]

theorem logical?_occupy (l : Layout) (o : Option Qubit) (p y : Qubit) :
    (l.occupy o p).logical? y = if y = p then o else l.logical? y := by
  cases o with
  | none => simp [occupy, logical?]
  | some q => simp [occupy, logical?]

/-- After a swap a physical qubit holds what the other one of the two held, or what it held. -/
theorem logical?_swap (l : Layout) (a b y : Qubit) :
    (l.swap a b).logical? y = l.logical? (Equiv.swap a b y) := by
  rw [swap, logical?_occupy, logical?_occupy, Equiv.swap_apply_def]
  by_cases hya : y = a
  · rw [if_pos hya, if_pos hya]
  · rw [if_neg hya, if_neg hya]
    by_cases hyb : y = b
    · rw [if_pos hyb, if_pos hyb]
    · rw [if_neg hyb, if_neg hyb]

/-- After a swap a logical qubit sits on the other one of the two physical qubits, or where it sat. -/
theorem physical?_swap (h : l.Inverse) (a b x : Qubit) :
    (l.swap a b).physical? x = (l.physical? x).map (Equiv.swap a b) := by
  rw [swap, physical?_occupy, physical?_occupy]
  simp only [← h x b, ← h x a]
  cases hx : l.physical? x with
  | none => simp
  | some p =>
    simp only [Option.some.injEq, Option.map_some, Equiv.swap_apply_def]
    by_cases hpa : p = a
    · by_cases hpb : p = b
      · simp [hpa, ← hpb]
      · simp [hpa, hpa ▸ hpb]
    · by_cases hpb : p = b <;> simp [hpa, hpb]
      exact fun hba => absurd (hpb.trans hba) hpa

theorem Inverse.swap (h : l.Inverse) (a b : Qubit) : (l.swap a b).Inverse := by
  intro x y
  rw [physical?_swap h, logical?_swap, ← h]
  rw [Option.map_eq_some_iff]
  constructor
  · rintro ⟨p, hp, rfl⟩
    rw [hp, Equiv.swap_apply_self]
  · intro hp
    exact ⟨_, hp, Equiv.swap_apply_self a b y⟩

theorem size_swap (h : l.Inverse) (a b : Qubit) : (l.swap a b).size = l.size := by
  apply QubitMap.size_congr
  intro x
  have hx := physical?_swap h a b x
  simp only [physical?] at hx
  rw [hx, Option.isSome_map]

/-- The same swap again undoes it. -/
theorem swap_swap (h : l.Inverse) (a b : Qubit) : (l.swap a b).swap a b = l := by
  apply ext_of_lookups
  · intro x
    rw [physical?_swap (h.swap a b), physical?_swap h, Option.map_map]
    have hself : Equiv.swap a b ∘ Equiv.swap a b = id := by
      funext z
      exact Equiv.swap_apply_self a b z
    rw [hself, Option.map_id_fun, id]
  · intro y
    rw [logical?_swap, logical?_swap, Equiv.swap_apply_self]

/-! ## Any sequence of changes -/

theorem inverse_ofPhysical (physical : List Qubit) : (ofPhysical physical).Inverse := by
  unfold ofPhysical
  refine List.foldlRecOn (motive := Inverse) physical.zipIdx _ inverse_empty ?_
  rintro l h ⟨p, q⟩ -
  exact h.add q p

/-- The layouts that callers can make. -/
inductive Built : Layout → Prop
  | empty : Built Layout.empty
  | trivial (n : Nat) : Built (Layout.trivial n)
  /-- Some physical qubits may be listed again. -/
  | ofPhysical (physical : List Qubit) : Built (Layout.ofPhysical physical)
  | add {l : Layout} (h : Built l) (logical physical : Qubit) : Built (l.add logical physical)
  | swap {l : Layout} (h : Built l) (a b : Qubit) : Built (l.swap a b)

theorem Built.inverse (h : l.Built) : l.Inverse := by
  induction h with
  | empty => exact inverse_empty
  | trivial n => exact inverse_ofPhysical _
  | ofPhysical physical => exact inverse_ofPhysical _
  | add h q p ih => exact ih.add q p
  | swap h a b ih => exact ih.swap a b

/-- The size of a layout is the number of its pairs. -/
theorem size_eq_ncard (l : Layout) :
    l.size = {x : Qubit × Qubit | l.physical? x.1 = some x.2}.ncard := by
  have hset : {x : Qubit × Qubit | l.physical? x.1 = some x.2} =
      (l.toPhysical.entries.toFinset : Set (Qubit × Qubit)) := by
    ext x
    simp [physical?, ← QubitMap.mem_entries]
  rw [hset, Set.ncard_coe_finset, List.toFinset_card_of_nodup (QubitMap.nodup_entries _)]
  rfl

/-- A layout is a partial bijection, whatever was placed and swapped before. The maps of its two
directions are inverse to each other, and its size counts their pairs. A qubit that is placed sits on
its place, and only pairs with it or with its place are dropped for it. A swap exchanges what sits on two
physical qubits and keeps the number of pairs, and the same swap again leaves the layout as it was. -/
theorem bijection_of_built (h : l.Built) :
    (∀ q p, l.physical? q = some p ↔ l.logical? p = some q) ∧
    l.size = {x : Qubit × Qubit | l.physical? x.1 = some x.2}.ncard ∧
    (∀ q p, (l.add q p).physical? q = some p ∧ (l.add q p).logical? p = some q ∧
      ∀ x y, (l.add q p).physical? x = some y ↔
        x = q ∧ y = p ∨ x ≠ q ∧ y ≠ p ∧ l.physical? x = some y) ∧
    ∀ a b, (∀ y, (l.swap a b).logical? y = l.logical? (Equiv.swap a b y)) ∧
      (∀ x, (l.swap a b).physical? x = (l.physical? x).map (Equiv.swap a b)) ∧
      (l.swap a b).size = l.size ∧ (l.swap a b).swap a b = l := by
  have hi := h.inverse
  refine ⟨hi, l.size_eq_ncard, fun q p => ?_, fun a b => ?_⟩
  · have hplace : (l.add q p).physical? q = some p := by
      rw [physical?_add hi, if_pos rfl]
    refine ⟨hplace, (hi.add q p q p).mp hplace, fun x y => ?_⟩
    rw [physical?_add hi]
    by_cases hx : x = q
    · simp [hx, eq_comm]
    · by_cases hy : y = p
      · by_cases hp : l.physical? x = some p <;> simp [hx, hy, hp]
      · by_cases hp : l.physical? x = some p
        · simp [hx, hp, Ne.symm hy]
        · simp [hx, hy, hp]
  · exact ⟨logical?_swap l a b, physical?_swap hi a b, size_swap hi a b, swap_swap hi a b⟩

/-- Two listed qubits, the first of which is moved, with a third that takes the place of the second. -/
def crowded : Layout := ((Layout.ofPhysical [4, 1]).swap 4 0).add 2 1

theorem bijection_crowded : crowded.Built ∧ crowded.logical? 1 = some 2 ∧
    (crowded.swap 1 7).physical? 2 = some 7 ∧ (crowded.swap 1 7).size = 2 ∧
    (crowded.swap 1 7).swap 1 7 = crowded := by
  have hb : crowded.Built := ((Built.ofPhysical [4, 1]).swap 4 0).add 2 1
  obtain ⟨hinverse, -, -, hswap⟩ := bijection_of_built hb
  obtain ⟨-, hplace, hsize, hagain⟩ := hswap 1 7
  exact ⟨hb, (hinverse 2 1).mp rfl, hplace 2, hsize, hagain⟩

end Layout

end QuantumCompiler
