import QuantumCompiler.Proofs.Layout.Placement

/-!
# Completing a layout

A layout is completed in two tables that are written side by side: first where the layout has the qubits
of the circuit, then, in one scan over all physical qubits, where places are free. `Filled` ties both
tables to the list of the places taken so far. At the end that list is an order of all physical qubits,
and the tables are those of the placement that it lists.
-/
namespace QuantumCompiler.Placement

variable {R : Type} {l : Layout} {k n : Nat} {physical : List Qubit}

/-! ## Filling the tables -/

/-- The tables when the first logical qubits sit on the listed physical ones. -/
structure Filled (n : Nat) (physical : List Qubit) (f : Filling) : Prop where
  toPhysical : f.toPhysical = physical.toArray
  size : f.toLogical.size = n
  occupied : ∀ p < n, f.occupied p = true ↔ p ∈ physical
  toLogical : (f.toLogical.toList.map (·.getD 0)).toArray =
    physical.zipIdx.foldl (fun table (p, q) => table.setIfInBounds p q) (Array.replicate n 0)

namespace Filled

variable {f g : Filling} {q : Qubit}

theorem start (n : Nat) : Filled n [] (.start n) where
  toPhysical := rfl
  size := Array.size_replicate
  occupied p hp := by simp [Filling.occupied, Filling.start, hp]
  toLogical := by simp [Filling.start]

theorem put (h : Filled n physical f) {p : Qubit} (hp : p < n) :
    Filled n (physical ++ [p]) (f.put physical.length p) where
  toPhysical := by simp [Filling.put, h.toPhysical]
  size := by simp [Filling.put, h.size]
  occupied x hx := by
    have hx' : f.occupied x = true ↔ x ∈ physical := h.occupied x hx
    have hsize := h.size
    simp only [Filling.occupied, Array.getD_eq_getD_getElem?] at hx'
    simp only [Filling.occupied, Filling.put, Array.getD_eq_getD_getElem?,
      Array.getElem?_setIfInBounds, hsize, hp, if_true]
    by_cases hpx : p = x
    · simp [hpx]
    · simp [hpx, hx', Ne.symm hpx]
  toLogical := by
    have hlogical := h.toLogical
    simp only [← Array.toList_map, Array.toArray_toList] at hlogical ⊢
    simp [Filling.put, Array.map_setIfInBounds, hlogical, List.zipIdx_append]

/-- A qubit is put where the layout has it, if that is on the device and free. -/
theorem choose_eq_ok (h : Filled n physical f) :
    (f.choose l q : Compile R _) = .ok g ↔
      ∃ p < n, l.physical? q = some p ∧ p ∉ physical ∧ g = f.put q p := by
  rw [Filling.choose, h.size]
  cases hp : (l.physical? q).filter (· < n) with
  | none =>
    constructor
    · intro he
      cases he
    · rintro ⟨p, hlt, hq, -, -⟩
      exact absurd hlt (by simpa [hq] using hp)
  | some p =>
    obtain ⟨hq, hlt⟩ : l.physical? q = some p ∧ p < n := by
      simpa [Option.filter_eq_some_iff] using hp
    rw [hq]
    simp only [h.occupied p hlt]
    split
    · rename_i hmem
      constructor
      · intro he
        cases he
      · rintro ⟨p', -, hp', hfree, -⟩
        obtain rfl := Option.some.inj hp'
        exact absurd hmem hfree
    · rename_i hfree
      constructor
      · intro he
        exact ⟨p, hlt, rfl, hfree, (Except.ok.inj he).symm⟩
      · rintro ⟨p', -, hp', -, rfl⟩
        obtain rfl := Option.some.inj hp'
        rfl

theorem choose_of_unplaced (h : Filled n physical f) (hq : ∀ p < n, l.physical? q ≠ some p) :
    (f.choose l q : Compile R _) = .error (.invalidConfiguration (.unplaced q)) := by
  have hnone : (l.physical? q).filter (· < n) = none := by
    rw [Option.filter_eq_none_iff]
    intro p hp hlt
    exact hq p (by simpa using hlt) hp
  rw [Filling.choose, h.size, hnone]

end Filled

/-- The qubits of the circuit are put where the layout has them. -/
theorem foldlM_choose_eq_ok {f : Filling}
    (h : ((List.range k).foldlM (Filling.choose l) (.start n) : Compile R _) = .ok f) :
    ∃ physical, Filled n physical f ∧ Choice k n physical ∧
      ∀ q < k, l.physical? q = physical[q]? := by
  induction k generalizing f with
  | zero =>
    obtain rfl := Except.ok.inj h
    exact ⟨[], .start n, ⟨rfl, List.nodup_nil, by simp⟩, by simp⟩
  | succ k ih =>
    rw [List.range_succ, List.foldlM_append] at h
    obtain ⟨g, hg, h⟩ := Outcome.bind_eq_ok.mp h
    obtain ⟨physical, hfilled, hc, hl⟩ := ih hg
    rw [List.foldlM_cons] at h
    obtain ⟨f', hf', h⟩ := Outcome.bind_eq_ok.mp h
    obtain rfl : f' = f := Except.ok.inj h
    obtain ⟨p, hp, hq, hfree, rfl⟩ := hfilled.choose_eq_ok.mp hf'
    refine ⟨physical ++ [p], hc.length ▸ hfilled.put hp, ?_, fun q hqk => ?_⟩
    · refine ⟨by simp [hc.length], ?_, fun x hx => ?_⟩
      · refine List.nodup_append.mpr
          ⟨hc.nodup, List.nodup_singleton p, fun x hx y hy he => hfree ?_⟩
        rwa [← List.mem_singleton.mp hy, ← he]
      · rcases List.mem_append.mp hx with hx | hx
        · exact hc.lt x hx
        · rwa [List.mem_singleton.mp hx]
    · rcases Nat.lt_succ_iff_lt_or_eq.mp hqk with hlt | rfl
      · rw [hl q hlt, List.getElem?_append_left (hc.length ▸ hlt)]
      · rw [hq, ← hc.length, List.getElem?_concat_length]

section Inverse

variable (hl : l.Inverse)

include hl

/-- No place is met twice, since a physical qubit holds one logical qubit at most. -/
theorem exists_foldlM_choose (h : ∀ q < k, ∃ p < n, l.physical? q = some p) :
    ∃ f, ((List.range k).foldlM (Filling.choose l) (.start n) : Compile R _) = .ok f := by
  induction k with
  | zero => exact ⟨_, rfl⟩
  | succ k ih =>
    obtain ⟨f, hf⟩ := ih fun q hq => h q (by omega)
    obtain ⟨physical, hfilled, hc, hplaces⟩ := foldlM_choose_eq_ok hf
    obtain ⟨p, hp, hq⟩ := h k (by omega)
    have hfree : p ∉ physical := by
      intro hmem
      obtain ⟨i, hi, hip⟩ := List.getElem_of_mem hmem
      have hik : i < k := hc.length ▸ hi
      have hsome : l.physical? i = some p := by
        rw [hplaces i hik, List.getElem?_eq_getElem hi, hip]
      have hsame : some i = some k := ((hl i p).mp hsome).symm.trans ((hl k p).mp hq)
      exact hik.ne (Option.some.inj hsame)
    refine ⟨f.put k p, ?_⟩
    have hput : (f.choose l k : Compile R _) = .ok (f.put k p) :=
      hfilled.choose_eq_ok.mpr ⟨p, hp, hq, hfree, rfl⟩
    rw [List.range_succ, List.foldlM_append]
    exact Outcome.bind_eq_ok.mpr ⟨f, hf, Outcome.bind_eq_ok.mpr ⟨_, hput, rfl⟩⟩

/-- The first qubit without a place is blamed. -/
theorem foldlM_choose_of_unplaced {q : Nat} (hq : q < k) (hbad : ∀ p < n, l.physical? q ≠ some p)
    (hfirst : ∀ r < q, ∃ p < n, l.physical? r = some p) :
    ((List.range k).foldlM (Filling.choose l) (.start n) : Compile R _) =
      .error (.invalidConfiguration (.unplaced q)) := by
  obtain ⟨m, rfl⟩ := Nat.exists_eq_add_of_lt hq
  obtain ⟨f, hf⟩ := exists_foldlM_choose hl hfirst
  obtain ⟨physical, hfilled, -, -⟩ := foldlM_choose_eq_ok hf
  rw [Nat.add_assoc, List.range_add, List.range_succ_eq_map, List.map_cons, List.foldlM_append,
    Nat.add_zero]
  exact Outcome.bind_eq_error.mpr (.inr ⟨f, hf,
    Outcome.bind_eq_error.mpr (.inl (hfilled.choose_of_unplaced hbad))⟩)

end Inverse

/-- The scan goes once over all physical qubits: behind the last one that was taken it has not missed
any free one. -/
theorem foldlM_takeFree {f : Filling} {rest free : List Qubit} (h : Filled n physical f)
    (hn : rest.Nodup) (hlt : ∀ p ∈ rest, p < n)
    (hfree : rest.filter (fun p => !physical.contains p) = free) :
    ∃ g rest', ((List.range' physical.length free.length).foldlM Filling.takeFree (f, rest) :
      Compile R _) = .ok (g, rest') ∧ Filled n (physical ++ free) g := by
  induction free generalizing f rest physical with
  | nil => exact ⟨f, rest, rfl, by simpa using h⟩
  | cons p free ih =>
    obtain ⟨passed, rest, rfl, hpassed, hp, hrest⟩ := List.filter_eq_cons_iff.mp hfree
    obtain ⟨-, hn, -⟩ := List.nodup_append.mp hn
    obtain ⟨hpr, hn⟩ := List.nodup_cons.mp hn
    have hpn : p < n := hlt p (by simp)
    have hscan : (passed ++ p :: rest).dropWhile f.occupied = p :: rest := by
      rw [List.dropWhile_append_of_pos, List.dropWhile_cons_of_neg]
      · rw [h.occupied p hpn]
        simpa using hp
      · intro x hx
        rw [h.occupied x (hlt x (by simp [hx]))]
        simpa using hpassed x hx
    have hstep : (Filling.takeFree (f, passed ++ p :: rest) physical.length : Compile R _) =
        .ok (f.put physical.length p, rest) := by
      rw [Filling.takeFree, hscan]
    have hleft : rest.filter (fun x => !(physical ++ [p]).contains x) = free := by
      rw [← hrest]
      refine List.filter_congr fun x hx => ?_
      have hne : x ≠ p := fun he => hpr (he ▸ hx)
      simp [hne]
    obtain ⟨g, rest', hrun, hg⟩ := ih (h.put hpn) hn (fun x hx => hlt x (by simp [hx])) hleft
    refine ⟨g, rest', ?_, by simpa using hg⟩
    rw [List.length_cons, List.range'_succ, List.foldlM_cons]
    exact Outcome.bind_eq_ok.mpr ⟨_, hstep, by simpa using hrun⟩

/-! ## Completed layouts -/

/-- When the qubits of the circuit are put, enough physical qubits are left for the other ones. -/
theorem ofLayout_of_choose {f : Filling} (hk : k ≤ n) (hc : Choice k n physical)
    (hf : Filled n physical f)
    (h : ((List.range k).foldlM (Filling.choose l) (.start n) : Compile R _) = .ok f) :
    (ofLayout l k n : Compile R _) = .ok (ofList (physical ++ unlisted n physical) k) := by
  have hall : (physical ++ unlisted n physical).length = n := by
    rw [hc.perm_range.length_eq, List.length_range]
  have hlen : (unlisted n physical).length = n - k := by
    rw [List.length_append, hc.length] at hall
    omega
  have hfree : (List.range n).filter (fun p => !physical.contains p) = unlisted n physical := rfl
  obtain ⟨g, rest, hscan, hg⟩ := foldlM_takeFree (R := R) hf List.nodup_range
    (fun p hp => List.mem_range.mp hp) hfree
  rw [hc.length, hlen] at hscan
  rw [ofLayout, if_neg (Nat.not_lt.mpr hk)]
  refine Outcome.bind_eq_ok.mpr ⟨f, h, Outcome.bind_eq_ok.mpr ⟨(g, rest), hscan, ?_⟩⟩
  change Except.ok _ = _
  rw [hg.toPhysical, hg.toLogical, ofList, hall]

/-- A layout that is accepted has different places for the qubits of the circuit, and the physical
qubits that are left follow them. -/
theorem ofLayout_eq_ok {p : Placement} (h : (ofLayout l k n : Compile R _) = .ok p) :
    k ≤ n ∧ ∃ physical, Choice k n physical ∧ (∀ q < k, l.physical? q = physical[q]?) ∧
      p = ofList (physical ++ unlisted n physical) k := by
  by_cases hk : k ≤ n
  · have hrun : ∃ f, ((List.range k).foldlM (Filling.choose l) (.start n) : Compile R _) = .ok f := by
      rw [ofLayout, if_neg (Nat.not_lt.mpr hk)] at h
      obtain ⟨f, hf, -⟩ := Outcome.bind_eq_ok.mp h
      exact ⟨f, hf⟩
    obtain ⟨f, hf⟩ := hrun
    obtain ⟨physical, hfilled, hc, hplaces⟩ := foldlM_choose_eq_ok hf
    rw [ofLayout_of_choose hk hc hfilled hf] at h
    exact ⟨hk, physical, hc, hplaces, (Except.ok.inj h).symm⟩
  · rw [ofLayout, if_pos (Nat.lt_of_not_le hk)] at h
    cases h

theorem physical_ofList_append (hc : Choice k n physical) (free : List Qubit) (width : Nat)
    {q : Qubit} (hq : q < k) : physical[q]? = some ((ofList (physical ++ free) width).physical q) := by
  have hq' : q < physical.length := hc.length ▸ hq
  have hall : q < (physical ++ free).length :=
    hq'.trans_le ((List.sublist_append_left physical free).length_le)
  rw [physical_ofList _ _ hall, List.getElem_append_left hq', List.getElem?_eq_getElem hq']

/-- A layout that is accepted becomes a permutation that agrees with it. -/
theorem of_ofLayout {p : Placement} (h : (ofLayout l k n : Compile R _) = .ok p) :
    k ≤ n ∧ p.IsPermutation n ∧ p.width = k ∧ ∀ q < k, l.physical? q = some (p.physical q) := by
  obtain ⟨hk, physical, hc, hplaces, rfl⟩ := ofLayout_eq_ok h
  refine ⟨hk, isPermutation_ofList hc.perm_range k, rfl, fun q hq => ?_⟩
  rw [hplaces q hq, physical_ofList_append hc _ k hq]

/-- A layout with places for all qubits of the circuit is accepted. -/
theorem exists_ofLayout_of_inverse (hl : l.Inverse) (hk : k ≤ n)
    (h : ∀ q < k, ∃ p < n, l.physical? q = some p) :
    ∃ p, (ofLayout l k n : Compile R _) = .ok p := by
  obtain ⟨f, hf⟩ := exists_foldlM_choose (R := R) hl h
  obtain ⟨physical, hfilled, hc, -⟩ := foldlM_choose_eq_ok hf
  exact ⟨_, ofLayout_of_choose hk hc hfilled hf⟩

/-- Any choice is accepted. -/
theorem exists_ofLayout (hk : k ≤ n) (hc : Choice k n physical) :
    ∃ p : Placement, (ofLayout (.ofPhysical physical) k n : Compile R _) = .ok p ∧
      p.IsPermutation n ∧ p.width = k ∧ ∀ q < k, physical[q]? = some (p.physical q) := by
  have hplaced : ∀ q < k, ∃ p < n, (Layout.ofPhysical physical).physical? q = some p := by
    intro q hq
    have hq' : q < physical.length := hc.length ▸ hq
    refine ⟨physical[q], hc.lt _ (List.getElem_mem hq'), ?_⟩
    rw [physical?_ofPhysical hc.nodup, List.getElem?_eq_getElem hq']
  obtain ⟨p, hp⟩ := exists_ofLayout_of_inverse (R := R) (Layout.inverse_ofPhysical physical) hk
    hplaced
  obtain ⟨-, hperm, hw, hagrees⟩ := of_ofLayout hp
  exact ⟨p, hp, hperm, hw, fun q hq => by rw [← hagrees q hq, physical?_ofPhysical hc.nodup]⟩

/-- Among qubits of which some have no place there is a first one without. -/
theorem exists_first_unplaced (h : ¬∀ q < k, ∃ x < n, l.physical? q = some x) :
    ∃ q < k, (∀ x < n, l.physical? q ≠ some x) ∧ ∀ r < q, ∃ x < n, l.physical? r = some x := by
  classical
  push Not at h
  obtain ⟨hq, hunplaced⟩ := Nat.find_spec h
  refine ⟨Nat.find h, hq, hunplaced, fun r hr => ?_⟩
  have hnot := Nat.find_min h hr
  push Not at hnot
  exact hnot (hr.trans hq)

/-- A layout is refused for too few physical qubits, or for its first qubit without a place. -/
theorem ofLayout_eq_error (hl : l.Inverse) {e : CompileError R} (he : ofLayout l k n = .error e) :
    n < k ∧ e = .insufficientQubits k n ∨
      k ≤ n ∧ ∃ q < k, e = .invalidConfiguration (.unplaced q) ∧
        (∀ x < n, l.physical? q ≠ some x) ∧ ∀ r < q, ∃ x < n, l.physical? r = some x := by
  by_cases hk : k ≤ n
  · have hsome : ¬∀ q < k, ∃ x < n, l.physical? q = some x := by
      intro hplaced
      obtain ⟨p, hp⟩ := exists_ofLayout_of_inverse (R := R) hl hk hplaced
      rw [hp] at he
      cases he
    obtain ⟨q, hq, hunplaced, hfirst⟩ := exists_first_unplaced hsome
    rw [ofLayout, if_neg (Nat.not_lt.mpr hk), foldlM_choose_of_unplaced hl hq hunplaced hfirst] at he
    exact .inr ⟨hk, q, hq, (Except.error.inj he).symm, hunplaced, hfirst⟩
  · have hlt := Nat.lt_of_not_le hk
    rw [ofLayout, if_pos hlt] at he
    exact .inl ⟨hlt, (Except.error.inj he).symm⟩

/-- Behind the qubits of the circuit come the free physical qubits. -/
theorem drop_of_ofLayout {p : Placement} (h : (ofLayout l k n : Compile R _) = .ok p) :
    p.toPhysical.toList.drop k =
      (List.range n).filter fun x => decide (∀ q < k, l.physical? q ≠ some x) := by
  obtain ⟨-, physical, hc, hplaces, rfl⟩ := ofLayout_eq_ok h
  rw [ofList, List.drop_left' hc.length, unlisted]
  refine List.filter_congr fun x _ => ?_
  rw [Bool.eq_iff_iff, decide_eq_true_iff, Bool.not_eq_true', ← Bool.not_eq_true,
    List.contains_iff_mem, List.mem_iff_getElem?, not_exists]
  constructor
  · intro hnot q hq hsome
    exact hnot q (hplaces q hq ▸ hsome)
  · intro hnot q hsome
    have hq : q < k := hc.length ▸ (List.getElem?_eq_some_iff.mp hsome).1
    exact hnot q hq (hplaces q hq ▸ hsome)

/-- Completing a layout gives a permutation. It succeeds where the layout has places on the device for
all qubits of the circuit, and otherwise the first one without a place is blamed; it never meets a place
twice and never runs out of physical qubits. The two tables are inverse permutations that agree with the
layout and list the free physical qubits in ascending order behind it, and swaps keep them so. -/
theorem completions_are_permutations (h : l.Built) (k n : Nat) :
    ((∃ p, (ofLayout l k n : Compile R _) = .ok p) ↔
      k ≤ n ∧ ∀ q < k, ∃ x < n, l.physical? q = some x) ∧
    (∀ e, (ofLayout l k n : Compile R _) = .error e →
      n < k ∧ e = .insufficientQubits k n ∨
        k ≤ n ∧ ∃ q < k, e = .invalidConfiguration (.unplaced q) ∧
          (∀ x < n, l.physical? q ≠ some x) ∧ ∀ r < q, ∃ x < n, l.physical? r = some x) ∧
    ∀ p, (ofLayout l k n : Compile R _) = .ok p →
      p.IsPermutation n ∧ p.width = k ∧ (∀ q < k, l.physical? q = some (p.physical q)) ∧
      p.toPhysical.toList.drop k =
        (List.range n).filter (fun x => decide (∀ q < k, l.physical? q ≠ some x)) ∧
      ∀ ps : List (Qubit × Qubit), (∀ s ∈ ps, s.1 < n ∧ s.2 < n) → (p.swaps ps).IsPermutation n := by
  refine ⟨⟨?_, fun ⟨hk, hplaced⟩ => exists_ofLayout_of_inverse h.inverse hk hplaced⟩,
    fun e he => ofLayout_eq_error h.inverse he, fun p hp => ?_⟩
  · rintro ⟨p, hp⟩
    obtain ⟨hk, hperm, -, hagrees⟩ := of_ofLayout hp
    exact ⟨hk, fun q hq => ⟨_, hperm.physical_lt q (hq.trans_le hk), hagrees q hq⟩⟩
  · obtain ⟨-, hperm, hw, hagrees⟩ := of_ofLayout hp
    exact ⟨hperm, hw, hagrees, drop_of_ofLayout hp, fun ps hps => isPermutation_swaps hperm hps⟩

/-- A circuit on two qubits of a device with four, after the first of them has moved. -/
def sparse : Layout := ((Layout.empty.add 1 0).add 0 3).swap 3 2

theorem completion_of_sparse : sparse.Built ∧
    ∃ p, (ofLayout sparse 2 4 : Compile Unit _) = .ok p ∧ p.IsPermutation 4 ∧
      p.toPhysical.toList.drop 2 = [1, 3] ∧ (p.swaps [(0, 3), (3, 1)]).IsPermutation 4 := by
  have hb : sparse.Built := ((Layout.Built.empty.add 1 0).add 0 3).swap 3 2
  obtain ⟨hok, -, hresult⟩ := completions_are_permutations (R := Unit) hb 2 4
  obtain ⟨p, hp⟩ := hok.mpr (by decide)
  obtain ⟨hperm, -, -, hfree, hswaps⟩ := hresult p hp
  exact ⟨hb, p, hp, hperm, hfree, hswaps _ (by decide)⟩

end QuantumCompiler.Placement
