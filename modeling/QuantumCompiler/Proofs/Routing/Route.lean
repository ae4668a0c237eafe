import QuantumCompiler.Proofs.Routing.Replay

/-!
# Forced routes

The swaps along a path bring its ends together: the first end walks to the last qubit of the near half,
the other end to the first qubit of the far half, and these two are coupled.
-/
namespace QuantumCompiler.Sweep

open Placement (carry carry_append carry_of_notMem)

section Walk

variable {α : Type} {r : α → α → Prop}

theorem rel_of_mem_zip_tail {l : List α} (hc : l.IsChain r) {t : α × α} (ht : t ∈ l.zip l.tail) :
    r t.1 t.2 := by
  induction l with
  | nil => simp at ht
  | cons x l ih =>
    cases l with
    | nil => simp at ht
    | cons y l =>
      obtain ⟨hxy, hc⟩ := List.isChain_cons_cons.mp hc
      rw [List.tail_cons, List.zip_cons_cons] at ht
      rcases List.mem_cons.mp ht with rfl | ht
      · exact hxy
      · exact ih hc ht

theorem mem_of_mem_zip_tail {l : List α} {t : α × α} (ht : t ∈ l.zip l.tail) :
    t.1 ∈ l ∧ t.2 ∈ l := by
  obtain ⟨h1, h2⟩ := List.of_mem_zip (show (t.1, t.2) ∈ l.zip l.tail from ht)
  exact ⟨h1, List.mem_of_mem_tail h2⟩

end Walk

/-- Swaps along a path take its first qubit to its last place. -/
theorem carry_zip_tail {l : List Qubit} {x y : Qubit} (hx : l.head? = some x)
    (hy : l.getLast? = some y) : carry (l.zip l.tail) x = y := by
  induction l generalizing x with
  | nil => simp at hx
  | cons z l ih =>
    obtain rfl : z = x := by simpa using hx
    cases l with
    | nil =>
      obtain rfl : z = y := by simpa using hy
      rfl
    | cons w l =>
      have hstep : carry ((z :: w :: l).zip (w :: l)) z = carry ((w :: l).zip l) w := by
        simp [carry]
      rw [List.tail_cons, hstep]
      exact ih rfl (by simpa using hy)

/-- Swaps along a path from its end take its last qubit to its first place. -/
theorem carry_reverse_zip_tail {l : List Qubit} {x y : Qubit} (hx : l.head? = some x)
    (hy : l.getLast? = some y) : carry ((l.zip l.tail).reverse.map Prod.swap) y = x := by
  induction l generalizing x with
  | nil => simp at hx
  | cons z l ih =>
    obtain rfl : z = x := by simpa using hx
    cases l with
    | nil =>
      obtain rfl : z = y := by simpa using hy
      rfl
    | cons w l =>
      have hrest := ih (x := w) rfl (by simpa using hy)
      rw [List.tail_cons] at hrest
      rw [List.tail_cons, List.zip_cons_cons, List.reverse_cons, List.map_append, carry_append,
        hrest]
      simp [carry]

section Meeting

variable {R : Type} {d : Device R} {path : List Qubit} {a b : Qubit}

/-- The halves of a path with two different ends. -/
theorem meetingSwaps_eq (hlen : 2 ≤ path.length) : meetingSwaps path =
    (path.take (path.length / 2)).zip (path.take (path.length / 2)).tail ++
      ((path.drop (path.length / 2)).zip (path.drop (path.length / 2)).tail).reverse.map
        Prod.swap := by
  rw [meetingSwaps]
  apply List.take_of_length_le
  simp only [List.length_append, List.length_zip, List.length_tail, List.length_take,
    List.length_map, List.length_reverse, List.length_drop]
  omega

/-- Swaps along a path are between qubits of it. -/
theorem mem_of_mem_meetingSwaps {t : Qubit × Qubit} (ht : t ∈ meetingSwaps path) :
    t.1 ∈ path ∧ t.2 ∈ path := by
  rcases List.mem_append.mp (List.mem_of_mem_take ht) with ht | ht
  · obtain ⟨h1, h2⟩ := mem_of_mem_zip_tail ht
    exact ⟨List.mem_of_mem_take h1, List.mem_of_mem_take h2⟩
  · obtain ⟨u, hu, rfl⟩ := List.mem_map.mp ht
    obtain ⟨h1, h2⟩ := mem_of_mem_zip_tail (List.mem_reverse.mp hu)
    exact ⟨List.mem_of_mem_drop h2, List.mem_of_mem_drop h1⟩

/-- A path takes as many swaps as it has qubits between its ends. -/
theorem length_meetingSwaps (hlen : 2 ≤ path.length) :
    (meetingSwaps path).length = path.length - 2 := by
  rw [meetingSwaps_eq hlen]
  simp only [List.length_append, List.length_zip, List.length_tail, List.length_take,
    List.length_map, List.length_reverse, List.length_drop]
  omega

theorem two_le_length (ha : path.head? = some a) (hb : path.getLast? = some b) (hab : a ≠ b) :
    2 ≤ path.length := by
  match path with
  | [] => simp at ha
  | [x] =>
    obtain rfl : x = a := by simpa using ha
    obtain rfl : x = b := by simpa using hb
    exact absurd rfl hab
  | _ :: _ :: _ => simp

/-- A path with two different ends falls into two halves, each of which keeps its end. -/
theorem exists_halves (ha : path.head? = some a) (hb : path.getLast? = some b) (hab : a ≠ b) :
    ∃ near far u v, near ++ far = path ∧
      meetingSwaps path = near.zip near.tail ++ (far.zip far.tail).reverse.map Prod.swap ∧
      near.head? = some a ∧ near.getLast? = some u ∧
      far.head? = some v ∧ far.getLast? = some b := by
  have hlen := two_le_length ha hb hab
  have hnear : path.take (path.length / 2) ≠ [] := by
    apply List.ne_nil_of_length_pos
    rw [List.length_take]
    omega
  have hfar : path.drop (path.length / 2) ≠ [] := by
    apply List.ne_nil_of_length_pos
    rw [List.length_drop]
    omega
  refine ⟨_, _, _, _, List.take_append_drop _ _, meetingSwaps_eq hlen, ?_,
    List.getLast?_eq_some_getLast hnear, List.head?_eq_some_head hfar, ?_⟩
  · rw [List.head?_take, if_neg (by omega), ha]
  · rw [List.getLast?_drop, if_neg (by omega), hb]

/-- Walking through both halves brings their ends to the middle. -/
theorem carry_halves {near far : List Qubit} {u v : Qubit} (hdisj : ∀ x ∈ near, x ∉ far)
    (ha : near.head? = some a) (hu : near.getLast? = some u) (hv : far.head? = some v)
    (hb : far.getLast? = some b) :
    carry (near.zip near.tail ++ (far.zip far.tail).reverse.map Prod.swap) a = u ∧
      carry (near.zip near.tail ++ (far.zip far.tail).reverse.map Prod.swap) b = v := by
  have huf : u ∉ far := hdisj u (List.mem_of_getLast? hu)
  have hbn : b ∉ near := fun hm => hdisj b hm (List.mem_of_getLast? hb)
  constructor
  · rw [carry_append, carry_zip_tail ha hu]
    apply carry_of_notMem
    intro t ht
    obtain ⟨s, hs, rfl⟩ := List.mem_map.mp ht
    obtain ⟨h1, h2⟩ := mem_of_mem_zip_tail (List.mem_reverse.mp hs)
    exact ⟨fun he => huf (he ▸ h2), fun he => huf (he ▸ h1)⟩
  · have hstay : carry (near.zip near.tail) b = b := by
      apply carry_of_notMem
      intro t ht
      obtain ⟨h1, h2⟩ := mem_of_mem_zip_tail ht
      exact ⟨fun he => hbn (he ▸ h1), fun he => hbn (he ▸ h2)⟩
    rw [carry_append, hstay, carry_reverse_zip_tail hv hb]

/-- The swaps along a path of couplings are on couplings, and bring its ends together. -/
theorem meetingSwaps_spec (hchain : path.IsChain fun p r => d.isAdjacent p r = true)
    (hnd : path.Nodup) (ha : path.head? = some a) (hb : path.getLast? = some b) (hab : a ≠ b) :
    (∀ t ∈ meetingSwaps path, d.isAdjacent t.1 t.2 = true) ∧
      d.isAdjacent (carry (meetingSwaps path) a) (carry (meetingSwaps path) b) = true := by
  obtain ⟨near, far, u, v, rfl, heq, ha, hu, hv, hb⟩ := exists_halves ha hb hab
  obtain ⟨hcn, hcf, hlink⟩ := List.isChain_append.mp hchain
  obtain ⟨-, -, hdisj⟩ := List.nodup_append.mp hnd
  rw [heq]
  constructor
  · intro t ht
    rcases List.mem_append.mp ht with ht | ht
    · exact rel_of_mem_zip_tail hcn ht
    · obtain ⟨s, hs, rfl⟩ := List.mem_map.mp ht
      rw [Device.isAdjacent_comm]
      exact rel_of_mem_zip_tail hcf (List.mem_reverse.mp hs)
  · obtain ⟨hca, hcb⟩ := carry_halves (fun x hn hf => hdisj x hn x hf rfl) ha hu hv hb
    rw [hca, hcb]
    exact hlink u hu v hv

end Meeting

end QuantumCompiler.Sweep
