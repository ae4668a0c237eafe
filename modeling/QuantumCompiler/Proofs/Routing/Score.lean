import Mathlib
import QuantumCompiler.Routing.Score

/-!
# The best of several scores

Whatever is compared, the best element of a list is one of its elements, and where better means less in
some key its key is least. Scores depend on where the gates sit that are waited for, and on nothing else.
-/
namespace QuantumCompiler

/-- Whatever counts as better, the best of some elements is one of them. -/
theorem exists_bestOf? {α : Type} (better : α → α → Bool) {xs : List α} (hne : xs ≠ []) :
    ∃ x ∈ xs, bestOf? better xs = some x := by
  obtain ⟨x, xs, rfl⟩ := List.exists_cons_of_ne_nil hne
  unfold bestOf?
  rw [List.foldl_cons]
  clear hne
  induction xs generalizing x with
  | nil => exact ⟨x, by simp, rfl⟩
  | cons y xs ih =>
    rw [List.foldl_cons]
    by_cases hb : better y x = true
    · obtain ⟨z, hz, he⟩ := ih y
      refine ⟨z, List.mem_cons_of_mem _ hz, ?_⟩
      simpa only [hb, if_true] using he
    · obtain ⟨z, hz, he⟩ := ih x
      refine ⟨z, ?_, ?_⟩
      · rcases List.mem_cons.mp hz with rfl | hz <;> simp [*]
      · simpa only [hb, if_false, Bool.false_eq_true] using he

theorem mem_of_bestOf? {α : Type} {better : α → α → Bool} {xs : List α} {x : α}
    (hx : bestOf? better xs = some x) : x ∈ xs := by
  have hne : xs ≠ [] := by
    rintro rfl
    cases hx
  obtain ⟨y, hy, he⟩ := exists_bestOf? better hne
  exact Option.some.inj (he.symm.trans hx) ▸ hy

/-- One more element is compared with the best one so far. -/
theorem bestOf?_concat {α : Type} (better : α → α → Bool) (xs : List α) (y : α) :
    bestOf? better (xs ++ [y]) = match bestOf? better xs with
      | none => some y
      | some x => if better y x then some y else some x := by
  rw [bestOf?, List.foldl_append, ← bestOf?]
  cases bestOf? better xs <;> rfl

/-- Where better means less in some key, up to ties, the key of the best element is least. -/
theorem le_of_bestOf? {α κ : Type} [LinearOrder κ] {better : α → α → Bool} (key : α → κ)
    (hyes : ∀ x y, better x y = true → key x ≤ key y)
    (hno : ∀ x y, better x y = false → key y ≤ key x) {xs : List α} {x : α}
    (hx : bestOf? better xs = some x) : ∀ y ∈ xs, key x ≤ key y := by
  induction xs using List.reverseRecOn generalizing x with
  | nil => cases hx
  | append_singleton xs y ih =>
    rw [bestOf?_concat] at hx
    rw [List.forall_mem_append, List.forall_mem_singleton]
    cases hbest : bestOf? better xs with
    | none =>
      obtain rfl : xs = [] := by
        by_contra hne
        obtain ⟨z, -, hz⟩ := exists_bestOf? better hne
        cases hz.symm.trans hbest
      rw [hbest] at hx
      exact ⟨List.forall_mem_nil _, (congrArg key (Option.some.inj hx)).ge⟩
    | some z =>
      have hz := ih hbest
      simp only [hbest] at hx
      split at hx <;> obtain rfl := Option.some.inj hx
      · rename_i hb
        exact ⟨fun u hu => (hyes _ _ hb).trans (hz u hu), le_rfl⟩
      · rename_i hb
        exact ⟨hz, hno _ _ (Bool.not_eq_true _ ▸ hb)⟩

/-- Comparisons that agree on the elements have the same best one. -/
theorem bestOf?_congr {α : Type} {better better' : α → α → Bool} {xs : List α}
    (h : ∀ x ∈ xs, ∀ y ∈ xs, better' x y = better x y) : bestOf? better' xs = bestOf? better xs := by
  induction xs using List.reverseRecOn with
  | nil => rfl
  | append_singleton xs y ih =>
    have hxs := ih fun x hx z hz =>
      h x (List.mem_append_left _ hx) z (List.mem_append_left _ hz)
    rw [bestOf?_concat, bestOf?_concat, hxs]
    cases hbest : bestOf? better xs with
    | none => rfl
    | some z =>
      have hz := List.mem_append_left [y] (mem_of_bestOf? hbest)
      simp only [h y (by simp) z hz]

/-- The same where the elements are compared by something computed for each of them. -/
theorem exists_bestOf?_map {α β : Type} (better : β → β → Bool) {f : α → β} {g : β → α}
    (hg : ∀ x, g (f x) = x) {xs : List α} (hne : xs ≠ []) :
    ∃ x ∈ xs, (bestOf? better (xs.map f)).map g = some x := by
  have hmap : xs.map f ≠ [] := mt List.map_eq_nil_iff.mp hne
  obtain ⟨y, hy, he⟩ := exists_bestOf? better hmap
  obtain ⟨x, hx, rfl⟩ := List.mem_map.mp hy
  refine ⟨x, hx, ?_⟩
  rw [he, Option.map_some, hg]

/-! ## Scores -/

section Scores

variable {R : Type} [Scalar R]

theorem Demand.cost_congr {d : Demand} {f g : Qubit → Qubit → R}
    (h : ∀ x ∈ d.front ++ d.following, f x.1 x.2 = g x.1 x.2) (weight : R) :
    d.cost weight f = d.cost weight g := by
  have htotal (gates : List (Qubit × Qubit)) (hg : ∀ x ∈ gates, f x.1 x.2 = g x.1 x.2) :
      total f gates = total g gates := congrArg Scalar.sum (List.map_congr_left hg)
  rw [cost, cost, htotal d.front fun x hx => h x (List.mem_append_left _ hx),
    htotal d.following fun x hx => h x (List.mem_append_right _ hx)]

theorem Score.ofSwap_congr {device : Device R} {plan : SearchPlan R} {demand : Demand}
    {place place' : Qubit → Qubit} (h : ∀ x ∈ demand.front ++ demand.following,
      place' x.1 = place x.1 ∧ place' x.2 = place x.2) (decay : R) (swap : Qubit × Qubit) :
    ofSwap device plan demand place' decay swap = ofSwap device plan demand place decay swap := by
  have hcost (c : Qubit → Qubit → R) :
      demand.cost plan.extendedSetWeight (fun a b => c (place' a) (place' b)) =
        demand.cost plan.extendedSetWeight fun a b => c (place a) (place b) :=
    Demand.cost_congr (fun x hx => by rw [(h x hx).1, (h x hx).2]) _
  unfold ofSwap
  rw [hcost device.hopCost, hcost device.pathCost]

end Scores

end QuantumCompiler
