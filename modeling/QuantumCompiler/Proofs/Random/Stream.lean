import Mathlib
import QuantumCompiler.Random.Stream

/-!
# What random choices keep

Whatever words come up, a chosen element is one of the list, and a random order is an order of the
same elements.
-/
namespace QuantumCompiler.Random.Stream

variable {α : Type}

theorem mem_of_choose? {s : Stream} {xs : List α} {x : α} (h : (s.choose? xs).1 = some x) :
    x ∈ xs := by
  rw [choose?] at h
  split at h
  · cases h
  · generalize s.index xs.length = drawn at h
    obtain ⟨i, s⟩ := drawn
    exact List.mem_of_getElem? h

theorem swapIfInBounds_perm (xs : Array α) (i j : Nat) :
    (xs.swapIfInBounds i j).toList.Perm xs.toList := by
  rw [Array.swapIfInBounds]
  split
  · split
    · exact (Array.swap_perm _ _).toList
    · rfl
  · rfl

/-- A random order is an order of the same elements. -/
theorem perm_shuffle (s : Stream) (xs : List α) : (s.shuffle xs).1.Perm xs := by
  rw [shuffle]
  refine List.foldrRecOn (motive := fun acc : Array α × Stream => acc.1.toList.Perm xs) _ _
    (.refl xs) ?_
  intro acc hacc k _
  generalize acc.2.index (k + 2) = drawn
  obtain ⟨j, s⟩ := drawn
  exact (swapIfInBounds_perm _ _ _).trans hacc

end QuantumCompiler.Random.Stream
