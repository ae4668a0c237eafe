import Mathlib
import QuantumCompiler.Dag.Order

/-!
# Positions

One position comes before another for good when they differ at some number and the first one has the
smaller number there. Then neither extends the other, so whatever is put under the first position
still comes before whatever is put under the second one.
-/
namespace QuantumCompiler.Dag

/-- The positions part at some number, and the first one takes the smaller branch. -/
def Precedes (p q : List Nat) : Prop :=
  ∃ trunk a b s t, p = trunk ++ a :: s ∧ q = trunk ++ b :: t ∧ a < b

namespace Precedes

variable {p q : List Nat}

theorem lt (h : Precedes p q) : p < q := by
  obtain ⟨trunk, a, b, s, t, rfl, rfl, hab⟩ := h
  exact List.append_left_lt (List.cons_lt_cons_iff.mpr (.inl hab))

/-- What is put under two positions keeps their order. -/
theorem append (h : Precedes p q) (u v : List Nat) : Precedes (p ++ u) (q ++ v) := by
  obtain ⟨trunk, a, b, s, t, rfl, rfl, hab⟩ := h
  exact ⟨trunk, a, b, s ++ u, t ++ v, by simp, by simp, hab⟩

theorem append_left (h : Precedes p q) (u : List Nat) : Precedes (p ++ u) q := by
  simpa using h.append u []

theorem append_right (h : Precedes p q) (v : List Nat) : Precedes p (q ++ v) := by
  simpa using h.append [] v

/-- The operations that replace one are numbered in their order. -/
theorem children (p : List Nat) {j k : Nat} (h : j < k) : Precedes (p ++ [j]) (p ++ [k]) :=
  ⟨p, j, k, [], [], rfl, rfl, h⟩

/-- Appended operations are numbered in their order. -/
theorem roots {j k : Nat} (s t : List Nat) (h : j < k) : Precedes (j :: s) (k :: t) :=
  ⟨[], j, k, s, t, rfl, rfl, h⟩

end Precedes

variable {R : Type}

theorem precedes_of_lt {d : Dag R} {a b : Nat} (h : d.position a < d.position b) :
    d.precedes a b = true := by
  simp [precedes, h]

theorem not_precedes_of_lt {d : Dag R} {a b : Nat} (h : d.position a < d.position b) :
    d.precedes b a = false := by
  have hn : ¬ d.position b < d.position a := List.lt_asymm h
  have he : d.position b ≠ d.position a := fun he => List.lt_irrefl _ (he ▸ h)
  simp [precedes, hn, he]

end QuantumCompiler.Dag
