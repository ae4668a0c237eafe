import QuantumCompiler.Proofs.Lowering.Wide
import QuantumCompiler.Proofs.Routing.Search
import QuantumCompiler.Routing.Census

/-!
# Circuits that pass the check of couplings

Routing puts every two-qubit gate on a coupling. What takes the place of a gate acts on its operands or
on one of them, so couplings that were respected stay respected, and the check at the end has nothing
to find.
-/
namespace QuantumCompiler

variable {R : Type} {device : Device R} {i j : Instruction R}

theorem eq_singleton_or_pair {α : Type} {l : List α} (hpos : 0 < l.length) (hle : l.length ≤ 2) :
    (∃ a, l = [a]) ∨ ∃ a b, l = [a, b] := by
  obtain h | h : l.length = 1 ∨ l.length = 2 := by omega
  · exact .inl (List.length_eq_one_iff.mp h)
  · exact .inr (List.length_eq_two.mp h)

/-- A gate acts on qubits only, on one or on two that are coupled. -/
def Device.Admits (device : Device R) (i : Instruction R) : Prop :=
  i.isGate = true → i.clbits = [] ∧
    ((∃ q, i.qubits = [q]) ∨ ∃ a b, i.qubits = [a, b] ∧ device.isAdjacent a b = true)

/-- A piece of an admitted gate is admitted. -/
theorem Device.Admits.narrow (h : device.Admits i) (hi : i.isGate = true)
    (hj : j.Narrow i.qubits) : device.Admits j := by
  refine fun _ => ⟨hj.clbits, ?_⟩
  rcases eq_singleton_or_pair hj.pos hj.le with hq | ⟨x, y, hq⟩
  · exact .inl hq
  · have hd := hj.distinct
    have hs := hj.subset
    rw [hq] at hd hs
    have hne : x ≠ y := by simpa using hd
    refine .inr ⟨x, y, hq, ?_⟩
    rcases (h hi).2 with ⟨q, hiq⟩ | ⟨a, b, hiq, hab⟩
    · rw [hiq] at hs
      have hx : x = q := by simpa using hs x (by simp)
      have hy : y = q := by simpa using hs y (by simp)
      exact absurd (hx.trans hy.symm) hne
    · rw [hiq] at hs
      have hx : x = a ∨ x = b := by simpa using hs x (by simp)
      have hy : y = a ∨ y = b := by simpa using hs y (by simp)
      rcases hx with rfl | rfl <;> rcases hy with rfl | rfl
      · exact absurd rfl hne
      · exact hab
      · rw [device.isAdjacent_comm, hab]
      · exact absurd rfl hne

/-- Of the two qubits of an admitted gate the fidelity is known. -/
theorem Device.Admits.isSome_fidelity? (h : device.Admits i) {a b : Qubit}
    (hp : i.pair? = some (a, b)) : (device.fidelity? a b).isSome := by
  obtain ⟨hg, hq⟩ := Sweep.pair?_eq_some.mp hp
  rw [Device.fidelity?_isSome]
  rcases (h hg).2 with ⟨q, hq'⟩ | ⟨x, y, hq', hxy⟩
  · rw [hq] at hq'
    simp at hq'
  · obtain ⟨rfl, rfl⟩ : a = x ∧ b = y := by simpa using hq.symm.trans hq'
    exact hxy

variable [Scalar R] {d e : Dag R}

/-- Routing leaves only gates that the device admits. -/
theorem Routing.Realizes.hasOnly (h : Realizes device d e)
    (hd : d.HasOnly fun i => i.Plain ∧ (i.isGate = true → i.qubits.length ≤ 2)) :
    e.HasOnly device.Admits := by
  refine ⟨h.reachable, fun id o ho hg => ?_⟩
  rcases h.written id o ho with ⟨a, b, rfl, hab⟩ | ⟨k, i, p, hi, -, rfl⟩
  · exact ⟨rfl, .inr ⟨a, b, rfl, hab⟩⟩
  · obtain ⟨hplain, hle⟩ := hd.all k i hi
    have hgi : i.isGate = true := hg
    refine ⟨(hplain hgi).1, ?_⟩
    rcases eq_singleton_or_pair (List.length_pos_of_ne_nil (hplain hgi).2) (hle hgi) with
      ⟨q, hq⟩ | ⟨x, y, hq⟩
    · exact .inl ⟨p.physical q, by simp [Instruction.mapQubits, hq]⟩
    · have hmap : (i.mapQubits p.physical).qubits = [p.physical x, p.physical y] := by
        simp [Instruction.mapQubits, hq]
      exact .inr ⟨_, _, hmap, h.coupled id _ _ _ ho (Sweep.pair?_eq_some.mpr ⟨hg, hmap⟩)⟩

/-- The check of couplings passes where all gates are admitted. -/
theorem Census.exists_ofDag (h : d.HasOnly device.Admits) :
    ∃ c, Census.ofDag device d = .ok c := by
  have hcount (c : Census) {x : Nat × Instruction R} (hx : x ∈ d.instructions) :
      ∃ c', count device c x.2 = .ok c' := by
    have ha := h.all x.1 x.2 (Dag.mem_instructions.mp hx)
    unfold count
    split
    · rename_i hg
      rcases (ha hg).2 with ⟨q, hq⟩ | ⟨a, b, hq, hab⟩
      · rw [hq]
        exact ⟨_, rfl⟩
      · rw [hq]
        exact ⟨_, if_pos hab⟩
    · exact ⟨c, rfl⟩
  exact Outcome.exists_foldlM (fun c x hx => hcount c hx) _

end QuantumCompiler
