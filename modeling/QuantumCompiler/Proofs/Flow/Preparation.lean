import QuantumCompiler.Proofs.Flow.Preset

/-!
# The preparation of a preset

Every preset binds the numbers of its options and splits wide operations before it does anything else.
Binding changes angles only and never fails, and splitting does not get past a graph that cannot be read.
-/
namespace QuantumCompiler

variable {R : Type} [Scalar R]

namespace Flow

/-- The passes of a preset after the preparation. -/
def rest (o : CompileOptions R) : Flow R :=
  if o.level = 0 then [.lower o.family]
  else .searchLayout o.search (.ofLevel (min o.level 3)) :: .lower o.family ::
    (optimization o ++ [.checkCouplings])

omit [Scalar R] in
theorem preset_eq (o : CompileOptions R) : preset o = preparation o ++ rest o := by
  rcases Nat.eq_zero_or_pos o.level with h | h
  · rw [preset_of_zero h, rest, if_pos h]
  · rw [preset_of_pos h, rest, if_neg (by omega), front]
    simp

end Flow

/-- An instruction with the numbers of the options for names. -/
def CompileOptions.bound (o : CompileOptions R) (i : Instruction R) : Instruction R :=
  if o.parameters.isEmpty then i else i.bound o.parameters

section Preparation

variable {o : CompileOptions R} {circuit : Circuit R} {d : Dag R} {es : Dag.Entries R}

theorem CompileOptions.sameBut_bound (o : CompileOptions R) (i : Instruction R) :
    Instruction.SameBut i (o.bound i) := by
  unfold CompileOptions.bound
  split
  · exact ⟨rfl, rfl, rfl, rfl, rfl⟩
  · exact i.sameBut_bound _

theorem runAll_splitWide (d : Dag R) (device : Option (Device R)) :
    Pass.runAll [.splitWide] (.ofDag d device none) =
      (Wide.splitAll d).map fun e => .ofDag e device none := by
  rw [Pass.runAll_singleton rfl, Pass.run]
  rfl

/-- The preparation binds, which never fails, and then splits. -/
theorem exists_bound (h : d.Reads es) (device : Option (Device R)) :
    ∃ e es', e.Reads es' ∧ es'.map (·.2) = (es.map (·.2)).map o.bound ∧
      e.numQubits = d.numQubits ∧ Pass.runAll (Flow.preparation o) (.ofDag d device none) =
        (Wide.splitAll e).map fun f => .ofDag f device none := by
  unfold Flow.preparation
  split
  · rename_i hempty
    refine ⟨d, es, h, ?_, rfl, runAll_splitWide d device⟩
    have hid : o.bound = id := by
      funext i
      rw [CompileOptions.bound, if_pos hempty]
      rfl
    rw [hid, List.map_id]
  · rename_i hne
    obtain ⟨e, he, hr, hf⟩ := h.bindAll o.parameters
    refine ⟨e, _, hr, ?_, hf.numQubits, ?_⟩
    · rw [List.map_map, List.map_map]
      refine List.map_congr_left fun x _ => ?_
      rw [Function.comp_apply, Function.comp_apply, CompileOptions.bound, if_neg hne]
    · rw [Pass.runAll_append, Pass.runAll_singleton (by simpa [Pass.shouldRun] using hne), Pass.run]
      change ((d.bindAll o.parameters >>= _) >>= _) = _
      rw [he]
      exact runAll_splitWide e device

/-- What is prepared can be read, and it reads as the circuit. -/
theorem reads_of_preparation (hd : circuit.toDag = .ok d) {device : Device R} {c : Compilation R}
    (h : Pass.runAll (Flow.preparation o) (.ofDag d (some device) none) = .ok c) :
    ∃ es, d.Reads es ∧ es.map (·.2) = circuit.instructions := by
  rcases Circuit.reads_or_cyclic_of_toDag hd with ⟨es, hr, hes, -⟩ | hcyclic
  · exact ⟨es, hr, hes⟩
  · rw [Flow.preparation, Pass.runAll_append] at h
    obtain ⟨c₁, hbind, h⟩ := Outcome.bind_eq_ok.mp h
    obtain ⟨e, rfl, he⟩ : ∃ e, c₁ = .ofDag e (some device) none ∧ e.Cyclic := by
      split at hbind
      · exact ⟨d, (Except.ok.inj hbind).symm, hcyclic⟩
      · rename_i hne
        rw [Pass.runAll_singleton (by simpa [Pass.shouldRun] using hne), Pass.run] at hbind
        obtain ⟨e, he, hbind⟩ := Outcome.bind_eq_ok.mp hbind
        exact ⟨e, (Except.ok.inj hbind).symm, hcyclic.bindAll he⟩
    rw [runAll_splitWide, Wide.splitAll, Dag.lowerWhere, he.topologicalOps_eq] at h
    cases h

end Preparation

end QuantumCompiler
