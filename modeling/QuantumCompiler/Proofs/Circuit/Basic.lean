import QuantumCompiler.Circuit.Basic
import QuantumCompiler.Proofs.Dag.Cyclic

/-!
# Circuits and their graphs

The graph of a circuit reads as its instructions. It cannot be read at all if one of them names a
classical bit twice, which no check looks for.
-/
namespace QuantumCompiler.Circuit

variable {R : Type} [Scalar R] {c : Circuit R} {d : Dag R}

theorem reads_of_toDag (hc : ∀ i ∈ c.instructions, i.clbits.Nodup) (h : c.toDag = .ok d) :
    ∃ es, d.Reads es ∧ es.map (·.2) = c.instructions ∧ d.numQubits = c.numQubits := by
  obtain ⟨e, he, hd⟩ := Outcome.bind_eq_ok.mp h
  obtain rfl := Except.ok.inj hd
  obtain ⟨es, hr, hes, hq⟩ := Dag.reads_of_ofInstructions hc he
  exact ⟨es, hr.withPhase _, hes, hq⟩

theorem cyclic_of_toDag (hc : ∃ i ∈ c.instructions, ¬ i.clbits.Nodup) (h : c.toDag = .ok d) :
    d.Cyclic := by
  obtain ⟨e, he, hd⟩ := Outcome.bind_eq_ok.mp h
  obtain rfl := Except.ok.inj hd
  obtain ⟨ha, hl⟩ := Dag.cyclic_of_ofInstructions he hc
  exact ⟨ha, hl⟩

theorem reads_or_cyclic_of_toDag (h : c.toDag = .ok d) :
    (∃ es, d.Reads es ∧ es.map (·.2) = c.instructions ∧ d.numQubits = c.numQubits) ∨ d.Cyclic := by
  by_cases hc : ∀ i ∈ c.instructions, i.clbits.Nodup
  · exact .inl (reads_of_toDag hc h)
  · push Not at hc
    exact .inr (cyclic_of_toDag hc h)

theorem exists_toDag
    (hv : ∀ i ∈ c.instructions, i.validate c.numQubits c.numClbits = .ok ())
    (hc : ∀ i ∈ c.instructions, i.clbits.Nodup) :
    ∃ d es, c.toDag = .ok d ∧ d.Reads es ∧ es.map (·.2) = c.instructions ∧
      d.numQubits = c.numQubits := by
  obtain ⟨d, es, hd, hr, hes, hq, -⟩ :=
    Dag.exists_reads_ofInstructions c.numQubits c.numClbits c.instructions hv hc
  refine ⟨d.setPhase c.phase, es, ?_, hr.withPhase _, hes, hq⟩
  rw [toDag, hd]
  rfl

theorem ofDag_eq_ok {name : String} {es : Dag.Entries R} (h : d.Reads es) :
    Circuit.ofDag name d = .ok ⟨name, d.numQubits, d.numClbits, es.map (·.2), d.phase⟩ := by
  rw [Circuit.ofDag, h.linearize_eq]
  rfl

end QuantumCompiler.Circuit
