import QuantumCompiler.Optimization.Runs
import QuantumCompiler.Proofs.Dag.Reads

/-!
# Resynthesized runs

A shorter sequence takes the nodes of a run one by one and the rest of them go away. Everything new is a
gate that the device executes, on the qubit of the run.
-/
namespace QuantumCompiler.Runs

variable {R : Type} [Scalar R] {P : Instruction R → Prop} {d e : Dag R}

theorem hasOnly_place {run : Run R} {s : OneQubitSequence R}
    (hs : ∀ g ∈ s.gates, P (.ofStandard g [run.qubit])) (h : d.HasOnly P)
    (he : place d run s = .ok e) : e.HasOnly P := by
  obtain ⟨f, hf, he⟩ := Outcome.bind_eq_ok.mp he
  obtain ⟨f', hf', he⟩ := Outcome.bind_eq_ok.mp he
  obtain rfl := Except.ok.inj he
  refine Dag.HasOnly.setPhase ?_ _
  have hreplaced : f.HasOnly P := by
    refine Outcome.foldlM_keeps (P := (Dag.HasOnly · P)) (fun x hx a b ha hb => ?_) h hf
    have hgate := hs x.2 (List.of_mem_zip hx).2
    exact ha.replace hgate List.nodup_nil (Outcome.ofCircuit_eq_ok.mp hb)
  refine Outcome.foldlM_keeps (P := (Dag.HasOnly · P)) (fun x hx a b ha hb => ?_) hreplaced hf'
  obtain ⟨⟨j, b'⟩, hremove, hb⟩ := Outcome.bind_eq_ok.mp hb
  obtain rfl := Except.ok.inj hb
  exact ha.remove (Outcome.ofCircuit_eq_ok.mp hremove)

/-- A run is left alone, or a sequence of executed gates takes its place. -/
theorem eq_or_place_of_resynthesize {family : EulerFamily} {executes : StandardGate R → Bool}
    {run : Run R} (he : resynthesize family executes d run = .ok e) :
    e = d ∨ ∃ s, (∀ g ∈ s.gates, executes g = true) ∧ place d run s = .ok e := by
  unfold resynthesize at he
  split at he
  · exact .inl (Except.ok.inj he).symm
  · obtain ⟨s, -, he⟩ := Outcome.bind_eq_ok.mp he
    split at he
    · rename_i hc
      rw [Bool.and_eq_true, List.all_eq_true] at hc
      exact .inr ⟨s, hc.2, he⟩
    · exact .inl (Except.ok.inj he).symm

theorem hasOnly_resynthesize {family : EulerFamily} {executes : StandardGate R → Bool}
    (hP : ∀ g q, executes g = true → P (.ofStandard g [q])) {run : Run R} (h : d.HasOnly P)
    (he : resynthesize family executes d run = .ok e) : e.HasOnly P := by
  rcases eq_or_place_of_resynthesize he with rfl | ⟨s, hs, he⟩
  · exact h
  · exact hasOnly_place (fun g hg => hP g _ (hs g hg)) h he

/-- A device executes the gates of its basis; without a device every gate is executed. -/
def executedBy (device : Option (Device R)) (g : StandardGate R) : Bool :=
  match device with
  | some device => device.basis.contains g.name
  | none => true

/-- What holds of every gate on one qubit that is executed is kept. -/
theorem hasOnly_all {device : Option (Device R)} {requested : Option EulerFamily}
    (hP : ∀ g q, executedBy device g = true → P (.ofStandard g [q])) (h : d.HasOnly P)
    (he : all device requested d = .ok e) : e.HasOnly P := by
  obtain ⟨family?, -, he⟩ := Outcome.bind_eq_ok.mp he
  cases family? with
  | none => exact Except.ok.inj he ▸ h
  | some family =>
    obtain ⟨runs, -, he⟩ := Outcome.bind_eq_ok.mp he
    exact Outcome.foldlM_keeps (P := (Dag.HasOnly · P))
      (fun _ _ _ _ ha hb => hasOnly_resynthesize hP ha hb) h he

end QuantumCompiler.Runs
