import QuantumCompiler.Flow.Pass
import QuantumCompiler.Proofs.Device.Tables
import QuantumCompiler.Proofs.Routing.Search

/-!
# Placing a circuit in a compilation

The search for a layout succeeds exactly when the circuit fits the device, and what it leaves behind
when it fails is the compilation it was given.
-/
namespace QuantumCompiler.Compilation

open Layout (Suits Narrow)

variable {R : Type} [Scalar R] {c : Compilation R} {device : Device R}

theorem edit_searchLayout (hdevice : c.device = some device) (options : SearchOptions R)
    (fallback : Heuristic) : c.edit (.searchLayout options fallback) =
      match Routing.search device options fallback c.dag c.initial with
      | .ok routed => (.ok (), c.install routed)
      | .error x => (.error x, c) := by
  have htarget : c.target = .ok device := by rw [target, hdevice]
  change (ExceptT.run (do
    let device ← (liftExcept c.target : Edit R _)
    let routed ← liftExcept (Routing.search device options fallback c.dag c.initial)
    set (c.install routed) : Edit R Unit)).run c = _
  rw [htarget]
  change (ExceptT.run (do
    let routed ← (liftExcept (Routing.search device options fallback c.dag c.initial) : Edit R _)
    set (c.install routed) : Edit R Unit)).run c = _
  cases Routing.search device options fallback c.dag c.initial <;> rfl

/-- On a device in one part every circuit that is not too wide has a placement. -/
theorem suits_of_connected {d : Dag R} (h : d.Reachable) (hw : d.numQubits ≤ device.numQubits)
    (hc : ∀ p < device.numQubits, ∀ q < device.numQubits, device.Connected p q) :
    Suits device d id := by
  obtain ⟨es, h⟩ := h.exists_reads
  constructor
  · exact fun q hq => hq.trans_le hw
  · exact fun p _ q _ hpq => hpq
  · intro id i a b hi _ hq
    obtain ⟨ha, hb⟩ := Routing.operands_lt h hi hq
    exact hc a (ha.trans_le hw) b (hb.trans_le hw)

/-- The search for a layout succeeds exactly when the circuit has no more qubits than the device and
some placement of them on different physical qubits leaves the operands of every two-qubit gate
connected; on a connected device, whenever the circuit is not too wide. Which of the two fails is told
by the error, and a search that fails leaves the compilation as it was. -/
theorem places_iff_suits (hb : device.Built) (hdevice : c.device = some device)
    (hinitial : c.initial = none) (hd : c.dag.Reachable) (hn : Narrow c.dag)
    (options : SearchOptions R) (fallback : Heuristic) :
    ((∃ c', c.edit (.searchLayout options fallback) = (.ok (), c')) ↔
      c.dag.numQubits ≤ device.numQubits ∧ ∃ place, Suits device c.dag place) ∧
    (device.numQubits < c.dag.numQubits → c.edit (.searchLayout options fallback) =
      (.error (.insufficientQubits c.dag.numQubits device.numQubits), c)) ∧
    (c.dag.numQubits ≤ device.numQubits → (¬ ∃ place, Suits device c.dag place) →
      ∃ reason, c.edit (.searchLayout options fallback) =
        (.error (.unreachableLayout reason), c)) ∧
    ((∀ p < device.numQubits, ∀ q < device.numQubits, device.Connected p q) →
      c.dag.numQubits ≤ device.numQubits →
      ∃ c', c.edit (.searchLayout options fallback) = (.ok (), c')) := by
  obtain ⟨es, h⟩ := hd.exists_reads
  rw [edit_searchLayout hdevice, hinitial]
  rcases Routing.search_spec hb h hn options fallback with
    ⟨hw, hs, r, hr, -⟩ | ⟨hw, hno, reason, hr⟩ | ⟨hlt, hr⟩
  · rw [hr]
    refine ⟨⟨fun _ => ⟨hw, hs⟩, fun _ => ⟨_, rfl⟩⟩, fun hlt => ?_, fun _ hno => absurd hs hno,
      fun _ _ => ⟨_, rfl⟩⟩
    omega
  · rw [hr]
    refine ⟨⟨?_, fun h => absurd h.2 hno⟩, fun hlt => ?_, fun _ _ => ⟨reason, rfl⟩,
      fun hc _ => absurd ⟨_, suits_of_connected hd hw hc⟩ hno⟩
    · rintro ⟨c', hc'⟩
      cases hc'
    · omega
  · rw [hr]
    refine ⟨⟨?_, fun h => ?_⟩, fun _ => rfl, fun hw => ?_, fun _ hw => ?_⟩
    · rintro ⟨c', hc'⟩
      cases hc'
    all_goals omega

section Crossed

attribute [local instance] Scalar.real

/-- Two pairs of coupled qubits. -/
noncomputable def pairs : Device ℝ := .ofCouplings "pairs" 4 [⟨0, 1, 1⟩, ⟨2, 3, 1⟩] .standard

theorem built_pairs : pairs.Built := by
  have hcheck {a b : Qubit} (ha : a < 4) (hb : b < 4) (hne : a ≠ b) :
      Device.checkCoupling 4 (⟨a, b, 1⟩ : Coupling ℝ) = .ok () :=
    Device.checkCoupling_real ⟨ha, hb, hne⟩ one_pos le_rfl
  refine .ofEdges (Outcome.bind_eq_ok.mpr ⟨(), Outcome.forM_eq_ok.mpr ?_, rfl⟩)
  simp only [List.forall_mem_cons]
  exact ⟨hcheck (by decide) (by decide) (by decide), hcheck (by decide) (by decide) (by decide),
    by simp⟩

/-- Gates between the first qubits of two pairs, and between the second ones. -/
def crossed : List (Instruction ℝ) := [.ofStandard .cx [0, 2], .ofStandard .cx [1, 3]]

/-- The middle qubits change places. -/
def uncrossed : Qubit → Qubit := Equiv.swap 1 2

theorem places_crossed : ∃ d, Dag.ofInstructions 4 0 crossed = .ok d ∧ ∃ c',
    (Compilation.ofDag d (some pairs) none).edit (.searchLayout .standard .distance) =
      (.ok (), c') := by
  obtain ⟨d, es, hd, hr, hes, hq, -⟩ := Dag.exists_reads_ofInstructions 4 0 crossed
    (by
      simp only [crossed, List.forall_mem_cons]
      exact ⟨rfl, rfl, by simp⟩)
    (by simp [crossed, Instruction.ofStandard, Instruction.ofGate])
  have hmem {id : Nat} {i : Instruction ℝ} (hi : d.instruction? id = some i) :
      i.qubits = [0, 2] ∨ i.qubits = [1, 3] := by
    have hm : i ∈ crossed := hes ▸ List.mem_map_of_mem (f := (·.2)) (hr.mem_iff.mpr hi)
    simp only [crossed, List.mem_cons, List.not_mem_nil, or_false] at hm
    rcases hm with rfl | rfl
    · exact .inl rfl
    · exact .inr rfl
  have hn : Narrow d := by
    intro id i hi _
    rcases hmem hi with h | h <;> simp [h]
  have hs : Suits pairs d uncrossed := by
    refine ⟨?_, fun p _ q _ h => (Equiv.swap 1 2).injective h, ?_⟩
    · intro q hlt
      rw [hq] at hlt
      exact Placement.swap_lt (by decide) (by decide) hlt
    · intro id i a b hi _ hab
      rcases hmem hi with h | h
      · obtain ⟨rfl, rfl⟩ : a = 0 ∧ b = 2 := by simpa using hab.symm.trans h
        exact .single rfl
      · obtain ⟨rfl, rfl⟩ : a = 1 ∧ b = 3 := by simpa using hab.symm.trans h
        exact .single rfl
  have hfits : d.numQubits ≤ pairs.numQubits := hq.le
  exact ⟨d, hd, (places_iff_suits built_pairs rfl rfl hr.reachable hn .standard .distance).1.mpr
    ⟨hfits, _, hs⟩⟩

end Crossed

end QuantumCompiler.Compilation
