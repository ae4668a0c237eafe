import QuantumCompiler.Proofs.Flow.Preparation
import QuantumCompiler.Proofs.Optimization.Resynthesis
import QuantumCompiler.Proofs.Readings

/-!
# Passes keep what is read

Binding, splitting, lowering and the optimizations rewrite gates only, or take a measurement of several
qubits apart in place. So between the circuit and its result nothing but routing moves a reading to
another qubit.
-/
namespace QuantumCompiler

variable {R : Type} [Scalar R] {d e : Dag R} {es : Dag.Entries R}

open Dag (KeepsReadout QuietAt)

/-! ## Before routing -/

theorem Instruction.readings_bound (o : CompileOptions R) (i : Instruction R) :
    (o.bound i).readings = i.readings := by
  obtain ⟨operation, qs, cs⟩ := i
  have hs := o.sameBut_bound ⟨operation, qs, cs⟩
  cases operation with
  | gate g => rw [readings_of_isGate (hs.isGate.trans rfl), readings_of_isGate rfl]
  | measure | reset | barrier | delay =>
    rw [CompileOptions.bound]
    split <;> rfl

/-- Taken apart, a measurement reads the same, and a gate still reads nothing. -/
theorem Wide.readings_of_split {i : Instruction R} {l : List (Instruction R)} (hd : i.qubits.Nodup)
    (hw : isWide i = true) (h : split i = .ok l) : readings l = i.readings := by
  obtain ⟨operation, qs, cs⟩ := i
  cases operation with
  | gate g =>
    rw [Instruction.readings_of_isGate rfl]
    exact readings_eq_nil fun j hj => (narrow_splitGate hd (.inl (by simpa [isWide] using hw)) h j hj).gate
  | measure =>
    obtain rfl := Except.ok.inj h
    change _ = qs.zip cs
    rw [← List.map_uncurry_zip_eq_zipWith, QuantumCompiler.readings, List.flatMap_map]
    exact (List.flatMap_congr fun x _ => rfl).trans (List.flatMap_singleton' _)
  | reset | barrier | delay => cases hw

/-- Splitting keeps the readings, and afterwards every measurement is of one qubit. -/
theorem Wide.readout_splitAll (h : d.Reads es) (he : splitAll d = .ok e) :
    e.readout = readings (es.map (·.2)) ∧ e.HasOnly Single ∧ e.numQubits = d.numQubits := by
  obtain ⟨es', hr, hes, hframe, hall⟩ := reads_splitAll h he
  refine ⟨?_, ?_, hframe.numQubits⟩
  · rw [hr.readout_eq, hes, Dag.lowerList]
    refine readings_flatMap fun i hi => ?_
    obtain ⟨x, hx, rfl⟩ := List.mem_map.mp hi
    split
    · rename_i hw
      exact readings_of_split (h.fits hx).distinct hw (split_of_parts (hall x hx hw).eq)
    · simp
  · rw [hr.hasOnly_iff, hes]
    intro j hj
    rcases Dag.mem_lowerList hj with ⟨hj, hnot⟩ | ⟨i, hi, hw, hj⟩
    · obtain ⟨x, hx, rfl⟩ := List.mem_map.mp hj
      exact single_of_not_isWide (h.valid x hx) hnot
    · obtain ⟨x, hx, rfl⟩ := List.mem_map.mp hi
      exact single_of_split (h.fits hx).distinct hw (split_of_parts (hall x hx hw).eq) j hj

/-- After the preparation the readings are those of the circuit, one qubit at a time. -/
theorem readout_preparation {o : CompileOptions R} {device : Device R} {c : Compilation R}
    (h : d.Reads es) (hc : Pass.runAll (Flow.preparation o) (.ofDag d (some device) none) = .ok c) :
    ∃ e, c = .ofDag e (some device) none ∧ e.readout = readings (es.map (·.2)) ∧
      e.HasOnly Wide.Single ∧ e.numQubits = d.numQubits := by
  obtain ⟨f, fs, hr, hfs, hq, hrun⟩ := exists_bound (o := o) h (some device)
  rw [hrun] at hc
  obtain ⟨e, he, rfl⟩ := Outcome.map_eq_ok.mp hc
  obtain ⟨hread, hsingle, hqe⟩ := Wide.readout_splitAll hr he
  refine ⟨e, rfl, ?_, hsingle, hqe.trans hq⟩
  rw [hread, hfs, readings, List.flatMap_map]
  exact List.flatMap_congr fun i _ => i.readings_bound o

/-! ## After routing -/

/-- Lowering keeps the readings, since whatever is not native is a gate. -/
theorem Basis.readout_lowerAll {device : Device R} {requested : Option EulerFamily} (h : d.Reads es)
    (he : lowerAll device requested d = .ok e) : e.Reachable ∧ e.readout = d.readout := by
  rcases reads_lowerAll device requested h with
    ⟨family, e', es', hres, he', hr, hes, -, -, -, hall⟩ | ⟨x, hx, -⟩
  · obtain rfl := Except.ok.inj (he'.symm.trans he)
    refine ⟨hr.reachable, ?_⟩
    rw [hr.readout_eq, h.readout_eq, hes, loweredList]
    refine readings_flatMap fun i hi => ?_
    obtain ⟨x, hx, rfl⟩ := List.mem_map.mp hi
    split
    · simp
    · -- what is not native is a gate, and its parts are gates
      rename_i hn
      rw [Instruction.readings_of_isGate (isGate_of_contains_eq_false (Bool.eq_false_iff.mpr hn))]
      refine readings_eq_nil fun j hj => ?_
      rcases lower_spec (provides_of_resolveFamily hres) maxRules (h.fits hx).distinct
        (hall x hx (by simpa using hn)).eq with ⟨-, hc⟩ | hon
      · exact absurd hc hn
      · exact (hon j hj).1.gate
  · cases hx.symm.trans he

namespace Peephole

variable {id next : Nat}

theorem keepsReadout_removeIdentity {phase : R} (h : d.Reachable) (hq : d.QuietAt id)
    (he : removeIdentity d id phase = .ok e) : KeepsReadout d e := by
  obtain ⟨⟨i, f⟩, hf, he⟩ := Outcome.bind_eq_ok.mp he
  obtain rfl := Except.ok.inj he
  exact (Dag.keepsReadout_remove h hq (Outcome.ofCircuit_eq_ok.mp hf)).setPhase _

theorem keepsReadout_mergeInto {i : Instruction R} {g : StandardGate R} (h : d.Reachable)
    (hq : d.QuietAt id) (hn : d.QuietAt next) (he : mergeInto d id next i g = .ok e) :
    KeepsReadout d e := by
  obtain ⟨f, hf, he⟩ := Outcome.bind_eq_ok.mp he
  obtain ⟨⟨j, f'⟩, hf', he⟩ := Outcome.bind_eq_ok.mp he
  obtain rfl := Except.ok.inj he
  have hfirst := Dag.keepsReadout_replace h hq rfl List.nodup_nil (Outcome.ofCircuit_eq_ok.mp hf)
  exact hfirst.trans
    (Dag.keepsReadout_remove hfirst.reachable (hn.keeps hfirst) (Outcome.ofCircuit_eq_ok.mp hf'))

theorem keepsReadout_removePair (h : d.Reachable) (hq : d.QuietAt id) (hn : d.QuietAt next)
    (he : removePair d id next = .ok e) : KeepsReadout d e := by
  obtain ⟨⟨i, f⟩, hf, he⟩ := Outcome.bind_eq_ok.mp he
  obtain ⟨⟨j, f'⟩, hf', he⟩ := Outcome.bind_eq_ok.mp he
  obtain rfl := Except.ok.inj he
  have hfirst := Dag.keepsReadout_remove h hn (Outcome.ofCircuit_eq_ok.mp hf)
  exact hfirst.trans
    (Dag.keepsReadout_remove hfirst.reachable (hq.keeps hfirst) (Outcome.ofCircuit_eq_ok.mp hf'))

omit [Scalar R] in
theorem instruction?_of_follower? {i j : Instruction R} (h : follower? d id i = some (next, j)) :
    d.instruction? next = some j := by
  obtain ⟨first, -, h⟩ := Option.bind_eq_some_iff.mp h
  obtain ⟨next', -, h⟩ := Option.bind_eq_some_iff.mp h
  obtain ⟨j', hj, h⟩ := Option.bind_eq_some_iff.mp h
  split at h
  · obtain ⟨rfl, rfl⟩ := Prod.mk.inj (Option.some.inj h)
    exact hj
  · cases h

/-- A local step only ever touches gates. -/
theorem keepsReadout_step (h : d.Reachable) (he : step d id = .ok (some e)) : KeepsReadout d e := by
  unfold step at he
  split at he
  · cases he
  · rename_i i hi
    split at he
    · cases he
    · rename_i g hg
      have hq : d.QuietAt id := Dag.quietAt_of_isGate hi (Instruction.isGate_of_standard? hg)
      split at he
      · obtain ⟨f, hf, he⟩ := Outcome.bind_eq_ok.mp he
        obtain rfl := Option.some.inj (Except.ok.inj he)
        exact keepsReadout_removeIdentity h hq hf
      · split at he
        · cases he
        · rename_i next j hf
          split at he
          · cases he
          · rename_i other ho
            have hn : d.QuietAt next := Dag.quietAt_of_isGate (instruction?_of_follower? hf)
              (Instruction.isGate_of_standard? ho)
            split at he
            · split at he
              · obtain ⟨f, hf, he⟩ := Outcome.bind_eq_ok.mp he
                obtain rfl := Option.some.inj (Except.ok.inj he)
                exact keepsReadout_mergeInto h hq hn hf
              · split at he
                · obtain ⟨f, hf, he⟩ := Outcome.bind_eq_ok.mp he
                  obtain rfl := Option.some.inj (Except.ok.inj he)
                  exact keepsReadout_removePair h hq hn hf
                · cases he
            · cases he

theorem keepsReadout_sweep {changed : Bool} (h : d.Reachable) (he : sweep d = .ok (e, changed)) :
    KeepsReadout d e := by
  obtain ⟨nodes, -, he⟩ := Outcome.bind_eq_ok.mp he
  refine Outcome.foldlM_keeps (P := fun s : Dag R × Bool => KeepsReadout d s.1)
    (fun id _ s t hs ht => ?_) (.refl h) he
  obtain ⟨done, hdone, ht⟩ := Outcome.bind_eq_ok.mp ht
  cases done with
  | none => exact Except.ok.inj ht ▸ hs
  | some f =>
    obtain rfl := Except.ok.inj ht
    exact hs.trans (keepsReadout_step hs.reachable hdone)

theorem keepsReadout_sweeps (n : Nat) (h : d.Reachable) (he : sweeps n d = .ok e) :
    KeepsReadout d e := by
  induction n generalizing d with
  | zero => exact Except.ok.inj he ▸ .refl h
  | succ n ih =>
    obtain ⟨⟨f, changed⟩, hf, he⟩ := Outcome.bind_eq_ok.mp he
    have hfirst := keepsReadout_sweep h hf
    cases changed with
    | false => exact Except.ok.inj he ▸ hfirst
    | true => exact hfirst.trans (ih hfirst.reachable he)

end Peephole

namespace Runs

theorem keepsReadout_place {run : Run R} {s : OneQubitSequence R} (h : d.Reachable)
    (hq : ∀ k ∈ run.members.map (·.1), d.QuietAt k) (he : place d run s = .ok e) :
    KeepsReadout d e := by
  obtain ⟨f, hf, he⟩ := Outcome.bind_eq_ok.mp he
  obtain ⟨f', hf', he⟩ := Outcome.bind_eq_ok.mp he
  obtain rfl := Except.ok.inj he
  have hreplaced : KeepsReadout d f := by
    refine Outcome.foldlM_keeps (P := KeepsReadout d) (fun x hx a b ha hb => ?_) (.refl h) hf
    exact ha.trans (Dag.keepsReadout_replace ha.reachable ((hq x.1 (List.of_mem_zip hx).1).keeps ha)
      rfl List.nodup_nil (Outcome.ofCircuit_eq_ok.mp hb))
  refine (Outcome.foldlM_keeps (P := KeepsReadout d) (fun k hk a b ha hb => ?_) hreplaced
    hf').setPhase _
  obtain ⟨⟨j, b'⟩, hremove, hb⟩ := Outcome.bind_eq_ok.mp hb
  obtain rfl := Except.ok.inj hb
  exact ha.trans (Dag.keepsReadout_remove ha.reachable ((hq k (List.mem_of_mem_drop hk)).keeps ha)
    (Outcome.ofCircuit_eq_ok.mp hremove))

theorem keepsReadout_resynthesize {family : EulerFamily} {executes : StandardGate R → Bool}
    {run : Run R} (h : d.Reachable) (hq : ∀ k ∈ run.members.map (·.1), d.QuietAt k)
    (he : resynthesize family executes d run = .ok e) : KeepsReadout d e := by
  rcases eq_or_place_of_resynthesize he with rfl | ⟨s, -, he⟩
  · exact .refl h
  · exact keepsReadout_place h hq he

/-- The members of runs are gates, and so is what takes their place. -/
theorem keepsReadout_all {device : Option (Device R)} {requested : Option EulerFamily}
    (h : d.Reads es) (he : all device requested d = .ok e) : KeepsReadout d e := by
  obtain ⟨family?, -, he⟩ := Outcome.bind_eq_ok.mp he
  cases family? with
  | none => exact Except.ok.inj he ▸ .refl h.reachable
  | some family =>
    obtain ⟨runs, hruns, he⟩ := Outcome.bind_eq_ok.mp he
    rw [ofDag_eq h] at hruns
    obtain rfl := Except.ok.inj hruns
    refine Outcome.foldlM_keeps (P := KeepsReadout d) (fun run hrun a b ha hb => ?_)
      (.refl h.reachable) he
    obtain ⟨q, -, hrun⟩ := List.mem_flatMap.mp hrun
    have hq : ∀ k ∈ run.members.map (·.1), d.QuietAt k := by
      intro k hk
      obtain ⟨i, g, hi, hg, -⟩ := (member_of_mem_onQubit hrun).2 k hk
      exact Dag.quietAt_of_isGate (h.mem_iff.mp hi) (of_member?_eq_some hg).1
    exact ha.trans (keepsReadout_resynthesize ha.reachable (fun k hk => (hq k hk).keeps ha) hb)

end Runs

/-! ## Passes after routing -/

/-- A compilation whose circuit reads as before, with the same places. -/
structure Compilation.Settles (c c' : Compilation R) : Prop where
  reachable : c'.dag.Reachable
  readout : c'.dag.readout = c.dag.readout
  device : c'.device = c.device
  initial : c'.initial = c.initial
  final : c'.final = c.final
  routing : c'.routing = c.routing

section Passes

open Compilation (Settles)

variable {c c' c'' : Compilation R}

theorem Compilation.Settles.trans (h : c.Settles c') (g : c'.Settles c'') :
    c.Settles c'' :=
  ⟨g.reachable, g.readout.trans h.readout, g.device.trans h.device, g.initial.trans h.initial,
    g.final.trans h.final, g.routing.trans h.routing⟩

theorem settles_of_keepsReadout (h : KeepsReadout c.dag d) : c.Settles { c with dag := d } :=
  ⟨h.reachable, h.readout, rfl, rfl, rfl, rfl⟩

theorem settles_lower {family : Option EulerFamily} (h : c.dag.Reachable)
    (he : Pass.run (.lower family) c = .ok c') : c.Settles c' := by
  obtain ⟨device, -, he⟩ := Outcome.bind_eq_ok.mp he
  obtain ⟨d, hd, he⟩ := Outcome.bind_eq_ok.mp he
  obtain rfl := Except.ok.inj he
  obtain ⟨es, hr⟩ := h.exists_reads
  obtain ⟨hreachable, hread⟩ := Basis.readout_lowerAll hr hd
  exact ⟨hreachable, hread, rfl, rfl, rfl, rfl⟩

theorem settles_combine (h : c.dag.Reachable) (he : Pass.run .combine c = .ok c') :
    c.Settles c' := by
  obtain ⟨d, hd, he⟩ := Outcome.bind_eq_ok.mp he
  obtain rfl := Except.ok.inj he
  exact settles_of_keepsReadout (Peephole.keepsReadout_sweeps _ h hd)

theorem settles_resynthesize {family : Option EulerFamily} (h : c.dag.Reachable)
    (he : Pass.run (.resynthesize family) c = .ok c') : c.Settles c' := by
  obtain ⟨d, hd, he⟩ := Outcome.bind_eq_ok.mp he
  obtain rfl := Except.ok.inj he
  obtain ⟨es, hr⟩ := h.exists_reads
  exact settles_of_keepsReadout (Runs.keepsReadout_all hr hd)

theorem settles_checkCouplings (h : c.dag.Reachable) (he : Pass.run .checkCouplings c = .ok c') :
    c.Settles c' := by
  obtain ⟨device, -, he⟩ := Outcome.bind_eq_ok.mp he
  obtain ⟨census, -, he⟩ := Outcome.bind_eq_ok.mp he
  obtain rfl := Except.ok.inj he
  exact ⟨h, rfl, rfl, rfl, rfl, rfl⟩

/-- Passes that each settle a compilation settle it one after another. -/
theorem settles_runAll {ps : List (Pass R)}
    (hps : ∀ p ∈ ps, ∀ c c' : Compilation R, c.dag.Reachable → p.run c = .ok c' → c.Settles c')
    (h : c.dag.Reachable) (he : Pass.runAll ps c = .ok c') : c.Settles c' :=
  Pass.runAll_keeps (I := c.Settles)
    (fun p hp _ _ ha hb => ha.trans (hps p hp _ _ ha.reachable hb)) ⟨h, rfl, rfl, rfl, rfl, rfl⟩ he

theorem settles_optimization {o : CompileOptions R} (h : c.dag.Reachable)
    (he : Pass.runAll (Flow.optimization o) c = .ok c') : c.Settles c' := by
  have hpair : ∀ p ∈ ([.combine, .resynthesize o.family] : List (Pass R)),
      ∀ c c' : Compilation R, c.dag.Reachable → p.run c = .ok c' → c.Settles c' := by
    simp only [List.forall_mem_cons]
    exact ⟨fun _ _ => settles_combine, fun _ _ => settles_resynthesize, List.forall_mem_nil _⟩
  rw [Flow.optimization] at he
  split at he
  · exact settles_runAll hpair h he
  · rw [Pass.runAll_singleton rfl, Pass.run] at he
    exact Pass.untilStable_keeps (I := c.Settles)
      (fun _ _ ha hb => ha.trans (settles_runAll hpair ha.reachable hb)) _
      ⟨h, rfl, rfl, rfl, rfl, rfl⟩ he

/-- After routing no pass of a preset touches readings or places. -/
theorem settles_finish {o : CompileOptions R} (h : c.dag.Reachable)
    (he : Pass.runAll (.lower o.family :: (Flow.optimization o ++ [.checkCouplings])) c = .ok c') :
    c.Settles c' := by
  rw [Pass.runAll_of_shouldRun rfl] at he
  obtain ⟨c₁, hlower, he⟩ := Outcome.bind_eq_ok.mp he
  rw [Pass.runAll_append] at he
  obtain ⟨c₂, hopt, hcheck⟩ := Outcome.bind_eq_ok.mp he
  rw [Pass.runAll_singleton rfl] at hcheck
  have h₁ := settles_lower h hlower
  have h₂ := h₁.trans (settles_optimization h₁.reachable hopt)
  exact h₂.trans (settles_checkCouplings h₂.reachable hcheck)

end Passes

end QuantumCompiler
