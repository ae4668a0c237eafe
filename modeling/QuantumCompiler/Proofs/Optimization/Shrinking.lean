import QuantumCompiler.Proofs.Dag.Depth
import QuantumCompiler.Proofs.Flow.Preset
import QuantumCompiler.Proofs.Optimization.Blocks

/-!
# Optimization makes nothing bigger or deeper

Every local rewrite and every resynthesized run leaves operations out or puts others in the place of ones
on the same wires. So the list of the graph shrinks, and with it the number of its operations and its
depth. Repeating passes until the circuit stops getting smaller keeps that.
-/
namespace QuantumCompiler

open Dag (Alike Shrinks)

variable {R : Type} [Scalar R]

/-! ## Single operations -/

namespace Instruction

variable {i : Instruction R} {g : StandardGate R}

omit [Scalar R] in
/-- A gate counts as much as another one on its qubits, when it is on no other wire. -/
theorem alike_ofStandard (hg : i.isGate = true) (hc : i.clbits = []) (g' : StandardGate R) :
    Alike i (.ofStandard g' i.qubits) := by
  constructor
  · simp [wires, ofStandard, ofGate, hc]
  · obtain ⟨gate, hgate⟩ := Option.isSome_iff_exists.mp hg
    rw [isBarrier, gate?_eq_some.mp hgate]
    rfl

end Instruction

/-! ## Combining -/

namespace Peephole

variable {is js : List (Instruction R)} {ps : List R}

theorem Rewrite.shrinks (h : Rewrite is ps js) : Shrinks is js := by
  cases h with
  | exchange a b hd => exact (Shrinks.exchange hd b).append_left a
  | merge a b hi hj hic hjc ho hm =>
    have halike := Instruction.alike_ofStandard (Instruction.isGate_of_standard? hi) hic
    exact (((Shrinks.refl b).drop _).replace (halike _)).append_left a
  | cancel a b hi hj hic hjc ho hinv => exact (((Shrinks.refl b).drop _).drop _).append_left a
  | vanish a b hi hp => exact ((Shrinks.refl b).drop _).append_left a

theorem Rewrites.shrinks (h : Rewrites is ps js) : Shrinks is js := by
  induction h with
  | refl => exact .refl _
  | tail _ hs ih => exact ih.trans hs.shrinks

end Peephole

/-! ## Resynthesis -/

namespace Runs

variable {d e : Dag R} {es : Dag.Entries R}

/-- Resynthesis shrinks the list of a graph whose gates carry no classical bits. -/
theorem shrinks_all (h : d.Reads es) (hb : Peephole.Bare es) {device : Option (Device R)}
    {requested : Option EulerFamily} (he : all device requested d = .ok e) :
    ∃ es', e.Reads es' ∧ Shrinks (es.map (·.2)) (es'.map (·.2)) := by
  obtain ⟨resolved, hfamily, hrest⟩ := Outcome.bind_eq_ok.mp he
  cases resolved with
  | none =>
    obtain rfl := Except.ok.inj hrest
    exact ⟨es, h, .refl _⟩
  | some family =>
    refine ⟨_, (reads_all h hfamily he).1, .filterMap fun x hx y hy => ?_⟩
    rcases regates_rebuiltAll h d.numQubits hx with hsame | ⟨g, q, hg, hq, hgate⟩
    · rw [Option.some.inj (hy.symm.trans hsame)]
      exact ⟨rfl, rfl⟩
    · obtain ⟨g', rfl, -⟩ := hgate y hy
      have hisGate := (of_member?_eq_some hg).1
      rw [← hq]
      exact Instruction.alike_ofStandard hisGate (hb x hx hisGate) g'

end Runs

/-! ## Passes -/

/-- Passes that optimize gates in place, and repetitions of such passes. -/
inductive Pass.Optimizes : Pass R → Prop
  | combine : Optimizes .combine
  | resynthesize (family : Option EulerFamily) : Optimizes (.resynthesize family)
  | fixedPoint {passes : List (Pass R)} (rounds : Nat) (h : ∀ p ∈ passes, Optimizes p) :
    Optimizes (.fixedPoint passes rounds)

/-- The gates carry no classical bits, and the circuit is no bigger and no deeper than the given one. -/
structure Compilation.Within (d : Dag R) (c : Compilation R) : Prop where
  bare : c.dag.HasOnly fun i => i.isGate = true → i.clbits = []
  numOps : c.dag.numOps ≤ d.numOps
  depth : c.dag.depth ≤ d.depth

namespace Pass

variable {d : Dag R} {c c' : Compilation R}

theorem within_of_shrinks (h : c.Within d) {e : Dag R} {es es' : Dag.Entries R}
    (hr : c.dag.Reads es) (hr' : e.Reads es')
    (hb : e.HasOnly fun i => i.isGate = true → i.clbits = [])
    (hs : Shrinks (es.map (·.2)) (es'.map (·.2))) : ({ c with dag := e } : Compilation R).Within d := by
  refine ⟨hb, le_trans ?_ h.numOps, le_trans ?_ h.depth⟩
  · rw [hr.numOps_eq, hr'.numOps_eq]
    simpa using hs.length
  · rw [hr.depth_eq, hr'.depth_eq]
    exact hs.depth _

theorem exists_combine_within (h : c.Within d) :
    ∃ c', Pass.run .combine c = .ok c' ∧ c'.Within d := by
  obtain ⟨es, hr⟩ := h.bare.reachable.exists_reads
  have hbare : Peephole.Bare es := fun x hx => h.bare.all x.1 x.2 (hr.mem_iff.mp hx)
  obtain ⟨e, es', ps, he, hc⟩ := Peephole.combines_sweeps Peephole.maxSweeps hr hbare
  have hb : e.HasOnly fun i => i.isGate = true → i.clbits = [] :=
    hc.reads.hasOnly_iff.mpr (List.forall_mem_map.mpr (hc.bare hbare))
  refine ⟨{ c with dag := e }, ?_, within_of_shrinks h hr hc.reads hb hc.rewrites.shrinks⟩
  rw [Pass.run, Peephole.all, he]
  rfl

theorem within_resynthesize (h : c.Within d) {family : Option EulerFamily}
    (he : Pass.run (.resynthesize family) c = .ok c') : c'.Within d := by
  rw [Pass.run] at he
  obtain ⟨e, hd, he⟩ := Outcome.bind_eq_ok.mp he
  obtain rfl := Except.ok.inj he
  obtain ⟨es, hr⟩ := h.bare.reachable.exists_reads
  obtain ⟨es', hr', hs⟩ := Runs.shrinks_all hr
    (fun x hx => h.bare.all x.1 x.2 (hr.mem_iff.mp hx)) hd
  exact within_of_shrinks h hr hr' (Runs.hasOnly_all (fun _ _ _ _ => rfl) h.bare hd) hs

theorem within_of_optimizes {p : Pass R} (hp : p.Optimizes) (h : c.Within d)
    (he : p.run c = .ok c') : c'.Within d := by
  induction hp generalizing c c' with
  | combine =>
    obtain ⟨c₁, h₁, hw⟩ := exists_combine_within h
    exact Except.ok.inj (h₁.symm.trans he) ▸ hw
  | resynthesize family => exact within_resynthesize h he
  | @fixedPoint passes rounds _ ih =>
    rw [Pass.run] at he
    have hround : ∀ c c', c.Within d → Pass.runAll passes c = .ok c' → c'.Within d :=
      fun _ _ h he => runAll_keeps (I := (·.Within d)) (fun p hp _ _ h he => ih p hp h he) h he
    exact untilStable_keeps (I := (·.Within d)) hround _ h he

/-- Combining gates and resynthesizing runs, alone or repeated, make no circuit bigger or deeper if its
gates carry no classical bits. -/
theorem numOps_and_depth_le_of_optimizes {p : Pass R} (hp : p.Optimizes) (h : c.dag.Reachable)
    (hb : ∀ id i, c.dag.instruction? id = some i → i.isGate = true → i.clbits = [])
    (he : p.run c = .ok c') : c'.dag.numOps ≤ c.dag.numOps ∧ c'.dag.depth ≤ c.dag.depth := by
  have hw := within_of_optimizes hp (d := c.dag) ⟨⟨h, hb⟩, le_rfl, le_rfl⟩ he
  exact ⟨hw.numOps, hw.depth⟩

section Flips

open Runs (flips)

attribute [local instance] Scalar.real

theorem numOps_flips {d : Dag ℝ} {es : Dag.Entries ℝ} (h : d.Reads es)
    (hes : es.map (·.2) = flips) : d.numOps = 4 := by
  rw [h.numOps_eq, ← List.length_map (f := (·.2)), hes]
  rfl

/-- The flips are resynthesized and what is left is combined. -/
theorem exists_fixedPoint_flips {d : Dag ℝ} {es : Dag.Entries ℝ} (h : d.Reads es)
    (hes : es.map (·.2) = flips) (hq : d.numQubits = 2)
    (hb : ∀ id i, d.instruction? id = some i → i.isGate = true → i.clbits = []) :
    ∃ c', Pass.run (.fixedPoint [.resynthesize none, .combine] 1) (.ofDag d none none) = .ok c' := by
  obtain ⟨e, he⟩ := Runs.exists_all_flips h hes hq
  have hfirst : Pass.run (.resynthesize none) (.ofDag d none none) = .ok (.ofDag e none none) := by
    rw [Pass.run]
    exact Outcome.bind_eq_ok.mpr ⟨e, he, rfl⟩
  have hshould : Pass.shouldRun (.resynthesize none) (.ofDag d none none) = true :=
    decide_eq_true (by rw [Compilation.ofDag, numOps_flips h hes]; decide)
  have hw : (Compilation.ofDag d none none).Within d := ⟨⟨h.reachable, hb⟩, le_rfl, le_rfl⟩
  obtain ⟨c', hc'⟩ : ∃ c', Pass.runAll [.combine] (.ofDag e none none) = .ok c' := by
    obtain ⟨c', hc', -⟩ := exists_combine_within (within_resynthesize hw hfirst)
    rw [Pass.runAll_cons]
    split
    · exact ⟨c', Outcome.bind_eq_ok.mpr ⟨c', hc', rfl⟩⟩
    · exact ⟨_, rfl⟩
  have hround : Pass.runAll [.resynthesize none, .combine] (.ofDag d none none) = .ok c' := by
    rw [Pass.runAll_of_shouldRun hshould, hfirst]
    exact hc'
  refine ⟨c', ?_⟩
  rw [Pass.run]
  refine Outcome.bind_eq_ok.mpr ⟨c', hround, ?_⟩
  split <;> rfl

theorem numOps_and_depth_le_flips : ∃ d c', Dag.ofInstructions 2 1 flips = .ok d ∧
    Pass.run (.fixedPoint [.resynthesize none, .combine] 1) (.ofDag d none none) = .ok c' ∧
      c'.dag.numOps ≤ 4 ∧ c'.dag.depth ≤ 2 := by
  obtain ⟨d, es, hd, hr, hes, hq, hb⟩ := Runs.exists_reads_flips
  obtain ⟨c', hc'⟩ := exists_fixedPoint_flips hr hes hq hb
  have hoptimizes : (Pass.fixedPoint [.resynthesize none, .combine] 1 : Pass ℝ).Optimizes := by
    refine .fixedPoint 1 ?_
    simp only [List.forall_mem_cons]
    exact ⟨.resynthesize none, .combine, List.forall_mem_nil _⟩
  have hdepth : d.depth = 2 := by
    rw [hr.depth_eq, hes]
    rfl
  have hle := numOps_and_depth_le_of_optimizes hoptimizes (c := .ofDag d none none) hr.reachable hb hc'
  exact ⟨d, c', hd, hc', hle.1.trans_eq (numOps_flips hr hes), hle.2.trans_eq hdepth⟩

end Flips

end Pass

end QuantumCompiler
