import QuantumCompiler.Proofs.Device.CostTable
import QuantumCompiler.Proofs.Device.Tables

/-!
# Costs are those of cheapest paths

A device looks up its costs in a table that was made from its couplings. The table of single links is
that of the coupling graph, whatever the order of the couplings, so the relaxed one holds the costs of
cheapest paths.
-/
namespace QuantumCompiler.Device

variable {R : Type} {n : Nat} {cs : List (Coupling R)} {a b : Qubit}

theorem joins_iff_pair {c : Coupling R} :
    c.joins a b = true ↔ s(c.source, c.target) = s(a, b) := by
  rw [joins_iff, Sym2.eq_iff]

theorem find?_joins {c : Coupling R} (hd : cs.Pairwise fun c e => c.joins e.source e.target = false)
    (hc : c ∈ cs) (hj : c.joins a b = true) : cs.find? (·.joins a b) = some c := by
  induction cs with
  | nil => cases hc
  | cons e cs ih =>
    obtain ⟨he, hd⟩ := List.pairwise_cons.mp hd
    rcases List.mem_cons.mp hc with rfl | hc
    · simp only [List.find?_cons, hj]
    · have hno : ¬e.joins a b = true := by
        intro hej
        have hec : e.joins c.source c.target = true :=
          joins_iff_pair.mpr ((joins_iff_pair.mp hej).trans (joins_iff_pair.mp hj).symm)
        rw [he c hc] at hec
        cases hec
      simp only [List.find?_cons, hno, ih hd hc]

theorem simple_map (link : Coupling R → Qubit × Qubit × R)
    (hl : ∀ c, s((link c).1, (link c).2.1) = s(c.source, c.target)) (hf : ∀ c ∈ cs, Fits n c)
    (hd : cs.Pairwise fun c e => c.joins e.source e.target = false) :
    CostTable.Simple n (cs.map link) := by
  constructor
  · intro l hlinks
    obtain ⟨c, hc, rfl⟩ := List.mem_map.mp hlinks
    obtain ⟨hs, ht, hne⟩ := hf c hc
    rcases Sym2.eq_iff.mp (hl c) with ⟨h₁, h₂⟩ | ⟨h₁, h₂⟩ <;> rw [h₁, h₂]
    · exact ⟨hs, ht, hne⟩
    · exact ⟨ht, hs, hne.symm⟩
  · refine List.pairwise_map.mpr (hd.imp fun {c e} hce heq => ?_)
    rw [hl, hl] at heq
    rw [joins_iff_pair.mpr heq] at hce
    cases hce

variable [Scalar R] {value : R → ℝ}

/-- What the link of two qubits costs. -/
def linkCost (value : R → ℝ) (cs : List (Coupling R)) (a b : Qubit) : ℝ :=
  (cs.find? (·.joins a b)).elim 0 fun c => value (-Scalar.ln c.fidelity)

theorem linkCost_comm (a b : Qubit) : linkCost value cs a b = linkCost value cs b a := by
  simp only [linkCost, joins_comm]

theorem linkCost_nonneg (hw : ∀ c ∈ cs, 0 ≤ value (-Scalar.ln c.fidelity)) (a b : Qubit) :
    0 ≤ linkCost value cs a b := by
  rw [linkCost]
  cases hc : cs.find? (·.joins a b) with
  | none => exact le_rfl
  | some c => exact hw c (List.mem_of_find?_eq_some hc)

/-- The table of single links is that of the coupling graph. -/
theorem relaxed_direct (hv : Scalar.Ordered value) (hf : ∀ c ∈ cs, Fits n c)
    (hd : cs.Pairwise fun c e => c.joins e.source e.target = false) :
    CostTable.Relaxed value (couplingGraph cs) (linkCost value cs) n 0
      (CostTable.direct n (cs.map fun c => (c.source, c.target, -Scalar.ln c.fidelity))) := by
  have hsimple := simple_map (fun c => (c.source, c.target, -Scalar.ln c.fidelity))
    (fun _ => rfl) hf hd
  have hcost {c : Coupling R} (hc : c ∈ cs) {a b : Qubit} (hj : c.joins a b = true) :
      linkCost value cs a b = value (-Scalar.ln c.fidelity) := by
    rw [linkCost, find?_joins hd hc hj, Option.elim_some]
  refine ⟨CostTable.square_direct n _, ?_, ?_, ?_, fun m hm => absurd hm (Nat.not_lt_zero m)⟩
  · intro a ha
    exact CostTable.worth_eq_coe.mpr
      ⟨0, (CostTable.get?_direct hsimple).mpr (.inl ⟨ha, rfl, rfl⟩), hv.zero⟩
  · intro a b hab
    obtain ⟨c, hc, hj⟩ := (couplingGraph_adj hf).mp hab
    refine le_of_eq (CostTable.worth_eq_coe.mpr ⟨_, (CostTable.get?_direct hsimple).mpr (.inr ?_),
      (hcost hc hj).symm⟩)
    exact ⟨_, List.mem_map_of_mem hc, joins_iff_pair.mp hj, rfl⟩
  · intro a b x hx
    obtain ⟨y, hy, rfl⟩ := CostTable.worth_eq_coe.mp hx
    rcases (CostTable.get?_direct hsimple).mp hy with ⟨-, rfl, rfl⟩ | ⟨l, hl, hab, rfl⟩
    · exact ⟨.nil, hv.zero.symm⟩
    · obtain ⟨c, hc, rfl⟩ := List.mem_map.mp hl
      have hj := joins_iff_pair.mpr hab
      have hadj : (couplingGraph cs).Adj a b := (couplingGraph_adj hf).mpr ⟨c, hc, hj⟩
      exact ⟨hadj.toWalk, by simp [hcost hc hj]⟩

theorem cost?_eq_get? (hv : Scalar.Ordered value) (d : Device R) (a b : Qubit) :
    d.cost? a b = d.costs.get? a b := by
  rw [cost?]
  cases d.costs.get? a b with
  | none => rfl
  | some c => rw [Option.filter_some, if_pos (hv.isFinite c)]

/-- The table of costs does not depend on the order in which the links are entered. -/
theorem cheapest_eq_costs {name : String} {edges : List (Coupling R)} {basis : Basis}
    (hf : ∀ c ∈ edges, Fits n c) {links : List (Qubit × Qubit × R)}
    (hlinks : links.Perm ((ofCouplings name n edges basis).couplings.map fun c =>
      (min c.source c.target, max c.source c.target, -Scalar.ln c.fidelity))) :
    CostTable.cheapest n links = (ofCouplings name n edges basis).costs := by
  have hfits : ∀ c ∈ distinctPairs edges, Fits n c := fun c hc => hf c (mem_distinctPairs hc)
  have hends (c : Coupling R) :
      s(min c.source c.target, max c.source c.target) = s(c.source, c.target) := by
    rcases le_total c.source c.target with hle | hle
    · rw [min_eq_left hle, max_eq_right hle]
    · rw [min_eq_right hle, max_eq_left hle, Sym2.eq_swap]
  have hkeyed := simple_map
    (fun c => (min c.source c.target, max c.source c.target, -Scalar.ln c.fidelity)) hends hfits
    (pairwise_distinctPairs edges)
  have hgiven := simple_map (fun c => (c.source, c.target, -Scalar.ln c.fidelity))
    (fun _ => rfl) hfits (pairwise_distinctPairs edges)
  have hdirect := CostTable.direct_eq (hkeyed.perm hlinks) hgiven fun pair w => by
    simp only [hlinks.mem_iff, ofCouplings, List.mem_map, exists_exists_and_eq_and, hends]
  rw [CostTable.cheapest, hdirect]
  rfl

/-- The costs of an accepted list of couplings are those of cheapest paths. -/
theorem costs_are_cheapest_paths {name : String} {edges : List (Coupling R)} {basis : Basis}
    {d : Device R} (hv : Scalar.Ordered value)
    (hw : ∀ c ∈ edges, 0 ≤ value (-Scalar.ln c.fidelity))
    (h : ofEdges name n edges basis = .ok d) :
    (∀ u v c, d.cost? u v = some c →
      (∃ p : (couplingGraph edges).Walk u v, p.IsPath ∧
        CostTable.walkCost (linkCost value edges) p = value c) ∧
      ∀ p : (couplingGraph edges).Walk u v,
        value c ≤ CostTable.walkCost (linkCost value edges) p) ∧
    (∀ u v, d.cost? u v = none ↔ ¬(u < n ∧ v < n ∧ d.component? u = d.component? v)) ∧
    (∀ u < n, ∃ c, d.cost? u u = some c ∧ value c = 0) ∧
    (∀ u v, (d.cost? u v).map value = (d.cost? v u).map value) ∧
    (∀ u v w c e, d.cost? u v = some c → d.cost? v w = some e →
      ∃ f, d.cost? u w = some f ∧ value f ≤ value c + value e) ∧
    ∀ links, links.Perm (d.couplings.map fun c =>
        (min c.source c.target, max c.source c.target, -Scalar.ln c.fidelity)) →
      CostTable.cheapest n links = d.costs := by
  have hd : WellFormed d := (Built.ofEdges h).wellFormed
  obtain ⟨rfl, hf⟩ := ofEdges_eq_ok h
  have hgraph : couplingGraph (ofCouplings name n edges basis).couplings = couplingGraph edges :=
    couplingGraph_distinctPairs hf
  have hcosts : linkCost value edges = linkCost value (ofCouplings name n edges basis).couplings := by
    funext a b
    rw [linkCost, linkCost, ← find?_distinctPairs edges]
    rfl
  have hnonneg := linkCost_nonneg hw
  rw [← hgraph]
  rw [hcosts] at hnonneg ⊢
  have hrelaxed := CostTable.relaxed_cheapest hv hnonneg (relaxed_direct hv hd.fits hd.distinct)
  simp only [cost?_eq_get? hv]
  refine ⟨fun u v c hc => hrelaxed.isLeast hnonneg hc, fun u v => ?_,
    fun u hu => hrelaxed.get?_self hu, hrelaxed.get?_comm linkCost_comm,
    fun u v w c e hc he => hrelaxed.get?_trans hc he, fun links => cheapest_eq_costs hf⟩
  refine (hrelaxed.get?_eq_none u v).trans (not_congr ?_)
  refine and_congr_right fun hu => and_congr_right fun hv => ?_
  rw [hd.component?_eq_iff hu hv, hd.distance?_isSome hv]

section Diamond

attribute [local instance] Scalar.real

/-- Two ways between opposite corners, one of them over better links. -/
noncomputable def diamond : List (Coupling ℝ) :=
  [⟨0, 1, 4 / 5⟩, ⟨1, 2, 4 / 5⟩, ⟨0, 3, 99 / 100⟩, ⟨3, 2, 99 / 100⟩]

/-- The way over the better links is the cheaper one. -/
theorem costs_of_diamond : ∃ d, ofEdges "diamond" 4 diamond .standard = .ok d ∧
    (∃ c, d.cost? 0 2 = some c ∧ c ≤ -2 * Real.log (99 / 100)) ∧ d.cost? 0 4 = none ∧
    d.cost? 0 2 = d.cost? 2 0 := by
  have hok : ofEdges "diamond" 4 diamond .standard =
      .ok (ofCouplings "diamond" 4 diamond .standard) := by
    refine Outcome.bind_eq_ok.mpr ⟨(), Outcome.forM_eq_ok.mpr ?_, rfl⟩
    simp only [diamond, List.forall_mem_cons]
    refine ⟨?_, ?_, ?_, ?_, by simp⟩
    · exact checkCoupling_real ⟨by decide, by decide, by decide⟩ (by norm_num) (by norm_num)
    · exact checkCoupling_real ⟨by decide, by decide, by decide⟩ (by norm_num) (by norm_num)
    · exact checkCoupling_real ⟨by decide, by decide, by decide⟩ (by norm_num) (by norm_num)
    · exact checkCoupling_real ⟨by decide, by decide, by decide⟩ (by norm_num) (by norm_num)
  have hnonneg : ∀ c ∈ diamond, 0 ≤ -Real.log c.fidelity := by
    simp only [diamond, List.forall_mem_cons, Left.nonneg_neg_iff]
    refine ⟨?_, ?_, ?_, ?_, by simp⟩
    · exact Real.log_nonpos (by norm_num) (by norm_num)
    · exact Real.log_nonpos (by norm_num) (by norm_num)
    · exact Real.log_nonpos (by norm_num) (by norm_num)
    · exact Real.log_nonpos (by norm_num) (by norm_num)
  obtain ⟨hleast, hnone, -, hsymm, -, -⟩ :=
    costs_are_cheapest_paths Scalar.ordered_real hnonneg hok
  have hfits : ∀ c ∈ diamond, Fits 4 c := (ofEdges_eq_ok hok).2
  have hfirst : (couplingGraph diamond).Adj 0 3 :=
    (couplingGraph_adj hfits).mpr ⟨_, .tail _ (.tail _ (.head _)), rfl⟩
  have hsecond : (couplingGraph diamond).Adj 3 2 :=
    (couplingGraph_adj hfits).mpr ⟨_, .tail _ (.tail _ (.tail _ (.head _))), rfl⟩
  have hd := (Built.ofEdges hok).wellFormed
  have hjoined : (ofCouplings "diamond" 4 diamond .standard).component? 0 =
      (ofCouplings "diamond" 4 diamond .standard).component? 2 :=
    (hd.component?_eq (b := 3) rfl).trans (hd.component?_eq rfl)
  obtain ⟨c, hc⟩ := Option.ne_none_iff_exists'.mp fun hno =>
    (hnone 0 2).mp hno ⟨by decide, by decide, hjoined⟩
  refine ⟨_, hok, ⟨c, hc, ?_⟩, (hnone 0 4).mpr fun hlt => absurd hlt.2.1 (by decide), ?_⟩
  · calc c ≤ CostTable.walkCost (linkCost (fun x => x) diamond) (.cons hfirst (.cons hsecond .nil)) :=
          (hleast 0 2 c hc).2 _
      _ = -Real.log (99 / 100) + (-Real.log (99 / 100) + 0) := rfl
      _ = -2 * Real.log (99 / 100) := by ring
  · simpa only [Option.map_id'] using hsymm 0 2

end Diamond

end QuantumCompiler.Device
