import QuantumCompiler.Proofs.Device.Built
import QuantumCompiler.Proofs.Device.Distance
import QuantumCompiler.Proofs.Numeric.Exact

/-!
# The tables of a device describe its coupling graph

A device answers from tables that are made one by one: kept couplings, neighbour lists, a search to every
qubit and component numbers. All of them speak about one graph, the one of the listed couplings.
-/
namespace QuantumCompiler.Device

variable {R : Type}

/-! ## The graph of a list of couplings -/

/-- Two qubits are adjacent when a coupling of the list joins them, in either order. -/
def couplingGraph (cs : List (Coupling R)) : SimpleGraph Qubit :=
  .fromRel fun a b => ∃ c ∈ cs, c.source = a ∧ c.target = b

theorem couplingGraph_adj {n : Nat} {cs : List (Coupling R)} (hf : ∀ c ∈ cs, Fits n c)
    {a b : Qubit} : (couplingGraph cs).Adj a b ↔ ∃ c ∈ cs, c.joins a b = true := by
  rw [couplingGraph, SimpleGraph.fromRel_adj]
  constructor
  · rintro ⟨-, ⟨c, hc, hab⟩ | ⟨c, hc, hab⟩⟩
    · exact ⟨c, hc, joins_iff.mpr (.inl hab)⟩
    · exact ⟨c, hc, joins_iff.mpr (.inr hab)⟩
  · rintro ⟨c, hc, hj⟩
    have hne := (hf c hc).distinct
    rcases joins_iff.mp hj with ⟨rfl, rfl⟩ | ⟨rfl, rfl⟩
    · exact ⟨hne, .inl ⟨c, hc, rfl, rfl⟩⟩
    · exact ⟨hne.symm, .inr ⟨c, hc, rfl, rfl⟩⟩

/-- A coupling joins what another one does that joins its ends. -/
theorem joins_of_joins {c e : Coupling R} {a b : Qubit} (hc : c.joins e.source e.target = true)
    (he : e.joins a b = true) : c.joins a b = true := by
  rcases joins_iff.mp he with ⟨rfl, rfl⟩ | ⟨rfl, rfl⟩
  · exact hc
  · rwa [joins_comm]

theorem find?_foldl_distinct (edges kept : List (Coupling R)) (a b : Qubit) :
    (edges.foldl (fun kept e => if kept.any (·.joins e.source e.target) then kept
      else kept ++ [e]) kept).find? (·.joins a b) = (kept ++ edges).find? (·.joins a b) := by
  induction edges generalizing kept with
  | nil => simp
  | cons e edges ih =>
    rw [List.foldl_cons, ih]
    split
    · rename_i hany
      obtain ⟨c, hc, hce⟩ := List.any_eq_true.mp hany
      rw [List.find?_append, List.find?_append]
      by_cases hj : e.joins a b = true
      · -- a coupling that was kept answers for the repeated pair
        have hsome : (kept.find? (·.joins a b)).isSome = true :=
          List.find?_isSome.mpr ⟨c, hc, joins_of_joins hce hj⟩
        obtain ⟨k, hk⟩ := Option.isSome_iff_exists.mp hsome
        rw [hk, Option.some_or, Option.some_or]
      · simp only [List.find?_cons, Bool.eq_false_of_not_eq_true hj]
    · rw [List.append_assoc, List.singleton_append]

/-- The couplings that are kept are the first ones of their pairs. -/
theorem find?_distinctPairs (edges : List (Coupling R)) (a b : Qubit) :
    (distinctPairs edges).find? (·.joins a b) = edges.find? (·.joins a b) := by
  rw [distinctPairs, find?_foldl_distinct, List.nil_append]

/-- A list of couplings and the couplings that are kept have one graph. -/
theorem couplingGraph_distinctPairs {n : Nat} {edges : List (Coupling R)}
    (hf : ∀ c ∈ edges, Fits n c) :
    couplingGraph (distinctPairs edges) = couplingGraph edges := by
  ext a b
  rw [couplingGraph_adj fun c hc => hf c (mem_distinctPairs hc), couplingGraph_adj hf,
    ← List.find?_isSome, ← List.find?_isSome, find?_distinctPairs]

namespace WellFormed

variable {d : Device R} {a b : Qubit}

/-! ## Distances and paths -/

theorem graph_adj (h : WellFormed d) :
    (couplingGraph d.couplings).Adj a b ↔ d.isAdjacent a b = true := by
  rw [couplingGraph_adj h.fits, isAdjacent, List.any_eq_true]

theorem adjacency_graph (h : WellFormed d) (p r : Qubit) :
    r ∈ d.adjacency.getD p [] ↔ (couplingGraph d.couplings).Adj p r :=
  h.mem_neighbours.trans h.graph_adj.symm

theorem distance?_eq_some_iff (h : WellFormed d) (hb : b < d.numQubits) {k : Nat} :
    d.distance? a b = some k ↔ (Approach.toQubit d.adjacency b).Knows a k := by
  rw [distance?, (h.approach hb).1, Option.bind_some, Array.getD_eq_getD_getElem?,
    Approach.Knows]
  cases (Approach.toQubit d.adjacency b).hops[a]? <;> simp

theorem layered (h : WellFormed d) (hb : b < d.numQubits) :
    Approach.Layered d.adjacency (Approach.toQubit d.adjacency b) [] :=
  Approach.layered_toQubit (by rwa [h.size_adjacency])

/-- Distances are least numbers of couplings. -/
theorem distance?_isLeast (h : WellFormed d) (hb : b < d.numQubits) {k : Nat} :
    d.distance? a b = some k ↔
      IsLeast {k | ∃ w : (couplingGraph d.couplings).Walk a b, w.length = k} k := by
  rw [h.distance?_eq_some_iff hb]
  exact Approach.knows_iff_isLeast (h.approach hb).2 (h.layered hb) h.adjacency_graph
    (h.neighbour_lt b)

/-- A distance is missing where no couplings lead. -/
theorem distance?_isSome (h : WellFormed d) (hb : b < d.numQubits) :
    (d.distance? a b).isSome = true ↔ (couplingGraph d.couplings).Reachable a b := by
  rw [Option.isSome_iff_exists]
  constructor
  · rintro ⟨k, hk⟩
    obtain ⟨⟨w, -⟩, -⟩ := (h.distance?_isLeast hb).mp hk
    exact ⟨w⟩
  · rintro ⟨w⟩
    obtain ⟨k, -, hk⟩ := Approach.exists_knows_le (h.approach hb).2 (h.layered hb)
      h.adjacency_graph (h.neighbour_lt b) w
    exact ⟨k, (h.distance?_eq_some_iff hb).mpr hk⟩

/-- Adjacent qubits are those at distance one. -/
theorem distance?_eq_one (h : WellFormed d) (hb : b < d.numQubits) :
    d.distance? a b = some 1 ↔ (couplingGraph d.couplings).Adj a b := by
  rw [h.distance?_isLeast hb]
  constructor
  · rintro ⟨⟨w, hw⟩, -⟩
    exact SimpleGraph.Walk.adj_of_length_eq_one hw
  · intro hab
    refine ⟨⟨hab.toWalk, rfl⟩, ?_⟩
    rintro k ⟨w, rfl⟩
    refine Nat.one_le_iff_ne_zero.mpr fun hz => hab.ne ?_
    exact SimpleGraph.Walk.eq_of_length_eq_zero hz

/-- The path to a qubit is the one that its search leads. -/
theorem path?_eq (h : WellFormed d) (hb : b < d.numQubits) :
    d.path? a b = (d.distance? a b).map fun k =>
      a :: walk (Approach.toQubit d.adjacency b) k a := by
  rw [path?, distance?, (h.approach hb).1]
  simp only [Option.bind_eq_bind, Option.bind_some]
  cases (Approach.toQubit d.adjacency b).hops.getD a none <;> rfl

/-- Where there is a distance, following the next qubits comes to an end at the other qubit and has met
a path of that many couplings. -/
theorem path?_of_distance? (h : WellFormed d) (hb : b < d.numQubits) {k : Nat}
    (hk : d.distance? a b = some k) :
    ∃ approach rest, d.approaches[b]? = some approach ∧ approach.Leads b a rest ∧
      d.path? a b = some (a :: rest) ∧ (a :: rest).length = k + 1 ∧
      (a :: rest).IsChain (couplingGraph d.couplings).Adj ∧ (a :: rest).getLast? = some b := by
  obtain ⟨happroach, hs⟩ := h.approach hb
  have hknows := (h.distance?_eq_some_iff hb).mp hk
  obtain ⟨hlen, hchain, hlast, -⟩ := Approach.walk_spec hs k hknows
  refine ⟨_, _, happroach, Approach.leads_walk hs k hknows, ?_, hlen, ?_, hlast⟩
  · rw [h.path?_eq hb, hk, Option.map_some]
  · exact hchain.imp fun p r hp => ((h.adjacency_graph r p).mp hp).symm

/-! ## Components -/

/-- Qubits share a component when there is a distance between them. -/
theorem component?_eq_iff (h : WellFormed d) (ha : a < d.numQubits) (hb : b < d.numQubits) :
    d.component? a = d.component? b ↔ (d.distance? a b).isSome = true := by
  have hrel : (fun p r => d.isAdjacent p r = true) = (couplingGraph d.couplings).Adj := by
    funext p r
    exact propext h.graph_adj.symm
  rw [← h.connected_iff ha, h.distance?_isSome hb, SimpleGraph.reachable_iff_reflTransGen,
    Connected, hrel]

/-- The components are numbered without gaps. -/
theorem exists_component?_iff (h : WellFormed d) {c : Nat} :
    (∃ q < d.numQubits, d.component? q = some c) ↔ c < d.numComponents := by
  simp only [component?]
  have hcs : d.components = Classes.renumber (Classes.ofPairs d.numQubits
      (d.couplings.map fun c => (c.source, c.target))) := h.components
  constructor
  · rintro ⟨q, -, hq⟩
    exact lt_numComponents_iff.mpr ⟨c, Array.mem_of_getElem? hq, le_rfl⟩
  · intro hc
    obtain ⟨x, hx, hcx⟩ := lt_numComponents_iff.mp hc
    obtain ⟨u, hu⟩ := Array.mem_iff_getElem?.mp hx
    rw [hcs] at hu ⊢
    have hx' := Classes.exists_renumber_iff.mp ⟨u, hu⟩
    obtain ⟨q, hq⟩ := Classes.exists_renumber_iff.mpr (hcx.trans_lt hx')
    refine ⟨q, ?_, hq⟩
    rw [← h.size_components, hcs]
    exact (Array.getElem?_eq_some_iff.mp hq).1

/-- The numbers ascend with the smallest qubits of the components. -/
theorem component_lt_iff (h : WellFormed d) {c e : Nat}
    (ha : IsLeast {q | d.component? q = some c} a) (hb : IsLeast {q | d.component? q = some e} b) :
    c < e ↔ a < b := by
  simp only [component?, h.components, numberComponents] at ha hb
  exact Classes.renumber_lt_iff ha hb

end WellFormed

/-! ## The device of a list of couplings -/

section Edges

variable [Scalar R] {name : String} {n : Nat} {edges : List (Coupling R)} {basis : Basis}
  {d : Device R}

/-- Distances, paths, components, neighbours and fidelities of the device of an accepted list of
couplings are those of the graph of the list. -/
theorem tables_describe_couplingGraph (h : ofEdges name n edges basis = .ok d) :
    d.numQubits = n ∧
      (∀ u < n, ∀ v < n,
        (∀ k, d.distance? u v = some k ↔
          IsLeast {k | ∃ w : (couplingGraph edges).Walk u v, w.length = k} k) ∧
        (d.distance? u v = none ↔ ¬ (couplingGraph edges).Reachable u v) ∧
        (∀ k, d.distance? u v = some k →
          ∃ approach rest, d.approaches[v]? = some approach ∧ approach.Leads v u rest ∧
            d.path? u v = some (u :: rest) ∧ (u :: rest).length = k + 1 ∧
            (u :: rest).IsChain (couplingGraph edges).Adj ∧ (u :: rest).getLast? = some v) ∧
        (d.distance? u v = none → d.path? u v = none) ∧
        (d.component? u = d.component? v ↔ (d.distance? u v).isSome = true) ∧
        List.TFAE [(couplingGraph edges).Adj u v, d.isAdjacent u v = true,
          (d.fidelity? u v).isSome = true, v ∈ d.neighbours u, d.distance? u v = some 1] ∧
        d.fidelity? u v = (edges.find? (·.joins u v)).map Coupling.fidelity) ∧
      (∀ u < n, (d.neighbours u).Pairwise (· < ·) ∧ ∃ c, d.component? u = some c) ∧
      (∀ c, (∃ u < n, d.component? u = some c) ↔ c < d.numComponents) ∧
      ∀ c e u v, IsLeast {q | d.component? q = some c} u →
        IsLeast {q | d.component? q = some e} v → (c < e ↔ u < v) := by
  have hd : WellFormed d := (Built.ofEdges h).wellFormed
  obtain ⟨rfl, hf⟩ := ofEdges_eq_ok h
  have hgraph : couplingGraph (ofCouplings name n edges basis).couplings = couplingGraph edges :=
    couplingGraph_distinctPairs hf
  rw [← hgraph]
  refine ⟨rfl, fun u hu v hv => ⟨?_, ?_, ?_, ?_, ?_, ?_, ?_⟩, ?_, ?_, ?_⟩
  · exact fun k => hd.distance?_isLeast hv
  · rw [← hd.distance?_isSome hv, Option.not_isSome_iff_eq_none]
  · exact fun k => hd.path?_of_distance? hv
  · intro hnone
    rw [hd.path?_eq hv, hnone, Option.map_none]
  · exact hd.component?_eq_iff hu hv
  · tfae_have 1 ↔ 2 := hd.graph_adj
    tfae_have 3 ↔ 2 := by rw [fidelity?_isSome]
    tfae_have 4 ↔ 2 := hd.mem_neighbours
    tfae_have 5 ↔ 1 := hd.distance?_eq_one hv
    tfae_finish
  · rw [fidelity?, ← find?_distinctPairs edges]
    rfl
  · exact fun u hu => ⟨hd.sorted_neighbours u, hd.exists_component? hu⟩
  · exact fun c => hd.exists_component?_iff
  · exact fun c e u v => hd.component_lt_iff

end Edges

section Bent

attribute [local instance] Scalar.real

theorem checkCoupling_real {n : Nat} {c : Coupling ℝ} (hf : Fits n c) (hpos : 0 < c.fidelity)
    (hle : c.fidelity ≤ 1) : checkCoupling n c = .ok () := by
  have hzero : ((0 : ℕ) : ℝ) < c.fidelity := by rwa [Nat.cast_zero]
  have hone : c.fidelity ≤ ((1 : ℕ) : ℝ) := by rwa [Nat.cast_one]
  rw [checkCoupling, if_neg (not_or.mpr ⟨hf.source.not_ge, hf.target.not_ge⟩),
    if_neg hf.distinct]
  exact if_pos (Bool.and_eq_true_iff.mpr ⟨decide_eq_true hzero, decide_eq_true hone⟩)

/-- A line of three qubits with one pair listed twice. -/
noncomputable def bent : List (Coupling ℝ) := [⟨2, 1, 1 / 2⟩, ⟨0, 1, 1⟩, ⟨1, 2, 1⟩]

theorem tables_describe_bent : ∃ d, ofEdges "bent" 4 bent .standard = .ok d ∧
    d.distance? 1 2 = some 1 ∧ d.fidelity? 1 2 = some (1 / 2) ∧
    (d.component? 0 = d.component? 2 ↔ (d.distance? 0 2).isSome = true) ∧
    (d.neighbours 1).Pairwise (· < ·) := by
  have hok : ofEdges "bent" 4 bent .standard = .ok (ofCouplings "bent" 4 bent .standard) := by
    refine Outcome.bind_eq_ok.mpr ⟨(), Outcome.forM_eq_ok.mpr ?_, rfl⟩
    simp only [bent, List.forall_mem_cons]
    refine ⟨?_, ?_, ?_, by simp⟩
    · exact checkCoupling_real ⟨by decide, by decide, by decide⟩ (by norm_num) (by norm_num)
    · exact checkCoupling_real ⟨by decide, by decide, by decide⟩ (by norm_num) (by norm_num)
    · exact checkCoupling_real ⟨by decide, by decide, by decide⟩ (by norm_num) (by norm_num)
  obtain ⟨-, hpairs, hlists, -⟩ := tables_describe_couplingGraph hok
  obtain ⟨-, -, -, -, -, htfae, hfidelity⟩ := hpairs 1 (by decide) 2 (by decide)
  obtain ⟨-, -, -, -, hcomponent, -⟩ := hpairs 0 (by decide) 2 (by decide)
  exact ⟨_, hok, (htfae.out 1 4).mp rfl, hfidelity, hcomponent, (hlists 1 (by decide)).1⟩

end Bent

end QuantumCompiler.Device
