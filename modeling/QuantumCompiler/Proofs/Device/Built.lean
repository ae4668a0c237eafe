import QuantumCompiler.Proofs.Classes
import QuantumCompiler.Proofs.Device.Search
import QuantumCompiler.Proofs.Outcome
import QuantumCompiler.Device.Shape

/-!
# Built devices

What the tables of a device say about its couplings, for every device that can be built. Neighbours,
couplings and link fidelities agree; coupled qubits share a component, and two qubits of one component
are joined by a path of couplings that meets no qubit twice.
-/
namespace QuantumCompiler.Device

variable {R : Type}

/-! ## Couplings as pairs -/

/-- A coupling of two different qubits of the device. -/
structure Fits (n : Nat) (c : Coupling R) : Prop where
  source : c.source < n
  target : c.target < n
  distinct : c.source ≠ c.target

theorem joins_comm {c : Coupling R} {a b : Qubit} : c.joins a b = c.joins b a := by
  rw [Coupling.joins, Coupling.joins, Bool.or_comm]

theorem joins_iff {c : Coupling R} {a b : Qubit} :
    c.joins a b = true ↔ (c.source = a ∧ c.target = b) ∨ (c.source = b ∧ c.target = a) := by
  simp [Coupling.joins]

theorem mem_foldl_distinct (edges kept : List (Coupling R)) {c : Coupling R}
    (h : c ∈ edges.foldl
      (fun kept e => if kept.any (·.joins e.source e.target) then kept else kept ++ [e]) kept) :
    c ∈ kept ∨ c ∈ edges := by
  induction edges generalizing kept with
  | nil => exact .inl h
  | cons e edges ih =>
    rw [List.foldl_cons] at h
    rcases ih _ h with hk | he
    · split at hk
      · exact .inl hk
      · rcases List.mem_append.mp hk with hk | hk
        · exact .inl hk
        · exact .inr (by simp [List.mem_singleton.mp hk])
    · exact .inr (by simp [he])

theorem mem_distinctPairs {edges : List (Coupling R)} {c : Coupling R}
    (h : c ∈ distinctPairs edges) : c ∈ edges := by
  simpa using mem_foldl_distinct edges [] h

/-- The couplings that are kept join different pairs. -/
theorem pairwise_distinctPairs (edges : List (Coupling R)) :
    (distinctPairs edges).Pairwise fun c e => c.joins e.source e.target = false := by
  rw [distinctPairs]
  suffices h : ∀ kept : List (Coupling R),
      (kept.Pairwise fun c e => c.joins e.source e.target = false) →
      (edges.foldl (fun kept e => if kept.any (·.joins e.source e.target) then kept
        else kept ++ [e]) kept).Pairwise fun c e => c.joins e.source e.target = false from
    h [] .nil
  intro kept hkept
  induction edges generalizing kept with
  | nil => exact hkept
  | cons e edges ih =>
    rw [List.foldl_cons]
    apply ih
    split
    · exact hkept
    · rename_i hnone
      rw [List.pairwise_append]
      refine ⟨hkept, List.pairwise_singleton _ _, fun c hc x hx => ?_⟩
      obtain rfl := List.mem_singleton.mp hx
      simpa using fun h => hnone (List.any_eq_true.mpr ⟨c, hc, h⟩)

/-- Of couplings that join different pairs at most one joins two given qubits. -/
theorem countP_joins_le_one {cs : List (Coupling R)}
    (h : cs.Pairwise fun c e => c.joins e.source e.target = false) (q r : Qubit) :
    cs.countP (·.joins q r) ≤ 1 := by
  induction cs with
  | nil => simp
  | cons c cs ih =>
    obtain ⟨hc, h⟩ := List.pairwise_cons.mp h
    rw [List.countP_cons]
    split
    · rename_i hj
      have hnone : cs.countP (·.joins q r) = 0 := by
        rw [List.countP_eq_zero]
        intro e he hej
        have hce := hc e he
        rw [joins_iff] at hj hej
        rw [Coupling.joins] at hce
        grind
      omega
    · exact ih h

/-- How often a qubit is in the list of another. -/
theorem count_modify_cons {lists : Array (List Qubit)} {a b q r : Qubit} (ha : a < lists.size) :
    ((lists.modify a (b :: ·)).getD q []).count r =
      (lists.getD q []).count r + if a = q ∧ b = r then 1 else 0 := by
  simp only [Array.getD_eq_getD_getElem?, Array.getElem?_modify]
  by_cases hq : a = q
  · subst hq
    simp [ha, List.count_cons]
  · simp [hq]

theorem size_foldl_neighbours (cs : List (Coupling R)) (lists : Array (List Qubit)) :
    (cs.foldl (fun (lists : Array (List Qubit)) e =>
      (lists.modify e.source (e.target :: ·)).modify e.target (e.source :: ·)) lists).size =
      lists.size := by
  induction cs generalizing lists with
  | nil => rfl
  | cons c cs ih => rw [List.foldl_cons, ih, Array.size_modify, Array.size_modify]

theorem count_foldl_neighbours (cs : List (Coupling R)) (lists : Array (List Qubit))
    (hf : ∀ c ∈ cs, Fits lists.size c) (q r : Qubit) :
    ((cs.foldl (fun (lists : Array (List Qubit)) e =>
        (lists.modify e.source (e.target :: ·)).modify e.target (e.source :: ·)) lists).getD q
          []).count r =
      (lists.getD q []).count r + cs.countP (·.joins q r) := by
  induction cs generalizing lists with
  | nil => simp
  | cons c cs ih =>
    have hc := hf c (by simp)
    have hne := hc.distinct
    rw [List.foldl_cons, ih _ (fun e he => by simpa using hf e (by simp [he])),
      count_modify_cons (by simpa using hc.target), count_modify_cons hc.source,
      List.countP_cons]
    simp only [joins_iff, and_comm (a := c.target = q)]
    grind

/-- A qubit is in the list of another once for each coupling of the two. -/
theorem count_neighbourLists {n : Nat} {cs : List (Coupling R)} (hf : ∀ c ∈ cs, Fits n c)
    (q r : Qubit) : ((neighbourLists n cs).getD q []).count r = cs.countP (·.joins q r) := by
  have hm := count_foldl_neighbours cs (Array.replicate n []) (by simpa using hf) q r
  have hempty : ((Array.replicate n ([] : List Qubit)).getD q []).count r = 0 := by
    simp only [Array.getD_eq_getD_getElem?, Array.getElem?_replicate]
    split <;> simp
  rw [hempty, Nat.zero_add] at hm
  rw [← hm, neighbourLists]
  simp only [Array.getD_eq_getD_getElem?, Array.getElem?_map]
  cases (cs.foldl (fun (lists : Array (List Qubit)) e =>
    (lists.modify e.source (e.target :: ·)).modify e.target (e.source :: ·))
    (Array.replicate n []))[q]? with
  | none => simp
  | some qs => simpa using (List.mergeSort_perm qs _).count_eq r

/-- The lists of neighbours are those of the couplings. -/
theorem mem_neighbourLists {n : Nat} {cs : List (Coupling R)} (hf : ∀ c ∈ cs, Fits n c)
    (q r : Qubit) : r ∈ (neighbourLists n cs).getD q [] ↔ ∃ c ∈ cs, c.joins q r = true := by
  rw [← List.count_pos_iff, count_neighbourLists hf, List.countP_pos_iff]

/-- The lists of neighbours ascend. -/
theorem sorted_neighbourLists (n : Nat) (cs : List (Coupling R)) (q : Qubit) :
    ((neighbourLists n cs).getD q []).Pairwise (· ≤ ·) := by
  rw [neighbourLists, Array.getD_eq_getD_getElem?, Array.getElem?_map]
  cases (cs.foldl (fun (lists : Array (List Qubit)) e =>
    (lists.modify e.source (e.target :: ·)).modify e.target (e.source :: ·))
    (Array.replicate n []))[q]? with
  | none => exact .nil
  | some qs => exact List.pairwise_mergeSort' (· ≤ ·) qs

theorem size_neighbourLists (n : Nat) (cs : List (Coupling R)) :
    (neighbourLists n cs).size = n := by
  rw [neighbourLists, Array.size_map, size_foldl_neighbours, Array.size_replicate]

/-- The tables of the device are those of its couplings. -/
structure WellFormed (d : Device R) : Prop where
  fits : ∀ c ∈ d.couplings, Fits d.numQubits c
  distinct : d.couplings.Pairwise fun c e => c.joins e.source e.target = false
  adjacency : d.adjacency = neighbourLists d.numQubits d.couplings
  approaches : d.approaches = Array.ofFn fun q : Fin d.numQubits => Approach.toQubit d.adjacency q
  components : d.components = numberComponents d.numQubits d.couplings

/-! ## Neighbours and components -/

theorem isAdjacent_iff {d : Device R} {a b : Qubit} :
    d.isAdjacent a b = true ↔ ∃ c ∈ d.couplings,
      (c.source = a ∧ c.target = b) ∨ (c.source = b ∧ c.target = a) := by
  simp only [isAdjacent, List.any_eq_true, joins_iff]

theorem isAdjacent_comm (d : Device R) (a b : Qubit) : d.isAdjacent a b = d.isAdjacent b a := by
  simp only [isAdjacent, joins_comm]

theorem fidelity?_isSome {d : Device R} {a b : Qubit} :
    (d.fidelity? a b).isSome = d.isAdjacent a b := by
  rw [fidelity?, Option.isSome_map, Bool.eq_iff_iff, List.find?_isSome, isAdjacent,
    List.any_eq_true]

theorem lt_foldl_max_iff (xs : List Nat) (m : Nat) {c : Nat} :
    c < xs.foldl (fun m x => max m (x + 1)) m ↔ c < m ∨ ∃ x ∈ xs, c ≤ x := by
  induction xs generalizing m with
  | nil => simp
  | cons x xs ih =>
    rw [List.foldl_cons, ih, List.exists_mem_cons_iff, lt_max_iff, Nat.lt_succ_iff, or_assoc]

/-- There are as many components as numbers up to the greatest one. -/
theorem lt_numComponents_iff {d : Device R} {c : Nat} :
    c < d.numComponents ↔ ∃ x ∈ d.components, c ≤ x := by
  rw [numComponents, ← Array.foldl_toList, lt_foldl_max_iff]
  simp

/-- Couplings lead from one qubit to the other. -/
def Connected (d : Device R) : Qubit → Qubit → Prop :=
  Relation.ReflTransGen fun a b => d.isAdjacent a b = true

namespace WellFormed

variable {d : Device R}

theorem size_adjacency (h : WellFormed d) : d.adjacency.size = d.numQubits := by
  rw [h.adjacency, size_neighbourLists]

/-- The neighbours of a qubit are the ones coupled to it. -/
theorem mem_neighbours (h : WellFormed d) {q r : Qubit} :
    r ∈ d.neighbours q ↔ d.isAdjacent q r = true := by
  rw [neighbours, h.adjacency, mem_neighbourLists h.fits, isAdjacent, List.any_eq_true]

/-- No neighbour of a qubit is listed twice. -/
theorem nodup_neighbours (h : WellFormed d) (q : Qubit) : (d.neighbours q).Nodup := by
  rw [List.nodup_iff_count_le_one]
  intro r
  rw [neighbours, h.adjacency, count_neighbourLists h.fits]
  exact countP_joins_le_one h.distinct q r

theorem sorted_neighbours (h : WellFormed d) (q : Qubit) : (d.neighbours q).Pairwise (· < ·) := by
  have hle : (d.neighbours q).Pairwise (· ≤ ·) := by
    rw [neighbours, h.adjacency]
    exact sorted_neighbourLists _ _ q
  exact hle.imp₂ (fun _ _ => Nat.lt_of_le_of_ne) (h.nodup_neighbours q)

theorem lt_of_isAdjacent (h : WellFormed d) {a b : Qubit} (hab : d.isAdjacent a b = true) :
    a < d.numQubits ∧ b < d.numQubits ∧ a ≠ b := by
  obtain ⟨c, hc, hj⟩ := isAdjacent_iff.mp hab
  obtain ⟨hs, ht, hne⟩ := h.fits c hc
  rcases hj with ⟨rfl, rfl⟩ | ⟨rfl, rfl⟩
  · exact ⟨hs, ht, hne⟩
  · exact ⟨ht, hs, hne.symm⟩

/-- The pairs that the components are made of. -/
theorem separates (h : WellFormed d) :
    Classes.Separates d.components (d.couplings.map fun c => (c.source, c.target)) := by
  rw [h.components, numberComponents]
  refine Classes.separates_renumber (Classes.separates_ofPairs ?_).1
  intro p hp
  obtain ⟨c, hc, rfl⟩ := List.mem_map.mp hp
  exact ⟨(h.fits c hc).source, (h.fits c hc).target⟩

theorem size_components (h : WellFormed d) : d.components.size = d.numQubits := by
  have hp : ∀ p ∈ d.couplings.map fun c => (c.source, c.target),
      p.1 < d.numQubits ∧ p.2 < d.numQubits := by
    intro p hp
    obtain ⟨c, hc, rfl⟩ := List.mem_map.mp hp
    exact ⟨(h.fits c hc).source, (h.fits c hc).target⟩
  rw [h.components, numberComponents, Classes.renumber, Array.size_map,
    (Classes.separates_ofPairs hp).2]

theorem exists_component? (h : WellFormed d) {q : Qubit} (hq : q < d.numQubits) :
    ∃ part, d.component? q = some part := by
  rw [← h.size_components] at hq
  exact ⟨_, Array.getElem?_eq_getElem hq⟩

/-- Coupled qubits are in one component. -/
theorem component?_eq (h : WellFormed d) {a b : Qubit} (hab : d.isAdjacent a b = true) :
    d.component? a = d.component? b := by
  obtain ⟨c, hc, hj⟩ := isAdjacent_iff.mp hab
  have hlabel := h.separates.joined (c.source, c.target)
    (List.mem_map_of_mem (f := fun c : Coupling R => (c.source, c.target)) hc)
  rcases hj with ⟨rfl, rfl⟩ | ⟨rfl, rfl⟩
  · exact hlabel
  · exact hlabel.symm

/-- Couplings lead both ways between connected qubits. -/
theorem reaches_of_connected (h : WellFormed d) {a b : Qubit}
    (hc : Classes.Connected (d.couplings.map fun c => (c.source, c.target)) a b) :
    Relation.ReflTransGen (fun p r => r ∈ d.adjacency.getD p []) a b ∧
      Relation.ReflTransGen (fun p r => r ∈ d.adjacency.getD p []) b a := by
  induction hc with
  | rel p r hpr =>
    obtain ⟨c, hc, he⟩ := List.mem_map.mp hpr
    obtain ⟨rfl, rfl⟩ := Prod.mk.inj he
    constructor
    · exact .single (h.mem_neighbours.mpr (isAdjacent_iff.mpr ⟨c, hc, .inl ⟨rfl, rfl⟩⟩))
    · exact .single (h.mem_neighbours.mpr (isAdjacent_iff.mpr ⟨c, hc, .inr ⟨rfl, rfl⟩⟩))
  | refl p => exact ⟨.refl, .refl⟩
  | symm p r _ ih => exact ⟨ih.2, ih.1⟩
  | trans p r s _ _ ih jh => exact ⟨ih.1.trans jh.1, jh.2.trans ih.2⟩

/-- The components are the connected parts. -/
theorem connected_iff (h : WellFormed d) {a b : Qubit} (ha : a < d.numQubits) :
    d.Connected a b ↔ d.component? a = d.component? b := by
  constructor
  · intro hc
    induction hc with
    | refl => rfl
    | tail _ hstep ih => exact ih.trans (h.component?_eq hstep)
  · intro hc
    obtain ⟨part, hpart⟩ := h.exists_component? ha
    have hconn := h.separates.connects a b part hpart (hc.symm.trans hpart)
    exact (h.reaches_of_connected hconn).1.lift id fun p r hpr => h.mem_neighbours.mp hpr

/-- The ways to a qubit are those of a search that has come to its end. -/
theorem approach (h : WellFormed d) {b : Qubit} (hb : b < d.numQubits) :
    d.approaches[b]? = some (Approach.toQubit d.adjacency b) ∧
      Approach.Searching d.adjacency b (Approach.toQubit d.adjacency b) [] := by
  constructor
  · rw [h.approaches, Array.getElem?_ofFn, dif_pos hb]
  · exact Approach.searching_toQubit (by rwa [h.size_adjacency])

theorem neighbour_lt (h : WellFormed d) (b : Qubit) (p r : Qubit)
    (hr : r ∈ d.adjacency.getD p []) : r < (Approach.toQubit d.adjacency b).hops.size := by
  rw [Approach.hops_toQubit, h.size_adjacency]
  exact (h.lt_of_isAdjacent (h.mem_neighbours.mp hr)).2.1

/-- Between two qubits of one component the device finds a path: along couplings, from the one to the
other, and meeting no qubit twice. -/
theorem path?_eq_some (h : WellFormed d) {a b : Qubit} (ha : a < d.numQubits)
    (hb : b < d.numQubits) (hab : d.component? a = d.component? b) :
    ∃ rest, d.path? a b = some (a :: rest) ∧
      (a :: rest).IsChain (fun p r => d.isAdjacent p r = true) ∧
      (a :: rest).getLast? = some b ∧ (a :: rest).Nodup ∧
      ∀ x ∈ a :: rest, x < d.numQubits := by
  obtain ⟨happroach, hs⟩ := h.approach hb
  obtain ⟨label, hla⟩ := h.exists_component? ha
  have hconn := h.separates.connects b a _ (hab.symm.trans hla) hla
  obtain ⟨k, hk⟩ := Approach.exists_knows hs (h.neighbour_lt b) (h.reaches_of_connected hconn).1
  obtain ⟨-, hchain, hlast, hnd, hknown⟩ := Approach.walk_spec hs k hk
  refine ⟨walk (Approach.toQubit d.adjacency b) k a, ?_, ?_, hlast, hnd, ?_⟩
  · have hget : (Approach.toQubit d.adjacency b).hops[a]? = some (some k) := hk
    simp [path?, happroach, hget]
  · refine hchain.imp ?_
    intro p r hp
    rw [isAdjacent_comm]
    exact h.mem_neighbours.mp hp
  · intro x hx
    obtain ⟨e, -, he⟩ := hknown x hx
    have hlt := (Array.getElem?_eq_some_iff.mp he).1
    rwa [Approach.hops_toQubit, h.size_adjacency] at hlt

end WellFormed

/-! ## Every built device is well-formed -/

section Built

variable [Scalar R]

/-- The devices that can be built. -/
inductive Built : Device R → Prop
  /-- The device of an accepted list of couplings. -/
  | ofEdges {name : String} {n : Nat} {edges : List (Coupling R)} {basis : Basis} {d : Device R}
    (h : ofEdges name n edges basis = .ok d) : Built d
  /-- A line. -/
  | linear (n : Nat) : Built (linear n)
  /-- A ring. -/
  | ring (n : Nat) : Built (ring n)
  /-- A star. -/
  | star (n : Nat) : Built (star n)
  /-- All pairs coupled. -/
  | full (n : Nat) : Built (full n)
  /-- A grid. -/
  | grid (rows columns : Nat) : Built (grid rows columns)
  /-- A device that is drawn in another way. -/
  | withPositions {d e : Device R} (hd : Built d) {positions : List (Int × Int)}
    (h : d.withPositions positions = .ok e) : Built e
  /-- A device with other gates. -/
  | withBasis {d : Device R} (hd : Built d) (basis : Basis) : Built (d.withBasis basis)

theorem fits_of_checkCoupling {n : Nat} {c : Coupling R} (h : checkCoupling n c = .ok ()) :
    Fits n c := by
  simp only [checkCoupling] at h
  split at h
  · cases h
  · rename_i hrange
    split at h
    · cases h
    · rename_i hne
      rw [not_or] at hrange
      exact ⟨Nat.lt_of_not_le hrange.1, Nat.lt_of_not_le hrange.2, hne⟩

/-- Accepted couplings join different qubits of the device. -/
theorem ofEdges_eq_ok {name : String} {n : Nat} {edges : List (Coupling R)} {basis : Basis}
    {d : Device R} (h : ofEdges name n edges basis = .ok d) :
    d = ofCouplings name n edges basis ∧ ∀ c ∈ edges, Fits n c := by
  obtain ⟨_, hchecks, hd⟩ := Outcome.bind_eq_ok.mp h
  exact ⟨(Except.ok.inj hd).symm,
    fun c hc => fits_of_checkCoupling (Outcome.forM_eq_ok.mp hchecks c hc)⟩

theorem wellFormed_ofCouplings (name : String) {n : Nat} {edges : List (Coupling R)}
    (basis : Basis) (h : ∀ c ∈ edges, Fits n c) : WellFormed (ofCouplings name n edges basis) :=
  ⟨fun c hc => h c (mem_distinctPairs hc), pairwise_distinctPairs edges, rfl, rfl, rfl⟩

theorem wellFormed_uniform (name : String) {n : Nat} {pairs : List (Qubit × Qubit)}
    (h : ∀ p ∈ pairs, p.1 < n ∧ p.2 < n ∧ p.1 ≠ p.2) :
    WellFormed (uniform name n pairs : Device R) := by
  apply wellFormed_ofCouplings
  intro c hc
  obtain ⟨p, hp, rfl⟩ := List.mem_map.mp hc
  obtain ⟨hs, ht, hne⟩ := h p hp
  exact ⟨hs, ht, hne⟩

theorem succ_fits {n i : Nat} (h : i < n - 1) : i < n ∧ i + 1 < n ∧ i ≠ i + 1 := by
  omega

theorem linePairs_fit {n : Nat} {p : Qubit × Qubit} (h : p ∈ linePairs n) :
    p.1 < n ∧ p.2 < n ∧ p.1 ≠ p.2 := by
  obtain ⟨i, hi, rfl⟩ := List.mem_map.mp h
  have hlt : i < n - 1 := List.mem_range.mp hi
  exact succ_fits hlt

theorem above_fits {n i k : Nat} (hi : i < n) (hk : k < n - 1 - i) :
    i < n ∧ i + 1 + k < n ∧ i ≠ i + 1 + k := by
  omega

theorem grid_place_lt {rows columns r c : Nat} (hr : r < rows) (hc : c < columns) :
    r * columns + c < rows * columns := by
  calc r * columns + c < r * columns + columns := by omega
    _ = (r + 1) * columns := by ring
    _ ≤ rows * columns := Nat.mul_le_mul_right columns hr

theorem gridPairs_fit (rows columns : Nat) {p : Qubit × Qubit} (h : p ∈ gridPairs rows columns) :
    p.1 < rows * columns ∧ p.2 < rows * columns ∧ p.1 ≠ p.2 := by
  obtain ⟨⟨r, c⟩, hrc, hp⟩ := List.mem_flatMap.mp h
  simp only [gridPlaces, List.mem_flatMap, List.mem_map, List.mem_range, Prod.mk.injEq] at hrc
  obtain ⟨r, hr, c, hc, rfl, rfl⟩ := hrc
  have hq := grid_place_lt hr hc
  rcases List.mem_append.mp hp with hp | hp
  · by_cases hnext : c + 1 < columns
    · obtain rfl : p = _ := by simpa [hnext] using hp
      have hright := grid_place_lt hr hnext
      exact ⟨hq, by simpa [Nat.add_assoc] using hright, by simp⟩
    · simp [hnext] at hp
  · by_cases hnext : r + 1 < rows
    · obtain rfl : p = _ := by simpa [hnext] using hp
      have hbelow := grid_place_lt hnext hc
      have he : (r + 1) * columns + c = r * columns + c + columns := by ring
      refine ⟨hq, by simpa [he] using hbelow, ?_⟩
      simp only [ne_eq, Nat.left_eq_add]
      omega
    · simp [hnext] at hp

/-- Every device that can be built is well-formed. -/
theorem Built.wellFormed {d : Device R} (h : Built d) : WellFormed d := by
  induction h with
  | ofEdges h =>
    obtain ⟨rfl, hf⟩ := ofEdges_eq_ok h
    exact wellFormed_ofCouplings _ _ hf
  | linear n => exact wellFormed_uniform _ fun p hp => linePairs_fit hp
  | ring n =>
    apply wellFormed_uniform
    intro p hp
    rcases List.mem_append.mp hp with hp | hp
    · exact linePairs_fit hp
    · by_cases hn : n > 2
      · obtain rfl : p = (n - 1, 0) := by simpa [hn] using hp
        exact ⟨show n - 1 < n by omega, show 0 < n by omega, show n - 1 ≠ 0 by omega⟩
      · simp [hn] at hp
  | star n =>
    apply wellFormed_uniform
    intro p hp
    obtain ⟨i, hi, rfl⟩ := List.mem_map.mp hp
    have hlt : i < n - 1 := List.mem_range.mp hi
    obtain ⟨-, hlt, -⟩ := succ_fits hlt
    exact ⟨Nat.zero_lt_of_lt hlt, hlt, (Nat.succ_ne_zero i).symm⟩
  | full n =>
    apply wellFormed_uniform
    intro p hp
    obtain ⟨i, hi, hp⟩ := List.mem_flatMap.mp hp
    obtain ⟨k, hk, rfl⟩ := List.mem_map.mp hp
    exact above_fits (List.mem_range.mp hi) (List.mem_range.mp hk)
  | grid rows columns =>
    have hu := wellFormed_uniform (R := R) s!"grid_{rows}x{columns}"
      fun p hp => gridPairs_fit rows columns hp
    exact ⟨hu.fits, hu.distinct, hu.adjacency, hu.approaches, hu.components⟩
  | withPositions hd h ih =>
    simp only [Device.withPositions] at h
    split at h
    · obtain rfl := Except.ok.inj h
      exact ⟨ih.fits, ih.distinct, ih.adjacency, ih.approaches, ih.components⟩
    · cases h
  | withBasis hd basis ih => exact ⟨ih.fits, ih.distinct, ih.adjacency, ih.approaches, ih.components⟩

end Built

end QuantumCompiler.Device
