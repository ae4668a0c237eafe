import QuantumCompiler.Proofs.Device.Tables
import QuantumCompiler.Proofs.Layout.Components

/-!
# Layouts and assignments of groups

Gates make a graph on the qubits of a circuit, couplings one on the qubits of a device. A layout is
found exactly when the components of the first graph can be assigned to those of the second without
putting more qubits into a component than it has; how groups are packed and parts are run through does
not matter for that.
-/
namespace QuantumCompiler.Layout

open Device (couplingGraph)
open Placement (Choice)

variable {R : Type} {device : Device R} {d : Dag R}

/-- Different qubits are adjacent when some gate acts on both. -/
def interactionGraph (d : Dag R) : SimpleGraph Qubit :=
  .fromRel fun p q => ∃ id i, d.instruction? id = some i ∧ i.isGate = true ∧
    p ∈ i.qubits ∧ q ∈ i.qubits

/-- The qubits that gates join with others. -/
def groupedQubits (d : Dag R) : Set Qubit :=
  {q | ((interactionGraph d).connectedComponentMk q).supp.Nontrivial}

/-- Groups of two or more qubits go to components of the device, and no component gets more qubits
than it has. -/
def Assigns (device : Device R) (d : Dag R) (part : (interactionGraph d).ConnectedComponent →
    (couplingGraph device.couplings).ConnectedComponent) : Prop :=
  ∀ c, {q ∈ groupedQubits d | part ((interactionGraph d).connectedComponentMk q) = c}.ncard ≤
    {p | p < device.numQubits ∧ (couplingGraph device.couplings).connectedComponentMk p = c}.ncard

theorem interactionGraph_adj {p q : Qubit} : (interactionGraph d).Adj p q ↔ p ≠ q ∧
    ∃ id i, d.instruction? id = some i ∧ i.isGate = true ∧ p ∈ i.qubits ∧ q ∈ i.qubits := by
  rw [interactionGraph, SimpleGraph.fromRel_adj]
  refine and_congr_right fun _ => or_iff_left_of_imp ?_
  rintro ⟨id, i, hi, hg, hq, hp⟩
  exact ⟨id, i, hi, hg, hp, hq⟩

theorem mem_groupedQubits {q : Qubit} :
    q ∈ groupedQubits d ↔ ∃ p ≠ q, (interactionGraph d).Reachable p q := by
  have hself : q ∈ ((interactionGraph d).connectedComponentMk q).supp := rfl
  constructor
  · intro h
    obtain ⟨p, hp, hne⟩ := h.exists_ne q
    exact ⟨p, hne, SimpleGraph.ConnectedComponent.exact hp⟩
  · rintro ⟨p, hne, hp⟩
    exact Set.nontrivial_of_mem_mem_ne (SimpleGraph.ConnectedComponent.sound hp) hself hne

/-! ## Groups are components -/

section Groups

variable [Scalar R] {es : Dag.Entries R}

/-- What neighbours in a list agree on, all of its members agree on. -/
theorem eq_of_zip_tail {α : Type} (f : Qubit → α) {l : List Qubit}
    (h : ∀ x ∈ l.zip l.tail, f x.1 = f x.2) : ∀ p ∈ l, ∀ q ∈ l, f p = f q := by
  suffices hs : ∀ x ∈ l, ∀ r ∈ l.head?, f x = f r by
    intro p hp q hq
    obtain ⟨r, hr⟩ : ∃ r, l.head? = some r := by
      cases l with
      | nil => cases hp
      | cons r l => exact ⟨r, rfl⟩
    exact (hs p hp r hr).trans (hs q hq r hr).symm
  induction l with
  | nil => simp
  | cons a l ih =>
    intro x hx r hr
    obtain rfl : a = r := by simpa using hr
    rcases List.mem_cons.mp hx with rfl | hx
    · rfl
    · cases l with
      | nil => cases hx
      | cons b l =>
        have hab : f a = f b := h (a, b) (by simp)
        rw [hab]
        exact ih (fun y hy => h y (List.mem_cons_of_mem _ hy)) x hx b rfl

theorem adj_lt (h : d.Reads es) {p q : Qubit} (hpq : (interactionGraph d).Adj p q) :
    p < d.numQubits := by
  obtain ⟨-, id, i, hi, -, hp, -⟩ := interactionGraph_adj.mp hpq
  exact (h.fits (h.mem_iff.mpr hi)).qubits p hp

theorem label_eq_of_adj (h : d.Reads es) {p q : Qubit} (hpq : (interactionGraph d).Adj p q) :
    label d p = label d q := by
  obtain ⟨-, id, i, hi, hg, hp, hq⟩ := interactionGraph_adj.mp hpq
  refine eq_of_zip_tail (label d) (fun x hx => ?_) p hp q hq
  exact label_eq_of_interaction h (mem_interactions.mpr ⟨id, i, hi, hg, hx⟩)

/-- Qubits are joined by gates exactly when they have equal labels. -/
theorem reachable_iff_label_eq (h : d.Reads es) {p q : Qubit} (hp : p < d.numQubits)
    (hq : q < d.numQubits) : (interactionGraph d).Reachable p q ↔ label d p = label d q := by
  constructor
  · rintro ⟨w⟩
    clear hp hq
    induction w with
    | nil => rfl
    | cons hadj _ ih => exact (label_eq_of_adj h hadj).trans ih
  · intro hl
    have hconn := connected_of_label_eq h hp hq hl
    clear hl hp hq
    induction hconn with
    | rel p q hpq =>
      obtain ⟨id, i, hi, hg, hz⟩ := mem_interactions.mp hpq
      obtain ⟨hp, hq⟩ := List.of_mem_zip hz
      by_cases hne : p = q
      · rw [hne]
      · exact (interactionGraph_adj.mpr
          ⟨hne, id, i, hi, hg, hp, List.mem_of_mem_tail hq⟩).reachable
    | refl p => exact .refl p
    | symm p q _ ih => exact ih.symm
    | trans p q r _ _ ih jh => exact ih.trans jh

/-- Different qubits that are joined belong to the circuit. -/
theorem lt_of_reachable (h : d.Reads es) {p q : Qubit} (hne : p ≠ q)
    (hpq : (interactionGraph d).Reachable p q) : p < d.numQubits ∧ q < d.numQubits := by
  have hfirst {p q : Qubit} (hne : p ≠ q) (hpq : (interactionGraph d).Reachable p q) :
      p < d.numQubits := by
    obtain ⟨w⟩ := hpq
    cases w with
    | nil => exact absurd rfl hne
    | cons hadj _ => exact adj_lt h hadj
  exact ⟨hfirst hne hpq, hfirst hne.symm hpq.symm⟩

theorem mem_flatten_groups (h : d.Reads es) {q : Qubit} :
    q ∈ (interactionGroups d).flatten ↔ q ∈ groupedQubits d := by
  rw [List.mem_flatten, mem_groupedQubits]
  constructor
  · rintro ⟨group, hg, hq⟩
    obtain ⟨hlt, hl⟩ := group_spec hg
    have hnodup : group.Nodup :=
      (List.nodup_flatten.mp (nodup_flatten_groups d)).1 group hg
    have hlong : ¬ group ⊆ [q] := fun hsub => by
      have hle := (List.subperm_of_subset hnodup hsub).length_le
      exact absurd (mem_interactionGroups.mp hg).2 (Nat.not_lt.mpr hle)
    obtain ⟨p, hp, hne⟩ : ∃ p ∈ group, p ≠ q := by
      simpa [List.subset_def] using hlong
    exact ⟨p, hne, (reachable_iff_label_eq h (hlt p hp) (hlt q hq)).mpr (hl p hp q hq)⟩
  · rintro ⟨p, hne, hpq⟩
    obtain ⟨hp, hq⟩ := lt_of_reachable h hne hpq
    obtain ⟨group, hg, -, hq⟩ :=
      exists_group hp hq hne ((reachable_iff_label_eq h hp hq).mp hpq)
    exact ⟨group, hg, hq⟩

/-- Only finitely many qubits are counted. -/
theorem finite_groupedQubits (h : d.Reads es) : (groupedQubits d).Finite := by
  refine (Set.finite_lt_nat d.numQubits).subset fun q hq => ?_
  obtain ⟨p, hne, hpq⟩ := mem_groupedQubits.mp hq
  exact (lt_of_reachable h hne hpq).2

end Groups

/-! ## Assignments and packings -/

section Packings

theorem length_eq_ncard {l : List Qubit} (hl : l.Nodup) {s : Set Qubit} (hs : ∀ q, q ∈ l ↔ q ∈ s) :
    l.length = s.ncard := by
  rw [← List.toFinset_card_of_nodup hl, ← Set.ncard_coe_finset, List.coe_toFinset]
  exact congrArg Set.ncard (Set.ext hs)

/-- The members of the part of a qubit are the qubits of its component. -/
theorem length_members (hd : device.WellFormed) {r : Qubit} (hr : r < device.numQubits) {part : Nat}
    (hpart : device.component? r = some part) :
    (members device part).length = {p | p < device.numQubits ∧
      (couplingGraph device.couplings).connectedComponentMk p =
        (couplingGraph device.couplings).connectedComponentMk r}.ncard := by
  refine length_eq_ncard (nodup_members device part) fun p => ?_
  rw [mem_members]
  refine and_congr_right fun hp => ?_
  rw [← hpart, hd.component?_eq_iff hp hr, hd.distance?_isSome hr,
    SimpleGraph.ConnectedComponent.eq]

variable [Scalar R] {es : Dag.Entries R}
  {part : (interactionGraph d).ConnectedComponent →
    (couplingGraph device.couplings).ConnectedComponent}

/-- A component that a group goes to has a qubit. -/
theorem Assigns.exists_lt (ha : Assigns device d part) (h : d.Reads es) {q : Qubit}
    (hq : q ∈ groupedQubits d) : ∃ p < device.numQubits,
      (couplingGraph device.couplings).connectedComponentMk p =
        part ((interactionGraph d).connectedComponentMk q) := by
  have hpos : 0 < {p ∈ groupedQubits d | part ((interactionGraph d).connectedComponentMk p) =
      part ((interactionGraph d).connectedComponentMk q)}.ncard :=
    (Set.ncard_pos ((finite_groupedQubits h).subset (Set.sep_subset _ _))).mpr ⟨q, hq, rfl⟩
  obtain ⟨p, hp, hc⟩ := Set.nonempty_of_ncard_ne_zero
    (hpos.trans_le (ha (part ((interactionGraph d).connectedComponentMk q)))).ne'
  exact ⟨p, hp, hc⟩

/-- The components that groups go to are parts of the device, by number. -/
theorem Assigns.exists_number (ha : Assigns device d part) (hd : device.WellFormed)
    (h : d.Reads es) : ∃ number : Qubit → Nat,
      (∀ p ∈ groupedQubits d, ∀ q ∈ groupedQubits d, number p = number q ↔
        part ((interactionGraph d).connectedComponentMk p) =
          part ((interactionGraph d).connectedComponentMk q)) ∧
      ∀ q ∈ groupedQubits d, number q < device.numComponents ∧
        (members device (number q)).length = {p | p < device.numQubits ∧
          (couplingGraph device.couplings).connectedComponentMk p =
            part ((interactionGraph d).connectedComponentMk q)}.ncard := by
  choose! home hlt hhome using fun q (hq : q ∈ groupedQubits d) => ha.exists_lt h hq
  choose! number hnumber using fun q (hq : q ∈ groupedQubits d) => hd.exists_component? (hlt q hq)
  refine ⟨number, fun p hp q hq => ?_, fun q hq => ⟨component?_lt (hnumber q hq), ?_⟩⟩
  · rw [← hhome p hp, ← hhome q hq, SimpleGraph.ConnectedComponent.eq,
      ← hd.distance?_isSome (hlt q hq), ← hd.component?_eq_iff (hlt p hp) (hlt q hq),
      hnumber p hp, hnumber q hq, Option.some_inj]
  · rw [length_members hd (hlt q hq) (hnumber q hq), hhome q hq]

/-- An assignment distributes the groups over the parts. -/
theorem Assigns.distributes (ha : Assigns device d part) (hd : device.WellFormed) (h : d.Reads es)
    {rooms : List Nat} (hlen : rooms.length = device.numComponents)
    (hrooms : ∀ part room, rooms[part]? = some room → room = (members device part).length) :
    ∃ parts, Packing.Distributes ((interactionGroups d).map List.length) rooms parts := by
  obtain ⟨number, hiff, hnumber⟩ := ha.exists_number hd h
  have hgrouped {q : Qubit} (hq : q ∈ (interactionGroups d).flatten) : q ∈ groupedQubits d :=
    (mem_flatten_groups h).mp hq
  refine ⟨_, distributes_of_count number hlen hrooms ?_ ?_ ?_⟩
  · intro group hg q hq
    obtain ⟨hlt, hlabel⟩ := group_spec hg
    obtain ⟨r, rest, rfl⟩ := List.exists_cons_of_ne_nil (List.ne_nil_of_mem hq)
    have hr : r ∈ r :: rest := List.mem_cons_self
    have hjoined := (reachable_iff_label_eq h (hlt q hq) (hlt r hr)).mpr (hlabel q hq r hr)
    exact (hiff q (hgrouped (List.mem_flatten.mpr ⟨_, hg, hq⟩)) r
      (hgrouped (List.mem_flatten.mpr ⟨_, hg, hr⟩))).mpr
      (congrArg part (SimpleGraph.ConnectedComponent.sound hjoined))
  · exact fun q hq => (hnumber q (hgrouped hq)).1
  · intro k
    rcases Nat.eq_zero_or_pos ((interactionGroups d).flatten.filter (number · == k)).length with
      hzero | hpos
    · exact hzero.le.trans (Nat.zero_le _)
    · obtain ⟨r, hr⟩ := List.exists_mem_of_length_pos hpos
      obtain ⟨hmember, hk⟩ := List.mem_filter.mp hr
      obtain rfl := eq_of_beq hk
      have hr := hgrouped hmember
      -- the qubits with this number are those that go to the component of `r`
      have hmem (q : Qubit) : q ∈ (interactionGroups d).flatten.filter (number · == number r) ↔
          q ∈ {q ∈ groupedQubits d | part ((interactionGraph d).connectedComponentMk q) =
            part ((interactionGraph d).connectedComponentMk r)} := by
        rw [List.mem_filter, mem_flatten_groups h, beq_iff_eq]
        exact and_congr_right fun hq => hiff q hq r hr
      rw [length_eq_ncard ((nodup_flatten_groups d).filter _) hmem, (hnumber r hr).2]
      exact ha _

/-- A placement on different qubits under which gates stay within components gives an assignment. -/
theorem exists_assigns_of_place (h : d.Reads es) (place : Qubit → Qubit)
    (hlt : ∀ q < d.numQubits, place q < device.numQubits)
    (hinj : Set.InjOn place {q | q < d.numQubits})
    (hjoin : ∀ p q, (interactionGraph d).Adj p q →
      (couplingGraph device.couplings).Reachable (place p) (place q)) :
    ∃ part, Assigns device d part := by
  have hreach {p q : Qubit} (hpq : (interactionGraph d).Reachable p q) :
      (couplingGraph device.couplings).Reachable (place p) (place q) := by
    obtain ⟨w⟩ := hpq
    induction w with
    | nil => exact .refl _
    | cons hadj _ ih => exact (hjoin _ _ hadj).trans ih
  let part : (interactionGraph d).ConnectedComponent →
      (couplingGraph device.couplings).ConnectedComponent :=
    SimpleGraph.ConnectedComponent.lift
      (fun q => (couplingGraph device.couplings).connectedComponentMk (place q))
      fun _ _ w _ => SimpleGraph.ConnectedComponent.sound (hreach ⟨w⟩)
  refine ⟨part, fun c => Set.ncard_le_ncard_of_injOn place ?_ ?_ ?_⟩
  · rintro q ⟨hq, hc⟩
    obtain ⟨p, hne, hpq⟩ := mem_groupedQubits.mp hq
    exact ⟨hlt q (lt_of_reachable h hne hpq).2, hc⟩
  · refine hinj.mono ?_
    rintro q ⟨hq, -⟩
    obtain ⟨p, hne, hpq⟩ := mem_groupedQubits.mp hq
    exact (lt_of_reachable h hne hpq).2
  · exact (Set.finite_lt_nat device.numQubits).subset fun p hp => hp.1

end Packings

/-! ## The layout -/

/-- A layout of all qubits of a circuit on different ones of a device, with the qubits that gates join
in one component. -/
structure KeepsGroups (device : Device R) (d : Dag R) (layout : Layout) : Prop where
  placed : ∀ q < d.numQubits, ∃ p < device.numQubits, layout.physical? q = some p
  only : ∀ q, d.numQubits ≤ q → layout.physical? q = none
  injective : ∀ p q r, layout.physical? p = some r → layout.physical? q = some r → p = q
  together : ∀ p q x y, (interactionGraph d).Reachable p q → layout.physical? p = some x →
    layout.physical? q = some y → (couplingGraph device.couplings).Reachable x y

section OfComponents

variable [Scalar R] {es : Dag.Entries R}

/-- Such a layout assigns the groups. -/
theorem KeepsGroups.exists_assigns {layout : Layout} (hk : KeepsGroups device d layout)
    (h : d.Reads es) : ∃ part, Assigns device d part := by
  choose! place hlt hplace using hk.placed
  refine exists_assigns_of_place h place hlt (fun p hp q hq hpq => ?_) fun p q hpq => ?_
  · exact hk.injective p q _ (hplace p hp) (hpq ▸ hplace q hq)
  · exact hk.together p q _ _ hpq.reachable (hplace p (adj_lt h hpq))
      (hplace q (adj_lt h hpq.symm))

/-- The listed places of groups in parts keep the groups. -/
theorem keepsGroups_ofPhysical (hd : device.WellFormed) (h : d.Reads es) {physical : List Qubit}
    (hc : Choice d.numQubits device.numQubits physical)
    (hgroups : ∀ group ∈ interactionGroups d, ∃ part, ∀ q ∈ group, ∃ p,
      physical[q]? = some p ∧ device.component? p = some part) :
    KeepsGroups device d (.ofPhysical physical) := by
  have hget (q : Qubit) := Placement.physical?_ofPhysical hc.nodup q
  constructor
  · intro q hq
    have hlt : q < physical.length := hc.length ▸ hq
    exact ⟨physical[q], hc.lt _ (List.getElem_mem hlt),
      (hget q).trans (List.getElem?_eq_getElem hlt)⟩
  · intro q hq
    rw [hget, List.getElem?_eq_none (hc.length ▸ hq)]
  · intro p q r hp hq
    rw [hget] at hp hq
    exact (List.getElem?_inj (List.getElem?_eq_some_iff.mp hp).1 hc.nodup).mp (hp.trans hq.symm)
  · intro p q x y hpq hx hy
    rw [hget] at hx hy
    by_cases hne : p = q
    · obtain rfl : x = y := Option.some.inj (hx.symm.trans (hne ▸ hy))
      exact .refl x
    · obtain ⟨hp, hq⟩ := lt_of_reachable h hne hpq
      obtain ⟨group, hg, hpg, hqg⟩ :=
        exists_group hp hq hne ((reachable_iff_label_eq h hp hq).mp hpq)
      obtain ⟨part, hpart⟩ := hgroups group hg
      obtain ⟨x', hx', hxc⟩ := hpart p hpg
      obtain ⟨y', hy', hyc⟩ := hpart q hqg
      obtain rfl : x = x' := Option.some.inj (hx.symm.trans hx')
      obtain rfl : y = y' := Option.some.inj (hy.symm.trans hy')
      have hxlt := hc.lt x (List.mem_of_getElem? hx)
      have hylt := hc.lt y (List.mem_of_getElem? hy)
      exact (hd.distance?_isSome hylt).mp
        ((hd.component?_eq_iff hxlt hylt).mp (hxc.trans hyc.symm))

/-- A circuit that is not too wide gets a layout that keeps its groups, or the groups cannot be
assigned. -/
theorem ofComponents_cases (hd : device.WellFormed) (h : d.Reads es)
    (hw : d.numQubits ≤ device.numQubits) (strategy : LayoutStrategy) (seed : Nat) :
    (∃ layout, ofComponents d device strategy seed = .ok layout ∧ KeepsGroups device d layout) ∨
      (∃ reason, ofComponents d device strategy seed = .error (.unreachableLayout reason)) ∧
        ¬ ∃ part, Assigns device d part := by
  cases hpack : Packing.pack? ((interactionGroups d).map List.length)
      ((partRuns device strategy seed).map List.length) with
  | some found =>
    obtain ⟨physical, hok, hc, hgroups⟩ := ofComponents_eq_ok strategy seed hd hw hpack
    exact .inl ⟨_, hok, keepsGroups_ofPhysical hd h hc hgroups⟩
  | none =>
    refine .inr ⟨ofComponents_eq_error strategy seed hw hpack, ?_⟩
    rintro ⟨part, ha⟩
    obtain ⟨hlen, hrooms⟩ := map_length_partRuns strategy seed hd
    obtain ⟨parts, hparts⟩ := ha.distributes hd h hlen hrooms
    obtain ⟨found, hfound⟩ := Packing.exists_pack?_of_distributes hparts
    cases hpack.symm.trans hfound

/-- A circuit that is wider than the device is refused for that. Any other one is refused exactly when
its groups cannot be assigned to the components of the device, and gets a layout that keeps them when
they can. The search never comes to lack qubits. -/
theorem components_accept_iff_assigns (hb : device.Built) (hd : d.Reachable)
    (strategy : LayoutStrategy) (seed : Nat) :
    (device.numQubits < d.numQubits → ofComponents d device strategy seed =
      .error (.insufficientQubits d.numQubits device.numQubits)) ∧
    (d.numQubits ≤ device.numQubits →
      ((∃ reason, ofComponents d device strategy seed = .error (.unreachableLayout reason)) ↔
        ¬ ∃ part, Assigns device d part) ∧
      ((∃ part, Assigns device d part) → ∃ layout,
        ofComponents d device strategy seed = .ok layout ∧ KeepsGroups device d layout)) ∧
    ∀ x, ofComponents d device strategy seed ≠ .error (.internal x) := by
  obtain ⟨es, h⟩ := hd.exists_reads
  rcases Nat.lt_or_ge device.numQubits d.numQubits with hlt | hw
  · have hwide : ofComponents d device strategy seed =
        .error (.insufficientQubits d.numQubits device.numQubits) := by
      rw [ofComponents, if_pos hlt]
    refine ⟨fun _ => hwide, fun hw => absurd hlt hw.not_gt, fun x hx => ?_⟩
    cases hwide.symm.trans hx
  · refine ⟨fun hlt => absurd hlt hw.not_gt, fun _ => ?_, ?_⟩
    all_goals rcases ofComponents_cases hb.wellFormed h hw strategy seed with
      ⟨layout, hok, hk⟩ | ⟨⟨reason, hr⟩, hno⟩
    · refine ⟨⟨?_, fun hno => absurd (hk.exists_assigns h) hno⟩, fun _ => ⟨layout, hok, hk⟩⟩
      rintro ⟨reason, hr⟩
      cases hok.symm.trans hr
    · exact ⟨⟨fun _ => hno, fun _ => ⟨reason, hr⟩⟩, fun ha => absurd ha hno⟩
    · intro x hx
      cases hok.symm.trans hx
    · intro x hx
      cases hr.symm.trans hx

end OfComponents

section Islands

attribute [local instance] Scalar.real

/-- A line of three qubits beside a coupled pair. -/
noncomputable def islands : Device ℝ :=
  .ofCouplings "islands" 5 [⟨0, 1, 1⟩, ⟨1, 2, 1⟩, ⟨3, 4, 1⟩] .standard

theorem built_islands : islands.Built := by
  have hcheck {a b : Qubit} (ha : a < 5) (hb : b < 5) (hne : a ≠ b) :
      Device.checkCoupling 5 (⟨a, b, 1⟩ : Coupling ℝ) = .ok () :=
    Device.checkCoupling_real ⟨ha, hb, hne⟩ one_pos le_rfl
  refine .ofEdges (Outcome.bind_eq_ok.mpr ⟨(), Outcome.forM_eq_ok.mpr ?_, rfl⟩)
  simp only [List.forall_mem_cons]
  exact ⟨hcheck (by decide) (by decide) (by decide), hcheck (by decide) (by decide) (by decide),
    hcheck (by decide) (by decide) (by decide), by simp⟩

/-- A gate on three qubits and one on the two others. -/
def scattered : List (Instruction ℝ) := [.ofStandard .ccx [0, 4, 2], .ofStandard .cx [1, 3]]

/-- The gate on three qubits goes to the line. -/
def gathered (q : Qubit) : Qubit := [0, 3, 1, 4, 2].getD q q

theorem components_accept_scattered : ∃ d, Dag.ofInstructions 5 0 scattered = .ok d ∧
    ∃ layout, ofComponents d islands .random 7 = .ok layout ∧ KeepsGroups islands d layout := by
  obtain ⟨d, es, hd, h, hes, hq, -⟩ := Dag.exists_reads_ofInstructions 5 0 scattered
    (by
      simp only [scattered, List.forall_mem_cons]
      exact ⟨rfl, rfl, by simp⟩)
    (by simp [scattered, Instruction.ofStandard, Instruction.ofGate])
  have hline : ∀ q, q = 0 ∨ q = 4 ∨ q = 2 →
      (couplingGraph islands.couplings).Reachable 1 (gathered q) := by
    rintro q (rfl | rfl | rfl)
    · exact (built_islands.wellFormed.graph_adj.mpr rfl).reachable
    · exact (built_islands.wellFormed.graph_adj.mpr rfl).reachable
    · exact .refl _
  have hpair : ∀ q, q = 1 ∨ q = 3 →
      (couplingGraph islands.couplings).Reachable 3 (gathered q) := by
    rintro q (rfl | rfl)
    · exact .refl _
    · exact (built_islands.wellFormed.graph_adj.mpr rfl).reachable
  have ha : ∃ part, Assigns islands d part := by
    refine exists_assigns_of_place h gathered ?_ ?_ ?_
    · rw [hq]
      decide
    · rw [hq]
      have hinj : ∀ p < 5, ∀ q < 5, gathered p = gathered q → p = q := by decide
      exact fun p hp q hq => hinj p hp q hq
    · intro p q hpq
      obtain ⟨-, id, i, hi, -, hp, hq⟩ := interactionGraph_adj.mp hpq
      have hm : i ∈ scattered := hes ▸ List.mem_map_of_mem (f := (·.2)) (h.mem_iff.mpr hi)
      simp only [scattered, List.mem_cons, List.not_mem_nil, or_false] at hm
      rcases hm with rfl | rfl
      · exact (hline p (by simpa [Instruction.ofStandard, Instruction.ofGate] using hp)).symm.trans
          (hline q (by simpa [Instruction.ofStandard, Instruction.ofGate] using hq))
      · exact (hpair p (by simpa [Instruction.ofStandard, Instruction.ofGate] using hp)).symm.trans
          (hpair q (by simpa [Instruction.ofStandard, Instruction.ofGate] using hq))
  exact ⟨d, hd, ((components_accept_iff_assigns built_islands h.reachable .random 7).2.1 hq.le).2 ha⟩

end Islands

end QuantumCompiler.Layout
