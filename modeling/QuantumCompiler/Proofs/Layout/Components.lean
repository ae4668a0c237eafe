import QuantumCompiler.Proofs.Layout.Groups
import QuantumCompiler.Proofs.Layout.Placement
import QuantumCompiler.Proofs.Layout.Places

/-!
# Layouts on a device in several parts

A layout that keeps interacting qubits in one part is found exactly when there is one. Any placement
under which the operands of all gates are connected puts each group into one part, and so is a packing;
and any packing gives such a placement.
-/
namespace QuantumCompiler.Layout

open Placement (Choice)

variable {R : Type} {device : Device R} {d : Dag R}

/-- A placement of the qubits of a circuit on different ones of a device under which the operands of
every two-qubit gate are connected. -/
structure Suits (device : Device R) (d : Dag R) (place : Qubit → Qubit) : Prop where
  lt : ∀ q < d.numQubits, place q < device.numQubits
  injective : ∀ p < d.numQubits, ∀ q < d.numQubits, place p = place q → p = q
  connected : ∀ id i a b, d.instruction? id = some i → i.isGate = true → i.qubits = [a, b] →
    device.Connected (place a) (place b)

/-- Gates on at most two qubits. -/
def Narrow (d : Dag R) : Prop :=
  ∀ id i, d.instruction? id = some i → i.isGate = true → i.qubits.length ≤ 2

theorem mem_interactions_iff (hn : Narrow d) {a b : Qubit} : (a, b) ∈ interactions d ↔
    ∃ id i, d.instruction? id = some i ∧ i.isGate = true ∧ i.qubits = [a, b] := by
  rw [mem_interactions]
  refine exists_congr fun id => exists_congr fun i => and_congr_right fun hi =>
    and_congr_right fun hg => ?_
  have hle := hn id i hi hg
  match hq : i.qubits with
  | [] => simp
  | [p] => simp
  | [p, q] => simp [eq_comm]
  | p :: q :: r :: rest =>
    rw [hq] at hle
    simp at hle

section Suits

variable [Scalar R] {es : Dag.Entries R} {place : Qubit → Qubit}

/-- Such a placement keeps every group in one part. -/
theorem Suits.component?_eq (hs : Suits device d place) (hd : device.WellFormed) (h : d.Reads es)
    (hn : Narrow d) {p q : Qubit} (hp : p < d.numQubits) (hq : q < d.numQubits)
    (hl : label d p = label d q) :
    device.component? (place p) = device.component? (place q) := by
  have hconn := connected_of_label_eq h hp hq hl
  clear hp hq hl
  induction hconn with
  | rel p q hpq =>
    obtain ⟨id, i, hi, hg, hq⟩ := (mem_interactions_iff hn).mp hpq
    have hp := hs.lt p (interactions_lt h _ hpq).1
    exact (hd.connected_iff hp).mp (hs.connected id i p q hi hg hq)
  | refl p => rfl
  | symm p q _ ih => exact ih.symm
  | trans p q r _ _ ih jh => exact ih.trans jh

/-- The part of a group under a placement. -/
def partOf (device : Device R) (place : Qubit → Qubit) (group : List Qubit) : Nat :=
  (device.component? (place (group.headD 0))).getD 0

omit [Scalar R] in
theorem load_map (f : List Qubit → Nat) (groups : List (List Qubit)) (part : Nat) :
    Packing.load (groups.map List.length) (groups.map f) part =
      (groups.filter (f · == part)).flatten.length := by
  induction groups with
  | nil => rfl
  | cons group groups ih =>
    rw [List.map_cons, List.map_cons, Packing.load_cons, ih, List.filter_cons]
    by_cases hp : f group = part <;> simp [hp]

omit [Scalar R] in
/-- Groups in parts are the qubits in parts where groups stay together. -/
theorem flatten_filter_groups {number : Qubit → Nat} (groups : List (List Qubit)) (part : Nat)
    (hsame : ∀ group ∈ groups, ∀ q ∈ group, number q = number (group.headD 0)) :
    (groups.filter fun group => number (group.headD 0) == part).flatten =
      groups.flatten.filter (number · == part) := by
  induction groups with
  | nil => rfl
  | cons group groups ih =>
    have hgroup : ∀ q ∈ group, (number q == part) = (number (group.headD 0) == part) :=
      fun q hq => by rw [hsame group (by simp) q hq]
    rw [List.flatten_cons, List.filter_append, List.filter_congr hgroup, List.filter_cons,
      ← ih fun g hg => hsame g (by simp [hg])]
    generalize (number (group.headD 0) == part) = here
    cases here <;> simp

omit [Scalar R] in
/-- Part numbers for qubits distribute the groups over the parts when groups stay together and no part
gets more qubits than it has. -/
theorem distributes_of_count (number : Qubit → Nat) {rooms : List Nat}
    (hlen : rooms.length = device.numComponents)
    (hrooms : ∀ part room, rooms[part]? = some room → room = (members device part).length)
    (hsame : ∀ group ∈ interactionGroups d, ∀ q ∈ group, number q = number (group.headD 0))
    (hlt : ∀ q ∈ (interactionGroups d).flatten, number q < device.numComponents)
    (hcount : ∀ part, ((interactionGroups d).flatten.filter (number · == part)).length ≤
      (members device part).length) :
    Packing.Distributes ((interactionGroups d).map List.length) rooms
      ((interactionGroups d).map fun group => number (group.headD 0)) := by
  refine Packing.distributes_of_load (by simp) ?_ ?_
  · intro part hp
    obtain ⟨group, hg, rfl⟩ := List.mem_map.mp hp
    obtain ⟨q, hq⟩ := List.exists_mem_of_length_pos
      (Nat.lt_of_lt_of_le Nat.one_pos (mem_interactionGroups.mp hg).2.le)
    rw [hlen, ← hsame group hg q hq]
    exact hlt q (List.mem_flatten.mpr ⟨group, hg, hq⟩)
  · intro part room hroom
    rw [load_map, hrooms part room hroom, flatten_filter_groups _ _ hsame]
    exact hcount part

/-- Such a placement distributes the groups over the parts. -/
theorem Suits.distributes (hs : Suits device d place) (hd : device.WellFormed) (h : d.Reads es)
    (hn : Narrow d) {rooms : List Nat}
    (hlen : rooms.length = device.numComponents)
    (hrooms : ∀ part room, rooms[part]? = some room → room = (members device part).length) :
    Packing.Distributes ((interactionGroups d).map List.length) rooms
      ((interactionGroups d).map (partOf device place)) := by
  have hlt : ∀ q ∈ (interactionGroups d).flatten, q < d.numQubits := by
    intro q hq
    obtain ⟨group, hg, hq⟩ := List.mem_flatten.mp hq
    exact (group_spec hg).1 q hq
  have hpart : ∀ q ∈ (interactionGroups d).flatten, device.component? (place q) =
      some ((device.component? (place q)).getD 0) := by
    intro q hq
    obtain ⟨part, hpart⟩ := hd.exists_component? (hs.lt q (hlt q hq))
    rw [hpart]
    rfl
  refine distributes_of_count (fun q => (device.component? (place q)).getD 0) hlen hrooms
    ?_ (fun q hq => component?_lt (hpart q hq)) ?_
  · intro group hg q hq
    obtain ⟨hlt, hlabel⟩ := group_spec hg
    obtain ⟨r, rest, rfl⟩ := List.exists_cons_of_ne_nil (List.ne_nil_of_mem hq)
    have hr : r ∈ r :: rest := by simp
    exact congrArg (·.getD 0) (hs.component?_eq hd h hn (hlt q hq) (hlt r hr) (hlabel q hq r hr))
  · intro part
    rw [← List.length_map place]
    have hinj : ∀ p ∈ (interactionGroups d).flatten, ∀ q ∈ (interactionGroups d).flatten,
        place p = place q → p = q :=
      fun p hp q hq => hs.injective p (hlt p hp) q (hlt q hq)
    have hnodup := (nodup_flatten_groups d).filter
      fun q => (device.component? (place q)).getD 0 == part
    refine (List.subperm_of_subset (hnodup.map_on fun p hp q hq =>
      hinj p (List.mem_of_mem_filter hp) q (List.mem_of_mem_filter hq)) ?_).length_le
    intro x hx
    obtain ⟨q, hq, rfl⟩ := List.mem_map.mp hx
    obtain ⟨hq, hqp⟩ := List.mem_filter.mp hq
    exact mem_members.mpr ⟨hs.lt q (hlt q hq), (hpart q hq).trans (congrArg some (eq_of_beq hqp))⟩

end Suits

/-! ## The layout -/

section OfComponents

variable (strategy : LayoutStrategy) (seed : Nat)

theorem map_length_partRuns (hd : device.WellFormed) :
    ((partRuns device strategy seed).map List.length).length = device.numComponents ∧
      ∀ (part room : Nat), ((partRuns device strategy seed).map List.length)[part]? = some room →
        room = (members device part).length := by
  obtain ⟨hlen, hruns⟩ := partRuns_spec hd strategy seed
  refine ⟨by rw [List.length_map, hlen], fun part room hroom => ?_⟩
  rw [List.getElem?_map] at hroom
  obtain ⟨run, hrun, rfl⟩ := Option.map_eq_some_iff.mp hroom
  exact (hruns part run hrun).length_eq

theorem placed_nil (hd : device.WellFormed) (n : Nat) :
    Placed device (partRuns device strategy seed) n []
      (Array.replicate n none, partRuns device strategy seed) := by
  refine ⟨Array.size_replicate, ?_, ?_, ?_, by simp⟩
  · simp
  · intro part run hrun p hp
    have hperm := (partRuns_spec hd strategy seed).2 part run hrun
    exact (mem_members.mp (hperm.mem_iff.mp hp)).2
  · intro q hq _
    simp [hq]

/-- A packing gives a layout that keeps every group in one part. -/
theorem ofComponents_eq_ok (hd : device.WellFormed) (hw : d.numQubits ≤ device.numQubits)
    {found : List Nat × List Nat}
    (hpack : Packing.pack? ((interactionGroups d).map List.length)
      ((partRuns device strategy seed).map List.length) = some found) :
    ∃ physical, ofComponents d device strategy seed = .ok (.ofPhysical physical) ∧
      Choice d.numQubits device.numQubits physical ∧
      ∀ group ∈ interactionGroups d, ∃ part, ∀ q ∈ group, ∃ p, physical[q]? = some p ∧
        device.component? p = some part := by
  obtain ⟨assignment, left⟩ := found
  have hplaced := (placed_nil strategy seed hd d.numQubits).placeGroups (interactionGroups d)
    (Packing.distributes_of_pack? hpack)
    (fun q hq => by
      obtain ⟨group, hg, hq⟩ := List.mem_flatten.mp hq
      exact (group_spec hg).1 q hq)
    (by simpa using nodup_flatten_groups d)
  rw [List.nil_append] at hplaced
  rw [ofComponents, if_neg (by omega)]
  simp only [hpack]
  generalize ((interactionGroups d).zip assignment).foldl _ _ = state at hplaced ⊢
  obtain ⟨places, parts⟩ := state
  have hall : (places.toList.filterMap id ++ parts.flatten).Perm
      (List.range device.numQubits) := hplaced.perm.trans (perm_flatten_partRuns hd strategy seed)
  have hlen : places.toList.length ≤ (places.toList.filterMap id).length + parts.flatten.length := by
    have hcount := hall.length_eq
    have hsize : places.size = d.numQubits := hplaced.size
    rw [List.length_append, List.length_range] at hcount
    rw [Array.length_toList]
    omega
  obtain ⟨physical, hfill, hlength, ⟨rest, hrest⟩, hkeep⟩ := exists_fillPlaces _ _ hlen
  have hperm := hrest.trans hall
  refine ⟨physical, by rw [hfill], ⟨?_, ?_, ?_⟩, ?_⟩
  · rw [hlength, Array.length_toList]
    exact hplaced.size
  · exact (List.nodup_append.mp (hperm.nodup_iff.mpr List.nodup_range)).1
  · exact fun p hp => List.mem_range.mp (hperm.mem_iff.mp (List.mem_append_left _ hp))
  · intro group hg
    obtain ⟨part, hpart⟩ := hplaced.together group hg
    refine ⟨part, fun q hq => ?_⟩
    obtain ⟨p, hp, hc⟩ := hpart q hq
    exact ⟨p, hkeep q p (by simpa using hp), hc⟩

/-- Without a packing there is no layout. -/
theorem ofComponents_eq_error (hw : d.numQubits ≤ device.numQubits)
    (hpack : Packing.pack? ((interactionGroups d).map List.length)
      ((partRuns device strategy seed).map List.length) = none) :
    ∃ reason, ofComponents d device strategy seed = .error (.unreachableLayout reason) := by
  rw [ofComponents, if_neg (by omega)]
  simp only [hpack]
  exact ⟨_, rfl⟩

end OfComponents

end QuantumCompiler.Layout
