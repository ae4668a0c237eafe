import QuantumCompiler.Layout.Components
import QuantumCompiler.Proofs.Classes
import QuantumCompiler.Proofs.Dag.Reads

/-!
# Groups of interacting qubits

The groups are the classes of two or more qubits that gates join: no qubit is in two groups, the qubits
of a group are connected by gates, and both operands of a gate are in one group.
-/
namespace QuantumCompiler.Layout

variable {R : Type} {d : Dag R}

/-- The operands of gates, each with the next one. -/
def interactions (d : Dag R) : List (Qubit × Qubit) :=
  d.instructions.flatMap fun (_, i) => if i.isGate then i.qubits.zip i.qubits.tail else []

def label (d : Dag R) (q : Qubit) : Nat := (interactionLabels d).getD q q

theorem mem_interactions {p q : Qubit} : (p, q) ∈ interactions d ↔
    ∃ id i, d.instruction? id = some i ∧ i.isGate = true ∧ (p, q) ∈ i.qubits.zip i.qubits.tail := by
  simp only [interactions, List.mem_flatMap, Prod.exists, Dag.mem_instructions]
  refine exists_congr fun id => exists_congr fun i => and_congr_right fun _ => ?_
  split <;> simp [*]

section Labels

variable [Scalar R] {es : Dag.Entries R}

theorem interactions_lt (h : d.Reads es) :
    ∀ x ∈ interactions d, x.1 < d.numQubits ∧ x.2 < d.numQubits := by
  rintro ⟨p, q⟩ hx
  obtain ⟨id, i, hi, -, hpq⟩ := mem_interactions.mp hx
  obtain ⟨hp, hq⟩ := List.of_mem_zip hpq
  have hf := (h.fits (h.mem_iff.mpr hi)).qubits
  exact ⟨hf p hp, hf q (List.mem_of_mem_tail hq)⟩

/-- Qubits have equal labels exactly when gates connect them. -/
theorem separates_labels (h : d.Reads es) :
    Classes.Separates (interactionLabels d) (interactions d) ∧
      (interactionLabels d).size = d.numQubits :=
  Classes.separates_ofPairs (interactions_lt h)

theorem getElem?_labels (h : d.Reads es) {q : Qubit} (hq : q < d.numQubits) :
    (interactionLabels d)[q]? = some (label d q) := by
  rw [← (separates_labels h).2] at hq
  simp [label, hq]

theorem label_eq_of_interaction (h : d.Reads es) {p q : Qubit} (hpq : (p, q) ∈ interactions d) :
    label d p = label d q := by
  obtain ⟨hp, hq⟩ := interactions_lt h _ hpq
  have hj := (separates_labels h).1.joined _ hpq
  rw [getElem?_labels h hp, getElem?_labels h hq] at hj
  exact Option.some.inj hj

theorem connected_of_label_eq (h : d.Reads es) {p q : Qubit} (hp : p < d.numQubits)
    (hq : q < d.numQubits) (hl : label d p = label d q) :
    Classes.Connected (interactions d) p q :=
  (separates_labels h).1.connects p q _ (getElem?_labels h hp) (hl ▸ getElem?_labels h hq)

end Labels

/-! ## The groups -/

/-- The qubits that share the label of a qubit. -/
def classOf (d : Dag R) (q : Qubit) : List Qubit :=
  (List.range d.numQubits).filter fun p => label d p == label d q

theorem mem_classOf {p q : Qubit} : p ∈ classOf d q ↔ p < d.numQubits ∧ label d p = label d q := by
  simp [classOf]

/-- The first qubits of their labels. -/
def leaders (d : Dag R) : List Qubit :=
  (List.range d.numQubits).filter fun q => !(List.range q).any fun p => label d p == label d q

theorem mem_leaders {q : Qubit} :
    q ∈ leaders d ↔ q < d.numQubits ∧ ∀ p < q, label d p ≠ label d q := by
  simp [leaders]

theorem leader_unique {p q : Qubit} (hp : p ∈ leaders d) (hq : q ∈ leaders d)
    (hl : label d p = label d q) : p = q := by
  rcases Nat.lt_trichotomy p q with hlt | heq | hlt
  · exact absurd hl ((mem_leaders.mp hq).2 p hlt)
  · exact heq
  · exact absurd hl.symm ((mem_leaders.mp hp).2 q hlt)

theorem exists_leader {q : Qubit} (hq : q < d.numQubits) :
    ∃ p ∈ leaders d, label d p = label d q := by
  induction q using Nat.strongRecOn with
  | _ q ih =>
    by_cases hl : ∀ p < q, label d p ≠ label d q
    · exact ⟨q, mem_leaders.mpr ⟨hq, hl⟩, rfl⟩
    · simp only [not_forall, not_not] at hl
      obtain ⟨p, hpq, hl⟩ := hl
      obtain ⟨r, hr, hrl⟩ := ih p hpq (hpq.trans hq)
      exact ⟨r, hr, hrl.trans hl⟩

theorem perm_interactionGroups (d : Dag R) :
    (interactionGroups d).Perm (((leaders d).map (classOf d)).filter (·.length > 1)) :=
  List.mergeSort_perm _ _

theorem mem_interactionGroups {group : List Qubit} : group ∈ interactionGroups d ↔
    (∃ q ∈ leaders d, classOf d q = group) ∧ 1 < group.length := by
  rw [(perm_interactionGroups d).mem_iff, List.mem_filter, List.mem_map, decide_eq_true_iff]

/-- No qubit is in two groups. -/
theorem nodup_flatten_groups (d : Dag R) : (interactionGroups d).flatten.Nodup := by
  rw [(perm_interactionGroups d).flatten.nodup_iff]
  refine List.Nodup.sublist (List.filter_sublist.flatten) ?_
  rw [List.nodup_flatten]
  constructor
  · intro group hg
    obtain ⟨q, -, rfl⟩ := List.mem_map.mp hg
    exact List.nodup_range.filter _
  · rw [List.pairwise_map]
    have hn : (leaders d).Nodup := List.nodup_range.filter _
    refine hn.imp_of_mem fun hp hq hne => ?_
    intro r hrp hrq
    exact hne (leader_unique hp hq ((mem_classOf.mp hrp).2.symm.trans (mem_classOf.mp hrq).2))

theorem group_spec {group : List Qubit} (hg : group ∈ interactionGroups d) :
    (∀ q ∈ group, q < d.numQubits) ∧ ∀ p ∈ group, ∀ q ∈ group, label d p = label d q := by
  obtain ⟨⟨r, -, rfl⟩, -⟩ := mem_interactionGroups.mp hg
  exact ⟨fun q hq => (mem_classOf.mp hq).1,
    fun p hp q hq => (mem_classOf.mp hp).2.trans (mem_classOf.mp hq).2.symm⟩

/-- Two qubits with equal labels are in one group. -/
theorem exists_group {p q : Qubit} (hp : p < d.numQubits) (hq : q < d.numQubits) (hne : p ≠ q)
    (hl : label d p = label d q) : ∃ group ∈ interactionGroups d, p ∈ group ∧ q ∈ group := by
  obtain ⟨r, hr, hrl⟩ := exists_leader hp
  have hpr : p ∈ classOf d r := mem_classOf.mpr ⟨hp, hrl.symm⟩
  have hqr : q ∈ classOf d r := mem_classOf.mpr ⟨hq, hl.symm.trans hrl.symm⟩
  refine ⟨_, mem_interactionGroups.mpr ⟨⟨r, hr, rfl⟩, ?_⟩, hpr, hqr⟩
  by_contra hlen
  obtain ⟨x, hx⟩ : ∃ x, classOf d r = [x] :=
    List.length_eq_one_iff.mp (by have := List.length_pos_of_mem hpr; omega)
  rw [hx, List.mem_singleton] at hpr hqr
  exact hne (hpr.trans hqr.symm)

end QuantumCompiler.Layout
