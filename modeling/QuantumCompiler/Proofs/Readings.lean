import QuantumCompiler.Compiler
import QuantumCompiler.Proofs.Dag.Reads

/-!
# What is read

The measurements of a circuit read qubits into classical bits, in the order in which they are done. A
result lists the last reading of each qubit. Changes of a graph that touch no measurement leave its
readings as they are.
-/
namespace QuantumCompiler

variable {R : Type}

namespace Instruction

variable {i : Instruction R}

/-- The qubits that are read, each with the classical bit that takes its value. -/
def readings (i : Instruction R) : List (Qubit × Clbit) :=
  if i.isMeasure then i.qubits.zip i.clbits else []

theorem readings_of_isMeasure_eq_false (h : i.isMeasure = false) : i.readings = [] := by
  rw [readings, h]
  rfl

theorem readings_of_isGate (h : i.isGate = true) : i.readings = [] :=
  readings_of_isMeasure_eq_false (isMeasure_of_isGate h)

@[simp] theorem readings_measure (q : Qubit) (c : Clbit) :
    (measure q c : Instruction R).readings = [(q, c)] := rfl

/-- A measurement of one qubit is known by what it reads. -/
theorem eq_measure_of_mem_readings {q : Qubit} {c : Clbit} (hq : i.qubits.length ≤ 1)
    (hc : i.clbits.length ≤ 1) (h : (q, c) ∈ i.readings) : i = .measure q c := by
  obtain ⟨operation, qs, cs⟩ := i
  cases operation with
  | measure =>
    obtain ⟨hqs, hcs⟩ := List.of_mem_zip (show (q, c) ∈ qs.zip cs from h)
    obtain ⟨x, rfl⟩ := List.length_eq_one_iff.mp (hq.antisymm (List.length_pos_of_mem hqs))
    obtain ⟨b, rfl⟩ := List.length_eq_one_iff.mp (hc.antisymm (List.length_pos_of_mem hcs))
    rw [List.mem_singleton.mp hqs, List.mem_singleton.mp hcs]
    rfl
  | gate | reset | barrier | delay => cases h

theorem isMeasure_of_mem_readings {x : Qubit × Clbit} (h : x ∈ i.readings) : i.isMeasure = true := by
  by_contra hm
  rw [readings_of_isMeasure_eq_false (by simpa using hm)] at h
  cases h

theorem mem_qubits_of_mem_readings {q : Qubit} {c : Clbit} (h : (q, c) ∈ i.readings) :
    q ∈ i.qubits := by
  rw [readings, if_pos (isMeasure_of_mem_readings h)] at h
  exact (List.of_mem_zip h).1

/-- On other qubits the same classical bits are written. -/
theorem readings_mapQubits (i : Instruction R) (f : Qubit → Qubit) :
    (i.mapQubits f).readings = i.readings.map fun x => (f x.1, x.2) := by
  have hm : (i.mapQubits f).isMeasure = i.isMeasure := rfl
  unfold readings
  rw [hm]
  split
  · exact List.zip_map_left
  · rfl

end Instruction

/-- The readings of a sequence, in order. -/
def readings (is : List (Instruction R)) : List (Qubit × Clbit) := is.flatMap Instruction.readings

@[simp] theorem readings_nil : readings ([] : List (Instruction R)) = [] := rfl

@[simp] theorem readings_cons (i : Instruction R) (is : List (Instruction R)) :
    readings (i :: is) = i.readings ++ readings is := List.flatMap_cons

@[simp] theorem readings_append (is js : List (Instruction R)) :
    readings (is ++ js) = readings is ++ readings js := List.flatMap_append

theorem readings_eq_nil {is : List (Instruction R)} (h : ∀ i ∈ is, i.isGate = true) :
    readings is = [] :=
  List.flatMap_eq_nil_iff.mpr fun i hi => Instruction.readings_of_isGate (h i hi)

/-- Replacing instructions by others with the same readings keeps the readings. -/
theorem readings_flatMap {is : List (Instruction R)} {f : Instruction R → List (Instruction R)}
    (h : ∀ i ∈ is, readings (f i) = i.readings) : readings (is.flatMap f) = readings is := by
  rw [readings, List.flatMap_assoc]
  exact List.flatMap_congr h

/-- The last operation on a qubit reads it. -/
def Circuit.endsRead (circuit : Circuit R) (q : Qubit) : Bool :=
  ((circuit.instructions.filter fun i => i.qubits.contains q).getLast?).any Instruction.isMeasure

/-! ## The last reading of each qubit -/

section Last

variable {rs : List (Qubit × Clbit)} {p q : Qubit} {b c : Clbit}

/-- The classical bit takes the last reading of the qubit. -/
def IsLast (rs : List (Qubit × Clbit)) (p : Qubit) (b : Clbit) : Prop :=
  ∃ before after, rs = before ++ (p, b) :: after ∧ p ∉ after.map Prod.fst

theorem isLast_concat : IsLast (rs ++ [(q, c)]) p b ↔ p = q ∧ b = c ∨ p ≠ q ∧ IsLast rs p b := by
  constructor
  · rintro ⟨before, after, heq, hnot⟩
    rcases List.eq_nil_or_concat after with rfl | ⟨after, x, rfl⟩
    · obtain ⟨-, hlast⟩ := List.append_inj' heq rfl
      obtain ⟨rfl, rfl⟩ := Prod.mk.inj (List.singleton_inj.mp hlast)
      exact .inl ⟨rfl, rfl⟩
    · rw [List.concat_eq_append, ← List.cons_append, ← List.append_assoc] at heq
      obtain ⟨hfront, hlast⟩ := List.append_inj' heq rfl
      obtain rfl := List.singleton_inj.mp hlast
      rw [List.concat_eq_append, List.map_append, List.mem_append, not_or] at hnot
      exact .inr ⟨by simpa using hnot.2, before, after, hfront, hnot.1⟩
  · rintro (⟨rfl, rfl⟩ | ⟨hne, before, after, rfl, hnot⟩)
    · exact ⟨rs, [], rfl, by simp⟩
    · refine ⟨before, after ++ [(q, c)], by simp, ?_⟩
      rw [List.map_append, List.mem_append, not_or]
      exact ⟨hnot, by simpa using hne⟩

/-- What is read into a classical bit only once is a last reading unless its qubit is read again. -/
theorem isLast_append_cons {before after : List (Qubit × Clbit)}
    (h : ∀ y ∈ before ++ after, y.2 ≠ c) :
    IsLast (before ++ (q, c) :: after) p c ↔ p = q ∧ q ∉ after.map Prod.fst := by
  constructor
  · rintro ⟨before', after', heq, hnot⟩
    have hmem : (p, c) ∈ before ++ (q, c) :: after := heq ▸ by simp
    have hpq : p = q := by
      rcases List.mem_append.mp hmem with hm | hm
      · exact absurd rfl (h _ (List.mem_append_left _ hm))
      · rcases List.mem_cons.mp hm with hm | hm
        · exact congrArg Prod.fst hm
        · exact absurd rfl (h _ (List.mem_append_right _ hm))
    subst hpq
    have hb : (p, c) ∉ before := fun hm => h _ (List.mem_append_left _ hm) rfl
    have ha : (p, c) ∉ after := fun hm => h _ (List.mem_append_right _ hm) rfl
    obtain ⟨-, -, rfl⟩ := (List.append_cons_inj_of_notMem hb ha).mp heq
    exact ⟨rfl, hnot⟩
  · rintro ⟨rfl, hnot⟩
    exact ⟨before, after, rfl, hnot⟩

namespace Compiler

variable {map : List (Qubit × Clbit)}

theorem of_mem_noteMeasurement {x : Qubit × Clbit} (hx : x ∈ noteMeasurement q c map) :
    x = (q, c) ∨ x ∈ map := by
  induction map with
  | nil => exact .inl (List.mem_singleton.mp hx)
  | cons y map ih =>
    rw [noteMeasurement] at hx
    split at hx
    · rename_i heq
      subst heq
      simp only [List.mem_cons] at hx ⊢
      tauto
    · split at hx
      · exact List.mem_cons.mp hx
      · rcases List.mem_cons.mp hx with rfl | hx
        · exact .inr (by simp)
        · exact (ih hx).imp_right (List.mem_cons_of_mem _)

theorem pairwise_noteMeasurement (h : map.Pairwise (·.1 < ·.1)) :
    (noteMeasurement q c map).Pairwise (·.1 < ·.1) := by
  induction map with
  | nil => exact List.pairwise_singleton _ _
  | cons y map ih =>
    obtain ⟨hy, hmap⟩ := List.pairwise_cons.mp h
    rw [noteMeasurement]
    split
    · rename_i heq
      subst heq
      exact List.pairwise_cons.mpr ⟨hy, hmap⟩
    · split
      · rename_i hlt
        refine List.pairwise_cons.mpr ⟨fun x hx => ?_, h⟩
        rcases List.mem_cons.mp hx with rfl | hx
        · exact hlt
        · exact lt_trans hlt (hy x hx)
      · rename_i hne hlt
        refine List.pairwise_cons.mpr ⟨fun x hx => ?_, ih hmap⟩
        rcases of_mem_noteMeasurement hx with rfl | hx
        · exact lt_of_le_of_ne (Nat.le_of_not_lt hlt) (Ne.symm hne)
        · exact hy x hx

/-- A note takes the place of an earlier one about the same qubit. -/
theorem mem_noteMeasurement (h : map.Pairwise (·.1 < ·.1)) :
    (p, b) ∈ noteMeasurement q c map ↔ p = q ∧ b = c ∨ p ≠ q ∧ (p, b) ∈ map := by
  induction map with
  | nil => simp [noteMeasurement]
  | cons y map ih =>
    obtain ⟨k, v⟩ := y
    obtain ⟨hy, hmap⟩ := List.pairwise_cons.mp h
    have hkey (hm : (p, b) ∈ map) : k < p := hy (p, b) hm
    rw [noteMeasurement]
    split
    · rename_i heq
      subst heq
      simp only [List.mem_cons, Prod.mk.injEq]
      constructor
      · rintro (h | hm)
        · exact .inl h
        · exact .inr ⟨(hkey hm).ne', .inr hm⟩
      · rintro (h | ⟨hne, ⟨rfl, -⟩ | hm⟩)
        · exact .inl h
        · exact absurd rfl hne
        · exact .inr hm
    · rename_i hne
      split
      · rename_i hlt
        simp only [List.mem_cons, Prod.mk.injEq]
        constructor
        · rintro (h | ⟨rfl, rfl⟩ | hm)
          · exact .inl h
          · exact .inr ⟨hlt.ne', .inl ⟨rfl, rfl⟩⟩
          · exact .inr ⟨(lt_trans hlt (hkey hm)).ne', .inr hm⟩
        · rintro (h | ⟨-, h⟩)
          · exact .inl h
          · exact .inr h
      · simp only [List.mem_cons, Prod.mk.injEq, ih hmap]
        constructor
        · rintro (⟨rfl, rfl⟩ | h | ⟨hpq, hm⟩)
          · exact .inr ⟨Ne.symm hne, .inl ⟨rfl, rfl⟩⟩
          · exact .inl h
          · exact .inr ⟨hpq, .inr hm⟩
        · rintro (h | ⟨hpq, h | hm⟩)
          · exact .inr (.inl h)
          · exact .inl h
          · exact .inr (.inr ⟨hpq, hm⟩)

/-- The map of a result has the last reading of each qubit. -/
theorem mem_measurements {is : List (Instruction R)} :
    (p, b) ∈ measurements is ↔ IsLast (readings is) p b := by
  change (p, b) ∈ (readings is).foldl (fun map x => noteMeasurement x.1 x.2 map) [] ↔ _
  generalize readings is = rs
  suffices h : (rs.foldl (fun map x => noteMeasurement x.1 x.2 map) []).Pairwise (·.1 < ·.1) ∧
      ((p, b) ∈ rs.foldl (fun map x => noteMeasurement x.1 x.2 map) [] ↔ IsLast rs p b) from h.2
  -- the map stays sorted, which is how a note finds the earlier one of its qubit
  induction rs using List.reverseRecOn with
  | nil => simp [IsLast]
  | append_singleton rs x ih =>
    obtain ⟨q, c⟩ := x
    obtain ⟨hsorted, hmem⟩ := ih
    rw [List.foldl_concat]
    refine ⟨pairwise_noteMeasurement hsorted, ?_⟩
    rw [mem_noteMeasurement hsorted, hmem, isLast_concat]

end Compiler

end Last

/-! ## Readings of graphs -/

namespace Dag

/-- The readings of a graph, in the order in which it is read. -/
def readout (d : Dag R) : List (Qubit × Clbit) :=
  match d.linearize with
  | .ok is => readings is
  | .error _ => []

variable [Scalar R] {d e f : Dag R} {es : Entries R} {id : Nat} {j : Instruction R}

omit [Scalar R] in
theorem mem_qubitsUsed {q : Qubit} :
    q ∈ d.qubitsUsed ↔ q < d.numQubits ∧ ∃ id i, d.instruction? id = some i ∧ q ∈ i.qubits := by
  simp only [qubitsUsed, List.mem_filter, List.mem_range, List.contains_eq_mem, decide_eq_true_eq,
    List.mem_flatMap, Prod.exists, mem_instructions]

/-- The qubits that are used are the operands of what is read. -/
theorem Reads.mem_qubitsUsed (h : d.Reads es) {q : Qubit} :
    q ∈ d.qubitsUsed ↔ ∃ i ∈ es.map (·.2), q ∈ i.qubits := by
  rw [Dag.mem_qubitsUsed]
  constructor
  · rintro ⟨-, id, i, hi, hq⟩
    exact ⟨i, List.mem_map_of_mem (f := (·.2)) (h.mem_iff.mpr hi), hq⟩
  · rintro ⟨i, hi, hq⟩
    obtain ⟨⟨id, i⟩, hx, rfl⟩ := List.mem_map.mp hi
    exact ⟨(h.fits hx).qubits q hq, id, i, h.mem_iff.mp hx, hq⟩

theorem Reads.readout_eq (h : d.Reads es) : d.readout = readings (es.map (·.2)) := by
  rw [readout, h.linearize_eq]

/-- A graph with the same readings, whose measurements are where they were. -/
structure KeepsReadout (d e : Dag R) : Prop where
  reachable : e.Reachable
  readout : e.readout = d.readout
  measures : ∀ k i, e.instruction? k = some i → i.isMeasure = true → d.instruction? k = some i

theorem KeepsReadout.refl (h : d.Reachable) : KeepsReadout d d := ⟨h, rfl, fun _ _ hi _ => hi⟩

theorem KeepsReadout.trans (h : KeepsReadout d e) (g : KeepsReadout e f) : KeepsReadout d f :=
  ⟨g.reachable, g.readout.trans h.readout,
    fun k i hi hm => h.measures k i (g.measures k i hi hm) hm⟩

theorem KeepsReadout.setPhase (h : KeepsReadout d e) (phase : R) :
    KeepsReadout d (e.setPhase phase) := by
  obtain ⟨es, hr⟩ := h.reachable.exists_reads
  have hsame : (e.setPhase phase).readout = e.readout :=
    (hr.withPhase _).readout_eq.trans hr.readout_eq.symm
  exact ⟨h.reachable.phase _, hsame.trans h.readout, h.measures⟩

/-- No measurement is at the node. -/
def QuietAt (d : Dag R) (id : Nat) : Prop := ∀ i, d.instruction? id = some i → i.isMeasure = false

omit [Scalar R] in
theorem quietAt_of_isGate {i : Instruction R} (hi : d.instruction? id = some i)
    (hg : i.isGate = true) : d.QuietAt id := by
  intro k hk
  obtain rfl := Option.some.inj (hi.symm.trans hk)
  exact Instruction.isMeasure_of_isGate hg

theorem QuietAt.keeps (hq : d.QuietAt id) (h : KeepsReadout d e) : e.QuietAt id := by
  intro i hi
  by_contra hm
  rw [Bool.not_eq_false] at hm
  exact absurd (hq i (h.measures id i hi hm)) (by simp [hm])

omit [Scalar R] in
/-- Leaving out what reads nothing leaves the readings. -/
theorem flatMap_readings_filter {pick : Nat × Instruction R → Bool}
    (h : ∀ x ∈ es, pick x = false → x.2.readings = []) :
    (es.filter pick).flatMap (·.2.readings) = es.flatMap (·.2.readings) := by
  induction es with
  | nil => rfl
  | cons x es ih =>
    have hrest := ih fun y hy => h y (by simp [hy])
    rw [List.flatMap_cons]
    cases hp : pick x with
    | true => rw [List.filter_cons_of_pos hp, List.flatMap_cons, hrest]
    | false => rw [List.filter_cons_of_neg (by simp [hp]), hrest, h x (by simp) hp, List.nil_append]

theorem keepsReadout_replace (h : d.Reachable) (hq : d.QuietAt id) (hj : j.isMeasure = false)
    (hc : j.clbits.Nodup) (he : d.replace id j = .ok e) : KeepsReadout d e := by
  obtain ⟨es, hr⟩ := h.exists_reads
  obtain ⟨⟨_, e'⟩, hedit, rfl⟩ := Outcome.map_eq_ok.mp he
  have hcall : d.edit (Call.replace id j).edit = (.ok [], e') := by
    rw [Call.edit, bind_pure_comp, edit_map, edited_eq_ok.mp hedit]
    rfl
  obtain ⟨hr', -⟩ := hr.of_call (Call.clbitsDistinct_replace.mpr hc) hcall
  refine ⟨hr'.reachable, ?_, fun k i hi hm => ?_⟩
  · rw [hr'.readout_eq, hr.readout_eq, Call.onList, readings, readings, List.flatMap_map,
      List.flatMap_map, List.flatMap_map]
    refine List.flatMap_congr fun x hx => ?_
    split
    · rename_i hid
      rw [Instruction.readings_of_isMeasure_eq_false hj, Instruction.readings_of_isMeasure_eq_false
        (hq x.2 (hid ▸ hr.mem_iff.mp hx))]
    · rfl
  · obtain ⟨x, hx, hxk⟩ := List.mem_map.mp (hr'.mem_iff.mpr hi)
    split at hxk
    · obtain ⟨-, rfl⟩ := Prod.mk.inj hxk
      simp [hj] at hm
    · exact hr.mem_iff.mp (hxk ▸ hx)

theorem keepsReadout_remove (h : d.Reachable) (hq : d.QuietAt id)
    (he : d.remove id = .ok (j, e)) : KeepsReadout d e := by
  obtain ⟨es, hr⟩ := h.exists_reads
  have hcall : d.edit (Call.remove id).edit = (.ok [], e) := by
    rw [Call.edit, bind_pure_comp, edit_map, edited_eq_ok.mp he]
    rfl
  obtain ⟨hr', -⟩ := hr.of_call (by simp [Call.ClbitsDistinct, Call.instructions]) hcall
  refine ⟨hr'.reachable, ?_, fun k i hi hm => ?_⟩
  · rw [hr'.readout_eq, hr.readout_eq, Call.onList, readings, readings, List.flatMap_map,
      List.flatMap_map]
    refine flatMap_readings_filter fun x hx hp => ?_
    have hid : x.1 = id := by simpa using hp
    exact Instruction.readings_of_isMeasure_eq_false (hq x.2 (hid ▸ hr.mem_iff.mp hx))
  · exact hr.mem_iff.mp (List.mem_of_mem_filter (hr'.mem_iff.mpr hi))

end Dag

end QuantumCompiler
