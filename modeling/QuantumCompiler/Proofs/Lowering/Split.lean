import QuantumCompiler.Proofs.Lowering.Parts

/-!
# Splitting wide operations in place

After splitting, every gate is on one or two qubits and every measurement on one, and whatever was not
wide is where it was. Splitting fails at an operation that has no decomposition, at an angle that is not
a number, at a matrix that misses its tolerance, and in two more ways that only gates with many controls
meet: a ladder counts the sets of its controls in a word, and a list of parts can be longer than there
are positions under one.
-/
namespace QuantumCompiler

/-- A gate split by a ladder with no limit of its own on how many controls there are. -/
def StandardGate.hasFreeLadder {R : Type} : StandardGate R → Bool
  | mcx _ | mcry .. => true
  | _ => false

variable {R : Type} [Scalar R] {n m : Nat} {i : Instruction R} {l : List (Instruction R)}

namespace Wide

open Instruction

/-- Why a wide operation cannot be split. Every cause names the operation. -/
inductive Unsplittable (i : Instruction R) : CompileError R → Prop
  | unsupported (reason : Unsupported) : Unsplittable i (.unsupportedGate i.name reason)
  | unbound {g : StandardGate R} {θ : Angle R} (hg : i.standard? = some g) (hθ : θ ∈ g.angles)
    (hv : θ.value? = none) : Unsplittable i (.unboundParameter i.name θ)
  | missed (error tolerance : R) : Unsplittable i (.decompositionTolerance i.name error tolerance)
  /-- As many controls as a word has bits; the last operand is the target. -/
  | overflow {g : StandardGate R} (hg : i.standard? = some g) (hfree : g.hasFreeLadder = true)
    (hmany : Ladder.wordBits < i.qubits.length) : Unsplittable i (.ladderOverflow (i.qubits.length - 1))

omit [Scalar R] in
/-- The matrix of an accepted gate has the size that its gate needs. -/
theorem length_matrix_of_checkArity {g : CustomGate R} {label : Option String}
    {matrix : List (Cx R)} (hg : i.operation = .gate ⟨.custom g, label⟩)
    (hm : g.matrix = some matrix) (ha : i.checkArity = .ok ()) :
    matrix.length = 4 ^ i.qubits.length := by
  obtain ⟨name, k, params, matrix'⟩ := g
  obtain rfl : matrix' = some matrix := hm
  simp only [checkArity, hg] at ha
  split at ha
  · cases ha
  · rename_i hk
    have hk : k = min i.qubits.length maxIndex := not_not.mp hk
    obtain ⟨hlt, hlen⟩ := CustomGate.checkMatrix_eq_ok.mp ha
    rw [maxIndex] at hk
    rwa [show i.qubits.length = k by omega]

theorem error_of_mcx {controls : List Qubit} {target : Qubit} {x : CompileError R}
    (h : (mcx controls target : Compile R _) = .error x) :
    Ladder.wordBits ≤ controls.length ∧ x = .ladderOverflow controls.length := by
  unfold mcx at h
  split at h
  · cases h
  · cases h
  · cases h
  · rcases Outcome.bind_eq_error.mp h with h | ⟨_, -, h⟩
    · exact ladder_eq_error.mp h
    · cases h

theorem error_of_mcry {θ : Angle R} {controls : List Qubit} {target : Qubit} {x : CompileError R}
    (h : mcry θ controls target = .error x) :
    Ladder.wordBits ≤ controls.length ∧ x = .ladderOverflow controls.length := by
  unfold mcry at h
  split at h
  · cases h
  · cases h
  · exact ladder_eq_error.mp h

theorem error_of_mcu {θ φ ψ : Angle R} {controls : List Qubit} {target : Qubit}
    {x : CompileError R} (h : mcu θ φ ψ controls target = .error x) :
    (maxControls < controls.length ∧ x = .unsupportedGate "mcu" (.tooManyControls controls.length)) ∨
    ∃ ω ∈ [θ, φ, ψ], ω.value? = none ∧ x = .unboundParameter "mcu" ω := by
  have hnumber {ω : Angle R} (hω : ω ∈ [θ, φ, ψ]) (h : number "mcu" ω = .error x) :
      ∃ ω ∈ [θ, φ, ψ], ω.value? = none ∧ x = .unboundParameter "mcu" ω := by
    unfold number at h
    split at h
    · cases h
    · exact ⟨ω, hω, by assumption, (Except.error.inj h).symm⟩
  unfold mcu at h
  split at h
  · cases h
  · rcases Outcome.bind_eq_error.mp h with h | ⟨a, -, h⟩
    · exact .inr (hnumber (by simp) h)
    rcases Outcome.bind_eq_error.mp h with h | ⟨b, -, h⟩
    · exact .inr (hnumber (by simp) h)
    rcases Outcome.bind_eq_error.mp h with h | ⟨c, -, h⟩
    · exact .inr (hnumber (by simp) h)
    split at h
    · exact .inl ⟨by assumption, (Except.error.inj h).symm⟩
    · -- roots lose their precision before the ladder overflows
      rename_i hle
      have hmany := (ladder_eq_error.mp h).1
      rw [maxControls] at hle
      rw [Ladder.wordBits] at hmany
      omega

omit [Scalar R] in
theorem error_of_withTarget {name : String} {qs : List Qubit}
    {f : List Qubit → Qubit → Compile R (List (Instruction R))} {x : CompileError R}
    (h : withTarget name qs f = .error x) :
    (qs = [] ∧ x = .malformedCircuit (.noTarget name)) ∨ ∃ target, f qs.dropLast target = .error x := by
  unfold withTarget at h
  split at h
  · exact .inr ⟨_, h⟩
  · exact .inl ⟨List.getLast?_eq_none_iff.mp (by assumption), (Except.error.inj h).symm⟩

/-- With as many controls as a word has bits, a bit flip or a rotation is never split. -/
theorem split_of_hasFreeLadder {g : StandardGate R} (hg : i.standard? = some g)
    (hfree : g.hasFreeLadder = true) (hmany : Ladder.wordBits < i.qubits.length) :
    split i = .error (.ladderOverflow (i.qubits.length - 1)) := by
  have hne : i.qubits ≠ [] := List.ne_nil_of_length_pos (Nat.zero_lt_of_lt hmany)
  have hq : i.qubits = i.qubits.dropLast ++ [i.qubits.getLast hne] :=
    (List.dropLast_append_getLast hne).symm
  have hlen : i.qubits.dropLast.length = i.qubits.length - 1 := List.length_dropLast
  have hladder (turn : Bool → Qubit → Instruction R) :
      ladder i.qubits.dropLast turn = .error (.ladderOverflow (i.qubits.length - 1)) :=
    ladder_eq_error.mpr ⟨by omega, by rw [hlen]⟩
  generalize i.qubits.dropLast = controls at hq hlen hladder
  rw [Ladder.wordBits] at hmany
  cases g with
  | mcx n =>
    rcases controls with _ | ⟨a, _ | ⟨b, _ | ⟨c, rest⟩⟩⟩
    all_goals try (simp at hlen; omega)
    rw [split_of_mcx hg hq, mcx, mcphase, hladder]
    · rfl
    all_goals simp
  | mcry n θ =>
    rcases controls with _ | ⟨a, _ | ⟨b, rest⟩⟩
    all_goals try (simp at hlen; omega)
    rw [split_of_mcry hg hq, mcry, hladder]
    all_goals simp
  | _ => cases hfree

/-- Why the application of a gate is not split, with what is known of the gate where that comes up. -/
inductive Unsplit (i : Instruction R) (g : Gate R) : CompileError R → Prop
  | missingOperand (hkind : g.kind = .standard .ccx ∨ g.kind = .standard .cswap)
    (hfew : i.qubits.length ≤ 2) : Unsplit i g (.internal (.missingOperand g.name))
  | noTarget {gate : StandardGate R} (hkind : g.kind = .standard gate) (hsplit : gate.isSplit = true)
    (hnone : i.qubits = []) : Unsplit i g (.malformedCircuit (.noTarget g.name))
  | unbound {k : Nat} {θ φ ψ ω : Angle R} (hkind : g.kind = .standard (.mcu k θ φ ψ))
    (hω : ω ∈ [θ, φ, ψ]) (hv : ω.value? = none) : Unsplit i g (.unboundParameter g.name ω)
  | tooManyControls {k : Nat} {θ φ ψ : Angle R} (hkind : g.kind = .standard (.mcu k θ φ ψ))
    (hmany : maxControls + 1 < i.qubits.length) (controls : Nat) :
    Unsplit i g (.unsupportedGate g.name (.tooManyControls controls))
  | overflow {gate : StandardGate R} (hkind : g.kind = .standard gate)
    (hfree : gate.hasFreeLadder = true) (hmany : Ladder.wordBits < i.qubits.length) :
    Unsplit i g (.ladderOverflow (i.qubits.length - 1))
  | noSplit (hkind : ∀ gate, g.kind = .standard gate → gate.isSplit = false) :
    Unsplit i g (.unsupportedGate g.name (.noSplit i.qubits.length))
  | noMatrix {c : CustomGate R} (hkind : g.kind = .custom c) :
    Unsplit i g (.unsupportedGate g.name (.noWideMatrix i.qubits.length))
  | undecomposed {c : CustomGate R} {matrix : List (Cx R)} {x : CompileError R}
    (hkind : g.kind = .custom c) (hm : c.matrix = some matrix)
    (h : Shannon.decompose g.name matrix i.qubits.length = .error x) : Unsplit i g x

omit [Scalar R] in
theorem length_le_two {qs : List Qubit} (h : ∀ a b c rest, qs = a :: b :: c :: rest → False) :
    qs.length ≤ 2 := by
  match qs with
  | a :: b :: c :: rest => exact (h a b c rest rfl).elim
  | [] | [_] | [_, _] => simp

theorem unsplit_of_splitGate {g : Gate R} {x : CompileError R} (h : splitGate i g = .error x) :
    Unsplit i g x := by
  obtain ⟨kind, label⟩ := g
  have hoverflow {gate : StandardGate R} (hkind : kind = .standard gate)
      (hfree : gate.hasFreeLadder = true)
      (hmany : Ladder.wordBits ≤ i.qubits.dropLast.length ∧
        x = .ladderOverflow i.qubits.dropLast.length) : Unsplit i ⟨kind, label⟩ x := by
    obtain ⟨hmany, rfl⟩ := hmany
    rw [List.length_dropLast] at hmany ⊢
    refine .overflow hkind hfree ?_
    rw [Ladder.wordBits] at hmany ⊢
    omega
  -- one case for each way to split, in their order
  unfold splitGate at h
  split at h
  · cases h
  · cases h
  · rename_i hkind hfew
    exact Except.error.inj h ▸ .missingOperand (.inl hkind) (length_le_two hfew)
  · rename_i hkind hfew
    exact Except.error.inj h ▸ .missingOperand (.inr hkind) (length_le_two hfew)
  · rename_i hkind
    obtain rfl : kind = _ := hkind
    rcases error_of_withTarget h with ⟨hnone, rfl⟩ | ⟨target, h⟩
    · exact .noTarget rfl rfl hnone
    · exact hoverflow rfl rfl (error_of_mcx h)
  · rename_i hkind
    obtain rfl : kind = _ := hkind
    rcases error_of_withTarget h with ⟨hnone, rfl⟩ | ⟨target, h⟩
    · exact .noTarget rfl rfl hnone
    · exact hoverflow rfl rfl (error_of_mcry h)
  · rename_i hkind
    obtain rfl : kind = _ := hkind
    rcases error_of_withTarget h with ⟨hnone, rfl⟩ | ⟨target, h⟩
    · exact .noTarget rfl rfl hnone
    · rcases error_of_mcu h with ⟨hmany, rfl⟩ | ⟨ω, hω, hv, rfl⟩
      · rw [List.length_dropLast] at hmany
        exact .tooManyControls rfl (by omega) _
      · exact .unbound rfl hω hv
  · rename_i c _ _ _ _ hkind hq
    obtain rfl : kind = .custom c := hkind
    rw [← hq] at h
    split at h
    · rename_i matrix hm
      rcases Outcome.bind_eq_error.mp h with h | ⟨steps, -, h⟩
      · exact .undecomposed rfl hm h
      · cases h
    · exact Except.error.inj h ▸ .noMatrix rfl
  · rename_i gate hccx hcswap hmcx hmcry hmcu hkind _ _
    obtain rfl : kind = .standard gate := hkind
    split at h
    · cases h
    · refine Except.error.inj h ▸ .noSplit ?_
      rintro _ ⟨⟩
      exact gate.isSplit_eq_false hccx hcswap hmcx hmcry hmcu
  · rename_i c hkind _
    obtain rfl : kind = .custom c := hkind
    refine Except.error.inj h ▸ .noSplit ?_
    rintro _ ⟨⟩

/-- An accepted matrix is taken apart, or there is a reason. -/
theorem unsplittable_of_decompose {c : CustomGate R} {label : Option String} {matrix : List (Cx R)}
    (hg : i.operation = .gate ⟨.custom c, label⟩) (hm : c.matrix = some matrix)
    (ha : i.checkArity = .ok ()) {x : CompileError R}
    (h : Shannon.decompose c.name matrix i.qubits.length = .error x) : Unsplittable i x := by
  have hname : i.name = c.name := by
    rw [Instruction.name, hg]
    rfl
  rcases Shannon.error_of_decompose h with rfl | ⟨hlen, rfl⟩ | ⟨e, t, rfl⟩
  · exact hname ▸ .unsupported _
  · exact absurd (length_matrix_of_checkArity hg hm ha) hlen
  · exact hname ▸ .missed e t

/-- An accepted gate on three or more qubits is split, or there is a reason. -/
theorem unsplittable_of_splitGate {g : Gate R} (hg : i.operation = .gate g)
    (ha : i.checkArity = .ok ()) (hw : 2 < i.qubits.length) {x : CompileError R}
    (h : splitGate i g = .error x) : Unsplittable i x := by
  have hname : g.name = i.name := by rw [Instruction.name, hg]
  obtain ⟨kind, label⟩ := g
  cases unsplit_of_splitGate h with
  | missingOperand _ hfew => omega
  | noTarget _ _ hnone => simp [hnone] at hw
  | unbound hkind hω hv =>
    rw [hname]
    exact .unbound ((standard?_eq_some (gate?_eq_some.mpr hg)).mpr hkind) hω hv
  | tooManyControls _ _ controls =>
    rw [hname]
    exact .unsupported _
  | overflow hkind hfree hmany =>
    exact .overflow ((standard?_eq_some (gate?_eq_some.mpr hg)).mpr hkind) hfree hmany
  | noSplit =>
    rw [hname]
    exact .unsupported _
  | noMatrix =>
    rw [hname]
    exact .unsupported _
  | @undecomposed c matrix x hkind hm h =>
    obtain rfl : kind = .custom c := hkind
    exact unsplittable_of_decompose hg hm ha h

/-- A wide operation is split, or there is a reason. -/
theorem unsplittable_of_split (hv : i.validate n m = .ok ()) (hw : isWide i = true)
    {x : CompileError R} (h : split i = .error x) : Unsplittable i x := by
  have ha := (validate_eq_ok.mp hv).1
  cases ho : i.operation with
  | gate g =>
    rw [split, ho] at h
    exact unsplittable_of_splitGate ho ha (by simpa [isWide, ho] using hw) h
  | measure => simp [split, ho] at h
  | reset => simp [split, ho] at h
  | barrier => simp [split, ho] at h
  | delay duration => simp [split, ho] at h

/-- Operations on as many operands are never split into more parts than can be numbered. -/
def maxOperands : Nat := 15

theorem length_split_le_maxIndex (hw : isWide i = true) (hle : i.qubits.length ≤ maxOperands)
    (h : split i = .ok l) : l.length ≤ maxIndex := by
  cases ho : i.operation with
  | gate g =>
    rw [split, ho] at h
    calc l.length
        ≤ 4 ^ i.qubits.length := (length_splitGate_le h).trans (maxParts_le _)
      _ ≤ 4 ^ maxOperands := Nat.pow_le_pow_right (by omega) hle
      _ ≤ maxIndex := by decide
  | measure =>
    rw [split, ho] at h
    obtain rfl := Except.ok.inj h
    calc (List.zipWith .measure i.qubits i.clbits : List (Instruction R)).length
        ≤ i.qubits.length := (List.length_zipWith ..).trans_le (min_le_left _ _)
      _ ≤ maxOperands := hle
      _ ≤ maxIndex := by decide
  | reset => simp [isWide, ho] at hw
  | barrier => simp [isWide, ho] at hw
  | delay duration => simp [isWide, ho] at hw

/-- A gate on at most two qubits, or a measurement of one qubit into one classical bit, or an operation
that is neither. -/
def Single (j : Instruction R) : Prop :=
  (j.isGate = true → j.qubits.length ≤ 2) ∧
    (j.isMeasure = true → j.qubits.length = 1 ∧ j.clbits.length = 1)

omit [Scalar R] in
theorem single_of_not_isWide (hv : i.validate n m = .ok ()) (hw : isWide i = false) : Single i := by
  have ha := (validate_eq_ok.mp hv).1
  cases ho : i.operation with
  | gate g => simpa [Single, isGate, gate?, isMeasure, isWide, ho] using hw
  | measure =>
    have hle : i.qubits.length ≤ 1 := by simpa [isWide, ho] using hw
    simp only [checkArity, ho] at ha
    split at ha
    · cases ha
    · rename_i hpair
      push Not at hpair
      have hpos := List.length_pos_of_ne_nil hpair.2
      exact ⟨by simp [isGate, gate?, ho], fun _ => by omega⟩
  | reset => simp [Single, isGate, gate?, isMeasure, ho]
  | barrier => simp [Single, isGate, gate?, isMeasure, ho]
  | delay duration => simp [Single, isGate, gate?, isMeasure, ho]

theorem single_of_split (hd : i.qubits.Nodup) (hw : isWide i = true) (h : split i = .ok l) :
    ∀ j ∈ l, Single j := by
  intro j hj
  rcases narrow_or_measure_of_split hd hw h j hj with hn | ⟨q, -, c, -, rfl⟩
  · have hm := isMeasure_of_isGate hn.gate
    exact ⟨fun _ => hn.le, fun h => by simp [hm] at h⟩
  · exact ⟨nofun, fun _ => ⟨rfl, rfl⟩⟩

/-- What a wide operation is split into; itself, if that fails. -/
def pieces (i : Instruction R) : List (Instruction R) := (Dag.lowering parts i).instructions

theorem split_of_parts {lowered : Lowered R} (h : parts i = .ok lowered) :
    split i = .ok lowered.instructions := by
  obtain ⟨l, hl, h⟩ := Outcome.bind_eq_ok.mp h
  rw [hl, ← Except.ok.inj h]
  rfl

theorem parts_eq_error {x : CompileError R} (h : parts i = .error x) : split i = .error x := by
  rcases Outcome.bind_eq_error.mp h with h | ⟨l, -, h⟩
  · exact h
  · cases h

theorem splitAll_eq (d : Dag R) : splitAll d = d.lowerWhere isWide parts >>= fun s => .ok s.1 := rfl

/-- Splitting a graph fails at a wide operation that cannot be split or has too many parts. -/
theorem refused_of_splitAll {d : Dag R} {es : Dag.Entries R} (h : d.Reads es) {x : CompileError R}
    (hx : splitAll d = .error x) : ∃ y ∈ es, isWide y.2 = true ∧
      (split y.2 = .error x ∨
        ∃ l, split y.2 = .ok l ∧ maxOperands < y.2.qubits.length ∧ maxIndex < l.length ∧
          x = .ofCircuit (.invalidStructure (.tooManyParts l.length))) := by
  rw [splitAll_eq] at hx
  rcases h.lowerWhere (replaces_of_isWide h) with
    ⟨e, es', he, -⟩ | ⟨x', hx', y, hy, hw, hrefuse⟩
  · rw [he] at hx
    cases hx
  · rw [hx'] at hx
    obtain rfl := Except.error.inj hx
    refine ⟨y, hy, hw, ?_⟩
    rcases hrefuse with hfail | ⟨l, hl, hlong, rfl⟩
    · exact .inl (parts_eq_error hfail)
    · have hs := split_of_parts hl
      refine .inr ⟨_, hs, Nat.lt_of_not_le fun hle => ?_, hlong, rfl⟩
      exact absurd (length_split_le_maxIndex hw hle hs) (Nat.not_le.mpr hlong)

/-- Splitting replaces every wide operation in place by its pieces and leaves everything else alone. The
pieces are accepted and stay on the wires of their source; nothing wide is left. It fails only at a wide
operation that cannot be split, for one of the reasons that there are, or that has more than
`maxOperands` operands and more pieces than there are positions under one. -/
theorem splits_of_splitAll {d : Dag R} (h : d.Reachable) :
    ∃ is, d.linearize = .ok is ∧
      (∀ e, splitAll d = .ok e → e.Reachable ∧ Dag.SameFrame d e ∧
        e.linearize = .ok (is.flatMap fun i => if isWide i then pieces i else [i]) ∧
        (∀ i ∈ is, isWide i = true → split i = .ok (pieces i) ∧
          ∀ j ∈ pieces i, j.validate d.numQubits d.numClbits = .ok () ∧
            ∀ w ∈ j.wires, w ∈ i.wires) ∧
        ∀ j ∈ is.flatMap (fun i => if isWide i then pieces i else [i]), Single j) ∧
      ∀ x, splitAll d = .error x → ∃ i ∈ is, isWide i = true ∧
        (split i = .error x ∧ Unsplittable i x ∨
          ∃ l, split i = .ok l ∧ maxOperands < i.qubits.length ∧ maxIndex < l.length ∧
            x = .ofCircuit (.invalidStructure (.tooManyParts l.length))) := by
  obtain ⟨es, hr⟩ := h.exists_reads
  have hvalid : ∀ i ∈ es.map (·.2), i.validate d.numQubits d.numClbits = .ok () := by
    intro i hi
    obtain ⟨x, hx, rfl⟩ := List.mem_map.mp hi
    exact hr.valid x hx
  refine ⟨es.map (·.2), hr.linearize_eq, fun e he => ?_, fun x hx => ?_⟩
  · obtain ⟨es', hre, hes, hframe, hall⟩ := reads_splitAll hr he
    have hpieces : ∀ i ∈ es.map (·.2), isWide i = true → split i = .ok (pieces i) ∧
        ∀ j ∈ pieces i, Dag.Replaces d.numQubits d.numClbits i j := by
      intro i hi hw
      obtain ⟨x, hx, rfl⟩ := List.mem_map.mp hi
      have hl := (hall x hx hw).eq
      exact ⟨split_of_parts hl, replaces_of_parts hr hx hw hl⟩
    refine ⟨hre.reachable, hframe, hre.linearize_eq.trans (congrArg Except.ok hes),
      fun i hi hw => ?_, fun j hj => ?_⟩
    · obtain ⟨hs, hj⟩ := hpieces i hi hw
      exact ⟨hs, fun j hmem => ⟨(hj j hmem).validate, (hj j hmem).wires⟩⟩
    · have hlist : j ∈ Dag.lowerList isWide parts (es.map (·.2)) := hj
      rcases Dag.mem_lowerList hlist with ⟨hj, hw⟩ | ⟨i, hi, hw, hj⟩
      · exact single_of_not_isWide (hvalid j hj) hw
      · exact single_of_split (fits_of_validate (hvalid i hi)).distinct hw (hpieces i hi hw).1 j hj
  · obtain ⟨y, hy, hw, hfail | hlong⟩ := refused_of_splitAll hr hx
    · exact ⟨y.2, List.mem_map_of_mem hy, hw,
        .inl ⟨hfail, unsplittable_of_split (hr.valid y hy) hw hfail⟩⟩
    · exact ⟨y.2, List.mem_map_of_mem hy, hw, .inr hlong⟩

/-- A gate with two controls, a measurement of two of its qubits and a barrier over all. -/
def wideInstructions : List (Instruction Float) :=
  [.ofStandard .ccx [2, 0, 1], ⟨.measure, [1, 2], [0, 1]⟩, .barrier [0, 1, 2]]

/-- The gate becomes its network and the measurement one for each qubit; the barrier stays. -/
theorem splits_wideInstructions : ∃ d e, Dag.ofInstructions 3 2 wideInstructions = .ok d ∧
    d.Reachable ∧ splitAll d = .ok e ∧
    e.linearize = .ok (ccx 2 0 1 ++ [.measure 1 0, .measure 2 1, .barrier [0, 1, 2]]) := by
  obtain ⟨d, es, hd, hr, hes, -⟩ := Dag.exists_reads_ofInstructions 3 2 wideInstructions
    (by simp only [wideInstructions, List.forall_mem_cons]; exact ⟨rfl, rfl, rfl, nofun⟩)
    (by decide)
  obtain ⟨is, his, hok, herror⟩ := splits_of_splitAll hr.reachable
  obtain rfl : wideInstructions = is := Except.ok.inj (hes ▸ hr.linearize_eq.symm.trans his)
  cases he : splitAll d with
  | ok e => exact ⟨d, e, hd, hr.reachable, he, (hok e he).2.2.1⟩
  | error x =>
    obtain ⟨i, hi, -, hfail⟩ := herror x he
    have hsplit : ∃ l, split i = .ok l ∧ i.qubits.length ≤ maxOperands := by
      simp only [wideInstructions, List.mem_cons, List.not_mem_nil, or_false] at hi
      rcases hi with rfl | rfl | rfl <;> exact ⟨_, rfl, by decide⟩
    obtain ⟨l, hl, hle⟩ := hsplit
    rcases hfail with ⟨hx, -⟩ | ⟨-, -, hlt, -⟩
    · cases hl.symm.trans hx
    · exact absurd hle (Nat.not_le.mpr hlt)

/-- A gate that can be split is refused, since its parts have no positions. -/
theorem unsplit_manyControls : ∃ d l, Dag.ofInstructions 33 0 [manyControls] = .ok d ∧ d.Reachable ∧
    split manyControls = .ok l ∧
    splitAll d = .error (.ofCircuit (.invalidStructure (.tooManyParts 8589934591))) := by
  obtain ⟨l, hl, hlen, -⟩ := exists_split_manyControls
  obtain ⟨d, id, hd, hr⟩ := exists_reads_manyControls
  refine ⟨d, l, hd, hr.reachable, hl, ?_⟩
  cases he : splitAll d with
  | ok e =>
    obtain ⟨-, -, -, -, hall⟩ := reads_splitAll hr he
    obtain ⟨hparts, hshort⟩ := hall _ (List.mem_singleton_self _) rfl
    rw [← Except.ok.inj (hl.symm.trans (split_of_parts hparts)), hlen] at hshort
    exact absurd hshort (by decide)
  | error x =>
    obtain ⟨y, hy, -, hrefused⟩ := refused_of_splitAll hr he
    obtain rfl := List.mem_singleton.mp hy
    rcases hrefused with hfail | ⟨l', hl', -, -, rfl⟩
    · cases hl.symm.trans hfail
    · rw [← Except.ok.inj (hl.symm.trans hl'), hlen]

end Wide

end QuantumCompiler
