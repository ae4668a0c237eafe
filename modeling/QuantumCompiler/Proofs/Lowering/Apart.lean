import QuantumCompiler.Lowering.Native
import QuantumCompiler.Proofs.Lowering.Wide

/-!
# Pieces of a gate that is taken apart

Rules, synthesizers and splitting emit gates on the operands of the gate they take apart, whichever
numbers come up. What a rule puts has a lower rank than its gate. `Taken` lists the ways to take a gate
apart.
-/
namespace QuantumCompiler

variable {R : Type} [Scalar R]

/-! ## One-qubit synthesis -/

namespace EulerFamily

open OneQubitSequence

section Gates

variable {P : StandardGate R → Prop} {s : OneQubitSequence R}

theorem forall_rotate (h : ∀ g ∈ s.gates, P g) {make : Angle R → StandardGate R}
    (hm : ∀ v, P (make (.const v))) (tolerance angle : R) :
    ∀ g ∈ (rotate tolerance s make angle).gates, P g := by
  intro g hg
  simp only [rotate] at hg
  split at hg
  · rcases List.mem_append.mp hg with hg | hg
    · exact h g hg
    · exact List.mem_singleton.mp hg ▸ hm _
  · exact h g hg

omit [Scalar R] in
theorem forall_fixed (h : ∀ g ∈ s.gates, P g) {g' : StandardGate R} (hg' : P g') :
    ∀ g ∈ (s.fixed g').gates, P g := by
  intro g hg
  rcases List.mem_append.mp hg with hg | hg
  · exact h g hg
  · exact List.mem_singleton.mp hg ▸ hg'

end Gates

/-- A one-qubit gate of a family. -/
def Emits (family : EulerFamily) (g : StandardGate R) : Prop :=
  g.numQubits = 1 ∧ g.name ∈ family.gateNames

/-- A one-qubit gate of a family, with numbers for angles. -/
def EmitsNumeric (family : EulerFamily) (g : StandardGate R) : Prop :=
  family.Emits g ∧ g.isParameterized = false

/-- A family emits its own one-qubit gates only, with numbers for angles. -/
theorem emits_sequence (family : EulerFamily) (u : Mat2 R) (tolerance : R) :
    ∀ g ∈ (family.sequence u tolerance).gates, family.EmitsNumeric g := by
  have hnil (phase : R) : ∀ g ∈ (⟨[], phase⟩ : OneQubitSequence R).gates,
      family.EmitsNumeric g := by
    simp
  cases family with
  | zyz =>
    have hz (v : R) : zyz.EmitsNumeric (.rz (.const v)) := ⟨⟨rfl, .head _⟩, rfl⟩
    have hy (v : R) : zyz.EmitsNumeric (.ry (.const v)) := ⟨⟨rfl, .tail _ (.head _)⟩, rfl⟩
    simp only [sequence]
    split
    · exact forall_rotate (hnil _) hz _ _
    · exact forall_rotate (forall_rotate (forall_rotate (hnil _) hz _ _) hy _ _) hz _ _
  | zxz =>
    have hz (v : R) : zxz.EmitsNumeric (.rz (.const v)) := ⟨⟨rfl, .head _⟩, rfl⟩
    have hx (v : R) : zxz.EmitsNumeric (.rx (.const v)) := ⟨⟨rfl, .tail _ (.head _)⟩, rfl⟩
    simp only [sequence]
    split
    · exact forall_rotate (hnil _) hz _ _
    · exact forall_rotate (forall_rotate (forall_rotate (hnil _) hz _ _) hx _ _) hz _ _
  | xyx =>
    have hx (v : R) : xyx.EmitsNumeric (.rx (.const v)) := ⟨⟨rfl, .head _⟩, rfl⟩
    have hy (v : R) : xyx.EmitsNumeric (.ry (.const v)) := ⟨⟨rfl, .tail _ (.head _)⟩, rfl⟩
    simp only [sequence]
    split
    · exact forall_rotate (hnil _) hx _ _
    · exact forall_rotate (forall_rotate (forall_rotate (hnil _) hx _ _) hy _ _) hx _ _
  | u3 =>
    intro g hg
    simp only [sequence, finish] at hg
    split at hg
    · cases hg
    · exact List.mem_singleton.mp hg ▸ ⟨⟨rfl, .head _⟩, rfl⟩
  | zsx =>
    have hz (v : R) : zsx.EmitsNumeric (.rz (.const v)) := ⟨⟨rfl, .head _⟩, rfl⟩
    have hsx : zsx.EmitsNumeric (.sx : StandardGate R) := ⟨⟨rfl, .tail _ (.head _)⟩, rfl⟩
    simp only [sequence]
    split
    · exact forall_rotate (hnil _) hz _ _
    · exact forall_rotate (forall_fixed (forall_rotate (forall_fixed
        (forall_rotate (hnil _) hz _ _) hsx) hz _ _) hsx) hz _ _

/-- What is synthesized is the sequence of the family. -/
theorem eq_sequence_of_synthesize {family : EulerFamily} {u : Mat2 R} {tolerance : R}
    {s : OneQubitSequence R} (h : family.synthesize u tolerance = .ok s) :
    s = family.sequence u tolerance := by
  unfold synthesize at h
  simp only at h
  split at h
  · cases h
  · exact (Except.ok.inj h).symm

theorem emits_synthesize {family : EulerFamily} {u : Mat2 R} {tolerance : R}
    {s : OneQubitSequence R} (h : family.synthesize u tolerance = .ok s) :
    ∀ g ∈ s.gates, family.Emits g := by
  rw [eq_sequence_of_synthesize h]
  exact fun g hg => (emits_sequence family u tolerance g hg).1

end EulerFamily

/-! ## Rules -/

/-- A number, or a multiple of one of the given angles. -/
inductive Angle.Share (θs : List (Angle R)) : Angle R → Prop
  | const (v : R) : Share θs (.const v)
  | self {θ : Angle R} (h : θ ∈ θs) : Share θs θ
  | scaled {θ : Angle R} (h : Share θs θ) (factor : R) : Share θs (θ.scaled factor)

namespace Rules

/-- How many times rules apply one after another below a gate: a rule for one of the given rank puts
gates of a lower one. -/
def rank : StandardGate R → Nat
  | .cx => 1
  | .rxx _ | .ryy _ => 3
  | g => if g.numQubits = 1 then 0 else 2

omit [Scalar R] in
theorem rank_le (g : StandardGate R) : rank g ≤ 3 := by
  unfold rank
  split
  · omega
  · exact le_rfl
  · exact le_rfl
  · split <;> omega

/-- A standard gate that is not split and has a rank below the given one. -/
def Below (n : Nat) (j : Instruction R) : Prop :=
  ∃ g, j.standard? = some g ∧ g.isSplit = false ∧ rank g < n

omit [Scalar R] in
theorem Below.mono {n m : Nat} {j : Instruction R} (h : Below n j) (hle : n ≤ m) : Below m j := by
  obtain ⟨g, hs, hsplit, hr⟩ := h
  exact ⟨g, hs, hsplit, by omega⟩

/-- A gate that a rule puts on one or both of two operands: of a rank below the given one, and turning by
shares of the given angles. -/
inductive Put (a b : Qubit) (n : Nat) (θs : List (Angle R)) : Instruction R → Prop
  | on {g : StandardGate R} {qs : List Qubit} (hqs : qs ∈ [[a], [b], [a, b], [b, a]])
    (hcount : g.numQubits = qs.length) (hsplit : g.isSplit = false) (hrank : rank g < n)
    (hangles : ∀ θ ∈ g.angles, θ.Share θs) : Put a b n θs (.ofStandard g qs)

section Put

variable {a b : Qubit} {n : Nat} {θs : List (Angle R)} {j : Instruction R}

theorem Put.narrow (h : Put a b n θs j) (hab : a ≠ b) : j.Narrow [a, b] := by
  cases h with
  | on hqs hcount =>
    simp only [List.mem_cons, List.not_mem_nil, or_false] at hqs
    rcases hqs with rfl | rfl | rfl | rfl
    · exact Instruction.narrow_one hcount (by simp)
    · exact Instruction.narrow_one hcount (by simp)
    · exact Instruction.narrow_two hcount (by simp) (by simp) hab
    · exact Instruction.narrow_two hcount (by simp) (by simp) hab.symm

theorem Put.below (h : Put a b n θs j) : Below n j := by
  cases h with
  | @on g _ _ _ hsplit hrank => exact ⟨g, rfl, hsplit, hrank⟩

/-- A rule puts at most seven gates, all of a lower rank, that turn by constants, by the angle of its gate
or by a part of it. -/
theorem put_twoQubit? {g : StandardGate R} {is : List (Instruction R)}
    (h : twoQubit? g a b = some is) : is.length ≤ 7 ∧ ∀ j ∈ is, Put a b (rank g) g.angles j := by
  unfold twoQubit? at h
  split at h <;> cases h
  all_goals
    refine ⟨by simp, ?_⟩
    simp only [List.forall_mem_cons, List.not_mem_nil, false_imp_iff, implies_true, and_true]
    repeat' apply And.intro
    all_goals
      refine .on (by simp) rfl rfl (Nat.le_of_ble_eq_true rfl) ?_
      first
      | exact List.forall_mem_nil _
      | exact List.forall_mem_singleton.mpr (.const _)
      | exact List.forall_mem_singleton.mpr (.self (.head _))
      | exact List.forall_mem_singleton.mpr (.scaled (.self (.head _)) _)

/-- The rules for `cx` put at most seven gates, each of which is the entangler of the basis or acts on
one qubit, and turn by constants. -/
theorem put_cx? (θs : List (Angle R)) {basis : Basis} {l : Lowered R} (h : cx? basis a b = some l) :
    l.instructions.length ≤ 7 ∧ ∀ j ∈ l.instructions, Put a b 3 θs j ∧
      (basis.contains j.name = true ∨ Below (rank (.cx : StandardGate R)) j) := by
  unfold cx? at h
  simp only at h
  repeat' split at h
  all_goals
    cases h
  all_goals
    refine ⟨by simp [Lowered.ofList], ?_⟩
    simp only [Lowered.ofList, List.forall_mem_cons, List.not_mem_nil, false_imp_iff,
      implies_true, and_true]
    repeat' apply And.intro
  all_goals
    first
    | exact .inl (by assumption)
    | exact .inr ⟨_, rfl, rfl, Nat.le_of_ble_eq_true rfl⟩
    | exact .on (by simp) rfl rfl (Nat.le_of_ble_eq_true rfl) (List.forall_mem_nil _)
    | exact .on (by simp) rfl rfl (Nat.le_of_ble_eq_true rfl) (List.forall_mem_singleton.mpr (.const _))

end Put

end Rules

/-! ## Taking a gate apart -/

/-- A piece on the given operands. -/
def Piece.On (qs : List Qubit) : Piece R → Prop
  | .unitary _ _ q => q ∈ qs
  | .operation j => j.Narrow qs

namespace Basis

/-- The ways to take the application of a gate apart, with what is known of the gate where that comes
up. -/
inductive Taken (basis : Basis) (i : Instruction R) (g : Gate R) : Pieces R → Prop
  | split {l : List (Instruction R)} (hw : (∃ c, g.kind = .custom c ∧ 2 < i.qubits.length) ∨
      ∃ gate, g.kind = .standard gate ∧ gate.isSplit = true) (hl : Wide.split i = .ok l) :
    Taken basis i g (.ofInstructions l)
  | unitary (name : String) (u : Mat2 R) {q : Qubit} (hq : i.qubits = [q]) :
    Taken basis i g ⟨[.unitary name u q], []⟩
  | matrix {c : CustomGate R} {u : Mat4 R} {s : CxSequence R} {a b : Qubit}
    (hkind : g.kind = .custom c) (hq : i.qubits = [a, b])
    (hs : CxSequence.ofMatrix u = .ok s) : Taken basis i g (.ofCxSequence c.name a b s)
  | cx {l : Lowered R} {a b : Qubit} (hkind : g.kind = .standard .cx) (hq : i.qubits = [a, b])
    (hl : Rules.cx? basis a b = some l) :
    Taken basis i g ⟨l.instructions.map .operation, l.phases⟩
  | rule {gate : StandardGate R} {is : List (Instruction R)} {a b : Qubit}
    (hkind : g.kind = .standard gate) (hnot : gate.isSplit = false) (hq : i.qubits = [a, b])
    (his : Rules.twoQubit? gate a b = some is) : Taken basis i g (.ofInstructions is)

variable {basis : Basis} {i : Instruction R} {g : Gate R} {apart : Pieces R}

theorem taken_of_takeCustom {c : CustomGate R} (hkind : g.kind = .custom c)
    (h : takeCustom c i.qubits = .ok apart) : Taken basis i g apart := by
  unfold takeCustom at h
  split at h
  · cases h
  · split at h
    · rename_i q hq
      split at h
      · exact Except.ok.inj h ▸ .unitary _ _ hq
      · cases h
    · rename_i a b hq
      split at h
      · obtain ⟨s, hs, h⟩ := Outcome.bind_eq_ok.mp h
        exact Except.ok.inj h ▸ .matrix hkind hq (Outcome.mapError_eq_ok.mp hs)
      · cases h
    · cases h

theorem taken_of_takeOneQubit {gate : StandardGate R} {q : Qubit} (hq : i.qubits = [q])
    (h : takeOneQubit gate q = .ok apart) : Taken basis i g apart := by
  unfold takeOneQubit at h
  split at h
  · cases h
  · split at h
    · exact Except.ok.inj h ▸ .unitary _ _ hq
    · cases h

theorem taken_of_takeTwoQubit {gate : StandardGate R} {a b : Qubit}
    (hkind : g.kind = .standard gate) (hnot : gate.isSplit = false) (hq : i.qubits = [a, b])
    (h : basis.takeTwoQubit gate a b = .ok apart) : Taken basis i g apart := by
  unfold takeTwoQubit at h
  split at h
  · split at h
    · exact Except.ok.inj h ▸ .cx hkind hq (by assumption)
    · cases h
  · split at h
    · exact Except.ok.inj h ▸ .rule hkind hnot hq (by assumption)
    · cases h

theorem taken_of_takeApart (h : basis.takeApart i g = .ok apart) : Taken basis i g apart := by
  unfold takeApart at h
  split at h
  · rename_i c hkind
    split at h
    · rename_i hlt
      obtain ⟨l, hl, h⟩ := Outcome.bind_eq_ok.mp h
      exact Except.ok.inj h ▸ .split (.inl ⟨c, hkind, hlt⟩) hl
    · exact taken_of_takeCustom hkind h
  · rename_i gate hkind
    split at h
    · rename_i hsplit
      obtain ⟨l, hl, h⟩ := Outcome.bind_eq_ok.mp h
      exact Except.ok.inj h ▸ .split (.inr ⟨gate, hkind, hsplit⟩) hl
    · rename_i hnot
      split at h
      · exact taken_of_takeOneQubit (by assumption) h
      · exact taken_of_takeTwoQubit hkind (by simpa using hnot) (by assumption) h
      · cases h

end Basis

section TakeApart

open Instruction

variable {a b : Qubit} {qs : List Qubit}

omit [Scalar R] in
theorem on_ofInstructions {is : List (Instruction R)} (h : ∀ j ∈ is, j.Narrow qs) :
    ∀ p ∈ (Pieces.ofInstructions is).pieces, p.On qs := by
  intro p hp
  obtain ⟨j, hj, rfl⟩ := List.mem_map.mp hp
  exact h j hj

omit [Scalar R] in
theorem on_ofCxSequence {name : String} {s : CxSequence R} (hab : a ≠ b) :
    ∀ p ∈ (Pieces.ofCxSequence name a b s).pieces, p.On [a, b] := by
  intro p hp
  obtain ⟨step, -, rfl⟩ := List.mem_map.mp hp
  have hmem (k : Fin 2) : (if k.val = 0 then a else b) ∈ [a, b] := by
    split <;> simp
  cases step with
  | block k u => exact hmem k
  | cx control =>
    refine narrow_two rfl (hmem _) (hmem _) ?_
    match control with
    | 0 => exact hab
    | 1 => exact hab.symm

/-- A gate that is taken apart falls into pieces on its operands. -/
theorem on_takeApart {basis : Basis} {i : Instruction R} {g : Gate R} (hg : i.gate? = some g)
    (hd : i.qubits.Nodup) {apart : Pieces R} (h : basis.takeApart i g = .ok apart) :
    ∀ p ∈ apart.pieces, p.On i.qubits := by
  cases Basis.taken_of_takeApart h with
  | split hw hl =>
    rw [Wide.split, gate?_eq_some.mp hg] at hl
    refine on_ofInstructions (Wide.narrow_splitGate hd ?_ hl)
    rcases hw with ⟨_, _, hlt⟩ | hw
    · exact .inl hlt
    · exact .inr hw
  | unitary name u hq =>
    rw [hq]
    exact List.forall_mem_singleton.mpr (.head _)
  | matrix _ hq =>
    rw [hq] at hd ⊢
    exact on_ofCxSequence (by simpa using hd)
  | cx _ hq hl =>
    rw [hq] at hd ⊢
    exact on_ofInstructions fun j hj => ((Rules.put_cx? [] hl).2 j hj).1.narrow (by simpa using hd)
  | rule _ _ hq his =>
    rw [hq] at hd ⊢
    exact on_ofInstructions fun j hj => ((Rules.put_twoQubit? his).2 j hj).narrow (by simpa using hd)

end TakeApart

/-! ## Lowering one operation -/

namespace Basis

variable {basis : Basis} {family : Option EulerFamily} {rules : Nat} {i : Instruction R} {l : Lowered R}

omit [Scalar R] in
/-- What is no gate needs no entry in a basis. -/
theorem contains_of_not_gate (h : i.gate? = none) : basis.contains i.name = true := by
  obtain ⟨operation, qs, cs⟩ := i
  cases operation
  case gate => cases h
  all_goals simp [contains, alwaysNative, Instruction.name]

omit [Scalar R] in
/-- Only gates may be outside of a basis. -/
theorem contains_or_gate (basis : Basis) (i : Instruction R) : basis.contains i.name = true ∨
    ∃ g, i.gate? = some g ∧ basis.contains i.name = false := by
  cases hg : i.gate? with
  | none => exact .inl (contains_of_not_gate hg)
  | some g =>
    cases hn : basis.contains i.name with
    | true => exact .inl rfl
    | false => exact .inr ⟨g, rfl, rfl⟩

omit [Scalar R] in
theorem isGate_of_contains_eq_false (h : basis.contains i.name = false) : i.isGate = true := by
  obtain ⟨g, hg, -⟩ := (basis.contains_or_gate i).resolve_left (by simp [h])
  rw [Instruction.isGate, hg]
  rfl

theorem lower_of_contains (h : basis.contains i.name = true) (rules : Nat) :
    basis.lower family rules i = .ok (.ofList [i]) := by
  cases rules <;>
  · rw [lower]
    split
    · rfl
    · rw [if_pos h]

/-- Lowers a piece. -/
def lowerPiece (basis : Basis) (family : Option EulerFamily) (rules : Nat) :
    Piece R → Compile R (Lowered R)
  | .unitary gate u q => synthesize family gate u q
  | .operation i => basis.lower family rules i

/-- Lowers pieces one after another. -/
def lowerPieces (basis : Basis) (family : Option EulerFamily) (rules : Nat) (done : Lowered R)
    (pieces : List (Piece R)) : Compile R (Lowered R) :=
  pieces.foldlM (fun lowered piece => basis.lowerPiece family rules piece >>= fun k =>
    .ok (lowered ++ k)) done

/-- A gate outside the basis needs a rule. -/
theorem lower_zero {g : Gate R} (hg : i.gate? = some g) (hn : basis.contains i.name = false) :
    basis.lower family 0 i = .error (.unsupportedGate i.name .noRuleChain) := by
  rw [lower, hg]
  simp only [hn]
  rfl

/-- A gate outside the basis is taken apart, and its pieces are lowered with fewer rules. -/
theorem lower_succ {g : Gate R} (hg : i.gate? = some g) (hn : basis.contains i.name = false) :
    basis.lower family (rules + 1) i = basis.takeApart i g >>= fun apart =>
      basis.lowerPieces family rules ⟨[], apart.phases⟩ apart.pieces := by
  rw [lower, hg]
  simp only [hn]
  refine bind_congr fun apart => ?_
  rw [lowerPieces]
  congr 1
  funext lowered piece
  cases piece <;> rfl

/-- An operation of the basis stays as it is. Any other is taken apart, and its pieces are lowered with
fewer rules, one after another. -/
theorem stays_or_apart_of_lower (h : basis.lower family rules i = .ok l) :
    (l = .ofList [i] ∧ basis.contains i.name = true) ∨
    basis.contains i.name = false ∧ ∃ r < rules, ∃ g apart,
      i.gate? = some g ∧ basis.takeApart i g = .ok apart ∧
      basis.lowerPieces family r ⟨[], apart.phases⟩ apart.pieces = .ok l := by
  rcases basis.contains_or_gate i with hin | ⟨g, hg, hn⟩
  · rw [lower_of_contains hin] at h
    exact .inl ⟨(Except.ok.inj h).symm, hin⟩
  · cases rules with
    | zero => cases (lower_zero hg hn).symm.trans h
    | succ r =>
      rw [lower_succ hg hn] at h
      obtain ⟨apart, hapart, h⟩ := Outcome.bind_eq_ok.mp h
      exact .inr ⟨hn, r, Nat.lt_succ_self r, g, apart, hg, hapart, h⟩

omit [Scalar R] in
theorem append_ofList (done : Lowered R) (is : List (Instruction R)) :
    done ++ Lowered.ofList is = ⟨done.instructions ++ is, done.phases⟩ := by
  change (⟨_, done.phases ++ []⟩ : Lowered R) = _
  rw [List.append_nil]
  rfl

/-- Pieces of the basis stay as they are. -/
theorem lowerPieces_of_contains {is : List (Instruction R)}
    (h : ∀ j ∈ is, basis.contains j.name = true) (done : Lowered R) :
    basis.lowerPieces family rules done (is.map .operation) = .ok (done ++ .ofList is) := by
  induction is generalizing done with
  | nil =>
    rw [append_ofList, List.append_nil]
    rfl
  | cons j is ih =>
    obtain ⟨hj, his⟩ := List.forall_mem_cons.mp h
    change (basis.lower family rules j >>= fun k => .ok (done ++ k)) >>= _ = _
    rw [lower_of_contains hj]
    refine (ih his (done ++ .ofList [j])).trans ?_
    simp [append_ofList]

/-- A gate of a kind to be split is lowered through its parts. -/
theorem lower_of_isSplit {gate : StandardGate R} (hs : i.standard? = some gate)
    (hsplit : gate.isSplit = true) (hn : basis.contains i.name = false) :
    basis.lower family (rules + 1) i =
      Wide.split i >>= fun is => basis.lowerPieces family rules ⟨[], []⟩ (is.map .operation) := by
  obtain ⟨g, hg, hgate⟩ := Option.bind_eq_some_iff.mp hs
  rw [lower_succ hg hn, takeApart, Instruction.kind_of_standard? hg hs]
  simp only [hsplit, if_true]
  cases Wide.split i <;> rfl

end Basis

end QuantumCompiler
