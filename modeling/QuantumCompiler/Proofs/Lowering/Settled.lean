import QuantumCompiler.Proofs.Lowering.Native
import QuantumCompiler.Proofs.Lowering.Split

/-!
# Angles that have a value

A one-qubit gate has a matrix as soon as its angles are numbers, and an angle without free names is one
unless it divides by zero. No rule, network or decomposition makes such a quotient out of angles that
are none. So lowering finds a matrix wherever it looks for one, and blames its errors on the input:
`Stuck` lists why a gate cannot be taken apart.
-/
namespace QuantumCompiler

open Outcome (FailsOnly Faultless Missed failsOnly_error failsOnly_foldlM failsOnly_ok faultless_ok
  faultless_error missed_mk)

variable {R : Type} [Scalar R]

/-- An angle with free names, or with a value; any other divides by zero. -/
def Angle.Settled (θ : Angle R) : Prop := θ.isSymbolic = true ∨ θ.value?.isSome = true

def StandardGate.Settled (g : StandardGate R) : Prop := ∀ θ ∈ g.angles, θ.Settled

/-- No angle of the standard gate, if there is one, divides by zero. -/
def Instruction.Settled (i : Instruction R) : Prop := ∀ g, i.standard? = some g → g.Settled

namespace Angle

variable {θ : Angle R}

theorem settled_const (v : R) : (const v).Settled := .inr rfl

theorem Settled.scaled (h : θ.Settled) (factor : R) : (θ.scaled factor).Settled := by
  rw [Angle.scaled]
  cases hv : θ.value? with
  | some v => exact settled_const _
  | none =>
    have hs : θ.isSymbolic = true := h.resolve_right (by simp [hv])
    exact .inl (by simp [isSymbolic, hs])

theorem Share.settled {θs : List (Angle R)} (h : θ.Share θs) (hs : ∀ ω ∈ θs, ω.Settled) :
    θ.Settled := by
  induction h with
  | const v => exact settled_const v
  | self h => exact hs _ h
  | scaled h factor ih => exact ih.scaled factor

end Angle

theorem Instruction.settled_ofStandard {g : StandardGate R} {qs : List Qubit} (h : g.Settled) :
    (ofStandard g qs).Settled := by
  rintro g' ⟨⟩
  exact h

theorem Instruction.settled_of_angles_eq_nil {g : StandardGate R} {qs : List Qubit}
    (h : g.angles = []) : (ofStandard g qs).Settled := by
  refine settled_ofStandard ?_
  rw [StandardGate.Settled, h]
  exact List.forall_mem_nil _

theorem Instruction.settled_of_standard?_eq_none {i : Instruction R} (h : i.standard? = none) :
    i.Settled := by
  intro g hg
  rw [h] at hg
  cases hg

/-- Parts of a gate whose angles do not divide by zero are alike. -/
theorem Part.settled {i j : Instruction R} (h : Part i.standardAngles j) (hi : i.Settled) :
    j.Settled := by
  have hangles : ∀ ω ∈ i.standardAngles, ω.Settled := by
    intro ω hω
    cases hs : i.standard? with
    | none => simp [Instruction.standardAngles, hs] at hω
    | some g =>
      rw [Instruction.standardAngles_eq hs] at hω
      exact hi g hs ω hω
  cases h with
  | standard _ _ hshare =>
    exact Instruction.settled_ofStandard fun θ hθ => (hshare θ hθ).settled hangles
  | block => exact Instruction.settled_of_standard?_eq_none rfl

/-- A gate on one qubit has a matrix when its angles are numbers. -/
theorem Mat2.isSome_ofGate? {g : StandardGate R} (hone : g.numQubits = 1)
    (hv : ∀ θ ∈ g.angles, θ.value?.isSome = true) : (ofGate? g).isSome = true := by
  have hzero {n : Nat} (h : min (n + 1) maxIndex = 1) : n = 0 := by
    rw [maxIndex] at h
    omega
  cases g with
  | rx θ | ry θ | rz θ | p θ => simpa [ofGate?, StandardGate.angles] using hv
  | u θ φ ψ =>
    simp only [StandardGate.angles, List.forall_mem_cons, Option.isSome_iff_exists] at hv
    obtain ⟨⟨a, ha⟩, ⟨b, hb⟩, ⟨c, hc⟩, -⟩ := hv
    simp [ofGate?, ha, hb, hc]
  | mcx n =>
    obtain rfl := hzero hone
    rfl
  | mcry n θ =>
    obtain rfl := hzero hone
    simpa [ofGate?, StandardGate.angles] using hv
  | mcu n θ φ ψ =>
    obtain rfl := hzero hone
    simp only [StandardGate.angles, List.forall_mem_cons, Option.isSome_iff_exists] at hv
    obtain ⟨⟨a, ha⟩, ⟨b, hb⟩, ⟨c, hc⟩, -⟩ := hv
    simp [ofGate?, ha, hb, hc]
  | id | x | y | z | h | s | sdg | t | tdg | sx | sxdg => rfl
  | _ => cases hone

/-! ## Splitting -/

namespace Wide

open Instruction

variable {i : Instruction R} {l : List (Instruction R)}

theorem settled_split (hi : i.Settled) (hw : isWide i = true) (h : split i = .ok l) :
    ∀ j ∈ l, j.Settled := by
  obtain ⟨operation, qs, cs⟩ := i
  cases operation with
  | gate g =>
    have hlt : 2 < qs.length := by simpa [isWide] using hw
    exact fun j hj => (part_split rfl (.inl hlt) h j hj).settled hi
  | measure =>
    obtain rfl := Except.ok.inj h
    intro j hj
    rw [← List.map_uncurry_zip_eq_zipWith] at hj
    obtain ⟨p, -, rfl⟩ := List.mem_map.mp hj
    exact settled_of_standard?_eq_none rfl
  | reset | barrier | delay => cases hw

/-- Splitting an accepted gate fails only for reasons of the input. -/
theorem faultless_split (ha : i.checkArity = .ok ()) : Faultless (split i) := by
  unfold split
  split
  · exact faultless_ok _
  · rename_i g hg
    intro breach h
    obtain ⟨kind, label⟩ := g
    cases unsplit_of_splitGate h with
    | missingOperand hkind hfew =>
      -- both gates have three operands
      rcases hkind with rfl | rfl
      all_goals
        have hthree := (checkArity_of_standard? ((standard?_eq_some (gate?_eq_some.mpr hg)).mpr rfl)).mp ha
        simp only [StandardGate.numQubits] at hthree
        omega
    | undecomposed _ _ h =>
      rcases Shannon.error_of_decompose h with h | ⟨-, h⟩ | ⟨e, t, h⟩ <;> cases h
  · exact faultless_ok _

end Wide

/-! ## Synthesis -/

theorem EulerFamily.missed_synthesize (family : EulerFamily) (u : Mat2 R) (tolerance : R) :
    FailsOnly Missed (family.synthesize u tolerance) := by
  unfold synthesize
  simp only
  split
  · exact failsOnly_error (missed_mk _ _ _)
  · exact failsOnly_ok _

namespace Interaction

theorem missed_matchingPhase (rebuilt target : Mat4 R) :
    FailsOnly Missed (matchingPhase rebuilt target) := by
  unfold matchingPhase
  simp only
  split
  · exact failsOnly_error (missed_mk _ _ _)
  · exact failsOnly_ok _

theorem missed_ofMatrix (u : Mat4 R) : FailsOnly Missed (ofMatrix u) := by
  unfold ofMatrix
  dsimp only
  split
  · exact failsOnly_error (missed_mk _ _ _)
  · split
    · exact (missed_matchingPhase _ _).bind fun _ _ => failsOnly_ok _
    · exact failsOnly_error (missed_mk _ _ _)

end Interaction

theorem CxSequence.missed_ofMatrix (u : Mat4 R) : FailsOnly Missed (ofMatrix u) :=
  (Interaction.missed_ofMatrix u).bind fun _ _ =>
    (Interaction.missed_matchingPhase _ _).bind fun _ _ => failsOnly_ok _

/-! ## Lowering -/

omit [Scalar R] in
theorem Mat2.isSome_ofList? {xs : List (Cx R)} (h : xs.length = 4) :
    (Mat2.ofList? xs).isSome = true := by
  obtain ⟨a, b, c, d, rfl⟩ := List.length_eq_four.mp h
  rfl

theorem Square4.isSome_ofList? {α : Type} {xs : List α} (h : xs.length = 16) :
    (Square4.ofList? xs).isSome = true := by
  simp [Square4.ofList?, h]

namespace Basis

variable {basis : Basis} {family : Option EulerFamily} {i : Instruction R} {g : Gate R}

omit [Scalar R] in
theorem faultless_resolveFamily (basis : Basis) (requested : Option EulerFamily) :
    Faultless (basis.resolveFamily requested : Compile R _) := by
  unfold resolveFamily
  split
  · split
    · exact faultless_ok _
    · exact faultless_error rfl
  · exact faultless_ok _

/-- Why a gate cannot be taken apart, with what is known of it where that comes up. -/
inductive Stuck (basis : Basis) (i : Instruction R) (g : Gate R) : CompileError R → Prop
  | unsplit {x : CompileError R} (hw : (∃ c, g.kind = .custom c ∧ 2 < i.qubits.length) ∨
      ∃ gate, g.kind = .standard gate ∧ gate.isSplit = true) (h : Wide.split i = .error x) :
    Stuck basis i g x
  | noBlock {c : CustomGate R} (hkind : g.kind = .custom c) (hm : c.matrix = none) :
    Stuck basis i g (.unsupportedGate c.name .noMatrix)
  | misshapen {c : CustomGate R} {matrix : List (Cx R)} (hkind : g.kind = .custom c)
    (hm : c.matrix = some matrix) (hshape : matrix.length ≠ 4 ^ i.qubits.length) (side : Nat) :
    Stuck basis i g (.malformedCircuit (.matrixShape c.name side))
  | noOperands {c : CustomGate R} (hkind : g.kind = .custom c) (hnone : i.qubits = []) :
    Stuck basis i g (.unsupportedGate c.name .noOperands)
  | missed (name : String) (error tolerance : R) :
    Stuck basis i g (.decompositionTolerance name error tolerance)
  | unbound {gate : StandardGate R} {θ : Angle R} (hkind : g.kind = .standard gate)
    (hθ : θ ∈ gate.angles) (hs : θ.isSymbolic = true) :
    Stuck basis i g (.unboundParameter gate.name θ)
  | noMatrix {gate : StandardGate R} (hkind : g.kind = .standard gate) (hone : i.qubits.length = 1)
    (hbound : ∀ θ ∈ gate.angles, θ.isSymbolic = false) (hnone : Mat2.ofGate? gate = none) :
    Stuck basis i g (.internal (.noMatrix gate.name))
  | noEntangler {a b : Qubit} (hkind : g.kind = .standard .cx)
    (hnone : (Rules.cx? basis a b : Option (Lowered R)) = none) :
    Stuck basis i g (.unsupportedGate "cx" .noEntangler)
  | noTwoQubitRule {gate : StandardGate R} {a b : Qubit} (hkind : g.kind = .standard gate)
    (hsplit : gate.isSplit = false) (htwo : i.qubits.length = 2) (hcx : gate ≠ .cx)
    (hnone : Rules.twoQubit? gate a b = none) :
    Stuck basis i g (.unsupportedGate gate.name .noTwoQubitRule)
  | noRule {gate : StandardGate R} (hkind : g.kind = .standard gate) (hsplit : gate.isSplit = false)
    (hone : i.qubits.length ≠ 1) (htwo : i.qubits.length ≠ 2) :
    Stuck basis i g (.unsupportedGate gate.name (.noRule i.qubits.length))

theorem stuck_of_takeCustom {c : CustomGate R} {x : CompileError R} (hkind : g.kind = .custom c)
    (hle : i.qubits.length ≤ 2) (h : takeCustom c i.qubits = .error x) : basis.Stuck i g x := by
  unfold takeCustom at h
  split at h
  · exact Except.error.inj h ▸ .noBlock hkind (by assumption)
  · rename_i matrix hm
    split at h
    · rename_i q hq
      split at h
      · cases h
      · rename_i hnone
        refine Except.error.inj h ▸ .misshapen hkind hm (fun hlen => ?_) 2
        have hsome := Mat2.isSome_ofList? (hq ▸ hlen)
        rw [hnone] at hsome
        cases hsome
    · rename_i a b hq
      split at h
      · rcases Outcome.bind_eq_error.mp h with h | ⟨_, -, h⟩
        · obtain ⟨name, error, tolerance, rfl⟩ := (CxSequence.missed_ofMatrix _).blame _ x h
          exact .missed name error tolerance
        · cases h
      · rename_i hnone
        refine Except.error.inj h ▸ .misshapen hkind hm (fun hlen => ?_) 4
        have hsome := Square4.isSome_ofList? (hq ▸ hlen)
        rw [hnone] at hsome
        cases hsome
    · rename_i hone htwo
      refine Except.error.inj h ▸ .noOperands hkind ?_
      match hq : i.qubits with
      | [] => rfl
      | [q] => exact (hone q hq).elim
      | [a, b] => exact (htwo a b hq).elim
      | _ :: _ :: _ :: _ => exact absurd hle (by simp [hq])

theorem stuck_of_takeOneQubit {gate : StandardGate R} {q : Qubit} {x : CompileError R}
    (hkind : g.kind = .standard gate) (hone : i.qubits.length = 1)
    (h : takeOneQubit gate q = .error x) : basis.Stuck i g x := by
  unfold takeOneQubit at h
  split at h
  · rename_i θ hfind
    exact Except.error.inj h ▸
      .unbound hkind (List.mem_of_find?_eq_some hfind) (List.find?_some hfind)
  · rename_i hfind
    split at h
    · cases h
    · rename_i hnone
      refine Except.error.inj h ▸ .noMatrix hkind hone (fun θ hθ => ?_) hnone
      simpa using List.find?_eq_none.mp hfind θ hθ

theorem stuck_of_takeTwoQubit {gate : StandardGate R} {a b : Qubit} {x : CompileError R}
    (hkind : g.kind = .standard gate) (hsplit : gate.isSplit = false) (htwo : i.qubits.length = 2)
    (h : basis.takeTwoQubit gate a b = .error x) : basis.Stuck i g x := by
  unfold takeTwoQubit at h
  split at h
  · split at h
    · cases h
    · exact Except.error.inj h ▸ .noEntangler hkind (by assumption)
  · rename_i hcx
    split at h
    · cases h
    · exact Except.error.inj h ▸ .noTwoQubitRule hkind hsplit htwo hcx (by assumption)

theorem stuck_of_takeApart {x : CompileError R} (h : basis.takeApart i g = .error x) :
    basis.Stuck i g x := by
  unfold takeApart at h
  split at h
  · rename_i c hkind
    split at h
    · rename_i hlt
      rcases Outcome.bind_eq_error.mp h with h | ⟨_, -, h⟩
      · exact .unsplit (.inl ⟨c, hkind, hlt⟩) h
      · cases h
    · rename_i hle
      exact stuck_of_takeCustom hkind (Nat.not_lt.mp hle) h
  · rename_i gate hkind
    split at h
    · rename_i hsplit
      rcases Outcome.bind_eq_error.mp h with h | ⟨_, -, h⟩
      · exact .unsplit (.inr ⟨gate, hkind, hsplit⟩) h
      · cases h
    · rename_i hnot
      have hsplit : gate.isSplit = false := by simpa using hnot
      split at h
      · rename_i q hq
        exact stuck_of_takeOneQubit hkind (by rw [hq]; rfl) h
      · rename_i a b hq
        exact stuck_of_takeTwoQubit hkind hsplit (by rw [hq]; rfl) h
      · rename_i hone htwo
        refine Except.error.inj h ▸ .noRule hkind hsplit (fun hlen => ?_) fun hlen => ?_
        · obtain ⟨q, hq⟩ := List.length_eq_one_iff.mp hlen
          exact hone q hq
        · obtain ⟨a, b, hq⟩ := List.length_eq_two.mp hlen
          exact htwo a b hq

/-- An accepted gate has every operand and matrix that its rule looks for. -/
theorem faultless_takeApart (hg : i.gate? = some g) (ha : i.checkArity = .ok ()) (hi : i.Settled) :
    Faultless (basis.takeApart i g) := by
  intro breach h
  cases stuck_of_takeApart h with
  | unsplit _ h => exact Wide.faultless_split ha breach h
  | @noMatrix gate hkind hone hbound hnone =>
    have hs : i.standard? = some gate := (Instruction.standard?_eq_some hg).mpr hkind
    have hn := (Instruction.checkArity_of_standard? hs).mp ha
    have hvalue : ∀ θ ∈ gate.angles, θ.value?.isSome = true := fun θ hθ =>
      (hi gate hs θ hθ).resolve_left (by simp [hbound θ hθ])
    have hsome := Mat2.isSome_ofGate? (by rw [hn, hone]; rfl) hvalue
    rw [hnone] at hsome
    cases hsome

theorem missed_synthesize (family : EulerFamily) (gate : String) (u : Mat2 R) (q : Qubit) :
    FailsOnly Missed (synthesize (some family) gate u q) :=
  ((family.missed_synthesize u _).blame gate).bind fun _ _ => failsOnly_ok _

theorem faultless_synthesize (family : Option EulerFamily) (gate : String) (u : Mat2 R)
    (q : Qubit) : Faultless (synthesize family gate u q) := by
  cases family with
  | none => exact faultless_error rfl
  | some family => exact (missed_synthesize family gate u q).faultless_of_missed

/-- What every way of taking apart keeps holds on all levels. Rules do not run out where there are more of
them than the height of the operation. -/
theorem failsOnly_lower {P : CompileError R → Prop} {Q : Instruction R → Prop}
    (hsynth : ∀ name u q, FailsOnly P (synthesize family name u q))
    (htake : ∀ i g, Q i → i.gate? = some g → basis.contains i.name = false →
      FailsOnly P (basis.takeApart i g) ∧ ∀ apart, basis.takeApart i g = .ok apart →
        ∀ j, .operation j ∈ apart.pieces → Q j)
    (rules : Nat) (hi : Q i) (hrules : (∀ name, P (.unsupportedGate name .noRuleChain)) ∨
      i.height < rules ∨ basis.contains i.name = true) :
    FailsOnly P (basis.lower family rules i) := by
  induction rules generalizing i with
  | zero =>
    rcases basis.contains_or_gate i with hin | ⟨g, hg, hn⟩
    · rw [lower_of_contains hin]
      exact failsOnly_ok _
    · rw [lower_zero hg hn]
      rcases hrules with hP | hlt | hin
      · exact failsOnly_error (hP _)
      · exact absurd hlt (Nat.not_lt_zero _)
      · exact absurd hin (by simp [hn])
  | succ rules ih =>
    rcases basis.contains_or_gate i with hin | ⟨g, hg, hn⟩
    · rw [lower_of_contains hin]
      exact failsOnly_ok _
    · rw [lower_succ hg hn]
      obtain ⟨hfails, hparts⟩ := htake i g hi hg hn
      refine hfails.bind fun apart hapart => failsOnly_foldlM (fun piece hp lowered => ?_) _
      refine FailsOnly.bind ?_ fun _ _ => failsOnly_ok _
      cases piece with
      | unitary name u q => exact hsynth name u q
      | operation j =>
        refine ih (hparts apart hapart j hp) (hrules.imp_right fun hrules => ?_)
        have hlt := hrules.resolve_right (by simp [hn])
        rcases height_takeApart hg hapart hp with hless | ⟨-, hin⟩
        · exact .inl (by omega)
        · exact .inr hin

/-- Lowering blames the input for all its failures, as long as no angle divides by zero. -/
theorem faultless_lower (rules : Nat) (ha : i.checkArity = .ok ()) (hd : i.qubits.Nodup)
    (hi : i.Settled) : Faultless (basis.lower family rules i) := by
  have hlower : FailsOnly (Outcome.isInternal · = false) (basis.lower family rules i) := by
    refine failsOnly_lower (Q := fun i => (i.checkArity = .ok () ∧ i.qubits.Nodup) ∧ i.Settled)
      (fun name u q => (faultless_synthesize family name u q).failsOnly) (fun i g hi hg _ => ?_) rules
      ⟨⟨ha, hd⟩, hi⟩ (.inl fun _ => rfl)
    obtain ⟨⟨ha, hd⟩, hi⟩ := hi
    refine ⟨(faultless_takeApart hg ha hi).failsOnly, fun apart hapart j hj => ?_⟩
    have hnarrow : j.Narrow i.qubits := on_takeApart hg hd hapart _ hj
    exact ⟨⟨hnarrow.arity, hnarrow.distinct⟩, (part_takeApart hg hapart j hj).settled hi⟩
  exact hlower.faultless fun _ h => h

/-- Lowering a graph of gates on one or two qubits blames the input for all its failures. -/
theorem faultless_lowerAll (device : Device R) (requested : Option EulerFamily) {d : Dag R}
    (h : d.HasOnly fun i => (i.isGate = true → i.qubits.length ≤ 2) ∧ i.Settled) :
    Faultless (lowerAll device requested d) := by
  obtain ⟨es, hr⟩ := h.reachable.exists_reads
  rcases reads_lowerAll device requested hr with ⟨_, e, _, -, he, -⟩ | ⟨x, hx, hcause⟩
  · rw [he]
    exact faultless_ok e
  · rw [hx]
    rintro breach ⟨⟩
    rcases hcause with hres | ⟨family, -, y, hy, hn, hrefuses⟩
    · exact faultless_resolveFamily _ _ breach hres
    · obtain ⟨hle, hsettled⟩ := hr.hasOnly_iff.mp h y.2 (List.mem_map_of_mem hy)
      obtain ⟨ha, hfit⟩ := Instruction.validate_eq_ok.mp (hr.valid y hy)
      rcases hrefuses with herror | ⟨l, hl, hlong, -⟩
      · exact faultless_lower maxRules ha hfit.distinct hsettled breach herror
      · -- a gate on two qubits never has more parts than there are positions
        have hfew : y.2.qubits.length ≤ maxOperands :=
          (hle (isGate_of_contains_eq_false hn)).trans (by decide)
        exact absurd (length_lower_le_maxIndex hfit.distinct hfew hl) (Nat.not_le.mpr hlong)

end Basis

theorem Wide.settled_splitAll {d e : Dag R} (h : d.HasOnly Instruction.Settled)
    (he : splitAll d = .ok e) : e.HasOnly Instruction.Settled := by
  obtain ⟨es, hr⟩ := h.reachable.exists_reads
  obtain ⟨es', hr', hes, -, hall⟩ := reads_splitAll hr he
  rw [hr'.hasOnly_iff, hes]
  intro j hj
  rcases Dag.mem_lowerList hj with ⟨hj, -⟩ | ⟨i, hi, hw, hj⟩
  · exact hr.hasOnly_iff.mp h j hj
  · obtain ⟨x, hx, rfl⟩ := List.mem_map.mp hi
    exact settled_split (hr.hasOnly_iff.mp h x.2 hi) hw (split_of_parts (hall x hx hw).eq) j hj

end QuantumCompiler
