import QuantumCompiler.Proofs.Angle
import QuantumCompiler.Proofs.Lowering.Rules
import QuantumCompiler.Proofs.Lowering.Settled

/-!
# Lowering gets through

Taking a gate apart lowers its height, so rules run out before the limit on their depth does, in whichever
basis. Where the basis has a rotation family and an entangling gate, every standard gate has a rule, and
its parts are standard gates again or blocks with a matrix. Then nothing but a tolerance can be missed,
unless a ladder has as many controls as a word has bits.
-/
namespace QuantumCompiler

open Outcome (FailsOnly Missed failsOnly_error missed_mk)

variable {R : Type} [Scalar R]

/-- A share of numbers is a number. -/
theorem Angle.Share.isSome_value? {θ : Angle R} {θs : List (Angle R)} (h : θ.Share θs)
    (hs : ∀ ω ∈ θs, ω.value?.isSome = true) : θ.value?.isSome = true := by
  induction h with
  | const v => rfl
  | self h => exact hs _ h
  | scaled h factor ih =>
    obtain ⟨v, hv⟩ := Option.isSome_iff_exists.mp ih
    rw [Angle.scaled, hv]
    rfl

omit [Scalar R] in
theorem StandardGate.numQubits_eq {g : StandardGate R} (h : g.isSplit = false) :
    g.numQubits = 1 ∨ g.numQubits = 2 := by
  cases g <;>
    first
    | exact .inl rfl
    | exact .inr rfl
    | cases h

namespace Basis

variable {basis : Basis} {family : Option EulerFamily} {i : Instruction R} {g : Gate R}

/-! ## Rules run out -/

omit [Scalar R] in
theorem foldlM_congr {α β : Type} {f f' : β → α → Compile R β} {xs : List α}
    (h : ∀ x ∈ xs, ∀ b, f b x = f' b x) (b : β) : xs.foldlM f b = xs.foldlM f' b := by
  induction xs generalizing b with
  | nil => rfl
  | cons x xs ih =>
    rw [List.foldlM_cons, List.foldlM_cons, h x (by simp)]
    exact bind_congr fun c => ih (fun y hy => h y (by simp [hy])) c

/-- More rules than the height of an operation change nothing. -/
theorem lower_eq_of_height_lt {rules rules' : Nat} (h : i.height < rules) (h' : i.height < rules') :
    basis.lower family rules i = basis.lower family rules' i := by
  induction rules generalizing i rules' with
  | zero => exact absurd h (Nat.not_lt_zero _)
  | succ rules ih =>
    obtain ⟨rules', rfl⟩ := Nat.exists_eq_succ_of_ne_zero (Nat.ne_zero_of_lt h')
    rcases basis.contains_or_gate i with hin | ⟨g, hg, hn⟩
    · rw [lower_of_contains hin, lower_of_contains hin]
    · rw [lower_succ hg hn, lower_succ hg hn]
      cases hapart : basis.takeApart i g with
      | error x => rfl
      | ok apart =>
        refine foldlM_congr (fun piece hp lowered => ?_) _
        have hpiece : basis.lowerPiece family rules piece = basis.lowerPiece family rules' piece := by
          cases piece with
          | unitary name u q => rfl
          | operation j =>
            rw [lowerPiece, lowerPiece]
            rcases height_takeApart hg hapart hp with hless | ⟨-, hin⟩
            · exact ih (by omega) (by omega)
            · rw [lower_of_contains hin, lower_of_contains hin]
        rw [hpiece]

/-- The error of a chain of rules that does not reach the basis. -/
def isChain : CompileError R → Bool
  | .unsupportedGate _ .noRuleChain => true
  | _ => false

theorem not_isChain_synthesize (family : Option EulerFamily) (name : String) (u : Mat2 R) (q : Qubit) :
    FailsOnly (isChain · = false) (synthesize family name u q) := by
  cases family with
  | none => exact failsOnly_error rfl
  | some family =>
    exact (missed_synthesize family name u q).mono fun _ ⟨_, _, _, he⟩ => he ▸ rfl

theorem not_isChain_split (hg : i.gate? = some g) : FailsOnly (isChain · = false) (Wide.split i) := by
  intro e h
  rw [Wide.split, Instruction.gate?_eq_some.mp hg] at h
  cases Wide.unsplit_of_splitGate h with
  | undecomposed _ _ h =>
    rcases Shannon.error_of_decompose h with rfl | ⟨-, rfl⟩ | ⟨_, _, rfl⟩ <;> rfl
  | _ => rfl

theorem not_isChain_takeApart (hg : i.gate? = some g) :
    FailsOnly (isChain · = false) (basis.takeApart i g) := by
  intro e h
  cases stuck_of_takeApart h with
  | unsplit _ h => exact not_isChain_split hg e h
  | _ => rfl

/-! ## Only a tolerance is missed -/

/-- An operation that lowering gets through: a standard gate that turns by numbers and has few controls,
or a matrix on one or two qubits. -/
structure Lowerable (i : Instruction R) : Prop where
  arity : i.checkArity = .ok ()
  distinct : i.qubits.Nodup
  numeric : ∀ θ ∈ i.standardAngles, θ.value?.isSome = true
  few : ∀ k θ φ ψ, i.standard? = some (.mcu k θ φ ψ) → k ≤ Wide.maxControls
  fits : ∀ gate, i.standard? = some gate → gate.hasFreeLadder = true →
    i.qubits.length ≤ Ladder.wordBits
  block : ∀ g c, i.gate? = some g → g.kind = .custom c →
    (∃ matrix, c.matrix = some matrix) ∧ 0 < i.qubits.length ∧ i.qubits.length ≤ 2

/-- So is what it is taken apart into. -/
theorem Lowerable.part {j : Instruction R} (hi : Lowerable i) (hj : Part i.standardAngles j)
    (hn : j.Narrow i.qubits) : Lowerable j := by
  cases hj with
  | @standard gate qs hsplit hrank hangles =>
    refine ⟨hn.arity, hn.distinct, fun θ hθ => ?_, ?_, fun _ _ _ => hn.le.trans (by decide), ?_⟩
    · exact (hangles θ hθ).isSome_value? hi.numeric
    · rintro k θ φ ψ ⟨⟩
      cases hsplit
    · rintro g c ⟨⟩ hkind
      cases hkind
  | @block matrix qs hpos hle =>
    refine ⟨hn.arity, hn.distinct, nofun, nofun, nofun, ?_⟩
    rintro g c ⟨⟩ ⟨⟩
    exact ⟨⟨matrix, rfl⟩, hpos, hle⟩

theorem missed_split (hi : Lowerable i) (hg : i.gate? = some g) {gate : StandardGate R}
    (hkind : g.kind = .standard gate) (hsplit : gate.isSplit = true) :
    FailsOnly Missed (Wide.split i) := by
  have hs : i.standard? = some gate := (Instruction.standard?_eq_some hg).mpr hkind
  have hlen := (Instruction.checkArity_of_standard? hs).mp hi.arity
  intro e h
  have hfaultless := Wide.faultless_split hi.arity
  rw [Wide.split, Instruction.gate?_eq_some.mp hg] at h hfaultless
  cases Wide.unsplit_of_splitGate h with
  | missingOperand => exact (hfaultless _ h).elim
  | noTarget _ _ hnone =>
    -- every gate acts on one qubit at least
    rw [hnone, List.length_nil, Nat.zero_min] at hlen
    cases gate <;> simp [StandardGate.numQubits, maxIndex] at hlen
  | @unbound k θ φ ψ ω hmcu hω hv =>
    obtain rfl : gate = .mcu k θ φ ψ := GateKind.standard.inj (hkind.symm.trans hmcu)
    have hvalue := hi.numeric ω (Instruction.standardAngles_eq hs ▸ hω)
    rw [hv] at hvalue
    cases hvalue
  | @tooManyControls k θ φ ψ hmcu hmany =>
    obtain rfl : gate = .mcu k θ φ ψ := GateKind.standard.inj (hkind.symm.trans hmcu)
    have hfew := hi.few k θ φ ψ hs
    simp only [StandardGate.numQubits, maxIndex, Wide.maxControls] at hlen hfew hmany
    omega
  | @overflow gate' hkind' hfree hmany =>
    obtain rfl : gate = gate' := GateKind.standard.inj (hkind.symm.trans hkind')
    exact absurd (hi.fits gate hs hfree) (Nat.not_le.mpr hmany)
  | noSplit hnot => cases (hnot gate hkind).symm.trans hsplit
  | noMatrix hc => cases hkind.symm.trans hc
  | undecomposed hc => cases hkind.symm.trans hc

/-- A basis with a gate that entangles two qubits. -/
def Entangles (basis : Basis) : Prop :=
  basis.contains "cx" = true ∨ basis.contains "cz" = true ∨ basis.contains "cp" = true ∨
    basis.contains "iswap" = true

theorem missed_takeApart (h : basis.Entangles) (hi : Lowerable i) (hg : i.gate? = some g)
    (hn : basis.contains i.name = false) : FailsOnly Missed (basis.takeApart i g) := by
  have hcount {gate : StandardGate R} (hkind : g.kind = .standard gate) :
      gate.numQubits = min i.qubits.length maxIndex :=
    (Instruction.checkArity_of_standard? ((Instruction.standard?_eq_some hg).mpr hkind)).mp hi.arity
  have hnumeric {gate : StandardGate R} (hkind : g.kind = .standard gate) :
      ∀ θ ∈ gate.angles, θ.value?.isSome = true :=
    Instruction.standardAngles_eq ((Instruction.standard?_eq_some hg).mpr hkind) ▸ hi.numeric
  intro e he
  cases stuck_of_takeApart he with
  | unsplit hw h =>
    rcases hw with ⟨c, hkind, hlt⟩ | ⟨gate, hkind, hsplit⟩
    · exact absurd (hi.block g c hg hkind).2.2 (Nat.not_le.mpr hlt)
    · exact missed_split hi hg hkind hsplit e h
  | @noBlock c hkind hm =>
    obtain ⟨⟨matrix, hsome⟩, -⟩ := hi.block g c hg hkind
    cases hm.symm.trans hsome
  | @misshapen c matrix hkind hm hshape =>
    obtain ⟨kind, label⟩ := g
    obtain rfl : kind = .custom c := hkind
    exact absurd (Wide.length_matrix_of_checkArity (Instruction.gate?_eq_some.mp hg) hm hi.arity) hshape
  | @noOperands c hkind hnone =>
    have hpos := (hi.block g c hg hkind).2.1
    simp [hnone] at hpos
  | missed name error tolerance => exact missed_mk name error tolerance
  | @unbound gate θ hkind hθ hs =>
    obtain ⟨v, hv⟩ := Option.isSome_iff_exists.mp (hnumeric hkind θ hθ)
    simp [Angle.isSymbolic_eq_false.mpr (Angle.names_of_value? hv)] at hs
  | @noMatrix gate hkind hone _ hnone =>
    have hsome := Mat2.isSome_ofGate? (by rw [hcount hkind, hone]; rfl) (hnumeric hkind)
    rw [hnone] at hsome
    cases hsome
  | @noEntangler a b hkind hnone =>
    have hname : i.name = "cx" :=
      Instruction.name_of_standard? ((Instruction.standard?_eq_some hg).mpr hkind)
    have hsome := (Rules.isSome_cx? (R := R) basis a b).mpr
      (h.resolve_left (Bool.eq_false_iff.mp (hname ▸ hn)))
    rw [hnone] at hsome
    cases hsome
  | @noTwoQubitRule gate a b hkind hsplit htwo hcx hnone =>
    have hsome := (Rules.isSome_twoQubit? gate a b).mpr ⟨by rw [hcount hkind, htwo]; rfl, hsplit, hcx⟩
    rw [hnone] at hsome
    cases hsome
  | @noRule gate hkind hsplit hone htwo =>
    have hfew := StandardGate.numQubits_eq hsplit
    rw [hcount hkind, maxIndex] at hfew
    omega

theorem missed_lower (h : basis.Entangles) (f : EulerFamily) (hi : Lowerable i) {rules : Nat}
    (hrules : i.height < rules) : FailsOnly Missed (basis.lower (some f) rules i) := by
  refine failsOnly_lower (Q := Lowerable) (missed_synthesize f) (fun i g hi hg hn => ?_) rules hi
    (.inr (.inl hrules))
  refine ⟨missed_takeApart h hi hg hn, fun apart hapart j hj => ?_⟩
  exact hi.part (part_takeApart hg hapart j hj) (on_takeApart hg hi.distinct hapart _ hj)

theorem lowerable_of_validate {gate : StandardGate R} (hs : i.standard? = some gate) {n m : Nat}
    (hv : i.validate n m = .ok ()) (hnum : ∀ θ ∈ gate.angles, θ.value?.isSome = true)
    (hfew : ∀ k θ φ ψ, gate = .mcu k θ φ ψ → k ≤ Wide.maxControls)
    (hladder : gate.hasFreeLadder = true → i.qubits.length ≤ Ladder.wordBits) : Lowerable i := by
  obtain ⟨harity, hfits⟩ := Instruction.validate_eq_ok.mp hv
  refine ⟨harity, hfits.distinct, Instruction.standardAngles_eq hs ▸ hnum, fun k θ φ ψ h => ?_,
    fun gate' h hfree => ?_, ?_⟩
  · exact hfew k θ φ ψ (Option.some.inj (hs.symm.trans h))
  · obtain rfl := Option.some.inj (hs.symm.trans h)
    exact hladder hfree
  · intro g c hg hc
    cases (Instruction.kind_of_standard? hg hs).symm.trans hc

omit [Scalar R] in
theorem exists_family_of_resolveFamily (hb : ∃ f, basis.provides f = true)
    {requested : Option EulerFamily}
    (h : (basis.resolveFamily requested : Compile R _) = .ok family) : ∃ f, family = some f := by
  cases requested with
  | some f =>
    rw [resolveFamily] at h
    split at h
    · exact ⟨f, (Except.ok.inj h).symm⟩
    · cases h
  | none =>
    obtain ⟨f, hf⟩ := hb
    have hsome : basis.family?.isSome = true := by
      refine List.find?_isSome.mpr ⟨f, ?_, hf⟩
      cases f <;> decide
    obtain ⟨f', hf'⟩ := Option.isSome_iff_exists.mp hsome
    exact ⟨f', (Except.ok.inj h).symm.trans hf'⟩

omit [Scalar R] in
theorem isSplit_of_hasFreeLadder {gate : StandardGate R} (h : gate.hasFreeLadder = true) :
    gate.isSplit = true := by
  cases gate <;> first | rfl | cases h

/-- A ladder with as many controls as a word has bits is not lowered in a basis without its gate. -/
theorem lower_of_hasFreeLadder {gate : StandardGate R} (hs : i.standard? = some gate)
    (hfree : gate.hasFreeLadder = true) (hmany : Ladder.wordBits < i.qubits.length)
    (hn : basis.contains i.name = false) :
    basis.lower family maxRules i = .error (.ladderOverflow (i.qubits.length - 1)) := by
  rw [maxRules, lower_of_isSplit hs (isSplit_of_hasFreeLadder hfree) hn,
    Wide.split_of_hasFreeLadder hs hfree hmany]
  rfl

/-- At most three rules nest in whichever basis, more than that change nothing, and no chain of rules
ends outside of the basis. Where the basis has a rotation family and a gate that entangles, lowering gets
through every accepted standard gate that turns by numbers and has no more controls than roots are
precise for: its errors are a tolerance that numeric synthesis misses, and the overflow of a ladder over
as many controls as a word has bits. -/
theorem lower_gets_through (basis : Basis) (i : Instruction R) :
    (∀ n j, basis.Reaches i n j → n ≤ 3) ∧
    (∀ family rules, 3 < rules → basis.lower family rules i = basis.lower family maxRules i) ∧
    (∀ family gate, basis.lower family maxRules i ≠ .error (.unsupportedGate gate .noRuleChain)) ∧
    ∀ gate numQubits numClbits, i.standard? = some gate → i.validate numQubits numClbits = .ok () →
      (∀ θ ∈ gate.angles, θ.value?.isSome = true) →
      (∀ k θ φ ψ, gate = .mcu k θ φ ψ → k ≤ 32) →
      (∃ f, basis.provides f = true) → basis.Entangles →
      ∀ requested family, (basis.resolveFamily requested : Compile R _) = .ok family →
      ∀ x, basis.lower family maxRules i = .error x →
        (∃ name error tolerance, x = .decompositionTolerance name error tolerance) ∨
        gate.hasFreeLadder = true ∧ 64 < i.qubits.length ∧
          x = .ladderOverflow (i.qubits.length - 1) := by
  have hheight := height_le i
  refine ⟨fun n j h => h.le_three, fun family rules hrules => ?_, fun family gate h => ?_, ?_⟩
  · exact lower_eq_of_height_lt (by omega) (by rw [maxRules]; omega)
  · have hchain : FailsOnly (isChain · = false) (basis.lower family maxRules i) :=
      failsOnly_lower (Q := fun _ => True) (not_isChain_synthesize family)
        (fun _ _ _ hg _ => ⟨not_isChain_takeApart hg, fun _ _ _ _ => trivial⟩) maxRules trivial
        (.inr (.inl (by rw [maxRules]; omega)))
    cases hchain _ h
  · intro gate n m hs hv hnum hfew hprovides hentangles requested family hres
    obtain ⟨f, rfl⟩ := exists_family_of_resolveFamily hprovides hres
    intro x hx
    by_cases hover : gate.hasFreeLadder = true ∧ Ladder.wordBits < i.qubits.length
    · obtain ⟨hfree, hmany⟩ := hover
      cases hn : basis.contains i.name with
      | true => cases (lower_of_contains hn maxRules).symm.trans hx
      | false =>
        rw [lower_of_hasFreeLadder hs hfree hmany hn] at hx
        exact .inr ⟨hfree, hmany, (Except.error.inj hx).symm⟩
    · have hladder (hfree : gate.hasFreeLadder = true) : i.qubits.length ≤ Ladder.wordBits :=
        Nat.le_of_not_lt fun hmany => hover ⟨hfree, hmany⟩
      exact .inl (missed_lower hentangles f (lowerable_of_validate hs hv hnum hfew hladder)
        (by rw [maxRules]; omega) x hx)

/-- A turn with two controls. -/
def controlledTurn : Instruction Float :=
  .ofStandard (.mcu 2 (.const 1) (.const 2) (.const 3)) [2, 0, 1]

/-- It goes through blocks with a matrix and `cx` before it comes to `cz` and rotations. -/
theorem missed_lower_controlledTurn : controlledTurn.validate 3 0 = .ok () ∧
    Basis.cz.provides .zyz = true ∧ Basis.cz.Entangles ∧
    ∀ x, Basis.cz.lower (some .zyz) maxRules controlledTurn = .error x → Missed x := by
  have hprovides : Basis.cz.provides .zyz = true := by decide
  have hentangles : Basis.cz.Entangles := .inr (.inl (by decide))
  refine ⟨rfl, hprovides, hentangles, fun x hx => ?_⟩
  refine ((lower_gets_through Basis.cz controlledTurn).2.2.2 (.mcu 2 (.const 1) (.const 2) (.const 3)) 3 0
    rfl rfl ?_ ?_ ⟨.zyz, hprovides⟩ hentangles none (some .zyz) rfl x hx).resolve_right nofun
  · simp [StandardGate.angles, Angle.value?]
  · rintro k θ φ ψ ⟨⟩
    decide

/-- A bit flip with as many controls as a word has bits. -/
def wordOfControls : Instruction Float := .ofStandard (.mcx 64) (List.range 65)

/-- It is accepted and has no angle, and still it is not lowered, however complete the basis is. -/
theorem overflow_lower_wordOfControls : wordOfControls.validate 65 0 = .ok () ∧
    Basis.cz.provides .zyz = true ∧ Basis.cz.Entangles ∧
    Basis.cz.lower (some .zyz) maxRules wordOfControls = .error (.ladderOverflow 64) :=
  ⟨rfl, by decide, .inr (.inl (by decide)), lower_of_hasFreeLadder rfl rfl (by decide) (by decide)⟩

end Basis

end QuantumCompiler
