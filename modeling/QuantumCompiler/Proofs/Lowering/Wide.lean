import QuantumCompiler.Lowering.Native
import QuantumCompiler.Proofs.Instruction
import QuantumCompiler.Proofs.Lowering.Basic
import QuantumCompiler.Proofs.Synthesis.Shannon

/-!
# Pieces of wide operations

Every gate that a wide gate is split into acts on one or two operands of the source, names none of them
twice and passes the check of its operand count. This does not depend on what the numbers do: it is a
matter of the positions that networks, ladders and decompositions name. `SplitInto` lists the ways to
split a gate.
-/
namespace QuantumCompiler

variable {R : Type}

/-- A gate on one or two of the given qubits that passes the check of its operands. -/
structure Instruction.Narrow (j : Instruction R) (qs : List Qubit) : Prop where
  gate : j.isGate = true
  clbits : j.clbits = []
  arity : j.checkArity = .ok ()
  subset : ∀ q ∈ j.qubits, q ∈ qs
  distinct : j.qubits.Nodup
  pos : 0 < j.qubits.length
  le : j.qubits.length ≤ 2

namespace Instruction

theorem Narrow.mono {j : Instruction R} {qs rs : List Qubit} (h : j.Narrow qs)
    (hs : ∀ q ∈ qs, q ∈ rs) : j.Narrow rs :=
  ⟨h.gate, h.clbits, h.arity, fun q hq => hs q (h.subset q hq), h.distinct, h.pos, h.le⟩

/-- A piece on the qubits of an accepted instruction is accepted. -/
theorem Narrow.validate {i j : Instruction R} {n m : Nat} (h : j.Narrow i.qubits)
    (hi : i.validate n m = .ok ()) : j.validate n m = .ok () := by
  have hf := fits_of_validate hi
  refine validate_eq_ok.mpr ⟨h.arity, fun q hq => hf.qubits q (h.subset q hq), ?_, h.distinct⟩
  rw [h.clbits]
  simp

theorem Narrow.mem_wires {i j : Instruction R} (h : j.Narrow i.qubits) {w : Wire}
    (hw : w ∈ j.wires) : w ∈ i.wires := by
  rcases Instruction.mem_wires.mp hw with ⟨q, hq, rfl⟩ | ⟨c, hc, -⟩
  · exact Instruction.mem_wires.mpr (.inl ⟨q, h.subset q hq, rfl⟩)
  · rw [h.clbits] at hc
    cases hc

section Standard

variable {g : StandardGate R} {q a b : Qubit} {qs : List Qubit}

theorem narrow_one (hg : g.numQubits = 1) (hq : q ∈ qs) : (ofStandard g [q]).Narrow qs := by
  refine ⟨rfl, rfl, ?_, by simp [ofStandard, ofGate, hq], by simp [ofStandard, ofGate],
    by simp [ofStandard, ofGate], by simp [ofStandard, ofGate]⟩
  rw [checkArity_of_standard? (g := g) rfl, hg]
  rfl

theorem narrow_two (hg : g.numQubits = 2) (ha : a ∈ qs) (hb : b ∈ qs) (hab : a ≠ b) :
    (ofStandard g [a, b]).Narrow qs := by
  refine ⟨rfl, rfl, ?_, by simp [ofStandard, ofGate, ha, hb], by simp [ofStandard, ofGate, hab],
    by simp [ofStandard, ofGate], by simp [ofStandard, ofGate]⟩
  rw [checkArity_of_standard? (g := g) rfl, hg]
  rfl

end Standard

/-- A matrix of the right size on one or two operands. -/
theorem narrow_block {name : String} {matrix : List (Cx R)} {label : Option String}
    {operands qs : List Qubit} {n : Nat} (hlen : operands.length = n)
    (hm : matrix.length = 4 ^ n) (hs : ∀ q ∈ operands, q ∈ qs) (hd : operands.Nodup)
    (hpos : 0 < n) (hle : n ≤ 2) :
    (ofGate ⟨.custom ⟨name, n, [], some matrix⟩, label⟩ operands).Narrow qs := by
  subst hlen
  refine ⟨rfl, rfl, ?_, hs, hd, hpos, hle⟩
  have hmin : min operands.length maxIndex = operands.length := by
    rw [maxIndex]
    omega
  have hsize : CustomGate.checkMatrix operands.length matrix = .ok () :=
    CustomGate.checkMatrix_eq_ok.mpr ⟨by omega, hm⟩
  simp [checkArity, ofGate, Gate.numQubits, hmin, hsize]

end Instruction

/-! ## Ladders -/

/-- The controls of a step are among the first `n`. -/
def LadderStep.Within (n : Nat) : LadderStep → Prop
  | cx control target => control < n ∧ target < n ∧ control ≠ target
  | turn _ control => control < n

namespace Ladder

theorem lt_of_mem_active {n pattern k : Nat} (h : k ∈ active n pattern) : k < n :=
  List.mem_range.mp (List.mem_of_mem_filter h)

theorem nodup_active (n pattern : Nat) : (active n pattern).Nodup := List.nodup_range.filter _

theorem within_gather {n : Nat} {changed set : List Nat} (hc : ∀ k ∈ changed, k < n)
    (hs : ∀ k ∈ set, k < n) (hn : set.Nodup) : ∀ s ∈ gather changed set, s.Within n := by
  intro s h
  match set, changed with
  | [], _ => cases h
  | _ :: _, [] => cases h
  | first :: rest, c :: _ =>
    rw [gather] at h
    split at h
    · obtain ⟨k, hk, rfl⟩ := List.mem_map.mp h
      exact ⟨hs k (by simp [hk]), hs first (by simp),
        fun he => (List.nodup_cons.mp hn).1 (he ▸ hk)⟩
    · rename_i hne
      obtain rfl := List.mem_singleton.mp h
      exact ⟨hc c (by simp), hs first (by simp), hne⟩

theorem within_stage (n i : Nat) : ∀ s ∈ stage n i, s.Within n := by
  intro s h
  unfold stage at h
  simp only at h
  split at h
  · cases h
  · rename_i first rest hset
    have hfirst : first < n := lt_of_mem_active (hset ▸ List.mem_cons_self)
    rcases List.mem_append.mp h with h | h
    · split at h
      · cases h
      · exact within_gather (fun k => lt_of_mem_active) (fun k => lt_of_mem_active)
          (nodup_active n _) s h
    · obtain rfl := List.mem_singleton.mp h
      exact hfirst

theorem within_steps (n : Nat) : ∀ s ∈ steps n, s.Within n := by
  intro s h
  obtain ⟨i, -, h⟩ := List.mem_flatMap.mp h
  exact within_stage n (i + 1) s h

end Ladder

/-! ## Splitting -/

/-- A gate of none of the kinds that are split. -/
theorem StandardGate.isSplit_eq_false {g : StandardGate R} (hccx : g ≠ .ccx) (hcswap : g ≠ .cswap)
    (hmcx : ∀ n, g ≠ .mcx n) (hmcry : ∀ n θ, g ≠ .mcry n θ) (hmcu : ∀ n θ φ ψ, g ≠ .mcu n θ φ ψ) :
    g.isSplit = false := by
  cases g <;>
    first
    | rfl
    | exact absurd rfl hccx
    | exact absurd rfl hcswap
    | exact absurd rfl (hmcx _)
    | exact absurd rfl (hmcry _ _)
    | exact absurd rfl (hmcu _ _ _ _)

namespace Wide

open Instruction

section Ways

variable [Scalar R] {i : Instruction R} {g : Gate R} {l : List (Instruction R)} {controls : List Qubit}
  {target : Qubit}

/-- A ladder of controlled blocks: a matrix forwards and its adjoint backwards. -/
def controlledRoots (u : Mat2 R) (controls : List Qubit) (target : Qubit) :
    Compile R (List (Instruction R)) :=
  ladder controls fun odd control =>
    .ofGate (if odd then ⟨controlledBlock u, none⟩ else ⟨controlledBlock u.dagger, none⟩)
      [control, target]

/-- The ways to split the application of a gate, with what is known of the gate where that comes up. -/
inductive SplitInto (i : Instruction R) (g : Gate R) : List (Instruction R) → Prop
  | ccx {a b c : Qubit} {rest : List Qubit} (hq : i.qubits = a :: b :: c :: rest) :
    SplitInto i g (Wide.ccx a b c)
  | cswap {a b c : Qubit} {rest : List Qubit} (hq : i.qubits = a :: b :: c :: rest) :
    SplitInto i g (Wide.cswap a b c)
  | mcx {controls : List Qubit} {target : Qubit} {l : List (Instruction R)}
    (hq : i.qubits = controls ++ [target]) (hl : Wide.mcx controls target = .ok l) : SplitInto i g l
  | mcry {n : Nat} {θ : Angle R} {controls : List Qubit} {target : Qubit} {l : List (Instruction R)}
    (hkind : g.kind = .standard (.mcry n θ)) (hq : i.qubits = controls ++ [target])
    (hl : Wide.mcry θ controls target = .ok l) : SplitInto i g l
  | uncontrolled {n : Nat} {θ φ ψ : Angle R} {target : Qubit}
    (hkind : g.kind = .standard (.mcu n θ φ ψ)) (hq : i.qubits = [target]) :
    SplitInto i g [.ofStandard (.u θ φ ψ) [target]]
  | roots {controls : List Qubit} {target : Qubit} {l : List (Instruction R)} (u : Mat2 R)
    (hq : i.qubits = controls ++ [target]) (hne : controls ≠ [])
    (hl : controlledRoots u controls target = .ok l) : SplitInto i g l
  | dense {name : String} {matrix : List (Cx R)} {steps : List (ShannonStep R)}
    (hwide : 2 < i.qubits.length) (hsteps : Shannon.decompose name matrix i.qubits.length = .ok steps) :
    SplitInto i g (steps.map (ofShannonStep i.qubits))

omit [Scalar R] in
/-- The last operand is the target. -/
theorem eq_append_of_withTarget {name : String} {qs : List Qubit}
    {f : List Qubit → Qubit → Compile R (List (Instruction R))} (h : withTarget name qs f = .ok l) :
    ∃ controls target, qs = controls ++ [target] ∧ f controls target = .ok l := by
  unfold withTarget at h
  split at h
  · rename_i target ht
    exact ⟨_, target, (List.dropLast_append_getLast? target ht).symm, h⟩
  · cases h

omit [Scalar R] in
theorem withTarget_append (name : String) (f : List Qubit → Qubit → Compile R (List (Instruction R))) :
    withTarget name (controls ++ [target]) f = f controls target := by
  rw [withTarget, List.getLast?_concat, List.dropLast_concat]

theorem split_of_mcx {n : Nat} (hs : i.standard? = some (.mcx n)) (hq : i.qubits = controls ++ [target]) :
    split i = mcx controls target := by
  obtain ⟨g, hg, -⟩ := Option.bind_eq_some_iff.mp hs
  rw [split, gate?_eq_some.mp hg]
  simp only [splitGate, kind_of_standard? hg hs]
  rw [hq, withTarget_append]

theorem split_of_mcry {n : Nat} {θ : Angle R} (hs : i.standard? = some (.mcry n θ))
    (hq : i.qubits = controls ++ [target]) : split i = mcry θ controls target := by
  obtain ⟨g, hg, -⟩ := Option.bind_eq_some_iff.mp hs
  rw [split, gate?_eq_some.mp hg]
  simp only [splitGate, kind_of_standard? hg hs]
  rw [hq, withTarget_append]

theorem splitInto_of_mcu {n : Nat} {θ φ ψ : Angle R} (hkind : g.kind = .standard (.mcu n θ φ ψ))
    (hq : i.qubits = controls ++ [target]) (h : mcu θ φ ψ controls target = .ok l) :
    SplitInto i g l := by
  unfold mcu at h
  split at h
  · rename_i hempty
    obtain rfl := List.isEmpty_iff.mp hempty
    obtain rfl := Except.ok.inj h
    exact .uncontrolled hkind hq
  · rename_i hne
    obtain ⟨x, -, h⟩ := Outcome.bind_eq_ok.mp h
    obtain ⟨y, -, h⟩ := Outcome.bind_eq_ok.mp h
    obtain ⟨z, -, h⟩ := Outcome.bind_eq_ok.mp h
    split at h
    · cases h
    · exact .roots _ hq (by simpa using hne) h

/-- A gate is split, or it is a standard gate of no kind to be split on few qubits and is kept. -/
theorem splitInto_or_kept (h : splitGate i g = .ok l) : SplitInto i g l ∨
    l = [i] ∧ i.qubits.length ≤ 2 ∧ ∃ gate, g.kind = .standard gate ∧ gate.isSplit = false := by
  -- one case for each way to split, in their order
  unfold splitGate at h
  split at h
  · exact .inl (Except.ok.inj h ▸ .ccx (by assumption))
  · exact .inl (Except.ok.inj h ▸ .cswap (by assumption))
  · cases h
  · cases h
  · obtain ⟨controls, target, hq, h⟩ := eq_append_of_withTarget h
    exact .inl (.mcx hq h)
  · rename_i hkind
    obtain ⟨controls, target, hq, h⟩ := eq_append_of_withTarget h
    exact .inl (.mcry hkind hq h)
  · rename_i hkind
    obtain ⟨controls, target, hq, h⟩ := eq_append_of_withTarget h
    exact .inl (splitInto_of_mcu hkind hq h)
  · rename_i hq
    rw [← hq] at h
    split at h
    · obtain ⟨steps, hsteps, h⟩ := Outcome.bind_eq_ok.mp h
      exact .inl (Except.ok.inj h ▸ .dense (by simp [hq]) hsteps)
    · cases h
  · rename_i gate hccx hcswap hmcx hmcry hmcu hkind _ _
    split at h
    · rename_i hle
      exact .inr ⟨(Except.ok.inj h).symm, hle, gate, hkind,
        gate.isSplit_eq_false hccx hcswap hmcx hmcry hmcu⟩
    · cases h
  · cases h

/-- A gate that is wide or of a kind to be split is not kept. -/
theorem splitInto_of_splitGate
    (hw : 2 < i.qubits.length ∨ ∃ gate, g.kind = .standard gate ∧ gate.isSplit = true)
    (h : splitGate i g = .ok l) : SplitInto i g l := by
  refine (splitInto_or_kept h).resolve_right ?_
  rintro ⟨-, hle, gate, hkind, hnot⟩
  rcases hw with hlt | ⟨gate', hkind', hsplit⟩
  · exact absurd hle (Nat.not_le.mpr hlt)
  · obtain rfl := GateKind.standard.inj (hkind.symm.trans hkind')
    cases hnot.symm.trans hsplit

end Ways

section Network

variable {a b c : Qubit} {qs : List Qubit}

theorem narrow_cx (ha : a ∈ qs) (hb : b ∈ qs) (hab : a ≠ b) :
    (cx a b : Instruction R).Narrow qs := narrow_two rfl ha hb hab

theorem narrow_ccx (ha : a ∈ qs) (hb : b ∈ qs) (hc : c ∈ qs) (hab : a ≠ b) (hac : a ≠ c)
    (hbc : b ≠ c) : ∀ j ∈ (ccx a b c : List (Instruction R)), j.Narrow qs := by
  simp only [ccx, List.forall_mem_cons, narrow_cx ha hb hab, narrow_cx ha hc hac,
    narrow_cx hb hc hbc, true_and]
  refine ⟨?_, ?_, ?_, ?_, ?_, ?_, ?_, ?_, ?_, by simp⟩
  all_goals first | exact narrow_one rfl hc | exact narrow_one rfl hb | exact narrow_one rfl ha

theorem narrow_cswap (ha : a ∈ qs) (hb : b ∈ qs) (hc : c ∈ qs) (hab : a ≠ b) (hac : a ≠ c)
    (hbc : b ≠ c) : ∀ j ∈ (cswap a b c : List (Instruction R)), j.Narrow qs := by
  intro j hj
  rw [cswap, List.mem_append, List.mem_append, List.mem_singleton] at hj
  rcases hj with (rfl | hj) | rfl
  · exact narrow_cx hc hb hbc.symm
  · exact narrow_ccx ha hb hc hab hac hbc j hj
  · exact narrow_cx hc hb hbc.symm

end Network

section Controlled

variable {controls qs : List Qubit} {target : Qubit}

/-- There is a ladder over fewer controls than a word has bits. -/
theorem ladder_eq_ok {turn : Bool → Qubit → Instruction R} {l : List (Instruction R)} :
    ladder controls turn = .ok l ↔ controls.length < Ladder.wordBits ∧ rungs controls turn = l := by
  unfold ladder
  split <;> simp_all

theorem ladder_eq_error {turn : Bool → Qubit → Instruction R} {x : CompileError R} :
    ladder controls turn = .error x ↔
      Ladder.wordBits ≤ controls.length ∧ x = .ladderOverflow controls.length := by
  unfold ladder
  split <;> simp_all [eq_comm]

theorem forall_ladder {P : Instruction R → Prop} (hcx : ∀ a b, P (cx a b))
    {turn : Bool → Qubit → Instruction R} (hturn : ∀ odd c, P (turn odd c))
    {l : List (Instruction R)} (h : ladder controls turn = .ok l) : ∀ j ∈ l, P j := by
  obtain ⟨-, rfl⟩ := ladder_eq_ok.mp h
  intro j hj
  obtain ⟨s, -, rfl⟩ := List.mem_map.mp hj
  cases s with
  | cx control tgt => exact hcx _ _
  | turn odd control => exact hturn odd _

/-- A ladder stays on its controls, apart from its turns. -/
theorem narrow_ladder (hn : controls.Nodup) (hs : ∀ c ∈ controls, c ∈ qs)
    {turn : Bool → Qubit → Instruction R} {l : List (Instruction R)}
    (hturn : ∀ odd, ∀ c ∈ controls, (turn odd c).Narrow qs) (h : ladder controls turn = .ok l) :
    ∀ j ∈ l, j.Narrow qs := by
  have hget (k : Nat) (hk : k < controls.length) : controls.getD k 0 = controls[k] := by
    simp [List.getD_eq_getElem?_getD, hk]
  obtain ⟨-, rfl⟩ := ladder_eq_ok.mp h
  intro j hj
  obtain ⟨s, hstep, rfl⟩ := List.mem_map.mp hj
  have hw := Ladder.within_steps controls.length s hstep
  cases s with
  | cx control tgt =>
    obtain ⟨h₁, h₂, hne⟩ := hw
    simp only [hget control h₁, hget tgt h₂]
    refine narrow_cx (hs _ (List.getElem_mem h₁)) (hs _ (List.getElem_mem h₂)) ?_
    exact fun he => hne ((List.Nodup.getElem_inj_iff hn).mp he)
  | turn odd control =>
    have hlt : control < controls.length := hw
    simp only [hget control hlt]
    exact hturn odd _ (List.getElem_mem hlt)

theorem ne_target (hn : (controls ++ [target]).Nodup) {c : Qubit} (hc : c ∈ controls) :
    c ≠ target := by
  rw [List.nodup_append] at hn
  exact hn.2.2 c hc target (by simp)

variable [Scalar R] {l : List (Instruction R)} (hn : (controls ++ [target]).Nodup)
  (hs : ∀ c ∈ controls, c ∈ qs) (ht : target ∈ qs)

include hn hs ht

theorem narrow_mcx (h : mcx controls target = .ok l) : ∀ j ∈ l, j.Narrow qs := by
  have hne {c : Qubit} (hc : c ∈ controls) : c ≠ target := ne_target hn hc
  have hnd : controls.Nodup := (List.nodup_append.mp hn).1
  unfold mcx at h
  split at h
  · obtain rfl := Except.ok.inj h
    exact List.forall_mem_singleton.mpr (narrow_one rfl ht)
  · obtain rfl := Except.ok.inj h
    exact List.forall_mem_singleton.mpr (narrow_cx (hs _ (by simp)) ht (hne (by simp)))
  · rename_i a b
    obtain rfl := Except.ok.inj h
    refine narrow_ccx (hs a (by simp)) (hs b (by simp)) ht ?_ (hne (by simp)) (hne (by simp))
    exact fun he => (List.nodup_cons.mp hnd).1 (by simp [he])
  · obtain ⟨phase, hphase, h⟩ := Outcome.bind_eq_ok.mp h
    obtain rfl := Except.ok.inj h
    have hmiddle := narrow_ladder hnd hs (fun _ c hc => narrow_two rfl (hs c hc) ht (hne hc)) hphase
    intro j hj
    rw [List.mem_append, List.mem_append, List.mem_singleton] at hj
    rcases hj with (rfl | hj) | rfl
    · exact narrow_one rfl ht
    · exact hmiddle j hj
    · exact narrow_one rfl ht

theorem narrow_mcry {θ : Angle R} (h : mcry θ controls target = .ok l) : ∀ j ∈ l, j.Narrow qs := by
  have hne {c : Qubit} (hc : c ∈ controls) : c ≠ target := ne_target hn hc
  have hnd : controls.Nodup := (List.nodup_append.mp hn).1
  unfold mcry at h
  split at h
  · obtain rfl := Except.ok.inj h
    exact List.forall_mem_singleton.mpr (narrow_one rfl ht)
  · obtain rfl := Except.ok.inj h
    exact List.forall_mem_singleton.mpr (narrow_two rfl (hs _ (by simp)) ht (hne (by simp)))
  · exact narrow_ladder hnd hs (fun _ c hc => narrow_two rfl (hs c hc) ht (hne hc)) h

theorem narrow_controlledRoots {u : Mat2 R} (h : controlledRoots u controls target = .ok l) :
    ∀ j ∈ l, j.Narrow qs := by
  have hne {c : Qubit} (hc : c ∈ controls) : c ≠ target := ne_target hn hc
  refine narrow_ladder (List.nodup_append.mp hn).1 hs (fun odd c hc => ?_) h
  have hon : ∀ q ∈ [c, target], q ∈ qs := by simp [hs c hc, ht]
  cases odd
  · exact narrow_block rfl (by simp [Square4.toList]) hon (by simp [hne hc]) (by simp) le_rfl
  · exact narrow_block rfl (by simp [Square4.toList]) hon (by simp [hne hc]) (by simp) le_rfl

end Controlled

/-- A step of a decomposition on the operands of its gate. -/
theorem narrow_ofShannonStep {operands : List Qubit} (hn : operands.Nodup) {s : ShannonStep R}
    (h : s.On (List.range operands.length)) : (ofShannonStep operands s).Narrow operands := by
  have hget (k : Nat) (hk : k < operands.length) : operands.getD k 0 = operands[k] := by
    simp [List.getD_eq_getElem?_getD, hk]
  have hmem {k : Nat} (hk : k ∈ s.qubits) : operands.getD k 0 ∈ operands := by
    have hlt := List.mem_range.mp (h.subset k hk)
    rw [hget k hlt]
    exact List.getElem_mem hlt
  have hinj {k l : Nat} (hk : k ∈ s.qubits) (hl : l ∈ s.qubits)
      (he : operands.getD k 0 = operands.getD l 0) : k = l := by
    rw [hget k (List.mem_range.mp (h.subset k hk)), hget l (List.mem_range.mp (h.subset l hl))] at he
    exact (List.Nodup.getElem_inj_iff hn).mp he
  cases s with
  | ry q θ => exact narrow_one rfl (hmem (by simp [ShannonStep.qubits]))
  | rz q θ => exact narrow_one rfl (hmem (by simp [ShannonStep.qubits]))
  | cx control target =>
    have hd : control ≠ target := by simpa [ShannonStep.qubits] using h.nodup
    refine narrow_cx (hmem (by simp [ShannonStep.qubits])) (hmem (by simp [ShannonStep.qubits])) ?_
    exact fun he => hd (hinj (by simp [ShannonStep.qubits]) (by simp [ShannonStep.qubits]) he)
  | block ks matrix =>
    refine narrow_block (by simp) (h.square ks matrix rfl) ?_ ?_ h.pos h.narrow
    · intro q hq
      obtain ⟨k, hk, rfl⟩ := List.mem_map.mp hq
      exact hmem hk
    · exact h.nodup.map_on fun k hk l hl he => hinj hk hl he

section Split

variable [Scalar R] {i : Instruction R} {g : Gate R} {l : List (Instruction R)}

/-- A gate that is wide or of a kind to be split becomes narrow gates on its operands. -/
theorem narrow_splitGate (hd : i.qubits.Nodup)
    (hw : 2 < i.qubits.length ∨ ∃ gate, g.kind = .standard gate ∧ gate.isSplit = true)
    (h : splitGate i g = .ok l) : ∀ j ∈ l, j.Narrow i.qubits := by
  cases splitInto_of_splitGate hw h with
  | @ccx a b c rest hq =>
    rw [hq] at hd ⊢
    simp only [List.nodup_cons, List.mem_cons, not_or] at hd
    exact narrow_ccx (by simp) (by simp) (by simp) hd.1.1 hd.1.2.1 hd.2.1.1
  | @cswap a b c rest hq =>
    rw [hq] at hd ⊢
    simp only [List.nodup_cons, List.mem_cons, not_or] at hd
    exact narrow_cswap (by simp) (by simp) (by simp) hd.1.1 hd.1.2.1 hd.2.1.1
  | mcx hq hl =>
    rw [hq] at hd ⊢
    exact narrow_mcx hd (fun c => List.mem_append_left _) (by simp) hl
  | mcry _ hq hl =>
    rw [hq] at hd ⊢
    exact narrow_mcry hd (fun c => List.mem_append_left _) (by simp) hl
  | uncontrolled _ hq =>
    rw [hq]
    exact List.forall_mem_singleton.mpr (narrow_one rfl (.head _))
  | roots u hq _ hl =>
    rw [hq] at hd ⊢
    exact narrow_controlledRoots hd (fun c => List.mem_append_left _) (by simp) hl
  | dense hwide hsteps =>
    intro j hj
    obtain ⟨s, hs, rfl⟩ := List.mem_map.mp hj
    exact narrow_ofShannonStep hd (Shannon.on_decompose (by omega) hsteps s hs)

/-- A wide operation becomes narrow gates on its operands, or measurements of its qubits one by
one. -/
theorem narrow_or_measure_of_split (hd : i.qubits.Nodup) (hw : isWide i = true)
    (h : split i = .ok l) :
    ∀ j ∈ l, j.Narrow i.qubits ∨ ∃ q ∈ i.qubits, ∃ c ∈ i.clbits, j = .measure q c := by
  obtain ⟨operation, qs, cs⟩ := i
  cases operation with
  | gate g => exact fun j hj => .inl (narrow_splitGate hd (.inl (by simpa [isWide] using hw)) h j hj)
  | measure =>
    obtain rfl := Except.ok.inj h
    intro j hj
    rw [← List.map_uncurry_zip_eq_zipWith] at hj
    obtain ⟨⟨q, c⟩, hqc, rfl⟩ := List.mem_map.mp hj
    obtain ⟨hq, hc⟩ := List.of_mem_zip hqc
    exact .inr ⟨q, hq, c, hc, rfl⟩
  | reset => cases hw
  | barrier => cases hw
  | delay duration => cases hw

end Split

/-! ## Splitting a graph -/

section SplitAll

variable [Scalar R] {d e : Dag R} {es : Dag.Entries R}

/-- What an instruction is split into, with no phase left over. -/
def parts (i : Instruction R) : Compile R (Lowered R) := return .ofList (← split i)

/-- The parts of a wide operation may stand in its place. -/
theorem replaces_of_parts (h : d.Reads es) {id : Nat} {i : Instruction R} (hi : (id, i) ∈ es)
    (hw : isWide i = true) {l : Lowered R} (hl : parts i = .ok l) :
    ∀ j ∈ l.instructions, Dag.Replaces d.numQubits d.numClbits i j := by
  have hv := h.valid _ hi
  have hf := h.fits hi
  obtain ⟨is, his, hl⟩ := Outcome.bind_eq_ok.mp hl
  obtain rfl := Except.ok.inj hl
  intro j hj
  rcases narrow_or_measure_of_split hf.distinct hw his j hj with hn | ⟨q, hq, c, hc, rfl⟩
  · exact ⟨hn.validate hv, fun w hw => hn.mem_wires hw, by simp [hn.clbits]⟩
  · refine ⟨validate_eq_ok.mpr ⟨rfl, ?_, ?_, ?_⟩, ?_, by simp [Instruction.measure]⟩
    · simpa [Instruction.measure] using hf.qubits q hq
    · simpa [Instruction.measure] using hf.clbits c hc
    · simp [Instruction.measure]
    · intro w hw
      rcases mem_wires.mp hw with ⟨p, hp, rfl⟩ | ⟨b, hb, rfl⟩
      · exact mem_wires.mpr (.inl ⟨q, hq, by simpa [Instruction.measure] using hp⟩)
      · exact mem_wires.mpr (.inr ⟨c, hc, by simpa [Instruction.measure] using hb⟩)

theorem replaces_of_isWide (h : d.Reads es) : ∀ x ∈ es, isWide x.2 = true → ∀ l,
    parts x.2 = .ok l → ∀ j ∈ l.instructions, Dag.Replaces d.numQubits d.numClbits x.2 j :=
  fun _ hx hw _ hl => replaces_of_parts h hx hw hl

/-- Splitting a graph splits its list. -/
theorem reads_splitAll (h : d.Reads es) (he : splitAll d = .ok e) :
    ∃ es', e.Reads es' ∧ es'.map (·.2) = Dag.lowerList isWide parts (es.map (·.2)) ∧
      Dag.SameFrame d e ∧
      ∀ x ∈ es, isWide x.2 = true → Dag.Lowers parts x.2 := by
  obtain ⟨⟨e', phases⟩, hrun, he⟩ := Outcome.bind_eq_ok.mp he
  obtain rfl := Except.ok.inj he
  rcases h.lowerWhere (replaces_of_isWide h) with
    ⟨f, es', hf, hr, hes, hframe, hall⟩ | ⟨x, hx, -⟩
  · obtain rfl := (Prod.mk.inj (Except.ok.inj (hf.symm.trans hrun))).1
    exact ⟨es', hr, hes, hframe, hall⟩
  · cases hx.symm.trans hrun

/-- A graph without wide operations is left alone. -/
theorem splitAll_eq_self (h : d.Reads es) (hn : ∀ x ∈ es, isWide x.2 = false) :
    splitAll d = .ok d := by
  have hfilter : (es.filter fun x => isWide x.2) = [] :=
    List.filter_eq_nil_iff.mpr fun x hx => by simp [hn x hx]
  rw [splitAll, Dag.lowerWhere, h.topologicalOps_eq]
  change ((es.filter fun x => isWide x.2).foldlM _ (d, []) >>= _) = _
  rw [hfilter]
  rfl

/-- After splitting, what acts on qubits only and on one at least acts on one or two. -/
theorem hasOnly_splitAll (h : d.HasOnly Plain) (he : splitAll d = .ok e) :
    e.HasOnly fun i => i.Plain ∧ (i.isGate = true → i.qubits.length ≤ 2) := by
  obtain ⟨es, hr⟩ := h.reachable.exists_reads
  obtain ⟨es', hr', hes, -, hall⟩ := reads_splitAll hr he
  rw [hr'.hasOnly_iff, hes]
  intro j hj
  rcases Dag.mem_lowerList hj with ⟨hj, hnot⟩ | ⟨i, hi, hw, hj⟩
  · refine ⟨hr.hasOnly_iff.mp h j hj, fun hg => ?_⟩
    obtain ⟨g, hg⟩ := Option.isSome_iff_exists.mp hg
    rw [isWide, gate?_eq_some.mp hg] at hnot
    simpa using hnot
  · obtain ⟨x, hx, rfl⟩ := List.mem_map.mp hi
    obtain ⟨is, his, hl⟩ := Outcome.bind_eq_ok.mp (hall x hx hw).eq
    rw [← Except.ok.inj hl] at hj
    rcases narrow_or_measure_of_split (hr.fits hx).distinct hw his j hj with hn | ⟨q, -, c, -, rfl⟩
    · exact ⟨fun _ => ⟨hn.clbits, List.ne_nil_of_length_pos hn.pos⟩, fun _ => hn.le⟩
    · exact ⟨nofun, nofun⟩

end SplitAll

end Wide

end QuantumCompiler
