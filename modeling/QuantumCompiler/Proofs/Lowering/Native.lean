import QuantumCompiler.Device.Shape
import QuantumCompiler.Proofs.Lowering.Size
import QuantumCompiler.Proofs.Numeric.Exact

/-!
# Lowering into a basis

Rules, synthesizers and splitting emit gates on the operands of the gate they take apart, and whatever is
not in the basis is taken apart again. So a lowered list stays on the wires of its source and is native,
whichever numbers come up. In place, this makes lowering a change of the list alone, and a second run
finds nothing to do.
-/
namespace QuantumCompiler

variable {R : Type} [Scalar R]

namespace Basis

variable {basis : Basis} {family : Option EulerFamily}

/-- The family is one that the basis provides. -/
def Provides (basis : Basis) (family : Option EulerFamily) : Prop :=
  ∀ f, family = some f → basis.provides f = true

omit [Scalar R] in
theorem provides_of_resolveFamily {requested : Option EulerFamily}
    (h : (basis.resolveFamily requested : Compile R _) = .ok family) : basis.Provides family := by
  intro f hf
  unfold resolveFamily at h
  split at h
  · split at h
    · rename_i hp
      rw [← Except.ok.inj h] at hf
      exact Option.some.inj hf ▸ hp
    · cases h
  · rw [← Except.ok.inj h] at hf
    exact List.find?_some hf

/-- What a gate is lowered to: narrow native gates on its operands. -/
def LowersOn (basis : Basis) (qs : List Qubit) (l : Lowered R) : Prop :=
  ∀ j ∈ l.instructions, j.Narrow qs ∧ basis.contains j.name = true

theorem lowersOn_synthesize (hf : basis.Provides family) {name : String} {u : Mat2 R} {q : Qubit}
    {l : Lowered R} (h : synthesize family name u q = .ok l) {qs : List Qubit} (hq : q ∈ qs) :
    basis.LowersOn qs l := by
  unfold synthesize at h
  split at h
  · cases h
  · rename_i f
    obtain ⟨s, hs, h⟩ := Outcome.bind_eq_ok.mp h
    obtain rfl := Except.ok.inj h
    intro j hj
    obtain ⟨g, hg, rfl⟩ := List.mem_map.mp hj
    obtain ⟨hone, hname⟩ := EulerFamily.emits_synthesize (Outcome.mapError_eq_ok.mp hs) g hg
    have hall := hf f rfl
    rw [provides, List.all_eq_true] at hall
    exact ⟨Instruction.narrow_one hone hq, hall _ hname⟩

omit [Scalar R] in
theorem lowersOn_append {qs : List Qubit} {l k : Lowered R} (h : basis.LowersOn qs l)
    (h' : basis.LowersOn qs k) : basis.LowersOn qs (l ++ k) := by
  intro j hj
  rcases List.mem_append.mp hj with hj | hj
  · exact h j hj
  · exact h' j hj

/-- A lowered operation of the basis is itself; any other is narrow native gates on its operands. -/
theorem lower_spec (hf : basis.Provides family) (rules : Nat) {i : Instruction R}
    (hd : i.qubits.Nodup) {l : Lowered R} (h : basis.lower family rules i = .ok l) :
    (l = .ofList [i] ∧ basis.contains i.name = true) ∨ basis.LowersOn i.qubits l := by
  induction rules using Nat.strong_induction_on generalizing i l with
  | h rules ih =>
    rcases stays_or_apart_of_lower h with hstays | ⟨-, r, hr, g, apart, hg, hapart, h⟩
    · exact .inl hstays
    · refine .inr (Outcome.foldlM_keeps (P := basis.LowersOn i.qubits) ?_ (by simp [LowersOn]) h)
      intro piece hp k k' hk hstep
      have hon := on_takeApart hg hd hapart piece hp
      obtain ⟨m, hm, hstep⟩ := Outcome.bind_eq_ok.mp hstep
      obtain rfl := Except.ok.inj hstep
      refine lowersOn_append hk ?_
      cases piece with
      | unitary name u q => exact lowersOn_synthesize hf hm hon
      | operation j =>
        have hj : j.Narrow i.qubits := hon
        rcases ih r hr hj.distinct hm with ⟨rfl, hname⟩ | hl
        · intro x hx
          obtain rfl := List.mem_singleton.mp hx
          exact ⟨hj, hname⟩
        · exact fun x hx => ⟨(hl x hx).1.mono hj.subset, (hl x hx).2⟩

/-! ## Lowering a graph -/

section LowerAll

variable {device : Device R} {d : Dag R} {es : Dag.Entries R}

/-- What an operation outside the basis is lowered to may stand in its place. -/
theorem replaces_of_lower (hf : device.basis.Provides family) (h : d.Reads es) {id : Nat}
    {i : Instruction R} (hi : (id, i) ∈ es) (hp : device.isNative i = false) {l : Lowered R}
    (hl : device.basis.lower family maxRules i = .ok l) :
    ∀ j ∈ l.instructions, Dag.Replaces d.numQubits d.numClbits i j := by
  rcases lower_spec hf maxRules (h.fits hi).distinct hl with ⟨-, hn⟩ | hon
  · rw [Device.isNative, hn] at hp
    cases hp
  · intro j hj
    have hn := (hon j hj).1
    exact ⟨hn.validate (h.valid _ hi), fun w hw => hn.mem_wires hw, by simp [hn.clbits]⟩

/-- The instructions that an instruction is lowered to by the rules of a device. -/
def lowered (device : Device R) (family : Option EulerFamily) (i : Instruction R) :
    List (Instruction R) :=
  (Dag.lowering (device.basis.lower family maxRules) i).instructions

/-- A list with every instruction that a device does not execute replaced by what it is lowered
to. -/
def loweredList (device : Device R) (family : Option EulerFamily) (is : List (Instruction R)) :
    List (Instruction R) :=
  is.flatMap fun i => if device.isNative i then [i] else lowered device family i

theorem lowerList_eq (family : Option EulerFamily) (is : List (Instruction R)) :
    Dag.lowerList (fun i => !device.isNative i) (device.basis.lower family maxRules) is =
      loweredList device family is := by
  rw [Dag.lowerList, loweredList]
  congr 1
  funext i
  cases device.isNative i <;> rfl

/-- A native list is left alone. -/
theorem loweredList_eq_self {is : List (Instruction R)} (h : ∀ i ∈ is, device.isNative i = true) :
    loweredList device family is = is := by
  rw [← lowerList_eq]
  exact Dag.lowerList_eq_self fun i hi => by simp [h i hi]

/-- Lowering a graph lowers its list. It fails only where no family or no rule fits, or where an
operation has more parts than there are positions under one. -/
theorem reads_lowerAll (device : Device R) (requested : Option EulerFamily) (h : d.Reads es) :
    (∃ family e es', (device.basis.resolveFamily requested : Compile R _) = .ok family ∧
      lowerAll device requested d = .ok e ∧ e.Reads es' ∧
      es'.map (·.2) = loweredList device family (es.map (·.2)) ∧
      e.numQubits = d.numQubits ∧ e.numClbits = d.numClbits ∧
      (∃ phases, e.phase = Scalar.remEuclid (d.phase + Scalar.sum phases) Scalar.tau ∧
        ((∀ x ∈ es, device.isNative x.2 = true) → phases = [])) ∧
      ∀ x ∈ es, device.isNative x.2 = false →
        Dag.Lowers (device.basis.lower family maxRules) x.2) ∨
    ∃ x, lowerAll device requested d = .error x ∧
      ((device.basis.resolveFamily requested : Compile R _) = .error x ∨
        ∃ family, (device.basis.resolveFamily requested : Compile R _) = .ok family ∧
          ∃ y ∈ es, device.isNative y.2 = false ∧
            Dag.Refuses (device.basis.lower family maxRules) y.2 x) := by
  cases hres : (device.basis.resolveFamily requested : Compile R (Option EulerFamily)) with
  | error x =>
    refine .inr ⟨x, ?_, .inl rfl⟩
    rw [lowerAll, hres]
    rfl
  | ok family =>
    have hf := provides_of_resolveFamily hres
    have hrep : ∀ x ∈ es, (!device.isNative x.2) = true → ∀ l,
        device.basis.lower family maxRules x.2 = .ok l →
        ∀ j ∈ l.instructions, Dag.Replaces d.numQubits d.numClbits x.2 j :=
      fun x hx hp l hl => replaces_of_lower hf h hx (by simpa using hp) hl
    rcases @Dag.Reads.lowerWhere R _ (fun i => !device.isNative i)
      (device.basis.lower family maxRules) d es h hrep with ⟨e, es', he, hr, hes, hs, hall⟩ | ⟨x, hx, y, hy, hp, hyx⟩
    · set phases := Dag.loweredPhases (fun i => !device.isNative i)
        (device.basis.lower family maxRules) (es.map (·.2)) with hphases
      refine .inl ⟨family, e.addPhase (Scalar.sum phases), es', rfl, ?_, hr.withPhase _, ?_,
        hs.numQubits, hs.numClbits, ⟨phases, ?_, ?_⟩, ?_⟩
      · rw [lowerAll, hres]
        change (d.lowerWhere _ _ >>= _) = _
        rw [he]
        rfl
      · rw [hes, lowerList_eq]
      · rw [← hs.phase]
        rfl
      · intro hnative
        refine Dag.loweredPhases_eq_nil fun i hi => ?_
        obtain ⟨x, hx, rfl⟩ := List.mem_map.mp hi
        simp [hnative x hx]
      · exact fun x hx hp => hall x hx (by simp [hp])
    · refine .inr ⟨x, ?_, .inr ⟨family, rfl, y, hy, by simpa using hp, hyx⟩⟩
      rw [lowerAll, hres]
      change (d.lowerWhere _ _ >>= _) = _
      rw [hx]
      rfl

/-- After lowering every instruction is native. -/
theorem native_of_mem_loweredList (hf : device.basis.Provides family) (h : d.Reads es)
    (hok : ∀ x ∈ es, device.isNative x.2 = false →
      Dag.Lowers (device.basis.lower family maxRules) x.2) :
    ∀ j ∈ loweredList device family (es.map (·.2)), device.isNative j = true := by
  intro j hj
  obtain ⟨i, hi, hj⟩ := List.mem_flatMap.mp hj
  split at hj
  · obtain rfl := List.mem_singleton.mp hj
    assumption
  · rename_i hn
    obtain ⟨x, hx, rfl⟩ := List.mem_map.mp hi
    rcases lower_spec hf maxRules (h.fits hx).distinct (hok x hx (by simpa using hn)).eq with
      ⟨-, hc⟩ | hon
    · exact absurd hc hn
    · exact (hon j hj).2

/-- Lowering succeeds where every instruction that is not native can be lowered. -/
theorem exists_lowerAll {requested : Option EulerFamily}
    (hres : (device.basis.resolveFamily requested : Compile R _) = .ok family) (h : d.Reads es)
    (hl : ∀ x ∈ es, device.isNative x.2 = false → ∃ l,
      device.basis.lower family maxRules x.2 = .ok l ∧ l.instructions.length ≤ maxIndex) :
    ∃ e, lowerAll device requested d = .ok e := by
  rcases reads_lowerAll device requested h with ⟨-, e, -, -, he, -⟩ | ⟨x, -, hx | hx⟩
  · exact ⟨e, he⟩
  · cases hx.symm.trans hres
  · obtain ⟨family', hres', y, hy, hn, hrefuses⟩ := hx
    obtain rfl := Except.ok.inj (hres'.symm.trans hres)
    obtain ⟨l, hlow, hlen⟩ := hl y hy hn
    rcases hrefuses with herror | ⟨l', hl', hlt, -⟩
    · cases herror.symm.trans hlow
    · obtain rfl := Except.ok.inj (hl'.symm.trans hlow)
      omega

/-- What holds of a gate and of all narrow gates on its operands is kept. -/
theorem hasOnly_lowerAll {P : Instruction R → Prop} {requested : Option EulerFamily}
    (hP : ∀ i j, i.isGate = true → P i → j.Narrow i.qubits → P j) (h : d.HasOnly P) {e : Dag R}
    (he : lowerAll device requested d = .ok e) :
    e.HasOnly fun i => P i ∧ device.isNative i = true := by
  obtain ⟨es, hr⟩ := h.reachable.exists_reads
  rcases reads_lowerAll device requested hr with
    ⟨family, e', es', hres, he', hr', hes, -, -, -, hok⟩ | ⟨x, hx, -⟩
  · obtain rfl : e' = e := Except.ok.inj (he'.symm.trans he)
    have hf := provides_of_resolveFamily hres
    rw [hr'.hasOnly_iff, hes]
    refine fun j hj => ⟨?_, native_of_mem_loweredList hf hr hok j hj⟩
    obtain ⟨i, hi, hj⟩ := List.mem_flatMap.mp hj
    have hi' := hr.hasOnly_iff.mp h i hi
    split at hj
    · obtain rfl := List.mem_singleton.mp hj
      exact hi'
    · rename_i hn
      obtain ⟨x, hx, rfl⟩ := List.mem_map.mp hi
      rcases lower_spec hf maxRules (hr.fits hx).distinct (hok x hx (by simpa using hn)).eq with
        ⟨-, hc⟩ | hon
      · exact absurd hc hn
      · exact hP x.2 j (isGate_of_contains_eq_false (Bool.eq_false_iff.mpr hn)) hi' (hon j hj).1
  · cases hx.symm.trans he

end LowerAll

/-- Lowering into a basis replaces instructions in place. When it succeeds, every instruction that is
not native has given way to its own lowered list, which stays on its wires, all others are where they
were, and the result is native; a second run changes neither the sequence nor, up to full turns, the
phase. If lowering fails, the requested family is missing or some instruction cannot be lowered, or an
instruction on more than `maxOperands` operands becomes more operations than there are positions under
one. -/
theorem lowers_of_lowerAll (device : Device R) (requested : Option EulerFamily) {d : Dag R}
    (h : d.Reachable) :
    ∃ is, d.linearize = .ok is ∧
      (∀ e, lowerAll device requested d = .ok e → ∃ family js,
        (device.basis.resolveFamily requested : Compile R _) = .ok family ∧ e.Reachable ∧
        (∀ i ∈ is, device.isNative i = false →
          (∃ phases, device.basis.lower family maxRules i =
            .ok ⟨lowered device family i, phases⟩) ∧
          ∀ j ∈ lowered device family i, ∀ w ∈ j.wires, w ∈ i.wires) ∧
        e.linearize = .ok js ∧
        js = is.flatMap (fun i => if device.isNative i then [i] else lowered device family i) ∧
        (∀ j ∈ js, device.isNative j = true) ∧
        ∃ e', lowerAll device requested e = .ok e' ∧ e'.linearize = .ok js ∧
          ∀ value : R → ℝ, Scalar.Exact value →
            ∃ k : ℤ, value e'.phase = value e.phase + k * (2 * Real.pi)) ∧
      ∀ x, lowerAll device requested d = .error x →
        (device.basis.resolveFamily requested : Compile R _) = .error x ∨
        ∃ family, (device.basis.resolveFamily requested : Compile R _) = .ok family ∧
          ∃ i ∈ is, device.isNative i = false ∧
            (device.basis.lower family maxRules i = .error x ∨
              ∃ l, device.basis.lower family maxRules i = .ok l ∧
                maxOperands < i.qubits.length ∧ maxIndex < l.instructions.length ∧
                x = .ofCircuit (.invalidStructure (.tooManyParts l.instructions.length))) := by
  obtain ⟨es, hr⟩ := h.exists_reads
  refine ⟨es.map (·.2), hr.linearize_eq, ?_, ?_⟩
  · intro e he
    rcases reads_lowerAll device requested hr with
      ⟨family, e₁, es', hres, he₁, hre, hes, -, -, -, hok⟩ | ⟨x, hx, -⟩
    · obtain rfl : e₁ = e := Except.ok.inj (he₁.symm.trans he)
      have hf := provides_of_resolveFamily hres
      have hnative := native_of_mem_loweredList hf hr hok
      refine ⟨family, es'.map (·.2), hres, hre.reachable, ?_, hre.linearize_eq, hes,
        fun j hj => hnative j (hes ▸ hj), ?_⟩
      · intro i hi hn
        obtain ⟨x, hx, rfl⟩ := List.mem_map.mp hi
        have hl := (hok x hx hn).eq
        exact ⟨⟨_, hl⟩, fun j hj => (replaces_of_lower hf hr hx hn hl j hj).wires⟩
      · have hall : ∀ x ∈ es', device.isNative x.2 = true :=
          fun x hx => hnative x.2 (hes ▸ List.mem_map_of_mem hx)
        rcases reads_lowerAll device requested hre with
          ⟨family', e', es'', -, he', hre', hes'', -, -, ⟨phases, hphase, hnil⟩, -⟩ |
            ⟨x, -, hx | ⟨-, -, y, hy, hn, -⟩⟩
        · refine ⟨e', he', ?_, ?_⟩
          · rw [hre'.linearize_eq, hes'']
            exact congrArg _ (loweredList_eq_self fun j hj => hnative j (hes ▸ hj))
          · intro value hv
            obtain ⟨k, hk⟩ := hv.remEuclid_tau (e₁.phase + Scalar.sum [])
            refine ⟨k, ?_⟩
            rw [hphase, hnil hall, hk, hv.add]
            simp [Scalar.sum, hv.zero]
        · rw [hres] at hx
          cases hx
        · rw [hall y hy] at hn
          cases hn
    · rw [hx] at he
      cases he
  · intro x hx
    rcases reads_lowerAll device requested hr with
      ⟨family, e₁, es', hres, he₁, -⟩ | ⟨x', hx', hcause⟩
    · rw [he₁] at hx
      cases hx
    · obtain rfl : x' = x := Except.error.inj (hx'.symm.trans hx)
      rcases hcause with hres | ⟨family, hres, y, hy, hn, hlow | ⟨l, hl, hlen, hmany⟩⟩
      · exact .inl hres
      · exact .inr ⟨family, hres, y.2, List.mem_map_of_mem hy, hn, .inl hlow⟩
      · refine .inr ⟨family, hres, y.2, List.mem_map_of_mem hy, hn, .inr ⟨l, hl, ?_, hlen, hmany⟩⟩
        by_contra hle
        exact hlen.not_ge (length_lower_le_maxIndex (hr.fits hy).distinct (not_lt.mp hle) hl)

attribute [local instance] Scalar.real in
/-- Two coupled qubits that flip one another and do nothing else. -/
noncomputable abbrev flipping : Device ℝ := (Device.linear 2).withBasis ⟨["cx"]⟩

attribute [local instance] Scalar.real in
theorem lowers_swap : ∃ d e, Dag.ofInstructions 2 0 [.ofStandard .swap [0, 1]] = .ok d ∧
    lowerAll flipping none d = .ok e ∧ e.Reachable ∧
    e.linearize = .ok [.ofStandard .cx [0, 1], .ofStandard .cx [1, 0], .ofStandard .cx [0, 1]] := by
  obtain ⟨d, es, hd, hr, hes, -⟩ := Dag.exists_reads_ofInstructions 2 0
    [(.ofStandard .swap [0, 1] : Instruction ℝ)] (by simp; rfl)
    (by simp [Instruction.ofStandard, Instruction.ofGate])
  obtain ⟨is, his, hok, herror⟩ := lowers_of_lowerAll flipping none hr.reachable
  obtain rfl : [(.ofStandard .swap [0, 1] : Instruction ℝ)] = is := by
    rw [hr.linearize_eq, hes] at his
    exact Except.ok.inj his
  cases he : lowerAll flipping none d with
  | error x =>
    rcases herror x he with h | ⟨family, hf, i, hi, -, h | ⟨l, -, hl, -, -⟩⟩
    · cases h
    · obtain rfl := Except.ok.inj hf
      obtain rfl := List.mem_singleton.mp hi
      cases h
    · obtain rfl := Except.ok.inj hf
      obtain rfl := List.mem_singleton.mp hi
      exact absurd hl (by decide)
  | ok e =>
    obtain ⟨family, js, hf, hreach, -, hjs, rfl, -⟩ := hok e he
    obtain rfl := Except.ok.inj hf
    exact ⟨d, e, hd, he, hreach, hjs⟩

/-- Qubits in a line that take the gates of a bit flip with many controls. -/
abbrev phasing : Device Float := (Device.linear 33).withBasis ⟨["h", "cp", "cx"]⟩

/-- A gate that can be lowered is refused, since its parts have no positions. -/
theorem unlowered_manyControls : ∃ d l, Dag.ofInstructions 33 0 [Wide.manyControls] = .ok d ∧
    d.Reachable ∧ phasing.basis.lower none maxRules Wide.manyControls = .ok l ∧
    lowerAll phasing none d = .error (.ofCircuit (.invalidStructure (.tooManyParts 8589934591))) := by
  obtain ⟨is, his, hlen, hnames⟩ := Wide.exists_split_manyControls
  have hin : ∀ j ∈ is, phasing.basis.contains j.name = true := by
    intro j hj
    have hname := hnames j hj
    simp only [List.mem_cons, List.not_mem_nil, or_false] at hname
    rcases hname with h | h | h <;> rw [h] <;> decide
  have hlower : phasing.basis.lower none maxRules Wide.manyControls = .ok (.ofList is) := by
    have hs : Wide.manyControls.standard? = some (.mcx 32) := rfl
    rw [maxRules, lower_of_isSplit hs rfl (by decide), his]
    exact (lowerPieces_of_contains hin _).trans (congrArg _ (append_ofList _ _))
  obtain ⟨d, id, hd, hr⟩ := Wide.exists_reads_manyControls
  have hcount : (Lowered.ofList is).instructions.length = 8589934591 := hlen
  have hn : phasing.isNative Wide.manyControls = false := by decide
  refine ⟨d, .ofList is, hd, hr.reachable, hlower, ?_⟩
  rcases reads_lowerAll phasing none hr with
    ⟨family, e, es', hres, he, -, -, -, -, -, hall⟩ |
      ⟨x, hx, hres | ⟨family, hres, y, hy, -, hrefuses⟩⟩
  · obtain rfl : none = family := Except.ok.inj hres
    have hshort := (hall _ (List.mem_singleton_self _) hn).short
    rw [Dag.lowering_eq hlower, hcount] at hshort
    exact absurd hshort (by decide)
  · cases hres
  · obtain rfl : none = family := Except.ok.inj hres
    obtain rfl := List.mem_singleton.mp hy
    rcases hrefuses with hfail | ⟨l, hl, -, rfl⟩
    · cases hlower.symm.trans hfail
    · obtain rfl := Except.ok.inj (hlower.symm.trans hl)
      rw [hx, hcount]

end Basis

end QuantumCompiler
