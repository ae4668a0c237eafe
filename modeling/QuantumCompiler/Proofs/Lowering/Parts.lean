import QuantumCompiler.Proofs.Lowering.Size

/-!
# What gates are taken apart into

`Part θs j` names the operations that rules, networks, ladders and decompositions put: standard gates of a
low rank that turn by numbers or by shares of the given angles, and blocks with a matrix on one or two
qubits. The rank of operations goes down with each rule, so nothing is more than three rules away from the
operation that it came from, in whichever basis.
-/
namespace QuantumCompiler

variable {R : Type} [Scalar R]

/-- The angles of the standard gate, if there is one. -/
def Instruction.standardAngles (i : Instruction R) : List (Angle R) :=
  (i.standard?.map StandardGate.angles).getD []

omit [Scalar R] in
theorem Instruction.standardAngles_eq {i : Instruction R} {g : StandardGate R}
    (h : i.standard? = some g) : i.standardAngles = g.angles := by
  rw [standardAngles, h]
  rfl

/-- An operation that gates with the given angles are taken apart into. -/
inductive Part (θs : List (Angle R)) : Instruction R → Prop
  | standard {g : StandardGate R} {qs : List Qubit} (hsplit : g.isSplit = false)
    (hrank : Rules.rank g ≤ 2) (hangles : ∀ θ ∈ g.angles, θ.Share θs) : Part θs (.ofStandard g qs)
  | block {matrix : List (Cx R)} {qs : List Qubit} (hpos : 0 < qs.length) (hle : qs.length ≤ 2) :
    Part θs (.ofGate (.ofCustom ⟨Wide.blockName, qs.length, [], some matrix⟩) qs)

variable {θs : List (Angle R)}

/-- A gate without angles. -/
theorem Part.fixed {g : StandardGate R} {qs : List Qubit} (hsplit : g.isSplit = false)
    (hrank : Rules.rank g ≤ 2) (hangles : g.angles = []) : Part θs (.ofStandard g qs) :=
  .standard hsplit hrank (by simp [hangles])

/-- A gate with one angle. -/
theorem Part.turn {g : StandardGate R} {θ : Angle R} {qs : List Qubit} (hsplit : g.isSplit = false)
    (hrank : Rules.rank g ≤ 2) (hangles : g.angles = [θ]) (hθ : θ.Share θs) :
    Part θs (.ofStandard g qs) :=
  .standard hsplit hrank (by simpa [hangles] using hθ)

/-! ## Splitting -/

namespace Wide

variable {controls : List Qubit} {target : Qubit} {i : Instruction R} {l : List (Instruction R)}

theorem part_cx (a b : Qubit) : Part θs (cx a b) := .fixed rfl (Nat.le_of_ble_eq_true rfl) rfl

theorem part_ccx (a b c : Qubit) : ∀ j ∈ (ccx a b c : List (Instruction R)), Part θs j := by
  simp only [ccx, List.forall_mem_cons, part_cx, true_and]
  refine ⟨?_, ?_, ?_, ?_, ?_, ?_, ?_, ?_, ?_, List.forall_mem_nil _⟩
  all_goals exact .fixed rfl (Nat.le_of_ble_eq_true rfl) rfl

theorem part_cswap (a b c : Qubit) : ∀ j ∈ (cswap a b c : List (Instruction R)), Part θs j := by
  intro j hj
  rw [cswap, List.mem_append, List.mem_append, List.mem_singleton] at hj
  rcases hj with (rfl | hj) | rfl
  · exact part_cx c b
  · exact part_ccx a b c j hj
  · exact part_cx c b

theorem part_mcphase {angle : R} (h : mcphase angle controls target = .ok l) :
    ∀ j ∈ l, Part θs j := by
  have hturn (v : R) (c : Qubit) : Part θs (.ofStandard (.cp (.const v)) [c, target]) :=
    .turn rfl (Nat.le_of_ble_eq_true rfl) rfl (.const v)
  exact forall_ladder part_cx (fun _ c => hturn _ c) h

theorem part_mcx (h : mcx controls target = .ok l) : ∀ j ∈ l, Part θs j := by
  unfold mcx at h
  split at h
  · obtain rfl := Except.ok.inj h
    exact List.forall_mem_singleton.mpr (.fixed rfl (Nat.le_of_ble_eq_true rfl) rfl)
  · obtain rfl := Except.ok.inj h
    exact List.forall_mem_singleton.mpr (part_cx _ _)
  · exact Except.ok.inj h ▸ part_ccx _ _ _
  · obtain ⟨phase, hphase, h⟩ := Outcome.bind_eq_ok.mp h
    obtain rfl := Except.ok.inj h
    intro j hj
    rw [List.mem_append, List.mem_append, List.mem_singleton] at hj
    rcases hj with (rfl | hj) | rfl
    · exact .fixed rfl (Nat.le_of_ble_eq_true rfl) rfl
    · exact part_mcphase hphase j hj
    · exact .fixed rfl (Nat.le_of_ble_eq_true rfl) rfl

theorem part_mcry {θ : Angle R} (hθ : θ.Share θs) (h : mcry θ controls target = .ok l) :
    ∀ j ∈ l, Part θs j := by
  unfold mcry at h
  split at h
  · obtain rfl := Except.ok.inj h
    exact List.forall_mem_singleton.mpr (.turn rfl (Nat.le_of_ble_eq_true rfl) rfl hθ)
  · obtain rfl := Except.ok.inj h
    exact List.forall_mem_singleton.mpr (.turn rfl (Nat.le_of_ble_eq_true rfl) rfl hθ)
  · refine forall_ladder part_cx (fun odd c => ?_) h
    refine .turn rfl (Nat.le_of_ble_eq_true rfl) rfl ?_
    cases odd
    · exact (hθ.scaled _).scaled _
    · exact hθ.scaled _

theorem part_controlledRoots {u : Mat2 R} (h : controlledRoots u controls target = .ok l) :
    ∀ j ∈ l, Part θs j := by
  refine forall_ladder part_cx (fun odd c => ?_) h
  have hblock (matrix : List (Cx R)) :
      Part θs (.ofGate (.ofCustom ⟨blockName, [c, target].length, [], some matrix⟩) [c, target]) :=
    .block (by simp) (by simp)
  cases odd <;> exact hblock _

theorem part_ofShannonStep (operands : List Qubit) {s : ShannonStep R} {qs : List Nat} (h : s.On qs) :
    Part θs (ofShannonStep operands s) := by
  cases s with
  | ry q θ | rz q θ => exact .turn rfl (Nat.le_of_ble_eq_true rfl) rfl (.const _)
  | cx control target => exact part_cx _ _
  | block ks matrix =>
    have hlen : (ks.map fun k => operands.getD k 0).length = ks.length := List.length_map _
    rw [ofShannonStep, ← hlen]
    exact .block (hlen ▸ h.pos) (hlen ▸ h.narrow)

/-- The parts of a gate that is wide or of a kind to be split turn by shares of its angles. -/
theorem part_split {g : Gate R} (hg : i.gate? = some g)
    (hw : 2 < i.qubits.length ∨ ∃ gate, g.kind = .standard gate ∧ gate.isSplit = true)
    (h : split i = .ok l) : ∀ j ∈ l, Part i.standardAngles j := by
  have hangles {gate : StandardGate R} (hk : g.kind = .standard gate) :
      i.standardAngles = gate.angles :=
    Instruction.standardAngles_eq ((Instruction.standard?_eq_some hg).mpr hk)
  rw [split, Instruction.gate?_eq_some.mp hg] at h
  cases splitInto_of_splitGate hw h with
  | ccx => exact part_ccx _ _ _
  | cswap => exact part_cswap _ _ _
  | mcx _ hl => exact part_mcx hl
  | mcry hkind _ hl => exact part_mcry (.self (by simp [hangles hkind, StandardGate.angles])) hl
  | uncontrolled hkind =>
    refine List.forall_mem_singleton.mpr (.standard rfl (Nat.le_of_ble_eq_true rfl) fun ω hω => ?_)
    exact .self (hangles hkind ▸ hω)
  | roots u _ _ hl => exact part_controlledRoots hl
  | dense hwide hsteps =>
    intro j hj
    obtain ⟨s, hs, rfl⟩ := List.mem_map.mp hj
    exact part_ofShannonStep _ (Shannon.on_decompose (by omega) hsteps s hs)

end Wide

/-! ## Rules -/

section Rules

variable {a b : Qubit}

theorem Rules.Put.part {n : Nat} {j : Instruction R} (h : Put a b n θs j) (hn : n ≤ 3) : Part θs j := by
  cases h with
  | on _ _ hsplit hrank hangles => exact .standard hsplit (by omega) hangles

/-- A gate with a rule has other gates below it. -/
theorem Rules.rank_pos_of_twoQubit? {g : StandardGate R} {is : List (Instruction R)}
    (h : twoQubit? g a b = some is) : 0 < rank g := by
  cases g <;> cases h <;> exact Nat.le_of_ble_eq_true rfl

end Rules

/-! ## Taking a gate apart -/

namespace Basis

variable {basis : Basis} {i : Instruction R} {g : Gate R} {apart : Pieces R}

/-- The operations that a gate is taken apart into. -/
theorem part_takeApart (hg : i.gate? = some g) (h : basis.takeApart i g = .ok apart) :
    ∀ j, .operation j ∈ apart.pieces → Part i.standardAngles j := by
  intro j hj
  cases taken_of_takeApart h with
  | split hw hl =>
    exact Wide.part_split hg (hw.imp_left fun ⟨_, _, hlt⟩ => hlt) hl j (operation_mem_ofInstructions hj)
  | unitary => simp at hj
  | matrix =>
    obtain ⟨a, b, rfl⟩ := eq_cx_of_mem_ofCxSequence hj
    exact Wide.part_cx a b
  | cx _ _ hl => exact ((Rules.put_cx? _ hl).2 j (operation_mem_ofInstructions hj)).1.part le_rfl
  | rule hkind _ _ his =>
    rw [Instruction.standardAngles_eq ((Instruction.standard?_eq_some hg).mpr hkind)]
    exact ((Rules.put_twoQubit? his).2 j (operation_mem_ofInstructions hj)).part (Rules.rank_le _)

end Basis

/-! ## How deep rules nest -/

/-- How many rules apply one after another below an operation. -/
def Instruction.height (i : Instruction R) : Nat :=
  match i.gate?.map Gate.kind with
  | some (.standard g) => if g.isSplit then 3 else Rules.rank g
  | some (.custom _) => if i.qubits.length ≤ 2 then 2 else 3
  | none => 0

namespace Basis

variable {basis : Basis} {i j : Instruction R} {g : Gate R} {apart : Pieces R} {n : Nat}

omit [Scalar R] in
theorem height_le (i : Instruction R) : i.height ≤ 3 := by
  unfold Instruction.height
  split
  · split
    · exact le_rfl
    · exact Rules.rank_le _
  · split <;> omega
  · omega

theorem height_le_of_part {θs : List (Angle R)} (h : Part θs j) : j.height ≤ 2 := by
  cases h with
  | @standard gate qs hsplit hrank hangles =>
    have hheight : (Instruction.ofStandard gate qs).height = Rules.rank gate := by
      simp [Instruction.height, Instruction.ofStandard, Instruction.ofGate, Instruction.gate?,
        Gate.ofStandard, hsplit]
    exact hheight ▸ hrank
  | block hpos hle =>
    simp [Instruction.height, Instruction.ofGate, Instruction.gate?, Gate.ofCustom, hle]

omit [Scalar R] in
theorem height_lt_of_below (h : Rules.Below n j) : j.height < n := by
  obtain ⟨gate, hs, hsplit, hrank⟩ := h
  obtain ⟨g, hg, hgate⟩ := Option.bind_eq_some_iff.mp hs
  have hkind := Instruction.kind_of_standard? hg hs
  simpa [Instruction.height, hg, hkind, hsplit] using hrank

/-- Taking a gate apart goes down in height or ends in the basis. -/
theorem height_takeApart (hg : i.gate? = some g) (h : basis.takeApart i g = .ok apart)
    (hj : .operation j ∈ apart.pieces) :
    j.height < i.height ∨ 0 < i.height ∧ basis.contains j.name = true := by
  have hpart := part_takeApart hg h j hj
  have hrule {gate : StandardGate R} (hkind : g.kind = .standard gate) (hnot : gate.isSplit = false)
      (hpos : 0 < Rules.rank gate) :
      j.height < i.height ∨ 0 < i.height ∧ basis.contains j.name = true := by
    have hheight : i.height = Rules.rank gate := by simp [Instruction.height, hg, hkind, hnot]
    rw [hheight]
    rcases (below_takeApart hkind hnot h).2 j hj with hin | hbelow
    · exact .inr ⟨hpos, hin⟩
    · exact .inl (height_lt_of_below hbelow)
  cases taken_of_takeApart h with
  | split hw =>
    have hheight : i.height = 3 := by
      rcases hw with ⟨c, hkind, hlt⟩ | ⟨gate, hkind, hsplit⟩
      · simp [Instruction.height, hg, hkind, hlt]
      · simp [Instruction.height, hg, hkind, hsplit]
    exact .inl (hheight ▸ Nat.lt_succ_of_le (height_le_of_part hpart))
  | unitary => simp at hj
  | matrix hkind hq =>
    have hheight : i.height = 2 := by simp [Instruction.height, hg, hkind, hq]
    obtain ⟨a, b, rfl⟩ := eq_cx_of_mem_ofCxSequence hj
    exact .inl (hheight ▸ height_lt_of_below (below_cx a b))
  | cx hkind => exact hrule hkind rfl (Nat.le_of_ble_eq_true rfl)
  | rule hkind hnot _ his => exact hrule hkind hnot (Rules.rank_pos_of_twoQubit? his)

/-- The operations that lowering comes to, with the number of rules above each. -/
inductive Reaches (basis : Basis) (i : Instruction R) : Nat → Instruction R → Prop
  | self : Reaches basis i 0 i
  | piece {n : Nat} {j k : Instruction R} {g : Gate R} {apart : Pieces R} (h : Reaches basis i n j)
    (hg : j.gate? = some g) (hn : basis.contains j.name = false)
    (ha : basis.takeApart j g = .ok apart) (hk : .operation k ∈ apart.pieces) :
    Reaches basis i (n + 1) k

/-- As many rules nest as the height of an operation says. -/
theorem Reaches.add_height_le (h : basis.Reaches i n j) :
    n + j.height ≤ i.height ∨ n ≤ i.height ∧ basis.contains j.name = true := by
  induction h with
  | self => exact .inl (Nat.zero_add _).le
  | piece h hg hn ha hk ih =>
    have hle := ih.resolve_right fun hin => by simp [hn] at hin
    rcases height_takeApart hg ha hk with hlt | ⟨hpos, hin⟩
    · exact .inl (by omega)
    · exact .inr ⟨by omega, hin⟩

theorem Reaches.le_three (h : basis.Reaches i n j) : n ≤ 3 := by
  have hheight := height_le i
  rcases h.add_height_le with hle | ⟨hle, -⟩ <;> omega

end Basis

end QuantumCompiler
