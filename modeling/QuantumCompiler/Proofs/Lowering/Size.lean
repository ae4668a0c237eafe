import QuantumCompiler.Proofs.Lowering.Apart
import QuantumCompiler.Proofs.Lowering.Ladder
import QuantumCompiler.Proofs.Synthesis.CxSequence

/-!
# How long lowered lists are

A ladder over `n` controls and a decomposition on `n` operands take at most `4ⁿ` steps, and what acts on
one or two operands becomes a bounded number of gates: rules go down in rank, three `cx` suffice for a
matrix, and a unitary takes five gates. So only very wide operations can become more than there are
positions under one.
-/
namespace QuantumCompiler

variable {R : Type}

/-! ## Splitting -/

namespace Ladder

/-- There is room for two more steps below the next power. -/
theorem length_steps_add_le (n : Nat) : (steps n).length + 2 ≤ 4 ^ (n + 1) := by
  have hpos := Nat.two_pow_pos n
  calc (steps n).length + 2
      ≤ 2 * 2 ^ n := by rw [length_steps]; omega
    _ = 2 ^ (n + 1) := (pow_succ' 2 n).symm
    _ ≤ 4 ^ (n + 1) := Nat.pow_le_pow_left (by omega) _

end Ladder

namespace Wide

/-- The most parts that a gate on `n` operands is split into. -/
def maxParts (n : Nat) : Nat := if n ≤ 2 then 1 else 4 ^ n

theorem maxParts_le (n : Nat) : maxParts n ≤ 4 ^ n := by
  unfold maxParts
  split
  · exact Nat.one_le_pow _ _ (by omega)
  · exact le_rfl

theorem maxParts_pos (n : Nat) : 0 < maxParts n := by
  unfold maxParts
  split
  · omega
  · exact Nat.pow_pos (by omega)

theorem maxParts_of_le {n : Nat} (h : n ≤ 2) : maxParts n = 1 := if_pos h

theorem le_maxParts {m n k : Nat} (hk : k ≤ 4 ^ m) (hm : 2 < m) (h : m ≤ n) : k ≤ maxParts n := by
  rw [maxParts, if_neg (by omega)]
  exact hk.trans (Nat.pow_le_pow_right (by omega) h)

section Controls

variable {controls : List Qubit} {turn : Bool → Qubit → Instruction R} {l : List (Instruction R)}

theorem length_ladder (h : ladder controls turn = .ok l) :
    l.length = (Ladder.steps controls.length).length :=
  (ladder_eq_ok.mp h).2 ▸ List.length_map _

theorem length_ladder_le (hne : controls ≠ []) (h : ladder controls turn = .ok l) :
    l.length ≤ maxParts (controls.length + 1) := by
  rw [length_ladder h]
  match controls with
  | [] => exact absurd rfl hne
  | [c] => exact (Ladder.length_steps 1).le
  | a :: b :: rest =>
    refine le_maxParts ((Nat.le_add_right _ 2).trans (Ladder.length_steps_add_le _)) ?_ le_rfl
    rw [List.length_cons, List.length_cons]
    omega

end Controls

section Split

variable [Scalar R] {controls : List Qubit} {target : Qubit} {i : Instruction R} {g : Gate R}
  {l : List (Instruction R)}

/-- A bit flip with three controls or more is a ladder between two more gates. -/
theorem length_mcx (hmany : 2 < controls.length) (h : mcx controls target = .ok l) :
    l.length = (Ladder.steps controls.length).length + 2 := by
  match controls with
  | [] | [_] | [_, _] => simp at hmany
  | a :: b :: c :: rest =>
    obtain ⟨phase, hphase, h⟩ := Outcome.bind_eq_ok.mp h
    obtain rfl := Except.ok.inj h
    simp only [List.length_append, List.length_singleton, length_ladder hphase]
    omega

/-- A bit flip with three controls or more takes `h`, `cp` and `cx`, and twice as many of them with each
control. -/
theorem exists_mcx (controls : List Qubit) (target : Qubit) (hmany : 2 < controls.length)
    (hfit : controls.length < Ladder.wordBits) : ∃ l : List (Instruction R),
      mcx controls target = .ok l ∧ l.length = 2 ^ (controls.length + 1) - 1 ∧
        ∀ j ∈ l, j.name ∈ ["h", "cp", "cx"] := by
  have hladder (turn : Bool → Qubit → Instruction R) :
      ladder controls turn = .ok (rungs controls turn) := ladder_eq_ok.mpr ⟨hfit, rfl⟩
  obtain ⟨phase, hphase⟩ : ∃ l : List (Instruction R), mcphase Scalar.pi controls target = .ok l :=
    ⟨_, hladder _⟩
  have hmcx : mcx controls target =
      .ok ([.ofStandard .h [target]] ++ phase ++ [.ofStandard .h [target]]) := by
    match controls with
    | [] | [_] | [_, _] => simp at hmany
    | a :: b :: c :: rest =>
      rw [mcx, hphase]
      · rfl
      · simp
      · simp
      · simp
  refine ⟨_, hmcx, ?_, ?_⟩
  · have hpos : 2 ≤ 2 ^ controls.length := Nat.le_self_pow (by omega) 2
    rw [length_mcx hmany hmcx, Ladder.length_steps, pow_succ]
    omega
  · have hnames := forall_ladder (P := fun j => j.name ∈ ["h", "cp", "cx"])
      (fun _ _ => .tail _ (.tail _ (.head _))) (fun _ _ => .tail _ (.head _)) hphase
    simp only [List.forall_mem_append, List.forall_mem_singleton]
    exact ⟨⟨.head _, hnames⟩, .head _⟩

/-- A bit flip with 32 controls. -/
def manyControls : Instruction Float := .ofStandard (.mcx 32) (List.range 33)

/-- It takes more gates than there are positions under one. -/
theorem exists_split_manyControls : ∃ l, split manyControls = .ok l ∧ l.length = 8589934591 ∧
    ∀ j ∈ l, j.name ∈ ["h", "cp", "cx"] := by
  obtain ⟨l, hl, hlen, hnames⟩ :=
    exists_mcx (R := Float) (List.range 32) 32 (by simp) (by simp [Ladder.wordBits])
  have hq : manyControls.qubits = List.range 32 ++ [32] := rfl
  exact ⟨l, (split_of_mcx rfl hq).trans hl, by simpa using hlen, hnames⟩

theorem exists_reads_manyControls : ∃ d id, Dag.ofInstructions 33 0 [manyControls] = .ok d ∧
    d.Reads [(id, manyControls)] := by
  obtain ⟨d, es, hd, hr, hes, -⟩ := Dag.exists_reads_ofInstructions 33 0 [manyControls]
    (List.forall_mem_singleton.mpr rfl) (by decide)
  obtain ⟨⟨id, i⟩, rfl, hi⟩ := List.map_eq_singleton_iff.mp hes
  obtain rfl : i = manyControls := hi
  exact ⟨d, id, hd, hr⟩

theorem length_mcx_le (h : mcx controls target = .ok l) :
    l.length ≤ maxParts (controls.length + 1) := by
  by_cases hmany : 2 < controls.length
  · rw [length_mcx hmany h]
    exact le_maxParts (Ladder.length_steps_add_le _) (by omega) le_rfl
  · match controls with
    | [] | [_] => exact Except.ok.inj h ▸ le_rfl
    | [a, b] => exact Except.ok.inj h ▸ le_maxParts (m := 3) (by simp [ccx]) (by omega) le_rfl
    | _ :: _ :: _ :: _ => exact absurd (by simp) hmany

theorem length_mcry_le {θ : Angle R} (h : mcry θ controls target = .ok l) :
    l.length ≤ maxParts (controls.length + 1) := by
  match controls with
  | [] | [_] => exact Except.ok.inj h ▸ le_rfl
  | a :: b :: rest => exact length_ladder_le (by simp) h

/-- A gate on one or two operands is not split into more than one, a gate on `n` operands into at most
`4ⁿ`. -/
theorem length_splitGate_le (h : splitGate i g = .ok l) : l.length ≤ maxParts i.qubits.length := by
  have hcount {controls : List Qubit} {target : Qubit} (hq : i.qubits = controls ++ [target]) :
      i.qubits.length = controls.length + 1 := by
    rw [hq, List.length_append, List.length_singleton]
  rcases splitInto_or_kept h with hinto | ⟨rfl, -⟩
  · cases hinto with
    | ccx hq => exact le_maxParts (m := 3) (by simp [ccx]) (by omega) (by simp [hq])
    | cswap hq => exact le_maxParts (m := 3) (by simp [cswap, ccx]) (by omega) (by simp [hq])
    | mcx hq hl => exact hcount hq ▸ length_mcx_le hl
    | mcry _ hq hl => exact hcount hq ▸ length_mcry_le hl
    | uncontrolled => exact maxParts_pos _
    | roots u hq hne hl => exact hcount hq ▸ length_ladder_le hne hl
    | dense hwide hsteps =>
      exact le_maxParts ((List.length_map _).trans_le (Shannon.length_decompose_le hsteps)) hwide le_rfl
  · exact maxParts_pos _

end Split
end Wide

/-! ## One-qubit synthesis -/

variable [Scalar R]

namespace EulerFamily

open OneQubitSequence

section Length

variable {s : OneQubitSequence R} {n : Nat} (h : s.gates.length ≤ n)

include h

theorem length_rotate_le {tolerance : R} {make : Angle R → StandardGate R} {angle : R} :
    (rotate tolerance s make angle).gates.length ≤ n + 1 := by
  simp only [rotate]
  split
  · simpa using h
  · exact h.trans (Nat.le_succ n)

omit [Scalar R] in
theorem length_fixed_le {g : StandardGate R} : (s.fixed g).gates.length ≤ n + 1 := by
  simpa [fixed] using h

end Length

/-- The most gates that a family takes: three rotations, with two fixed gates between them in one family,
unless one gate does it all. -/
def maxGates : EulerFamily → Nat
  | zyz | zxz | xyx => 3
  | u3 => 1
  | zsx => 5

theorem maxGates_le (family : EulerFamily) : family.maxGates ≤ 5 := by
  cases family <;> decide

theorem length_sequence_le (family : EulerFamily) (u : Mat2 R) (tolerance : R) :
    (family.sequence u tolerance).gates.length ≤ family.maxGates := by
  have hnil (phase : R) : (⟨[], phase⟩ : OneQubitSequence R).gates.length ≤ 0 := le_rfl
  cases family
  case zyz | zxz | xyx =>
    simp only [sequence, maxGates]
    split
    · exact (length_rotate_le (hnil _)).trans (by omega)
    · exact length_rotate_le (length_rotate_le (length_rotate_le (hnil _)))
  case u3 =>
    simp only [sequence, finish, maxGates]
    split <;> simp
  case zsx =>
    simp only [sequence, maxGates]
    split
    · exact (length_rotate_le (hnil _)).trans (by omega)
    · exact length_rotate_le (length_fixed_le (length_rotate_le (length_fixed_le
        (length_rotate_le (hnil _)))))

theorem length_synthesize_le {family : EulerFamily} {u : Mat2 R} {tolerance : R}
    {s : OneQubitSequence R} (h : family.synthesize u tolerance = .ok s) :
    s.gates.length ≤ family.maxGates :=
  eq_sequence_of_synthesize h ▸ length_sequence_le family u tolerance

end EulerFamily

/-! ## Lowering one operation -/

namespace Basis

variable {basis : Basis} {family : Option EulerFamily} {rules : Nat} {i : Instruction R}
  {l : Lowered R}

theorem length_synthesize_le {name : String} {u : Mat2 R} {q : Qubit}
    (h : synthesize family name u q = .ok l) : l.instructions.length ≤ 5 := by
  unfold synthesize at h
  split at h
  · cases h
  · obtain ⟨s, hs, h⟩ := Outcome.bind_eq_ok.mp h
    obtain rfl := Except.ok.inj h
    rw [List.length_map]
    exact (EulerFamily.length_synthesize_le (Outcome.mapError_eq_ok.mp hs)).trans (EulerFamily.maxGates_le _)

/-- An operation is lowered to itself, or it is taken apart and its pieces are lowered. -/
theorem length_lower (h : basis.lower family rules i = .ok l) :
    l.instructions.length = 1 ∨ basis.contains i.name = false ∧ ∃ r < rules, ∃ g apart,
      i.gate? = some g ∧ basis.takeApart i g = .ok apart ∧
      ∀ b, 5 ≤ b → (∀ j, .operation j ∈ apart.pieces → ∀ k,
        basis.lower family r j = .ok k → k.instructions.length ≤ b) →
      l.instructions.length ≤ apart.pieces.length * b := by
  rcases stays_or_apart_of_lower h with ⟨rfl, -⟩ | ⟨hn, r, hr, g, apart, hg, hapart, h⟩
  · exact .inl rfl
  · refine .inr ⟨hn, r, hr, g, apart, hg, hapart, fun b hb hpieces => ?_⟩
    refine (Outcome.foldlM_le (fun l : Lowered R => l.instructions.length) (b := b)
      ?_ h).trans_eq (Nat.zero_add _)
    intro piece hp x y hstep
    obtain ⟨k, hk, hstep⟩ := Outcome.bind_eq_ok.mp hstep
    obtain rfl := Except.ok.inj hstep
    refine (List.length_append ..).trans_le (Nat.add_le_add_left ?_ _)
    cases piece with
    | unitary name u q => exact (length_synthesize_le hk).trans hb
    | operation j => exact hpieces j hp k hk

omit [Scalar R] in
theorem length_ofInstructions (is : List (Instruction R)) :
    (Pieces.ofInstructions is).pieces.length = is.length := List.length_map _

omit [Scalar R] in
theorem operation_mem_ofInstructions {is : List (Instruction R)} {j : Instruction R}
    (h : .operation j ∈ (Pieces.ofInstructions is).pieces) : j ∈ is := by
  obtain ⟨k, hk, he⟩ := List.mem_map.mp h
  exact Piece.operation.inj he ▸ hk

/-- A standard gate that is not split gives at most seven pieces. Those that are operations are in the
basis or have a lower rank. -/
theorem below_takeApart {g : StandardGate R} {g' : Gate R} (hkind : g'.kind = .standard g)
    (hsplit : g.isSplit = false) {apart : Pieces R} (h : basis.takeApart i g' = .ok apart) :
    apart.pieces.length ≤ 7 ∧ ∀ j, .operation j ∈ apart.pieces →
      basis.contains j.name = true ∨ Rules.Below (Rules.rank g) j := by
  cases taken_of_takeApart h with
  | split hw =>
    rcases hw with ⟨c, hc, -⟩ | ⟨gate, hgate, hs⟩
    · cases hkind.symm.trans hc
    · obtain rfl := GateKind.standard.inj (hkind.symm.trans hgate)
      cases hsplit.symm.trans hs
  | unitary => simp
  | matrix hc => cases hkind.symm.trans hc
  | cx hcx _ hl =>
    obtain rfl := GateKind.standard.inj (hkind.symm.trans hcx)
    obtain ⟨hlen, hput⟩ := Rules.put_cx? [] hl
    exact ⟨(length_ofInstructions _).trans_le hlen,
      fun j hj => (hput j (operation_mem_ofInstructions hj)).2⟩
  | rule hgate _ _ his =>
    obtain rfl := GateKind.standard.inj (hkind.symm.trans hgate)
    obtain ⟨hlen, hput⟩ := Rules.put_twoQubit? his
    exact ⟨(length_ofInstructions _).trans_le hlen,
      fun j hj => .inr (hput j (operation_mem_ofInstructions hj)).below⟩

/-- A gate of the basis stays one, and a gate of rank below `n` becomes at most `5 · 7ⁿ`: each rule gives
at most seven pieces, and a unitary takes five gates. -/
theorem length_lower_of_below (n : Nat)
    (hi : basis.contains i.name = true ∨ Rules.Below n i)
    (h : basis.lower family rules i = .ok l) : l.instructions.length ≤ 5 * 7 ^ n := by
  have hpos (m : Nat) : 1 ≤ 7 ^ m := Nat.one_le_pow _ _ (by omega)
  induction n generalizing rules i l with
  | zero =>
    rcases length_lower h with hone | ⟨hnot, -⟩
    · omega
    · rcases hi with hin | ⟨g, -, -, hr⟩
      · cases hin.symm.trans hnot
      · exact absurd hr (Nat.not_lt_zero _)
  | succ n ih =>
    rcases length_lower h with hone | ⟨hnot, r, -, g', apart, hg, hapart, hlen⟩
    · have := hpos (n + 1)
      omega
    · rcases hi with hin | ⟨g, hs, hsplit, hr⟩
      · cases hin.symm.trans hnot
      · obtain ⟨hseven, hbelow⟩ := below_takeApart (Instruction.kind_of_standard? hg hs) hsplit hapart
        have hfive : 5 ≤ 5 * 7 ^ n := Nat.le_mul_of_pos_right 5 (hpos n)
        calc l.instructions.length
            ≤ apart.pieces.length * (5 * 7 ^ n) := hlen _ hfive fun j hj k hk =>
              ih ((hbelow j hj).imp_right fun hj => hj.mono (by omega)) hk
          _ ≤ 7 * (5 * 7 ^ n) := Nat.mul_le_mul_right _ hseven
          _ = 5 * 7 ^ (n + 1) := by ring

/-- The most gates that a gate on one or two operands is lowered to. -/
def maxGates : Nat := 5 * 7 ^ 4

omit [Scalar R] in
theorem below_cx (a b : Qubit) : Rules.Below 2 (.ofStandard .cx [a, b] : Instruction R) :=
  ⟨_, rfl, rfl, Nat.le_of_ble_eq_true rfl⟩

omit [Scalar R] in
/-- The operations among the pieces of a sequence are `cx`. -/
theorem eq_cx_of_mem_ofCxSequence {name : String} {a b : Qubit} {s : CxSequence R} {j : Instruction R}
    (hj : .operation j ∈ (Pieces.ofCxSequence name a b s).pieces) :
    ∃ c d, j = .ofStandard .cx [c, d] := by
  obtain ⟨step, -, hstep⟩ := List.mem_map.mp hj
  cases step with
  | block k u => cases hstep
  | cx control => exact ⟨_, _, (Piece.operation.inj hstep).symm⟩

/-- A gate is taken apart by its kind or its matrix, into a number of pieces that goes with the rank of
the pieces, or it is split into narrow gates. -/
theorem pieces_takeApart {g : Gate R} (hg : i.gate? = some g) (hd : i.qubits.Nodup) {apart : Pieces R}
    (h : basis.takeApart i g = .ok apart) :
    (∃ n, apart.pieces.length * (5 * 7 ^ n) ≤ maxGates ∧ ∀ j, .operation j ∈ apart.pieces →
      basis.contains j.name = true ∨ Rules.Below n j) ∨
    apart.pieces.length ≤ Wide.maxParts i.qubits.length ∧
      ∀ j, .operation j ∈ apart.pieces → j.Narrow i.qubits := by
  have hrule {gate : StandardGate R} (hkind : g.kind = .standard gate) (hnot : gate.isSplit = false) :
      ∃ n, apart.pieces.length * (5 * 7 ^ n) ≤ maxGates ∧ ∀ j, .operation j ∈ apart.pieces →
        basis.contains j.name = true ∨ Rules.Below n j := by
    obtain ⟨hlen, hbelow⟩ := below_takeApart hkind hnot h
    refine ⟨3, (Nat.mul_le_mul_right _ hlen).trans (by decide), fun j hj => ?_⟩
    exact (hbelow j hj).imp_right fun hj => hj.mono (Rules.rank_le gate)
  have hon := on_takeApart hg hd h
  cases taken_of_takeApart h with
  | @split is _ his =>
    rw [Wide.split, Instruction.gate?_eq_some.mp hg] at his
    exact .inr ⟨(length_ofInstructions is).trans_le (Wide.length_splitGate_le his),
      fun j hj => hon _ hj⟩
  | unitary => exact .inl ⟨0, (by decide : 1 * (5 * 7 ^ 0) ≤ maxGates), by simp⟩
  | @matrix c u s a b _ _ hs =>
    have hlen : (Pieces.ofCxSequence c.name a b s).pieces.length ≤ 11 :=
      (List.length_map _).trans_le (CxSequence.length_ofMatrix_le hs)
    refine .inl ⟨2, (Nat.mul_le_mul_right _ hlen).trans (by decide), fun j hj => ?_⟩
    obtain ⟨a, b, rfl⟩ := eq_cx_of_mem_ofCxSequence hj
    exact .inr (below_cx a b)
  | cx hkind => exact .inl (hrule hkind rfl)
  | rule hkind hnot => exact .inl (hrule hkind hnot)

theorem length_lower_of_parts (hd : i.qubits.Nodup)
    (hparts : ∀ r < rules, ∀ j : Instruction R, j.Narrow i.qubits → ∀ k,
      basis.lower family r j = .ok k → k.instructions.length ≤ maxGates)
    (h : basis.lower family rules i = .ok l) :
    l.instructions.length ≤ Wide.maxParts i.qubits.length * maxGates := by
  have hpos : 1 ≤ Wide.maxParts i.qubits.length := Wide.maxParts_pos _
  have hself : maxGates ≤ Wide.maxParts i.qubits.length * maxGates := Nat.le_mul_of_pos_left _ hpos
  rcases length_lower h with hone | ⟨-, r, hr, g, apart, hg, hapart, hlen⟩
  · exact (hone.trans_le (by decide)).trans hself
  · rcases pieces_takeApart hg hd hapart with ⟨n, hroom, hbelow⟩ | ⟨hcount, hnarrow⟩
    · refine ((hlen (5 * 7 ^ n) ?_ fun j hj k hk => ?_).trans hroom).trans hself
      · exact Nat.le_mul_of_pos_right 5 (Nat.pow_pos (by omega))
      · exact length_lower_of_below n (hbelow j hj) hk
    · exact (hlen maxGates (by decide) fun j hj k hk => hparts r hr j (hnarrow j hj) k hk).trans
        (Nat.mul_le_mul_right _ hcount)

/-- A gate on one or two operands is lowered to at most `maxGates` gates: where it is split, it is into
one. -/
theorem length_lower_le_of_narrow (hd : i.qubits.Nodup)
    (hle : i.qubits.length ≤ 2) (h : basis.lower family rules i = .ok l) :
    l.instructions.length ≤ maxGates := by
  induction rules using Nat.strong_induction_on generalizing i l with
  | h rules ih =>
    have := length_lower_of_parts hd
      (fun r hr j hj k hk => ih r hr hj.distinct hj.le hk) h
    rwa [Wide.maxParts_of_le hle, Nat.one_mul] at this

/-- An operation on `n` operands is lowered to at most `4ⁿ · maxGates` operations. -/
theorem length_lower_le (hd : i.qubits.Nodup)
    (h : basis.lower family rules i = .ok l) :
    l.instructions.length ≤ 4 ^ i.qubits.length * maxGates :=
  (length_lower_of_parts hd
    (fun _ _ _ hj _ hk => length_lower_le_of_narrow hj.distinct hj.le hk) h).trans
    (Nat.mul_le_mul_right _ (Wide.maxParts_le _))

/-- Operations on as many operands never become more than can be numbered. -/
def maxOperands : Nat := 9

theorem length_lower_le_maxIndex (hd : i.qubits.Nodup)
    (hle : i.qubits.length ≤ maxOperands) (h : basis.lower family rules i = .ok l) :
    l.instructions.length ≤ maxIndex :=
  calc l.instructions.length
      ≤ 4 ^ i.qubits.length * maxGates := length_lower_le hd h
    _ ≤ 4 ^ maxOperands * maxGates := Nat.mul_le_mul_right _ (Nat.pow_le_pow_right (by omega) hle)
    _ ≤ maxIndex := by decide

end Basis

end QuantumCompiler
