import Mathlib
import QuantumCompiler.Optimization.Peephole
import QuantumCompiler.Proofs.Angle
import QuantumCompiler.Proofs.Matrix.Exact

/-!
# The laws of the local steps

Peephole steps read three tables: which gate undoes which, which two gates are one, and which gate is the
identity up to a phase. In exact arithmetic each table agrees with the matrices, for every angle. Gates too
wide for a matrix permute basis states, and undoing them is undoing that.
-/
namespace QuantumCompiler

open scoped Kronecker

/-! ## Gates that permute basis states -/

section Bits

variable {R : Type}

/-- Flips the last of some bits if all others are set and `on` holds. -/
def flipLast (on : Bool) : List Bool → List Bool
  | [] => []
  | [target] => [target ^^ on]
  | control :: bits => control :: flipLast (on && control) bits

theorem flipLast_concat (on : Bool) (controls : List Bool) (target : Bool) :
    flipLast on (controls ++ [target]) = controls ++ [target ^^ (on && controls.all fun c => c)] := by
  induction controls generalizing on with
  | nil => simp [flipLast]
  | cons control controls ih =>
    rw [List.cons_append, flipLast.eq_3 _ _ _ (by simp), ih, List.all_cons, ← Bool.and_assoc]
    rfl

theorem length_flipLast (on : Bool) (bits : List Bool) : (flipLast on bits).length = bits.length := by
  fun_induction flipLast on bits with
  | case1 => rfl
  | case2 => rfl
  | case3 on control bits hne ih => rw [List.length_cons, List.length_cons, ih]

/-- The controls stay, so flipping again undoes it. -/
theorem flipLast_flipLast (on : Bool) (bits : List Bool) : flipLast on (flipLast on bits) = bits := by
  rcases List.eq_nil_or_concat bits with rfl | ⟨controls, target, rfl⟩
  · rfl
  · rw [List.concat_eq_append, flipLast_concat, flipLast_concat, Bool.xor_assoc, Bool.xor_self,
      Bool.xor_false]

namespace StandardGate

/-- The number of controls of a controlled flip. -/
def controls? : StandardGate R → Option Nat
  | x => some 0
  | cx => some 1
  | ccx => some 2
  | mcx n => some n
  | _ => none

/-- The bits of the operands after a gate that exchanges two of them. -/
def exchanged? : StandardGate R → List Bool → Option (List Bool)
  | swap, [a, b] => some [b, a]
  | cswap, [a, b, c] => some (if a then [a, c, b] else [a, b, c])
  | _, _ => none

/-- The bits of the operands after a gate that permutes basis states. -/
def permute? (g : StandardGate R) (bits : List Bool) : Option (List Bool) :=
  match g.controls? with
  | some n => if bits.length = n + 1 then some (flipLast true bits) else none
  | none => g.exchanged? bits

theorem inverse?_of_controls? {g : StandardGate R} {n : Nat} (hg : g.controls? = some n) :
    g.inverse? = some g := by
  unfold controls? at hg
  split at hg <;> first | rfl | cases hg

theorem exchanged?_inverse {g g' : StandardGate R} (hg : g.inverse? = some g') {bits bits' : List Bool}
    (hb : g.exchanged? bits = some bits') : g'.exchanged? bits' = some bits := by
  unfold exchanged? at hb
  split at hb
  · obtain rfl := Option.some.inj hg
    obtain rfl := Option.some.inj hb
    rfl
  · rename_i a b c
    obtain rfl := Option.some.inj hg
    obtain rfl := Option.some.inj hb
    cases a <;> rfl
  · cases hb

/-- A controlled flip changes its last operand where all others are set. -/
theorem permute?_mcx (controls : List Bool) (target : Bool) :
    (mcx controls.length : StandardGate R).permute? (controls ++ [target]) =
      some (controls ++ [target ^^ controls.all fun c => c]) := by
  have hlength : (controls ++ [target]).length = controls.length + 1 := by simp
  show (if (controls ++ [target]).length = _ then some (flipLast true (controls ++ [target])) else none) = _
  rw [if_pos hlength, flipLast_concat, Bool.true_and]

/-- A gate and its inverse put every basis state back. -/
theorem permute?_inverse {g g' : StandardGate R} (hg : g.inverse? = some g') {bits bits' : List Bool}
    (hb : g.permute? bits = some bits') : g'.permute? bits' = some bits := by
  unfold permute? at hb
  cases hn : g.controls? with
  | some n =>
    obtain rfl : g = g' := Option.some.inj ((inverse?_of_controls? hn).symm.trans hg)
    simp only [hn] at hb
    obtain ⟨hlength, hflip⟩ := Option.ite_none_right_eq_some.mp hb
    obtain rfl := Option.some.inj hflip
    simp only [permute?, hn]
    rw [length_flipLast, if_pos hlength, flipLast_flipLast]
  | none =>
    simp only [hn] at hb
    have hback := exchanged?_inverse hg hb
    have hn' : g'.controls? = none := by
      unfold exchanged? at hback
      split at hback
      · rfl
      · rfl
      · cases hback
    simp only [permute?, hn']
    exact hback

/-- The index of a basis state of two qubits, the first one most significant. -/
def basisIndex (a b : Bool) : Fin 4 :=
  ⟨2 * a.toNat + b.toNat, by have ha := a.toNat_lt; have hb := b.toNat_lt; omega⟩

/-- Where such a gate has a matrix on two qubits, it is that permutation. -/
theorem get_ofGate?_of_permute? [Scalar R] {g : StandardGate R} {a b : Bool} {bits : List Bool}
    (hb : g.permute? [a, b] = some bits) :
    ∃ m c d, Mat4.ofGate? g = some m ∧ bits = [c, d] ∧
      ∀ i, m.get i (basisIndex a b) = if i = basisIndex c d then 1 else 0 := by
  unfold permute? at hb
  cases hn : g.controls? with
  | some n =>
    simp only [hn] at hb
    obtain ⟨hlength, hflip⟩ := Option.ite_none_right_eq_some.mp hb
    obtain rfl : n = 1 := Nat.succ.inj hlength.symm
    obtain rfl := Option.some.inj hflip
    have hg : Mat4.ofGate? g = some (Mat4.controlled Mat2.x) := by
      obtain rfl | rfl : g = cx ∨ g = mcx 1 := by cases g <;> simp_all [controls?]
      · rfl
      · rfl
    refine ⟨_, a, b ^^ a, hg, rfl, fun i => ?_⟩
    cases a <;> cases b <;> fin_cases i <;>
      simp [Mat4.controlled, Mat4.ofRows, Mat4.row, Mat2.x, basisIndex]
  | none =>
    simp only [hn] at hb
    obtain ⟨rfl, rfl⟩ : g = swap ∧ bits = [b, a] := by
      cases g <;> simp_all [exchanged?]
    refine ⟨_, b, a, rfl, rfl, fun i => ?_⟩
    cases a <;> cases b <;> fin_cases i <;> simp [Mat4.swap, Mat4.ofRows, Mat4.row, basisIndex]

end StandardGate

end Bits

namespace StandardGate

attribute [local instance] Scalar.real

section Multiples

theorem isMultiple_iff {period : ℝ} (hp : 0 < period) (θ : ℝ) :
    isMultiple period θ = true ↔ ∃ k : ℤ, θ = k * period := by
  have hlt : 0 < period - period * Int.fract (θ / period) := by
    have := mul_lt_mul_of_pos_left (Int.fract_lt_one (θ / period)) hp
    linarith
  rw [isMultiple, Bool.or_eq_true, closeness, Scalar.real_below_allowance, Scalar.real_below_allowance,
    Scalar.real_remEuclid hp, or_iff_left (not_le.mpr hlt)]
  constructor
  · intro h
    have hzero : Int.fract (θ / period) = 0 :=
      le_antisymm (nonpos_of_mul_nonpos_right h hp) (Int.fract_nonneg _)
    obtain ⟨k, hk⟩ := Int.fract_eq_zero_iff.mp hzero
    exact ⟨k, by rw [hk, div_mul_cancel₀ _ hp.ne']⟩
  · rintro ⟨k, rfl⟩
    rw [mul_div_cancel_right₀ _ hp.ne', Int.fract_intCast, mul_zero]

end Multiples

section Inverses

variable {g g' : StandardGate ℝ}

theorem eq_of_numQubits_mcx {n k : Nat} (hk : k < 2) (h : (mcx n : StandardGate ℝ).numQubits = k + 1) :
    n = k := by
  simp only [numQubits, maxIndex] at h
  omega

theorem dagger_sx_mul_sx : (Mat2.sx : Mat2 ℝ).dagger * Mat2.sx = Mat2.identity ∧
    Mat2.sx * (Mat2.sx : Mat2 ℝ).dagger = Mat2.identity := by
  have hphase := Pauli.exp_neg_mul_exp (Real.pi / 4)
  refine ⟨Mat2.toMatrix_injective ?_, Mat2.toMatrix_injective ?_⟩
  all_goals
    rw [Mat2.toMatrix_mul, Mat2.toMatrix_dagger_sx, Mat2.toMatrix_sx, smul_mul_smul_comm,
      Pauli.rotation_mul_rotation Pauli.X_mul_X, Mat2.toMatrix_identity]
  · rw [hphase, one_smul, neg_add_cancel, Pauli.rotation_zero]
  · rw [mul_comm, hphase, one_smul, add_neg_cancel, Pauli.rotation_zero]

/-- A gate on one qubit and its inverse are nothing. -/
theorem exists_mul_eq_identity (hg : g.inverse? = some g') (hone : g.numQubits = 1) :
    ∃ u v, Mat2.ofGate? g = some u ∧ Mat2.ofGate? g' = some v ∧ v * u = Mat2.identity := by
  cases g with
  | mcx n =>
    obtain rfl := eq_of_numQubits_mcx (by decide) hone
    obtain rfl := Option.some.inj hg
    refine ⟨_, _, rfl, rfl, Mat2.toMatrix_injective ?_⟩
    simp [Pauli.X_mul_X]
  | sx =>
    obtain rfl := Option.some.inj hg
    exact ⟨_, _, rfl, rfl, dagger_sx_mul_sx.1⟩
  | sxdg =>
    obtain rfl := Option.some.inj hg
    exact ⟨_, _, rfl, rfl, dagger_sx_mul_sx.2⟩
  | id | x | y | z | h | s | sdg | t | tdg =>
    obtain rfl := Option.some.inj hg
    refine ⟨_, _, rfl, rfl, Mat2.toMatrix_injective ?_⟩
    simp [Pauli.X_mul_X, Pauli.Y_mul_Y, Pauli.Z_mul_Z, Pauli.H_mul_H, Pauli.phase_mul_phase,
      Pauli.phase_zero, Scalar.real_pi, neg_div]
  | cx | cy | cz | ch | swap | iswap | ccx | cswap | crx | cry | crz | cp | rxx | ryy | rzz => cases hone
  | _ => cases hg

/-- A gate on two qubits and its inverse are nothing. -/
theorem exists_mul_eq_identity₂ (hg : g.inverse? = some g') (htwo : g.numQubits = 2) :
    ∃ u v, Mat4.ofGate? g = some u ∧ Mat4.ofGate? g' = some v ∧ v * u = Mat4.identity := by
  cases g with
  | mcx n =>
    obtain rfl := eq_of_numQubits_mcx (by decide) htwo
    obtain rfl := Option.some.inj hg
    refine ⟨_, _, rfl, rfl, Mat4.toMatrix_injective ?_⟩
    simp [Pauli.switch_mul_switch, Pauli.X_mul_X, Pauli.switch_one]
  | cx | cy | cz | ch | swap =>
    obtain rfl := Option.some.inj hg
    refine ⟨_, _, rfl, rfl, Mat4.toMatrix_injective ?_⟩
    simp [Pauli.switch_mul_switch, Pauli.X_mul_X, Pauli.Y_mul_Y, Pauli.Z_mul_Z, Pauli.H_mul_H,
      Pauli.switch_one, Pauli.crossing_mul_crossing]
  | id | x | y | z | h | s | sdg | t | tdg | sx | sxdg | ccx | cswap => cases htwo
  | _ => cases hg

end Inverses

/-! ## One gate for two -/

section Merged

variable {a b m : StandardGate ℝ} {values : String → Option ℝ}

/-- The sum of two angles has the sum of their values. -/
theorem value?_simplify_add (θ η : Angle ℝ) (values : String → Option ℝ) :
    ((θ + η).simplify.substitute values).value? =
      Option.map₂ (· + ·) (θ.substitute values).value? (η.substitute values).value? := by
  rw [(Angle.folded_simplify _).value?_substitute Angle.zeroNeutral_real]
  exact Angle.value?_add _ _

/-- Gates of one kind whose angles add up. -/
theorem map_value?_simplify_add {M : Type} [Mul M] {make : ℝ → M}
    (hmake : ∀ s t, make t * make s = make (s + t)) (θ η : Angle ℝ) (values : String → Option ℝ) :
    ((θ + η).simplify.substitute values).value?.map make =
      Option.map₂ (· * ·) ((η.substitute values).value?.map make)
        ((θ.substitute values).value?.map make) := by
  rw [value?_simplify_add]
  cases (θ.substitute values).value? <;> cases (η.substitute values).value? <;> simp [hmake]

theorem rx_mul_rx (s t : ℝ) : Mat2.rx t * Mat2.rx s = Mat2.rx (s + t) := by
  apply Mat2.toMatrix_injective
  simp [Pauli.rotation_mul_rotation Pauli.X_mul_X, add_comm]

theorem ry_mul_ry (s t : ℝ) : Mat2.ry t * Mat2.ry s = Mat2.ry (s + t) := by
  apply Mat2.toMatrix_injective
  simp [Pauli.rotation_mul_rotation Pauli.Y_mul_Y, add_comm]

theorem rz_mul_rz (s t : ℝ) : Mat2.rz t * Mat2.rz s = Mat2.rz (s + t) := by
  apply Mat2.toMatrix_injective
  simp [Pauli.rotation_mul_rotation Pauli.Z_mul_Z, add_comm]

theorem p_mul_p (s t : ℝ) : Mat2.p t * Mat2.p s = Mat2.p (s + t) := by
  apply Mat2.toMatrix_injective
  simp [Pauli.phase_mul_phase, add_comm]

theorem controlled_mul_controlled (u v : Mat2 ℝ) :
    Mat4.controlled u * Mat4.controlled v = Mat4.controlled (u * v) := by
  apply Mat4.toMatrix_injective
  simp [Pauli.switch_mul_switch]

theorem rxx_mul_rxx (s t : ℝ) : Mat4.rxx t * Mat4.rxx s = Mat4.rxx (s + t) := by
  apply Mat4.toMatrix_injective
  simp [Pauli.rotation_mul_rotation (Pauli.kronecker_mul_self Pauli.X_mul_X Pauli.X_mul_X), add_comm]

theorem ryy_mul_ryy (s t : ℝ) : Mat4.ryy t * Mat4.ryy s = Mat4.ryy (s + t) := by
  apply Mat4.toMatrix_injective
  simp [Pauli.rotation_mul_rotation (Pauli.kronecker_mul_self Pauli.Y_mul_Y Pauli.Y_mul_Y), add_comm]

theorem rzz_mul_rzz (s t : ℝ) : Mat4.rzz t * Mat4.rzz s = Mat4.rzz (s + t) := by
  apply Mat4.toMatrix_injective
  simp [Pauli.rotation_mul_rotation (Pauli.kronecker_mul_self Pauli.Z_mul_Z Pauli.Z_mul_Z), add_comm]

/-- The one gate is the product of the two, and has a matrix exactly if they have. -/
theorem ofGate?_merge (hm : a.merge? b = some m) (values : String → Option ℝ) :
    Mat2.ofGate? (m.mapAngles (Angle.substitute values)) =
        Option.map₂ (· * ·) (Mat2.ofGate? (b.mapAngles (Angle.substitute values)))
          (Mat2.ofGate? (a.mapAngles (Angle.substitute values))) ∧
      Mat4.ofGate? (m.mapAngles (Angle.substitute values)) =
        Option.map₂ (· * ·) (Mat4.ofGate? (b.mapAngles (Angle.substitute values)))
          (Mat4.ofGate? (a.mapAngles (Angle.substitute values))) := by
  have hcontrolled {make : ℝ → Mat2 ℝ} (hmake : ∀ s t, make t * make s = make (s + t)) (s t : ℝ) :
      Mat4.controlled (make t) * Mat4.controlled (make s) = Mat4.controlled (make (s + t)) := by
    rw [controlled_mul_controlled, hmake]
  unfold merge? at hm
  split at hm
  case h_12 => cases hm
  all_goals obtain rfl := Option.some.inj hm
  case h_1 => exact ⟨map_value?_simplify_add rx_mul_rx _ _ _, rfl⟩
  case h_2 => exact ⟨map_value?_simplify_add ry_mul_ry _ _ _, rfl⟩
  case h_3 => exact ⟨map_value?_simplify_add rz_mul_rz _ _ _, rfl⟩
  case h_4 => exact ⟨map_value?_simplify_add p_mul_p _ _ _, rfl⟩
  case h_5 => exact ⟨rfl, map_value?_simplify_add (hcontrolled rx_mul_rx) _ _ _⟩
  case h_6 => exact ⟨rfl, map_value?_simplify_add (hcontrolled ry_mul_ry) _ _ _⟩
  case h_7 => exact ⟨rfl, map_value?_simplify_add (hcontrolled rz_mul_rz) _ _ _⟩
  case h_8 => exact ⟨rfl, map_value?_simplify_add (hcontrolled p_mul_p) _ _ _⟩
  case h_9 => exact ⟨rfl, map_value?_simplify_add rxx_mul_rxx _ _ _⟩
  case h_10 => exact ⟨rfl, map_value?_simplify_add ryy_mul_ryy _ _ _⟩
  case h_11 => exact ⟨rfl, map_value?_simplify_add rzz_mul_rzz _ _ _⟩

end Merged

/-! ## Exchanged operands -/

/-- A gate that is listed as symmetric has the same matrix on exchanged operands. -/
theorem swapOperands_ofGate? {g : StandardGate ℝ} (hg : g.isSymmetric = true) :
    (Mat4.ofGate? g).map Mat4.swapOperands = Mat4.ofGate? g := by
  have hmade {make : ℝ → Mat4 ℝ} (hmake : ∀ t, (make t).swapOperands = make t) (θ : Angle ℝ) :
      (θ.value?.map make).map Mat4.swapOperands = θ.value?.map make := by
    rw [Option.map_map]
    congr 1
    exact funext hmake
  have hrotation (P : Pauli.Op) (t : ℝ) :
      Pauli.exchange (Pauli.rotation (P ⊗ₖ P) t) = Pauli.rotation (P ⊗ₖ P) t := by
    rw [Pauli.exchange_rotation, Pauli.exchange_kronecker]
  cases g with
  | cz =>
    refine congrArg some (Mat4.toMatrix_injective ?_)
    simpa [Pauli.phase_pi] using Pauli.exchange_switch_phase Real.pi
  | swap =>
    refine congrArg some (Mat4.toMatrix_injective ?_)
    simpa using Pauli.exchange_crossing
  | iswap =>
    refine congrArg some (Mat4.toMatrix_injective ?_)
    simp [Pauli.exchange_mul, Pauli.exchange_exchangePhases, Pauli.exchange_crossing]
  | cp θ =>
    refine hmade (fun t => Mat4.toMatrix_injective ?_) θ
    simpa using Pauli.exchange_switch_phase t
  | rxx θ =>
    refine hmade (fun t => Mat4.toMatrix_injective ?_) θ
    simpa using hrotation Pauli.X t
  | ryy θ =>
    refine hmade (fun t => Mat4.toMatrix_injective ?_) θ
    simpa using hrotation Pauli.Y t
  | rzz θ =>
    refine hmade (fun t => Mat4.toMatrix_injective ?_) θ
    simpa using hrotation Pauli.Z t
  | _ => cases hg

/-! ## The identity up to a phase -/

section Phases

variable {v φ : ℝ}

theorem two_mul_tau : @OfNat.ofNat ℝ 2 (Scalar.instOfNat 2) * (Scalar.tau : ℝ) = 4 * Real.pi := by
  rw [Scalar.real_ofNat, Scalar.real_tau]
  ring

/-- Which rotations are listed, and with which phase. -/
theorem turns_of_identityPhase? {θ : Angle ℝ} (h : identityPhase? (rx θ) = some φ) :
    ∃ v, θ.value? = some v ∧ ((φ = 0 ∧ ∃ k : ℤ, v = k * (4 * Real.pi)) ∨
      (φ = Real.pi ∧ ∃ k : ℤ, v = 2 * Real.pi + k * (4 * Real.pi))) := by
  have hdouble : (0 : ℝ) < 4 * Real.pi := by positivity
  obtain ⟨v, hv, h⟩ := Option.bind_eq_some_iff.mp h
  refine ⟨v, hv, ?_⟩
  dsimp only at h
  rw [two_mul_tau] at h
  split_ifs at h with hm hh
  · exact .inl ⟨(Option.some.inj h).symm.trans Scalar.real_zero, (isMultiple_iff hdouble v).mp hm⟩
  · refine .inr ⟨(Option.some.inj h).symm, ⌊v / (4 * Real.pi)⌋, ?_⟩
    rw [closeness, Scalar.real_below_allowance] at hh
    have habs : |Scalar.remEuclid v (4 * Real.pi) - Scalar.tau| ≤ 0 := hh
    have hrem : Scalar.remEuclid v (4 * Real.pi) = 2 * Real.pi := by
      rw [← sub_eq_zero, ← abs_nonpos_iff, ← Scalar.real_tau]
      exact habs
    rw [Scalar.real_remEuclid hdouble, Int.fract, mul_sub, mul_div_cancel₀ _ hdouble.ne'] at hrem
    linear_combination hrem

theorem rotation_of_identityPhase? {A : Type} [Ring A] [Algebra ℂ A] (P : A)
    (h : (φ = 0 ∧ ∃ k : ℤ, v = k * (4 * Real.pi)) ∨
      (φ = Real.pi ∧ ∃ k : ℤ, v = 2 * Real.pi + k * (4 * Real.pi))) :
    Pauli.rotation P v = Complex.exp (φ * Complex.I) • (1 : A) := by
  rcases h with ⟨rfl, k, rfl⟩ | ⟨rfl, k, rfl⟩
  · simp [Pauli.rotation_double_turns]
  · rw [Pauli.rotation_add_double_turns, Pauli.rotation_two_pi, Complex.exp_pi_mul_I, neg_one_smul]

/-- Which phase gates are listed. -/
theorem turns_of_identityPhase?_p {θ : Angle ℝ} (h : identityPhase? (p θ) = some φ) :
    φ = 0 ∧ ∃ v, θ.value? = some v ∧ Pauli.phase v = 1 := by
  obtain ⟨v, hv, h⟩ := Option.bind_eq_some_iff.mp h
  split_ifs at h with hm
  refine ⟨(Option.some.inj h).symm.trans Scalar.real_zero, v, hv, ?_⟩
  rw [Scalar.real_tau] at hm
  obtain ⟨k, rfl⟩ := (isMultiple_iff Real.two_pi_pos v).mp hm
  exact Pauli.phase_turns k

/-- Which controlled rotations are listed. -/
theorem turns_of_identityPhase?_crx {θ : Angle ℝ} (h : identityPhase? (crx θ) = some φ) :
    φ = 0 ∧ ∃ v, θ.value? = some v ∧ ∀ P : Pauli.Op, Pauli.rotation P v = 1 := by
  have hdouble : (0 : ℝ) < 4 * Real.pi := by positivity
  obtain ⟨v, hv, h⟩ := Option.bind_eq_some_iff.mp h
  split_ifs at h with hm
  refine ⟨(Option.some.inj h).symm.trans Scalar.real_zero, v, hv, ?_⟩
  rw [two_mul_tau] at hm
  obtain ⟨k, rfl⟩ := (isMultiple_iff hdouble v).mp hm
  exact fun P => Pauli.rotation_double_turns P k

theorem ofGate?_of_identityPhase? {g : StandardGate ℝ} (h : g.identityPhase? = some φ)
    (hone : g.numQubits = 1) : Mat2.ofGate? g = some (Mat2.identity.scale (Cx.cis φ)) := by
  have hmade {make : ℝ → Mat2 ℝ} {P : Pauli.Op} (hmake : ∀ t, (make t).toMatrix = Pauli.rotation P t)
      {θ : Angle ℝ} (h : identityPhase? (rx θ) = some φ) :
      θ.value?.map make = some (Mat2.identity.scale (Cx.cis φ)) := by
    obtain ⟨v, hv, hturns⟩ := turns_of_identityPhase? h
    rw [hv]
    refine congrArg some (Mat2.toMatrix_injective ?_)
    rw [hmake, rotation_of_identityPhase? P hturns]
    simp
  cases g with
  | id =>
    obtain rfl := (Option.some.inj h).symm.trans Scalar.real_zero
    refine congrArg some (Mat2.toMatrix_injective ?_)
    simp
  | rx θ => exact hmade Mat2.toMatrix_rx h
  | ry θ => exact hmade Mat2.toMatrix_ry h
  | rz θ => exact hmade Mat2.toMatrix_rz h
  | p θ =>
    obtain ⟨rfl, v, hv, hphase⟩ := turns_of_identityPhase?_p h
    rw [Mat2.ofGate?, hv]
    refine congrArg some (Mat2.toMatrix_injective ?_)
    simp [hphase]
  | crx θ | cry θ | crz θ | cp θ | rxx θ | ryy θ | rzz θ => cases hone
  | _ => cases h

theorem ofGate?_of_identityPhase?₂ {g : StandardGate ℝ} (h : g.identityPhase? = some φ)
    (htwo : g.numQubits = 2) : Mat4.ofGate? g = some (Mat4.identity.scale (Cx.cis φ)) := by
  have hmade {make : ℝ → Mat4 ℝ} {P : Pauli.Op2} (hmake : ∀ t, (make t).toMatrix = Pauli.rotation P t)
      {θ : Angle ℝ} (h : identityPhase? (rx θ) = some φ) :
      θ.value?.map make = some (Mat4.identity.scale (Cx.cis φ)) := by
    obtain ⟨v, hv, hturns⟩ := turns_of_identityPhase? h
    rw [hv]
    refine congrArg some (Mat4.toMatrix_injective ?_)
    rw [hmake, rotation_of_identityPhase? P hturns]
    simp
  have hcontrolled {make : ℝ → Mat2 ℝ} {P : Pauli.Op}
      (hmake : ∀ t, (make t).toMatrix = Pauli.rotation P t) {θ : Angle ℝ}
      (h : identityPhase? (crx θ) = some φ) :
      θ.value?.map (fun t => Mat4.controlled (make t)) =
        some (Mat4.identity.scale (Cx.cis φ)) := by
    obtain ⟨rfl, v, hv, hturns⟩ := turns_of_identityPhase?_crx h
    rw [hv]
    refine congrArg some (Mat4.toMatrix_injective ?_)
    simp [hmake, hturns, Pauli.switch_one]
  cases g with
  | rxx θ => exact hmade Mat4.toMatrix_rxx h
  | ryy θ => exact hmade Mat4.toMatrix_ryy h
  | rzz θ => exact hmade Mat4.toMatrix_rzz h
  | crx θ => exact hcontrolled Mat2.toMatrix_rx h
  | cry θ => exact hcontrolled Mat2.toMatrix_ry h
  | crz θ => exact hcontrolled Mat2.toMatrix_rz h
  | cp θ =>
    obtain ⟨rfl, v, hv, hphase⟩ := turns_of_identityPhase?_p h
    rw [Mat4.ofGate?, hv]
    refine congrArg some (Mat4.toMatrix_injective ?_)
    simp [hphase, Pauli.switch_one]
  | id | rx θ | ry θ | rz θ | p θ => cases htwo
  | _ => cases h

end Phases

/-- The tables of the local steps agree with the matrices, for all angles. A gate and its inverse multiply
to the identity, on one qubit and on two; and where a gate permutes basis states, as `mcx` with any number
of controls, `ccx` and `cswap` do, its inverse takes each of them back. On two qubits such a gate has the
matrix of its permutation. The one gate for two is their product, under any numbers for names. A gate that
is listed as symmetric has the same matrix on exchanged operands. A gate that is listed with a phase is
that phase times the identity. -/
theorem local_laws :
    (∀ g g' : StandardGate ℝ, g.inverse? = some g' →
      (g.numQubits = 1 →
        ∃ u v, Mat2.ofGate? g = some u ∧ Mat2.ofGate? g' = some v ∧ v * u = Mat2.identity) ∧
      (g.numQubits = 2 →
        ∃ u v, Mat4.ofGate? g = some u ∧ Mat4.ofGate? g' = some v ∧ v * u = Mat4.identity) ∧
      ∀ bits bits', g.permute? bits = some bits' → g'.permute? bits' = some bits) ∧
    (∀ (controls : List Bool) (target : Bool),
      (mcx controls.length : StandardGate ℝ).permute? (controls ++ [target]) =
        some (controls ++ [target ^^ controls.all fun c => c])) ∧
    (∀ a b c : Bool,
      (ccx : StandardGate ℝ).permute? [a, b, c] = some [a, b, c ^^ (a && b)] ∧
      (cswap : StandardGate ℝ).permute? [a, b, c] = some (if a then [a, c, b] else [a, b, c])) ∧
    (∀ (g : StandardGate ℝ) (a b : Bool) (bits : List Bool), g.permute? [a, b] = some bits →
      ∃ m c d, Mat4.ofGate? g = some m ∧ bits = [c, d] ∧
        ∀ i, m.get i (basisIndex a b) = if i = basisIndex c d then 1 else 0) ∧
    (∀ (a b m : StandardGate ℝ) (values : String → Option ℝ), a.merge? b = some m →
      Mat2.ofGate? (m.mapAngles (Angle.substitute values)) =
          Option.map₂ (· * ·) (Mat2.ofGate? (b.mapAngles (Angle.substitute values)))
            (Mat2.ofGate? (a.mapAngles (Angle.substitute values))) ∧
        Mat4.ofGate? (m.mapAngles (Angle.substitute values)) =
          Option.map₂ (· * ·) (Mat4.ofGate? (b.mapAngles (Angle.substitute values)))
            (Mat4.ofGate? (a.mapAngles (Angle.substitute values)))) ∧
    (∀ g : StandardGate ℝ, g.isSymmetric = true →
      (Mat4.ofGate? g).map Mat4.swapOperands = Mat4.ofGate? g) ∧
    ∀ (g : StandardGate ℝ) (φ : ℝ), g.identityPhase? = some φ →
      (g.numQubits = 1 → Mat2.ofGate? g = some (Mat2.identity.scale (Cx.cis φ))) ∧
      (g.numQubits = 2 → Mat4.ofGate? g = some (Mat4.identity.scale (Cx.cis φ))) := by
  refine ⟨fun g g' hg => ⟨exists_mul_eq_identity hg, exists_mul_eq_identity₂ hg, ?_⟩, permute?_mcx,
    fun a b c => ⟨?_, rfl⟩, fun g a b bits hb => get_ofGate?_of_permute? hb,
    fun a b m values hm => ofGate?_merge hm values, fun g hg => swapOperands_ofGate? hg,
    fun g φ h => ⟨ofGate?_of_identityPhase? h, ofGate?_of_identityPhase?₂ h⟩⟩
  · exact fun bits bits' hb => permute?_inverse hg hb
  · cases a <;> cases b <;> rfl

/-- The root of a flip is undone by its inverse, and a flip under three controls by itself. -/
theorem local_laws_roots_and_flips :
    (∃ u v, Mat2.ofGate? (sx : StandardGate ℝ) = some u ∧ Mat2.ofGate? (sxdg : StandardGate ℝ) = some v ∧
      v * u = Mat2.identity) ∧
    (mcx 3 : StandardGate ℝ).permute? [true, true, true, false] = some [true, true, true, true] ∧
    (mcx 3 : StandardGate ℝ).permute? [true, true, true, true] = some [true, true, true, false] :=
  ⟨(local_laws.1 sx sxdg rfl).1 rfl, rfl,
    (local_laws.1 (mcx 3) (mcx 3) rfl).2.2 [true, true, true, false] [true, true, true, true] rfl⟩

end StandardGate
end QuantumCompiler
