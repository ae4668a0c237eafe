import QuantumCompiler.Proofs.Synthesis.CxSequence
import QuantumCompiler.Proofs.Synthesis.Fused

/-!
# The steps of an interaction

Angles are reduced by half turns, the template is selected by the axes that still turn, and the half turns
come back as pairs of Pauli gates. In exact arithmetic the steps make the interaction up to a phase, whatever
its angles, and take as many `cx` as its reduced angles need.
-/
namespace QuantumCompiler

open Complex (I exp)
open Pauli (Op2)
open scoped Kronecker Real

namespace CxSequence

open CxStep

attribute [local instance] Scalar.real

/-! ## Reduced angles -/

section Reduced

theorem gt_remEuclid_two (k : ℤ) :
    Scalar.gt (Scalar.remEuclid (k : ℝ) (@OfNat.ofNat ℝ 2 (Scalar.instOfNat 2))) Scalar.half = true ↔
      Odd k := by
  rw [Scalar.real_ofNat, Scalar.real_remEuclid two_pos, Scalar.real_half]
  show decide ((1 / 2 : ℝ) < _) = true ↔ _
  rw [decide_eq_true_iff]
  rcases Int.even_or_odd' k with ⟨m, rfl | rfl⟩
  · have hfract : Int.fract (((2 * m : ℤ) : ℝ) / 2) = 0 := by
      push_cast
      rw [mul_div_cancel_left₀ _ two_ne_zero, Int.fract_intCast]
    rw [hfract]
    norm_num
  · have hfract : Int.fract (((2 * m + 1 : ℤ) : ℝ) / 2) = 1 / 2 := by
      push_cast
      rw [add_div, mul_div_cancel_left₀ _ two_ne_zero, Int.fract_intCast_add]
      norm_num
    rw [hfract]
    norm_num

/-- An angle is reduced to the nearest half turn, whose parity is told. -/
theorem reduceHalfTurns_spec (a : ℝ) : ∃ k : ℤ, (reduceHalfTurns a).1 = a - k * π ∧
    |(reduceHalfTurns a).1| ≤ π / 2 ∧ ((reduceHalfTurns a).2 = true ↔ Odd k) := by
  obtain ⟨k, hk, hnear⟩ := Scalar.real_round (a / π)
  have hreduced : (reduceHalfTurns a).1 = a - k * π := congrArg (fun t => a - t * π) hk
  refine ⟨k, hreduced, ?_, ?_⟩
  · have hsplit : a - k * π = (a / π - k) * π := by
      rw [sub_mul, div_mul_cancel₀ _ Real.pi_ne_zero]
    rw [hreduced, hsplit, abs_mul, abs_of_pos Real.pi_pos]
    calc |a / π - k| * π ≤ 1 / 2 * π := mul_le_mul_of_nonneg_right hnear Real.pi_pos.le
      _ = π / 2 := by ring
  · rw [← gt_remEuclid_two, ← hk]
    rfl

end Reduced

/-! ## Turns by angles -/

section Turns

/-- The angles of an interaction by axis. -/
def byAxis (x y z : ℝ) : Axis → ℝ
  | .x => x
  | .y => y
  | .z => z

/-- The operator of an interaction with given angles. -/
noncomputable def turnsBy (t : Axis → ℝ) : Op2 := Pauli.turns (t .x) (t .y) (t .z)

theorem turnsBy_zero : turnsBy 0 = 1 := by
  simp [turnsBy, Pauli.turns, Pauli.rotation_zero]

theorem turnsBy_mul (s t : Axis → ℝ) : turnsBy s * turnsBy t = turnsBy (s + t) :=
  Pauli.turns_mul_turns _ _ _ _ _ _

/-- A single axis. -/
theorem turnsBy_single (a : Axis) (θ : ℝ) :
    turnsBy (Pi.single a θ) = Pauli.rotation a.double θ := by
  cases a <;>
    simp [turnsBy, Pauli.turns, Pauli.rotation_zero, Axis.double, Axis.pauli]

/-- Steps make a turn, up to a phase. -/
def Makes (steps : List (CxStep ℝ)) (t : Axis → ℝ) : Prop :=
  Pauli.UpToPhase (operator steps) (turnsBy t)

theorem makes_nil : Makes [] 0 := .of_eq turnsBy_zero.symm

theorem Makes.append {a b : List (CxStep ℝ)} {s t : Axis → ℝ} (ha : Makes a s) (hb : Makes b t) :
    Makes (a ++ b) (s + t) := by
  have hboth := hb.mul ha
  rwa [turnsBy_mul, add_comm t s, ← operator_append] at hboth

/-- Equal Pauli gates on both operands are half a turn. -/
theorem makes_pair (a : Axis) : Makes (pair a.pauli) (Pi.single a π) := by
  rw [Makes, operator_pair, turnsBy_single]
  exact (Pauli.upToPhase_rotation_pi a.double).symm

/-- Full turns need no gates. -/
theorem makes_fullTurns (a : Axis) (m : ℤ) : Makes [] (Pi.single a (m * (2 * π))) := by
  rw [Makes, turnsBy_single, Pauli.rotation_turns]
  exact .smul _ _

/-- The half turns that were taken off an angle come back as a pair, or not at all. -/
theorem makes_halfTurns (a : Axis) {odd : Bool} {k : ℤ} (hk : odd = true ↔ Odd k) :
    Makes (if odd then pair a.pauli else []) (Pi.single a (k * π)) := by
  cases odd with
  | false =>
    obtain ⟨m, rfl⟩ : Even k := Int.not_odd_iff_even.mp fun h => Bool.false_ne_true (hk.mpr h)
    have hangle : ((m + m : ℤ) : ℝ) * π = m * (2 * π) := by push_cast; ring
    rw [hangle]
    exact makes_fullTurns a m
  | true =>
    obtain ⟨m, rfl⟩ := hk.mp rfl
    have hangle : ((2 * m + 1 : ℤ) : ℝ) * π = m * (2 * π) + π := by push_cast; ring
    rw [hangle, Pi.single_add]
    exact (makes_fullTurns a m).append (makes_pair a)

end Turns

/-! ## Which template -/

section Selection

open Classical in
/-- The number of `cx` that an interaction with reduced angles takes. -/
noncomputable def cxNeeded (x y z : ℝ) : Nat :=
  let turning := [x, y, z].filter fun a => a ≠ 0
  if turning = [] then 0
  else if ∃ a, turning = [a] ∧ |a| = π / 2 then 1
  else if turning.length < 3 then 2
  else 3

/-- What is selected for reduced angles. -/
inductive Selected (x y z : ℝ) : List (CxStep ℝ) × List (CxStep ℝ) → Prop
  | none (h : byAxis x y z = 0) (hn : cxNeeded x y z = 0) : Selected x y z ([], [])
  | backward (a : Axis) (h : byAxis x y z = Pi.single a (-(π / 2))) (hn : cxNeeded x y z = 1) :
    Selected x y z (conjugated a.basis oneCx, [])
  /-- Half a turn forwards completes a quarter turn backwards. -/
  | forward (a : Axis) (h : byAxis x y z = Pi.single a (π / 2)) (hn : cxNeeded x y z = 1) :
    Selected x y z (conjugated a.basis oneCx, pair a.pauli)
  | xz (hy : y = 0) (hn : cxNeeded x y z = 2) : Selected x y z (twoCx x z, [])
  | yz (hx : x = 0) (hn : cxNeeded x y z = 2) :
    Selected x y z (conjugated (.rz Scalar.quarterTurn) (twoCx y z), [])
  | xy (hz : z = 0) (hn : cxNeeded x y z = 2) :
    Selected x y z (conjugated (.rx Scalar.quarterTurn) (twoCx x y), [])
  | all (hn : cxNeeded x y z = 3) : Selected x y z (threeCx x y z, [])

theorem gt_abs_snap (a : ℝ) : Scalar.gt (Scalar.abs a) snap = decide (a ≠ 0) := by
  have hsnap : (snap : ℝ) = 0 := rfl
  rw [hsnap, Bool.eq_iff_iff, decide_eq_true_iff, ← abs_pos]
  exact decide_eq_true_iff

theorem below_snap (a : ℝ) :
    Scalar.below (Scalar.abs (Scalar.abs a - Scalar.quarterTurn)) snap = true ↔ |a| = π / 2 := by
  rw [snap, Scalar.real_below_allowance, Scalar.real_quarterTurn]
  exact abs_nonpos_iff.trans sub_eq_zero

variable {x y z : ℝ}

/-- A single angle takes one `cx` if it is a quarter turn, and the general template otherwise. -/
theorem selected_single {a : Axis} {θ : ℝ} (h : byAxis x y z = Pi.single a θ) {general : List (CxStep ℝ)}
    (hone : |θ| = π / 2 → cxNeeded x y z = 1)
    (htwo : |θ| ≠ π / 2 → Selected x y z (general, [])) :
    Selected x y z (if Scalar.below (Scalar.abs (Scalar.abs θ - Scalar.quarterTurn)) snap = true then
      (conjugated a.basis oneCx,
        if Scalar.gt θ (@OfNat.ofNat ℝ 0 (Scalar.instOfNat 0)) = true then pair a.pauli else [])
      else (general, [])) := by
  have hgt : Scalar.gt θ (@OfNat.ofNat ℝ 0 (Scalar.instOfNat 0)) = true ↔ 0 < θ := by
    rw [Scalar.real_zero]
    exact decide_eq_true_iff
  split_ifs with hq hpos
  · rw [below_snap] at hq
    rw [hgt] at hpos
    have hθ : θ = π / 2 := by rwa [abs_of_pos hpos] at hq
    exact .forward a (hθ ▸ h) (hone hq)
  · rw [below_snap] at hq
    rw [hgt, not_lt] at hpos
    have hθ : θ = -(π / 2) := by rw [← hq, abs_of_nonpos hpos, neg_neg]
    exact .backward a (hθ ▸ h) (hone hq)
  · exact htwo fun h => hq ((below_snap θ).mpr h)

theorem byAxis_single (θ : ℝ) : byAxis θ 0 0 = Pi.single .x θ ∧ byAxis 0 θ 0 = Pi.single .y θ ∧
    byAxis 0 0 θ = Pi.single .z θ := by
  refine ⟨?_, ?_, ?_⟩ <;> funext a <;> cases a <;> simp [byAxis]

theorem selected_core (x y z : ℝ) : Selected x y z (core x y z) := by
  unfold core
  by_cases hx : x = 0 <;> by_cases hy : y = 0 <;> by_cases hz : z = 0 <;>
    simp only [gt_abs_snap, hx, hy, hz, List.filter_cons, List.filter_nil, ne_eq, not_true_eq_false,
      not_false_eq_true, decide_true, decide_false, if_true, Bool.false_eq_true, if_false]
  · exact .none (by funext a; cases a <;> rfl) (by simp [cxNeeded])
  · exact selected_single (byAxis_single z).2.2 (fun hq => by simp [cxNeeded, hz, hq])
      fun hq => .xz rfl (by simp [cxNeeded, hz, hq])
  · exact selected_single (byAxis_single y).2.1 (fun hq => by simp [cxNeeded, hy, hq])
      fun hq => .yz rfl (by simp [cxNeeded, hy, hq])
  · exact .yz rfl (by simp [cxNeeded, hy, hz])
  · exact selected_single (byAxis_single x).1 (fun hq => by simp [cxNeeded, hx, hq])
      fun hq => .xz rfl (by simp [cxNeeded, hx, hq])
  · exact .xz rfl (by simp [cxNeeded, hx, hz])
  · exact .xy rfl (by simp [cxNeeded, hx, hy])
  · exact .all (by simp [cxNeeded, hx, hy, hz])

variable {c : List (CxStep ℝ) × List (CxStep ℝ)}

/-- What is selected makes the turn. -/
theorem Selected.makes (h : Selected x y z c) :
    ∃ s p, Makes c.1 s ∧ Makes c.2 p ∧ s + p = byAxis x y z := by
  have hone (a : Axis) : Makes (conjugated a.basis oneCx) (Pi.single a (-(π / 2))) := by
    rw [Makes, turnsBy_single]
    exact upToPhase_quarter a
  cases h with
  | none h => exact ⟨0, 0, makes_nil, makes_nil, by rw [h, add_zero]⟩
  | backward a h => exact ⟨_, 0, hone a, makes_nil, by rw [h, add_zero]⟩
  | forward a h =>
    refine ⟨_, _, hone a, makes_pair a, ?_⟩
    have hangle : -(π / 2) + π = π / 2 := by ring
    rw [h, ← Pi.single_add, hangle]
  | xz hy =>
    refine ⟨byAxis x y z, 0, .of_eq ?_, makes_nil, add_zero _⟩
    simp [operator_twoCx, turnsBy, byAxis, Pauli.turns, hy, Pauli.rotation_zero]
  | yz hx =>
    refine ⟨byAxis x y z, 0, .of_eq ?_, makes_nil, add_zero _⟩
    simp [operator_conjugated_rz, turnsBy, byAxis, Pauli.turns, hx, Pauli.rotation_zero]
  | xy hz =>
    refine ⟨byAxis x y z, 0, .of_eq ?_, makes_nil, add_zero _⟩
    simp [operator_conjugated_rx, turnsBy, byAxis, Pauli.turns, hz, Pauli.rotation_zero]
  | all =>
    refine ⟨byAxis x y z, 0, ?_, makes_nil, add_zero _⟩
    rw [Makes, operator_threeCx]
    exact (Pauli.UpToPhase.smul _ _).symm

theorem Selected.cxCount_eq (h : Selected x y z c) :
    cxCount c.1 = cxNeeded x y z ∧ cxCount c.2 = 0 := by
  cases h with
  | none _ hn => exact ⟨hn.symm, rfl⟩
  | backward a _ hn => exact ⟨by rw [cxCount_conjugated, hn]; rfl, rfl⟩
  | forward a _ hn => exact ⟨by rw [cxCount_conjugated, hn]; rfl, rfl⟩
  | xz _ hn => exact ⟨hn.symm, rfl⟩
  | yz _ hn => exact ⟨by rw [cxCount_conjugated, hn]; rfl, rfl⟩
  | xy _ hn => exact ⟨by rw [cxCount_conjugated, hn]; rfl, rfl⟩
  | all hn => exact ⟨hn.symm, rfl⟩

end Selection

/-! ## Any angles -/

section Angles

variable (x y z : ℝ)

theorem makes_ofAngles : Makes (ofAngles x y z) (byAxis x y z) := by
  obtain ⟨i, hx, -, hi⟩ := reduceHalfTurns_spec x
  obtain ⟨j, hy, -, hj⟩ := reduceHalfTurns_spec y
  obtain ⟨k, hz, -, hk⟩ := reduceHalfTurns_spec z
  obtain ⟨s, p, hs, hp, hsp⟩ := (selected_core (reduceHalfTurns x).1 (reduceHalfTurns y).1
    (reduceHalfTurns z).1).makes
  have hhalf := ((makes_halfTurns .x hi).append (makes_halfTurns .y hj)).append (makes_halfTurns .z hk)
  have hangles : byAxis x y z = s + (Pi.single Axis.x (i * π : ℝ) + Pi.single Axis.y (j * π : ℝ) +
      Pi.single Axis.z (k * π : ℝ)) + p := by
    rw [add_right_comm, hsp, hx, hy, hz]
    funext a
    cases a <;> simp [byAxis]
  have hall := (hs.append hhalf).append hp
  rwa [← hangles] at hall

theorem cxCount_ofAngles : cxCount (ofAngles x y z) =
    cxNeeded (reduceHalfTurns x).1 (reduceHalfTurns y).1 (reduceHalfTurns z).1 := by
  have hpair (odd : Bool) (u : Mat2 ℝ) : cxCount (if odd then pair u else []) = 0 := by
    cases odd <;> rfl
  obtain ⟨hsteps, hpaulis⟩ := (selected_core (reduceHalfTurns x).1 (reduceHalfTurns y).1
    (reduceHalfTurns z).1).cxCount_eq
  simp only [ofAngles, cxCount_append, hpair, hpaulis, hsteps, add_zero]

/-- The steps of an interaction are right for all angles: reduced by the nearest half turns, they need no
`cx` when none of them is left, one for a lone quarter turn, two when one of them vanishes otherwise and
three when none does, and the product is the interaction up to a phase. Fusing the steps with any blocks
around them keeps both and leaves at most one block on each operand between neighbouring `cx`. -/
theorem ofAngles_exact :
    (∀ a : ℝ, ∃ k : ℤ, (reduceHalfTurns a).1 = a - k * π ∧ |(reduceHalfTurns a).1| ≤ π / 2) ∧
    (∃ φ : ℝ, (product (ofAngles x y z)).scale (Cx.cis φ) = Mat4.rxx x * Mat4.ryy y * Mat4.rzz z) ∧
    cxCount (ofAngles x y z) =
      cxNeeded (reduceHalfTurns x).1 (reduceHalfTurns y).1 (reduceHalfTurns z).1 ∧
    ∀ (after : Mat2 ℝ × Mat2 ℝ) (u v : Mat2 ℝ),
      Fused (fuse after (ofAngles x y z) u v) ∧
      (fuse after (ofAngles x y z) u v).filter isCx = (ofAngles x y z).filter isCx ∧
      ∃ φ : ℝ, (product (fuse after (ofAngles x y z) u v)).scale (Cx.cis φ) =
        Mat4.kron after.1 after.2 * product (ofAngles x y z) * Mat4.kron u v := by
  refine ⟨fun a => ?_, ?_, cxCount_ofAngles x y z, fun after u v => ?_⟩
  · obtain ⟨k, hk, hle, -⟩ := reduceHalfTurns_spec a
    exact ⟨k, hk, hle⟩
  · obtain ⟨φ, hφ⟩ := makes_ofAngles x y z
    refine ⟨φ, Mat4.toMatrix_injective ?_⟩
    rw [Mat4.toMatrix_scale, Cx.toComplex_cis, toMatrix_product, hφ, Mat4.toMatrix_mul, Mat4.toMatrix_mul,
      Mat4.toMatrix_rxx, Mat4.toMatrix_ryy, Mat4.toMatrix_rzz]
    rfl
  · obtain ⟨φ, hφ⟩ := upToPhase_fuse after (ofAngles x y z) u v
    refine ⟨fused_fuse after _ u v, filter_isCx_fuse after _ u v, φ, Mat4.toMatrix_injective ?_⟩
    rw [Mat4.toMatrix_scale, Cx.toComplex_cis, toMatrix_product, hφ, Mat4.toMatrix_mul, Mat4.toMatrix_mul,
      Mat4.toMatrix_kron, Mat4.toMatrix_kron, toMatrix_product]

end Angles

end CxSequence
end QuantumCompiler
