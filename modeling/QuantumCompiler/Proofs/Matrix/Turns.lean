import QuantumCompiler.Proofs.Matrix.Pauli

/-!
# Turns about pairs of axes

The interaction of two qubits is a turn about each of `X⊗X`, `Y⊗Y` and `Z⊗Z`. Flips turn one operand's axes
into these pairs, so two flips around turns of single operands turn about two pairs at once, one flip makes a
quarter turn about one pair, and three flips, the middle one the other way round, turn about all three.
-/
namespace QuantumCompiler.Pauli

open Complex Matrix
open scoped Kronecker Real

/-! ## The pairs -/

section Axes

theorem commute_X_Z : Commute (X ⊗ₖ X) (Z ⊗ₖ Z) := by
  show (X ⊗ₖ X) * (Z ⊗ₖ Z) = (Z ⊗ₖ Z) * (X ⊗ₖ X)
  rw [← mul_kronecker_mul, ← mul_kronecker_mul, Z_mul_X', mul_neg]
  ext i j
  simp

theorem Y_kronecker_Y : Y ⊗ₖ Y = -((X ⊗ₖ X) * (Z ⊗ₖ Z)) := by
  rw [← mul_kronecker_mul, X_mul_Z_eq, smul_kronecker, kronecker_smul, smul_smul, neg_mul_neg, I_mul_I,
    neg_one_smul, neg_neg]

theorem commute_X_Y : Commute (X ⊗ₖ X) (Y ⊗ₖ Y) := by
  rw [Y_kronecker_Y]
  exact ((Commute.refl _).mul_right commute_X_Z).neg_right

theorem commute_Y_Z : Commute (Y ⊗ₖ Y) (Z ⊗ₖ Z) := by
  rw [Y_kronecker_Y]
  exact (commute_X_Z.mul_left (Commute.refl _)).neg_left

/-- Turns about every pair of axes, by the given angles. -/
noncomputable def turns (x y z : ℝ) : Op2 :=
  rotation (X ⊗ₖ X) x * rotation (Y ⊗ₖ Y) y * rotation (Z ⊗ₖ Z) z

theorem turns_mul_turns (x y z x' y' z' : ℝ) :
    turns x y z * turns x' y' z' = turns (x + x') (y + y') (z + z') := by
  have hX (t : ℝ) := commute_rotation commute_X_Y.symm y t
  have hXZ := commute_rotation commute_X_Z.symm z x'
  have hYZ := commute_rotation commute_Y_Z.symm z y'
  rw [turns, turns, (hXZ.mul_right hYZ).mul_mul_mul_comm, (hX x').mul_mul_mul_comm,
    rotation_mul_rotation (kronecker_mul_self X_mul_X X_mul_X),
    rotation_mul_rotation (kronecker_mul_self Y_mul_Y Y_mul_Y),
    rotation_mul_rotation (kronecker_mul_self Z_mul_Z Z_mul_Z), turns]

end Axes

/-! ## One flip and two -/

section Flips

/-- A turn of the control spreads over both operands. -/
theorem cx_mul_rotation_X_mul_cx (θ : ℝ) :
    cx * (rotation X θ ⊗ₖ 1) * cx = rotation (X ⊗ₖ X) θ := by
  rw [rotation_kronecker_one, mul_rotation_mul cx_mul_cx, cx_mul_X_kronecker_mul_cx]

/-- So does a turn of the target. -/
theorem cx_mul_rotation_Z_mul_cx (θ : ℝ) :
    cx * (1 ⊗ₖ rotation Z θ) * cx = rotation (Z ⊗ₖ Z) θ := by
  rw [one_kronecker_rotation, mul_rotation_mul cx_mul_cx, cx_mul_one_kronecker_Z_mul_cx]

theorem two_flips (x z : ℝ) : cx * ((1 ⊗ₖ rotation Z z) * ((rotation X x ⊗ₖ 1) * cx)) =
    rotation (X ⊗ₖ X) x * rotation (Z ⊗ₖ Z) z := by
  calc _ = (cx * (1 ⊗ₖ rotation Z z) * cx) * (cx * (rotation X x ⊗ₖ 1) * cx) := by
        simp only [mul_assoc]
        rw [← mul_assoc cx cx, cx_mul_cx, one_mul]
    _ = rotation (X ⊗ₖ X) x * rotation (Z ⊗ₖ Z) z := by
        rw [cx_mul_rotation_X_mul_cx, cx_mul_rotation_Z_mul_cx, (commute_rotation commute_X_Z x z).eq]

/-- Quarter turns beside a flip turn the second operand under the sign of the first. -/
theorem quarters_mul_cx : (1 ⊗ₖ rotation X (-(π / 2))) * ((rotation Z (-(π / 2)) ⊗ₖ 1) * cx) =
    exp ((π / 4 : ℝ) * I) • rotation (Z ⊗ₖ X) (-(π / 2)) := by
  have hflip : rotation X (-(π / 2)) * X = I • rotation X (π / 2) := by
    have hhalf : -(π / 2) + π = π / 2 := by ring
    have hX : X = I • rotation X π := by
      rw [rotation_pi, smul_smul, mul_neg, I_mul_I, neg_neg, one_smul]
    calc rotation X (-(π / 2)) * X = rotation X (-(π / 2)) * (I • rotation X π) := by rw [← hX]
      _ = I • rotation X (π / 2) := by
          rw [mul_smul_comm, rotation_mul_rotation X_mul_X, hhalf]
  have hclear : -(-(π / 2) / 2) = π / 4 := by ring
  have hset : -(π / 2) / 2 = π / 4 + -(π / 2) := by ring
  rw [rotation_Z_kronecker, rotation_Z_kronecker_eq, one_kronecker, cx, hclear, hset, exp_add_mul_I,
    exp_neg_quarter, neg_neg]
  simp only [switch_mul_switch, mul_smul_comm, mul_one, smul_mul_assoc, one_mul, hflip, smul_switch,
    smul_smul, mul_assoc, neg_mul, I_mul_I, neg_neg]

theorem one_flip : (H ⊗ₖ 1) * ((1 ⊗ₖ rotation X (-(π / 2))) *
    ((rotation Z (-(π / 2)) ⊗ₖ 1) * (cx * (H ⊗ₖ 1)))) =
      exp ((π / 4 : ℝ) * I) • rotation (X ⊗ₖ X) (-(π / 2)) := by
  have hH : (H ⊗ₖ (1 : Op)) * (H ⊗ₖ (1 : Op)) = 1 := by
    rw [← mul_kronecker_mul, H_mul_H, one_mul, one_kronecker_one]
  have haxis : (H ⊗ₖ 1) * (Z ⊗ₖ X) * (H ⊗ₖ 1) = X ⊗ₖ X := by
    rw [← mul_kronecker_mul, ← mul_kronecker_mul, H_mul_Z_mul_H, one_mul, mul_one]
  calc _ = (H ⊗ₖ 1) * ((1 ⊗ₖ rotation X (-(π / 2))) * ((rotation Z (-(π / 2)) ⊗ₖ 1) * cx)) *
        (H ⊗ₖ 1) := by simp only [mul_assoc]
    _ = exp ((π / 4 : ℝ) * I) • rotation (X ⊗ₖ X) (-(π / 2)) := by
        rw [quarters_mul_cx, mul_smul_comm, smul_mul_assoc, mul_rotation_mul hH, haxis]

end Flips

/-! ## Three flips -/

section ThreeFlips

/-- The sign of its control passes a flip. -/
theorem rotation_Z_mul_cx (θ : ℝ) : (rotation Z θ ⊗ₖ 1) * cx = cx * (rotation Z θ ⊗ₖ 1) := by
  rw [rotation_Z_kronecker_eq, cx, switch_mul_switch, switch_mul_switch]
  simp only [smul_mul_assoc, mul_smul_comm, one_mul, mul_one]

theorem rotation_Z_mul_exchange_cx (θ : ℝ) :
    (1 ⊗ₖ rotation Z θ) * exchange cx = exchange cx * (1 ⊗ₖ rotation Z θ) := by
  have h := congrArg exchange (rotation_Z_mul_cx θ)
  rwa [exchange_mul, exchange_mul, exchange_kronecker] at h

theorem rotation_Z_mul_exchange_cx' (θ : ℝ) :
    (rotation Z θ ⊗ₖ 1) * exchange cx = exchange cx * rotation (Z ⊗ₖ Z) θ := by
  have h := congrArg exchange (cx_mul_rotation_Z_mul_cx θ)
  rw [exchange_mul, exchange_mul, exchange_kronecker, exchange_rotation, exchange_kronecker] at h
  rw [← h, ← mul_assoc, ← mul_assoc, exchange_cx_mul_exchange_cx, one_mul]

/-- What a flip makes of an operator, it takes back. -/
theorem exchange_cx_mul_mul {M N : Op2} (h : cx * M * cx = N) :
    exchange cx * exchange N * exchange cx = exchange M := by
  rw [← h, exchange_mul, exchange_mul]
  simp only [mul_assoc, exchange_cx_mul_exchange_cx, mul_one]
  rw [← mul_assoc, exchange_cx_mul_exchange_cx, one_mul]

/-- Between flips the first operand only switches the turns of the second. -/
theorem turns_between_flips (x y z : ℝ) : exchange cx * turns x y z * exchange cx =
    switch (exp ((-(z / 2) : ℝ) * I) • rotation X (x - y))
      (exp ((z / 2 : ℝ) * I) • rotation X (x + y)) := by
  have hcx := exchange_cx_mul_exchange_cx
  have hsplit (M N : Op2) : exchange cx * (M * N) * exchange cx =
      (exchange cx * M * exchange cx) * (exchange cx * N * exchange cx) := by
    simp only [mul_assoc]
    rw [← mul_assoc (exchange cx) (exchange cx), hcx, one_mul]
  have hX : exchange cx * (X ⊗ₖ X) * exchange cx = 1 ⊗ₖ X := by
    have h := exchange_cx_mul_mul cx_mul_X_kronecker_mul_cx
    rwa [exchange_kronecker, exchange_kronecker] at h
  have hZ : exchange cx * (Z ⊗ₖ Z) * exchange cx = Z ⊗ₖ 1 := by
    have h := exchange_cx_mul_mul cx_mul_one_kronecker_Z_mul_cx
    rwa [exchange_kronecker, exchange_kronecker] at h
  have hY : exchange cx * (Y ⊗ₖ Y) * exchange cx = -(Z ⊗ₖ X) := by
    rw [Y_kronecker_Y, mul_neg, neg_mul, hsplit, hX, hZ, ← mul_kronecker_mul, one_mul, mul_one]
  rw [turns, hsplit, hsplit, mul_rotation_mul hcx, mul_rotation_mul hcx, mul_rotation_mul hcx, hX, hY, hZ,
    neg_rotation, ← one_kronecker_rotation, ← rotation_kronecker_one, rotation_Z_kronecker,
    rotation_Z_kronecker_eq, one_kronecker]
  simp only [switch_mul_switch, mul_smul_comm, mul_one, neg_neg, rotation_mul_rotation X_mul_X,
    sub_eq_add_neg]

/-- The turns of the second operand where the first one is clear. -/
theorem middle_clear (x y : ℝ) : rotation Z (-(π / 2)) *
    (rotation Y (-y - π / 2) * (rotation Y (x + π / 2) * rotation Z (π / 2))) = rotation X (x - y) := by
  have hangle : -y - π / 2 + (x + π / 2) = x - y := by ring
  rw [← mul_assoc (rotation Y _), rotation_mul_rotation Y_mul_Y, hangle, ← mul_assoc,
    mul_rotation_mul (rotation_neg_mul_rotation Z_mul_Z _), quarter_turn_Z_Y]

/-- The turns of the second operand where the first one is set. -/
theorem middle_set (x y : ℝ) : rotation Z (π / 2) *
    (rotation Y (-y - π / 2) * (X * (rotation Y (x + π / 2) * rotation Z (π / 2)))) =
      (-I) • rotation X (x + y) := by
  have hangle : -y - π / 2 + -(x + π / 2) = -π + -(x + y) := by ring
  have hpass : X * (rotation Y (x + π / 2) * rotation Z (π / 2)) =
      rotation Y (-(x + π / 2)) * (rotation Z (-(π / 2)) * X) := by
    rw [← mul_assoc, mul_rotation Y_mul_X, mul_assoc, mul_rotation Z_mul_X']
  calc _ = rotation Z (π / 2) * (rotation Y (-π) * rotation Y (-(x + y))) *
        rotation Z (-(π / 2)) * X := by
        rw [hpass, ← mul_assoc (rotation Y _), rotation_mul_rotation Y_mul_Y, hangle,
          ← rotation_mul_rotation Y_mul_Y]
        simp only [mul_assoc]
    _ = I • (rotation Z (π / 2) * Y * rotation Z (-(π / 2)) *
        (rotation Z (π / 2) * rotation Y (-(x + y)) * rotation Z (-(π / 2))) * X) := by
        rw [rotation_neg_pi, smul_mul_assoc, mul_smul_comm, smul_mul_assoc, smul_mul_assoc]
        simp only [mul_assoc]
        rw [← mul_assoc (rotation Z (-(π / 2))) (rotation Z (π / 2)),
          rotation_neg_mul_rotation Z_mul_Z, one_mul]
    _ = (-I) • rotation X (x + y) := by
        rw [quarter_turn_back_Z_Y, mul_rotation_mul (rotation_mul_rotation_neg Z_mul_Z _),
          quarter_turn_back_Z_Y, neg_rotation, neg_neg, mul_assoc, rotation_mul rfl, ← mul_assoc, neg_mul, X_mul_X, neg_one_mul, smul_neg, neg_smul]

theorem middle_flip (x y z : ℝ) :
    rotation (Z ⊗ₖ Z) (-(π / 2)) * ((1 ⊗ₖ rotation Y (-y - π / 2)) * (cx *
      (rotation Z (z + π / 2) ⊗ₖ (rotation Y (x + π / 2) * rotation Z (π / 2))))) =
      exp ((-(π / 4) : ℝ) * I) • (exchange cx * turns x y z * exchange cx) := by
  have hclear : -((z + π / 2) / 2) = -(π / 4) + -(z / 2) := by ring
  have hset : (z + π / 2) / 2 = -(π / 4) + π / 2 + z / 2 := by ring
  rw [turns_between_flips, rotation_Z_kronecker, rotation_Z_kronecker_eq, one_kronecker, cx, neg_neg]
  simp only [switch_mul_switch, one_mul, mul_smul_comm, middle_clear, middle_set, smul_switch, smul_smul]
  rw [hclear, hset]
  simp only [exp_add_mul_I, exp_quarter]
  congr 2
  linear_combination (-exp ((-(π / 4) : ℝ) * I) * exp ((z / 2 : ℝ) * I)) * I_sq

theorem three_flips (x y z : ℝ) :
    (rotation Z (-(π / 2)) ⊗ₖ 1) * (exchange cx * ((1 ⊗ₖ rotation Y (-y - π / 2)) * (cx *
      ((1 ⊗ₖ rotation Y (x + π / 2)) * ((rotation Z (z + π / 2) ⊗ₖ 1) * (exchange cx *
        (1 ⊗ₖ rotation Z (π / 2)))))))) = exp ((-(π / 4) : ℝ) * I) • turns x y z := by
  have hlocal : rotation Z (z + π / 2) ⊗ₖ (rotation Y (x + π / 2) * rotation Z (π / 2)) =
      (1 ⊗ₖ rotation Y (x + π / 2)) * ((rotation Z (z + π / 2) ⊗ₖ 1) * (1 ⊗ₖ rotation Z (π / 2))) := by
    simp only [← mul_kronecker_mul, one_mul, mul_one]
  calc _ = exchange cx * (rotation (Z ⊗ₖ Z) (-(π / 2)) * ((1 ⊗ₖ rotation Y (-y - π / 2)) * (cx *
        (rotation Z (z + π / 2) ⊗ₖ (rotation Y (x + π / 2) * rotation Z (π / 2)))))) * exchange cx := by
        rw [← mul_assoc (rotation Z (-(π / 2)) ⊗ₖ 1), rotation_Z_mul_exchange_cx', hlocal]
        simp only [mul_assoc, rotation_Z_mul_exchange_cx]
    _ = exp ((-(π / 4) : ℝ) * I) • turns x y z := by
        rw [middle_flip, mul_smul_comm, smul_mul_assoc]
        simp only [mul_assoc, exchange_cx_mul_exchange_cx, mul_one]
        rw [← mul_assoc (exchange cx) (exchange cx), exchange_cx_mul_exchange_cx, one_mul]

end ThreeFlips

end QuantumCompiler.Pauli
