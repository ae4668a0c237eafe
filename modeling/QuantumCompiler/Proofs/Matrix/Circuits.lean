import QuantumCompiler.Proofs.Matrix.Pauli

/-!
# Two-qubit gates as circuits

Every two-qubit gate of a compiler is a circuit of one-qubit gates and controlled flips, for all angles and
without a phase left over, and the controlled flip is a circuit around each other entangler. Factors stand
in the order of operators, the last one acting first.
-/
namespace QuantumCompiler.Pauli

open Complex Matrix
open scoped Kronecker Real

/-! ## Behind a control -/

section Controlled

theorem controlled_Y : (1 ⊗ₖ phase (π / 2)) * (cx * (1 ⊗ₖ phase (-(π / 2)))) = switch 1 Y := by
  rw [one_kronecker, one_kronecker, cx, switch_mul_switch, switch_mul_switch, one_mul,
    phase_mul_phase_neg, ← mul_assoc, quarter_phase_X]

theorem controlled_Z : (1 ⊗ₖ H) * (cx * (1 ⊗ₖ H)) = switch 1 Z := by
  rw [one_kronecker, cx, switch_mul_switch, switch_mul_switch, one_mul, H_mul_H, ← mul_assoc, H_mul_X,
    mul_assoc, H_mul_H, mul_one]

/-- The flip is turned about the third axis by an eighth, exchanged with it and turned by a quarter. -/
theorem controlled_H : (1 ⊗ₖ phase (-(π / 2))) * ((1 ⊗ₖ H) * ((1 ⊗ₖ phase (-(π / 4))) * (cx *
    ((1 ⊗ₖ phase (π / 4)) * ((1 ⊗ₖ H) * (1 ⊗ₖ phase (π / 2))))))) = switch 1 H := by
  have hclear : phase (-(π / 2)) * (H * (phase (-(π / 4)) * (phase (π / 4) * (H * phase (π / 2))))) = 1 := by
    rw [← mul_assoc (phase (-(π / 4))), phase_neg_mul_phase, one_mul, ← mul_assoc H, H_mul_H, one_mul,
      phase_neg_mul_phase]
  have heighth : phase (-(π / 4)) * X * phase (π / 4) = (√2 / 2 : ℂ) • (X - Y) := by
    rw [phase_mul_X_mul_phase, Real.cos_pi_div_four, Real.sin_pi_div_four, smul_sub, ofReal_div,
      ofReal_ofNat]
  have hexchanged : H * (X - Y) * H = Z + Y := by
    rw [mul_sub, H_mul_X, H_mul_Y, neg_mul, sub_neg_eq_add, ← add_mul, mul_assoc, H_mul_H, mul_one]
  have hquarter : phase (-(π / 2)) * (Z + Y) * phase (π / 2) = X + Z := by
    rw [mul_add, add_mul, phase_mul_Z_mul_phase, quarter_phase_Y, add_comm]
  have hset : phase (-(π / 2)) *
      (H * (phase (-(π / 4)) * (X * (phase (π / 4) * (H * phase (π / 2)))))) = H := by
    calc _ = phase (-(π / 2)) * (H * (phase (-(π / 4)) * X * phase (π / 4)) * H) * phase (π / 2) := by
          simp only [mul_assoc]
      _ = (√2 / 2 : ℂ) • (phase (-(π / 2)) * (H * (X - Y) * H) * phase (π / 2)) := by
          simp only [heighth, mul_smul_comm, smul_mul_assoc]
      _ = H := by rw [hexchanged, hquarter, H_def]
  simp only [one_kronecker, cx, switch_mul_switch, one_mul, hclear, hset]

/-- Half a turn, and half a turn that two flips reverse. -/
theorem controlled_rotation {P : Op} (hP : P * P = 1) (h : P * X = X * -P) (θ : ℝ) :
    cx * ((1 ⊗ₖ rotation P (-(θ / 2))) * (cx * (1 ⊗ₖ rotation P (θ / 2)))) =
      switch 1 (rotation P θ) := by
  rw [← mul_assoc, ← mul_assoc, cx_mul_rotation_mul_cx h, one_kronecker, switch_mul_switch, neg_neg,
    rotation_mul_rotation hP, rotation_mul_rotation hP, neg_add_cancel, add_halves, rotation_zero]

theorem controlled_rotation_X (θ : ℝ) :
    (1 ⊗ₖ phase (-(π / 2))) * ((1 ⊗ₖ rotation Y (θ / 2)) * (cx *
      ((1 ⊗ₖ rotation Y (-(θ / 2))) * (cx * (1 ⊗ₖ phase (π / 2)))))) = switch 1 (rotation X θ) := by
  calc _ = (1 ⊗ₖ phase (-(π / 2))) * ((1 ⊗ₖ rotation Y (θ / 2)) *
        (cx * (1 ⊗ₖ rotation Y (-(θ / 2))) * cx) * (1 ⊗ₖ phase (π / 2))) := by
        simp only [mul_assoc]
    _ = switch (phase (-(π / 2)) * phase (π / 2))
        (phase (-(π / 2)) * rotation Y θ * phase (π / 2)) := by
        rw [cx_mul_rotation_mul_cx Y_mul_X]
        simp only [one_kronecker, switch_mul_switch, rotation_mul_rotation Y_mul_Y, neg_neg, add_halves,
          add_neg_cancel, rotation_zero, one_mul, mul_assoc]
    _ = switch 1 (rotation X θ) := by
        rw [phase_neg_mul_phase, mul_rotation_mul (phase_neg_mul_phase _), quarter_phase_Y]

theorem controlled_phase (θ : ℝ) :
    (1 ⊗ₖ phase (θ / 2)) * (cx * ((1 ⊗ₖ phase (-(θ / 2))) * (cx * (phase (θ / 2) ⊗ₖ 1)))) =
      switch 1 (phase θ) := by
  have hflipped : X * (phase (-(θ / 2)) * X) = exp ((-(θ / 2) : ℝ) * I) • phase (θ / 2) := by
    rw [phase_mul_X, neg_neg, smul_mul_assoc, mul_smul_comm, ← mul_assoc, X_mul_X, one_mul]
  rw [phase_kronecker, one_kronecker, one_kronecker, cx]
  simp only [switch_mul_switch, one_mul, mul_one, phase_mul_phase, add_neg_cancel, phase_zero,
    mul_smul_comm, hflipped, smul_smul, add_halves, mul_comm (exp ((θ / 2 : ℝ) * I)), exp_neg_mul_exp,
    one_smul]

end Controlled

/-! ## Turns about two axes at once -/

section Pairs

theorem rotation_Z_Z (θ : ℝ) : cx * ((1 ⊗ₖ rotation Z θ) * cx) = rotation (Z ⊗ₖ Z) θ := by
  rw [← mul_assoc, cx_mul_rotation_mul_cx Z_mul_X', rotation_Z_kronecker]

/-- A change of basis on each operand moves both axes. -/
theorem moved_axes {u v : Op} (h : v * u = 1) (P Q : Op) (θ : ℝ) :
    (1 ⊗ₖ v) * ((v ⊗ₖ 1) * (rotation (P ⊗ₖ Q) θ * ((1 ⊗ₖ u) * (u ⊗ₖ 1)))) =
      rotation ((v * P * u) ⊗ₖ (v * Q * u)) θ := by
  calc _ = (v ⊗ₖ v) * rotation (P ⊗ₖ Q) θ * (u ⊗ₖ u) := by
        rw [← mul_kronecker_mul, ← mul_assoc, ← mul_kronecker_mul, mul_one, one_mul, mul_one, one_mul,
          mul_assoc]
    _ = rotation ((v * P * u) ⊗ₖ (v * Q * u)) θ := pair_mul_rotation_mul_pair h P Q θ

theorem rotation_X_X (θ : ℝ) :
    (1 ⊗ₖ H) * ((H ⊗ₖ 1) * (rotation (Z ⊗ₖ Z) θ * ((1 ⊗ₖ H) * (H ⊗ₖ 1)))) =
      rotation (X ⊗ₖ X) θ := by
  rw [moved_axes H_mul_H, H_mul_Z_mul_H]

theorem rotation_Y_Y (θ : ℝ) :
    (1 ⊗ₖ rotation X (-(π / 2))) * ((rotation X (-(π / 2)) ⊗ₖ 1) * (rotation (Z ⊗ₖ Z) θ *
      ((1 ⊗ₖ rotation X (π / 2)) * (rotation X (π / 2) ⊗ₖ 1)))) = rotation (Y ⊗ₖ Y) θ := by
  rw [moved_axes (rotation_neg_mul_rotation X_mul_X _), quarter_turn_X_Z]

end Pairs

/-! ## Exchanges -/

section Exchanges

/-- A quarter of a phase where the operands differ: what an `iswap` does beside exchanging them. -/
def exchangePhases : Op2 := switch !![1, 0; 0, I] !![I, 0; 0, 1]

theorem exchange_exchangePhases : exchange exchangePhases = exchangePhases := by
  ext ⟨i, j⟩ ⟨k, l⟩
  fin_cases i <;> fin_cases j <;> fin_cases k <;> fin_cases l <;>
    simp [exchangePhases, exchange, switch, off, on]

/-- As phases of the second operand. -/
theorem exchangePhases_eq : exchangePhases = switch (phase (π / 2)) (I • phase (-(π / 2))) := by
  have hset : I • phase (-(π / 2)) = !![I, 0; 0, 1] := by
    rw [phase, exp_neg_quarter]
    simp
  rw [hset, phase, exp_quarter, exchangePhases]

theorem exchange_crossing : exchange crossing = crossing := by
  calc exchange crossing = crossing * (crossing * exchange crossing) := by
        rw [← mul_assoc, crossing_mul_crossing, one_mul]
    _ = crossing := by rw [crossing_mul_exchange, crossing_mul_crossing, mul_one]

/-- It does not matter which operand controls a phase. -/
theorem exchange_switch_phase (θ : ℝ) : exchange (switch 1 (phase θ)) = switch 1 (phase θ) := by
  ext ⟨i, j⟩ ⟨k, l⟩
  fin_cases i <;> fin_cases j <;> fin_cases k <;> fin_cases l <;>
    simp [exchange, switch, off, on, phase]

/-- Phases on both operands, with the sign of both being set taken off. -/
theorem switch_Z_mul_phases :
    switch 1 Z * (phase (π / 2) ⊗ₖ phase (π / 2)) = exchangePhases := by
  have hset : Z * phase (π / 2) = phase (-(π / 2)) := by
    rw [← phase_neg_pi, phase_mul_phase]
    congr 1
    ring
  rw [phase_kronecker, exp_quarter, switch_mul_switch, one_mul, mul_smul_comm, hset, exchangePhases_eq]

theorem exchange_circuit :
    (1 ⊗ₖ H) * (exchange cx * (cx * ((H ⊗ₖ 1) * ((1 ⊗ₖ phase (π / 2)) * (phase (π / 2) ⊗ₖ 1))))) =
      exchangePhases * crossing := by
  have hlocal : crossing * ((H ⊗ₖ 1) * ((1 ⊗ₖ phase (π / 2)) * (phase (π / 2) ⊗ₖ 1))) =
      (1 ⊗ₖ H) * (phase (π / 2) ⊗ₖ phase (π / 2)) * crossing := by
    rw [← mul_assoc, crossing_mul_kronecker, ← mul_kronecker_mul, mul_one, one_mul, mul_assoc,
      crossing_mul_kronecker, mul_assoc]
  calc _ = (1 ⊗ₖ H) * (cx * (crossing *
        ((H ⊗ₖ 1) * ((1 ⊗ₖ phase (π / 2)) * (phase (π / 2) ⊗ₖ 1))))) := by
        rw [← mul_assoc (exchange cx), exchange_cx_mul_cx, mul_assoc]
    _ = (1 ⊗ₖ H) * (cx * (1 ⊗ₖ H)) * (phase (π / 2) ⊗ₖ phase (π / 2)) * crossing := by
        rw [hlocal]
        simp only [mul_assoc]
    _ = exchangePhases * crossing := by rw [controlled_Z, switch_Z_mul_phases]

/-- An operator between two exchanges acts on the other operand, between phases. -/
theorem between_exchanges (u : Op) :
    exchangePhases * crossing * ((u ⊗ₖ 1) * (exchangePhases * crossing)) =
      switch (phase (π / 2) * u * phase (π / 2)) (-(phase (-(π / 2)) * u * phase (-(π / 2)))) := by
  have hpass : crossing * exchangePhases = exchangePhases * crossing := by
    rw [← crossing_mul_exchange, exchange_exchangePhases]
  calc _ = exchangePhases * (1 ⊗ₖ u) * exchangePhases * (crossing * crossing) := by
        rw [mul_assoc, ← mul_assoc crossing, crossing_mul_kronecker, mul_assoc (1 ⊗ₖ u),
          ← mul_assoc crossing, hpass]
        simp only [mul_assoc]
    _ = _ := by
        rw [crossing_mul_crossing, mul_one, exchangePhases_eq, one_kronecker, switch_mul_switch,
          switch_mul_switch]
        simp only [smul_mul_assoc, mul_smul_comm, smul_smul, I_mul_I, neg_one_smul]

end Exchanges

/-! ## The controlled flip from other entanglers -/

section Flip

theorem flip_of_switch_Z : (1 ⊗ₖ H) * (switch 1 Z * (1 ⊗ₖ H)) = cx := by
  rw [one_kronecker, cx, switch_mul_switch, switch_mul_switch, one_mul, H_mul_H, ← mul_assoc, H_mul_Z,
    mul_assoc, H_mul_H, mul_one]

theorem phase_mul_quarter_mul_phase (θ : ℝ) : phase θ * rotation X (π / 2) * phase θ =
    (√2 / 2 : ℂ) • (phase (2 * θ) - (I * exp (θ * I)) • X) := by
  rw [rotation_quarter]
  simp only [mul_sub, sub_mul, mul_smul_comm, smul_mul_assoc, mul_one, phase_mul_phase, phase_mul_X,
    mul_assoc X, neg_add_cancel, phase_zero, smul_smul, ← two_mul]

/-- A quarter turn between quarters of a phase exchanges the first axis and the third. -/
theorem quarter_between_phases : phase (π / 2) * rotation X (π / 2) * phase (π / 2) = H ∧
    -(phase (-(π / 2)) * rotation X (π / 2) * phase (-(π / 2))) = X * H * X := by
  refine ⟨?_, ?_⟩
  · rw [phase_mul_quarter_mul_phase, mul_div_cancel₀ _ two_ne_zero, phase_pi, exp_quarter, I_mul_I,
      neg_one_smul, sub_neg_eq_add, add_comm, H_def]
  · rw [phase_mul_quarter_mul_phase, mul_neg, mul_div_cancel₀ _ two_ne_zero, phase_neg_pi,
      exp_neg_quarter, mul_neg, I_mul_I, neg_neg, one_smul, ← smul_neg, neg_sub, X_mul_H_mul_X]

/-- Two exchanges around a quarter turn are a flip that misses an eighth of a turn of phase. -/
theorem flip_of_exchanges : exp ((π / 4 : ℝ) * I) • ((1 ⊗ₖ rotation Z (π / 2)) *
    (exchangePhases * crossing * ((rotation X (π / 2) ⊗ₖ 1) * (exchangePhases * crossing *
      ((1 ⊗ₖ rotation Z (π / 2)) *
        ((1 ⊗ₖ rotation X (π / 2)) * (rotation Z (-(π / 2)) ⊗ₖ 1))))))) = cx := by
  obtain ⟨hfirst, hsecond⟩ := quarter_between_phases
  have hpass : phase (π / 2) * rotation X (π / 2) = H * phase (-(π / 2)) := by
    rw [← hfirst, mul_assoc, phase_mul_phase_neg, mul_one]
  have hclear : phase (π / 2) * (H * (phase (π / 2) * rotation X (π / 2))) = 1 := by
    rw [hpass, ← mul_assoc H, H_mul_H, one_mul, phase_mul_phase_neg]
  have hset : phase (π / 2) * (X * H * X * (phase (π / 2) * rotation X (π / 2))) = I • X := by
    calc _ = phase (π / 2) * X * (H * X * H) * phase (-(π / 2)) := by
          rw [hpass]
          simp only [mul_assoc]
      _ = phase (π / 2) * X * phase (-(π / 2)) * Z := by
          rw [H_mul_X, mul_assoc Z, H_mul_H, mul_one, mul_assoc (_ * X), ← phase_pi, phase_mul_phase,
            add_comm, ← phase_mul_phase, mul_assoc (_ * X)]
      _ = I • X := by rw [quarter_phase_X, Y_mul_Z]
  have hturn : rotation Z (π / 2) = exp ((-(π / 4) : ℝ) * I) • phase (π / 2) := by
    rw [rotation_Z_eq_smul_phase]
    congr 5
    ring
  have hback : rotation Z (-(π / 2)) = exp ((π / 4 : ℝ) * I) • phase (-(π / 2)) := by
    rw [rotation_Z_eq_smul_phase]
    congr 5
    ring
  have hscalar : exp ((π / 4 : ℝ) * I) * (exp ((π / 4 : ℝ) * I) *
      (exp ((-(π / 4) : ℝ) * I) * exp ((-(π / 4) : ℝ) * I))) = 1 := by
    have h := exp_neg_mul_exp (π / 4)
    linear_combination (exp ((-(π / 4) : ℝ) * I) * exp ((π / 4 : ℝ) * I) + 1) * h
  have hlocal : (1 ⊗ₖ rotation Z (π / 2)) * ((1 ⊗ₖ rotation X (π / 2)) * (rotation Z (-(π / 2)) ⊗ₖ 1)) =
      rotation Z (-(π / 2)) ⊗ₖ (rotation Z (π / 2) * rotation X (π / 2)) := by
    simp only [← mul_kronecker_mul, one_mul, mul_one]
  calc _ = exp ((π / 4 : ℝ) * I) • ((1 ⊗ₖ rotation Z (π / 2)) *
        (exchangePhases * crossing * ((rotation X (π / 2) ⊗ₖ 1) * (exchangePhases * crossing))) *
        (rotation Z (-(π / 2)) ⊗ₖ (rotation Z (π / 2) * rotation X (π / 2)))) := by
        rw [hlocal]
        simp only [mul_assoc]
    _ = switch (phase (π / 2) * (H * (phase (π / 2) * rotation X (π / 2))))
        ((-I) • (phase (π / 2) * (X * H * X * (phase (π / 2) * rotation X (π / 2))))) := by
        rw [between_exchanges, hfirst, hsecond, hturn, hback, smul_kronecker, phase_kronecker,
          one_kronecker, exp_neg_quarter]
        simp only [switch_mul_switch, smul_switch, smul_mul_assoc, mul_smul_comm, smul_smul, mul_assoc]
        congr 1
        · rw [hscalar, one_smul]
        · congr 1
          linear_combination (-I) * hscalar
    _ = cx := by rw [hclear, hset, smul_smul, neg_mul, I_mul_I, neg_neg, one_smul, cx]

end Flip

end QuantumCompiler.Pauli
