import Mathlib

/-!
# Rotations about Pauli axes

The gates of a compiler are rotations `exp(-iθP/2)` about an involution `P`: a Pauli matrix or a product of
two, one on each operand. Two rotations about one axis add up, a change of basis moves the axis, and an
axis that anticommutes with a factor turns the other way behind it. With the first operand as a switch
between two gates on the second, these rules settle identities between circuits for all angles at once.
-/
namespace QuantumCompiler.Pauli

open Complex Matrix
open scoped Kronecker Real

/-! ## Rotations -/

section Rotation

variable {A : Type*} [Ring A] [Algebra ℂ A] {P Q U V : A} {θ η : ℝ}

/-- `exp(-iθP/2)` for an involution `P`. -/
noncomputable def rotation (P : A) (θ : ℝ) : A :=
  (Real.cos (θ / (2 : ℕ)) : ℂ) • (1 : A) - (Real.sin (θ / (2 : ℕ)) * I : ℂ) • P

theorem rotation_def (P : A) (θ : ℝ) :
    rotation P θ = (Real.cos (θ / 2) : ℂ) • (1 : A) - (Real.sin (θ / 2) * I : ℂ) • P := by
  rw [rotation, Nat.cast_ofNat]

theorem rotation_eq_of_cos_sin (P : A) {c s : ℝ} (hc : Real.cos (θ / 2) = c)
    (hs : Real.sin (θ / 2) = s) : rotation P θ = (c : ℂ) • (1 : A) - (s * I : ℂ) • P := by
  rw [rotation_def, hc, hs]

theorem rotation_zero (P : A) : rotation P 0 = 1 := by
  rw [rotation_eq_of_cos_sin P (c := 1) (s := 0) (by simp) (by simp)]
  simp

/-- Half a turn is the axis itself. -/
theorem rotation_pi (P : A) : rotation P π = (-I) • P := by
  rw [rotation_eq_of_cos_sin P Real.cos_pi_div_two Real.sin_pi_div_two]
  simp

/-- A whole turn changes the sign. -/
theorem rotation_two_pi (P : A) : rotation P (2 * π) = -1 := by
  have hhalf : 2 * π / 2 = π := mul_div_cancel_left₀ _ two_ne_zero
  rw [rotation_eq_of_cos_sin P (c := -1) (s := 0) (by rw [hhalf, Real.cos_pi])
    (by rw [hhalf, Real.sin_pi])]
  simp

/-- Two whole turns are nothing. -/
theorem rotation_add_double_turns (P : A) (θ : ℝ) (k : ℤ) :
    rotation P (θ + k * (4 * π)) = rotation P θ := by
  have hhalf : (θ + k * (4 * π)) / 2 = θ / 2 + k * (2 * π) := by ring
  rw [rotation_def, rotation_def, hhalf, Real.cos_add_int_mul_two_pi, Real.sin_add_int_mul_two_pi]

theorem rotation_double_turns (P : A) (k : ℤ) : rotation P (k * (4 * π)) = 1 := by
  have hturns := rotation_add_double_turns P 0 k
  rwa [zero_add, rotation_zero] at hturns

theorem neg_rotation (P : A) (θ : ℝ) : rotation (-P) θ = rotation P (-θ) := by
  simp [rotation_def, neg_div]

theorem rotation_mul_rotation (hP : P * P = 1) (θ η : ℝ) :
    rotation P θ * rotation P η = rotation P (θ + η) := by
  have hhalf : (θ + η) / 2 = θ / 2 + η / 2 := add_div θ η 2
  rw [rotation_def, rotation_def, rotation_def, hhalf, Real.cos_add, Real.sin_add]
  simp only [sub_mul, mul_sub, smul_mul_smul_comm, one_mul, mul_one, hP]
  generalize Real.cos (θ / 2) = c, Real.sin (θ / 2) = s, Real.cos (η / 2) = d, Real.sin (η / 2) = t
  push_cast
  match_scalars
  · linear_combination (s * t : ℂ) * I_sq
  · ring

/-- A change of basis moves the axis. -/
theorem mul_rotation_mul (h : U * V = 1) (P : A) (θ : ℝ) :
    U * rotation P θ * V = rotation (U * P * V) θ := by
  simp only [rotation_def, mul_sub, sub_mul, mul_smul_comm, smul_mul_assoc, mul_one, h]

/-- A rotation passes a factor about the axis that its own one becomes behind it. -/
theorem rotation_mul (h : P * U = U * Q) (θ : ℝ) : rotation P θ * U = U * rotation Q θ := by
  simp only [rotation_def, sub_mul, mul_sub, smul_mul_assoc, mul_smul_comm, one_mul, mul_one, h]

/-- Between rotations there and back, a factor that their axis anticommutes with turns by twice the
angle. -/
theorem rotation_mul_mul_rotation (hP : P * P = 1) (h : P * Q = Q * -P) (θ : ℝ) :
    rotation P (-θ) * Q * rotation P θ = Q * rotation P (2 * θ) := by
  rw [rotation_mul h, neg_rotation, neg_neg, mul_assoc, rotation_mul_rotation hP, two_mul]

omit [Algebra ℂ A] in
/-- A change of basis moves factor by factor. -/
theorem mul_mul_mul (h : U * V = 1) (M N : A) : V * (M * N) * U = V * M * U * (V * N * U) := by
  simp only [mul_assoc]
  rw [← mul_assoc U V, h, one_mul]

/-- A rotation leaves its own axis in place. -/
theorem rotation_neg_mul_mul_rotation (hP : P * P = 1) (θ : ℝ) :
    rotation P (-θ) * P * rotation P θ = P := by
  rw [rotation_mul rfl, mul_assoc, rotation_mul_rotation hP, neg_add_cancel, rotation_zero, mul_one]

theorem rotation_neg_mul_rotation (hP : P * P = 1) (θ : ℝ) : rotation P (-θ) * rotation P θ = 1 := by
  rw [rotation_mul_rotation hP, neg_add_cancel, rotation_zero]

theorem rotation_mul_rotation_neg (hP : P * P = 1) (θ : ℝ) : rotation P θ * rotation P (-θ) = 1 := by
  rw [rotation_mul_rotation hP, add_neg_cancel, rotation_zero]

theorem rotation_neg_pi (P : A) : rotation P (-π) = I • P := by
  rw [← neg_rotation, rotation_pi, smul_neg, neg_smul, neg_neg]

/-- A factor passes a rotation about an axis that it anticommutes with and reverses it. -/
theorem mul_rotation (h : P * U = U * -P) (θ : ℝ) : U * rotation P θ = rotation P (-θ) * U := by
  rw [rotation_mul h, neg_rotation, neg_neg]

/-- Rotations about commuting axes commute. -/
theorem commute_rotation (h : Commute P Q) (θ η : ℝ) : Commute (rotation P θ) (rotation Q η) := by
  have hQ : Q * rotation P θ = rotation P θ * Q := by
    simp only [rotation_def, mul_sub, sub_mul, mul_smul_comm, smul_mul_assoc, mul_one, one_mul, h.eq]
  exact (rotation_mul hQ η).symm

/-- A number of whole turns is nothing but a sign. -/
theorem rotation_turns (P : A) (k : ℤ) : rotation P (k * (2 * π)) = exp ((k * π : ℝ) * I) • 1 := by
  have hhalf : k * (2 * π) / 2 = k * π := by ring
  rw [rotation_eq_of_cos_sin P (congrArg Real.cos hhalf) ((congrArg Real.sin hhalf).trans
    (Real.sin_int_mul_pi k)), exp_mul_I, ← ofReal_cos, ← ofReal_sin, Real.sin_int_mul_pi]
  simp

theorem rotation_quarter (P : A) : rotation P (π / 2) = (√2 / 2 : ℂ) • (1 - I • P) := by
  have hhalf : π / 2 / 2 = π / 4 := by ring
  rw [rotation_eq_of_cos_sin P (hhalf ▸ Real.cos_pi_div_four) (hhalf ▸ Real.sin_pi_div_four),
    ofReal_div, ofReal_ofNat, smul_sub, smul_smul]

/-- A quarter turn takes a second axis to the third. -/
theorem quarter_turn (hP : P * P = 1) (h : P * Q = Q * -P) :
    rotation P (-(π / 2)) * Q * rotation P (π / 2) = (-I) • (Q * P) := by
  rw [rotation_mul_mul_rotation hP h, mul_div_cancel₀ _ two_ne_zero, rotation_pi, mul_smul_comm]

/-- A quarter turn back takes it to the opposite of the third. -/
theorem quarter_turn_back (hP : P * P = 1) (h : P * Q = Q * -P) :
    rotation P (π / 2) * Q * rotation P (-(π / 2)) = I • (Q * P) := by
  have hback := rotation_mul_mul_rotation hP h (-(π / 2))
  rwa [neg_neg, mul_neg, mul_div_cancel₀ _ two_ne_zero, rotation_neg_pi, mul_smul_comm] at hback

/-- The adjoint of a rotation turns back. -/
theorem conjTranspose_rotation {n : Type*} [Fintype n] [DecidableEq n] {P : Matrix n n ℂ}
    (hP : P.conjTranspose = P) (θ : ℝ) : (rotation P θ).conjTranspose = rotation P (-θ) := by
  rw [rotation_def, rotation_def, neg_div, Real.cos_neg, Real.sin_neg]
  simp only [conjTranspose_sub, conjTranspose_smul, conjTranspose_one, hP, star_def, map_mul,
    conj_ofReal, conj_I, ofReal_neg, neg_mul, mul_neg]

end Rotation

/-! ## The axes -/

/-- Operators on one qubit. -/
abbrev Op := Matrix (Fin 2) (Fin 2) ℂ

section Axes

/-- The first axis. -/
def X : Op := !![0, 1; 1, 0]

/-- The second axis. -/
def Y : Op := !![0, -I; I, 0]

/-- The third axis. -/
def Z : Op := !![1, 0; 0, -1]

theorem X_mul_X : X * X = 1 := by simp [X, one_fin_two]

theorem Y_mul_Y : Y * Y = 1 := by simp [Y, one_fin_two]

theorem Z_mul_Z : Z * Z = 1 := by simp [Z, one_fin_two]

theorem Z_mul_X : Z * X = I • Y := by simp [X, Y, Z]

theorem X_mul_Z : X * Z = Z * -X := by simp [X, Z]

theorem X_mul_Z_eq : X * Z = (-I) • Y := by simp [X, Y, Z]

theorem Y_mul_X : Y * X = X * -Y := by simp [X, Y]

theorem Z_mul_Y : Z * Y = Y * -Z := by simp [Z, Y]

theorem Y_mul_Z : Y * Z = I • X := by simp [X, Y, Z]

theorem Z_mul_X' : Z * X = X * -Z := by simp [X, Z]

/-- The third axis after a quarter turn about the first one. -/
theorem quarter_turn_X_Z : rotation X (-(π / 2)) * Z * rotation X (π / 2) = Y := by
  rw [quarter_turn X_mul_X X_mul_Z, Z_mul_X, smul_smul, neg_mul, I_mul_I, neg_neg, one_smul]

/-- The first axis after a quarter turn about the third one. -/
theorem quarter_turn_Z_X : rotation Z (-(π / 2)) * X * rotation Z (π / 2) = -Y := by
  rw [quarter_turn Z_mul_Z Z_mul_X', X_mul_Z_eq, smul_smul, neg_mul_neg, I_mul_I, neg_one_smul]

/-- The second axis after a quarter turn about the third one. -/
theorem quarter_turn_Z_Y : rotation Z (-(π / 2)) * Y * rotation Z (π / 2) = X := by
  rw [quarter_turn Z_mul_Z Z_mul_Y, Y_mul_Z, smul_smul, neg_mul, I_mul_I, neg_neg, one_smul]

theorem quarter_turn_back_Z_Y : rotation Z (π / 2) * Y * rotation Z (-(π / 2)) = -X := by
  rw [quarter_turn_back Z_mul_Z Z_mul_Y, Y_mul_Z, smul_smul, I_mul_I, neg_one_smul]

theorem conjTranspose_X : X.conjTranspose = X := by
  ext i j
  fin_cases i <;> fin_cases j <;> simp [X]

theorem conjTranspose_Y : Y.conjTranspose = Y := by
  ext i j
  fin_cases i <;> fin_cases j <;> simp [Y]

theorem conjTranspose_Z : Z.conjTranspose = Z := by
  ext i j
  fin_cases i <;> fin_cases j <;> simp [Z]

theorem exp_mul_I_eq (θ : ℝ) : exp (θ * I) = Real.cos θ + Real.sin θ * I := by
  rw [exp_mul_I, ofReal_cos, ofReal_sin]

theorem rotation_Z (θ : ℝ) :
    rotation Z θ = !![exp ((-θ / 2 : ℝ) * I), 0; 0, exp ((θ / 2 : ℝ) * I)] := by
  rw [rotation_def, exp_mul_I_eq, exp_mul_I_eq, neg_div, Real.cos_neg, Real.sin_neg, Z, one_fin_two]
  ext i j
  fin_cases i <;> fin_cases j <;> simp [sub_eq_add_neg]

/-- The rotation by twice the angle of a cosine and a sine. -/
theorem rotation_Y_arg {c s : ℝ} (h : c ^ 2 + s ^ 2 = 1) :
    rotation Y (2 * arg ⟨c, s⟩) = !![(c : ℂ), -s; s, c] := by
  have hnorm : ‖(⟨c, s⟩ : ℂ)‖ = 1 := by rw [norm_eq_sqrt_sq_add_sq, h, Real.sqrt_one]
  have hne : (⟨c, s⟩ : ℂ) ≠ 0 := norm_ne_zero_iff.mp (hnorm ▸ one_ne_zero)
  have hhalf : 2 * arg ⟨c, s⟩ / 2 = arg ⟨c, s⟩ := mul_div_cancel_left₀ _ two_ne_zero
  rw [rotation_eq_of_cos_sin Y (c := c) (s := s)
    (by rw [hhalf, cos_arg hne, hnorm, div_one])
    (by rw [hhalf, sin_arg, hnorm, div_one])]
  ext i j
  fin_cases i <;> fin_cases j <;> simp [Y, mul_assoc]

end Axes

section Phase

theorem exp_neg_mul_I_eq (θ : ℝ) : exp ((-θ : ℝ) * I) = Real.cos θ - Real.sin θ * I := by
  rw [exp_mul_I_eq, Real.cos_neg, Real.sin_neg, ofReal_neg, neg_mul, sub_eq_add_neg]

theorem exp_neg_mul_exp (θ : ℝ) : exp ((-θ : ℝ) * I) * exp (θ * I) = 1 := by
  rw [← Complex.exp_add, ← add_mul, ← ofReal_add, neg_add_cancel, ofReal_zero, zero_mul, Complex.exp_zero]

theorem exp_add_mul_I (θ η : ℝ) : exp ((θ + η : ℝ) * I) = exp (θ * I) * exp (η * I) := by
  rw [ofReal_add, add_mul, Complex.exp_add]

theorem exp_quarter : exp ((π / 2 : ℝ) * I) = I := by
  rw [ofReal_div, ofReal_ofNat, exp_pi_div_two_mul_I]

theorem exp_neg_quarter : exp ((-(π / 2) : ℝ) * I) = -I := by
  rw [ofReal_neg, ofReal_div, ofReal_ofNat, ← neg_div, exp_neg_pi_div_two_mul_I]

theorem exp_eighth : exp ((π / 4 : ℝ) * I) = √2 / 2 * (1 + I) := by
  rw [exp_mul_I_eq, Real.cos_pi_div_four, Real.sin_pi_div_four]
  push_cast
  ring

theorem half_sqrt_two_sq : (√2 / 2 : ℂ) * (√2 / 2) = 1 / 2 := by
  rw [div_mul_div_comm, ← ofReal_mul, Real.mul_self_sqrt zero_le_two]
  norm_num

/-- A phase where the qubit is set. -/
noncomputable def phase (θ : ℝ) : Op := !![1, 0; 0, exp (θ * I)]

theorem phase_zero : phase 0 = 1 := by
  simp [phase, one_fin_two]

theorem phase_pi : phase π = Z := by
  simp [phase, Z]

theorem phase_neg_pi : phase (-π) = Z := by
  simp [phase, Z, Complex.exp_neg]

theorem phase_turns (k : ℤ) : phase (k * (2 * π)) = 1 := by
  rw [phase, one_fin_two]
  push_cast
  rw [mul_assoc, exp_int_mul_two_pi_mul_I]

theorem phase_mul_phase (θ η : ℝ) : phase θ * phase η = phase (θ + η) := by
  simp [phase, ← Complex.exp_add, add_mul]

theorem phase_neg_mul_phase (θ : ℝ) : phase (-θ) * phase θ = 1 := by
  rw [phase_mul_phase, neg_add_cancel, phase_zero]

theorem phase_mul_phase_neg (θ : ℝ) : phase θ * phase (-θ) = 1 := by
  rw [phase_mul_phase, add_neg_cancel, phase_zero]

/-- A rotation about the third axis is a phase and a common one. -/
theorem rotation_Z_eq_smul_phase (θ : ℝ) :
    rotation Z θ = exp ((-(θ / 2) : ℝ) * I) • phase θ := by
  have hset : ((-(θ / 2) : ℝ) * I : ℂ) + θ * I = (θ / 2 : ℝ) * I := by push_cast; ring
  rw [rotation_Z, phase]
  simp only [smul_of, smul_cons, smul_empty, smul_eq_mul, mul_zero, mul_one, ← Complex.exp_add, hset,
    neg_div]

/-- A flip leaves the phase on the other state, and so a common phase. -/
theorem phase_mul_X (θ : ℝ) : phase θ * X = exp (θ * I) • X * phase (-θ) := by
  simp [phase, X, ← Complex.exp_add]

/-- Phases turn the first axis towards the second. -/
theorem phase_mul_X_mul_phase (θ : ℝ) :
    phase (-θ) * X * phase θ = (Real.cos θ : ℂ) • X - (Real.sin θ : ℂ) • Y := by
  rw [phase, phase, exp_neg_mul_I_eq, exp_mul_I_eq, X, Y]
  ext i j
  fin_cases i <;> fin_cases j <;> simp

/-- Phases turn the second axis towards the first. -/
theorem phase_mul_Y_mul_phase (θ : ℝ) :
    phase (-θ) * Y * phase θ = (Real.sin θ : ℂ) • X + (Real.cos θ : ℂ) • Y := by
  rw [phase, phase, exp_neg_mul_I_eq, exp_mul_I_eq, X, Y]
  ext i j
  fin_cases i <;> fin_cases j <;> simp <;> linear_combination (-sin θ : ℂ) * I_sq

/-- Phases leave the third axis as it is. -/
theorem phase_mul_Z_mul_phase (θ : ℝ) : phase (-θ) * Z * phase θ = Z := by
  rw [← phase_pi, phase_mul_phase, phase_mul_phase, neg_add_cancel_comm]

theorem quarter_phase_X : phase (π / 2) * X * phase (-(π / 2)) = Y := by
  have h := phase_mul_X_mul_phase (-(π / 2))
  rw [neg_neg, Real.cos_neg, Real.sin_neg, Real.cos_pi_div_two, Real.sin_pi_div_two] at h
  rw [h]
  simp

theorem quarter_phase_Y : phase (-(π / 2)) * Y * phase (π / 2) = X := by
  rw [phase_mul_Y_mul_phase, Real.cos_pi_div_two, Real.sin_pi_div_two]
  simp

end Phase

section UpToPhase

variable {A : Type*} [Ring A] [Algebra ℂ A] {L M N M' N' P : A}

/-- The second operator is the first one but for a phase. -/
def UpToPhase (M N : A) : Prop := ∃ φ : ℝ, exp (φ * I) • M = N

namespace UpToPhase

theorem of_eq (h : M = N) : UpToPhase M N := ⟨0, by simp [h]⟩

theorem smul (φ : ℝ) (M : A) : UpToPhase M (exp (φ * I) • M) := ⟨φ, rfl⟩

theorem symm (h : UpToPhase M N) : UpToPhase N M := by
  obtain ⟨φ, rfl⟩ := h
  exact ⟨-φ, by rw [smul_smul, exp_neg_mul_exp, one_smul]⟩

theorem trans (h : UpToPhase L M) (h' : UpToPhase M N) : UpToPhase L N := by
  obtain ⟨φ, rfl⟩ := h
  obtain ⟨η, rfl⟩ := h'
  exact ⟨η + φ, by rw [exp_add_mul_I, mul_smul]⟩

theorem mul (h : UpToPhase M N) (h' : UpToPhase M' N') : UpToPhase (M * M') (N * N') := by
  obtain ⟨φ, rfl⟩ := h
  obtain ⟨η, rfl⟩ := h'
  exact ⟨φ + η, by rw [exp_add_mul_I, smul_mul_smul_comm]⟩

end UpToPhase

/-- Half a turn is the axis, up to a phase. -/
theorem upToPhase_rotation_pi (P : A) : UpToPhase (rotation P π) P :=
  ⟨π / 2, by rw [exp_quarter, rotation_pi, smul_smul, mul_neg, I_mul_I, neg_neg, one_smul]⟩

end UpToPhase

section Exchanged

/-- What exchanges the first axis and the third. -/
noncomputable def H : Op := (√(2 : ℕ) / (2 : ℕ) : ℂ) • (X + Z)

theorem H_def : H = (√2 / 2 : ℂ) • (X + Z) := by
  rw [H, Nat.cast_ofNat, Nat.cast_ofNat]

theorem H_mul_H : H * H = 1 := by
  rw [H_def, smul_mul_smul_comm, half_sqrt_two_sq, add_mul, mul_add, mul_add, X_mul_X, Z_mul_Z, Z_mul_X', mul_neg]
  match_scalars <;> norm_num

theorem conjTranspose_H : H.conjTranspose = H := by
  rw [H_def, conjTranspose_smul, conjTranspose_add, conjTranspose_X, conjTranspose_Z]
  simp

theorem H_mul_X : H * X = Z * H := by
  rw [H_def, smul_mul_assoc, mul_smul_comm, add_mul, mul_add, X_mul_X, Z_mul_Z, add_comm]

theorem H_mul_Z : H * Z = X * H := by
  rw [H_def, smul_mul_assoc, mul_smul_comm, add_mul, mul_add, X_mul_X, Z_mul_Z, add_comm]

theorem H_mul_X_mul_H : H * X * H = Z := by
  rw [H_mul_X, mul_assoc, H_mul_H, mul_one]

theorem H_mul_Z_mul_H : H * Z * H = X := by
  rw [H_mul_Z, mul_assoc, H_mul_H, mul_one]

theorem H_mul_Y : H * Y = -Y * H := by
  rw [H_def, smul_mul_assoc, mul_smul_comm, add_mul, mul_add]
  congr 1
  simp [X, Y, Z]

theorem X_mul_H_mul_X : X * H * X = (√2 / 2 : ℂ) • (X - Z) := by
  rw [H_def, mul_smul_comm, smul_mul_assoc, mul_add, add_mul, X_mul_X, one_mul, mul_assoc, Z_mul_X',
    ← mul_assoc, X_mul_X, one_mul, sub_eq_add_neg]

end Exchanged

/-! ## Two operands -/

/-- Operators on two qubits. -/
abbrev Op2 := Matrix (Fin 2 × Fin 2) (Fin 2 × Fin 2) ℂ

section Switch

/-- The projection onto a clear qubit. -/
def off : Op := !![1, 0; 0, 0]

/-- The projection onto a set qubit. -/
def on : Op := !![0, 0; 0, 1]

/-- The two projections split a qubit. -/
theorem projections : off * off = off ∧ on * on = on ∧ off * on = 0 ∧ on * off = 0 := by
  refine ⟨?_, ?_, ?_, ?_⟩ <;> ext i j <;> fin_cases i <;> fin_cases j <;>
    simp [off, on, Matrix.mul_apply]

/-- A flip exchanges them. -/
theorem flipped_projections : off * X = X * on ∧ on * X = X * off := by
  refine ⟨?_, ?_⟩ <;> ext i j <;> fin_cases i <;> fin_cases j <;> simp [off, on, X, Matrix.mul_apply]

/-- One operator on the second operand where the first one is clear, another where it is set. -/
def switch (u v : Op) : Op2 := off ⊗ₖ u + on ⊗ₖ v

theorem switch_mul_switch (u v u' v' : Op) : switch u v * switch u' v' = switch (u * u') (v * v') := by
  obtain ⟨hoff, hon, hleft, hright⟩ := projections
  simp only [switch, mul_add, add_mul, ← mul_kronecker_mul, hoff, hon, hleft, hright, zero_kronecker,
    add_zero, zero_add]

theorem smul_switch (a : ℂ) (u v : Op) : a • switch u v = switch (a • u) (a • v) := by
  simp only [switch, smul_add, kronecker_smul]

theorem switch_sub_switch (u v u' v' : Op) : switch u v - switch u' v' = switch (u - u') (v - v') := by
  ext i j
  simp only [switch, Matrix.sub_apply, Matrix.add_apply, kroneckerMap_apply]
  ring

theorem diagonal_kronecker (a b : ℂ) (u : Op) : !![a, 0; 0, b] ⊗ₖ u = switch (a • u) (b • u) := by
  have hsplit : !![a, 0; 0, b] = a • off + b • on := by simp [off, on]
  rw [hsplit, add_kronecker, smul_kronecker, smul_kronecker, switch, kronecker_smul, kronecker_smul]

theorem phase_kronecker (θ : ℝ) (u : Op) : phase θ ⊗ₖ u = switch u (exp (θ * I) • u) := by
  rw [phase, diagonal_kronecker, one_smul]

theorem kronecker_mul_self {P Q : Op} (hP : P * P = 1) (hQ : Q * Q = 1) :
    (P ⊗ₖ Q) * (P ⊗ₖ Q) = 1 := by
  rw [← mul_kronecker_mul, hP, hQ, one_kronecker_one]

theorem one_kronecker (u : Op) : (1 : Op) ⊗ₖ u = switch u u := by
  rw [one_fin_two, diagonal_kronecker, one_smul]

theorem Z_kronecker (u : Op) : Z ⊗ₖ u = switch u (-u) := by
  rw [Z, diagonal_kronecker, one_smul, neg_one_smul]

theorem rotation_Z_kronecker_eq (θ : ℝ) (u : Op) : rotation Z θ ⊗ₖ u =
    switch (exp ((-(θ / 2) : ℝ) * I) • u) (exp ((θ / 2 : ℝ) * I) • u) := by
  rw [rotation_Z, diagonal_kronecker, neg_div]

theorem switch_one : switch 1 1 = 1 := by
  rw [← one_kronecker, one_kronecker_one]

theorem rotation_switch (P Q : Op) (θ : ℝ) :
    rotation (switch P Q) θ = switch (rotation P θ) (rotation Q θ) := by
  rw [rotation_def, ← switch_one, smul_switch, smul_switch, switch_sub_switch]
  rfl

/-- Turning the second operand under the sign of the first. -/
theorem rotation_Z_kronecker (Q : Op) (θ : ℝ) :
    rotation (Z ⊗ₖ Q) θ = switch (rotation Q θ) (rotation Q (-θ)) := by
  rw [Z_kronecker, rotation_switch, neg_rotation]

theorem rotation_kronecker_one (P : Op) (θ : ℝ) :
    rotation P θ ⊗ₖ (1 : Op) = rotation (P ⊗ₖ (1 : Op)) θ := by
  rw [rotation_def, rotation_def, ← one_kronecker_one, ← smul_kronecker, ← smul_kronecker]
  ext i j
  simp [sub_mul]

theorem one_kronecker_rotation (P : Op) (θ : ℝ) :
    (1 : Op) ⊗ₖ rotation P θ = rotation ((1 : Op) ⊗ₖ P) θ := by
  rw [rotation_def, rotation_def, ← one_kronecker_one, ← kronecker_smul, ← kronecker_smul]
  ext i j
  simp [mul_sub]

theorem neg_kronecker_neg (P Q : Op) : (-P) ⊗ₖ (-Q) = P ⊗ₖ Q := by
  ext i j
  exact neg_mul_neg _ _

/-- A change of basis on both operands moves a pair of axes. -/
theorem pair_mul_rotation_mul_pair {u v : Op} (h : v * u = 1) (P Q : Op) (θ : ℝ) :
    (v ⊗ₖ v) * rotation (P ⊗ₖ Q) θ * (u ⊗ₖ u) = rotation ((v * P * u) ⊗ₖ (v * Q * u)) θ := by
  have hboth : (v ⊗ₖ v) * (u ⊗ₖ u) = 1 := by rw [← mul_kronecker_mul, h, one_kronecker_one]
  rw [mul_rotation_mul hboth, mul_kronecker_mul, mul_kronecker_mul]

end Switch

/-! ## Exchanged operands -/

section Exchange

variable {M N : Op2}

/-- The operator with its operands exchanged. -/
def exchange (M : Op2) : Op2 := M.submatrix Prod.swap Prod.swap

theorem exchange_exchange (M : Op2) : exchange (exchange M) = M := rfl

theorem exchange_mul (M N : Op2) : exchange (M * N) = exchange M * exchange N :=
  (submatrix_mul_equiv M N _ (Equiv.prodComm _ _) _).symm

theorem exchange_one : exchange 1 = 1 := submatrix_one_equiv (Equiv.prodComm _ _)

theorem exchange_sub (M N : Op2) : exchange (M - N) = exchange M - exchange N := rfl

theorem exchange_smul (a : ℂ) (M : Op2) : exchange (a • M) = a • exchange M := rfl

theorem exchange_kronecker (u v : Op) : exchange (u ⊗ₖ v) = v ⊗ₖ u := by
  ext i j
  exact mul_comm _ _

theorem exchange_rotation (M : Op2) (θ : ℝ) : exchange (rotation M θ) = rotation (exchange M) θ := by
  rw [rotation_def, rotation_def, exchange_sub, exchange_smul, exchange_smul, exchange_one]

/-- What exchanges two operands. -/
def crossing : Op2 := (Equiv.prodComm (Fin 2) (Fin 2)).toPEquiv.toMatrix

theorem crossing_mul_exchange (M : Op2) : crossing * exchange M = M * crossing := by
  rw [crossing, PEquiv.toMatrix_toPEquiv_mul, PEquiv.mul_toMatrix_toPEquiv]
  rfl

theorem crossing_mul_kronecker (u v : Op) : crossing * (u ⊗ₖ v) = (v ⊗ₖ u) * crossing := by
  rw [← exchange_kronecker, crossing_mul_exchange]

theorem crossing_mul_crossing : crossing * crossing = 1 := by
  rw [crossing, PEquiv.toMatrix_toPEquiv_mul]
  ext i j
  simp [PEquiv.toMatrix_apply, Matrix.one_apply]

end Exchange

/-! ## The controlled flip -/

section Flip

/-- The second operand is flipped where the first one is set. -/
def cx : Op2 := switch 1 X

theorem cx_mul_cx : cx * cx = 1 := by
  rw [cx, switch_mul_switch, one_mul, X_mul_X, switch_one]

/-- Two flips around a rotation: it turns the other way where the first operand is set. -/
theorem cx_mul_rotation_mul_cx {P : Op} (h : P * X = X * -P) (θ : ℝ) :
    cx * (1 ⊗ₖ rotation P θ) * cx = switch (rotation P θ) (rotation P (-θ)) := by
  have hflipped : X * rotation P θ * X = rotation P (-θ) := by
    rw [mul_assoc, rotation_mul h, ← mul_assoc, X_mul_X, one_mul, neg_rotation]
  rw [one_kronecker, cx, switch_mul_switch, switch_mul_switch, one_mul, mul_one, hflipped]

/-- A flip of the first operand spreads to the second. -/
theorem cx_mul_X_kronecker_mul_cx : cx * (X ⊗ₖ 1) * cx = X ⊗ₖ X := by
  obtain ⟨hoff, hon⟩ := flipped_projections
  have hpass : cx * (X ⊗ₖ 1) = (X ⊗ₖ X) * cx := by
    simp only [cx, switch, add_mul, mul_add, ← mul_kronecker_mul, hoff, hon, mul_one, X_mul_X]
    exact add_comm _ _
  rw [hpass, mul_assoc, cx_mul_cx, mul_one]

/-- The sign of the second operand spreads to the first. -/
theorem cx_mul_one_kronecker_Z_mul_cx : cx * (1 ⊗ₖ Z) * cx = Z ⊗ₖ Z := by
  have hflipped : X * Z * X = -Z := by
    rw [mul_assoc, Z_mul_X', ← mul_assoc, X_mul_X, one_mul]
  rw [one_kronecker, cx, switch_mul_switch, switch_mul_switch, one_mul, mul_one, hflipped, Z_kronecker]

theorem cx_mul_exchange_cx_mul_cx : cx * exchange cx * cx = crossing := by
  ext ⟨i, j⟩ ⟨k, l⟩
  fin_cases i <;> fin_cases j <;> fin_cases k <;> fin_cases l <;>
    simp [cx, exchange, crossing, switch, off, on, X, Matrix.mul_apply, Fintype.sum_prod_type,
        PEquiv.toMatrix_apply]

theorem exchange_cx_mul_exchange_cx : exchange cx * exchange cx = 1 := by
  rw [← exchange_mul, cx_mul_cx, exchange_one]

/-- A flip each way is a flip and an exchange. -/
theorem exchange_cx_mul_cx : exchange cx * cx = cx * crossing := by
  rw [← cx_mul_exchange_cx_mul_cx, mul_assoc, ← mul_assoc, cx_mul_cx, one_mul]

end Flip

end QuantumCompiler.Pauli
