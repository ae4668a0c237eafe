import Mathlib
import QuantumCompiler.Proofs.Synthesis.Rebuilt

/-!
# Well-formed and bounded sequences

A Shannon decomposition that returns steps returns few of them, and each one a register can carry out. In
exact arithmetic it does return them for every diagonal unitary: a diagonal matrix stays diagonal along the
recursion, and the Jacobi rotations leave its eigenvectors as they are.
-/
namespace QuantumCompiler

open ShannonStep

/-! ## Diagonal unitaries -/

section Diagonal

attribute [local instance] Scalar.real

namespace Dense

variable {n : Nat} {m k : Dense (Cx ℝ)}

theorem isDiag_quarters_iff {k : Nat}
    {m : Matrix (Fin (2 ^ k) ⊕ Fin (2 ^ k)) (Fin (2 ^ k) ⊕ Fin (2 ^ k)) ℂ} :
    (quarters m).IsDiag ↔ m.IsDiag := by
  refine ⟨fun h => ?_, fun h => h.submatrix (halves k).injective⟩
  simpa [quarters] using h.submatrix (halves k).symm.injective

/-- A diagonal unitary matrix with `n` rows. -/
structure IsDiagonalUnitary (m : Dense (Cx ℝ)) (n : Nat) : Prop extends m.IsUnitary n where
  isDiag : (m.toMatrix Cx.toComplex n).IsDiag

theorem isDiagonalUnitary_identity (n : Nat) : (identity n : Dense (Cx ℝ)).IsDiagonalUnitary n := by
  refine ⟨isUnitary_identity n, ?_⟩
  rw [exact_toComplex.toMatrix_identity]
  exact Matrix.isDiag_one

namespace IsDiagonalUnitary

theorem mul (hm : m.IsDiagonalUnitary n) (hk : k.IsDiagonalUnitary n) : (m.mul k).IsDiagonalUnitary n := by
  refine ⟨hm.toIsUnitary.mul hk.toIsUnitary, ?_⟩
  rw [exact_toComplex.toMatrix_mul hm.fits, ← hm.isDiag.diagonal_diag, ← hk.isDiag.diagonal_diag,
    Matrix.diagonal_mul_diagonal]
  exact Matrix.isDiag_diagonal _

theorem adjoint (hm : m.IsDiagonalUnitary n) : m.adjoint.IsDiagonalUnitary n := by
  refine ⟨hm.toIsUnitary.adjoint, ?_⟩
  rw [toMatrix_adjoint hm.fits]
  exact hm.isDiag.conjTranspose

/-- The diagonal of the square roots of its eigenvalues. -/
theorem eigenroots {x : Dense (Cx ℝ)} (hm : m.IsDiagonalUnitary n) (hx : x.size = n) :
    (diagonal (Shannon.eigenroots x m).toArray).IsDiagonalUnitary n := by
  obtain ⟨hroots, hmatrix⟩ := Shannon.isUnitary_eigenroots hx
    (Shannon.norm_sqrt_eigenvalue hm.toIsUnitary hm.isDiag)
  exact ⟨hroots, hmatrix ▸ Matrix.isDiag_diagonal _⟩

/-- The diagonal quadrants are diagonal unitaries, and the others are zero. -/
theorem block {k : Nat} (hm : m.IsDiagonalUnitary (2 ^ (k + 1))) :
    (m.block 0 0 (2 ^ k)).IsDiagonalUnitary (2 ^ k) ∧
      (m.block (2 ^ k) (2 ^ k) (2 ^ k)).IsDiagonalUnitary (2 ^ k) ∧
      (m.block 0 (2 ^ k) (2 ^ k)).toMatrix Cx.toComplex (2 ^ k) = 0 ∧
      (m.block (2 ^ k) 0 (2 ^ k)).toMatrix Cx.toComplex (2 ^ k) = 0 := by
  have hquarters := toMatrix_eq_quarters (k := k) Cx.toComplex m
  have hdiag := hm.isDiag
  rw [hquarters, isDiag_quarters_iff, Matrix.isDiag_fromBlocks_iff] at hdiag
  obtain ⟨hfirst, hright, hleft, hlast⟩ := hdiag
  rw [hright, hleft] at hquarters
  obtain ⟨h₀, h₁⟩ := unitary_of_fromBlocks (quarters_mem_unitaryGroup_iff.mp (hquarters ▸ hm.mem))
  exact ⟨⟨⟨fits_block _ _ _ _, h₀⟩, hfirst⟩, ⟨⟨fits_block _ _ _ _, h₁⟩, hlast⟩, hright, hleft⟩

end IsDiagonalUnitary

theorem isDiag_hermitianMixture (hm : m.Fits n) (h : (m.toMatrix Cx.toComplex n).IsDiag) (κ : ℝ) :
    ((Shannon.hermitianMixture m κ).toMatrix Cx.toComplex n).IsDiag := by
  obtain rfl := hm.size
  rw [Shannon.hermitianMixture, toMatrix_ofFn]
  intro i j hne
  have hij : (m.get i j).toComplex = 0 := h hne
  have hji : (m.get j i).toComplex = 0 := h hne.symm
  simp [Cx.toComplex_scale, Cx.toComplex_div, hij, hji]

/-- No rotation is made on a diagonal matrix. -/
theorem hermitianEigenvectors_of_isDiag (hm : m.Fits n) (h : (m.toMatrix Cx.toComplex n).IsDiag) :
    m.hermitianEigenvectors = identity n := by
  have hzero : ∀ x ∈ m.offDiagonal.map Cx.normSq, x = 0 := by
    intro x hx
    obtain ⟨z, hz, rfl⟩ := List.mem_map.mp hx
    rw [Cx.normSq_toComplex, (isDiag_iff hm).mp h z hz, map_zero]
  have hsum : Scalar.sum (m.offDiagonal.map Cx.normSq) ≤ 0 := by
    rw [Scalar.real_sum, List.sum_eq_zero hzero]
  rw [hermitianEigenvectors, maxSweeps, hermitianSweeps, if_pos, hm.size]
  exact (Scalar.real_below_allowance _ 30).mpr hsum

end Dense

namespace Shannon

variable {n : Nat} {a b u : Dense (Cx ℝ)}

/-- The factorizations are exact where a pair of diagonal unitaries is taken apart, and what the recursion
goes on with are diagonal unitaries again. -/
theorem exactPair_of_isDiagonalUnitary {property : Dense (Cx ℝ) → Prop} (ha : a.IsDiagonalUnitary n)
    (hb : b.IsDiagonalUnitary n) (hp : ∀ w : Dense (Cx ℝ), w.IsDiagonalUnitary n → property w) :
    Kernels.jacobi.ExactPair n property a b := by
  have hid := Dense.isDiagonalUnitary_identity n
  have hx := ha.mul hb.adjoint
  have hd := (hid.adjoint.mul hx).mul hid
  have hvectors (κ : ℝ) : Kernels.jacobi.eigenvectors (hermitianMixture (a.mul b.adjoint) κ) =
      Dense.identity n :=
    Dense.hermitianEigenvectors_of_isDiag (hx.fits.size ▸ Dense.fits_ofFn _ _)
      (Dense.isDiag_hermitianMixture hx.fits hx.isDiag κ)
  refine ⟨fun κ _ => hvectors κ ▸ hid.toIsUnitary,
    ⟨_, List.mem_cons_self, by rw [hvectors]; exact hd.isDiag⟩, fun v d h => ?_⟩
  have hoff := (Dense.gt_offDiagonal_iff hd.fits 9).mpr hd.isDiag
  rw [mixingFactors, diagonalize] at h
  simp only [hvectors, hoff] at h
  obtain ⟨rfl, rfl⟩ := Prod.mk.inj (Except.ok.inj h)
  exact ⟨hp _ (((hd.eigenroots hx.fits.size).mul hid.adjoint).mul hb), hp _ hid⟩

/-- The factorizations are exact along a diagonal unitary. -/
theorem exactAlong_of_isDiagonalUnitary {k : Nat} (hu : u.IsDiagonalUnitary (2 ^ k)) :
    Kernels.jacobi.ExactAlong k u := by
  induction k generalizing u with
  | zero => trivial
  | succ k ih =>
    match k with
    | 0 => trivial
    | 1 => trivial
    | k + 2 =>
      obtain ⟨hfirst, hlast, hright, hleft⟩ := hu.block
      have hdiagonal := Bool.and_eq_true_iff.mpr
        ⟨(Dense.below_maxNorm_iff (Dense.fits_block u _ _ _) 12).mpr hright,
          (Dense.below_maxNorm_iff (Dense.fits_block u _ _ _) 12).mpr hleft⟩
      rw [Kernels.ExactAlong]
      simp only
      rw [negligible, if_pos hdiagonal]
      by_cases hequal : Scalar.below ((u.block 0 0 (2 ^ (k + 2))).sub
        (u.block (2 ^ (k + 2)) (2 ^ (k + 2)) (2 ^ (k + 2)))).maxNorm (Scalar.allowance 12) = true
      · rw [if_pos hequal]
        exact ih hfirst
      · rw [if_neg hequal]
        exact exactPair_of_isDiagonalUnitary hfirst hlast fun w => ih

/-- Where the factorizations are exact along a unitary, its decomposition passes the check. -/
theorem decompose_eq_ok_of_exactAlong (name : String) (hn : n < 64) (hu : u.IsUnitary (2 ^ n))
    (hk : Kernels.jacobi.ExactAlong n u) :
    ∃ l, decompose name u.toList n = .ok l ∧ product n l = u := by
  obtain ⟨l, hsteps, hproduct⟩ := product_steps_eq name hu hk
  have hsame : (⟨2 ^ n, u.toList.toArray⟩ : Dense (Cx ℝ)) = u := by
    rw [← hu.fits.size]
    rfl
  refine ⟨l, decompose_eq_ok_iff.mpr ⟨hn, hu.fits.length_toList, by rwa [hsame], ?_⟩, hproduct⟩
  have hzero := (Dense.below_maxNorm_iff (hu.fits.sub u) 8).mpr (by rw [Dense.toMatrix_sub hu.fits, sub_self])
  rw [hsame, hproduct]
  exact decide_eq_false (not_lt.mpr ((Scalar.real_below_allowance _ 8).mp hzero))

/-- The flip of a phase under two controls. -/
noncomputable def flippedPhase : Dense (Cx ℝ) := .diagonal #[1, 1, 1, 1, 1, 1, 1, -1]

theorem toMatrix_flippedPhase : flippedPhase.toMatrix Cx.toComplex (2 ^ 3) =
    Matrix.diagonal fun i => if i = 7 then -1 else 1 := by
  have hdiag := Dense.exact_toComplex.toMatrix_diagonal (n := 2 ^ 3)
    (d := #[(1 : Cx ℝ), 1, 1, 1, 1, 1, 1, -1]) rfl
  rw [flippedPhase, hdiag]
  refine congrArg Matrix.diagonal (funext fun i => ?_)
  fin_cases i <;> simp

theorem isDiagonalUnitary_flippedPhase : flippedPhase.IsDiagonalUnitary (2 ^ 3) := by
  refine ⟨⟨Dense.fits_diagonal rfl, ?_⟩, toMatrix_flippedPhase ▸ Matrix.isDiag_diagonal _⟩
  rw [toMatrix_flippedPhase, Matrix.mem_unitaryGroup_iff, Matrix.star_eq_conjTranspose,
    Matrix.diagonal_conjTranspose, Matrix.diagonal_mul_diagonal, ← Matrix.diagonal_one]
  refine congrArg Matrix.diagonal (funext fun i => ?_)
  rw [Pi.star_apply]
  split_ifs <;> simp

end Shannon

end Diagonal

namespace Shannon

variable {R : Type} [Scalar R]

/-! ## Well-formed sequences -/

/-- On three or more operands a decomposition is well formed and bounded whatever the numbers do. It comes to
an end for every matrix of the right size. Where it does not fail its steps are on the operands, each `cx` on
two of them and each dense block on two of them with sixteen entries. There are at most `4ⁿ⁻²` dense blocks,
and at most `3/8 · 4ⁿ - 3 · 2ⁿ⁻¹` of `cx`. In a ladder with an angle for each value of its controls, as the
shape of a decomposition has them, a control is found for each rung. -/
theorem decompose_bounded {n : Nat} (hn : 3 ≤ n) (name : String) {matrix : List (Cx R)}
    (hm : matrix.length = 2 ^ n * 2 ^ n) :
    ((∃ l, decompose name matrix n = .ok l ∧ Shape (List.range n) l ∧ (∀ s ∈ l, s.WellFormed n) ∧
        l.countP isBlock ≤ 4 ^ (n - 2) ∧ l.countP isCx + 3 * 2 ^ (n - 1) ≤ 3 * 4 ^ n / 8) ∨
      decompose name matrix n = .error (.unsupportedGate name (.tooWide n)) ∨
      ∃ e t, decompose name matrix n = .error (.decompositionTolerance name e t)) ∧
    ∀ (angles : List R) (target : Nat) (controls : List Nat), controls ≠ [] →
      angles.length = 2 ^ controls.length →
      (multiplexed ry angles target controls).countP isCx = angles.length ∧
      (multiplexed rz angles target controls).countP isCx = angles.length := by
  refine ⟨?_, fun angles target controls hc ha => ⟨countP_isCx_multiplexed (fun _ => rfl) hc ha,
    countP_isCx_multiplexed (fun _ => rfl) hc ha⟩⟩
  cases hd : decompose name matrix n with
  | error x =>
    rcases error_of_decompose hd with rfl | ⟨hlen, -⟩ | ⟨e, t, rfl⟩
    · exact .inr (.inl rfl)
    · exact absurd (hm.trans (mul_pow 2 2 n).symm) hlen
    · exact .inr (.inr ⟨e, t, rfl⟩)
  | ok l =>
    obtain ⟨k, rfl⟩ : ∃ k, n = k + 2 := ⟨n - 2, by omega⟩
    obtain ⟨u, hu, hs⟩ := steps_of_decompose hd
    have hshape := shape_of_steps sized_jacobi name _ (by simpa using hu) hs
    have hlen : (List.range (k + 2)).length = k + 2 := List.length_range
    have hmisfit : Weighs (misfit : ShannonStep R → Nat) 0 0 :=
      ⟨fun _ _ _ => le_rfl, fun _ _ _ => le_rfl, fun _ _ _ => le_rfl⟩
    have hblock : Weighs (fun s : ShannonStep R => s.isBlock.toNat) 1 0 :=
      ⟨fun _ _ _ => le_rfl, fun _ _ _ => le_rfl, fun _ _ _ => le_rfl⟩
    have hcx : Weighs (fun s : ShannonStep R => s.isCx.toNat) 0 1 :=
      ⟨fun _ _ _ => le_rfl, fun _ _ _ => le_rfl, fun _ _ _ => le_rfl⟩
    have hfit := hshape.weight_add_le hmisfit hlen
    have hblocks := hshape.weight_add_le hblock hlen
    have hcxs := hshape.weight_add_le hcx hlen
    rw [weight_toNat] at hblocks hcxs
    refine .inl ⟨l, rfl, hshape, fun s hs => ?_, by simpa using hblocks, ?_⟩
    · refine (on_decompose (by omega) hd s hs).wellFormed (Nat.le_zero.mp ?_)
      have hle := List.single_le_sum (by simp) _ (List.mem_map_of_mem (f := misfit) hs)
      exact hle.trans (by simpa [weight] using hfit)
    · have hpow : 4 ^ (k + 2) = 16 * 4 ^ k := by rw [pow_add, mul_comm]; rfl
      have hpow' : 2 ^ (k + 2 - 1) = 2 * 2 ^ k := by
        rw [Nat.add_sub_assoc (by decide), pow_succ, mul_comm]
      rw [hpow, hpow']
      omega

attribute [local instance] Scalar.real in
/-- The steps of a phase flip under two controls. -/
theorem decompose_bounded_flippedPhase : 3 ≤ 3 ∧ flippedPhase.toList.length = 2 ^ 3 * 2 ^ 3 ∧
    ∃ l, decompose "ccz" flippedPhase.toList 3 = .ok l ∧ product 3 l = flippedPhase ∧
      Shape (List.range 3) l ∧ (∀ s ∈ l, s.WellFormed 3) ∧ l.countP isBlock ≤ 4 ^ (3 - 2) ∧
      l.countP isCx + 3 * 2 ^ (3 - 1) ≤ 3 * 4 ^ 3 / 8 := by
  have hu := isDiagonalUnitary_flippedPhase
  have hlen : flippedPhase.toList.length = 2 ^ 3 * 2 ^ 3 := hu.fits.length_toList
  obtain ⟨l, hl, hproduct⟩ := decompose_eq_ok_of_exactAlong "ccz" (by decide) hu.toIsUnitary
    (exactAlong_of_isDiagonalUnitary hu)
  refine ⟨le_rfl, hlen, l, hl, hproduct, ?_⟩
  rcases (decompose_bounded le_rfl "ccz" hlen).1 with ⟨l', hl', hbounded⟩ | herror | ⟨e, t, herror⟩
  · obtain rfl := Except.ok.inj (hl.symm.trans hl')
    exact hbounded
  · exact absurd (hl.symm.trans herror) nofun
  · exact absurd (hl.symm.trans herror) nofun

end Shannon

end QuantumCompiler
