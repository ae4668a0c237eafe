import Mathlib
import QuantumCompiler.Proofs.Matrix.Exact
import QuantumCompiler.Proofs.Matrix.Unitary
import QuantumCompiler.Proofs.Numeric.Doubles
import QuantumCompiler.Proofs.Synthesis.Shannon
import QuantumCompiler.Synthesis.CxSequence
import QuantumCompiler.Synthesis.Euler

/-!
# The check of a synthesis

Every synthesis ends with one check on machine numbers: the largest deviation of a rebuilt entry is not above
the tolerance. The largest of some values ignores those that are no numbers, and so does the check: an entry
passes where its deviation is within the tolerance, and also where it is no number at all.
-/
namespace QuantumCompiler

/-! ## What the check says -/

/-- Every entry of a matrix is within the tolerance of the entry of another one. -/
def Matches (xs ys : List (Cx Float)) : Prop := List.Forall₂ (fun x y => (x - y).norm ≤ 1e-8) xs ys

/-- No entry of a matrix is found to be off by more than the tolerance: it is within the tolerance, or its
deviation is no number. -/
def Unrefuted (xs ys : List (Cx Float)) : Prop :=
  List.Forall₂ (fun x y => (x - y).norm ≤ 1e-8 ∨ (x - y).norm.isNaN = true) xs ys

/-- Every entry of a matrix differs from the entry of another one by a number. -/
def Comparable (xs ys : List (Cx Float)) : Prop :=
  List.Forall₂ (fun x y => (x - y).norm.isNaN = false) xs ys

/-- What the check of a synthesis ensures. It is all that was asked for exactly where every entry differs by
a number. -/
structure Checked (xs ys : List (Cx Float)) : Prop where
  unrefuted : Unrefuted xs ys
  matches_iff : Matches xs ys ↔ Comparable xs ys

theorem Unrefuted.checked {xs ys : List (Cx Float)} (h : Unrefuted xs ys) : Checked xs ys := by
  refine ⟨h, .imp fun x y hle => (Double.le_iff.mp hle).1, fun hnumbers => ?_⟩
  refine List.forall₂_iff_zip.mpr ⟨h.length_eq, fun hxy => ?_⟩
  have hnumber := (List.forall₂_iff_zip.mp hnumbers).2 hxy
  exact ((List.forall₂_iff_zip.mp h).2 hxy).resolve_right (Bool.eq_false_iff.mp hnumber)

theorem unrefuted_iff {xs ys : List (Cx Float)} (hlen : xs.length = ys.length) : Unrefuted xs ys ↔
    Scalar.gt (Scalar.maximum (List.zipWith (fun x y => (x - y).norm) xs ys))
      (Scalar.allowance 8 : Float) = false := by
  have htolerance : ¬(1e-8 : Float) < 0 := by decide
  have hnumber : (1e-8 : Float).isNaN = false := by decide
  show _ ↔ decide ((1e-8 : Float) < Scalar.maximum _) = false
  rw [Unrefuted, List.forall₂_iff_zip, and_iff_right hlen, decide_eq_false_iff_not,
    Double.lt_maximum htolerance, not_exists]
  simp only [not_and, Double.not_lt_iff hnumber, ← List.map_uncurry_zip_eq_zipWith, List.mem_map,
    Prod.exists, forall_exists_index, and_imp]
  exact ⟨fun h d x y hxy he => he ▸ h hxy, fun h x y hxy => h _ x y hxy rfl⟩

/-! ## One qubit -/

theorem Mat2.deviation_eq {R : Type} [Scalar R] (m n : Mat2 R) : m.deviation n =
    Scalar.maximum (List.zipWith (fun x y => (x - y).norm) m.toList n.toList) := rfl

theorem OneQubitSequence.gt_deviation_iff {u : Mat2 Float} {s : OneQubitSequence Float} :
    Scalar.gt (s.deviation u) EulerFamily.reconstruction = false ↔
      ∃ m, s.matrix? = some m ∧ Unrefuted u.toList m.toList := by
  have hunbounded : Scalar.gt (Scalar.unbounded : Float) EulerFamily.reconstruction = true := by
    decide +kernel
  rw [deviation]
  cases s.matrix? with
  | none => simp only [hunbounded, Bool.true_eq_false, reduceCtorEq, false_and, exists_false]
  | some m =>
    simp only [Option.some.injEq, exists_eq_left', Mat2.deviation_eq]
    rw [unrefuted_iff (by rfl), EulerFamily.reconstruction]

theorem EulerFamily.synthesize_eq_ok_iff {family : EulerFamily} {u : Mat2 Float} {tolerance : Float}
    {s : OneQubitSequence Float} : family.synthesize u tolerance = .ok s ↔
      family.sequence u tolerance = s ∧ ∃ m, s.matrix? = some m ∧ Unrefuted u.toList m.toList := by
  rw [synthesize]
  refine Outcome.unless_eq_ok.trans ?_
  rw [OneQubitSequence.gt_deviation_iff, and_comm]
  refine and_congr_right ?_
  rintro rfl
  rfl

/-! ## Two qubits -/

namespace Interaction

theorem matchingPhase_eq_ok_iff {rebuilt target : Mat4 Float} {φ : Float} :
    matchingPhase rebuilt target = .ok φ ↔
      (Mat4.trace (Mat4.dagger rebuilt * target)).arg = φ ∧
      Unrefuted (Mat4.scale rebuilt (Cx.cis φ)).toList target.toList := by
  rw [matchingPhase]
  refine Outcome.unless_eq_ok.trans ?_
  rw [and_comm]
  refine and_congr_right ?_
  rintro rfl
  exact (unrefuted_iff (by simp [Square4.toList])).symm

theorem matchingPhase_of_ofMatrix {u : Mat4 Float} {k : Interaction Float} (h : ofMatrix u = .ok k) :
    matchingPhase k.matrix u = .ok k.phase := by
  unfold ofMatrix at h
  dsimp only at h
  split at h
  · cases h
  split at h
  · obtain ⟨phase, hphase, h⟩ := Outcome.bind_eq_ok.mp h
    obtain rfl := Except.ok.inj h
    exact hphase
  · cases h

end Interaction

theorem CxSequence.matchingPhase_of_ofMatrix {u : Mat4 Float} {s : CxSequence Float}
    (h : ofMatrix u = .ok s) : Interaction.matchingPhase (product s.steps) u = .ok s.phase := by
  obtain ⟨k, -, h⟩ := Outcome.bind_eq_ok.mp h
  obtain ⟨phase, hphase, h⟩ := Outcome.bind_eq_ok.mp h
  obtain rfl := Except.ok.inj h
  exact hphase

/-! ## Any number of qubits -/

theorem Shannon.decompose_eq_ok_iff_unrefuted {name : String} {matrix : List (Cx Float)} {n : Nat}
    {l : List (ShannonStep Float)} : decompose name matrix n = .ok l ↔
      n < 64 ∧ matrix.length = 2 ^ n * 2 ^ n ∧
        steps .jacobi name (List.range n) ⟨2 ^ n, matrix.toArray⟩ = .ok l ∧
        Unrefuted (ShannonStep.product n l).toList matrix := by
  refine decompose_eq_ok_iff.trans (and_congr_right fun _ => and_congr_right fun hlen => ?_)
  have hproduct := ShannonStep.fits_product n l
  rw [unrefuted_iff (hproduct.length_toList.trans hlen.symm), Dense.maxNorm,
    hproduct.toList_sub ⟨rfl, hlen⟩, List.map_zipWith]
  rfl

/-! ## Matrices without a number -/

section Undefined

namespace Cx

/-- A complex number whose parts are no numbers. -/
def nan : Cx Float := ⟨Float.nan, Float.nan⟩

variable (z : Cx Float)

@[simp] theorem nan_add : nan + z = nan := rfl

@[simp] theorem add_nan : z + nan = nan := congrArg₂ mk (Double.add_nan _) (Double.add_nan _)

@[simp] theorem nan_sub : nan - z = nan := rfl

@[simp] theorem sub_nan : z - nan = nan := congrArg₂ mk (Double.sub_nan _) (Double.sub_nan _)

@[simp] theorem nan_mul : nan * z = nan :=
  congrArg₂ mk (congrArg₂ (· - ·) (Double.nan_mul _) (Double.nan_mul _))
    (congrArg₂ (· + ·) (Double.nan_mul _) (Double.nan_mul _))

@[simp] theorem mul_nan : z * nan = nan :=
  congrArg₂ mk (congrArg₂ (· - ·) (Double.mul_nan _) (Double.mul_nan _))
    (congrArg₂ (· + ·) (Double.mul_nan _) (Double.mul_nan _))

theorem isNaN_norm_nan : nan.norm.isNaN = true := by decide +kernel

end Cx

theorem sub_eq_nan {xs ys : List (Cx Float)} (h : (∀ x ∈ xs, x = .nan) ∨ ∀ y ∈ ys, y = .nan)
    {x y : Cx Float} (hx : x ∈ xs) (hy : y ∈ ys) : x - y = .nan := by
  rcases h with h | h
  · rw [h x hx, Cx.nan_sub]
  · rw [h y hy, Cx.sub_nan]

/-- Entries that are no numbers are not found to be off, whatever they are compared with. -/
theorem unrefuted_nan {xs ys : List (Cx Float)} (hlen : xs.length = ys.length)
    (h : (∀ x ∈ xs, x = .nan) ∨ ∀ y ∈ ys, y = .nan) : Unrefuted xs ys := by
  refine List.forall₂_iff_zip.mpr ⟨hlen, fun {x y} hxy => .inr ?_⟩
  obtain ⟨hx, hy⟩ := List.of_mem_zip hxy
  rw [sub_eq_nan h hx hy, Cx.isNaN_norm_nan]

theorem not_matches_nan {xs ys : List (Cx Float)} (hpos : 0 < xs.length)
    (h : (∀ x ∈ xs, x = .nan) ∨ ∀ y ∈ ys, y = .nan) : ¬Matches xs ys := by
  have hnorm : ¬Cx.nan.norm ≤ 1e-8 := by decide +kernel
  rintro (_ | ⟨hle, -⟩)
  · exact absurd hpos (Nat.lt_irrefl 0)
  · rw [sub_eq_nan h List.mem_cons_self List.mem_cons_self] at hle
    exact hnorm hle

/-! ### One qubit -/

/-- The family of the one general gate gives a sequence with a matrix whichever numbers come up. -/
theorem EulerFamily.exists_matrix?_u3 (u : Mat2 Float) (tolerance : Float) :
    ∃ m, (u3.sequence u tolerance).matrix? = some m := by
  simp only [sequence, OneQubitSequence.finish]
  split
  · exact ⟨_, rfl⟩
  · exact ⟨_, rfl⟩

/-- The one-qubit matrix without a number. -/
def Mat2.nan : Mat2 Float := ⟨.nan, .nan, .nan, .nan⟩

theorem Mat2.eq_nan_of_mem {x : Cx Float} (h : x ∈ nan.toList) : x = .nan :=
  List.eq_of_mem_replicate (n := 4) h

theorem EulerFamily.synthesize_nan (tolerance : Float) :
    u3.synthesize Mat2.nan tolerance = .ok (u3.sequence Mat2.nan tolerance) := by
  obtain ⟨m, hm⟩ := exists_matrix?_u3 Mat2.nan tolerance
  exact synthesize_eq_ok_iff.mpr ⟨rfl, m, hm, unrefuted_nan rfl (.inl fun _ => Mat2.eq_nan_of_mem)⟩

/-! ### Two qubits -/

namespace Mat4

/-- The two-qubit matrix without a number. -/
def nan : Mat4 Float := Square4.ofFn fun _ _ => .nan

variable (m : Mat4 Float) (z : Cx Float)

@[simp] theorem get_nan (i j : Fin 4) : nan.get i j = .nan := Square4.get_ofFn _ i j

@[simp] theorem scale_nan : Mat4.scale nan z = nan :=
  Square4.ext_get fun i j => by simp [Mat4.scale]

@[simp] theorem transpose_nan : nan.transpose = nan :=
  Square4.ext_get fun i j => by simp [Square4.transpose]

@[simp] theorem nan_mul : nan * m = nan :=
  Square4.ext_get fun i j => by
    show (Square4.mul nan m).get i j = _
    simp [Square4.mul]

@[simp] theorem mul_nan : m * nan = nan :=
  Square4.ext_get fun i j => by
    show (Square4.mul m nan).get i j = _
    simp [Square4.mul]

theorem below_norm_det_nan : Scalar.below (det nan).norm (Scalar.allowance 12) = false := by
  decide +kernel

theorem below_offDiagonal_nan : Scalar.below (Scalar.maximum (nan.offDiagonal.map Cx.norm))
    (Scalar.allowance 9 : Float) = true := by
  decide +kernel

theorem eq_nan_of_mem {x : Cx Float} (h : x ∈ nan.toList) : x = .nan :=
  List.eq_of_mem_replicate (n := 16) h

end Mat4

namespace Interaction

theorem exists_matchingPhase_nan (rebuilt : Mat4 Float) :
    ∃ φ, matchingPhase rebuilt Mat4.nan = .ok φ :=
  ⟨_, matchingPhase_eq_ok_iff.mpr ⟨rfl, unrefuted_nan (by simp [Square4.toList])
    (.inr fun _ => Mat4.eq_nan_of_mem)⟩⟩

/-- The first mixture is taken, as no entry off the diagonal counts as different from zero. -/
theorem exists_diagonalize?_nan : ∃ pd, diagonalize? Mat4.nan mixingFactors = some pd := by
  simp only [mixingFactors, diagonalize?, Mat4.mul_nan, Mat4.nan_mul, Mat4.below_offDiagonal_nan]
  exact ⟨_, rfl⟩

theorem exists_ofMatrix_nan : ∃ k, ofMatrix Mat4.nan = .ok k := by
  obtain ⟨pd, hpd⟩ := exists_diagonalize?_nan
  unfold ofMatrix
  simp only [Mat4.below_norm_det_nan, Mat4.scale_nan, Mat4.mul_nan, Mat4.nan_mul, Mat4.transpose_nan, hpd]
  rw [if_neg Bool.false_ne_true]
  exact ⟨_, Outcome.bind_eq_ok.mpr ⟨_, (exists_matchingPhase_nan _).choose_spec, rfl⟩⟩

end Interaction

theorem CxSequence.exists_ofMatrix_nan : ∃ s, ofMatrix Mat4.nan = .ok s := by
  obtain ⟨k, hk⟩ := Interaction.exists_ofMatrix_nan
  obtain ⟨φ, hφ⟩ := Interaction.exists_matchingPhase_nan
    (product (fuse k.after (ofAngles k.xx k.yy k.zz) k.before.1 k.before.2))
  exact ⟨_, Outcome.bind_eq_ok.mpr ⟨k, hk, Outcome.bind_eq_ok.mpr ⟨φ, hφ, rfl⟩⟩⟩

/-! ### Any number of qubits -/

namespace Dense

/-- The matrix of `n` rows without a number. -/
def nan (n : Nat) : Dense (Cx Float) := ⟨n, (List.replicate (n * n) .nan).toArray⟩

theorem fits_nan (n : Nat) : (nan n).Fits n := ⟨rfl, by simp [nan]⟩

variable {n : Nat}

theorem get_nan {i j : Nat} (hi : i < n) (hj : j < n) : (nan n).get i j = .nan := by
  have hlt := position_lt hj hi
  simp [get, nan, hlt]

theorem nan_sub (m : Dense (Cx Float)) : (nan n).sub m = nan n := by
  refine ((fits_nan n).sub m).ext (fits_nan n) fun i hi j hj => ?_
  rw [sub]
  refine (get_ofFn _ hi hj).trans ?_
  rw [get_nan hi hj, Cx.nan_sub]

theorem block_nan {row column size : Nat} (hrow : row + size ≤ n) (hcolumn : column + size ≤ n) :
    (nan n).block row column size = nan size := by
  refine (fits_block _ _ _ _).ext (fits_nan size) fun i hi j hj => ?_
  rw [block, get_ofFn _ hi hj, get_nan hi hj, get_nan (by omega) (by omega)]

/-- Nothing in it counts as different from zero. -/
theorem below_maxNorm_nan (n : Nat) :
    Scalar.below (nan n).maxNorm (Shannon.negligible : Float) = true := by
  rw [maxNorm, nan, toList, List.map_replicate, Double.maximum_replicate Cx.isNaN_norm_nan]
  decide +kernel

end Dense

namespace Shannon

/-- A matrix without a number counts as the identity on any operands. -/
theorem steps_nan (kernels : Kernels Float) (name : String) (qs : List Nat) :
    steps kernels name qs (.nan (2 ^ qs.length)) = .ok [] := by
  have hleaf (n : Nat) (qs : List Nat) : leaf (.nan n) qs = [] := by
    rw [leaf, Dense.nan_sub, if_pos (Dense.below_maxNorm_nan n)]
  induction qs with
  | nil => rw [steps, hleaf]
  | cons q qs ih =>
    obtain _ | ⟨r, _ | ⟨s, rest⟩⟩ := qs
    · rw [steps, hleaf]
    · rw [steps, hleaf]
    · -- The quadrants off the diagonal count as zero and the ones on it as equal.
      have hfull : 2 ^ (q :: r :: s :: rest).length = 2 ^ (r :: s :: rest).length * 2 := pow_succ _ _
      generalize 2 ^ (r :: s :: rest).length = k at ih hfull
      have hhalf : (Dense.nan (k * 2)).size / 2 = k := Nat.mul_div_cancel k Nat.two_pos
      have hblock {row column : Nat} (hrow : row ≤ k) (hcolumn : column ≤ k) :
          (Dense.nan (k * 2)).block row column k = .nan k :=
        Dense.block_nan (by omega) (by omega)
      rw [hfull, steps]
      simp only [hhalf, hblock (Nat.zero_le k) (Nat.zero_le k), hblock (Nat.zero_le k) le_rfl,
        hblock le_rfl (Nat.zero_le k), hblock le_rfl le_rfl, Dense.nan_sub, Dense.below_maxNorm_nan,
        Bool.and_self, if_true, ih]

theorem decompose_nan (name : String) {n : Nat} (hn : n < 64) :
    decompose name (List.replicate (2 ^ n * 2 ^ n) Cx.nan) n = .ok [] := by
  have hlen : (List.replicate (2 ^ n * 2 ^ n) Cx.nan).length = 2 ^ n * 2 ^ n := List.length_replicate
  have hproduct := ShannonStep.fits_product n ([] : List (ShannonStep Float))
  have hsteps := steps_nan .jacobi name (List.range n)
  rw [List.length_range] at hsteps
  exact decompose_eq_ok_iff_unrefuted.mpr ⟨hn, hlen, hsteps,
    unrefuted_nan (hproduct.length_toList.trans hlen.symm) (.inr fun _ => List.eq_of_mem_replicate)⟩

end Shannon

end Undefined

/-! ## Summary -/

/-- What a synthesis has checked when it gives an answer, for every matrix of machine numbers: the rebuilt
matrix, with its phase, has as many entries as the source, and each one is within the tolerance of the entry
of the source or differs from it by no number. So the two match exactly where every entry differs by a
number. -/
theorem checked_of_synthesis (family : EulerFamily) (u : Mat2 Float) (tolerance : Float) (v : Mat4 Float)
    (name : String) (matrix : List (Cx Float)) (n : Nat) :
    (∀ s, family.synthesize u tolerance = .ok s →
      ∃ m, s.matrix? = some m ∧ Checked u.toList m.toList) ∧
    (∀ k, Interaction.ofMatrix v = .ok k →
      Checked (Mat4.scale k.matrix (Cx.cis k.phase)).toList v.toList) ∧
    (∀ s, CxSequence.ofMatrix v = .ok s →
      Checked (Mat4.scale (CxSequence.product s.steps) (Cx.cis s.phase)).toList v.toList) ∧
    ∀ l, Shannon.decompose name matrix n = .ok l →
      Checked (ShannonStep.product n l).toList matrix := by
  refine ⟨fun s h => ?_, fun k h => ?_, fun s h => ?_, fun l h => ?_⟩
  · obtain ⟨-, m, hm, hunrefuted⟩ := EulerFamily.synthesize_eq_ok_iff.mp h
    exact ⟨m, hm, hunrefuted.checked⟩
  · exact (Interaction.matchingPhase_eq_ok_iff.mp (Interaction.matchingPhase_of_ofMatrix h)).2.checked
  · exact (Interaction.matchingPhase_eq_ok_iff.mp (CxSequence.matchingPhase_of_ofMatrix h)).2.checked
  · exact (Shannon.decompose_eq_ok_iff_unrefuted.mp h).2.2.2.checked

/-- All four answer for a matrix without a number, and have checked it. -/
theorem checked_of_synthesis_nan :
    (∃ s, EulerFamily.u3.synthesize Mat2.nan 1e-10 = .ok s ∧
      ∃ m, s.matrix? = some m ∧ Checked Mat2.nan.toList m.toList) ∧
    (∃ k, Interaction.ofMatrix Mat4.nan = .ok k ∧
      Checked (Mat4.scale k.matrix (Cx.cis k.phase)).toList Mat4.nan.toList) ∧
    (∃ s, CxSequence.ofMatrix Mat4.nan = .ok s ∧
      Checked (Mat4.scale (CxSequence.product s.steps) (Cx.cis s.phase)).toList Mat4.nan.toList) ∧
    Shannon.decompose "u" (List.replicate 4 Cx.nan) 1 = .ok [] ∧
      Checked (ShannonStep.product 1 ([] : List (ShannonStep Float))).toList (List.replicate 4 Cx.nan) := by
  obtain ⟨heuler, hkak, hcx, hshannon⟩ := checked_of_synthesis .u3 .nan 1e-10 .nan "u"
    (List.replicate 4 Cx.nan) 1
  obtain ⟨k, hk⟩ := Interaction.exists_ofMatrix_nan
  obtain ⟨s, hs⟩ := CxSequence.exists_ofMatrix_nan
  have hu3 := EulerFamily.synthesize_nan 1e-10
  have hlost := Shannon.decompose_nan "u" (n := 1) (by decide)
  exact ⟨⟨_, hu3, heuler _ hu3⟩, ⟨k, hk, hkak k hk⟩, ⟨s, hs, hcx s hs⟩, hlost, hshannon _ hlost⟩

/-- What passes need not match: nothing is within the tolerance of an entry that is no number. -/
theorem unmatched_nan :
    (∃ s m, EulerFamily.u3.synthesize Mat2.nan 1e-10 = .ok s ∧ s.matrix? = some m ∧
      ¬Matches Mat2.nan.toList m.toList) ∧
    (∃ k, Interaction.ofMatrix Mat4.nan = .ok k ∧
      ¬Matches (Mat4.scale k.matrix (Cx.cis k.phase)).toList Mat4.nan.toList) ∧
    (∃ s, CxSequence.ofMatrix Mat4.nan = .ok s ∧
      ¬Matches (Mat4.scale (CxSequence.product s.steps) (Cx.cis s.phase)).toList Mat4.nan.toList) ∧
    Shannon.decompose "u" (List.replicate 4 Cx.nan) 1 = .ok [] ∧
      ¬Matches (ShannonStep.product 1 ([] : List (ShannonStep Float))).toList (List.replicate 4 Cx.nan) := by
  obtain ⟨k, hk⟩ := Interaction.exists_ofMatrix_nan
  obtain ⟨s, hs⟩ := CxSequence.exists_ofMatrix_nan
  obtain ⟨m, hm⟩ := EulerFamily.exists_matrix?_u3 Mat2.nan 1e-10
  refine ⟨⟨_, m, EulerFamily.synthesize_nan 1e-10, hm, not_matches_nan (by decide) ?_⟩,
    ⟨k, hk, not_matches_nan (by simp [Square4.toList]) ?_⟩,
    ⟨s, hs, not_matches_nan (by simp [Square4.toList]) ?_⟩,
    Shannon.decompose_nan "u" (n := 1) (by decide), not_matches_nan ?_ ?_⟩
  · exact .inl fun _ => Mat2.eq_nan_of_mem
  · exact .inr fun _ => Mat4.eq_nan_of_mem
  · exact .inr fun _ => Mat4.eq_nan_of_mem
  · rw [(ShannonStep.fits_product 1 []).length_toList]
    decide
  · exact .inr fun _ => List.eq_of_mem_replicate

end QuantumCompiler
