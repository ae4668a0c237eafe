import Mathlib
import QuantumCompiler.Proofs.Synthesis.Effect

/-!
# The Shannon recursion is exact

Where the factorizations are exact the steps of a decomposition rebuild its unitary. Two unitaries on the other
operands around a ladder on the first one are a pair, one for each value of this operand, and two pairs
around one more ladder are the cosine-sine form of the whole. Exactness is asked of the factorizations on
the arguments that they get along the recursion; eigenvectors of a mixture need not be those of the unitary
for every argument, as different unitaries have the same one.
-/
namespace QuantumCompiler

open Matrix (fromBlocks)
open QuantumCompiler.Dense (AgreeOff Operands embed quarters fibers)

attribute [local instance] Scalar.real

/-! ## Pairs of unitaries -/

section Pair

variable {ι : Type} [Fintype ι] [DecidableEq ι] {A B V : Matrix ι ι ℂ} {r : ι → ℂ}

/-- A pair of unitaries from the eigenvectors of `A · B†` and square roots of its eigenvalues. -/
theorem fromBlocks_pair (hV : V ∈ Matrix.unitaryGroup ι ℂ) (hB : B ∈ Matrix.unitaryGroup ι ℂ)
    (hdiagonal : star V * (A * star B) * V = Matrix.diagonal fun i => r i * r i)
    (hunit : ∀ i, star (r i) * r i = 1) :
    fromBlocks V 0 0 V * fromBlocks (Matrix.diagonal r) 0 0 (Matrix.diagonal fun i => star (r i)) *
      fromBlocks (Matrix.diagonal r * star V * B) 0 0 (Matrix.diagonal r * star V * B) =
      fromBlocks A 0 0 B := by
  have hVV : V * star V = 1 := Matrix.mem_unitaryGroup_iff.mp hV
  have hBB : star B * B = 1 := Matrix.mem_unitaryGroup_iff'.mp hB
  have hfirst : V * Matrix.diagonal r * (Matrix.diagonal r * star V * B) = A :=
    calc V * Matrix.diagonal r * (Matrix.diagonal r * star V * B)
        = V * (Matrix.diagonal r * Matrix.diagonal r) * star V * B := by simp only [mul_assoc]
      _ = V * (star V * (A * star B) * V) * star V * B := by
          rw [Matrix.diagonal_mul_diagonal, ← hdiagonal]
      _ = V * star V * A * (star B * (V * star V) * B) := by simp only [mul_assoc]
      _ = A := by rw [hVV, mul_one, hBB, mul_one, one_mul]
  have hsecond : V * (Matrix.diagonal fun i => star (r i)) * (Matrix.diagonal r * star V * B) = B :=
    calc V * (Matrix.diagonal fun i => star (r i)) * (Matrix.diagonal r * star V * B)
        = V * ((Matrix.diagonal fun i => star (r i)) * Matrix.diagonal r) * star V * B := by
          simp only [mul_assoc]
      _ = V * star V * B := by
          simp only [Matrix.diagonal_mul_diagonal, hunit, Matrix.diagonal_one, mul_one]
      _ = B := by rw [hVV, one_mul]
  simp only [Matrix.fromBlocks_multiply, mul_zero, zero_mul, add_zero, zero_add, hfirst, hsecond]

/-- The diagonal quadrants of a unitary one are unitary. -/
theorem unitary_of_fromBlocks (h : fromBlocks A 0 0 B ∈ Matrix.unitaryGroup (ι ⊕ ι) ℂ) :
    A ∈ Matrix.unitaryGroup ι ℂ ∧ B ∈ Matrix.unitaryGroup ι ℂ := by
  have hone := Matrix.mem_unitaryGroup_iff.mp h
  rw [Matrix.star_eq_conjTranspose, Matrix.fromBlocks_conjTranspose, Matrix.fromBlocks_multiply,
    ← Matrix.fromBlocks_one, Matrix.fromBlocks_inj] at hone
  simp only [Matrix.conjTranspose_zero, mul_zero, zero_mul, add_zero, zero_add] at hone
  exact ⟨Matrix.mem_unitaryGroup_iff.mpr hone.1, Matrix.mem_unitaryGroup_iff.mpr hone.2.2.2⟩

end Pair
theorem star_mul_self_of_norm {z : ℂ} (h : ‖z‖ = 1) : star z * z = 1 := by
  rw [Complex.star_def, Complex.conj_mul', h, Complex.ofReal_one, one_pow]

/-- On the unit circle the rotation by minus twice the argument multiplies by the number, and by its
conjugate. -/
theorem rotation_Z_arg {z : Cx ℝ} (h : ‖z.toComplex‖ = 1) :
    Pauli.rotation Pauli.Z (-2 * z.arg) = !![z.toComplex, 0; 0, star z.toComplex] := by
  have hclear : -(-2 * z.arg) / 2 = z.arg := by ring
  have hset : -2 * z.arg / 2 = -z.arg := by ring
  have hconj : Complex.exp ((-z.arg : ℝ) * Complex.I) = star z.toComplex := by
    rw [← Cx.exp_arg h, Complex.star_def, ← Complex.exp_conj, map_mul, Complex.conj_ofReal, Complex.conj_I,
      Complex.ofReal_neg, neg_mul, mul_neg]
  rw [Pauli.rotation_Z, hclear, hset, hconj, Cx.exp_arg h]

/-! ## Exact factorizations -/

/-- A cosine-sine decomposition of a unitary with `2ᵏ⁺¹` rows, without rounding. -/
structure Dense.CosineSine.Factors (cs : Dense.CosineSine ℝ) (k : Nat) (u : Dense (Cx ℝ)) : Prop where
  l₀ : cs.l₀.IsUnitary (2 ^ k)
  l₁ : cs.l₁.IsUnitary (2 ^ k)
  r₀ : cs.r₀.IsUnitary (2 ^ k)
  r₁ : cs.r₁.IsUnitary (2 ^ k)
  cosines : cs.cosines.size = 2 ^ k
  sines : cs.sines.size = 2 ^ k
  circle : ∀ j : Fin (2 ^ k), cs.cosines[j] ^ 2 + cs.sines[j] ^ 2 = 1
  product : u.toMatrix Cx.toComplex (2 ^ (k + 1)) = quarters (
    fromBlocks (cs.l₀.toMatrix Cx.toComplex (2 ^ k)) 0 0 (cs.l₁.toMatrix Cx.toComplex (2 ^ k)) *
    fromBlocks (Matrix.diagonal fun j : Fin (2 ^ k) => (cs.cosines[j] : ℂ))
      (-Matrix.diagonal fun j : Fin (2 ^ k) => (cs.sines[j] : ℂ))
      (Matrix.diagonal fun j : Fin (2 ^ k) => (cs.sines[j] : ℂ))
      (Matrix.diagonal fun j : Fin (2 ^ k) => (cs.cosines[j] : ℂ)) *
    fromBlocks (cs.r₀.toMatrix Cx.toComplex (2 ^ k)) 0 0 (cs.r₁.toMatrix Cx.toComplex (2 ^ k)))

namespace Shannon

open ShannonStep

/-- The square roots of the diagonal of a matrix that is as large as another one. -/
noncomputable def eigenroots (x d : Dense (Cx ℝ)) : List (Cx ℝ) :=
  (List.range x.size).map fun i => (d.get i i).sqrt

/-- The unitary that goes in front of the ladder of a pair: the square roots of the eigenvalues, on their
eigenvectors, times the second matrix of the pair. -/
noncomputable def counterpart (x v d b : Dense (Cx ℝ)) : Dense (Cx ℝ) :=
  ((Dense.diagonal (eigenroots x d).toArray).mul v.adjoint).mul b

/-- The eigenvectors are exact where `diag(a, b)` is taken apart. They are unitary for all mixtures of
`x = a · b†`, and for one of them they diagonalize `x`. With the eigenvectors that are taken the recursion
goes on to two matrices with a property. -/
structure Kernels.ExactPair (kernels : Kernels ℝ) (n : Nat) (property : Dense (Cx ℝ) → Prop)
    (a b : Dense (Cx ℝ)) : Prop where
  unitary : ∀ κ ∈ mixingFactors,
    (kernels.eigenvectors (hermitianMixture (a.mul b.adjoint) κ)).IsUnitary n
  diagonalizes : ∃ κ ∈ mixingFactors,
    let v := kernels.eigenvectors (hermitianMixture (a.mul b.adjoint) κ)
    (((v.adjoint.mul (a.mul b.adjoint)).mul v).toMatrix Cx.toComplex n).IsDiag
  next : ∀ v d, diagonalize kernels (a.mul b.adjoint) Scalar.unbounded mixingFactors = .ok (v, d) →
    property (counterpart (a.mul b.adjoint) v d b) ∧ property v

/-- The factorizations are exact on the arguments that they get in the decomposition of a unitary with `2ᵏ`
rows. -/
def Kernels.ExactAlong (kernels : Kernels ℝ) : Nat → Dense (Cx ℝ) → Prop
  | 0, _ => True
  | 1, _ => True
  | 2, _ => True
  | k + 3, u =>
    let half := 2 ^ (k + 2)
    let u₀₀ := u.block 0 0 half
    let u₀₁ := u.block 0 half half
    let u₁₀ := u.block half 0 half
    let u₁₁ := u.block half half half
    if Scalar.below u₀₁.maxNorm negligible && Scalar.below u₁₀.maxNorm negligible then
      if Scalar.below (u₀₀.sub u₁₁).maxNorm negligible then kernels.ExactAlong (k + 2) u₀₀
      else kernels.ExactPair half (kernels.ExactAlong (k + 2)) u₀₀ u₁₁
    else
      let cs := kernels.cosineSine u₀₀ u₀₁ u₁₀ u₁₁
      cs.Factors (k + 2) u ∧ kernels.ExactPair half (kernels.ExactAlong (k + 2)) cs.r₀ cs.r₁ ∧
        kernels.ExactPair half (kernels.ExactAlong (k + 2)) cs.l₀ cs.l₁

/-! ## Sequences that rebuild an operator -/

/-- Steps on a register that come to an operator on some of its qubits. -/
structure Rebuilds (n : Nat) (qs : List Nat) (l : List (ShannonStep ℝ))
    (m : Matrix (Fin (2 ^ qs.length)) (Fin (2 ^ qs.length)) ℂ) : Prop where
  operands : ∀ s ∈ l, Operands n s.qubits
  effect : effect n l = embed n qs m

section Rebuilds

variable {n q : Nat} {qs : List Nat} {a b : List (ShannonStep ℝ)}

theorem Rebuilds.append {m m' : Matrix (Fin (2 ^ qs.length)) (Fin (2 ^ qs.length)) ℂ}
    (h : Operands n qs) (ha : Rebuilds n qs a m) (hb : Rebuilds n qs b m') :
    Rebuilds n qs (a ++ b) (m' * m) := by
  refine ⟨List.forall_mem_append.mpr ⟨ha.operands, hb.operands⟩, ?_⟩
  rw [effect_append, ha.effect, hb.effect, Dense.embed_mul h]

/-- Steps on the other operands do the same for both values of the first one. -/
theorem Rebuilds.behind {m : Matrix (Fin (2 ^ qs.length)) (Fin (2 ^ qs.length)) ℂ}
    (h : Operands n (q :: qs)) (ha : Rebuilds n qs a m) :
    Rebuilds n (q :: qs) a (quarters (fromBlocks m 0 0 m)) :=
  ⟨ha.operands, ha.effect.trans (Dense.embed_same h m).symm⟩

theorem rebuilds_multiplexed {rotation : Nat → ℝ → ShannonStep ℝ} {P : Pauli.Op} (hP : About rotation P)
    (h : Operands n (q :: qs)) {angles : List ℝ} (hlen : angles.length = 2 ^ qs.length)
    {f : Fin (2 ^ qs.length) → Pauli.Op}
    (hf : ∀ (j : Fin (2 ^ qs.length)) (hj : j < angles.length), Pauli.rotation P angles[j.val] = f j) :
    Rebuilds n (q :: qs) (multiplexed rotation angles q qs) (quarters (fibers f)) := by
  refine ⟨fun s hs => ?_, (effect_multiplexed hP h hlen).trans ?_⟩
  · rcases onTarget_multiplexed rotation angles q qs s hs with ⟨θ, rfl⟩ | ⟨c, hc, rfl⟩
    · rw [hP.qubits]
      exact ⟨by simpa using h.head_lt, List.nodup_singleton q⟩
    · have hne : c ≠ q := fun he => h.head_notMem (he ▸ hc)
      exact ⟨by simpa [qubits] using ⟨h.tail.lt c hc, h.head_lt⟩, by simpa [qubits] using hne⟩
  · congr 3
    exact funext fun j => hf j _

theorem rebuilds_leaf (h : Operands n qs) {u : Dense (Cx ℝ)} (hu : u.Fits (2 ^ qs.length)) :
    Rebuilds n qs (leaf u qs) (u.toMatrix Cx.toComplex (2 ^ qs.length)) := by
  unfold leaf
  split
  · rename_i hbelow
    have hzero := (Dense.below_maxNorm_iff (hu.sub _) 12).mp hbelow
    rw [Dense.toMatrix_sub hu, hu.size, Dense.exact_toComplex.toMatrix_identity, sub_eq_zero] at hzero
    refine ⟨by simp, ?_⟩
    rw [hzero, Dense.embed_one]
    rfl
  · have hmatrix : (block qs u.toList).matrix = u := by
      obtain ⟨size, entries⟩ := u
      obtain rfl : size = 2 ^ qs.length := hu.size
      rfl
    refine ⟨by simpa [qubits] using h, ?_⟩
    simp [effect, operator, hmatrix, qubits]

/-- A ladder about the third axis multiplies by numbers on the unit circle, and by their conjugates. -/
theorem rebuilds_rz (h : Operands n (q :: qs)) {zs : List (Cx ℝ)} (hlen : zs.length = 2 ^ qs.length)
    (hunit : ∀ z ∈ zs, ‖z.toComplex‖ = 1) :
    Rebuilds n (q :: qs) (multiplexed rz (zs.map fun z => -2 * z.arg) q qs) (quarters (fromBlocks
      (Matrix.diagonal fun j : Fin (2 ^ qs.length) => zs[j].toComplex) 0 0
      (Matrix.diagonal fun j : Fin (2 ^ qs.length) => star zs[j].toComplex))) := by
  rw [← Matrix.diagonal_zero, ← Dense.fibers_eq fun _ => rfl]
  refine rebuilds_multiplexed about_rz h (by rwa [List.length_map]) fun j hj => ?_
  rw [List.getElem_map]
  exact rotation_Z_arg (hunit _ (List.getElem_mem _))

/-- A ladder about the second axis by twice the angles of cosines and sines. -/
theorem rebuilds_ry (h : Operands n (q :: qs)) {cs ss : Array ℝ} (hc : cs.size = 2 ^ qs.length)
    (hs : ss.size = 2 ^ qs.length) (hcircle : ∀ j : Fin (2 ^ qs.length), cs[j] ^ 2 + ss[j] ^ 2 = 1) :
    Rebuilds n (q :: qs)
      (multiplexed ry (List.zipWith (fun c s => 2 * Complex.arg ⟨c, s⟩) cs.toList ss.toList) q qs)
      (quarters (fromBlocks (Matrix.diagonal fun j : Fin (2 ^ qs.length) => (cs[j] : ℂ))
        (-Matrix.diagonal fun j : Fin (2 ^ qs.length) => (ss[j] : ℂ))
        (Matrix.diagonal fun j : Fin (2 ^ qs.length) => (ss[j] : ℂ))
        (Matrix.diagonal fun j : Fin (2 ^ qs.length) => (cs[j] : ℂ)))) := by
  rw [Matrix.diagonal_neg, ← Dense.fibers_eq fun _ => rfl]
  refine rebuilds_multiplexed about_ry h ?_ fun j hj => ?_
  · rw [List.length_zipWith, Array.length_toList, Array.length_toList, hc, hs, Nat.min_self]
  · rw [List.getElem_zipWith]
    exact Pauli.rotation_Y_arg (hcircle j)

end Rebuilds

/-! ## The recursion -/

section Recursion

variable {kernels : Kernels ℝ} {n : Nat}

/-- Unitary eigenvectors that diagonalize for one mixture at least are found. -/
theorem diagonalize_of_isDiag {x : Dense (Cx ℝ)} (residual : ℝ) {κs : List ℝ}
    (hv : ∀ κ ∈ κs, (kernels.eigenvectors (hermitianMixture x κ)).IsUnitary n)
    (hd : ∃ κ ∈ κs, let v := kernels.eigenvectors (hermitianMixture x κ)
      (((v.adjoint.mul x).mul v).toMatrix Cx.toComplex n).IsDiag) :
    ∃ v : Dense (Cx ℝ), diagonalize kernels x residual κs = .ok (v, (v.adjoint.mul x).mul v) ∧
      v.IsUnitary n ∧ (((v.adjoint.mul x).mul v).toMatrix Cx.toComplex n).IsDiag := by
  induction κs generalizing residual with
  | nil => simp at hd
  | cons κ κs ih =>
    obtain ⟨hκ, hv⟩ := List.forall_mem_cons.mp hv
    have hgt := Dense.gt_offDiagonal_iff ((hκ.fits.adjoint.mul x).mul (kernels.eigenvectors
      (hermitianMixture x κ))) 9
    rw [diagonalize]
    split
    · rename_i hoff
      refine ih _ hv ?_
      obtain ⟨κ', hmem, hdiag⟩ := hd
      rcases List.mem_cons.mp hmem with rfl | hmem
      · exact absurd (hgt.mpr hdiag) (by simp [hoff])
      · exact ⟨κ', hmem, hdiag⟩
    · rename_i hoff
      exact ⟨_, rfl, hκ, hgt.mp (by simpa using hoff)⟩

/-- The eigenvalues of a unitary are on the unit circle, and so are their square roots. -/
theorem norm_sqrt_eigenvalue {d : Dense (Cx ℝ)} (hd : d.IsUnitary n)
    (hdiag : (d.toMatrix Cx.toComplex n).IsDiag) (i : Fin n) : ‖(d.get i i).sqrt.toComplex‖ = 1 := by
  have hone := Matrix.mem_unitaryGroup_iff'.mp hd.mem
  rw [← hdiag.diagonal_diag, Matrix.star_eq_conjTranspose, Matrix.diagonal_conjTranspose,
    Matrix.diagonal_mul_diagonal, ← Matrix.diagonal_one, Matrix.diagonal_eq_diagonal_iff] at hone
  have hentry : star (d.get i i).toComplex * (d.get i i).toComplex = 1 := hone i
  have hnorm : ‖(d.get i i).sqrt.toComplex‖ ^ 4 = 1 := by
    have hsquare := congrArg norm (Cx.toComplex_sqrt_mul_self (d.get i i))
    have hmodulus := congrArg norm hentry
    rw [norm_mul] at hsquare
    rw [norm_mul, norm_star, norm_one, ← hsquare] at hmodulus
    rw [← hmodulus]
    ring
  exact (pow_eq_one_iff_of_nonneg (norm_nonneg _) (by decide)).mp hnorm

/-- In the basis of the eigenvectors the first matrix of a pair times the adjoint of the second one has the
squares of the roots. -/
theorem diagonal_eigenvalues {a b v : Dense (Cx ℝ)} (hv : v.IsUnitary n) (ha : a.IsUnitary n)
    (hb : b.IsUnitary n)
    (hdiag : (((v.adjoint.mul (a.mul b.adjoint)).mul v).toMatrix Cx.toComplex n).IsDiag) :
    star (v.toMatrix Cx.toComplex n) *
        (a.toMatrix Cx.toComplex n * star (b.toMatrix Cx.toComplex n)) * v.toMatrix Cx.toComplex n =
      Matrix.diagonal fun i : Fin n =>
        (((v.adjoint.mul (a.mul b.adjoint)).mul v).get i i).sqrt.toComplex *
          (((v.adjoint.mul (a.mul b.adjoint)).mul v).get i i).sqrt.toComplex := by
  have hproduct : ((v.adjoint.mul (a.mul b.adjoint)).mul v).toMatrix Cx.toComplex n =
      star (v.toMatrix Cx.toComplex n) *
        (a.toMatrix Cx.toComplex n * star (b.toMatrix Cx.toComplex n)) * v.toMatrix Cx.toComplex n := by
    rw [Dense.exact_toComplex.toMatrix_mul (hv.adjoint.fits.mul _),
      Dense.exact_toComplex.toMatrix_mul hv.adjoint.fits, Dense.exact_toComplex.toMatrix_mul ha.fits,
      Dense.toMatrix_adjoint hv.fits, Dense.toMatrix_adjoint hb.fits]
    rfl
  rw [← hproduct, ← hdiag.diagonal_diag]
  exact congrArg Matrix.diagonal (funext fun i => (Cx.toComplex_sqrt_mul_self _).symm)

theorem getElem_eigenroots {x d : Dense (Cx ℝ)} {i : Nat} (hi : i < (eigenroots x d).length) :
    (eigenroots x d)[i] = (d.get i i).sqrt := by simp [eigenroots]

theorem length_eigenroots {x d : Dense (Cx ℝ)} (hx : x.size = n) : (eigenroots x d).length = n := by
  rw [eigenroots, List.length_map, List.length_range, hx]

/-- The diagonal of square roots is unitary. -/
theorem isUnitary_eigenroots {x d : Dense (Cx ℝ)} (hx : x.size = n)
    (hroots : ∀ i : Fin n, ‖(d.get i i).sqrt.toComplex‖ = 1) :
    (Dense.diagonal (eigenroots x d).toArray).IsUnitary n ∧
      (Dense.diagonal (eigenroots x d).toArray).toMatrix Cx.toComplex n =
        Matrix.diagonal fun i : Fin n => (d.get i i).sqrt.toComplex := by
  have hsize : (eigenroots x d).toArray.size = n := length_eigenroots hx
  have hmatrix : (Dense.diagonal (eigenroots x d).toArray).toMatrix Cx.toComplex n =
      Matrix.diagonal fun i : Fin n => (d.get i i).sqrt.toComplex := by
    rw [Dense.exact_toComplex.toMatrix_diagonal hsize]
    congr 1
    funext i
    have hi : i < (eigenroots x d).length := i.isLt.trans_eq (length_eigenroots hx).symm
    simp [Array.getD, hi, getElem_eigenroots hi]
  refine ⟨⟨Dense.fits_diagonal hsize, ?_⟩, hmatrix⟩
  have hone (i : Fin n) : star (d.get i i).sqrt.toComplex * (d.get i i).sqrt.toComplex = 1 :=
    star_mul_self_of_norm (hroots i)
  rw [hmatrix, Matrix.mem_unitaryGroup_iff', Matrix.star_eq_conjTranspose, Matrix.diagonal_conjTranspose,
    Matrix.diagonal_mul_diagonal]
  exact (congrArg Matrix.diagonal (funext hone)).trans Matrix.diagonal_one

/-- A pair of unitaries is rebuilt where those that the recursion goes on with are. -/
theorem rebuilds_demultiplex (name : String) {recurse : Dense (Cx ℝ) → Compile ℝ (List (ShannonStep ℝ))}
    {property : Dense (Cx ℝ) → Prop} {q : Nat} {qs : List Nat} (h : Operands n (q :: qs))
    {a b : Dense (Cx ℝ)} (ha : a.IsUnitary (2 ^ qs.length)) (hb : b.IsUnitary (2 ^ qs.length))
    (hk : kernels.ExactPair (2 ^ qs.length) property a b)
    (hrec : ∀ u : Dense (Cx ℝ), u.IsUnitary (2 ^ qs.length) → property u →
      ∃ l, recurse u = .ok l ∧ Rebuilds n qs l (u.toMatrix Cx.toComplex (2 ^ qs.length))) :
    ∃ l, demultiplex kernels name recurse q qs a b = .ok l ∧ Rebuilds n (q :: qs) l (quarters (fromBlocks
      (a.toMatrix Cx.toComplex (2 ^ qs.length)) 0 0 (b.toMatrix Cx.toComplex (2 ^ qs.length)))) := by
  have hx := ha.mul hb.adjoint
  obtain ⟨v, hd, hv, hdiag⟩ := diagonalize_of_isDiag Scalar.unbounded hk.unitary hk.diagonalizes
  obtain ⟨hpw, hpv⟩ := hk.next v _ hd
  have hunit := norm_sqrt_eigenvalue ((hv.adjoint.mul hx).mul hv) hdiag
  have hvalues := diagonal_eigenvalues hv ha hb hdiag
  generalize (v.adjoint.mul (a.mul b.adjoint)).mul v = d at *
  obtain ⟨hroots, hrootsMatrix⟩ := isUnitary_eigenroots hx.fits.size hunit
  obtain ⟨first, hfirst, hrfirst⟩ := hrec _ ((hroots.mul hv.adjoint).mul hb) hpw
  obtain ⟨last, hlast, hrlast⟩ := hrec v hv hpv
  have hlen : (eigenroots (a.mul b.adjoint) d).length = 2 ^ qs.length := length_eigenroots hx.fits.size
  have hmiddle := rebuilds_rz h hlen fun z hz => by
    obtain ⟨i, hi, rfl⟩ := List.mem_map.mp hz
    exact hunit ⟨i, by simpa [hx.fits.size] using hi⟩
  refine ⟨first ++ multiplexed rz ((eigenroots (a.mul b.adjoint) d).map fun z => -2 * z.arg) q qs ++ last,
    ?_, ?_⟩
  · unfold demultiplex
    simp only [hd]
    refine Outcome.bind_eq_ok.mpr ⟨first, hfirst, Outcome.bind_eq_ok.mpr ⟨last, hlast, ?_⟩⟩
    refine congrArg (fun angles => Except.ok (first ++ multiplexed rz angles q qs ++ last)) ?_
    exact List.map_congr_left fun z _ => congrArg (fun two => -two * z.arg) (Scalar.real_ofNat 2)
  · have hrebuilt := ((hrfirst.behind h).append h hmiddle).append h (hrlast.behind h)
    have hw : (((Dense.diagonal (eigenroots (a.mul b.adjoint) d).toArray).mul v.adjoint).mul b).toMatrix
        Cx.toComplex (2 ^ qs.length) = Matrix.diagonal (fun j : Fin (2 ^ qs.length) =>
          (d.get j j).sqrt.toComplex) * star (v.toMatrix Cx.toComplex (2 ^ qs.length)) *
            b.toMatrix Cx.toComplex (2 ^ qs.length) := by
      rw [Dense.exact_toComplex.toMatrix_mul (hroots.mul hv.adjoint).fits,
        Dense.exact_toComplex.toMatrix_mul hroots.fits, hrootsMatrix, Dense.toMatrix_adjoint hv.fits]
      rfl
    have hentry (j : Fin (2 ^ qs.length)) : (eigenroots (a.mul b.adjoint) d)[j.val].toComplex =
        (d.get j j).sqrt.toComplex := congrArg Cx.toComplex (getElem_eigenroots _)
    simp only [Fin.getElem_fin, hentry, hw] at hrebuilt
    rw [← Dense.quarters_mul, ← Dense.quarters_mul, ← mul_assoc,
      fromBlocks_pair hv.mem hb.mem hvalues fun j => star_mul_self_of_norm (hunit j)] at hrebuilt
    exact hrebuilt

/-- Two pairs of unitaries around one more ladder are a unitary in its cosine-sine form. -/
theorem rebuilds_cosineSine {q : Nat} {qs : List Nat} (h : Operands n (q :: qs)) {cs : Dense.CosineSine ℝ}
    {u : Dense (Cx ℝ)} (hcs : cs.Factors qs.length u) {first last : List (ShannonStep ℝ)}
    (hfirst : Rebuilds n (q :: qs) first (quarters (fromBlocks
      (cs.r₀.toMatrix Cx.toComplex (2 ^ qs.length)) 0 0 (cs.r₁.toMatrix Cx.toComplex (2 ^ qs.length)))))
    (hlast : Rebuilds n (q :: qs) last (quarters (fromBlocks
      (cs.l₀.toMatrix Cx.toComplex (2 ^ qs.length)) 0 0 (cs.l₁.toMatrix Cx.toComplex (2 ^ qs.length))))) :
    Rebuilds n (q :: qs) (first ++ multiplexed ry
      (List.zipWith (fun c s => Scalar.ofNat 2 * Scalar.atan2 s c) cs.cosines.toList cs.sines.toList) q qs ++ last)
      (u.toMatrix Cx.toComplex (2 ^ (qs.length + 1))) := by
  have hmiddle := rebuilds_ry h hcs.cosines hcs.sines hcs.circle
  have hrebuilt := (hfirst.append h hmiddle).append h hlast
  rw [← Dense.quarters_mul, ← Dense.quarters_mul, ← mul_assoc, ← hcs.product] at hrebuilt
  have htwo : (fun c s : ℝ => Scalar.ofNat 2 * Scalar.atan2 s c) = fun c s => 2 * Complex.arg ⟨c, s⟩ :=
    funext₂ fun c s => congrArg (· * Complex.arg ⟨c, s⟩) (Scalar.real_ofNat 2)
  rwa [htwo]

theorem rebuilds_steps (name : String) {qs : List Nat} (h : Operands n qs) {u : Dense (Cx ℝ)}
    (hu : u.IsUnitary (2 ^ qs.length)) (hk : kernels.ExactAlong qs.length u) :
    ∃ l, steps kernels name qs u = .ok l ∧
      Rebuilds n qs l (u.toMatrix Cx.toComplex (2 ^ qs.length)) := by
  induction qs generalizing u with
  | nil => exact ⟨_, rfl, rebuilds_leaf h hu.fits⟩
  | cons q qs ih =>
    match qs with
    | [] => exact ⟨_, rfl, rebuilds_leaf h hu.fits⟩
    | [r] => exact ⟨_, rfl, rebuilds_leaf h hu.fits⟩
    | r :: s :: rest =>
      have hhalf : u.size / 2 = 2 ^ (r :: s :: rest).length := by
        rw [hu.fits.size, List.length_cons, pow_succ, Nat.mul_div_cancel _ (by decide)]
      have hquarters : u.toMatrix Cx.toComplex (2 ^ (q :: r :: s :: rest).length) = _ :=
        Dense.toMatrix_eq_quarters Cx.toComplex u
      have hfits (i j : Nat) := Dense.fits_block u i j (2 ^ (r :: s :: rest).length)
      have hlen : (r :: s :: rest).length = rest.length + 2 := rfl
      rw [List.length_cons, hlen, Kernels.ExactAlong, ← hlen] at hk
      rw [steps]
      simp only [hhalf]
      split
      · rename_i hdiagonal
        rw [if_pos hdiagonal] at hk
        rw [Bool.and_eq_true] at hdiagonal
        rw [(Dense.below_maxNorm_iff (hfits _ _) 12).mp hdiagonal.1,
          (Dense.below_maxNorm_iff (hfits _ _) 12).mp hdiagonal.2] at hquarters
        obtain ⟨h₀, h₁⟩ := unitary_of_fromBlocks
          (Dense.quarters_mem_unitaryGroup_iff.mp (hquarters ▸ hu.mem))
        split
        · rename_i hequal
          rw [if_pos hequal] at hk
          have hsame := (Dense.below_maxNorm_iff ((hfits _ _).sub _) 12).mp hequal
          rw [Dense.toMatrix_sub (hfits _ _), sub_eq_zero] at hsame
          obtain ⟨l, hl, hrebuilt⟩ := ih h.tail ⟨hfits _ _, h₀⟩ hk
          refine ⟨l, hl, ?_⟩
          rw [hquarters, ← hsame]
          exact hrebuilt.behind h
        · rename_i hequal
          rw [if_neg hequal] at hk
          rw [hquarters]
          exact rebuilds_demultiplex name h ⟨hfits _ _, h₀⟩ ⟨hfits _ _, h₁⟩ hk fun u => ih h.tail
      · rename_i hdiagonal
        rw [if_neg hdiagonal] at hk
        obtain ⟨hcs, hright, hleft⟩ := hk
        generalize kernels.cosineSine _ _ _ _ = cs at *
        obtain ⟨first, hfirst, hrfirst⟩ := rebuilds_demultiplex name h hcs.r₀ hcs.r₁ hright fun u => ih h.tail
        obtain ⟨last, hlast, hrlast⟩ := rebuilds_demultiplex name h hcs.l₀ hcs.l₁ hleft fun u => ih h.tail
        exact ⟨_, Outcome.bind_eq_ok.mpr ⟨first, hfirst, Outcome.bind_eq_ok.mpr ⟨last, hlast, rfl⟩⟩,
          rebuilds_cosineSine h hcs hrfirst hrlast⟩

end Recursion

/-- The recursion is exact relative to its factorizations. Without rounding, where the eigenvectors and the
cosine-sine decompositions are exact on the arguments that they get along the recursion, a unitary on any
number of operands has steps, and their product is this unitary. -/
theorem product_steps_eq {kernels : Kernels ℝ} (name : String) {n : Nat} {u : Dense (Cx ℝ)}
    (hu : u.IsUnitary (2 ^ n)) (hk : kernels.ExactAlong n u) :
    ∃ l, steps kernels name (List.range n) u = .ok l ∧ product n l = u := by
  obtain ⟨l, hl, hrebuilt⟩ := rebuilds_steps name (Dense.operands_range n)
    (by rwa [List.length_range]) (by rwa [List.length_range])
  have hproduct := toMatrix_product Dense.exact_toComplex hrebuilt.operands
  refine ⟨l, hl, Dense.toMatrix_injective (fits_product n l) hu.fits
    (hproduct.trans (hrebuilt.effect.trans ?_))⟩
  ext i j
  have hagree : AgreeOff n (List.range n) i j := fun q hq hmem => absurd (List.mem_range.mpr hq) hmem
  simp [embed, hagree, Dense.toMatrix, Dense.operandIndex_range]

section HalfTurn

/-- A half turn of the first one of `k + 1` qubits. -/
noncomputable def halfTurn (k : Nat) : Dense (Cx ℝ) :=
  .ofFn (2 ^ (k + 1)) fun i j => if i = j + 2 ^ k then 1 else if j = i + 2 ^ k then -1 else 0

theorem toMatrix_halfTurn (k : Nat) : (halfTurn k).toMatrix Cx.toComplex (2 ^ (k + 1)) =
    quarters (fromBlocks 0 (-1) 1 0) := by
  refine (Matrix.reindex (Dense.halves k) (Dense.halves k)).injective ?_
  rw [halfTurn, Dense.toMatrix_ofFn]
  ext i j
  rcases i with i | i <;> rcases j with j | j
  all_goals
    simp only [Matrix.reindex_apply, Matrix.submatrix_apply, Matrix.of_apply, quarters,
      Dense.val_halves_symm_inl, Dense.val_halves_symm_inr, Equiv.apply_symm_apply]
  · rw [if_neg (by omega), if_neg (by omega)]
    simp
  · rw [if_neg (by omega)]
    by_cases hij : i = j
    · rw [if_pos (by omega)]
      simp [hij]
    · rw [if_neg (by omega)]
      simp [hij]
  · by_cases hij : i = j
    · rw [if_pos (by omega)]
      simp [hij]
    · rw [if_neg (by omega), if_neg (by omega)]
      simp [hij]
  · rw [if_neg (by omega), if_neg (by omega)]
    simp

/-- Factorizations that are exact for a half turn: its quadrants are zero, or the identity but for a sign. -/
noncomputable def plain : Kernels ℝ :=
  ⟨fun a => .identity a.size, fun _ _ _ _ =>
    ⟨.identity 4, .identity 4, .identity 4, .identity 4, .replicate 4 0, .replicate 4 1⟩⟩

theorem exactPair_identity : plain.ExactPair 4 (plain.ExactAlong 2) (.identity 4) (.identity 4) := by
  have hid := Dense.isUnitary_identity 4
  have hone := Dense.exact_toComplex.toMatrix_identity 4
  refine ⟨fun κ _ => hid, ⟨_, List.mem_cons_self, ?_⟩, fun v d _ => ⟨trivial, trivial⟩⟩
  show ((((Dense.identity 4).adjoint.mul ((Dense.identity 4).mul (Dense.identity 4).adjoint)).mul
    (Dense.identity 4)).toMatrix Cx.toComplex 4).IsDiag
  rw [Dense.exact_toComplex.toMatrix_mul (hid.adjoint.fits.mul _),
    Dense.exact_toComplex.toMatrix_mul hid.adjoint.fits, Dense.exact_toComplex.toMatrix_mul hid.fits,
    Dense.toMatrix_adjoint hid.fits, hone, Matrix.conjTranspose_one, mul_one, mul_one, mul_one]
  exact Matrix.isDiag_one

/-- A half turn of the first qubit, which comes to one ladder. -/
theorem product_steps_eq_halfTurn : (halfTurn 2).IsUnitary (2 ^ 3) ∧ plain.ExactAlong 3 (halfTurn 2) ∧
    ∃ l, steps plain "half turn" (List.range 3) (halfTurn 2) = .ok l ∧ product 3 l = halfTurn 2 := by
  have hid := Dense.isUnitary_identity 4
  have hone := Dense.exact_toComplex.toMatrix_identity 4
  have hu : (halfTurn 2).IsUnitary (2 ^ 3) := by
    refine ⟨Dense.fits_ofFn _ _, ?_⟩
    rw [toMatrix_halfTurn, Dense.quarters_mem_unitaryGroup_iff, Matrix.mem_unitaryGroup_iff,
      Matrix.star_eq_conjTranspose, Matrix.fromBlocks_conjTranspose, Matrix.fromBlocks_multiply]
    simp
  have hk : plain.ExactAlong 3 (halfTurn 2) := by
    rw [Kernels.ExactAlong]
    simp only
    split
    · rename_i hdiagonal
      rw [Bool.and_eq_true] at hdiagonal
      have hzero := (Dense.below_maxNorm_iff (Dense.fits_block (halfTurn 2) _ _ _) 12).mp hdiagonal.1
      have hquarters := (Dense.toMatrix_eq_quarters Cx.toComplex (halfTurn 2)).symm.trans
        (toMatrix_halfTurn 2)
      rw [Dense.quarters_injective.eq_iff, Matrix.fromBlocks_inj] at hquarters
      have hentry := congrFun (congrFun (hzero.symm.trans hquarters.2.1) 0) 0
      simp at hentry
    · refine ⟨⟨hid, hid, hid, hid, rfl, rfl, fun j => by simp [plain], ?_⟩, exactPair_identity,
        exactPair_identity⟩
      · rw [toMatrix_halfTurn]
        simp [plain, hone, Matrix.fromBlocks_one]
  exact ⟨hu, hk, product_steps_eq "half turn" hu hk⟩

end HalfTurn

end Shannon

end QuantumCompiler
