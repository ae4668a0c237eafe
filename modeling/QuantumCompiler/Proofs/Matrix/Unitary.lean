import Mathlib
import QuantumCompiler.Proofs.Matrix.Quadrants

/-!
# Exact dense matrices

Over the real numbers a dense matrix is a complex one: products, adjoints, diagonals and blocks go to their
counterparts, a matrix is known by its entries, and a norm that does not exceed zero says that they all
vanish.
-/
namespace QuantumCompiler

open Matrix (fromBlocks)

namespace Dense

/-! ## Operations -/

section Operations

variable {α A : Type} [Zero α] {φ : α → A} {n : Nat} {m : Dense α}

theorem Fits.get_mem_toList (hm : m.Fits n) {i j : Nat} (hi : i < n) (hj : j < n) :
    m.get i j ∈ m.toList := by
  have hlt : i * m.size + j < m.entries.size := by
    rw [hm.size, hm.entries]
    exact position_lt hj hi
  rw [get, Array.getD_eq_getD_getElem?, Array.getElem?_eq_getElem hlt, Option.getD_some]
  exact Array.getElem_mem_toList hlt

theorem Fits.exists_get_of_mem_toList (hm : m.Fits n) {x : α} (hx : x ∈ m.toList) :
    ∃ i < n, ∃ j < n, m.get i j = x := by
  obtain ⟨p, hp, rfl⟩ := List.mem_iff_getElem.mp hx
  have hlt : p < n * n := by rwa [hm.length_toList] at hp
  have hpos : 0 < n := Nat.pos_of_mul_pos_right (Nat.zero_lt_of_lt hlt)
  refine ⟨p / n, Nat.div_lt_of_lt_mul hlt, p % n, Nat.mod_lt p hpos, ?_⟩
  have hentry : p < m.entries.size := by rwa [hm.entries]
  simp [get, hm.size, Nat.div_add_mod', hentry, toList]

/-- A matrix is known by its entries. -/
theorem Fits.ext {k : Dense α} (hm : m.Fits n) (hk : k.Fits n)
    (h : ∀ i < n, ∀ j < n, m.get i j = k.get i j) : m = k := by
  obtain ⟨size, entries⟩ := m
  obtain ⟨size', entries'⟩ := k
  obtain rfl := hm.size
  obtain rfl : size' = size := hk.size
  refine congrArg (Dense.mk size') (Array.ext (hm.entries.trans hk.entries.symm) fun p hp hp' => ?_)
  have hlt : p < size' * size' := hm.entries ▸ hp
  have hpos : 0 < size' := Nat.pos_of_mul_pos_right (Nat.zero_lt_of_lt hlt)
  have hentry := h (p / size') (Nat.div_lt_of_lt_mul hlt) (p % size') (Nat.mod_lt p hpos)
  simpa [get, Nat.div_add_mod', hp, hp'] using hentry

theorem Fits.toList_sub [Sub α] {k : Dense α} (hm : m.Fits n) (hk : k.Fits n) :
    (m.sub k).toList = List.zipWith (· - ·) m.toList k.toList := by
  have hlen : (List.zipWith (· - ·) m.toList k.toList).length = n * n := by
    rw [List.length_zipWith, hm.length_toList, hk.length_toList, Nat.min_self]
  have hsub : m.sub k = ⟨n, (List.zipWith (· - ·) m.toList k.toList).toArray⟩ := by
    refine (hm.sub k).ext ⟨rfl, hlen⟩ fun i hi j hj => ?_
    have hm' : i * n + j < m.entries.size := hm.entries ▸ position_lt hj hi
    have hk' : i * n + j < k.entries.size := hk.entries ▸ position_lt hj hi
    rw [Dense.sub, get_ofFn _ (by rwa [hm.size]) (by rwa [hm.size])]
    simp [get, hm.size, hk.size, hm', hk', toList]
  rw [hsub]
  rfl

theorem toMatrix_block (φ : α → A) (m : Dense α) (row column size : Nat) :
    (m.block row column size).toMatrix φ size =
      Matrix.of fun i j : Fin size => φ (m.get (row + i) (column + j)) :=
  toMatrix_ofFn _ _ _

/-- A matrix by its quadrants. -/
theorem toMatrix_eq_quarters {k : Nat} (φ : α → A) (m : Dense α) :
    m.toMatrix φ (2 ^ (k + 1)) = quarters (fromBlocks
      ((m.block 0 0 (2 ^ k)).toMatrix φ (2 ^ k)) ((m.block 0 (2 ^ k) (2 ^ k)).toMatrix φ (2 ^ k))
      ((m.block (2 ^ k) 0 (2 ^ k)).toMatrix φ (2 ^ k))
      ((m.block (2 ^ k) (2 ^ k) (2 ^ k)).toMatrix φ (2 ^ k))) := by
  refine (Matrix.reindex (halves k) (halves k)).injective ?_
  simp only [toMatrix_block]
  ext i j
  rcases i with i | i <;> rcases j with j | j <;>
    simp [quarters, toMatrix, val_halves_symm_inl, val_halves_symm_inr]

variable [One α] [Add α] [Mul α] [CommRing A]

theorem Exact.toMatrix_mul (hφ : Exact φ) (hm : m.Fits n) (k : Dense α) :
    (m.mul k).toMatrix φ n = m.toMatrix φ n * k.toMatrix φ n := by
  obtain rfl := hm.size
  rw [Dense.mul, toMatrix_ofFn]
  ext i j
  rw [Matrix.of_apply, hφ.foldl_add, hφ.zero, zero_add, Matrix.mul_apply, ← List.sum_ofFn]
  refine congrArg List.sum (List.ext_getElem (by simp) fun l _ _ => ?_)
  simp [toMatrix, hφ.mul]

theorem Exact.toMatrix_diagonal (hφ : Exact φ) {d : Array α} (hd : d.size = n) :
    (diagonal d).toMatrix φ n = Matrix.diagonal fun i : Fin n => φ (d.getD i 0) := by
  subst hd
  rw [Dense.diagonal, toMatrix_ofFn]
  ext i j
  rw [Matrix.of_apply, Matrix.diagonal_apply]
  simp only [Fin.ext_iff]
  split_ifs
  · rfl
  · exact hφ.zero

end Operations

/-! ## Complex matrices -/

section Complex

attribute [local instance] Scalar.real

variable {m k : Dense (Cx ℝ)} {n : Nat}

theorem toMatrix_injective (hm : m.Fits n) (hk : k.Fits n)
    (h : m.toMatrix Cx.toComplex n = k.toMatrix Cx.toComplex n) : m = k :=
  hm.ext hk fun i hi j hj => Cx.toComplex_injective (congrFun (congrFun h ⟨i, hi⟩) ⟨j, hj⟩)

theorem toMatrix_adjoint (hm : m.Fits n) :
    m.adjoint.toMatrix Cx.toComplex n = (m.toMatrix Cx.toComplex n).conjTranspose := by
  obtain rfl := hm.size
  exact toMatrix_ofFn _ _ _

theorem toMatrix_sub (hm : m.Fits n) (k : Dense (Cx ℝ)) : (m.sub k).toMatrix Cx.toComplex n =
    m.toMatrix Cx.toComplex n - k.toMatrix Cx.toComplex n := by
  obtain rfl := hm.size
  exact toMatrix_ofFn _ _ _

theorem below_maxNorm_iff (hm : m.Fits n) (k : Nat) :
    Scalar.below m.maxNorm (Scalar.allowance k) = true ↔ m.toMatrix Cx.toComplex n = 0 := by
  rw [Scalar.real_below_allowance]
  constructor
  · intro h
    ext i j
    have hle := (Scalar.real_le_maximum (List.mem_map_of_mem (f := Cx.norm)
      (hm.get_mem_toList i.isLt j.isLt))).trans h
    rwa [Cx.norm_toComplex, norm_le_zero_iff] at hle
  · intro h
    refine Scalar.real_maximum_le fun x hx => ?_
    obtain ⟨z, hz, rfl⟩ := List.mem_map.mp hx
    obtain ⟨i, hi, j, hj, rfl⟩ := hm.exists_get_of_mem_toList hz
    exact (Cx.norm_toComplex _).trans_le (norm_le_zero_iff.mpr (congrFun (congrFun h ⟨i, hi⟩) ⟨j, hj⟩))

theorem mem_offDiagonal (hm : m.Fits n) {z : Cx ℝ} :
    z ∈ m.offDiagonal ↔ ∃ i < n, ∃ j < n, j ≠ i ∧ m.get i j = z := by
  simp only [offDiagonal, hm.size, List.mem_flatMap, List.mem_map, List.mem_filter, List.mem_range,
    decide_eq_true_eq]
  exact ⟨fun ⟨i, hi, j, ⟨hj, hne⟩, hz⟩ => ⟨i, hi, j, hj, hne, hz⟩,
    fun ⟨i, hi, j, hj, hne, hz⟩ => ⟨i, hi, j, ⟨hj, hne⟩, hz⟩⟩

theorem isDiag_iff (hm : m.Fits n) :
    (m.toMatrix Cx.toComplex n).IsDiag ↔ ∀ z ∈ m.offDiagonal, z.toComplex = 0 := by
  constructor
  · intro h z hz
    obtain ⟨i, hi, j, hj, hne, rfl⟩ := (mem_offDiagonal hm).mp hz
    exact h (i := ⟨i, hi⟩) (j := ⟨j, hj⟩) fun he => hne (congrArg Fin.val he).symm
  · intro h i j hne
    exact h _ ((mem_offDiagonal hm).mpr ⟨i, i.isLt, j, j.isLt, fun he => hne (Fin.ext he.symm), rfl⟩)

/-- Nothing outside the diagonal is above zero exactly for a diagonal matrix. -/
theorem gt_offDiagonal_iff (hm : m.Fits n) (k : Nat) :
    Scalar.gt (Scalar.maximum (m.offDiagonal.map Cx.norm)) (Scalar.allowance k) = false ↔
      (m.toMatrix Cx.toComplex n).IsDiag := by
  rw [isDiag_iff hm]
  show decide ((0 : ℝ) < Scalar.maximum (m.offDiagonal.map Cx.norm)) = false ↔ _
  rw [decide_eq_false_iff_not, not_lt]
  constructor
  · intro h z hz
    have hle := (Scalar.real_le_maximum (List.mem_map_of_mem (f := Cx.norm) hz)).trans h
    rwa [Cx.norm_toComplex, norm_le_zero_iff] at hle
  · intro h
    refine Scalar.real_maximum_le fun x hx => ?_
    obtain ⟨z, hz, rfl⟩ := List.mem_map.mp hx
    exact (Cx.norm_toComplex z).trans_le (norm_le_zero_iff.mpr (h z hz))

/-- An operator is unitary as its quadrants are. -/
theorem quarters_mem_unitaryGroup_iff {k : Nat}
    {m : Matrix (Fin (2 ^ k) ⊕ Fin (2 ^ k)) (Fin (2 ^ k) ⊕ Fin (2 ^ k)) ℂ} :
    quarters m ∈ Matrix.unitaryGroup (Fin (2 ^ (k + 1))) ℂ ↔
      m ∈ Matrix.unitaryGroup (Fin (2 ^ k) ⊕ Fin (2 ^ k)) ℂ := by
  have hstar : star (quarters m) = quarters (star m) := Matrix.conjTranspose_submatrix m _ _
  rw [Matrix.mem_unitaryGroup_iff, Matrix.mem_unitaryGroup_iff, hstar, ← quarters_mul, ← quarters_one,
    quarters_injective.eq_iff]

/-- A unitary matrix with `n` rows. -/
structure IsUnitary (m : Dense (Cx ℝ)) (n : Nat) : Prop where
  fits : m.Fits n
  mem : m.toMatrix Cx.toComplex n ∈ Matrix.unitaryGroup (Fin n) ℂ

theorem isUnitary_identity (n : Nat) : (identity n : Dense (Cx ℝ)).IsUnitary n := by
  refine ⟨fits_ofFn _ _, ?_⟩
  rw [Dense.exact_toComplex.toMatrix_identity]
  exact one_mem _

theorem IsUnitary.mul (hm : m.IsUnitary n) (hk : k.IsUnitary n) : (m.mul k).IsUnitary n := by
  refine ⟨hm.fits.mul k, ?_⟩
  rw [Dense.exact_toComplex.toMatrix_mul hm.fits]
  exact mul_mem hm.mem hk.mem

theorem IsUnitary.adjoint (hm : m.IsUnitary n) : m.adjoint.IsUnitary n := by
  refine ⟨hm.fits.adjoint, ?_⟩
  rw [toMatrix_adjoint hm.fits]
  exact Unitary.star_mem hm.mem

end Complex

end Dense

end QuantumCompiler
