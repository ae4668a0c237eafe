import Mathlib
import QuantumCompiler.Proofs.Matrix.Dense
import QuantumCompiler.Proofs.Matrix.InPlace
import QuantumCompiler.Proofs.Numeric.Complex
import QuantumCompiler.Synthesis.Shannon

/-!
# Local action

A matrix on some qubits of a register acts on all of it: between indices that agree at the other qubits it has
the entry at the numbers they spell, and zero elsewhere. Applying it locally, in place, multiplies by this
embedded operator from the left. So the product of a sequence of steps is the product of the embedded ones,
the first step being the rightmost factor.
-/
namespace QuantumCompiler

open Matrix (of)

namespace Dense

variable {α A : Type}

/-! ## Matrices over a ring -/

/-- A reading of numbers in a ring that takes sums and products to sums and products. -/
structure Exact [Zero α] [One α] [Add α] [Mul α] [CommRing A] (φ : α → A) : Prop where
  zero : φ 0 = 0
  one : φ 1 = 1
  add : ∀ x y, φ (x + y) = φ x + φ y
  mul : ∀ x y, φ (x * y) = φ x * φ y

theorem exact_id [CommRing A] : Exact (id : A → A) :=
  ⟨rfl, rfl, fun _ _ => rfl, fun _ _ => rfl⟩

attribute [local instance] Scalar.real in
theorem exact_toComplex : Exact Cx.toComplex :=
  ⟨Cx.toComplex_zero, Cx.toComplex_one, Cx.toComplex_add, Cx.toComplex_mul⟩

/-- The matrix of an array of rows. -/
def panel [Zero α] (φ : α → A) (height width : Nat) (es : Array α) :
    Matrix (Fin height) (Fin width) A :=
  of fun i j => φ (es.getD (i * width + j) 0)

/-- The matrix with the entries of a dense one. -/
def toMatrix [Zero α] (φ : α → A) (size : Nat) (m : Dense α) : Matrix (Fin size) (Fin size) A :=
  of fun i j => φ (m.get i j)

theorem Fits.toMatrix_eq_panel [Zero α] {m : Dense α} {size : Nat} (h : m.Fits size) (φ : α → A) :
    m.toMatrix φ size = panel φ size size m.entries := by
  ext i j
  simp only [toMatrix, panel, Matrix.of_apply, get, h.size]

section Entries

theorem getElem?_entries_ofFn (f : Nat → Nat → α) {size i j : Nat} (hi : i < size) (hj : j < size) :
    (ofFn size f).entries[i * size + j]? = some (f i j) := by
  have hrows (k : Nat) (hk : i < k) : ((List.range k).flatMap fun i => (List.range size).map (f i))[i
      * size + j]? = some (f i j) := by
    induction k with
    | zero => omega
    | succ k ih =>
      have hlen : ((List.range k).flatMap fun i => (List.range size).map (f i)).length = k * size := by
        simp [List.length_flatMap]
      rw [List.range_succ, List.flatMap_append, List.flatMap_singleton]
      obtain hik | rfl : i < k ∨ i = k := by omega
      · rw [List.getElem?_append_left (by rw [hlen]; exact position_lt hj hik), ih hik]
      · rw [List.getElem?_append_right (by omega), hlen, Nat.add_sub_cancel_left, List.getElem?_map,
          List.getElem?_range hj, Option.map_some]
  rw [ofFn, List.getElem?_toArray]
  exact hrows size hi

variable [Zero α]

theorem get_ofFn (f : Nat → Nat → α) {size i j : Nat} (hi : i < size) (hj : j < size) :
    (ofFn size f).get i j = f i j := by
  have hentry := getElem?_entries_ofFn f hi hj
  rw [get, Array.getD_eq_getD_getElem?]
  exact congrArg (Option.getD · 0) hentry

theorem toMatrix_ofFn (φ : α → A) (f : Nat → Nat → α) (size : Nat) :
    (ofFn size f).toMatrix φ size = of fun i j : Fin size => φ (f i j) := by
  ext i j
  exact congrArg φ (get_ofFn f i.isLt j.isLt)

end Entries

section Ring

variable [Zero α] [One α] [Add α] [Mul α] [CommRing A] {φ : α → A} {n : Nat} {qubits : List Nat}

theorem Exact.toMatrix_identity (hφ : Exact φ) (size : Nat) :
    (identity size : Dense α).toMatrix φ size = 1 := by
  rw [identity, toMatrix_ofFn]
  ext i j
  rw [Matrix.of_apply, Matrix.one_apply]
  by_cases hij : i = j
  · rw [if_pos hij, if_pos (congrArg Fin.val hij), hφ.one]
  · rw [if_neg hij, if_neg fun he => hij (Fin.ext he), hφ.zero]

theorem Exact.foldl_add (hφ : Exact φ) {ι : Type} (f : ι → α) (xs : List ι) (acc : α) :
    φ (xs.foldl (fun acc x => acc + f x) acc) = φ acc + (xs.map fun x => φ (f x)).sum := by
  induction xs generalizing acc with
  | nil => simp
  | cons x xs ih => rw [List.foldl_cons, ih, hφ.add, List.map_cons, List.sum_cons, add_assoc]

theorem Exact.combine (hφ : Exact φ) (small : Dense α) (r k : Nat) (f : Nat → α) :
    φ (small.combine r ((List.range k).map f)) = ∑ s : Fin k, φ (small.get r s) * φ (f s) := by
  rw [Dense.combine, hφ.foldl_add (fun x : α × Nat => small.get r x.2 * x.1), hφ.zero, zero_add,
    ← List.sum_ofFn]
  refine congrArg List.sum (List.ext_getElem (by simp) fun s _ _ => ?_)
  simp [hφ.mul]

/-! ## Embedded operators -/

/-- What a matrix on some qubits does to the register. -/
def embed (n : Nat) (qubits : List Nat)
    (m : Matrix (Fin (2 ^ qubits.length)) (Fin (2 ^ qubits.length)) A) :
    Matrix (Fin (2 ^ n)) (Fin (2 ^ n)) A :=
  of fun i j =>
    if AgreeOff n qubits i j then
      m ⟨operandIndex n qubits i, operandIndex_lt n qubits i⟩
        ⟨operandIndex n qubits j, operandIndex_lt n qubits j⟩
    else 0

/-- A row of an embedded operator visits the class of the row. -/
theorem embed_mul_apply (h : Operands n qubits)
    (m : Matrix (Fin (2 ^ qubits.length)) (Fin (2 ^ qubits.length)) A) {κ : Type}
    (u : Matrix (Fin (2 ^ n)) κ A) (i : Fin (2 ^ n)) (c : κ) :
    (embed n qubits m * u) i c = ∑ s, m ⟨operandIndex n qubits i, operandIndex_lt n qubits i⟩ s *
      u ⟨respelled n qubits i s, respelled_lt h i.isLt s⟩ c := by
  have hsum := sum_agreeOff h i.isLt fun j => if hj : j < 2 ^ n then
    m ⟨operandIndex n qubits i, operandIndex_lt n qubits i⟩
      ⟨operandIndex n qubits j, operandIndex_lt n qubits j⟩ * u ⟨j, hj⟩ c else 0
  simp only [Fin.is_lt, dite_true, respelled_lt h i.isLt] at hsum
  simp only [Matrix.mul_apply, embed, Matrix.of_apply, ite_mul, zero_mul]
  refine hsum.trans (Finset.sum_congr rfl fun s _ => ?_)
  congr 2
  exact Fin.ext (operandIndex_respelled h i s.isLt)

theorem embed_mul (h : Operands n qubits)
    (a b : Matrix (Fin (2 ^ qubits.length)) (Fin (2 ^ qubits.length)) A) :
    embed n qubits (a * b) = embed n qubits a * embed n qubits b := by
  ext i j
  rw [embed_mul_apply h]
  have hindex (s : Fin (2 ^ qubits.length)) := operandIndex_respelled h i s.isLt
  have hagree (s : Fin (2 ^ qubits.length)) := (agreeOff_respelled h i s).congr_left (k := j)
  simp only [embed, Matrix.of_apply, hindex, hagree, Fin.eta]
  split_ifs
  · rw [Matrix.mul_apply]
  · simp only [mul_zero, Finset.sum_const_zero]

theorem embed_one (n : Nat) (qubits : List Nat) : embed n qubits (1 : Matrix _ _ A) = 1 := by
  ext i j
  rw [embed, Matrix.of_apply, Matrix.one_apply, Matrix.one_apply]
  by_cases hij : i = j
  · subst hij
    rw [if_pos (agreeOff_refl n qubits i), if_pos rfl, if_pos rfl]
  · rw [if_neg hij]
    split_ifs with hagree hindex
    · exact absurd (Fin.ext (eq_of_agreeOff i.isLt j.isLt hagree (congrArg Fin.val hindex))) hij
    · rfl
    · rfl

/-! ## Local action is the embedded operator -/

theorem Exact.panel_applyRows (hφ : Exact φ) (h : Operands n qubits) (small : Dense α) {width : Nat}
    {es : Array α} (hes : es.size = 2 ^ n * width) :
    panel φ (2 ^ n) width (applyRows n qubits small (2 ^ n) width es) =
      embed n qubits (small.toMatrix φ (2 ^ qubits.length)) * panel φ (2 ^ n) width es := by
  ext i c
  rw [embed_mul_apply h, panel, Matrix.of_apply, Array.getD_eq_getD_getElem?,
    getElem?_applyRows h i.isLt c.isLt hes, Option.getD_some, hφ.combine]
  rfl

theorem Exact.toMatrix_applyLocal (hφ : Exact φ) (h : Operands n qubits) (small : Dense α)
    {m : Dense α} (hm : m.Fits (2 ^ n)) : (m.applyLocal n qubits small).toMatrix φ (2 ^ n) =
      embed n qubits (small.toMatrix φ (2 ^ qubits.length)) * m.toMatrix φ (2 ^ n) := by
  rw [(hm.applyLocal n qubits small).toMatrix_eq_panel, hm.toMatrix_eq_panel, applyLocal, hm.size]
  exact hφ.panel_applyRows h small hm.entries

end Ring

end Dense

/-! ## Products of steps -/

namespace ShannonStep

open QuantumCompiler.Dense

variable {R A : Type} [Scalar R] [CommRing A] {φ : Cx R → A} {n : Nat}

/-- The operator of a step on the register. -/
def operator (φ : Cx R → A) (n : Nat) (s : ShannonStep R) : Matrix (Fin (2 ^ n)) (Fin (2 ^ n)) A :=
  embed n s.qubits (s.matrix.toMatrix φ (2 ^ s.qubits.length))

theorem fits_product (n : Nat) (steps : List (ShannonStep R)) : (product n steps).Fits (2 ^ n) :=
  List.foldlRecOn (motive := fun m : Dense (Cx R) => m.Fits (2 ^ n)) _ _ (fits_ofFn _ _)
    fun _ hm s _ => hm.applyLocal n s.qubits s.matrix

/-- The product of steps is the product of their operators, the first step being the rightmost factor. -/
theorem toMatrix_product (hφ : Exact φ) {steps : List (ShannonStep R)}
    (h : ∀ s ∈ steps, Operands n s.qubits) :
    (product n steps).toMatrix φ (2 ^ n) = (steps.reverse.map (operator φ n)).prod := by
  have hrun (steps : List (ShannonStep R)) (h : ∀ s ∈ steps, Operands n s.qubits) (m : Dense (Cx R))
      (hm : m.Fits (2 ^ n)) :
      (steps.foldl (fun m s => m.applyLocal n s.qubits s.matrix) m).toMatrix φ (2 ^ n) =
        (steps.reverse.map (operator φ n)).prod * m.toMatrix φ (2 ^ n) := by
    induction steps generalizing m with
    | nil => exact (one_mul _).symm
    | cons s steps ih =>
      refine (ih (fun t ht => h t (by simp [ht])) _ (hm.applyLocal n s.qubits s.matrix)).trans ?_
      rw [hφ.toMatrix_applyLocal (h s (by simp)) s.matrix hm, List.reverse_cons, List.map_append,
        List.prod_append, ← mul_assoc]
      simp [operator]
  exact (hrun steps h (identity (2 ^ n)) (fits_ofFn _ _)).trans (by rw [hφ.toMatrix_identity, mul_one])

end ShannonStep

/-! ## Summary -/

section Summary

open ShannonStep

variable {A B : Type} [CommRing A] [CommRing B] {n : Nat}

/-- Local action is the embedded operator. On a matrix with `2ⁿ` rows over a commutative ring, applying a small
matrix to distinct qubits of the register, in place, multiplies from the left by the operator that has its
entries between indices which agree elsewhere. In any reading of the entries of steps in a commutative ring,
the product of one sequence and another one behind it is the product of the two in reverse order. -/
theorem Dense.local_action_embeds {qubits : List Nat} (h : Dense.Operands n qubits) (small : Dense A)
    {width : Nat} {es : Array A} (hes : es.size = 2 ^ n * width) {R : Type} [Scalar R] {φ : Cx R → B}
    (hφ : Dense.Exact φ) {a b : List (ShannonStep R)} (hab : ∀ s ∈ a ++ b, Dense.Operands n s.qubits) :
    (Dense.applyRows n qubits small (2 ^ n) width es).size = 2 ^ n * width ∧
    Dense.panel id (2 ^ n) width (Dense.applyRows n qubits small (2 ^ n) width es) =
      Dense.embed n qubits (small.toMatrix id (2 ^ qubits.length)) * Dense.panel id (2 ^ n) width es ∧
    (product n (a ++ b)).toMatrix φ (2 ^ n) =
      (product n b).toMatrix φ (2 ^ n) * (product n a).toMatrix φ (2 ^ n) := by
  refine ⟨(Dense.size_applyRows ..).trans hes, Dense.exact_id.panel_applyRows h small hes, ?_⟩
  have ha (s : ShannonStep R) (hs : s ∈ a) := hab s (List.mem_append_left b hs)
  have hb (s : ShannonStep R) (hs : s ∈ b) := hab s (List.mem_append_right a hs)
  rw [toMatrix_product hφ hab, toMatrix_product hφ ha, toMatrix_product hφ hb, List.reverse_append,
    List.map_append, List.prod_append]

attribute [local instance] Scalar.real

/-- Not symmetric, and not a permutation. -/
def Dense.sheared : Dense ℤ := ⟨4, #[1, 0, 0, 0, 0, 1, 0, 0, 0, 0, 1, 2, 0, 0, 1, 0]⟩

/-- A matrix on the last qubit and the first one of three, applied to a column, and steps on all three. -/
theorem Dense.local_action_embeds_crossed :
    Dense.Operands 3 [2, 0] ∧ (#[1, 2, 3, 4, 5, 6, 7, 8] : Array ℤ).size = 2 ^ 3 * 1 ∧
    Dense.Exact Cx.toComplex ∧
    (∀ s ∈ [.cx 2 0, .ry 0 1] ++ [(.rz 1 2 : ShannonStep ℝ)], Dense.Operands 3 s.qubits) ∧
    Dense.panel id (2 ^ 3) 1 (#[1, 14, 3, 20, 5, 2, 7, 4] : Array ℤ) =
      Dense.embed 3 [2, 0] (Dense.sheared.toMatrix id (2 ^ [2, 0].length)) *
        Dense.panel id (2 ^ 3) 1 (#[1, 2, 3, 4, 5, 6, 7, 8] : Array ℤ) ∧
    (product 3 ([.cx 2 0, .ry 0 1] ++ [(.rz 1 2 : ShannonStep ℝ)])).toMatrix Cx.toComplex (2 ^ 3) =
      (product 3 [(.rz 1 2 : ShannonStep ℝ)]).toMatrix Cx.toComplex (2 ^ 3) *
        (product 3 [.cx 2 0, (.ry 0 1 : ShannonStep ℝ)]).toMatrix Cx.toComplex (2 ^ 3) := by
  have h : Dense.Operands 3 [2, 0] := ⟨by decide, by decide⟩
  have hes : (#[1, 2, 3, 4, 5, 6, 7, 8] : Array ℤ).size = 2 ^ 3 * 1 := rfl
  have hsteps : ∀ s ∈ [.cx 2 0, .ry 0 1] ++ [(.rz 1 2 : ShannonStep ℝ)], Dense.Operands 3 s.qubits := by
    simp only [List.cons_append, List.nil_append, List.forall_mem_cons, qubits]
    exact ⟨⟨by decide, by decide⟩, ⟨by decide, by decide⟩, ⟨by decide, by decide⟩, by simp⟩
  have hrun : Dense.applyRows 3 [2, 0] Dense.sheared (2 ^ 3) 1 (#[1, 2, 3, 4, 5, 6, 7, 8] : Array ℤ) =
      #[1, 14, 3, 20, 5, 2, 7, 4] := by decide
  obtain ⟨-, hpanel, hproduct⟩ :=
    Dense.local_action_embeds h Dense.sheared hes Dense.exact_toComplex hsteps
  exact ⟨h, hes, Dense.exact_toComplex, hsteps, hrun ▸ hpanel, hproduct⟩

end Summary

end QuantumCompiler
