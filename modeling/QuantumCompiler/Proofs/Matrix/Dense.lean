import Mathlib
import QuantumCompiler.Synthesis.Kernel

/-!
# Sizes of dense matrices

A dense matrix is an array next to a size. `Fits` says that the array has as many entries as a square
matrix of the size needs. Matrices made entry by entry fit, changes of entries keep that, and so the
factorizations return matrices of the size of their argument.
-/
namespace QuantumCompiler.Dense

/-- A square matrix with `n` rows. -/
structure Fits {α : Type} (m : Dense α) (n : Nat) : Prop where
  size : m.size = n
  entries : m.entries.size = n * n

section Entrywise

variable {α : Type}

theorem fits_ofFn (n : Nat) (f : Nat → Nat → α) : (ofFn n f).Fits n := by
  refine ⟨rfl, ?_⟩
  simp [ofFn, List.length_flatMap]

theorem Fits.length_toList {m : Dense α} {n : Nat} (h : m.Fits n) : m.toList.length = n * n := by
  rw [toList, Array.length_toList, h.entries]

variable [Zero α]

theorem fits_block (m : Dense α) (row column n : Nat) : (m.block row column n).Fits n :=
  fits_ofFn _ _

theorem fits_diagonal {d : Array α} {n : Nat} (h : d.size = n) : (diagonal d).Fits n :=
  h ▸ fits_ofFn _ _

theorem Fits.mul [Add α] [Mul α] {m : Dense α} {n : Nat} (h : m.Fits n) (k : Dense α) :
    (m.mul k).Fits n := h.size ▸ fits_ofFn _ _

theorem Fits.sub [Sub α] {m : Dense α} {n : Nat} (h : m.Fits n) (k : Dense α) : (m.sub k).Fits n :=
  h.size ▸ fits_ofFn _ _

theorem Fits.setColumn {m : Dense α} {n : Nat} (h : m.Fits n) (j : Nat) (v : Array α) :
    (m.setColumn j v).Fits n := by
  refine ⟨h.size, ?_⟩
  have hkeep (is : List Nat) (es : Array α) : (is.foldl
      (fun es i => es.setIfInBounds (i * m.size + j) (v.getD i 0)) es).size = es.size := by
    induction is generalizing es with
    | nil => rfl
    | cons i is ih => rw [List.foldl_cons, ih, Array.size_setIfInBounds]
  exact (hkeep _ _).trans h.entries

theorem size_applyRows [Add α] [Mul α] (n : Nat) (qubits : List Nat) (small : Dense α)
    (height width : Nat) (entries : Array α) :
    (applyRows n qubits small height width entries).size = entries.size := by
  -- One induction for each loop: over the classes of rows, the columns and the rows of a class.
  refine List.foldlRecOn (motive := fun es : Array α => es.size = entries.size) _ _ rfl fun es hs base _ => ?_
  refine List.foldlRecOn (motive := fun es : Array α => es.size = entries.size) _ _ hs fun es hs column _ => ?_
  refine List.foldlRecOn (motive := fun es : Array α => es.size = entries.size) _ _ hs fun es hs row _ => ?_
  rw [Array.size_setIfInBounds, hs]

theorem Fits.applyLocal [Add α] [Mul α] {m : Dense α} {size : Nat} (h : m.Fits size) (n : Nat)
    (qubits : List Nat) (small : Dense α) : (m.applyLocal n qubits small).Fits size :=
  ⟨h.size, (size_applyRows ..).trans h.entries⟩

end Entrywise

variable {R : Type} [Scalar R]

theorem Fits.adjoint {m : Dense (Cx R)} {n : Nat} (h : m.Fits n) : m.adjoint.Fits n :=
  h.size ▸ fits_ofFn _ _

/-- Overwriting pairs of entries leaves their number alone. -/
theorem size_foldl_setPair {α : Type} (is : List Nat) (es : Array α) (p q : Nat → Nat)
    (xy : Nat → α × α) :
    (is.foldl (fun es i => (es.setIfInBounds (p i) (xy i).1).setIfInBounds (q i) (xy i).2)
      es).size = es.size := by
  induction is generalizing es with
  | nil => rfl
  | cons i is ih => rw [List.foldl_cons, ih, Array.size_setIfInBounds, Array.size_setIfInBounds]

section Rotate

variable {m : Dense (Cx R)} {n : Nat}

theorem Fits.combineColumns (h : m.Fits n) (p q : Nat) (f : Cx R → Cx R → Cx R × Cx R) :
    (m.combineColumns p q f).Fits n :=
  ⟨h.size, (size_foldl_setPair _ _ _ _ fun i => f (m.get i p) (m.get i q)).trans h.entries⟩

theorem Fits.combineRows (h : m.Fits n) (p q : Nat) (f : Cx R → Cx R → Cx R × Cx R) :
    (m.combineRows p q f).Fits n :=
  ⟨h.size, (size_foldl_setPair _ _ _ _ fun j => f (m.get p j) (m.get q j)).trans h.entries⟩

theorem Fits.rotateRight (h : m.Fits n) (p q : Nat) (u : Mat2 R) : (m.rotateRight p q u).Fits n :=
  h.combineColumns p q _

theorem Fits.rotateLeft (h : m.Fits n) (p q : Nat) (u : Mat2 R) : (m.rotateLeft p q u).Fits n :=
  h.combineRows p q _

theorem Fits.rotateColumns (h : m.Fits n) (i j : Nat) (c s : R) (phase : Cx R) :
    (m.rotateColumns i j c s phase).Fits n := h.combineColumns i j _

end Rotate

/-! ## Eigenvectors -/

theorem fits_hermitianStep {n : Nat} {s : Dense (Cx R) × Dense (Cx R)} (h : s.1.Fits n)
    (h' : s.2.Fits n) (pq : Nat × Nat) :
    (hermitianStep s pq).1.Fits n ∧ (hermitianStep s pq).2.Fits n := by
  obtain ⟨a, vectors⟩ := s
  obtain ⟨p, q⟩ := pq
  unfold hermitianStep
  simp only
  split
  · exact ⟨h, h'⟩
  · exact ⟨(h.rotateRight p q _).rotateLeft p q _, h'.rotateRight p q _⟩

theorem fits_hermitianSweeps {n : Nat} (sweeps : Nat) {s : Dense (Cx R) × Dense (Cx R)}
    (h : s.1.Fits n) (h' : s.2.Fits n) : (hermitianSweeps sweeps s).Fits n := by
  have hfold (pqs : List (Nat × Nat)) (s : Dense (Cx R) × Dense (Cx R)) (h : s.1.Fits n)
      (h' : s.2.Fits n) : (pqs.foldl hermitianStep s).1.Fits n ∧
        (pqs.foldl hermitianStep s).2.Fits n := by
    induction pqs generalizing s with
    | nil => exact ⟨h, h'⟩
    | cons pq pqs ih =>
      obtain ⟨h₁, h₂⟩ := fits_hermitianStep h h' pq
      exact ih _ h₁ h₂
  induction sweeps generalizing s with
  | zero => exact h'
  | succ sweeps ih =>
    rw [hermitianSweeps]
    split
    · exact h'
    · obtain ⟨h₁, h₂⟩ := hfold (pairs s.1.size) s h h'
      exact ih h₁ h₂

theorem fits_hermitianEigenvectors {a : Dense (Cx R)} {n : Nat} (h : a.Fits n) :
    a.hermitianEigenvectors.Fits n := by
  refine fits_hermitianSweeps maxSweeps h ?_
  rw [h.size]
  exact fits_ofFn _ _

/-! ## Cosine-sine decomposition -/

theorem fits_empty (n : Nat) : (Frame.empty n : Frame R).columns.Fits n := fits_ofFn _ _

theorem fits_complete {f : Frame R} {n : Nat} (h : f.columns.Fits n) : f.complete.Fits n := by
  refine List.foldlRecOn (motive := fun acc : Frame R × Nat => acc.1.columns.Fits n) _ _ h ?_
  rintro ⟨f, k⟩ hf j -
  simp only
  split
  · exact hf
  · split
    · exact hf.setColumn _ _
    · exact hf

theorem fits_singularStep {n : Nat} {s : (Dense (Cx R) × Dense (Cx R)) × Bool}
    (h : s.1.1.Fits n) (h' : s.1.2.Fits n) (ij : Nat × Nat) :
    (singularStep s ij).1.1.Fits n ∧ (singularStep s ij).1.2.Fits n := by
  obtain ⟨⟨g, v⟩, rotated⟩ := s
  obtain ⟨i, j⟩ := ij
  unfold singularStep
  simp only
  split
  · exact ⟨h, h'⟩
  · exact ⟨h.rotateColumns i j _ _ _, h'.rotateColumns i j _ _ _⟩

theorem fits_singularSweeps {n : Nat} (sweeps : Nat) {s : Dense (Cx R) × Dense (Cx R)}
    (h : s.1.Fits n) (h' : s.2.Fits n) :
    (singularSweeps sweeps s).1.Fits n ∧ (singularSweeps sweeps s).2.Fits n := by
  have hfold (ijs : List (Nat × Nat)) (s : (Dense (Cx R) × Dense (Cx R)) × Bool)
      (h : s.1.1.Fits n) (h' : s.1.2.Fits n) : (ijs.foldl singularStep s).1.1.Fits n ∧
        (ijs.foldl singularStep s).1.2.Fits n := by
    induction ijs generalizing s with
    | nil => exact ⟨h, h'⟩
    | cons ij ijs ih =>
      obtain ⟨h₁, h₂⟩ := fits_singularStep h h' ij
      exact ih _ h₁ h₂
  induction sweeps generalizing s with
  | zero => exact ⟨h, h'⟩
  | succ sweeps ih =>
    obtain ⟨h₁, h₂⟩ := hfold (pairs s.1.size) (s, false) h h'
    rw [singularSweeps]
    generalize (pairs s.1.size).foldl singularStep (s, false) = r at h₁ h₂
    obtain ⟨s', rotated⟩ := r
    cases rotated with
    | true => exact ih h₁ h₂
    | false => exact ⟨h₁, h₂⟩

theorem fits_singular {a : Dense (Cx R)} {n : Nat} (h : a.Fits n) :
    (singular a).left.Fits n ∧ (singular a).right.Fits n ∧ (singular a).values.size = n := by
  have hid : (identity a.size : Dense (Cx R)).Fits n := by
    rw [h.size]
    exact fits_ofFn _ _
  obtain ⟨-, hv⟩ := fits_singularSweeps maxSweeps (s := (a, identity a.size)) h hid
  have hframe (js : List Nat) (f : Frame R) (hf : f.columns.Fits n) (large : Nat → Bool)
      (column : Nat → Array (Cx R)) :
      (js.foldl (fun f j => if large j then f.set j (column j) else f) f).columns.Fits n := by
    induction js generalizing f with
    | nil => exact hf
    | cons j js ih =>
      rw [List.foldl_cons]
      apply ih
      split
      · exact hf.setColumn _ _
      · exact hf
  refine ⟨?_, hv.adjoint, by rw [singular, Array.size_ofFn, h.size]⟩
  refine fits_complete (hframe _ _ ?_ _ _)
  rw [h.size]
  exact fits_empty n

theorem fits_sineVectors {projected : Dense (Cx R)} {n : Nat} (h : projected.Fits n)
    (sines : Array R) : (sineVectors projected sines).Fits n := by
  refine fits_complete (List.foldlRecOn (motive := fun f : Frame R => f.columns.Fits n) _ _ ?_ ?_)
  · rw [h.size]
    exact fits_empty n
  · intro f hf j _
    split
    · exact hf.setColumn _ _
    · exact hf

/-- All four factors of a cosine-sine decomposition are as large as the blocks, and there are as many
cosines and sines. -/
theorem fits_cosineSine {u₀₀ u₁₀ : Dense (Cx R)} {n : Nat} (h₀ : u₀₀.Fits n) (h₁ : u₁₀.Fits n)
    (u₀₁ u₁₁ : Dense (Cx R)) :
    (cosineSine u₀₀ u₀₁ u₁₀ u₁₁).l₀.Fits n ∧ (cosineSine u₀₀ u₀₁ u₁₀ u₁₁).l₁.Fits n ∧
      (cosineSine u₀₀ u₀₁ u₁₀ u₁₁).r₀.Fits n ∧ (cosineSine u₀₀ u₀₁ u₁₀ u₁₁).r₁.Fits n ∧
      (cosineSine u₀₀ u₀₁ u₁₀ u₁₁).cosines.size = n ∧
      (cosineSine u₀₀ u₀₁ u₁₀ u₁₁).sines.size = n := by
  obtain ⟨hl, hr, hc⟩ := fits_singular h₀
  refine ⟨hl, ?_, hr, ?_, hc, ?_⟩
  · exact fits_sineVectors (h₁.mul _) _
  · rw [← h₀.size]
    exact fits_ofFn _ _
  · rw [cosineSine, Array.size_ofFn, h₀.size]

end QuantumCompiler.Dense
