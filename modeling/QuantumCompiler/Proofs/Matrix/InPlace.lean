import Mathlib
import QuantumCompiler.Proofs.Matrix.Operands

/-!
# Rewriting a matrix in place

A local action overwrites the matrix that it reads. Each of its steps is confined to a region of the array:
what it writes there depends on nothing outside. Regions of different columns are disjoint, and so are those of
different classes of rows, so no entry is read after it was overwritten, and every entry ends as if it had been
computed from the matrix at the start.
-/
namespace QuantumCompiler.Dense

variable {α : Type}

/-! ## Confined changes of an array -/

section Confined

/-- A change of an array that keeps its size, leaves a region's complement alone and reads nothing there. -/
structure Confined (f : Array α → Array α) (region : Nat → Prop) : Prop where
  size : ∀ es, (f es).size = es.size
  outside : ∀ es k, ¬region k → (f es)[k]? = es[k]?
  inside : ∀ es es', es.size = es'.size → (∀ k, region k → es[k]? = es'[k]?) →
    ∀ k, region k → (f es)[k]? = (f es')[k]?

theorem confined_set (p : Nat) (x : α) : Confined (fun es => es.setIfInBounds p x) (· = p) := by
  constructor
  · intro es
    exact Array.size_setIfInBounds
  · intro es k hk
    rw [Array.getElem?_setIfInBounds, if_neg (Ne.symm hk)]
  · rintro es es' hsize - k rfl
    rw [Array.getElem?_setIfInBounds, Array.getElem?_setIfInBounds, hsize, if_pos rfl, if_pos rfl]

theorem Confined.congr {f : Array α → Array α} {region region' : Nat → Prop} (h : Confined f region)
    (hr : ∀ k, region k ↔ region' k) : Confined f region' := by
  obtain rfl : region = region' := funext fun k => propext (hr k)
  exact h

variable {ι : Type} {f : ι → Array α → Array α} {region : ι → Nat → Prop} {is : List ι}

theorem outside_foldl (h : ∀ i ∈ is, Confined (f i) (region i)) {k : Nat}
    (hk : ∀ i ∈ is, ¬region i k) (es : Array α) : (is.foldl (fun es i => f i es) es)[k]? = es[k]? := by
  induction is generalizing es with
  | nil => rfl
  | cons i is ih =>
    rw [List.foldl_cons, ih (fun j hj => h j (by simp [hj])) (fun j hj => hk j (by simp [hj])),
      (h i (by simp)).outside _ _ (hk i (by simp))]

/-- Of changes with disjoint regions each one acts as if it came first. -/
theorem inside_foldl (h : ∀ i ∈ is, Confined (f i) (region i))
    (hd : is.Pairwise fun i j => ∀ k, region i k → ¬region j k) {i : ι} (hi : i ∈ is) {k : Nat}
    (hk : region i k) (es : Array α) : (is.foldl (fun es i => f i es) es)[k]? = (f i es)[k]? := by
  induction is generalizing es with
  | nil => cases hi
  | cons j is ih =>
    obtain ⟨hj, hd⟩ := List.pairwise_cons.mp hd
    have hrest : ∀ i ∈ is, Confined (f i) (region i) := fun i hi => h i (by simp [hi])
    rw [List.foldl_cons]
    rcases List.mem_cons.mp hi with rfl | hi
    · exact outside_foldl hrest (fun l hl => hj l hl k hk) _
    · rw [ih hrest hd hi]
      have hfirst := h j (by simp)
      exact (hrest i hi).inside _ _ (hfirst.size es)
        (fun l hl => hfirst.outside es l fun hjl => hj i hi l hjl hl) k hk

theorem confined_foldl (h : ∀ i ∈ is, Confined (f i) (region i))
    (hd : is.Pairwise fun i j => ∀ k, region i k → ¬region j k) :
    Confined (fun es => is.foldl (fun es i => f i es) es) fun k => ∃ i ∈ is, region i k := by
  constructor
  · intro es
    exact List.foldlRecOn (motive := fun es' => es'.size = es.size) is _ rfl
      fun es' hs i hi => ((h i hi).size es').trans hs
  · intro es k hk
    exact outside_foldl h (fun i hi hik => hk ⟨i, hi, hik⟩) es
  · rintro es es' hsize hread k ⟨i, hi, hk⟩
    rw [inside_foldl h hd hi hk, inside_foldl h hd hi hk]
    exact (h i hi).inside es es' hsize (fun l hl => hread l ⟨i, hi, hl⟩) k hk

end Confined

/-! ## Rows and columns -/

section Rows

variable {width column : Nat} {rows : List Nat}

/-- A position in an array of rows tells the row and the column. -/
theorem position_inj {row row' column' : Nat} (h : column < width) (h' : column' < width)
    (he : row * width + column = row' * width + column') : row = row' ∧ column = column' := by
  have hcolumn : column = column' := by
    simpa only [Nat.mul_add_mod_of_lt h, Nat.mul_add_mod_of_lt h'] using congrArg (· % width) he
  subst hcolumn
  exact ⟨Nat.eq_of_mul_eq_mul_right (by omega) (Nat.add_right_cancel he), rfl⟩

theorem position_lt {height row : Nat} (h : column < width) (hrow : row < height) :
    row * width + column < height * width := by
  have hle := Nat.mul_le_mul_right width (Nat.succ_le_of_lt hrow)
  rw [Nat.succ_mul] at hle
  omega

/-- Writing given numbers at the rows of a column. -/
def writeColumn (width : Nat) (rows : List Nat) (column : Nat) (x : Nat → α) (es : Array α) : Array α :=
  rows.zipIdx.foldl (fun es i => es.setIfInBounds (i.1 * width + column) (x i.2)) es

theorem pairwise_position (hr : rows.Nodup) (hc : column < width) : rows.zipIdx.Pairwise
    fun i j => ∀ k, k = i.1 * width + column → ¬k = j.1 * width + column := by
  rw [← List.zipIdx_map_fst 0 rows, List.Nodup, List.pairwise_map] at hr
  exact hr.imp fun hne k hk hk' => hne (position_inj hc hc (hk.symm.trans hk')).1

theorem confined_writeColumn (hr : rows.Nodup) (hc : column < width) (x : Nat → α) :
    Confined (writeColumn width rows column x) fun k => ∃ row ∈ rows, k = row * width + column := by
  have hmem (row : Nat) : row ∈ rows ↔ ∃ i ∈ rows.zipIdx, i.1 = row := by
    rw [← List.mem_map, List.zipIdx_map_fst]
  refine (confined_foldl (fun i _ => confined_set _ _) (pairwise_position hr hc)).congr fun k => ?_
  simp only [hmem, exists_exists_and_eq_and]

theorem getElem?_writeColumn (hr : rows.Nodup) (hc : column < width) (x : Nat → α) {row r : Nat}
    (hi : (row, r) ∈ rows.zipIdx) {es : Array α} (hlt : row * width + column < es.size) :
    (writeColumn width rows column x es)[row * width + column]? = some (x r) := by
  refine (inside_foldl (fun i _ => confined_set _ _) (pairwise_position hr hc) hi rfl es).trans ?_
  rw [Array.getElem?_setIfInBounds, if_pos rfl, if_pos hlt]

variable [Zero α] [Add α] [Mul α] {small : Dense α}

/-- The entries of some rows in one column. -/
def columnValues (width : Nat) (rows : List Nat) (column : Nat) (es : Array α) : List α :=
  rows.map fun row => es.getD (row * width + column) 0

theorem rewriteColumn_eq (es : Array α) : small.rewriteColumn width rows column es =
    writeColumn width rows column (fun r => small.combine r (columnValues width rows column es)) es := rfl

theorem confined_rewriteColumn (hr : rows.Nodup) (hc : column < width) :
    Confined (small.rewriteColumn width rows column) fun k => ∃ row ∈ rows, k = row * width + column := by
  have hwrite (es : Array α) := confined_writeColumn hr hc fun r =>
    small.combine r (columnValues width rows column es)
  refine ⟨fun es => (hwrite es).size es, fun es => (hwrite es).outside es, ?_⟩
  intro es es' hsize hread k hk
  have hvalues : columnValues width rows column es = columnValues width rows column es' := by
    refine List.map_congr_left fun row hrow => ?_
    rw [Array.getD_eq_getD_getElem?, Array.getD_eq_getD_getElem?, hread _ ⟨row, hrow, rfl⟩]
  rw [rewriteColumn_eq, (hwrite es).inside es es' hsize hread k hk, rewriteColumn_eq, hvalues]

/-- Different columns have no position in common. -/
theorem pairwise_columns (width : Nat) (rows : List Nat) : (List.range width).Pairwise fun column column' =>
    ∀ k, (∃ row ∈ rows, k = row * width + column) → ¬∃ row ∈ rows, k = row * width + column' := by
  refine List.nodup_range.imp_of_mem fun hc hc' hne k => ?_
  rintro ⟨row, -, rfl⟩ ⟨row', -, he⟩
  exact hne (position_inj (List.mem_range.mp hc) (List.mem_range.mp hc') he).2

theorem confined_columns (hr : rows.Nodup) : Confined
    (fun es => (List.range width).foldl (fun es column => small.rewriteColumn width rows column es) es)
    fun k => ∃ column ∈ List.range width, ∃ row ∈ rows, k = row * width + column :=
  confined_foldl (fun _ hc => confined_rewriteColumn hr (List.mem_range.mp hc))
    (pairwise_columns width rows)

theorem getElem?_columns (hr : rows.Nodup) (hc : column < width) {row r : Nat}
    (hi : (row, r) ∈ rows.zipIdx) {es : Array α} (hlt : row * width + column < es.size) :
    ((List.range width).foldl (fun es column => small.rewriteColumn width rows column es)
      es)[row * width + column]? = some (small.combine r (columnValues width rows column es)) := by
  have hrow : row ∈ rows := List.fst_mem_of_mem_zipIdx hi
  rw [inside_foldl (fun _ hc => confined_rewriteColumn hr (List.mem_range.mp hc))
    (pairwise_columns width rows) (List.mem_range.mpr hc) ⟨row, hrow, rfl⟩, rewriteColumn_eq,
    getElem?_writeColumn hr hc _ hi hlt]

end Rows

/-! ## Classes of rows -/

section Classes

variable [Zero α] [Add α] [Mul α] {small : Dense α} {n width : Nat} {qubits : List Nat}

/-- The rows that differ from a clear one at the operands only, in the order of the numbers they spell. -/
def classRows (n : Nat) (qubits : List Nat) (base : Nat) : List Nat :=
  (List.range (2 ^ qubits.length)).map fun s => scatter (masks n qubits) s base

/-- The clear rows, one for each class. -/
def bases (n : Nat) (qubits : List Nat) : List Nat :=
  (List.range (2 ^ n)).filter fun row => row &&& (masks n qubits).foldl (· ||| ·) 0 = 0

theorem mem_bases {base : Nat} : base ∈ bases n qubits ↔ base < 2 ^ n ∧ Clear n qubits base := by
  rw [bases, List.mem_filter, List.mem_range, decide_eq_true_iff, and_masks_eq_zero_iff]

variable (h : Operands n qubits)

include h

theorem nodup_classRows {base : Nat} (hb : Clear n qubits base) : (classRows n qubits base).Nodup := by
  refine List.Nodup.map_on (fun s hs s' hs' he => ?_) List.nodup_range
  have hindex := congrArg (operandIndex n qubits) he
  rwa [operandIndex_scatter h hb, operandIndex_scatter h hb, Nat.mod_eq_of_lt (List.mem_range.mp hs),
    Nat.mod_eq_of_lt (List.mem_range.mp hs')] at hindex

theorem agreeOff_of_mem_classRows {base row : Nat} (hrow : row ∈ classRows n qubits base) :
    AgreeOff n qubits row base := by
  obtain ⟨s, -, rfl⟩ := List.mem_map.mp hrow
  exact agreeOff_scatter h s base

/-- Different classes have no position in common. -/
theorem pairwise_classes (width : Nat) : (bases n qubits).Pairwise fun base base' => ∀ k,
    (∃ column ∈ List.range width, ∃ row ∈ classRows n qubits base, k = row * width + column) →
      ¬∃ column ∈ List.range width, ∃ row ∈ classRows n qubits base', k = row * width + column := by
  have hd : (bases n qubits).Nodup := List.nodup_range.filter _
  refine hd.imp_of_mem fun hb hb' hne k => ?_
  rintro ⟨column, hc, row, hrow, rfl⟩ ⟨column', hc', row', hrow', he⟩
  obtain ⟨rfl, -⟩ := position_inj (List.mem_range.mp hc) (List.mem_range.mp hc') he
  obtain ⟨hlt, hclear⟩ := mem_bases.mp hb
  obtain ⟨hlt', hclear'⟩ := mem_bases.mp hb'
  exact hne (eq_of_clear hlt hlt' hclear hclear'
    ((agreeOff_of_mem_classRows h hrow).symm.trans (agreeOff_of_mem_classRows h hrow')))

theorem confined_class {base : Nat} (hb : base ∈ bases n qubits) : Confined
    (fun es => (List.range width).foldl (fun es column =>
      small.rewriteColumn width (classRows n qubits base) column es) es)
    fun k => ∃ column ∈ List.range width, ∃ row ∈ classRows n qubits base, k = row * width + column :=
  confined_columns (nodup_classRows h (mem_bases.mp hb).2)

/-- An entry of the rewritten matrix is a row of the small one times the entries that the class of its row
had in its column. -/
theorem getElem?_applyRows {i column : Nat} (hi : i < 2 ^ n) (hc : column < width) {es : Array α}
    (hes : es.size = 2 ^ n * width) :
    (applyRows n qubits small (2 ^ n) width es)[i * width + column]? =
      some (small.combine (operandIndex n qubits i) ((List.range (2 ^ qubits.length)).map fun s =>
        es.getD (respelled n qubits i s * width + column) 0)) := by
  have hbase : cleared n qubits i ∈ bases n qubits :=
    mem_bases.mpr ⟨cleared_lt hi qubits, clear_cleared n qubits i⟩
  have hnth : (classRows n qubits (cleared n qubits i))[operandIndex n qubits i]? = some i := by
    have hself := respelled_operandIndex h hi hi fun _ _ _ => rfl
    rw [classRows, List.getElem?_map, List.getElem?_range (operandIndex_lt n qubits i)]
    exact congrArg some hself
  have hmem : (i, operandIndex n qubits i) ∈ (classRows n qubits (cleared n qubits i)).zipIdx :=
    List.mk_mem_zipIdx_iff_getElem?.mpr hnth
  have hlt : i * width + column < es.size := hes ▸ position_lt hc hi
  refine (inside_foldl (fun _ hb => confined_class h hb) (pairwise_classes h width) hbase
    ⟨column, List.mem_range.mpr hc, i, List.fst_mem_of_mem_zipIdx hmem, rfl⟩ es).trans ?_
  rw [getElem?_columns (nodup_classRows h (clear_cleared n qubits i)) hc hmem hlt, columnValues, classRows,
    List.map_map]
  rfl

end Classes

end QuantumCompiler.Dense
