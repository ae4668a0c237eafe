import QuantumCompiler.Matrix.Two

/-!
# Square matrices of any size

Dense square matrices and the action of a small matrix on some qubits of a register. Index bits run
from the most significant one, which belongs to the first qubit.
-/

namespace QuantumCompiler

/-- A square matrix, row by row. -/
structure Dense (α : Type) where
  size : Nat
  entries : Array α
  deriving Repr

namespace Dense

variable {α : Type}

/-- The matrix of a function of row and column. The work of a row is shared by its columns. -/
@[specialize] def ofFn (size : Nat) (f : Nat → Nat → α) : Dense α :=
  ⟨size, ((List.range size).flatMap fun i =>
    let row := f i
    (List.range size).map row).toArray⟩

def toList (m : Dense α) : List α := m.entries.toList

variable [Zero α]

/-- Entry at a row and a column, zero outside the matrix. -/
@[inline] def get (m : Dense α) (i j : Nat) : α := m.entries.getD (i * m.size + j) 0

def identity [One α] (size : Nat) : Dense α := ofFn size fun i j => if i = j then 1 else 0

/-- The matrix of zeros. -/
def zero (size : Nat) : Dense α := ofFn size fun _ _ => 0

/-- Entries on the diagonal and zero elsewhere. -/
def diagonal (d : Array α) : Dense α := ofFn d.size fun i j => if i = j then d.getD i 0 else 0

/-- A square block of a matrix from a row and a column on. -/
def block (m : Dense α) (row column size : Nat) : Dense α :=
  ofFn size fun i j => m.get (row + i) (column + j)

def setColumn (m : Dense α) (j : Nat) (v : Array α) : Dense α :=
  let entries := (List.range m.size).foldl
    (fun es i => es.setIfInBounds (i * m.size + j) (v.getD i 0)) m.entries
  { m with entries }

def column (m : Dense α) (j : Nat) : Array α := Array.ofFn fun i : Fin m.size => m.get i j

def sub [Sub α] (m n : Dense α) : Dense α := ofFn m.size fun i j => m.get i j - n.get i j

/-- Matrix product; the right factor acts first. -/
@[specialize] def mul [Add α] [Mul α] (m n : Dense α) : Dense α :=
  ofFn m.size fun i j =>
    (List.range m.size).foldl (fun acc k => acc + m.get i k * n.get k j) 0

/-- The index bits of qubits of an `n`-qubit register, each alone in a number. -/
def masks (n : Nat) (qubits : List Nat) : List Nat := qubits.map fun q => 1 <<< (n - 1 - q)

/-- An index with the bits of a number put in at the masks, the first mask taking the most
significant one. The index is clear there. -/
def scatter : List Nat → Nat → Nat → Nat
  | [], _, base => base
  | mask :: masks, value, base =>
    scatter masks value (if value.testBit masks.length then base ||| mask else base)

section InPlace

variable [Add α] [Mul α]

/-- A row of a matrix times a column. -/
@[specialize] def combine (small : Dense α) (r : Nat) (values : List α) : α :=
  values.zipIdx.foldl (fun acc (x, s) => acc + small.get r s * x) 0

/-- Rewrites the entries of some rows in one column. All of them are read before the first one is
written. -/
@[specialize] def rewriteColumn (small : Dense α) (width : Nat) (rows : List Nat) (column : Nat)
    (entries : Array α) : Array α :=
  let values := rows.map fun row => entries.getD (row * width + column) 0
  rows.zipIdx.foldl (fun es (row, r) =>
    es.setIfInBounds (row * width + column) (small.combine r values)) entries

/-- Left product, in place, of a matrix with the given numbers of rows and columns and a small
matrix that acts on some qubits of an `n`-qubit register. The rows that differ in these qubits only
are rewritten together. -/
@[specialize] def applyRows (n : Nat) (qubits : List Nat) (small : Dense α) (height width : Nat)
    (entries : Array α) : Array α :=
  let masks := masks n qubits
  let all := masks.foldl (· ||| ·) 0
  ((List.range height).filter (· &&& all = 0)).foldl (fun es base =>
    let rows := (List.range (Nat.pow 2 qubits.length)).map fun s => scatter masks s base
    (List.range width).foldl (fun es column => small.rewriteColumn width rows column es) es) entries

/-- Left product with a small matrix that acts on some qubits of an `n`-qubit register. -/
def applyLocal (m : Dense α) (n : Nat) (qubits : List Nat) (small : Dense α) : Dense α :=
  { m with entries := applyRows n qubits small m.size m.size m.entries }

end InPlace

def ofTwo {R : Type} (m : Mat2 R) : Dense (Cx R) := ⟨2, m.toList.toArray⟩

section Complex

variable {R : Type} [Scalar R]

def adjoint (m : Dense (Cx R)) : Dense (Cx R) := ofFn m.size fun i j => (m.get j i).conj

def maxNorm (m : Dense (Cx R)) : R := Scalar.maximum (m.toList.map Cx.norm)

def length (v : Array (Cx R)) : R := Scalar.sqrt (Scalar.sum (v.toList.map Cx.normSq))

/-- Inner product of two vectors, conjugate in the first. -/
def inner (v w : Array (Cx R)) : Cx R :=
  Cx.sum (List.zipWith (fun x y => x.conj * y) v.toList w.toList)

def columnLength (m : Dense (Cx R)) (j : Nat) : R := length (m.column j)

/-- The entries outside the diagonal, row by row. -/
def offDiagonal (m : Dense (Cx R)) : List (Cx R) :=
  (List.range m.size).flatMap fun i =>
    ((List.range m.size).filter (· ≠ i)).map fun j => m.get i j

end Complex

end Dense

end QuantumCompiler
