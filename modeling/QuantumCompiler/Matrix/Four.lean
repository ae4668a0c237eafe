import QuantumCompiler.Matrix.Two

/-!
# Four-by-four matrices

Matrices of two-qubit gates. The first operand is the most significant bit of an index, so a
control in front sits on the lower right half of the matrix.
-/

namespace QuantumCompiler

/-- A 4×4 matrix, row by row. -/
structure Square4 (α : Type) where
  entries : Vector α 16
  deriving Repr, BEq

abbrev Mat4 (R : Type) := Square4 (Cx R)

namespace Square4

variable {α β : Type}

/-- Entry at a row and a column. -/
@[inline] def get (m : Square4 α) (i j : Fin 4) : α := m.entries[4 * i.val + j.val]

/-- The matrix of a function of row and column. -/
@[inline] def ofFn (f : Fin 4 → Fin 4 → α) : Square4 α :=
  ⟨Vector.ofFn fun k : Fin 16 => f ⟨k.val / 4, by omega⟩ ⟨k.val % 4, by omega⟩⟩

def toList (m : Square4 α) : List α := m.entries.toList

/-- The matrix of sixteen entries, row by row. -/
def ofList? (xs : List α) : Option (Square4 α) :=
  if h : xs.toArray.size = 16 then some ⟨⟨xs.toArray, h⟩⟩ else none

def map (f : α → β) (m : Square4 α) : Square4 β := ⟨m.entries.map f⟩

def transpose (m : Square4 α) : Square4 α := ofFn fun i j => m.get j i

def indices : List (Fin 4) := [0, 1, 2, 3]

/-- The four values of a function of an index. -/
def values (f : Fin 4 → α) : α × α × α × α := (f 0, f 1, f 2, f 3)

def rows (m : Square4 α) : List (List α) := indices.map fun i => indices.map fun j => m.get i j

def offDiagonal (m : Square4 α) : List α :=
  indices.flatMap fun i => (indices.filter (· ≠ i)).map fun j => m.get i j

/-- Matrix product; the right factor acts first. -/
@[specialize] def mul [Zero α] [Add α] [Mul α] (m n : Square4 α) : Square4 α :=
  ofFn fun i j =>
    0 + m.get i 0 * n.get 0 j + m.get i 1 * n.get 1 j + m.get i 2 * n.get 2 j
      + m.get i 3 * n.get 3 j

instance [Zero α] [Add α] [Mul α] : Mul (Square4 α) := ⟨mul⟩

/-- Entries on the diagonal and zero elsewhere. -/
def diagonal [Zero α] (d : Fin 4 → α) : Square4 α := ofFn fun i j => if i = j then d i else 0

end Square4

namespace Mat4

open Square4

variable {R : Type} [Scalar R]

def identity : Mat4 R := diagonal fun _ => 1

def ofRows (r₀ r₁ r₂ r₃ : Fin 4 → Cx R) : Mat4 R :=
  ofFn fun i j => match i with
    | 0 => r₀ j
    | 1 => r₁ j
    | 2 => r₂ j
    | 3 => r₃ j

def row (a b c d : Cx R) : Fin 4 → Cx R
  | 0 => a
  | 1 => b
  | 2 => c
  | 3 => d

/-- Entry of a 2×2 matrix by two bits. -/
def bit (m : Mat2 R) (i j : Nat) : Cx R :=
  match i, j with
  | 0, 0 => m.a
  | 0, _ => m.b
  | _, 0 => m.c
  | _, _ => m.d

/-- Tensor product; the left factor acts on the first operand. -/
def kron (m n : Mat2 R) : Mat4 R :=
  ofFn fun i j => bit m (i / 2) (j / 2) * bit n (i % 2) (j % 2)

/-- A gate on the second operand when the first one is set. -/
def controlled (m : Mat2 R) : Mat4 R :=
  ofRows (row 1 0 0 0) (row 0 1 0 0) (row 0 0 m.a m.b) (row 0 0 m.c m.d)

def scale (m : Mat4 R) (z : Cx R) : Mat4 R := m.map (· * z)

def dagger (m : Mat4 R) : Mat4 R := ofFn fun i j => (m.get j i).conj

def trace (m : Mat4 R) : Cx R := Cx.sum (indices.map fun i => m.get i i)

/-- The entry whose row and column are spelled by two bits each. -/
def entry (m : Mat4 R) (i₁ i₂ j₁ j₂ : Nat) : Cx R :=
  m.get (Fin.ofNat 4 (2 * i₁ + i₂)) (Fin.ofNat 4 (2 * j₁ + j₂))

/-- Position of the first entry of largest modulus. -/
def largestEntry (m : Mat4 R) : Fin 4 × Fin 4 :=
  ((indices.flatMap fun i => indices.map fun j => (i, j)).foldl
    (fun (best : (Fin 4 × Fin 4) × R) ij =>
      let n := (m.get ij.1 ij.2).norm
      if Scalar.gt n best.2 then (ij, n) else best) ((0, 0), -1)).1

def exchanged : Fin 4 → Fin 4
  | 0 => 0
  | 1 => 2
  | 2 => 1
  | 3 => 3

def swapOperands (m : Mat4 R) : Mat4 R := ofFn fun i j => m.get (exchanged i) (exchanged j)

/-- Largest modulus of an entry of the difference. -/
def deviation (m n : Mat4 R) : R :=
  Scalar.maximum (List.zipWith (fun x y => (x - y).norm) m.toList n.toList)

/-- Largest entrywise deviation after the best common phase is taken off. -/
def distanceUpToPhase (m n : Mat4 R) : R :=
  let overlap := trace (dagger m * n)
  let phase := if Scalar.below overlap.norm (Scalar.allowance 10) then 1
    else overlap.divReal overlap.norm
  Scalar.maximum (List.zipWith (fun x y => (x * phase - y).norm) m.toList n.toList)

/-- Brings the row at a position to the front; the front row takes its place. -/
def pivoted {α : Type} (rows : List (List α)) (k : Nat) : List (List α) :=
  match k, rows with
  | 0, rows => rows
  | k + 1, first :: rest =>
    match rest[k]? with
    | some pivot => pivot :: rest.set k first
    | none => first :: rest
  | _, [] => []

/-- Determinant by elimination: in every step the last of the rows with the leading entry of largest
size is the pivot row; a vanishing pivot makes the determinant zero. -/
def eliminate {α : Type} [Zero α] [Sub α] [Mul α] [Div α] [Neg α] (size : α → R) :
    Nat → List (List α) → α → α
  | 0, _, det => det
  | steps + 1, rows, det =>
    let leading := rows.zipIdx.map fun (row, k) => (k, size (row.headD 0))
    let k := (Scalar.lastArgMax leading).getD 0
    match pivoted rows k with
    | (pivot :: tail) :: rest =>
      if Scalar.below (size pivot) Scalar.vanishing then 0
      else
        let det := (if k = 0 then det else -det) * pivot
        let reduce (row : List α) : List α :=
          let factor := row.headD 0 / pivot
          List.zipWith (fun x y => x - factor * y) row.tail tail
        eliminate size steps (rest.map reduce) det
    | _ => det

def det (m : Mat4 R) : Cx R := eliminate Cx.norm 4 m.rows 1

/-- The determinant of a matrix of numbers. -/
def realDet (m : Square4 R) : R := eliminate Scalar.abs 4 m.rows 1

/-! ## Gate matrices -/

/-- `exp(-iθ X⊗X/2)`. -/
def rxx (θ : R) : Mat4 R :=
  let c : Cx R := .ofReal (Scalar.cos (θ / 2))
  let s : Cx R := ⟨0, -Scalar.sin (θ / 2)⟩
  ofRows (row c 0 0 s) (row 0 c s 0) (row 0 s c 0) (row s 0 0 c)

/-- `exp(-iθ Y⊗Y/2)`. -/
def ryy (θ : R) : Mat4 R :=
  let c : Cx R := .ofReal (Scalar.cos (θ / 2))
  let s : Cx R := ⟨0, Scalar.sin (θ / 2)⟩
  ofRows (row c 0 0 s) (row 0 c (-s) 0) (row 0 (-s) c 0) (row s 0 0 c)

/-- `exp(-iθ Z⊗Z/2)`. -/
def rzz (θ : R) : Mat4 R :=
  let m := Cx.cis (-θ / 2)
  let p := Cx.cis (θ / 2)
  diagonal (row m p p m)

def swap : Mat4 R := ofRows (row 1 0 0 0) (row 0 0 1 0) (row 0 1 0 0) (row 0 0 0 1)

def iswap : Mat4 R := ofRows (row 1 0 0 0) (row 0 0 Cx.I 0) (row 0 Cx.I 0 0) (row 0 0 0 1)

/-- The matrix of a standard gate on two qubits whose angles are numbers. -/
def ofGate? : StandardGate R → Option (Mat4 R)
  | .cx | .mcx 1 => some (controlled .x)
  | .cy => some (controlled .y)
  | .cz => some (controlled .z)
  | .ch => some (controlled .h)
  | .crx θ => θ.value?.map fun θ => controlled (.rx θ)
  | .cry θ | .mcry 1 θ => θ.value?.map fun θ => controlled (.ry θ)
  | .crz θ => θ.value?.map fun θ => controlled (.rz θ)
  | .cp θ => θ.value?.map fun θ => controlled (.p θ)
  | .swap => some swap
  | .iswap => some iswap
  | .rxx θ => θ.value?.map rxx
  | .ryy θ => θ.value?.map ryy
  | .rzz θ => θ.value?.map rzz
  | .mcu 1 θ φ ψ => do return controlled (.u (← θ.value?) (← φ.value?) (← ψ.value?))
  | _ => none

end Mat4

end QuantumCompiler
