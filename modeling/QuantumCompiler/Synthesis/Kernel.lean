import QuantumCompiler.Matrix.Dense

/-!
# Numeric kernels

Iterative factorizations of dense complex matrices: eigenvectors of Hermitian matrices and singular
values by Jacobi rotations, and the cosine-sine decomposition of a unitary split into four blocks.
Every iteration is bounded by a number of sweeps.
-/

namespace QuantumCompiler.Dense

variable {R : Type} [Scalar R]

/-- The number of sweeps after which an iteration stops in any case. -/
def maxSweeps : Nat := 100

def pairs (n : Nat) : List (Nat × Nat) :=
  (List.range n).flatMap fun i => (List.range (n - 1 - i)).map fun k => (i, i + 1 + k)

/-- The smaller rotation, as cosine and sine, whose cotangent of the double angle is given. -/
def rotationOf (cotangent : R) : R × R :=
  let sign : R := if Scalar.ge cotangent 0 then 1 else -1
  let t := sign / (Scalar.abs cotangent + Scalar.sqrt (cotangent * cotangent + 1))
  let c := 1 / Scalar.sqrt (t * t + 1)
  (c, t * c)

def combineColumns (m : Dense (Cx R)) (p q : Nat) (f : Cx R → Cx R → Cx R × Cx R) :
    Dense (Cx R) :=
  let entries := (List.range m.size).foldl (fun es i =>
    let (x, y) := f (m.get i p) (m.get i q)
    (es.setIfInBounds (i * m.size + p) x).setIfInBounds (i * m.size + q) y) m.entries
  { m with entries }

def combineRows (m : Dense (Cx R)) (p q : Nat) (f : Cx R → Cx R → Cx R × Cx R) :
    Dense (Cx R) :=
  let entries := (List.range m.size).foldl (fun es j =>
    let (x, y) := f (m.get p j) (m.get q j)
    (es.setIfInBounds (p * m.size + j) x).setIfInBounds (q * m.size + j) y) m.entries
  { m with entries }

/-- A unitary rotation in the plane of two coordinates, as a 2×2 matrix. -/
def rotateRight (m : Dense (Cx R)) (p q : Nat) (u : Mat2 R) : Dense (Cx R) :=
  m.combineColumns p q fun x y => (x * u.a + y * u.c, x * u.b + y * u.d)

/-- The adjoint of a rotation in the plane of two coordinates, from the left. -/
def rotateLeft (m : Dense (Cx R)) (p q : Nat) (u : Mat2 R) : Dense (Cx R) :=
  m.combineRows p q fun x y => (u.a.conj * x + u.c.conj * y, u.b.conj * x + u.d.conj * y)

/-! ## Hermitian matrices -/

/-- One rotation of a sweep on a Hermitian matrix and its eigenvectors so far: the entry is made
real by a phase and then rotated away. -/
def hermitianStep (state : Dense (Cx R) × Dense (Cx R)) (pq : Nat × Nat) :
    Dense (Cx R) × Dense (Cx R) :=
  let (a, vectors) := state
  let (p, q) := pq
  let entry := a.get p q
  let modulus := entry.norm
  if Scalar.below modulus (Scalar.allowance 300) then state
  else
    let phase := (entry.divReal modulus).conj
    let (c, s) := rotationOf (((a.get q q).re - (a.get p p).re) / (2 * modulus))
    let u : Mat2 R := ⟨.ofReal c, .ofReal s, phase.scale (-s), phase.scale c⟩
    ((a.rotateRight p q u).rotateLeft p q u, vectors.rotateRight p q u)

/-- Sweeps until the off-diagonal entries vanish, at most the given number of times. -/
def hermitianSweeps : Nat → Dense (Cx R) × Dense (Cx R) → Dense (Cx R)
  | 0, state => state.2
  | sweeps + 1, state =>
    let off := Scalar.sum (state.1.offDiagonal.map Cx.normSq)
    if Scalar.below off (Scalar.allowance 30) then state.2
    else hermitianSweeps sweeps ((pairs state.1.size).foldl hermitianStep state)

/-- The unitary matrix whose columns are eigenvectors of a Hermitian matrix. -/
def hermitianEigenvectors (a : Dense (Cx R)) : Dense (Cx R) :=
  hermitianSweeps maxSweeps (a, identity a.size)

/-! ## Orthonormal columns -/

/-- A matrix of which only some columns are set. -/
structure Frame (R : Type) where
  columns : Dense (Cx R)
  filled : Array Bool

def Frame.empty (n : Nat) : Frame R := ⟨zero n, Array.replicate n false⟩

def Frame.set (f : Frame R) (j : Nat) (v : Array (Cx R)) : Frame R :=
  ⟨f.columns.setColumn j v, f.filled.setIfInBounds j true⟩

/-- Takes the part along each set column off a vector. -/
def Frame.project (f : Frame R) (v : Array (Cx R)) : Array (Cx R) :=
  (List.range f.filled.size).foldl (fun v k =>
    if f.filled.getD k false then
      let column := f.columns.column k
      let overlap := inner column v
      Array.zipWith (fun x b => x - overlap * b) v column
    else v) v

/-- The unit vector of what a vector has orthogonal to the set columns; `none` when that is not
longer than a bound. -/
def Frame.orthonormalize? (f : Frame R) (v : Array (Cx R)) (bound : R) :
    Option (Array (Cx R)) :=
  let v := f.project (f.project v)
  let norm := length v
  if Scalar.gt norm bound then some (v.map (·.divReal norm)) else none

/-- The first coordinate vector from `k` on that is not close to the span of the set columns, made
orthonormal to them, and the coordinate after it. -/
def Frame.nextUnit (f : Frame R) : Nat → Nat → Option (Array (Cx R)) × Nat
  | 0, k => (none, k)
  | left + 1, k =>
    let unit := Array.ofFn fun i : Fin f.columns.size => if i.val = k then (1 : Cx R) else 0
    match f.orthonormalize? unit Scalar.half with
    | some v => (some v, k + 1)
    | none => f.nextUnit left (k + 1)

/-- Sets the missing columns to an orthonormal complement. -/
def Frame.complete (f : Frame R) : Dense (Cx R) :=
  let n := f.columns.size
  ((List.range n).foldl (fun (acc : Frame R × Nat) j =>
    let (f, k) := acc
    if f.filled.getD j false then acc
    else
      match f.nextUnit (n - k) k with
      | (some v, k) => (f.set j v, k)
      | (none, k) => (f, k)) (f, 0)).1.columns

/-! ## Singular values -/

/-- A singular value decomposition `left · diag(values) · right`. -/
structure Singular (R : Type) where
  left : Dense (Cx R)
  values : Array R
  right : Dense (Cx R)

/-- Rotates two columns with a phase on the second. -/
def rotateColumns (m : Dense (Cx R)) (i j : Nat) (c s : R) (phase : Cx R) : Dense (Cx R) :=
  m.combineColumns i j fun x y =>
    let y := y * phase.conj
    (x.scale c - y.scale s, x.scale s + y.scale c)

/-- One rotation of a sweep: makes two columns orthogonal, unless they are already. -/
def singularStep (state : (Dense (Cx R) × Dense (Cx R)) × Bool) (ij : Nat × Nat) :
    (Dense (Cx R) × Dense (Cx R)) × Bool :=
  let ((g, v), _) := state
  let (i, j) := ij
  let x := g.columnLength i
  let y := g.columnLength j
  let alpha := x * x
  let beta := y * y
  let gamma := inner (g.column i) (g.column j)
  let overlap := gamma.norm
  if Scalar.le overlap (Scalar.allowance 15 * Scalar.sqrt (alpha * beta))
      || Scalar.below overlap Scalar.vanishing then state
  else
    let phase := gamma.divReal overlap
    let (c, s) := rotationOf ((beta - alpha) / (2 * overlap))
    ((g.rotateColumns i j c s phase, v.rotateColumns i j c s phase), true)

/-- Sweeps until no pair of columns is rotated, at most the given number of times. -/
def singularSweeps : Nat → Dense (Cx R) × Dense (Cx R) → Dense (Cx R) × Dense (Cx R)
  | 0, state => state
  | sweeps + 1, state =>
    let (state, rotated) := (pairs state.1.size).foldl singularStep (state, false)
    if rotated then singularSweeps sweeps state else state

/-- Singular values by one-sided Jacobi rotations; vanished ones take their left vectors from an
orthonormal complement. -/
def singular (a : Dense (Cx R)) : Singular R :=
  let n := a.size
  let (g, v) := singularSweeps maxSweeps (a, identity n)
  let values := Array.ofFn fun j : Fin n => g.columnLength j
  let frame := (List.range n).foldl (fun (f : Frame R) j =>
    let value := values.getD j 0
    if Scalar.gt value (Scalar.allowance 13) then
      let scale : Cx R := .ofReal (1 / value)
      f.set j ((g.column j).map (· * scale))
    else f) (Frame.empty n)
  ⟨frame.complete, values, v.adjoint⟩

/-! ## Cosine-sine decomposition -/

/-- `diag(l₀, l₁) · [[C, -S], [S, C]] · diag(r₀, r₁)`, with diagonal `C` and `S`. -/
structure CosineSine (R : Type) where
  l₀ : Dense (Cx R)
  l₁ : Dense (Cx R)
  r₀ : Dense (Cx R)
  r₁ : Dense (Cx R)
  /-- Diagonal of `C`. -/
  cosines : Array R
  /-- Diagonal of `S`. -/
  sines : Array R

/-- The left vectors of the sines: the columns with the largest sines first, so that the least
accurate ones are made orthogonal last; those of vanished sines come from the complement. -/
def sineVectors (projected : Dense (Cx R)) (sines : Array R) : Dense (Cx R) :=
  let n := projected.size
  let sine (j : Nat) : R := sines.getD j 0
  let order := (List.range n).mergeSort fun a b => Scalar.order (sine b) (sine a) != .gt
  let large := order.takeWhile fun j => !Scalar.le (sine j) (Scalar.allowance 7)
  (large.foldl (fun (f : Frame R) j =>
    match f.orthonormalize? (projected.column j) Scalar.vanishing with
    | some v => f.set j v
    | none => f) (Frame.empty n)).complete

/-- The decomposition of the unitary `[[u₀₀, u₀₁], [u₁₀, u₁₁]]`. -/
def cosineSine (u₀₀ u₀₁ u₁₀ u₁₁ : Dense (Cx R)) : CosineSine R :=
  let n := u₀₀.size
  let ⟨l₀, cosines, r₀⟩ := singular u₀₀
  let projected := u₁₀.mul r₀.adjoint
  let sines := Array.ofFn fun j : Fin n => projected.columnLength j
  let l₁ := sineVectors projected sines
  let x := l₀.adjoint.mul u₀₁
  let y := l₁.adjoint.mul u₁₁
  let r₁ := ofFn n fun i =>
    let c := cosines.getD i 0
    let s := sines.getD i 0
    if Scalar.ge c s then
      let scale : Cx R := .ofReal (1 / c)
      fun j => y.get i j * scale
    else
      let scale : Cx R := .ofReal (-1 / s)
      fun j => x.get i j * scale
  ⟨l₀, l₁, r₀, r₁, cosines, sines⟩

end QuantumCompiler.Dense
