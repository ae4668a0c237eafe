import QuantumCompiler.Gate

/-!
# Two-by-two matrices

Matrices of one-qubit gates, with the operations that synthesis and optimization need: products,
adjoints, the distance of two matrices that ignores a common phase, and principal roots.
-/

namespace QuantumCompiler

/-- A complex 2×2 matrix, row by row. -/
structure Mat2 (R : Type) where
  a : Cx R
  b : Cx R
  c : Cx R
  d : Cx R
  deriving Repr, BEq, DecidableEq, Inhabited

namespace Mat2

variable {R : Type}

def toList (m : Mat2 R) : List (Cx R) := [m.a, m.b, m.c, m.d]

/-- The matrix of four entries, row by row. -/
def ofList? : List (Cx R) → Option (Mat2 R)
  | [a, b, c, d] => some ⟨a, b, c, d⟩
  | _ => none

def map (f : Cx R → Cx R) (m : Mat2 R) : Mat2 R := ⟨f m.a, f m.b, f m.c, f m.d⟩

def zipWith {α : Type} (f : Cx R → Cx R → α) (m n : Mat2 R) : List α :=
  [f m.a n.a, f m.b n.b, f m.c n.c, f m.d n.d]

variable [Scalar R]

def identity : Mat2 R := ⟨1, 0, 0, 1⟩

/-- Matrix product; the right factor acts first. -/
def mul (m n : Mat2 R) : Mat2 R :=
  ⟨m.a * n.a + m.b * n.c, m.a * n.b + m.b * n.d, m.c * n.a + m.d * n.c, m.c * n.b + m.d * n.d⟩

instance : Mul (Mat2 R) := ⟨mul⟩

def add (m n : Mat2 R) : Mat2 R := ⟨m.a + n.a, m.b + n.b, m.c + n.c, m.d + n.d⟩

def scale (m : Mat2 R) (z : Cx R) : Mat2 R := m.map (· * z)

def sub (m n : Mat2 R) : Mat2 R := m.add (n.scale (-1))

def dagger (m : Mat2 R) : Mat2 R := ⟨m.a.conj, m.c.conj, m.b.conj, m.d.conj⟩

def det (m : Mat2 R) : Cx R := m.a * m.d - m.b * m.c

/-- Largest modulus of an entry of the difference. -/
def deviation (m n : Mat2 R) : R := Scalar.maximum (zipWith (fun x y => (x - y).norm) m n)

/-- Largest entrywise deviation after the best common phase is taken off. -/
def distanceUpToPhase (m n : Mat2 R) : R :=
  let overlap := Cx.sum (zipWith (fun x y => x.conj * y) m n)
  let phase := if Scalar.below overlap.norm (Scalar.allowance 10) then 1
    else overlap.divReal overlap.norm
  Scalar.maximum (zipWith (fun x y => (x * phase - y).norm) m n)

/-- The identity up to a phase and to rounding. -/
def isIdentity (m : Mat2 R) : Bool :=
  Scalar.below (m.distanceUpToPhase identity) (Scalar.allowance 10)

/-- Principal `k`-th root of a normal matrix: the arguments of both eigenvalues are divided by `k`
and recombined with the spectral projectors. -/
def root (m : Mat2 R) (k : Nat) : Mat2 R :=
  let k : R := Scalar.ofNat (max k 1)
  let trace := m.a + m.d
  let disc := (trace * trace - m.det.scale 4).sqrt
  let l₁ := (trace + disc).divReal 2
  let l₂ := (trace - disc).divReal 2
  let r₁ := Cx.cis (l₁.arg / k)
  if Scalar.below (l₁ - l₂).norm (Scalar.allowance 10) then identity.scale r₁
  else
    let r₂ := Cx.cis (l₂.arg / k)
    let p₁ := (m.sub (identity.scale l₂)).scale (1 / (l₁ - l₂))
    let p₂ := identity.sub p₁
    (p₁.scale r₁).add (p₂.scale r₂)

/-! ## Gate matrices -/

def h : Mat2 R :=
  let s : Cx R := .ofReal Scalar.invSqrtTwo
  ⟨s, s, s, -s⟩

def x : Mat2 R := ⟨0, 1, 1, 0⟩

def y : Mat2 R := ⟨0, -Cx.I, Cx.I, 0⟩

def z : Mat2 R := ⟨1, 0, 0, -1⟩

def sx : Mat2 R :=
  let p : Cx R := ⟨Scalar.half, Scalar.half⟩
  let m : Cx R := ⟨Scalar.half, -Scalar.half⟩
  ⟨p, m, m, p⟩

/-- Rotation about the first axis. -/
def rx (θ : R) : Mat2 R :=
  let c : Cx R := .ofReal (Scalar.cos (θ / 2))
  let s : Cx R := ⟨0, -Scalar.sin (θ / 2)⟩
  ⟨c, s, s, c⟩

def ry (θ : R) : Mat2 R :=
  let c : Cx R := .ofReal (Scalar.cos (θ / 2))
  let s : Cx R := .ofReal (Scalar.sin (θ / 2))
  ⟨c, -s, s, c⟩

def rz (θ : R) : Mat2 R := ⟨Cx.cis (-θ / 2), 0, 0, Cx.cis (θ / 2)⟩

def p (θ : R) : Mat2 R := ⟨1, 0, 0, Cx.cis θ⟩

def u (θ φ ψ : R) : Mat2 R :=
  let c := Scalar.cos (θ / 2)
  let s := Scalar.sin (θ / 2)
  ⟨.ofReal c, -Cx.ofPolar s ψ, Cx.ofPolar s φ, Cx.ofPolar c (φ + ψ)⟩

/-- The matrix of a standard gate on one qubit whose angles are numbers. -/
def ofGate? : StandardGate R → Option (Mat2 R)
  | .id => some identity
  | .x | .mcx 0 => some x
  | .y => some y
  | .z => some z
  | .h => some h
  | .s => some (p (Scalar.pi / 2))
  | .sdg => some (p (-Scalar.pi / 2))
  | .t => some (p (Scalar.pi / 4))
  | .tdg => some (p (-Scalar.pi / 4))
  | .sx => some sx
  | .sxdg => some sx.dagger
  | .rx θ => θ.value?.map rx
  | .ry θ | .mcry 0 θ => θ.value?.map ry
  | .rz θ => θ.value?.map rz
  | .p θ => θ.value?.map p
  | .u θ φ ψ | .mcu 0 θ φ ψ => do return u (← θ.value?) (← φ.value?) (← ψ.value?)
  | _ => none

/-- Product of gates in time order. -/
def ofSequence? (gates : List (StandardGate R)) : Option (Mat2 R) :=
  gates.foldlM (fun m g => (ofGate? g).map (· * m)) identity

end Mat2

end QuantumCompiler
