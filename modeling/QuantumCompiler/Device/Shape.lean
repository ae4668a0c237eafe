import QuantumCompiler.Device.Basic

/-!
# Device shapes

Devices of a regular shape, with one fidelity for all couplings and the standard basis.
-/

namespace QuantumCompiler.Device

variable {R : Type} [Scalar R]

def uniform (name : String) (n : Nat) (pairs : List (Qubit × Qubit)) : Device R :=
  ofCouplings name n (pairs.map fun (a, b) => ⟨a, b, Scalar.decimal 99 2⟩) .standard

def linePairs (n : Nat) : List (Qubit × Qubit) := (List.range (n - 1)).map fun i => (i, i + 1)

def linear (n : Nat) : Device R := uniform s!"linear_{n}" n (linePairs n)

def ring (n : Nat) : Device R :=
  uniform s!"ring_{n}" n (linePairs n ++ if n > 2 then [(n - 1, 0)] else [])

/-- One qubit in the middle, coupled to all others. -/
def star (n : Nat) : Device R :=
  uniform s!"star_{n}" n ((List.range (n - 1)).map fun i => (0, i + 1))

def full (n : Nat) : Device R :=
  uniform s!"full_{n}" n
    ((List.range n).flatMap fun i => (List.range (n - 1 - i)).map fun k => (i, i + 1 + k))

/-- The places of a grid, row by row. -/
def gridPlaces (rows columns : Nat) : List (Nat × Nat) :=
  (List.range rows).flatMap fun r => (List.range columns).map fun c => (r, c)

/-- Each place with the next one in its row and with the one below. -/
def gridPairs (rows columns : Nat) : List (Qubit × Qubit) :=
  (gridPlaces rows columns).flatMap fun (r, c) =>
    let q := r * columns + c
    (if c + 1 < columns then [(q, q + 1)] else []) ++
      (if r + 1 < rows then [(q, q + columns)] else [])

/-- A rectangular grid, numbered row by row and drawn as it is. -/
def grid (rows columns : Nat) : Device R :=
  { (uniform s!"grid_{rows}x{columns}" (rows * columns) (gridPairs rows columns) : Device R) with
    positions := some ((gridPlaces rows columns).map fun (r, c) => (Int.ofNat r, Int.ofNat c)) }

end QuantumCompiler.Device
