import QuantumCompiler.CompileError

/-!
# Basis gates

The gates a device executes, by name. Measurements, barriers, resets and delays need no entry.
-/

namespace QuantumCompiler

/-- The names of the gates that a device executes. -/
structure Basis where
  /-- The names, in the order in which they were listed. -/
  gates : List String
  deriving DecidableEq, Repr, Inhabited

namespace Basis

def alwaysNative : List String := ["measure", "barrier", "reset", "delay"]

def contains (b : Basis) (name : String) : Bool :=
  alwaysNative.contains name || b.gates.contains name

/-- `cx` with rotations about all axes. -/
def standard : Basis := ⟨["cx", "rx", "ry", "rz", "id"]⟩

/-- `cx` with `rz` and the square root of a bit flip. -/
def ibm : Basis := ⟨["cx", "rz", "sx", "x"]⟩

/-- `cz` with rotations about all axes. -/
def cz : Basis := ⟨["cz", "rx", "ry", "rz"]⟩

/-- `iswap` with rotations about all axes. -/
def iswap : Basis := ⟨["iswap", "rx", "ry", "rz"]⟩

def universal : Basis :=
  ⟨["id", "x", "y", "z", "h", "s", "sdg", "t", "tdg", "sx", "sxdg", "rx", "ry", "rz", "p", "u",
    "cx", "cy", "cz", "ch", "swap", "iswap", "crx", "cry", "crz", "cp", "rxx", "ryy", "rzz",
    "ccx", "cswap", "mcx", "mcry", "mcu"]⟩

def provides (b : Basis) (family : EulerFamily) : Bool := family.gateNames.all b.contains

/-- The families, the one with the fewest gates first. -/
def preference : List EulerFamily := [.u3, .zsx, .zyz, .zxz, .xyx]

def family? (b : Basis) : Option EulerFamily := preference.find? b.provides

/-- The family for one-qubit synthesis. A requested one must be provided; without a request it is
the cheapest one, if there is any. -/
def resolveFamily {R : Type} (b : Basis) :
    Option EulerFamily → Compile R (Option EulerFamily)
  | some family =>
    if b.provides family then .ok (some family)
    else .error (.invalidConfiguration (.family family))
  | none => .ok b.family?

end Basis

end QuantumCompiler
