/-!
# Rotation families

The gate sets into which a one-qubit unitary can be split.
-/

namespace QuantumCompiler

/-- A family of one-qubit gates that reaches every unitary. -/
inductive EulerFamily where
  /-- `rz · ry · rz`. -/
  | zyz
  /-- `rz · rx · rz`. -/
  | zxz
  /-- `rx · ry · rx`. -/
  | xyx
  /-- A single `u`. -/
  | u3
  /-- `rz` and at most two `sx`. -/
  | zsx
  deriving DecidableEq, Repr, Inhabited

namespace EulerFamily

def gateNames : EulerFamily → List String
  | zyz => ["rz", "ry"]
  | zxz => ["rz", "rx"]
  | xyx => ["rx", "ry"]
  | u3 => ["u"]
  | zsx => ["rz", "sx"]

def label : EulerFamily → String
  | zyz => "ZYZ"
  | zxz => "ZXZ"
  | xyx => "XYX"
  | u3 => "U3"
  | zsx => "ZSX"

def tag : EulerFamily → String
  | zyz => "zyz"
  | zxz => "zxz"
  | xyx => "xyx"
  | u3 => "u3"
  | zsx => "zsx"

def all : List EulerFamily := [zyz, zxz, xyx, u3, zsx]

def ofTag? (tag : String) : Option EulerFamily := all.find? (·.tag == tag)

end EulerFamily

end QuantumCompiler
