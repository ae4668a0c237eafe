import QuantumCompiler.Circuit.Basic

/-!
# Building circuits

One method per kind of instruction. Each answers with the longer circuit, or with the reason why the
instruction does not fit the registers. A method makes a call, and `Call.edit` is what the call does to a
circuit step by step.
-/

namespace QuantumCompiler.Circuit

variable {R : Type} [Scalar R]

/-- A call of a builder method. The methods named after a gate with a fixed number of operands all call
`standard`, with that gate. -/
inductive Call (R : Type) where
  | standard (g : StandardGate R) (qubits : List Qubit)
  | mcx (controls : List Qubit) (target : Qubit)
  | mcry (θ : Angle R) (controls : List Qubit) (target : Qubit)
  | mcu (θ φ ψ : Angle R) (controls : List Qubit) (target : Qubit)
  | gate (g : Gate R) (qubits : List Qubit)
  | measure (q : Qubit) (b : Clbit)
  | measureAll
  | reset (q : Qubit)
  | barrier (qubits : List Qubit)
  | delay (q : Qubit) (duration : Nat)

namespace Edit

/-- Appends a gate with any number of controls, as long as the controls and the target can be counted. -/
def controlled (g : StandardGate R) (controls : List Qubit) (target : Qubit) : Edit R Unit := do
  if controls.length < maxIndex then push (.ofStandard g (controls ++ [target]))
  else throw (.qubitCountMismatch g.name maxIndex maxIndex)

/-- Measures every qubit into the bit of its number; the classical register grows if it is too
small. -/
def measureAll : Edit R Unit := do
  modify fun c => { c with numClbits := max c.numClbits c.numQubits }
  let c ← get
  (List.range c.numQubits).forM fun q => push (.measure q q)

end Edit

/-- What a call does to a circuit. -/
def Call.edit : Call R → Edit R Unit
  | standard g qubits => .push (.ofStandard g qubits)
  | mcx controls target => .controlled (.mcx controls.length) controls target
  | mcry θ controls target => .controlled (.mcry controls.length θ) controls target
  | mcu θ φ ψ controls target => .controlled (.mcu controls.length θ φ ψ) controls target
  | gate g qubits => .push (.ofGate g qubits)
  | measure q b => .push (.measure q b)
  | measureAll => .measureAll
  | reset q => .push (.reset q)
  | barrier qubits => .push (.barrier qubits)
  | delay q duration => .push (.delay q duration)

/-- The circuit after a call that is done. -/
def call (c : Circuit R) (k : Call R) : Except CircuitError (Circuit R) := c.edited k.edit

def standard (c : Circuit R) (g : StandardGate R) (qubits : List Qubit) := c.call (.standard g qubits)

def h (c : Circuit R) (q : Qubit) := c.standard .h [q]

def x (c : Circuit R) (q : Qubit) := c.standard .x [q]

def y (c : Circuit R) (q : Qubit) := c.standard .y [q]

def z (c : Circuit R) (q : Qubit) := c.standard .z [q]

def s (c : Circuit R) (q : Qubit) := c.standard .s [q]

def sdg (c : Circuit R) (q : Qubit) := c.standard .sdg [q]

def t (c : Circuit R) (q : Qubit) := c.standard .t [q]

def tdg (c : Circuit R) (q : Qubit) := c.standard .tdg [q]

/-- Appends a square root of a bit flip. -/
def sx (c : Circuit R) (q : Qubit) := c.standard .sx [q]

/-- Appends a rotation about the first axis. -/
def rx (c : Circuit R) (θ : Angle R) (q : Qubit) := c.standard (.rx θ) [q]

def ry (c : Circuit R) (θ : Angle R) (q : Qubit) := c.standard (.ry θ) [q]

def rz (c : Circuit R) (θ : Angle R) (q : Qubit) := c.standard (.rz θ) [q]

def p (c : Circuit R) (θ : Angle R) (q : Qubit) := c.standard (.p θ) [q]

def u (c : Circuit R) (θ φ ψ : Angle R) (q : Qubit) := c.standard (.u θ φ ψ) [q]

def cx (c : Circuit R) (control target : Qubit) := c.standard .cx [control, target]

/-- Appends a controlled `y`. -/
def cy (c : Circuit R) (control target : Qubit) := c.standard .cy [control, target]

def cz (c : Circuit R) (control target : Qubit) := c.standard .cz [control, target]

def ch (c : Circuit R) (control target : Qubit) := c.standard .ch [control, target]

def swap (c : Circuit R) (a b : Qubit) := c.standard .swap [a, b]

def iswap (c : Circuit R) (a b : Qubit) := c.standard .iswap [a, b]

def cp (c : Circuit R) (θ : Angle R) (control target : Qubit) :=
  c.standard (.cp θ) [control, target]

/-- Appends a controlled `rx`. -/
def crx (c : Circuit R) (θ : Angle R) (control target : Qubit) :=
  c.standard (.crx θ) [control, target]

/-- Appends a controlled `ry`. -/
def cry (c : Circuit R) (θ : Angle R) (control target : Qubit) :=
  c.standard (.cry θ) [control, target]

/-- Appends a controlled `rz`. -/
def crz (c : Circuit R) (θ : Angle R) (control target : Qubit) :=
  c.standard (.crz θ) [control, target]

/-- Appends a rotation about `X⊗X`. -/
def rxx (c : Circuit R) (θ : Angle R) (a b : Qubit) := c.standard (.rxx θ) [a, b]

/-- Appends a rotation about `Y⊗Y`. -/
def ryy (c : Circuit R) (θ : Angle R) (a b : Qubit) := c.standard (.ryy θ) [a, b]

/-- Appends a rotation about `Z⊗Z`. -/
def rzz (c : Circuit R) (θ : Angle R) (a b : Qubit) := c.standard (.rzz θ) [a, b]

def ccx (c : Circuit R) (a b target : Qubit) := c.standard .ccx [a, b, target]

def cswap (c : Circuit R) (control a b : Qubit) := c.standard .cswap [control, a, b]

/-- Appends a bit flip with any number of controls. -/
def mcx (c : Circuit R) (controls : List Qubit) (target : Qubit) := c.call (.mcx controls target)

/-- Appends an `ry` with any number of controls. -/
def mcry (c : Circuit R) (θ : Angle R) (controls : List Qubit) (target : Qubit) :=
  c.call (.mcry θ controls target)

/-- Appends a `u` with any number of controls. -/
def mcu (c : Circuit R) (θ φ ψ : Angle R) (controls : List Qubit) (target : Qubit) :=
  c.call (.mcu θ φ ψ controls target)

def gate (c : Circuit R) (g : Gate R) (qubits : List Qubit) := c.call (.gate g qubits)

def measure (c : Circuit R) (q : Qubit) (b : Clbit) := c.call (.measure q b)

/-- Measures every qubit into the bit of its number. -/
def measureAll (c : Circuit R) := c.call .measureAll

def reset (c : Circuit R) (q : Qubit) := c.call (.reset q)

def barrier (c : Circuit R) (qubits : List Qubit) := c.call (.barrier qubits)

def delay (c : Circuit R) (q : Qubit) (duration : Nat) := c.call (.delay q duration)

def bell : Except CircuitError (Circuit R) := do
  let c ← (empty "bell" 2 2).h 0
  let c ← c.cx 0 1
  let c ← c.measure 0 0
  c.measure 1 1

/-- The circuit of an `n`-qubit GHZ state, measured. -/
def ghz (n : Nat) : Except CircuitError (Circuit R) :=
  let c : Circuit R := empty "ghz" n n
  if n = 0 then .ok c
  else do
    let c ← c.h 0
    let c ← (List.range (n - 1)).foldlM (fun c q => c.cx q (q + 1)) c
    c.measureAll

/-- The quantum Fourier transform on `n` qubits, without measurements. -/
def qft (n : Nat) : Except CircuitError (Circuit R) := do
  let c ← (List.range n).foldlM (fun c i => do
    let c ← c.h i
    (List.range (n - 1 - i)).foldlM (fun c k =>
      let j := i + 1 + k
      let angle : R := Scalar.pi / Scalar.ofNat (Nat.pow 2 (min (j - i) 31))
      c.cp (.const angle) j i) c) (empty "qft" n 0)
  (List.range (n / 2)).foldlM (fun c i => c.swap i (n - 1 - i)) c

end QuantumCompiler.Circuit
