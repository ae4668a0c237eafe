/-!
# Wires

A circuit runs on qubits and classical bits, each numbered from zero. Both are wires: an
operation comes after everything that already touched one of its wires.
-/

namespace QuantumCompiler

/-- Number of a qubit: one of the circuit before layout, one of the device after it. -/
abbrev Qubit := Nat

abbrev Clbit := Nat

/-- A qubit or a classical bit. -/
inductive Wire where
  | qubit (q : Qubit)
  | clbit (c : Clbit)
  deriving DecidableEq, Repr, Inhabited

/-- The short name of a wire in messages. -/
def Wire.text : Wire → String
  | .qubit q => "q" ++ toString q
  | .clbit c => "c" ++ toString c

/-- The long name of a wire in messages. -/
def Wire.label : Wire → String
  | .qubit q => s!"Qubit(QubitId({q}))"
  | .clbit c => s!"Clbit(ClbitId({c}))"

/-- One value for every wire of a register. -/
structure PerWire (α : Type) where
  qubits : Array α
  clbits : Array α
  deriving Repr, Inhabited

namespace PerWire

variable {α β : Type}

def replicate (numQubits numClbits : Nat) (a : α) : PerWire α :=
  ⟨Array.replicate numQubits a, Array.replicate numClbits a⟩

/-- The value of a wire, if the register has that wire. -/
def get? (t : PerWire α) : Wire → Option α
  | .qubit q => t.qubits[q]?
  | .clbit c => t.clbits[c]?

def modify (t : PerWire α) (w : Wire) (f : α → α) : PerWire α :=
  match w with
  | .qubit q => { t with qubits := t.qubits.modify q f }
  | .clbit c => { t with clbits := t.clbits.modify c f }

def mapWire (t : PerWire α) (f : Wire → α → β) : PerWire β :=
  ⟨t.qubits.mapIdx fun q a => f (.qubit q) a, t.clbits.mapIdx fun c a => f (.clbit c) a⟩

/-- The wires of the register, qubits first. -/
def wires (t : PerWire α) : List Wire :=
  (List.range t.qubits.size).map .qubit ++ (List.range t.clbits.size).map .clbit

theorem get?_replicate (numQubits numClbits : Nat) (a : α) (w : Wire) :
    (replicate numQubits numClbits a).get? w =
      if w ∈ (replicate numQubits numClbits a).wires then some a else none := by
  cases w <;> simp [replicate, get?, wires, Array.getElem?_replicate]

@[simp] theorem get?_modify (t : PerWire α) (v w : Wire) (f : α → α) :
    (t.modify v f).get? w = if v = w then (t.get? w).map f else t.get? w := by
  cases v <;> cases w <;> simp [modify, get?, Array.getElem?_modify]

@[simp] theorem get?_mapWire (t : PerWire α) (f : Wire → α → β) (w : Wire) :
    (t.mapWire f).get? w = (t.get? w).map (f w) := by
  cases w <;> simp [mapWire, get?]

theorem mem_wires {t : PerWire α} {w : Wire} : w ∈ t.wires ↔ (t.get? w).isSome := by
  cases w <;> simp [wires, get?]

@[simp] theorem wires_modify (t : PerWire α) (v : Wire) (f : α → α) :
    (t.modify v f).wires = t.wires := by
  cases v <;> simp [modify, wires]

@[simp] theorem wires_mapWire (t : PerWire α) (f : Wire → α → β) :
    (t.mapWire f).wires = t.wires := by
  simp [mapWire, wires]

theorem nodup_wires (t : PerWire α) : t.wires.Nodup := by
  unfold wires
  rw [List.nodup_append]
  refine ⟨?_, ?_, ?_⟩
  · rw [List.nodup_iff_pairwise_ne, List.pairwise_map]
    exact List.nodup_range.imp fun h e => h (Wire.qubit.inj e)
  · rw [List.nodup_iff_pairwise_ne, List.pairwise_map]
    exact List.nodup_range.imp fun h e => h (Wire.clbit.inj e)
  · intro v hv w hw
    obtain ⟨q, -, rfl⟩ := List.mem_map.1 hv
    obtain ⟨c, -, rfl⟩ := List.mem_map.1 hw
    exact fun h => nomatch h

end PerWire

end QuantumCompiler
