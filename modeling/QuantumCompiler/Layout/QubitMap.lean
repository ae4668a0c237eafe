import QuantumCompiler.Wire

/-!
# Maps between qubits

A finite map from qubits to qubits, as a list of entries in ascending order of their keys. No key
occurs twice, and maps that look up alike are equal.
-/

namespace QuantumCompiler

/-- A finite map from qubits to qubits. -/
structure QubitMap where
  /-- The keys with their values. -/
  entries : List (Qubit × Qubit)
  ascending : entries.Pairwise (·.1 < ·.1)
  deriving DecidableEq, Repr

namespace QubitMap

def empty : QubitMap := ⟨[], .nil⟩

instance : Inhabited QubitMap := ⟨empty⟩

def get? (m : QubitMap) (key : Qubit) : Option Qubit :=
  (m.entries.find? (·.1 == key)).map (·.2)

/-- Stores a value under a key, in place of the one that was there. -/
def insert (m : QubitMap) (key value : Qubit) : QubitMap where
  entries := m.entries.filter (·.1 < key) ++ (key, value) :: m.entries.filter (key < ·.1)
  ascending := by
    rw [List.pairwise_append, List.pairwise_cons]
    refine ⟨m.ascending.filter _, ⟨?_, m.ascending.filter _⟩, ?_⟩
    · intro x hx
      simpa using (List.mem_filter.mp hx).2
    · intro x hx y hy
      have hxk : x.1 < key := by simpa using (List.mem_filter.mp hx).2
      rcases List.mem_cons.mp hy with rfl | hy
      · exact hxk
      · have hky : key < y.1 := by simpa using (List.mem_filter.mp hy).2
        exact Nat.lt_trans hxk hky

/-- Forgets a key with its value. -/
def erase (m : QubitMap) (key : Qubit) : QubitMap :=
  ⟨m.entries.filter (·.1 ≠ key), m.ascending.filter _⟩

/-- Erases a key, if there is one, unless it is the one that stays. -/
def forget (m : QubitMap) (key : Option Qubit) (stays : Qubit) : QubitMap :=
  match key with
  | some k => if k = stays then m else m.erase k
  | none => m

def size (m : QubitMap) : Nat := m.entries.length

end QubitMap

end QuantumCompiler
