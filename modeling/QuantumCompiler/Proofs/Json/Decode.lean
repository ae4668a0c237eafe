import QuantumCompiler.Json.Decode
import QuantumCompiler.Proofs.Json.Reader

/-!
# Decoding written values

Numbers and lists are decoded from the values that stand for them. A double is one that its written form
gives back; what is nested in a value is nested less deep than the value.
-/
namespace QuantumCompiler.Json

/-! ## Nesting -/

mutual

/-- How many arrays and objects are open inside each other at most. -/
def depth : Json → Nat
  | .null => 0
  | .bool _ => 0
  | .number _ => 0
  | .string _ => 0
  | .halfPair => 0
  | .array items => itemsDepth items + 1
  | .object fields => fieldsDepth fields + 1

/-- The depth of the deepest of some values. -/
def itemsDepth : List Json → Nat
  | [] => 0
  | v :: vs => max (depth v) (itemsDepth vs)

/-- The depth of the deepest of some fields. -/
def fieldsDepth : List (String × Json) → Nat
  | [] => 0
  | f :: fs => max (fieldDepth f) (fieldsDepth fs)

def fieldDepth : String × Json → Nat
  | (_, v) => depth v

end

theorem depth_lt_of_mem_items {v : Json} {items : List Json} (h : v ∈ items) :
    v.depth < (array items).depth := by
  rw [depth, Nat.lt_succ_iff]
  induction items with
  | nil => cases h
  | cons w ws ih =>
    rw [itemsDepth]
    rcases List.mem_cons.mp h with rfl | h
    · exact Nat.le_max_left ..
    · exact (ih h).trans (Nat.le_max_right ..)

theorem depth_lt_of_mem_fields {name : String} {v : Json} {fields : List (String × Json)}
    (h : (name, v) ∈ fields) : v.depth < (object fields).depth := by
  rw [depth, Nat.lt_succ_iff]
  induction fields with
  | nil => cases h
  | cons f fs ih =>
    rw [fieldsDepth]
    rcases List.mem_cons.mp h with rfl | h
    · exact Nat.le_max_left ..
    · exact (ih h).trans (Nat.le_max_right ..)

/-! ## Values -/

/-- The double is finite and is read back from its written form. -/
def Recovered (x : Float) : Prop := (read? (double x).write).bind double? = some x

instance (x : Float) : Decidable (Recovered x) := inferInstanceAs (Decidable (_ = _))

theorem recovered_iff {x : Float} : Recovered x ↔ (double x).double? = some x := by
  rw [Recovered, read?_write, Option.bind_some]

theorem natUpTo?_nat {n bound : Nat} (h : n ≤ bound) : (nat n).natUpTo? bound = some n := by
  simp [natUpTo?, nat, Numeral.ofNat, Numeral.toNat?, h]

theorem list?_map {α : Type} {write : α → Json} {read : Json → Option α} {xs : List α}
    (h : ∀ x ∈ xs, read (write x) = some x) : list? read (.array (xs.map write)) = some xs := by
  rw [list?]
  induction xs with
  | nil => rfl
  | cons x xs ih =>
    obtain ⟨hx, hxs⟩ := List.forall_mem_cons.mp h
    rw [List.map_cons, List.mapM_cons, hx, ih hxs]
    rfl

end QuantumCompiler.Json
