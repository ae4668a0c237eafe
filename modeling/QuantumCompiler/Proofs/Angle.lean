import QuantumCompiler.Angle
import QuantumCompiler.Proofs.Numeric.Exact

/-!
# What folding leaves of an angle

`Folded a b` says case by case how an angle is simplified: a part that is a number becomes that number,
and a zero term goes away together with its sum. All that is known of simplified angles follows by
induction on it. They have the same value, undefined or not, and the same names whatever the numbers do.
For the value under further names to be the same, zero has to be neutral.
-/
namespace QuantumCompiler.Angle

variable {R : Type}

/-! ## Names and numbers for them -/

section Substitution

variable {a : Angle R} {s t : String → Option R}

theorem substitute_of_none (h : ∀ n ∈ a.names, s n = none) : a.substitute s = a := by
  induction a with
  | const v => rfl
  | pi => rfl
  | symbol name => rw [substitute, h name (by simp [names])]
  | neg a ih => rw [substitute, ih h]
  | add a b iha ihb | sub a b iha ihb | mul a b iha ihb | div a b iha ihb =>
    rw [substitute, iha fun n hn => h n (by simp [names, hn]),
      ihb fun n hn => h n (by simp [names, hn])]

/-- The names without a number stay, in order. -/
theorem names_substitute (a : Angle R) (s : String → Option R) :
    (a.substitute s).names = a.names.filter fun n => (s n).isNone := by
  induction a with
  | const v => rfl
  | pi => rfl
  | symbol name => cases h : s name <;> simp [substitute, names, h]
  | neg a ih => exact ih
  | add a b iha ihb | sub a b iha ihb | mul a b iha ihb | div a b iha ihb =>
    simp [substitute, names, iha, ihb]

/-- Numbers given one after another are numbers given at once. -/
theorem substitute_substitute (a : Angle R) (s t : String → Option R) :
    (a.substitute s).substitute t = a.substitute fun n => (s n).or (t n) := by
  induction a with
  | const v => rfl
  | pi => rfl
  | symbol name => cases h : s name <;> simp [substitute, h]
  | neg a ih => simp [substitute, ih]
  | add a b iha ihb | sub a b iha ihb | mul a b iha ihb | div a b iha ihb =>
    simp [substitute, iha, ihb]

theorem isSymbolic_eq_false : a.isSymbolic = false ↔ a.names = [] := by
  induction a with
  | const v => simp [isSymbolic, names]
  | pi => simp [isSymbolic, names]
  | symbol name => simp [isSymbolic, names]
  | neg a ih => exact ih
  | add a b iha ihb | sub a b iha ihb | mul a b iha ihb | div a b iha ihb =>
    simp [isSymbolic, names, iha, ihb]

theorem mem_insertName {m n : String} {ns : List String} : m ∈ insertName n ns ↔ m = n ∨ m ∈ ns := by
  induction ns with
  | nil => simp [insertName]
  | cons k ns ih =>
    rw [insertName]
    split_ifs with h
    · simp [h]
    · simp
    · simp [ih, or_left_comm]

theorem pairwise_insertName {n : String} {ns : List String} (h : ns.Pairwise (· < ·)) :
    (insertName n ns).Pairwise (· < ·) := by
  induction ns with
  | nil => simp [insertName]
  | cons k ns ih =>
    obtain ⟨hk, hns⟩ := List.pairwise_cons.mp h
    rw [insertName]
    split_ifs with heq hlt
    · exact h
    · exact List.pairwise_cons.mpr ⟨List.forall_mem_cons.mpr ⟨hlt, fun m hm => hlt.trans (hk m hm)⟩, h⟩
    · have hkn : k < n := lt_of_le_of_ne (not_lt.mp hlt) (Ne.symm heq)
      refine List.pairwise_cons.mpr ⟨fun m hm => ?_, ih hns⟩
      rcases mem_insertName.mp hm with rfl | hm
      · exact hkn
      · exact hk m hm

/-- The names of a list, each once and in order. -/
theorem foldl_insertName (xs ns : List String) (h : ns.Pairwise (· < ·)) :
    (xs.foldl (fun ns n => insertName n ns) ns).Pairwise (· < ·) ∧
      ∀ m, m ∈ xs.foldl (fun ns n => insertName n ns) ns ↔ m ∈ xs ∨ m ∈ ns := by
  induction xs generalizing ns with
  | nil => simpa using h
  | cons x xs ih =>
    obtain ⟨hsorted, hmem⟩ := ih (insertName x ns) (pairwise_insertName h)
    refine ⟨hsorted, fun m => ?_⟩
    rw [List.foldl_cons, hmem, mem_insertName, List.mem_cons, or_left_comm, or_assoc]

theorem pairwise_symbols (a : Angle R) : a.symbols.Pairwise (· < ·) :=
  (foldl_insertName a.names [] .nil).1

theorem mem_symbols {n : String} : n ∈ a.symbols ↔ n ∈ a.names := by
  simpa [symbols] using (foldl_insertName a.names [] .nil).2 n

/-- The symbols without a number stay. -/
theorem symbols_substitute (a : Angle R) (s : String → Option R) :
    (a.substitute s).symbols = a.symbols.filter fun n => (s n).isNone := by
  refine (pairwise_symbols _).eq_of_mem_iff ((pairwise_symbols a).filter _) fun n => ?_
  rw [mem_symbols, names_substitute, List.mem_filter, List.mem_filter, mem_symbols]

end Substitution

variable [Scalar R] {a b : Angle R}

/-! ## Values -/

/-- A number has no free names. -/
theorem names_of_value? {v : R} (h : a.value? = some v) : a.names = [] := by
  induction a generalizing v with
  | const v => rfl
  | pi => rfl
  | symbol name => cases h
  | neg a ih =>
    obtain ⟨w, hw, -⟩ := Option.map_eq_some_iff.mp h
    exact ih hw
  | add a b iha ihb | sub a b iha ihb | mul a b iha ihb =>
    obtain ⟨w, hw, h⟩ := Option.bind_eq_some_iff.mp h
    obtain ⟨x, hx, -⟩ := Option.bind_eq_some_iff.mp h
    rw [names, iha hw, ihb hx, List.append_nil]
  | div a b iha ihb =>
    obtain ⟨w, hw, h⟩ := Option.bind_eq_some_iff.mp h
    split at h
    · cases h
    · obtain ⟨x, hx, -⟩ := Option.bind_eq_some_iff.mp h
      rw [names, iha hx, ihb hw, List.append_nil]

theorem substitute_of_value? {v : R} (h : a.value? = some v) (s : String → Option R) :
    a.substitute s = a :=
  substitute_of_none (by simp [names_of_value? h])

theorem value?_add (a b : Angle R) : (add a b).value? = Option.map₂ (· + ·) a.value? b.value? := by
  rw [value?]
  cases a.value? <;> cases b.value? <;> rfl

theorem value?_sub (a b : Angle R) : (sub a b).value? = Option.map₂ (· - ·) a.value? b.value? := by
  rw [value?]
  cases a.value? <;> cases b.value? <;> rfl

theorem isZero_eq_true : a.isZero = true ↔ ∃ z, a.value? = some z ∧ Scalar.eq z 0 = true := by
  rw [isZero]
  cases a.value? <;> simp

/-! ## What is folded -/

/-- How an angle is simplified. -/
inductive Folded : Angle R → Angle R → Prop
  | number {a : Angle R} {v : R} (h : a.value? = some v) : Folded a (const v)
  | symbol (name : String) : Folded (symbol name) (symbol name)
  | neg {a a' : Angle R} (h : (neg a).value? = none) (ha : Folded a a') : Folded (neg a) (neg a')
  | add {a a' b b' : Angle R} (h : (add a b).value? = none) (ha : Folded a a') (hb : Folded b b')
      (hza : a'.isZero = false) (hzb : b'.isZero = false) : Folded (add a b) (add a' b')
  /-- Zero in front of a sum. -/
  | dropLeft {a a' b b' : Angle R} (h : (add a b).value? = none) (ha : Folded a a')
      (hb : Folded b b') (hz : a'.isZero = true) : Folded (add a b) b'
  /-- Zero at the end of a sum. -/
  | dropRight {a a' b b' : Angle R} (h : (add a b).value? = none) (ha : Folded a a')
      (hb : Folded b b') (hz : b'.isZero = true) : Folded (add a b) a'
  | sub {a a' b b' : Angle R} (h : (sub a b).value? = none) (ha : Folded a a') (hb : Folded b b')
      (hz : b'.isZero = false) : Folded (sub a b) (sub a' b')
  /-- Nothing is subtracted. -/
  | dropSubtrahend {a a' b b' : Angle R} (h : (sub a b).value? = none) (ha : Folded a a')
      (hb : Folded b b') (hz : b'.isZero = true) : Folded (sub a b) a'
  | mul {a a' b b' : Angle R} (h : (mul a b).value? = none) (ha : Folded a a') (hb : Folded b b') :
      Folded (mul a b) (mul a' b')
  | div {a a' b b' : Angle R} (h : (div a b).value? = none) (ha : Folded a a') (hb : Folded b b') :
      Folded (div a b) (div a' b')

theorem folded_simplify (a : Angle R) : Folded a a.simplify := by
  induction a with
  | const v => exact .number rfl
  | pi => exact .number rfl
  | symbol name => exact .symbol name
  | neg a ih =>
    rw [simplify]
    cases h : (Angle.neg a).value? with
    | some v => exact .number h
    | none => exact .neg h ih
  | add a b iha ihb =>
    rw [simplify]
    cases h : (Angle.add a b).value? with
    | some v => exact .number h
    | none =>
      dsimp only
      split_ifs with hza hzb
      · exact .dropLeft h iha ihb hza
      · exact .dropRight h iha ihb hzb
      · exact .add h iha ihb (Bool.not_eq_true _ ▸ hza) (Bool.not_eq_true _ ▸ hzb)
  | sub a b iha ihb =>
    rw [simplify]
    cases h : (Angle.sub a b).value? with
    | some v => exact .number h
    | none =>
      dsimp only
      split_ifs with hz
      · exact .dropSubtrahend h iha ihb hz
      · exact .sub h iha ihb (Bool.not_eq_true _ ▸ hz)
  | mul a b iha ihb =>
    rw [simplify]
    cases h : (Angle.mul a b).value? with
    | some v => exact .number h
    | none => exact .mul h iha ihb
  | div a b iha ihb =>
    rw [simplify]
    cases h : (Angle.div a b).value? with
    | some v => exact .number h
    | none => exact .div h iha ihb

namespace Folded

theorem value?_eq (h : Folded a b) : b.value? = a.value? := by
  induction h with
  | number h => exact h.symm
  | symbol name => rfl
  | neg h ha iha => rw [value?, value?, iha]
  | add h ha hb hza hzb iha ihb => rw [value?, value?, iha, ihb]
  | sub h ha hb hz iha ihb => rw [value?, value?, iha, ihb]
  | mul h ha hb iha ihb => rw [value?, value?, iha, ihb]
  | div h ha hb iha ihb => rw [value?, value?, iha, ihb]
  | dropLeft h ha hb hz iha ihb =>
    obtain ⟨z, hz, -⟩ := isZero_eq_true.mp hz
    rw [ihb, h]
    simpa [value?_add, ← iha, hz] using h
  | dropRight h ha hb hz iha ihb =>
    obtain ⟨z, hz, -⟩ := isZero_eq_true.mp hz
    rw [iha, h]
    simpa [value?_add, ← ihb, hz] using h
  | dropSubtrahend h ha hb hz iha ihb =>
    obtain ⟨z, hz, -⟩ := isZero_eq_true.mp hz
    rw [iha, h]
    simpa [value?_sub, ← ihb, hz] using h

theorem names_eq (h : Folded a b) : b.names = a.names := by
  induction h with
  | number h => rw [names_of_value? h, names]
  | symbol name => rfl
  | neg h ha iha => exact iha
  | add h ha hb hza hzb iha ihb => rw [names, names, iha, ihb]
  | sub h ha hb hz iha ihb => rw [names, names, iha, ihb]
  | mul h ha hb iha ihb => rw [names, names, iha, ihb]
  | div h ha hb iha ihb => rw [names, names, iha, ihb]
  | dropLeft h ha hb hz iha ihb =>
    obtain ⟨z, hz, -⟩ := isZero_eq_true.mp hz
    rw [names, ← iha, names_of_value? hz, ihb, List.nil_append]
  | dropRight h ha hb hz iha ihb =>
    obtain ⟨z, hz, -⟩ := isZero_eq_true.mp hz
    rw [names, ← ihb, names_of_value? hz, iha, List.append_nil]
  | dropSubtrahend h ha hb hz iha ihb =>
    obtain ⟨z, hz, -⟩ := isZero_eq_true.mp hz
    rw [names, ← ihb, names_of_value? hz, iha, List.append_nil]

/-- What has been simplified stays as it is. -/
theorem simplify_eq (h : Folded a b) : b.simplify = b := by
  have hvalue := h.value?_eq
  induction h with
  | number h => rfl
  | symbol name => rfl
  | neg h ha iha =>
    rw [simplify, hvalue, h, iha ha.value?_eq]
  | add h ha hb hza hzb iha ihb =>
    rw [simplify, hvalue, h, iha ha.value?_eq, ihb hb.value?_eq]
    simp [hza, hzb]
  | sub h ha hb hz iha ihb =>
    rw [simplify, hvalue, h, iha ha.value?_eq, ihb hb.value?_eq]
    simp [hz]
  | mul h ha hb iha ihb =>
    rw [simplify, hvalue, h, iha ha.value?_eq, ihb hb.value?_eq]
  | div h ha hb iha ihb =>
    rw [simplify, hvalue, h, iha ha.value?_eq, ihb hb.value?_eq]
  | dropLeft h ha hb hz iha ihb => exact ihb hb.value?_eq
  | dropRight h ha hb hz iha ihb => exact iha ha.value?_eq
  | dropSubtrahend h ha hb hz iha ihb => exact iha ha.value?_eq

end Folded

theorem names_simplify (a : Angle R) : a.simplify.names = a.names := (folded_simplify a).names_eq

theorem simplify_simplify (a : Angle R) : a.simplify.simplify = a.simplify :=
  (folded_simplify a).simplify_eq

theorem symbols_simplify (a : Angle R) : a.simplify.symbols = a.symbols :=
  congrArg (List.foldl _ []) (names_simplify a)

/-- Binding leaves the symbols that have no number. -/
theorem symbols_bindAll (a : Angle R) (values : Assignment R) :
    (a.bindAll values).symbols = a.symbols.filter fun n => (values.get? n).isNone :=
  (symbols_simplify _).trans (symbols_substitute a values.get?)

/-- A second binding finds nothing to bind. -/
theorem bindAll_bindAll (a : Angle R) (values : Assignment R) :
    (a.bindAll values).bindAll values = a.bindAll values := by
  have hnone : ∀ n ∈ (a.bindAll values).names, values.get? n = none := by
    intro n hn
    rw [bindAll, names_simplify, names_substitute] at hn
    simpa using (List.mem_filter.mp hn).2
  rw [bindAll, substitute_of_none hnone]
  exact simplify_simplify _

/-! ## Values under further names -/

/-- Zero is neutral. -/
structure ZeroNeutral (R : Type) [Scalar R] : Prop where
  eq_zero : ∀ z : R, Scalar.eq z 0 = true → z = 0
  zero_add : ∀ x : R, 0 + x = x
  add_zero : ∀ x : R, x + 0 = x
  sub_zero : ∀ x : R, x - 0 = x

/-- A zero is zero under any names. -/
theorem ZeroNeutral.value?_of_isZero (hR : ZeroNeutral R) (h : a.isZero = true) (s : String → Option R) :
    (a.substitute s).value? = some 0 := by
  obtain ⟨z, hz, he⟩ := isZero_eq_true.mp h
  rw [substitute_of_value? hz, hz, hR.eq_zero z he]

/-- Leaving zero terms out changes no value. -/
theorem Folded.value?_substitute (hR : ZeroNeutral R) (h : Folded a b) (s : String → Option R) :
    (b.substitute s).value? = (a.substitute s).value? := by
  induction h with
  | number h => rw [substitute_of_value? h, h, substitute, value?]
  | symbol name => rfl
  | neg h ha iha => rw [substitute, substitute, value?, value?, iha]
  | add h ha hb hza hzb iha ihb => rw [substitute, substitute, value?, value?, iha, ihb]
  | sub h ha hb hz iha ihb => rw [substitute, substitute, value?, value?, iha, ihb]
  | mul h ha hb iha ihb => rw [substitute, substitute, value?, value?, iha, ihb]
  | div h ha hb iha ihb => rw [substitute, substitute, value?, value?, iha, ihb]
  | dropLeft h ha hb hz iha ihb =>
    rw [substitute, value?_add, ← iha, hR.value?_of_isZero hz, ← ihb, Option.map₂_coe_left]
    simp [hR.zero_add]
  | dropRight h ha hb hz iha ihb =>
    rw [substitute, value?_add, ← ihb, hR.value?_of_isZero hz, ← iha, Option.map₂_coe_right]
    simp [hR.add_zero]
  | dropSubtrahend h ha hb hz iha ihb =>
    rw [substitute, value?_sub, ← ihb, hR.value?_of_isZero hz, ← iha, Option.map₂_coe_right]
    simp [hR.sub_zero]

section Exact

attribute [local instance] Scalar.real

theorem zeroNeutral_real : ZeroNeutral ℝ where
  eq_zero z h := of_decide_eq_true h
  zero_add x := by rw [Scalar.real_zero]; exact zero_add x
  add_zero x := by rw [Scalar.real_zero]; exact add_zero x
  sub_zero x := by rw [Scalar.real_zero]; exact sub_zero x

/-- Simplifying an angle keeps what it means. Under any numbers for names it has the value that it had,
or none as before; it has the same symbols; and simplifying again changes nothing. Binding leaves exactly
the symbols without a number, and a bound angle has under further numbers the value of the angle under all
of them. -/
theorem simplify_and_bindAll_keep_value (a : Angle ℝ) :
    (∀ s : String → Option ℝ, (a.simplify.substitute s).value? = (a.substitute s).value?) ∧
      a.simplify.symbols = a.symbols ∧ a.simplify.simplify = a.simplify ∧
      ∀ values : Assignment ℝ,
        (a.bindAll values).symbols = a.symbols.filter (fun n => (values.get? n).isNone) ∧
        ∀ t : String → Option ℝ, ((a.bindAll values).substitute t).value? =
          (a.substitute fun n => (values.get? n).or (t n)).value? := by
  refine ⟨(folded_simplify a).value?_substitute zeroNeutral_real, symbols_simplify a,
    simplify_simplify a, fun values => ⟨symbols_bindAll a values, fun t => ?_⟩⟩
  rw [← substitute_substitute]
  exact (folded_simplify _).value?_substitute zeroNeutral_real t

end Exact

end QuantumCompiler.Angle
