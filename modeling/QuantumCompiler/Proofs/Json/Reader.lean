import QuantumCompiler.Json.Reader
import QuantumCompiler.Proofs.Json.Token

/-!
# Written JSON is read back

`read?_write`: every JSON value is read back from its written form. The written form is the tokens of the
value, and a value stands at the front of its tokens whatever follows them.
-/
namespace QuantumCompiler.Json

/-! ## The tokens of a value -/

mutual

/-- The tokens of the written form. -/
def tokens : Json → List Token
  | .null => [.scalar .null]
  | .bool b => [.scalar (.bool b)]
  | .number n => [.scalar (.number n)]
  | .string s => [.scalar (.string s)]
  | .halfPair => [.scalar .halfPair]
  | .array [] => [.openBracket, .closeBracket]
  | .array (v :: vs) => .openBracket :: tokens v ++ itemTokens vs ++ [.closeBracket]
  | .object [] => [.openBrace, .closeBrace]
  | .object (f :: fs) => .openBrace :: fieldTokens f ++ fieldsTokens fs ++ [.closeBrace]

/-- The tokens after the first value of an array. -/
def itemTokens : List Json → List Token
  | [] => []
  | v :: vs => .comma :: tokens v ++ itemTokens vs

/-- The tokens after the first field of an object. -/
def fieldsTokens : List (String × Json) → List Token
  | [] => []
  | f :: fs => .comma :: fieldTokens f ++ fieldsTokens fs

def fieldTokens : String × Json → List Token
  | (name, v) => .scalar (.string name) :: .colon :: tokens v

end

/-- What holds of a value if it holds of all that is inside, holds of every value. -/
@[elab_as_elim]
theorem induction {P : Json → Prop} (null : P .null) (bool : ∀ b, P (.bool b))
    (number : ∀ n, P (.number n)) (string : ∀ s, P (.string s)) (halfPair : P .halfPair)
    (array : ∀ items, (∀ v ∈ items, P v) → P (.array items))
    (object : ∀ fields, (∀ f ∈ fields, P f.2) → P (.object fields)) (j : Json) : P j :=
  @Json.rec P (fun vs => ∀ v ∈ vs, P v) (fun fs => ∀ f ∈ fs, P f.2) (fun f => P f.2) null bool number
    string halfPair array object nofun (fun _ _ hv hvs => List.forall_mem_cons.mpr ⟨hv, hvs⟩) nofun
    (fun _ _ hf hfs => List.forall_mem_cons.mpr ⟨hf, hfs⟩) (fun _ _ h => h) j

/-! ## The written form is the tokens -/

section Lexing

variable {rest : List Char} {ts : List Token}

/-- The characters of a value are its tokens, before anything that ends a value. -/
def LexesBack (j : Json) : Prop := ∀ rest ts, Ends rest → Lexes rest ts →
  Lexes (j.chars ++ rest) (j.tokens ++ ts)

theorem ends_itemChars (vs : List Json) (h : Ends rest) : Ends (itemChars vs ++ rest) := by
  cases vs with
  | nil => exact h
  | cons v vs =>
    rintro c ⟨⟩
    exact .inl rfl

theorem ends_fieldsChars (fs : List (String × Json)) (h : Ends rest) : Ends (fieldsChars fs ++ rest) := by
  cases fs with
  | nil => exact h
  | cons f fs =>
    rintro c ⟨⟩
    exact .inl rfl

theorem lexes_itemChars {vs : List Json} (hvs : ∀ v ∈ vs, LexesBack v) (hrest : Ends rest)
    (h : Lexes rest ts) : Lexes (itemChars vs ++ rest) (itemTokens vs ++ ts) := by
  induction vs with
  | nil => exact h
  | cons v vs ih =>
    obtain ⟨hv, hvs⟩ := List.forall_mem_cons.mp hvs
    have htail := hv _ _ (ends_itemChars vs hrest) (ih hvs)
    simp only [itemChars, itemTokens, List.cons_append, List.append_assoc]
    exact Lexes.cons [','] ⟨rfl, ',', rfl, rfl⟩ htail

theorem lexes_fieldChars {f : String × Json} (hf : LexesBack f.2) (hrest : Ends rest) (h : Lexes rest ts) :
    Lexes (fieldChars f ++ rest) (fieldTokens f ++ ts) := by
  obtain ⟨name, v⟩ := f
  have hcolon : Lexes (':' :: (v.chars ++ rest)) (.colon :: (v.tokens ++ ts)) :=
    Lexes.cons [':'] ⟨rfl, ':', rfl, rfl⟩ (hf _ _ hrest h)
  simp only [fieldChars, fieldTokens, List.cons_append, List.append_assoc]
  exact Lexes.cons _ (spells_quotedChars name _) hcolon

theorem lexes_fieldsChars {fs : List (String × Json)} (hfs : ∀ f ∈ fs, LexesBack f.2) (hrest : Ends rest)
    (h : Lexes rest ts) : Lexes (fieldsChars fs ++ rest) (fieldsTokens fs ++ ts) := by
  induction fs with
  | nil => exact h
  | cons f fs ih =>
    obtain ⟨hf, hfs⟩ := List.forall_mem_cons.mp hfs
    have htail := lexes_fieldChars hf (ends_fieldsChars fs hrest) (ih hfs)
    simp only [fieldsChars, fieldsTokens, List.cons_append, List.append_assoc]
    exact Lexes.cons [','] ⟨rfl, ',', rfl, rfl⟩ htail

theorem lexesBack (j : Json) : LexesBack j := by
  intro rest ts hrest h
  induction j using induction generalizing rest ts with
  | null => exact Lexes.cons ['n', 'u', 'l', 'l'] ⟨rfl, 'n', rfl, rfl⟩ h
  | bool b =>
    cases b
    · exact Lexes.cons ['f', 'a', 'l', 's', 'e'] ⟨rfl, 'f', rfl, rfl⟩ h
    · exact Lexes.cons ['t', 'r', 'u', 'e'] ⟨rfl, 't', rfl, rfl⟩ h
  | number n => exact Lexes.cons _ (spells_numeral n hrest) h
  | string s => exact Lexes.cons _ (spells_quotedChars s rest) h
  | halfPair => exact Lexes.cons (chars .halfPair) ⟨rfl, '"', rfl, rfl⟩ h
  | array items ih =>
    have hclose : Lexes (']' :: rest) (.closeBracket :: ts) := Lexes.cons [']'] ⟨rfl, ']', rfl, rfl⟩ h
    have hends : Ends (']' :: rest) := by
      rintro c ⟨⟩
      exact .inr (.inl rfl)
    cases items with
    | nil => exact Lexes.cons ['['] ⟨rfl, '[', rfl, rfl⟩ hclose
    | cons v vs =>
      obtain ⟨hv, hvs⟩ := List.forall_mem_cons.mp ih
      have hitems := hv _ _ (ends_itemChars vs hends) (lexes_itemChars hvs hends hclose)
      simp only [chars, tokens, List.cons_append, List.append_assoc, List.nil_append]
      exact Lexes.cons ['['] ⟨rfl, '[', rfl, rfl⟩ hitems
  | object fields ih =>
    have hclose : Lexes ('\x7d' :: rest) (.closeBrace :: ts) :=
      Lexes.cons ['\x7d'] ⟨rfl, '\x7d', rfl, rfl⟩ h
    have hends : Ends ('\x7d' :: rest) := by
      rintro c ⟨⟩
      exact .inr (.inr rfl)
    cases fields with
    | nil => exact Lexes.cons ['\x7b'] ⟨rfl, '\x7b', rfl, rfl⟩ hclose
    | cons f fs =>
      obtain ⟨hf, hfs⟩ := List.forall_mem_cons.mp ih
      have hfields := lexes_fieldChars hf (ends_fieldsChars fs hends) (lexes_fieldsChars hfs hends hclose)
      simp only [chars, tokens, List.cons_append, List.append_assoc, List.nil_append]
      exact Lexes.cons ['\x7b'] ⟨rfl, '\x7b', rfl, rfl⟩ hfields

theorem tokens?_chars (j : Json) : tokens? j.chars = some j.tokens := by
  have h := lexesBack j [] [] nofun Lexes.nil
  rw [List.append_nil, List.append_nil] at h
  exact h _ le_rfl

end Lexing

/-! ## The tokens are the value -/

section Parsing

/-- The value stands at the front of its tokens. -/
def ParsesBack (j : Json) : Prop := ∀ fuel, 2 * j.tokens.length ≤ fuel → ∀ rest,
  value? fuel (j.tokens ++ rest) = some (j, rest)

/-- No value starts with what closes an array. -/
theorem exists_tokens (j : Json) : ∃ t ts, j.tokens = t :: ts ∧ t ≠ .closeBracket := by
  cases j with
  | array items => cases items <;> exact ⟨_, _, rfl, nofun⟩
  | object fields => cases fields <;> exact ⟨_, _, rfl, nofun⟩
  | _ => exact ⟨_, _, rfl, nofun⟩

theorem value?_openBracket (v : Json) (fuel : Nat) (ts : List Token) :
    value? (fuel + 1) (.openBracket :: (v.tokens ++ ts)) =
      (items? fuel (v.tokens ++ ts)).map fun (vs, rest) => (.array vs, rest) := by
  obtain ⟨t, us, hv, ht⟩ := exists_tokens v
  rw [hv, List.cons_append, value?]
  rintro rest ⟨⟩
  exact ht rfl

theorem items?_tokens {v : Json} {vs : List Json} (hv : ParsesBack v) (hvs : ∀ v ∈ vs, ParsesBack v)
    {fuel : Nat} (hfuel : 2 * (v.tokens.length + (itemTokens vs).length) < fuel) (rest : List Token) :
    items? fuel (v.tokens ++ (itemTokens vs ++ .closeBracket :: rest)) = some (v :: vs, rest) := by
  induction vs generalizing v fuel with
  | nil =>
    obtain ⟨fuel, rfl⟩ := Nat.exists_eq_add_one_of_ne_zero (Nat.ne_zero_of_lt hfuel)
    rw [items?, hv fuel (by omega)]
    rfl
  | cons w ws ih =>
    obtain ⟨fuel, rfl⟩ := Nat.exists_eq_add_one_of_ne_zero (Nat.ne_zero_of_lt hfuel)
    obtain ⟨hw, hws⟩ := List.forall_mem_cons.mp hvs
    simp only [itemTokens, List.cons_append, List.append_assoc, List.length_cons, List.length_append] at hfuel ⊢
    have htail : 2 * (w.tokens.length + (itemTokens ws).length) < fuel := by omega
    rw [items?, hv fuel (by omega)]
    simp only [ih hw hws htail, Option.map_some]

theorem fields?_tokens {name : String} {v : Json} {fs : List (String × Json)} (hv : ParsesBack v)
    (hfs : ∀ f ∈ fs, ParsesBack f.2) {fuel : Nat}
    (hfuel : 2 * (v.tokens.length + (fieldsTokens fs).length) < fuel) (rest : List Token) :
    fields? fuel (.scalar (.string name) :: .colon :: (v.tokens ++ (fieldsTokens fs ++ .closeBrace :: rest))) =
      some ((name, v) :: fs, rest) := by
  induction fs generalizing name v fuel with
  | nil =>
    obtain ⟨fuel, rfl⟩ := Nat.exists_eq_add_one_of_ne_zero (Nat.ne_zero_of_lt hfuel)
    rw [fields?, hv fuel (by omega)]
    rfl
  | cons g gs ih =>
    obtain ⟨fuel, rfl⟩ := Nat.exists_eq_add_one_of_ne_zero (Nat.ne_zero_of_lt hfuel)
    obtain ⟨next, w⟩ := g
    obtain ⟨hw, hgs⟩ : ParsesBack w ∧ ∀ f ∈ gs, ParsesBack f.2 := List.forall_mem_cons.mp hfs
    simp only [fieldTokens, fieldsTokens, List.cons_append, List.append_assoc, List.length_cons,
      List.length_append] at hfuel ⊢
    have htail : 2 * (w.tokens.length + (fieldsTokens gs).length) < fuel := by omega
    rw [fields?, hv fuel (by omega)]
    simp only [ih hw hgs htail, Option.map_some]

/-- A value has a token, so the fuel is not used up in front of it. -/
theorem parsesBack_of_succ {j : Json} (h : ∀ fuel, 2 * j.tokens.length ≤ fuel + 1 → ∀ rest,
    value? (fuel + 1) (j.tokens ++ rest) = some (j, rest)) : ParsesBack j := by
  intro fuel hfuel rest
  obtain ⟨t, ts, hj, -⟩ := exists_tokens j
  obtain ⟨fuel, rfl⟩ : ∃ n, fuel = n + 1 := by
    rw [hj, List.length_cons] at hfuel
    exact Nat.exists_eq_add_one_of_ne_zero (by omega)
  exact h fuel hfuel rest

theorem parsesBack (j : Json) : ParsesBack j := by
  induction j using induction with
  | array items ih =>
    refine parsesBack_of_succ fun fuel hfuel rest => ?_
    cases items with
    | nil => rfl
    | cons v vs =>
      obtain ⟨hv, hvs⟩ := List.forall_mem_cons.mp ih
      simp only [tokens, List.cons_append, List.append_assoc, List.nil_append, List.length_cons,
        List.length_append, List.length_nil] at hfuel ⊢
      rw [value?_openBracket, items?_tokens hv hvs (by omega), Option.map_some]
  | object fields ih =>
    refine parsesBack_of_succ fun fuel hfuel rest => ?_
    cases fields with
    | nil => rfl
    | cons f fs =>
      obtain ⟨name, v⟩ := f
      obtain ⟨hv, hfs⟩ : ParsesBack v ∧ ∀ f ∈ fs, ParsesBack f.2 := List.forall_mem_cons.mp ih
      simp only [tokens, fieldTokens, List.cons_append, List.append_assoc, List.nil_append, List.length_cons,
        List.length_append, List.length_nil] at hfuel ⊢
      rw [value?, fields?_tokens hv hfs (by omega), Option.map_some]
      exact nofun
  | _ => exact parsesBack_of_succ fun _ _ _ => rfl

end Parsing

/-- Every value is read back from its written form. -/
theorem read?_write (j : Json) : read? j.write = some j := by
  have hparse := parsesBack j (2 * j.tokens.length) le_rfl []
  rw [List.append_nil] at hparse
  rw [read?, write, String.toList_ofList, tokens?_chars]
  simp only [Option.bind_eq_bind, Option.bind_some, hparse]

end QuantumCompiler.Json
