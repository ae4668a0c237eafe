import Mathlib
import QuantumCompiler.Json.Token
import QuantumCompiler.Json.Writer

/-!
# Tokens of written JSON

Every numeral and every quoted text that is written is one token, and that token is the value it was
written from. A numeral has no mark at its end, so it is read back before a comma, a closing bracket or
brace, or the end of the text.
-/
namespace QuantumCompiler.Json

/-! ## Numerals -/

/-- A comma or what closes an array or object comes next, or nothing. -/
def Ends (rest : List Char) : Prop := ∀ c ∈ rest.head?, c = ',' ∨ c = ']' ∨ c = '\x7d'

theorem digits?_append {ds rest : List Char} (hne : ds ≠ []) (hds : ∀ c ∈ ds, c.isDigit = true)
    (hrest : ∀ c ∈ rest.head?, c.isDigit = false) : digits? (ds ++ rest) = some (ds, rest) := by
  have hstop : rest.takeWhile Char.isDigit = [] ∧ rest.dropWhile Char.isDigit = rest := by
    cases rest with
    | nil => exact ⟨rfl, rfl⟩
    | cons c rest =>
      have hc := hrest c rfl
      simp [hc]
  rw [digits?, List.takeWhile_append_of_pos hds, List.dropWhile_append_of_pos hds, hstop.1, hstop.2,
    List.append_nil]
  cases ds with
  | nil => exact absurd rfl hne
  | cons d ds => rfl

theorem digits?_toDigits (n : Nat) {rest : List Char} (hrest : ∀ c ∈ rest.head?, c.isDigit = false) :
    digits? (Nat.toDigits 10 n ++ rest) = some (Nat.toDigits 10 n, rest) :=
  digits?_append Nat.toDigits_ne_nil
    (fun _ hc => Nat.isDigit_of_mem_toDigits (by decide) (by decide) hc) hrest

theorem digitsValue_toDigits (n : Nat) : digitsValue (Nat.toDigits 10 n) = n :=
  Nat.ofDigitChars_ten_toDigits

/-- A positive number is not written with a zero in front. -/
theorem head?_toDigits {n : Nat} (hn : 0 < n) : (Nat.toDigits 10 n).head? ≠ some '0' := by
  induction n using Nat.strongRecOn with
  | ind n ih =>
    by_cases hlt : n < 10
    · rw [Nat.toDigits_of_lt_base hlt]
      interval_cases n <;> decide
    · rw [Nat.toDigits_of_base_le (by decide) (Nat.not_lt.mp hlt),
        List.head?_append_of_ne_nil _ Nat.toDigits_ne_nil]
      exact ih (n / 10) (by omega) (by omega)

theorem whole?_toDigits (n : Nat) {rest : List Char} (hrest : ∀ c ∈ rest.head?, c.isDigit = false) :
    whole? (Nat.toDigits 10 n ++ rest) = some (Nat.toDigits 10 n, rest) := by
  rcases Nat.eq_zero_or_pos n with rfl | hn
  · rfl
  · rw [← digits?_toDigits n hrest, whole?]
    intro tail htail
    have hhead := congrArg List.head? htail
    rw [List.head?_append_of_ne_nil _ Nat.toDigits_ne_nil] at hhead
    exact head?_toDigits hn hhead

/-- What ends a numeral continues no part of it. -/
theorem Ends.continues {rest : List Char} (h : Ends rest) :
    ∀ c ∈ rest.head?, c.isDigit = false ∧ c ≠ '.' ∧ c ≠ 'e' ∧ c ≠ 'E' := by
  intro c hc
  rcases h c hc with rfl | rfl | rfl <;> decide

theorem digit_of_fractionChars (n : Numeral) : ∀ c ∈ n.fractionChars, c.isDigit = true := by
  intro c hc
  rcases List.mem_append.mp hc with hc | hc
  · rw [List.eq_of_mem_replicate hc]
    rfl
  · exact Nat.isDigit_of_mem_toDigits (by decide) (by decide) hc

/-- The part behind the point is padded to its places. -/
theorem length_fractionChars {n : Numeral} (h : n.places ≠ 0) : n.fractionChars.length = n.places := by
  have hle : (Nat.toDigits 10 (n.digits % Nat.pow 10 n.places)).length ≤ n.places :=
    (Nat.length_toDigits_le_iff (by decide) (Nat.pos_of_ne_zero h)).mpr
      (Nat.mod_lt _ (Nat.pow_pos (by decide)))
  rw [Numeral.fractionChars, List.length_append, List.length_replicate]
  omega

/-- The digits behind the point. -/
theorem length_pointChars (n : Numeral) : (n.pointChars.drop 1).length = n.places := by
  rw [Numeral.pointChars]
  split
  case isTrue h => exact h.symm
  case isFalse h => exact length_fractionChars h

theorem fraction?_pointChars (n : Numeral) {rest : List Char}
    (hrest : ∀ c ∈ rest.head?, c.isDigit = false ∧ c ≠ '.') :
    fraction? (n.pointChars ++ rest) = some (n.pointChars.drop 1, rest) := by
  rw [Numeral.pointChars]
  split
  case isTrue h =>
    rw [List.nil_append, fraction?]
    · rfl
    · rintro tail rfl
      exact (hrest '.' rfl).2 rfl
  case isFalse h =>
    refine digits?_append ?_ (digit_of_fractionChars n) fun c hc => (hrest c hc).1
    rw [← List.length_pos_iff, length_fractionChars h]
    exact Nat.pos_of_ne_zero h

/-- The digits on both sides of the point are all of them. -/
theorem digitsValue_append_pointChars (n : Numeral) :
    digitsValue (Nat.toDigits 10 (n.digits / Nat.pow 10 n.places) ++ n.pointChars.drop 1) = n.digits := by
  have hwhole : digitsValue (Nat.toDigits 10 (n.digits / Nat.pow 10 n.places) ++ n.pointChars.drop 1) =
      10 ^ n.places * (n.digits / 10 ^ n.places) + Nat.ofDigitChars 10 (n.pointChars.drop 1) 0 := by
    rw [← length_pointChars n, ← Nat.ofDigitChars_eq_ofDigitChars_zero, length_pointChars]
    exact (Nat.ofDigitChars_append 0).trans
      (congrArg (Nat.ofDigitChars 10 _) Nat.ofDigitChars_ten_toDigits)
  have hpoint : Nat.ofDigitChars 10 (n.pointChars.drop 1) 0 = n.digits % 10 ^ n.places := by
    rw [Numeral.pointChars]
    split
    case isTrue h => rw [h, pow_zero, Nat.mod_one]; rfl
    case isFalse h =>
      rw [List.drop_one, List.tail_cons, Numeral.fractionChars, Nat.ofDigitChars_append,
        Nat.ofDigitChars_replicate_zero, mul_zero, Nat.ofDigitChars_ten_toDigits]
      rfl
  rw [hwhole, hpoint, Nat.div_add_mod]

theorem exponent?_exponentChars (n : Numeral) {rest : List Char} (hrest : Ends rest) :
    exponent? (n.exponentChars ++ rest) = some (n.exponent, rest) := by
  rw [Numeral.exponentChars]
  cases n.exponent with
  | none =>
    cases rest with
    | nil => rfl
    | cons c rest =>
      obtain ⟨-, -, he, hE⟩ := hrest.continues c rfl
      simp [exponent?, he, hE]
  | some e =>
    have hdigits := digits?_toDigits e.natAbs fun c hc => (hrest.continues c hc).1
    by_cases he : e < 0
    · simp [exponent?, exponentDigits?, he, hdigits, digitsValue_toDigits, abs_of_neg he]
    · simp [exponent?, exponentDigits?, he, hdigits, digitsValue_toDigits, abs_of_nonneg (not_lt.mp he)]

/-- What comes after the digits in front of the point continues them no further. -/
theorem exponentChars_continues (n : Numeral) {rest : List Char} (hrest : Ends rest) :
    ∀ c ∈ (n.exponentChars ++ rest).head?, c.isDigit = false ∧ c ≠ '.' := by
  rw [Numeral.exponentChars]
  cases n.exponent with
  | none => exact fun c hc => ⟨(hrest.continues c hc).1, (hrest.continues c hc).2.1⟩
  | some e =>
    rintro c ⟨⟩
    decide

theorem pointChars_continues (n : Numeral) {rest : List Char} (hrest : Ends rest) :
    ∀ c ∈ (n.pointChars ++ (n.exponentChars ++ rest)).head?, c.isDigit = false := by
  rw [Numeral.pointChars]
  split
  · exact fun c hc => (exponentChars_continues n hrest c hc).1
  · rintro c ⟨⟩
    decide

theorem unsigned?_chars (n : Numeral) {rest : List Char} (hrest : Ends rest) :
    unsigned? n.negative (Nat.toDigits 10 (n.digits / Nat.pow 10 n.places) ++
      (n.pointChars ++ (n.exponentChars ++ rest))) = some (n, rest) := by
  simp only [unsigned?, whole?_toDigits _ (pointChars_continues n hrest),
    fraction?_pointChars n (exponentChars_continues n hrest), exponent?_exponentChars n hrest,
    Option.bind_eq_bind, Option.bind_some, digitsValue_append_pointChars, length_pointChars]
  rfl

/-! ## Quoted texts -/

theorem hexDigit?_hexChar {n : Nat} (h : n < 16) : hexDigit? (hexChar n) = some n := by
  have hall : ∀ n < 16, hexDigit? (hexChar n) = some n := by decide
  exact hall n h

/-- The text at the front of a quoted one is one piece, and that piece is the character. -/
def IsPiece (text : List Char) (c : Char) : Prop :=
  ∃ p, (∀ rest, quoted? (text ++ rest) = (quoted? rest).map fun (ps, rest) => (p :: ps, rest)) ∧
    ∀ ps, Piece.assemble (p :: ps) = (Piece.assemble ps).map (c :: ·)

theorem isPiece_escape {e c : Char} (h : escape? e = some c) : IsPiece ['\\', e] c := by
  refine ⟨.char c, fun rest => ?_, fun _ => rfl⟩
  have hu : e ≠ 'u' := by
    rintro rfl
    cases h
  show quoted? ('\\' :: e :: rest) = _
  rw [quoted?]
  · simp only [h, Option.bind_eq_bind, Option.bind_some]
    cases quoted? rest <;> rfl
  · rintro a b c d rest rfl -
    exact hu rfl

theorem isPiece_unit {c : Char} (h : c.toNat < 0x20) :
    IsPiece ['\\', 'u', '0', '0', hexChar (c.toNat / 16), hexChar (c.toNat % 16)] c := by
  have hhigh : hexDigit? (hexChar (c.toNat / 16)) = some (c.toNat / 16) := hexDigit?_hexChar (by omega)
  have hlow : hexDigit? (hexChar (c.toNat % 16)) = some (c.toNat % 16) := hexDigit?_hexChar (by omega)
  have hzero : hexDigit? '0' = some 0 := rfl
  have hunit : c.toNat / 16 * 16 + c.toNat % 16 = c.toNat := by omega
  have hbelow : c.toNat < 0xD800 := by omega
  refine ⟨.unit c.toNat, fun rest => ?_, fun ps => ?_⟩
  · show quoted? ('\\' :: 'u' :: '0' :: '0' :: hexChar (c.toNat / 16) :: hexChar (c.toNat % 16) :: rest) = _
    rw [quoted?]
    simp only [hhigh, hlow, hzero, Option.bind_eq_bind, Option.bind_some, zero_mul, zero_add, hunit]
    cases quoted? rest <;> rfl
  · rw [Piece.assemble.eq_def]
    simp [hbelow]

theorem isPiece_self {c : Char} (hquote : c ≠ '"') (hslash : c ≠ '\\') (h : ¬ c.toNat < 0x20) :
    IsPiece [c] c := by
  refine ⟨.char c, fun rest => ?_, fun _ => rfl⟩
  show quoted? (c :: rest) = _
  rw [quoted?]
  · rw [decide_eq_false h, Bool.false_or, if_neg (fun h => hslash (eq_of_beq h))]
    cases quoted? rest <;> rfl
  · exact fun h' => hquote h'
  · rintro a b c' d rest' rfl -
    exact hslash rfl
  · rintro c' rest' rfl -
    exact hslash rfl

/-- A character is written as one piece. -/
theorem isPiece_escaped (c : Char) : IsPiece (escaped c) c := by
  unfold escaped
  split_ifs with hquote hslash hb hf hn hr ht hcontrol
  · rw [eq_of_beq hquote]
    exact isPiece_escape rfl
  · rw [eq_of_beq hslash]
    exact isPiece_escape rfl
  · rw [eq_of_beq hb]
    exact isPiece_escape rfl
  · rw [eq_of_beq hf]
    exact isPiece_escape rfl
  · rw [eq_of_beq hn]
    exact isPiece_escape rfl
  · rw [eq_of_beq hr]
    exact isPiece_escape rfl
  · rw [eq_of_beq ht]
    exact isPiece_escape rfl
  · exact isPiece_unit hcontrol
  · exact isPiece_self (fun h => hquote (beq_of_eq h)) (fun h => hslash (beq_of_eq h)) hcontrol

/-- A quoted text is read up to its closing quote. -/
theorem exists_pieces (cs rest : List Char) : ∃ ps,
    quoted? (cs.flatMap escaped ++ '"' :: rest) = some (ps, rest) ∧ Piece.assemble ps = some cs := by
  induction cs with
  | nil => exact ⟨[], by simp [quoted?], rfl⟩
  | cons c cs ih =>
    obtain ⟨ps, hps, hcs⟩ := ih
    obtain ⟨p, hp, hc⟩ := isPiece_escaped c
    refine ⟨p :: ps, ?_, ?_⟩
    · rw [List.flatMap_cons, List.append_assoc, hp, hps, Option.map_some]
    · rw [hc, hcs, Option.map_some]

/-! ## Tokens -/

/-- The text is one token, whatever it is that follows. -/
structure Spells (text rest : List Char) (t : Token) : Prop where
  token : token? (text ++ rest) = some (t, rest)
  start : ∃ c ∈ text.head?, isBlank c = false

theorem spells_quotedChars (s : String) (rest : List Char) :
    Spells (quotedChars s) rest (.scalar (.string s)) := by
  obtain ⟨ps, hps, hs⟩ := exists_pieces s.toList rest
  refine ⟨?_, '"', rfl, rfl⟩
  have hsplit : quotedChars s ++ rest = '"' :: (s.toList.flatMap escaped ++ '"' :: rest) := by
    simp [quotedChars]
  rw [hsplit, token?, hps]
  simp [hs]

theorem isBlank_digit {c : Char} (hc : c.isDigit = true) : isBlank c = false := by
  rw [← Bool.not_eq_true]
  intro hblank
  simp only [isBlank, Bool.or_eq_true, beq_iff_eq] at hblank
  rcases hblank with ((rfl | rfl) | rfl) | rfl <;> exact absurd hc (by decide)

/-- No other token starts with a digit than a numeral without a sign. -/
theorem token?_digit {c : Char} (hc : c.isDigit = true) (cs : List Char) :
    token? (c :: cs) = (unsigned? false (c :: cs)).map fun (n, rest) => (.scalar (.number n), rest) := by
  rw [token?.eq_def]
  split
  case h_12 => cases unsigned? false (c :: cs) <;> rfl
  all_goals
    rename_i hcs
    cases hcs
    exact absurd hc (by decide)

theorem spells_numeral (n : Numeral) {rest : List Char} (hrest : Ends rest) :
    Spells n.chars rest (.scalar (.number n)) := by
  have hread := unsigned?_chars n hrest
  cases hn : n.negative
  case true =>
    refine ⟨?_, '-', ?_, rfl⟩
    · simp only [Numeral.chars, hn, if_true, List.append_assoc, List.cons_append, List.nil_append]
      rw [token?, ← hn, hread]
      rfl
    · simp [Numeral.chars, hn]
  case false =>
    obtain ⟨c, cs, hcs⟩ := List.exists_cons_of_ne_nil
      (Nat.toDigits_ne_nil (b := 10) (n := n.digits / Nat.pow 10 n.places))
    have hc : c.isDigit = true :=
      Nat.isDigit_of_mem_toDigits (by decide) (by decide) (hcs ▸ List.mem_cons_self)
    refine ⟨?_, c, ?_, isBlank_digit hc⟩
    · rw [hn, hcs] at hread
      simp only [Numeral.chars, hn, hcs, Bool.false_eq_true, if_false, List.append_assoc, List.cons_append,
        List.nil_append] at hread ⊢
      rw [token?_digit hc, hread]
      rfl
    · rw [Numeral.chars, hn, hcs]
      rfl

/-- The tokens of a text, with as much fuel as it has characters. -/
def Lexes (cs : List Char) (ts : List Token) : Prop :=
  ∀ fuel, cs.length ≤ fuel → tokensWithin fuel cs = some ts

theorem Lexes.nil : Lexes [] [] := by
  intro fuel _
  cases fuel <;> rfl

/-- One more token in front. -/
theorem Lexes.cons (text : List Char) {rest : List Char} {t : Token} {ts : List Token}
    (ht : Spells text rest t) (h : Lexes rest ts) : Lexes (text ++ rest) (t :: ts) := by
  intro fuel hfuel
  obtain ⟨c, hc, hblank⟩ := ht.start
  obtain ⟨cs, rfl⟩ : ∃ cs, text = c :: cs := List.head?_eq_some_iff.mp hc
  obtain ⟨fuel, rfl⟩ : ∃ n, fuel = n + 1 := Nat.exists_eq_succ_of_ne_zero (by simp at hfuel; omega)
  have htoken := ht.token
  have hts := h fuel (by simp at hfuel; omega)
  simp only [List.cons_append] at htoken ⊢
  rw [tokensWithin, List.dropWhile_cons_of_neg (by simp [hblank])]
  simp only [htoken, hts, Option.bind_eq_bind, Option.bind_some]
  rfl

end QuantumCompiler.Json
