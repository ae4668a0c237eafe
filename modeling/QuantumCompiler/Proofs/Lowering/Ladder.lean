import Mathlib
import QuantumCompiler.Lowering.Wide
import QuantumCompiler.Proofs.Lowering.Wide
import QuantumCompiler.Proofs.Numeric.GrayCode

/-!
# What a ladder computes

Run on bits, a ladder shows the parity of every nonempty set of its controls once, on a control in the
set, and leaves the controls as they were. Counting parities of odd sets up and those of even sets down
gives `2ⁿ⁻¹` where all `n` controls are set, and nothing elsewhere. Between two turns one control holds
the parity of the last set and the others hold their own bits; a turn is preceded by one bit flip.
-/
namespace QuantumCompiler

/-! ## Parities of all sets -/

section Parity

variable {x : Qubit → Bool} {s : Finset Qubit} {c : Qubit}

/-- The exclusive or of the bits of a set: whether an odd number of them are set. -/
def parity (x : Qubit → Bool) (s : Finset Qubit) : Bool := decide (Odd {c ∈ s | x c}.card)

theorem parity_empty : parity x ∅ = false := by simp [parity]

theorem parity_insert (h : c ∉ s) : parity x (insert c s) = (parity x s ^^ x c) := by
  rw [parity, parity, Finset.filter_insert]
  cases hx : x c with
  | false => simp
  | true =>
    rw [if_pos rfl, Finset.card_insert_of_notMem (by simp [h]), Bool.xor_true, ← decide_not]
    simp only [Nat.odd_add_one]

/-- A parity, up for an odd set and down for an even one. -/
def signedParity (x : Qubit → Bool) (s : Finset Qubit) : Int :=
  (if Odd s.card then 1 else -1) * (if parity x s then 1 else 0)

/-- A factor `-1` for each clear bit of a set, counted by the members of the set and its parity. -/
theorem prod_sign (x : Qubit → Bool) (s : Finset Qubit) :
    ∏ c ∈ s, (if x c then 1 else -1 : Int) = (-1) ^ s.card + 2 * signedParity x s := by
  induction s using Finset.induction_on with
  | empty => simp [signedParity, parity_empty]
  | insert c s h ih =>
    rw [Finset.prod_insert h, ih, signedParity, signedParity, parity_insert h,
      Finset.card_insert_of_notMem h]
    simp only [Nat.odd_add_one, pow_succ]
    rcases Nat.even_or_odd s.card with he | ho
    · have hn := Nat.not_odd_iff_even.mpr he
      cases x c <;> cases parity x s <;> simp [he.neg_one_pow, hn]
    · cases x c <;> cases parity x s <;> simp [ho.neg_one_pow, ho]

/-- The signed parities of all sets add up to a count that is not zero only where every bit is set. -/
theorem sum_signedParity {t : Finset Qubit} (ht : t.Nonempty) (x : Qubit → Bool) :
    ∑ s ∈ t.powerset, signedParity x s = if ∀ c ∈ t, x c = true then 2 ^ (t.card - 1) else 0 := by
  have hprod : ∏ c ∈ t, (1 + (if x c then 1 else -1 : Int)) =
      2 * ∑ s ∈ t.powerset, signedParity x s := by
    rw [Finset.prod_one_add, Finset.mul_sum]
    simp only [prod_sign, Finset.sum_add_distrib,
      Finset.sum_powerset_neg_one_pow_card_of_nonempty ht, zero_add]
  split
  · rename_i hall
    have hcard : t.card = t.card - 1 + 1 := by have := ht.card_pos; omega
    have hpow : ∏ c ∈ t, (1 + (if x c then 1 else -1 : Int)) = 2 ^ t.card := by
      rw [Finset.prod_congr rfl fun c hc => by rw [if_pos (hall c hc), one_add_one_eq_two],
        Finset.prod_const]
    rw [hpow, hcard, pow_succ] at hprod
    omega
  · rename_i hsome
    obtain ⟨c, hc, hx⟩ : ∃ c ∈ t, ¬ x c = true := by simpa using hsome
    have hzero := Finset.prod_eq_zero (f := fun c => 1 + (if x c then 1 else -1 : Int)) hc
      (by simp [hx])
    rw [hzero] at hprod
    omega

end Parity

/-! ## Running a ladder on bits -/

namespace LadderStep

def isTurn : LadderStep → Bool
  | cx .. => false
  | turn .. => true

/-- The step under other names for the controls. -/
def rename (name : Nat → Nat) : LadderStep → LadderStep
  | cx control target => cx (name control) (name target)
  | turn odd control => turn odd (name control)

end LadderStep

namespace Ladder

/-- What a turn meets on its control. -/
structure Reading where
  odd : Bool
  control : Qubit
  bit : Bool
  deriving DecidableEq, Repr

/-- A bit counted up by a turn forwards and down by a turn backwards. -/
def Reading.signed (r : Reading) : Int := (if r.odd then 1 else -1) * (if r.bit then 1 else 0)

/-- Flips bits as the steps say, and tells what the turns meet and the bits at the end. -/
def run : List LadderStep → (Qubit → Bool) → List Reading × (Qubit → Bool)
  | [], x => ([], x)
  | .cx control target :: steps, x => run steps (Function.update x target (x target ^^ x control))
  | .turn odd control :: steps, x =>
    let (readings, y) := run steps x
    (⟨odd, control, x control⟩ :: readings, y)

theorem run_append (a b : List LadderStep) (x : Qubit → Bool) :
    run (a ++ b) x = ((run a x).1 ++ (run b (run a x).2).1, (run b (run a x).2).2) := by
  induction a generalizing x with
  | nil => rfl
  | cons s a ih => cases s <;> simp [run, ih]

/-- The steps of the ladder over given controls. -/
def stepsOver (controls : List Qubit) : List LadderStep :=
  (steps controls.length).map (.rename fun k => controls.getD k 0)

/-! ## One stage -/

section Stage

variable {n g m i : Nat}

theorem active_zero (n : Nat) : active n 0 = [] := by simp [active]

/-- The control of the highest bit of a pattern comes first. -/
theorem active_eq_cons (hm : m < n) (hbit : g.testBit m = true)
    (hhigh : ∀ b, m < b → g.testBit b = false) :
    active n g = (n - 1 - m) :: active n (g ^^^ 2 ^ m) := by
  have hrange : List.range n = List.range (n - 1 - m) ++ (n - 1 - m) :: List.range' (n - m) m := by
    have hcons : (n - 1 - m) :: List.range' (n - m) m = List.range' (n - 1 - m) (m + 1) := by
      rw [List.range'_succ, show n - 1 - m + 1 = n - m by omega]
    rw [hcons, List.range_eq_range', List.range_eq_range']
    simpa [show n - 1 - m + (m + 1) = n by omega] using
      (List.range'_append_1 (s := 0) (m := n - 1 - m) (n := m + 1)).symm
  have hhead : ∀ h : Nat, (∀ b, m < b → h.testBit b = false) →
      (List.range (n - 1 - m)).filter (fun k => h.testBit (n - 1 - k)) = [] := by
    intro h hh
    refine List.filter_eq_nil_iff.mpr fun k hk => ?_
    have hk : k < n - 1 - m := List.mem_range.mp hk
    rw [hh _ (by omega)]
    decide
  have htail : (List.range' (n - m) m).filter (fun k => g.testBit (n - 1 - k)) =
      (List.range' (n - m) m).filter (fun k => (g ^^^ 2 ^ m).testBit (n - 1 - k)) := by
    refine List.filter_congr fun k hk => ?_
    have hk : n - m ≤ k ∧ k < n - m + m := List.mem_range'_1.mp hk
    rw [Nat.testBit_xor, Nat.testBit_two_pow_of_ne (by omega), Bool.xor_false]
  have hself : n - 1 - (n - 1 - m) = m := by omega
  rw [active, active, hrange, List.filter_append, List.filter_append, List.filter_cons,
    List.filter_cons, hhead g hhigh, hhead (g ^^^ 2 ^ m), htail, hself]
  · simp [hbit]
  · intro b hb
    simp [hhigh b hb, hb.ne]

theorem active_two_pow (hm : m < n) : active n (2 ^ m) = [n - 1 - m] := by
  rw [active_eq_cons hm (by simp) (fun b hb => by simp [hb.ne]),
    Nat.xor_self, active_zero]

theorem active_gray (h0 : i ≠ 0) (hi : i < 2 ^ n) :
    active n (gray i) = (n - 1 - i.log2) :: active n (gray i ^^^ 2 ^ i.log2) :=
  active_eq_cons ((Nat.log2_lt h0).mpr hi) (testBit_gray_log2 h0) fun _ => testBit_gray_of_log2_lt

/-- A stage after the first, from the control that the sets differ in. -/
theorem stage_eq {first c : Nat} {rest : List Nat} (h1 : 1 < i)
    (hset : active n (gray i) = first :: rest)
    (hchanged : active n (gray i ^^^ gray (i - 1)) = [c]) :
    stage n i = (if c = first then rest.map (.cx · first) else [.cx c first]) ++
      [.turn (popCount (gray i) % 2 == 1) first] := by
  simp only [stage, hset, hchanged, gather, if_neg (Nat.not_le.mpr h1)]

end Stage

/-! ## Patterns as sets of controls -/

section Chosen

variable {controls : List Qubit} {g i b : Nat}

/-- The control of a bit; the first control has the highest. -/
def atBit (controls : List Qubit) (b : Nat) : Qubit := controls.getD (controls.length - 1 - b) 0

theorem atBit_eq_getElem (hb : b < controls.length) :
    atBit controls b = controls[controls.length - 1 - b] := by
  rw [atBit, List.getD_eq_getElem _ _ (by omega)]

theorem atBit_mem (hb : b < controls.length) : atBit controls b ∈ controls := by
  rw [atBit_eq_getElem hb]
  exact List.getElem_mem _

theorem injOn_atBit (hd : controls.Nodup) : Set.InjOn (atBit controls) {b | b < controls.length} := by
  intro a (ha : a < controls.length) b (hb : b < controls.length) h
  rw [atBit_eq_getElem ha, atBit_eq_getElem hb, hd.getElem_inj_iff] at h
  omega

/-- The controls in a pattern. -/
def chosen (controls : List Qubit) (g : Nat) : Finset Qubit :=
  ((Finset.range controls.length).filter fun b => g.testBit b).image (atBit controls)

theorem chosen_subset (controls : List Qubit) (g : Nat) : chosen controls g ⊆ controls.toFinset := by
  intro c hc
  simp only [chosen, Finset.mem_image, Finset.mem_filter, Finset.mem_range] at hc
  obtain ⟨b, ⟨hb, -⟩, rfl⟩ := hc
  exact List.mem_toFinset.mpr (atBit_mem hb)

theorem atBit_mem_chosen (hd : controls.Nodup) (hb : b < controls.length) :
    atBit controls b ∈ chosen controls g ↔ g.testBit b = true := by
  simp only [chosen, Finset.mem_image, Finset.mem_filter, Finset.mem_range]
  constructor
  · rintro ⟨a, ⟨ha, hbit⟩, h⟩
    rwa [injOn_atBit hd ha hb h] at hbit
  · exact fun hbit => ⟨b, ⟨hb, hbit⟩, rfl⟩

theorem card_chosen (hd : controls.Nodup) (hg : g < 2 ^ controls.length) :
    (chosen controls g).card = popCount g := by
  rw [popCount_eq_card hg, chosen, Finset.card_image_of_injOn]
  exact (injOn_atBit hd).mono fun b hb => by simpa using (Finset.mem_filter.mp hb).1

theorem chosen_injOn (hd : controls.Nodup) :
    Set.InjOn (chosen controls) {g | g < 2 ^ controls.length} := by
  intro g (hg : g < 2 ^ controls.length) h (hh : h < 2 ^ controls.length) he
  refine Nat.eq_of_testBit_eq fun b => ?_
  by_cases hb : b < controls.length
  · rw [Bool.eq_iff_iff, ← atBit_mem_chosen hd hb, ← atBit_mem_chosen hd hb, he]
  · have hpow : 2 ^ controls.length ≤ 2 ^ b := Nat.pow_le_pow_right (by decide) (by omega)
    rw [Nat.testBit_lt_two_pow (by omega), Nat.testBit_lt_two_pow (by omega)]

theorem chosen_zero : chosen controls 0 = ∅ := by simp [chosen]

/-- Changing one bit of a pattern adds the bit of its control to the parity. -/
theorem parity_chosen_xor (hd : controls.Nodup) (hb : b < controls.length) (x : Qubit → Bool) (g : Nat) :
    parity x (chosen controls (g ^^^ 2 ^ b)) =
      (parity x (chosen controls g) ^^ x (atBit controls b)) := by
  have key (g : Nat) (hbit : g.testBit b = false) :
      chosen controls (g ^^^ 2 ^ b) = insert (atBit controls b) (chosen controls g) := by
    have hfilter : (Finset.range controls.length).filter (fun k => (g ^^^ 2 ^ b).testBit k) =
        insert b ((Finset.range controls.length).filter fun k => g.testBit k) := by
      ext k
      simp only [Finset.mem_filter, Finset.mem_insert, Finset.mem_range, Nat.testBit_xor,
        Nat.testBit_two_pow]
      grind
    rw [chosen, hfilter, Finset.image_insert, chosen]
  cases hbit : g.testBit b with
  | false =>
    rw [key g hbit, parity_insert]
    rw [atBit_mem_chosen hd hb, hbit]
    decide
  | true =>
    have hclear : (g ^^^ 2 ^ b).testBit b = false := by simp [hbit]
    have h := key _ hclear
    rw [Nat.xor_xor_cancel_right] at h
    rw [h, parity_insert (by rw [atBit_mem_chosen hd hb, hclear]; decide)]
    simp

theorem parity_chosen_two_pow (hd : controls.Nodup) (hb : b < controls.length) (x : Qubit → Bool) :
    parity x (chosen controls (2 ^ b)) = x (atBit controls b) := by
  have h := parity_chosen_xor hd hb x 0
  rwa [Nat.zero_xor, chosen_zero, parity_empty, Bool.false_xor] at h

end Chosen

/-! ## The whole ladder -/

section Run

variable {controls : List Qubit} {i : Nat}

/-- What the turn of the `i`-th stage meets. -/
def reading (controls : List Qubit) (x : Qubit → Bool) (i : Nat) : Reading :=
  ⟨popCount (gray i) % 2 == 1, atBit controls i.log2, parity x (chosen controls (gray i))⟩

/-- The bits after the `i`-th stage: the control of the highest bit holds the parity of the set. -/
def held (controls : List Qubit) (x : Qubit → Bool) (i : Nat) : Qubit → Bool :=
  if i = 0 then x
  else Function.update x (atBit controls i.log2) (parity x (chosen controls (gray i)))

/-- A set with one control leaves every bit in its place. -/
theorem held_of_gray_eq (hd : controls.Nodup) {m : Nat} (hm : m < controls.length)
    (x : Qubit → Bool) (h0 : i ≠ 0) (hi : gray i = 2 ^ m) : held controls x i = x := by
  have hlog : m = i.log2 := by
    have h := testBit_gray_log2 h0
    rw [hi, Nat.testBit_two_pow] at h
    exact of_decide_eq_true h
  rw [held, if_neg h0, hi, ← hlog, parity_chosen_two_pow hd hm, Function.update_eq_self]

/-- The steps of one stage over given controls. -/
def stageOver (controls : List Qubit) (i : Nat) : List LadderStep :=
  (stage controls.length i).map (.rename fun k => controls.getD k 0)

theorem stepsOver_eq (controls : List Qubit) : stepsOver controls =
    (List.range (2 ^ controls.length - 1)).flatMap fun i => stageOver controls (i + 1) := by
  rw [stepsOver, steps, List.map_flatMap]
  rfl

theorem stageOver_one (hpos : 0 < controls.length) :
    stageOver controls 1 = [.turn true (atBit controls 0)] := by
  have hactive : active controls.length (gray 1) = [controls.length - 1 - 0] :=
    active_two_pow (m := 0) hpos
  have hodd : (popCount (gray 1) % 2 == 1) = true := by simp [gray, popCount]
  rw [stageOver, stage, hactive, hodd]
  rfl

/-- From the second stage on, one bit flip gathers the next parity on the control of the highest bit.
The set before had the same highest bit, or it was a single control. -/
theorem exists_stageOver (h1 : 1 < i) (hi : i < 2 ^ controls.length) :
    ∃ b < i.log2, stageOver controls i = [.cx (atBit controls b) (atBit controls i.log2),
        .turn (popCount (gray i) % 2 == 1) (atBit controls i.log2)] ∧
      ((i - 1).log2 = i.log2 ∧ gray i = gray (i - 1) ^^^ 2 ^ b ∨
        gray (i - 1) = 2 ^ b ∧ gray i = 2 ^ b ^^^ 2 ^ i.log2) := by
  have h0 : i ≠ 0 := by omega
  have hlog : i.log2 < controls.length := (Nat.log2_lt h0).mpr hi
  have hset := active_gray h0 hi
  obtain ⟨b, hb, hcode⟩ := exists_gray_eq h1
  refine ⟨b, hb, ?_, hcode⟩
  rcases hcode with ⟨-, hcode⟩ | ⟨hlast, hcode⟩
  · have hchanged : active controls.length (gray i ^^^ gray (i - 1)) =
        [controls.length - 1 - b] := by
      rw [hcode, Nat.xor_comm, Nat.xor_xor_cancel_left, active_two_pow (hb.trans hlog)]
    rw [stageOver, stage_eq h1 hset hchanged, if_neg (by omega)]
    rfl
  · have hchanged : active controls.length (gray i ^^^ gray (i - 1)) =
        [controls.length - 1 - i.log2] := by
      rw [hcode, hlast, Nat.xor_comm, Nat.xor_xor_cancel_left, active_two_pow hlog]
    have hrest : active controls.length (gray i ^^^ 2 ^ i.log2) = [controls.length - 1 - b] := by
      rw [hcode, Nat.xor_xor_cancel_right, active_two_pow (hb.trans hlog)]
    rw [stageOver, stage_eq h1 hset hchanged, hrest, if_pos rfl]
    rfl

/-- One stage moves the parity of one set to that of the next, and its turn meets it. -/
theorem run_stage (hd : controls.Nodup) (x : Qubit → Bool)
    (h0 : i ≠ 0) (hi : i < 2 ^ controls.length) :
    run (stageOver controls i) (held controls x (i - 1)) =
      ([reading controls x i], held controls x i) := by
  have hlog : i.log2 < controls.length := (Nat.log2_lt h0).mpr hi
  by_cases h1 : i = 1
  · subst h1
    have hlast : held controls x 1 = x := held_of_gray_eq (m := 0) hd hlog x h0 rfl
    have hread : reading controls x 1 = ⟨true, atBit controls 0, x (atBit controls 0)⟩ := by
      have hodd : (popCount (2 ^ 0) % 2 == 1) = true := by simp [popCount]
      rw [reading, show gray 1 = 2 ^ 0 from rfl, parity_chosen_two_pow (b := 0) hd hlog, hodd]
      rfl
    rw [stageOver_one (by omega), hlast, hread]
    rfl
  · obtain ⟨b, hb, hstage, hcode⟩ := exists_stageOver (by omega) hi
    have hne : atBit controls b ≠ atBit controls i.log2 := fun he =>
      hb.ne (injOn_atBit hd (hb.trans hlog) hlog he)
    rw [hstage]
    suffices hflip : Function.update (held controls x (i - 1)) (atBit controls i.log2)
        (held controls x (i - 1) (atBit controls i.log2) ^^
          held controls x (i - 1) (atBit controls b)) = held controls x i by
      have hbit : held controls x i (atBit controls i.log2) = parity x (chosen controls (gray i)) := by
        rw [held, if_neg h0, Function.update_self]
      rw [run, run, run, hflip, hbit, reading]
    rcases hcode with ⟨hsame, hcode⟩ | ⟨hlast, hcode⟩
    · -- the control of the highest bit held the last parity, and the one that changes adds its own bit
      rw [held, if_neg (by omega), hsame, Function.update_self, Function.update_of_ne hne,
        Function.update_idem, held, if_neg h0, hcode, parity_chosen_xor hd (hb.trans hlog)]
    · -- all controls held their own bits, and the parity is that of two of them
      rw [held_of_gray_eq hd (hb.trans hlog) x (by omega) hlast, held, if_neg h0, hcode,
        parity_chosen_xor hd hlog, parity_chosen_two_pow hd (hb.trans hlog), Bool.xor_comm]

theorem run_stages (hd : controls.Nodup) (x : Qubit → Bool)
    (hi : i < 2 ^ controls.length) :
    run ((List.range i).flatMap fun j => stageOver controls (j + 1)) x =
      ((List.range i).map fun j => reading controls x (j + 1), held controls x i) := by
  induction i with
  | zero => rfl
  | succ i ih =>
    rw [List.range_succ, List.flatMap_append, List.flatMap_singleton, run_append, ih (by omega),
      List.map_append, List.map_singleton]
    have hstage : run (stageOver controls (i + 1)) (held controls x i) = _ :=
      run_stage hd x i.succ_ne_zero hi
    rw [hstage]

/-- Every stage turns once, and every stage but the first flips a bit once. -/
theorem countP_stages (hi : i < 2 ^ controls.length) :
    ((List.range i).flatMap fun j => stageOver controls (j + 1)).countP LadderStep.isTurn = i ∧
    ((List.range i).flatMap fun j => stageOver controls (j + 1)).length = i + (i - 1) := by
  induction i with
  | zero => exact ⟨rfl, rfl⟩
  | succ i ih =>
    obtain ⟨hturn, hlen⟩ := ih (by omega)
    rw [List.range_succ, List.flatMap_append, List.flatMap_singleton, List.countP_append,
      List.length_append, hturn, hlen]
    by_cases hfirst : i = 0
    · subst hfirst
      have hpos : 0 < controls.length := by
        by_contra h
        simp [Nat.eq_zero_of_not_pos h] at hi
      rw [stageOver_one hpos]
      exact ⟨rfl, rfl⟩
    · obtain ⟨b, -, hstage, -⟩ := exists_stageOver (by omega) hi
      rw [hstage]
      exact ⟨rfl, by simp only [List.length_cons, List.length_nil]; omega⟩

end Run

/-- How long the ladder over `n` controls is. -/
theorem length_steps (n : Nat) : (steps n).length = 2 ^ n - 1 + (2 ^ n - 2) := by
  have hn : (List.range n).length = n := List.length_range
  have hpos := Nat.two_pow_pos n
  calc (steps n).length
      = (stepsOver (List.range n)).length := by rw [stepsOver, List.length_map, hn]
    _ = 2 ^ n - 1 + (2 ^ n - 1 - 1) := by
        rw [stepsOver_eq, hn]
        exact (countP_stages (by rw [hn]; omega)).2
    _ = 2 ^ n - 1 + (2 ^ n - 2) := by omega

/-! ## The sum of the readings -/

section Sum

variable {controls : List Qubit}

/-- The sets of the turns, in their order. -/
def turned (controls : List Qubit) : List (Finset Qubit) :=
  (List.range (2 ^ controls.length - 1)).map fun j => chosen controls (gray (j + 1))

theorem nodup_turned (hd : controls.Nodup) : (turned controls).Nodup := by
  refine List.nodup_range.map_on fun i hi j hj he => ?_
  rw [List.mem_range] at hi hj
  have hcode := chosen_injOn hd (gray_lt (i := i + 1) (by omega)) (gray_lt (i := j + 1) (by omega)) he
  exact Nat.succ.inj (gray_injective hcode)

/-- There are as many turns as nonempty sets of controls, so each has its turn. -/
theorem toFinset_turned (hd : controls.Nodup) :
    (turned controls).toFinset = controls.toFinset.powerset.erase ∅ := by
  refine Finset.eq_of_subset_of_card_le (fun s hs => ?_) ?_
  · obtain ⟨j, hj, rfl⟩ := List.mem_map.mp (List.mem_toFinset.mp hs)
    rw [List.mem_range] at hj
    refine Finset.mem_erase.mpr ⟨fun he => ?_, Finset.mem_powerset.mpr (chosen_subset _ _)⟩
    have hzero := chosen_injOn hd (gray_lt (i := j + 1) (by omega)) (Nat.two_pow_pos _)
      (he.trans chosen_zero.symm)
    exact absurd (gray_injective hzero) j.succ_ne_zero
  · rw [Finset.card_erase_of_mem (Finset.empty_mem_powerset _), Finset.card_powerset,
      List.toFinset_card_of_nodup hd, List.toFinset_card_of_nodup (nodup_turned hd), turned,
      List.length_map, List.length_range]

theorem odd_reading (hd : controls.Nodup) (x : Qubit → Bool) {i : Nat}
    (hi : i < 2 ^ controls.length) :
    (reading controls x i).odd = decide (Odd (chosen controls (gray i)).card) := by
  rw [card_chosen hd (gray_lt hi), reading, Bool.eq_iff_iff, decide_eq_true_iff, Nat.odd_iff,
    beq_iff_eq]

theorem signed_reading (hd : controls.Nodup) (x : Qubit → Bool) {i : Nat}
    (hi : i < 2 ^ controls.length) :
    (reading controls x i).signed = signedParity x (chosen controls (gray i)) := by
  have hbit : (reading controls x i).bit = parity x (chosen controls (gray i)) := rfl
  rw [Reading.signed, odd_reading hd x hi, hbit, signedParity]
  simp

theorem sum_turned (hd : controls.Nodup) (hpos : 1 ≤ controls.length) (x : Qubit → Bool) :
    ((turned controls).map (signedParity x)).sum =
      if ∀ c ∈ controls, x c = true then 2 ^ (controls.length - 1) else 0 := by
  have hne : controls.toFinset.Nonempty :=
    List.toFinset_nonempty_iff _ |>.mpr (List.length_pos_iff.mp hpos)
  rw [← List.sum_toFinset _ (nodup_turned hd), toFinset_turned hd,
    Finset.sum_erase _ (by simp [signedParity, parity_empty]), sum_signedParity hne,
    List.toFinset_card_of_nodup hd]
  simp only [List.mem_toFinset]

end Sum

section Whole

variable {controls : List Qubit}

theorem distinct_of_cx_mem (hd : controls.Nodup) {a b : Qubit}
    (h : .cx a b ∈ stepsOver controls) : a ∈ controls ∧ b ∈ controls ∧ a ≠ b := by
  obtain ⟨s, hs, he⟩ := List.mem_map.mp h
  have hin := within_steps _ s hs
  cases s with
  | turn odd control => cases he
  | cx control target =>
    obtain ⟨hc, ht, hne⟩ := hin
    obtain ⟨rfl, rfl⟩ := LadderStep.cx.inj he
    simp only [List.getD_eq_getElem _ _ hc, List.getD_eq_getElem _ _ ht]
    exact ⟨List.getElem_mem _, List.getElem_mem _, fun he => hne (hd.getElem_inj_iff.mp he)⟩

/-- The last stage turns on the first control alone. -/
theorem run_stepsOver (hd : controls.Nodup) (hpos : 1 ≤ controls.length) (x : Qubit → Bool) :
    run (stepsOver controls) x =
      ((List.range (2 ^ controls.length - 1)).map fun j => reading controls x (j + 1), x) := by
  obtain ⟨m, hm⟩ : ∃ m, controls.length = m + 1 := Nat.exists_eq_succ_of_ne_zero (by omega)
  have hpow : 2 ^ controls.length = 2 * 2 ^ m := by rw [hm, pow_succ, mul_comm]
  have hmpos := Nat.two_pow_pos m
  rw [stepsOver_eq, run_stages hd x (by omega),
    held_of_gray_eq hd (m := m) (by omega) x (by omega) (by rw [hm, gray_two_pow_sub_one])]

/-- As many turns as nonempty sets, and a bit flip before each but the first. -/
theorem countP_stepsOver (controls : List Qubit) :
    (stepsOver controls).countP LadderStep.isTurn = 2 ^ controls.length - 1 ∧
      (stepsOver controls).countP (fun s => !s.isTurn) = 2 ^ controls.length - 2 := by
  have hpos := Nat.two_pow_pos controls.length
  have hlt : 2 ^ controls.length - 1 < 2 ^ controls.length := by omega
  obtain ⟨hturns, hlen⟩ := countP_stages hlt
  rw [← stepsOver_eq] at hturns hlen
  have hsplit := (stepsOver controls).length_eq_countP_add_countP LadderStep.isTurn
  have hflips : (stepsOver controls).countP (fun s => !s.isTurn) =
      (stepsOver controls).length - (stepsOver controls).countP LadderStep.isTurn := by
    simp [hsplit]
  refine ⟨hturns, ?_⟩
  rw [hflips, hturns, hlen]
  omega

theorem mem_turned (hd : controls.Nodup) (s : Finset Qubit) :
    s ∈ turned controls ↔ s.Nonempty ∧ s ⊆ controls.toFinset := by
  rw [← List.mem_toFinset, toFinset_turned hd, Finset.mem_erase, Finset.mem_powerset,
    Finset.nonempty_iff_ne_empty]

/-- Each turn meets the parity of its set on a member of the set, and knows whether the set is odd. -/
theorem forall₂_turned (hd : controls.Nodup) (hpos : 1 ≤ controls.length) (x : Qubit → Bool) :
    List.Forall₂ (fun s r => r.control ∈ s ∧ r.odd = decide (Odd s.card) ∧ r.bit = parity x s)
      (turned controls) (run (stepsOver controls) x).1 := by
  rw [run_stepsOver hd hpos, turned, List.forall₂_map_left_iff, List.forall₂_map_right_iff,
    List.forall₂_same]
  intro j hj
  have hj : j + 1 < 2 ^ controls.length := by
    rw [List.mem_range] at hj
    omega
  refine ⟨?_, odd_reading hd x hj, rfl⟩
  exact (atBit_mem_chosen hd ((Nat.log2_lt j.succ_ne_zero).mpr hj)).mpr
    (testBit_gray_log2 j.succ_ne_zero)

theorem sum_readings (hd : controls.Nodup) (hpos : 1 ≤ controls.length) (x : Qubit → Bool) :
    ((run (stepsOver controls) x).1.map Reading.signed).sum =
      if ∀ c ∈ controls, x c = true then 2 ^ (controls.length - 1) else 0 := by
  rw [run_stepsOver hd hpos, ← sum_turned hd hpos x, turned, List.map_map, List.map_map]
  refine congrArg List.sum (List.map_congr_left fun j hj => ?_)
  exact signed_reading hd x (by
    rw [List.mem_range] at hj
    omega)

end Whole

end Ladder

namespace Wide

variable {R : Type}

/-- The gate of a step of a ladder. -/
def emit (turn : Bool → Qubit → Instruction R) : LadderStep → Instruction R
  | .cx control target => cx control target
  | .turn odd control => turn odd control

theorem rungs_eq_map (controls : List Qubit) (turn : Bool → Qubit → Instruction R) :
    rungs controls turn = (Ladder.stepsOver controls).map (emit turn) := by
  rw [rungs, Ladder.stepsOver, List.map_map]
  refine List.map_congr_left fun s _ => ?_
  cases s <;> rfl

end Wide

namespace Ladder

/-- A ladder computes the conjunction of its controls. Its turns go through the nonempty sets of controls,
each once; they are told apart by whether the set is odd, and meet the parity of the set on one of its
members. Counted up and down, what they meet is `2ⁿ⁻¹` where all controls are set and nothing elsewhere.
The bit flips between them stay on the controls and leave them as they were. -/
theorem ladder_conjunction {R : Type} {controls : List Qubit} (hd : controls.Nodup)
    (hpos : 1 ≤ controls.length) (hw : controls.length < wordBits)
    (turn : Bool → Qubit → Instruction R) :
    Wide.ladder controls turn = .ok ((stepsOver controls).map (Wide.emit turn)) ∧
    (stepsOver controls).countP LadderStep.isTurn = 2 ^ controls.length - 1 ∧
    (stepsOver controls).countP (fun s => !s.isTurn) = 2 ^ controls.length - 2 ∧
    (∀ a b, .cx a b ∈ stepsOver controls → a ∈ controls ∧ b ∈ controls ∧ a ≠ b) ∧
    ∃ sets : List (Finset Qubit), sets.Nodup ∧
      (∀ s, s ∈ sets ↔ s.Nonempty ∧ s ⊆ controls.toFinset) ∧
      ∀ x : Qubit → Bool,
        List.Forall₂ (fun s r => r.control ∈ s ∧ r.odd = decide (Odd s.card) ∧ r.bit = parity x s)
          sets (run (stepsOver controls) x).1 ∧
        ((run (stepsOver controls) x).1.map Reading.signed).sum =
          (if ∀ c ∈ controls, x c = true then 2 ^ (controls.length - 1) else 0) ∧
        (run (stepsOver controls) x).2 = x := by
  obtain ⟨hturns, hflips⟩ := countP_stepsOver controls
  refine ⟨Wide.ladder_eq_ok.mpr ⟨hw, Wide.rungs_eq_map controls turn⟩, hturns, hflips,
    fun a b => distinct_of_cx_mem hd, turned controls, nodup_turned hd, mem_turned hd, fun x => ?_⟩
  refine ⟨forall₂_turned hd hpos x, sum_readings hd hpos x, ?_⟩
  rw [run_stepsOver hd hpos]

theorem ladder_conjunction_three :
    ([7, 3, 5] : List Qubit).Nodup ∧ 1 ≤ [7, 3, 5].length ∧ [7, 3, 5].length < wordBits ∧
    ∀ x : Qubit → Bool, ((run (stepsOver [7, 3, 5]) x).1.map Reading.signed).sum =
      if ∀ c ∈ ([7, 3, 5] : List Qubit), x c = true then 4 else 0 := by
  have hd : ([7, 3, 5] : List Qubit).Nodup := by decide
  obtain ⟨-, -, -, -, sets, -, -, h⟩ := ladder_conjunction hd (by decide) (by decide)
    fun _ c => (Wide.cx c 9 : Instruction Float)
  exact ⟨hd, by decide, by decide, fun x => (h x).2.1⟩

end Ladder

end QuantumCompiler
