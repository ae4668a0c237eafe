import Mathlib
import QuantumCompiler.Device.Basic
import QuantumCompiler.Proofs.Numeric.Exact

/-!
# The table of cheapest paths

The table of costs is relaxed in place: while the ways over a qubit are offered, its own row and column
are read and written as well. They do not change by it, since a way from a qubit to itself saves
nothing, so one round amounts to offering all ways at once. `Relaxed` is what a round keeps: every entry
is the cost of a walk, and no entry is beaten by a link or by a way over a qubit that had its round.
After the last round no walk beats an entry.
-/
namespace QuantumCompiler.CostTable

variable {R : Type}

/-! ## Entries -/

/-- A table of `n` rows of `n` costs. -/
structure Square (n : Nat) (t : CostTable R) : Prop where
  rows : t.size = n
  columns : ∀ (i : Nat) (row : Array (Option R)), t[i]? = some row → row.size = n

section Entries

variable {n : Nat} {t s : CostTable R} {value : R → ℝ} {a b i : Qubit}

theorem get?_eq_some {c : R} : t.get? a b = some c ↔
    ∃ row : Array (Option R), t[a]? = some row ∧ row[b]? = some (some c) := by
  rw [get?, Array.getD_eq_getD_getElem?, Array.getD_eq_getD_getElem?]
  cases t[a]? with
  | none => simp
  | some row => cases hb : row[b]? <;> simp [hb]

theorem Square.lt_of_get? (h : Square n t) {c : R} (hc : t.get? a b = some c) : a < n ∧ b < n := by
  obtain ⟨row, hrow, hb⟩ := get?_eq_some.mp hc
  constructor
  · rw [← h.rows]
    exact (Array.getElem?_eq_some_iff.mp hrow).1
  · rw [← h.columns a row hrow]
    exact (Array.getElem?_eq_some_iff.mp hb).1

theorem Square.exists_row (h : Square n t) (hi : i < n) :
    ∃ row : Array (Option R), t[i]? = some row ∧ row.size = n := by
  rw [← h.rows] at hi
  have hrow := Array.getElem?_eq_getElem hi
  exact ⟨_, hrow, h.columns i _ hrow⟩

/-- Tables with the same entries are equal. -/
theorem Square.ext (h : Square n t) (h' : Square n s) (he : ∀ a b, t.get? a b = s.get? a b) :
    t = s := by
  apply Array.ext_getElem?
  intro i
  by_cases hi : i < n
  · obtain ⟨row, hrow, hsize⟩ := h.exists_row hi
    obtain ⟨row', hrow', hsize'⟩ := h'.exists_row hi
    rw [hrow, hrow', Option.some.injEq]
    apply Array.ext (hsize.trans hsize'.symm)
    intro j hj hj'
    have hij := he i j
    simpa only [get?, Array.getD_eq_getD_getElem?, hrow, hrow', Option.getD_some,
      Array.getElem?_eq_getElem hj, Array.getElem?_eq_getElem hj'] using hij
  · rw [Array.getElem?_eq_none (by rw [h.rows]; omega),
      Array.getElem?_eq_none (by rw [h'.rows]; omega)]

/-- What an entry costs; a missing one costs more than anything. -/
def worth (value : R → ℝ) (t : CostTable R) (a b : Qubit) : WithTop ℝ :=
  (t.get? a b).elim ⊤ fun c => value c

theorem worth_eq_coe {x : ℝ} : worth value t a b = x ↔ ∃ c, t.get? a b = some c ∧ value c = x := by
  rw [worth]
  cases t.get? a b <;> simp

theorem worth_eq_top : worth value t a b = ⊤ ↔ t.get? a b = none := by
  rw [worth]
  cases t.get? a b <;> simp

theorem worth_of_get? {c : R} (hc : t.get? a b = some c) : worth value t a b = value c :=
  worth_eq_coe.mpr ⟨c, hc, rfl⟩

theorem Square.lt_of_worth (h : Square n t) (hab : worth value t a b ≠ ⊤) : a < n ∧ b < n := by
  obtain ⟨c, hc⟩ := Option.ne_none_iff_exists'.mp fun hnone => hab (worth_eq_top.mpr hnone)
  exact h.lt_of_get? hc

theorem Square.worth_of_not_lt (h : Square n t) (hab : ¬(a < n ∧ b < n)) :
    worth value t a b = ⊤ :=
  not_imp_comm.mp h.lt_of_worth hab

end Entries

/-! ## Costs of walks -/

section Walks

variable {G : SimpleGraph Qubit} {weight : Qubit → Qubit → ℝ} {a b c : Qubit}

/-- The summed costs of the links of a walk. -/
def walkCost (weight : Qubit → Qubit → ℝ) (p : G.Walk a b) : ℝ :=
  (p.darts.map fun d => weight d.fst d.snd).sum

@[simp] theorem walkCost_nil : walkCost weight (.nil : G.Walk a a) = 0 := rfl

@[simp] theorem walkCost_cons (h : G.Adj a b) (p : G.Walk b c) :
    walkCost weight (.cons h p) = weight a b + walkCost weight p := rfl

@[simp] theorem walkCost_append (p : G.Walk a b) (q : G.Walk b c) :
    walkCost weight (p.append q) = walkCost weight p + walkCost weight q := by
  rw [walkCost, SimpleGraph.Walk.darts_append, List.map_append, List.sum_append]
  rfl

theorem walkCost_reverse (hsymm : ∀ a b, weight a b = weight b a) (p : G.Walk a b) :
    walkCost weight p.reverse = walkCost weight p := by
  induction p with
  | nil => rfl
  | cons h p ih =>
    rw [SimpleGraph.Walk.reverse_cons, walkCost_append, ih, walkCost_cons, walkCost_cons,
      walkCost_nil, add_zero, hsymm, add_comm]

theorem walkCost_nonneg (hw : ∀ a b, 0 ≤ weight a b) (p : G.Walk a b) : 0 ≤ walkCost weight p := by
  refine List.sum_nonneg fun x hx => ?_
  obtain ⟨d, -, rfl⟩ := List.mem_map.mp hx
  exact hw d.fst d.snd

/-- Leaving out the loops of a walk makes it no dearer. -/
theorem walkCost_bypass_le (hw : ∀ a b, 0 ≤ weight a b) (p : G.Walk a b) :
    walkCost weight p.bypass ≤ walkCost weight p := by
  refine List.Sublist.sum_le_sum (p.darts_bypass_sublist_darts.map _) fun x hx => ?_
  obtain ⟨d, -, rfl⟩ := List.mem_map.mp hx
  exact hw d.fst d.snd

end Walks

/-! ## Relaxed tables -/

section Relaxed

variable {n k : Nat} {t : CostTable R} {value : R → ℝ} {G : SimpleGraph Qubit}
  {weight : Qubit → Qubit → ℝ} {a b : Qubit}

/-- What the rounds of the first `k` qubits have made of a table. -/
structure Relaxed (value : R → ℝ) (G : SimpleGraph Qubit) (weight : Qubit → Qubit → ℝ) (n k : Nat)
    (t : CostTable R) : Prop where
  square : Square n t
  diagonal : ∀ a < n, worth value t a a = 0
  /-- No entry is dearer than a link. -/
  link : ∀ a b, G.Adj a b → worth value t a b ≤ weight a b
  /-- Every entry is the cost of a walk. -/
  attained : ∀ a b (x : ℝ), worth value t a b = x → ∃ p : G.Walk a b, walkCost weight p = x
  /-- No entry is dearer than a way over one of these qubits. -/
  detour : ∀ m < k, ∀ a b, worth value t a b ≤ worth value t a m + worth value t m b

theorem Relaxed.nonneg (h : Relaxed value G weight n k t) (hw : ∀ a b, 0 ≤ weight a b)
    (a b : Qubit) : 0 ≤ worth value t a b := by
  cases hx : worth value t a b with
  | top => exact le_top
  | coe x =>
    obtain ⟨p, rfl⟩ := h.attained a b x hx
    exact WithTop.coe_nonneg.mpr (walkCost_nonneg hw p)

/-- Ways over `k` do not make a detour over one of the qubits up to `k` worth while. -/
theorem Relaxed.min_detour (h : Relaxed value G weight n k t) (hw : ∀ a b, 0 ≤ weight a b) {m : Nat}
    (hm : m ≤ k) (a b : Qubit) :
    min (worth value t a b) (worth value t a k + worth value t k b) ≤
      min (worth value t a m) (worth value t a k + worth value t k m) +
        min (worth value t m b) (worth value t m k + worth value t k b) := by
  have hdirect : min (worth value t a b) (worth value t a k + worth value t k b) ≤
      worth value t a m + worth value t m b := by
    rcases Nat.lt_or_eq_of_le hm with hm | rfl
    · exact min_le_of_left_le (h.detour m hm a b)
    · exact min_le_right _ _
  -- what is offered over `k` is beaten neither before `k` nor after it
  have hbefore : worth value t a k ≤ worth value t a m + worth value t m k := by
    rcases Nat.lt_or_eq_of_le hm with hm | rfl
    · exact h.detour m hm a k
    · exact le_add_of_nonneg_right (h.nonneg hw m m)
  have hafter : worth value t k b ≤ worth value t k m + worth value t m b := by
    rcases Nat.lt_or_eq_of_le hm with hm | rfl
    · exact h.detour m hm k b
    · exact le_add_of_nonneg_left (h.nonneg hw m m)
  rcases min_choice (worth value t a m) (worth value t a k + worth value t k m) with hl | hl <;>
    rcases min_choice (worth value t m b) (worth value t m k + worth value t k b) with hr | hr <;>
    rw [hl, hr]
  · exact hdirect
  · rw [← add_assoc]
    exact min_le_of_right_le (add_le_add_left hbefore _)
  · rw [add_assoc]
    exact min_le_of_right_le (add_le_add_right hafter _)
  · refine min_le_of_right_le (add_le_add ?_ ?_)
    · exact le_add_of_nonneg_right (h.nonneg hw k m)
    · exact le_add_of_nonneg_left (h.nonneg hw m k)

theorem Relaxed.triangle (h : Relaxed value G weight n n t) (a m b : Qubit) :
    worth value t a b ≤ worth value t a m + worth value t m b := by
  by_cases hm : m < n
  · exact h.detour m hm a b
  · rw [h.square.worth_of_not_lt fun hlt => hm hlt.2, WithTop.top_add]
    exact le_top

/-- No walk beats an entry. -/
theorem Relaxed.le_walkCost (h : Relaxed value G weight n n t) (hb : b < n) (p : G.Walk a b) :
    worth value t a b ≤ walkCost weight p := by
  induction p with
  | nil => exact (h.diagonal _ hb).le
  | @cons a c b hac p ih =>
    calc worth value t a b ≤ worth value t a c + worth value t c b := h.triangle a c b
      _ ≤ weight a c + walkCost weight p := add_le_add (h.link a c hac) (ih hb)
      _ = walkCost weight (.cons hac p) := rfl

/-- An entry is the least cost of a walk, and a path without loops has it. -/
theorem Relaxed.isLeast (h : Relaxed value G weight n n t) (hw : ∀ a b, 0 ≤ weight a b) {c : R}
    (hc : t.get? a b = some c) :
    (∃ p : G.Walk a b, p.IsPath ∧ walkCost weight p = value c) ∧
      ∀ p : G.Walk a b, value c ≤ walkCost weight p := by
  have hworth : worth value t a b = value c := worth_of_get? hc
  have hle (p : G.Walk a b) : value c ≤ walkCost weight p := by
    rw [← WithTop.coe_le_coe, ← hworth]
    exact h.le_walkCost (h.square.lt_of_get? hc).2 p
  obtain ⟨p, hp⟩ := h.attained a b _ hworth
  refine ⟨⟨p.bypass, p.bypass_isPath, le_antisymm ?_ (hle p.bypass)⟩, hle⟩
  exact (walkCost_bypass_le hw p).trans hp.le

theorem Relaxed.get?_eq_none (h : Relaxed value G weight n n t) (a b : Qubit) :
    t.get? a b = none ↔ ¬(a < n ∧ b < n ∧ G.Reachable a b) := by
  have htable : worth value t a b = ⊤ ↔ t.get? a b = none := worth_eq_top
  rw [← htable]
  constructor
  · rintro htop ⟨-, hb, ⟨p⟩⟩
    have hle := h.le_walkCost hb p
    rw [htop] at hle
    exact WithTop.coe_ne_top (top_le_iff.mp hle)
  · intro hnot
    by_contra hne
    obtain ⟨ha, hb⟩ := h.square.lt_of_worth hne
    obtain ⟨x, hx⟩ := WithTop.ne_top_iff_exists.mp hne
    obtain ⟨p, -⟩ := h.attained a b x hx.symm
    exact hnot ⟨ha, hb, ⟨p⟩⟩

theorem Relaxed.get?_self (h : Relaxed value G weight n n t) (ha : a < n) :
    ∃ c, t.get? a a = some c ∧ value c = 0 :=
  worth_eq_coe.mp (h.diagonal a ha)

theorem Relaxed.worth_comm (h : Relaxed value G weight n n t)
    (hsymm : ∀ a b, weight a b = weight b a) (a b : Qubit) :
    worth value t a b = worth value t b a := by
  have hle (a b : Qubit) : worth value t a b ≤ worth value t b a := by
    cases hx : worth value t b a with
    | top => exact le_top
    | coe x =>
      obtain ⟨p, rfl⟩ := h.attained b a x hx
      have hne : worth value t b a ≠ ⊤ := by
        rw [hx]
        exact WithTop.coe_ne_top
      rw [← walkCost_reverse hsymm]
      exact h.le_walkCost (h.square.lt_of_worth hne).1 p.reverse
  exact le_antisymm (hle a b) (hle b a)

theorem Relaxed.get?_comm (h : Relaxed value G weight n n t)
    (hsymm : ∀ a b, weight a b = weight b a) (a b : Qubit) :
    (t.get? a b).map value = (t.get? b a).map value := by
  refine Option.ext fun x => ?_
  rw [Option.map_eq_some_iff, Option.map_eq_some_iff, ← worth_eq_coe, ← worth_eq_coe,
    h.worth_comm hsymm]

theorem Relaxed.get?_trans (h : Relaxed value G weight n n t) {m : Qubit} {c e : R}
    (hc : t.get? a m = some c) (he : t.get? m b = some e) :
    ∃ f, t.get? a b = some f ∧ value f ≤ value c + value e := by
  have hle := h.triangle a m b
  rw [worth_of_get? hc, worth_of_get? he, ← WithTop.coe_add] at hle
  obtain ⟨x, hx, hxle⟩ := WithTop.le_coe_iff.mp hle
  obtain ⟨f, hf, rfl⟩ := worth_eq_coe.mp hx
  exact ⟨f, hf, hxle⟩

end Relaxed

variable [Scalar R]

/-! ## Writing a table -/

section Offers

variable {n : Nat} {t : CostTable R} {a b i j : Qubit}

theorem Square.offer (h : Square n t) (i j : Qubit) (w : R) : Square n (t.offer i j w) := by
  constructor
  · rw [CostTable.offer, Array.size_modify, h.rows]
  · intro a row hrow
    rw [CostTable.offer, Array.getElem?_modify] at hrow
    split at hrow
    · obtain ⟨row, hold, rfl⟩ := Option.map_eq_some_iff.mp hrow
      rw [Array.size_modify, h.columns a row hold]
    · exact h.columns a row hrow

/-- An offer changes one entry at most. -/
theorem get?_offer (h : Square n t) (hi : i < n) (hj : j < n) (w : R) (a b : Qubit) :
    (t.offer i j w).get? a b =
      if a = i ∧ b = j then cheaper (t.get? i j) (some w) else t.get? a b := by
  by_cases ha : a = i
  · subst ha
    obtain ⟨row, hrow, hsize⟩ := h.exists_row hi
    simp only [get?, CostTable.offer, Array.getD_eq_getD_getElem?, Array.getElem?_modify, hrow,
      if_true, Option.map_some, Option.getD_some, true_and]
    by_cases hb : b = j
    · subst hb
      simp [hsize ▸ hj]
    · simp [hb, Ne.symm hb]
  · simp only [get?, CostTable.offer, Array.getD_eq_getD_getElem?, Array.getElem?_modify,
      Ne.symm ha, ha, if_false, false_and]

theorem square_start (n : Nat) : Square n (start n : CostTable R) := by
  constructor
  · rw [start, Array.size_ofFn]
  · intro i row hrow
    rw [start, Array.getElem?_ofFn] at hrow
    split at hrow
    · rw [← Option.some.inj hrow, Array.size_ofFn]
    · cases hrow

theorem get?_start {c : R} : (start n : CostTable R).get? a b = some c ↔ a < n ∧ a = b ∧ c = 0 := by
  rw [get?_eq_some]
  simp only [start, Array.getElem?_ofFn]
  constructor
  · rintro ⟨row, hrow, hb⟩
    split at hrow
    · rename_i ha
      obtain rfl := Option.some.inj hrow
      rw [Array.getElem?_ofFn] at hb
      split at hb
      · have hab := Option.some.inj hb
        split at hab
        · rename_i he
          exact ⟨ha, Fin.mk.inj he, (Option.some.inj hab).symm⟩
        · cases hab
      · cases hb
    · cases hrow
  · rintro ⟨ha, rfl, rfl⟩
    simp [ha]

end Offers

/-! ## Single links -/

section Links

variable {n : Nat} {links links' : List (Qubit × Qubit × R)}

/-- Links of different pairs of different qubits. -/
structure Simple (n : Nat) (links : List (Qubit × Qubit × R)) : Prop where
  fits : ∀ l ∈ links, l.1 < n ∧ l.2.1 < n ∧ l.1 ≠ l.2.1
  distinct : links.Pairwise fun l m => s(l.1, l.2.1) ≠ s(m.1, m.2.1)

omit [Scalar R] in
theorem Simple.perm (h : Simple n links) (hp : links'.Perm links) : Simple n links' :=
  ⟨fun l hl => h.fits l (hp.mem_iff.mp hl), hp.symm.pairwise h.distinct fun hne => hne.symm⟩

theorem square_direct (n : Nat) (links : List (Qubit × Qubit × R)) : Square n (direct n links) := by
  refine List.foldlRecOn (motive := Square n) links _ (square_start n) fun t ht l _ => ?_
  exact (ht.offer l.1 l.2.1 l.2.2).offer l.2.1 l.1 l.2.2

/-- The table of single links holds the cost of each link for both of its directions. -/
theorem get?_direct (h : Simple n links) {a b : Qubit} {c : R} :
    (direct n links).get? a b = some c ↔
      (a < n ∧ a = b ∧ c = 0) ∨ ∃ l ∈ links, s(l.1, l.2.1) = s(a, b) ∧ l.2.2 = c := by
  induction links using List.reverseRecOn generalizing a b c with
  | nil => simp [direct, get?_start]
  | append_singleton links l ih =>
    obtain ⟨i, j, w⟩ := l
    obtain ⟨hd, -, hnew⟩ := List.pairwise_append.mp h.distinct
    have hsimple : Simple n links := ⟨fun l hl => h.fits l (by simp [hl]), hd⟩
    obtain ⟨hi, hj, hij⟩ : i < n ∧ j < n ∧ i ≠ j := h.fits (i, j, w) (by simp)
    have hsq := square_direct n links
    -- nothing is entered for a pair before its link
    have hnone (a b : Qubit) (hab : s(i, j) = s(a, b)) : (direct n links).get? a b = none := by
      rw [Option.eq_none_iff_forall_ne_some]
      intro c hc
      rcases (ih hsimple).mp hc with ⟨-, rfl, -⟩ | ⟨l, hl, hlab, -⟩
      · obtain ⟨rfl, rfl⟩ : i = a ∧ j = a := by simpa using Sym2.eq_iff.mp hab
        exact hij rfl
      · exact hnew l hl (i, j, w) (by simp) (hlab.trans hab.symm)
    have hstep : (direct n (links ++ [(i, j, w)])).get? a b =
        if s(i, j) = s(a, b) then some w else (direct n links).get? a b := by
      have hne : ¬(j = i ∧ i = j) := fun hji => hij hji.2
      rw [direct, List.foldl_append, ← direct]
      simp only [List.foldl_cons, List.foldl_nil]
      rw [get?_offer (hsq.offer i j w) hj hi, get?_offer hsq hi hj, get?_offer hsq hi hj,
        hnone i j rfl, hnone j i Sym2.eq_swap, if_neg hne]
      simp only [cheaper, Sym2.eq_iff]
      grind
    simp only [hstep, List.mem_append, or_and_right, exists_or, List.mem_singleton, exists_eq_left]
    rw [← or_assoc, ← ih hsimple]
    split
    · rename_i hab
      simp [hnone a b hab, hab]
    · rename_i hab
      simp [hab]

/-- The table of single links does not depend on their order, nor on the order of their ends. -/
theorem direct_eq (h : Simple n links) (h' : Simple n links')
    (he : ∀ (pair : Sym2 Qubit) (w : R),
      (∃ l ∈ links, s(l.1, l.2.1) = pair ∧ l.2.2 = w) ↔
        ∃ l ∈ links', s(l.1, l.2.1) = pair ∧ l.2.2 = w) :
    direct n links = direct n links' := by
  refine (square_direct n links).ext (square_direct n links') fun a b => Option.ext fun c => ?_
  rw [get?_direct h, get?_direct h', he]

end Links

/-! ## One round -/

section Round

variable {n : Nat} {t : CostTable R} {value : R → ℝ} {i k : Qubit}

/-- The cheaper one of two costs costs the less of both. -/
theorem elim_cheaper (hv : Scalar.Ordered value) (old : Option R) (w : R) :
    ((cheaper old (some w)).elim ⊤ fun c => (value c : WithTop ℝ)) =
      min (old.elim ⊤ fun c => (value c : WithTop ℝ)) (value w) := by
  cases old with
  | none => simp [cheaper]
  | some c =>
    rw [cheaper]
    split
    · rename_i hlt
      have hle := ((hv.lt_iff w c).mp hlt).le
      simp [min_eq_right (WithTop.coe_le_coe.mpr hle)]
    · rename_i hlt
      have hle := not_lt.mp fun hwc => hlt ((hv.lt_iff w c).mpr hwc)
      simp [min_eq_left (WithTop.coe_le_coe.mpr hle)]

theorem worth_offer (hv : Scalar.Ordered value) (h : Square n t) {j : Qubit} (hi : i < n)
    (hj : j < n) (w : R) (a b : Qubit) : worth value (t.offer i j w) a b =
      if a = i ∧ b = j then min (worth value t i j) (value w) else worth value t a b := by
  rw [worth, get?_offer h hi hj]
  split
  · exact elim_cheaper hv _ w
  · rfl

theorem Square.throughEntry (h : Square n t) (k i : Qubit) (head : R) (j : Qubit) :
    Square n (throughEntry k i head t j) := by
  rw [CostTable.throughEntry]
  split
  · exact h
  · exact h.offer _ _ _

theorem Square.foldl_throughEntry (h : Square n t) (k i : Qubit) (head : R) (js : List Qubit) :
    Square n (js.foldl (CostTable.throughEntry k i head) t) :=
  List.foldlRecOn (motive := Square n) js _ h fun _ ht j _ => ht.throughEntry k i head j

theorem Square.throughRow (h : Square n t) (k i : Qubit) : Square n (throughRow k t i) := by
  rw [CostTable.throughRow]
  split
  · exact h
  · exact h.foldl_throughEntry _ _ _ _

theorem Square.through (h : Square n t) (k : Qubit) : Square n (through t k) :=
  List.foldlRecOn (motive := Square n) _ _ h fun _ ht i _ => ht.throughRow k i

theorem worth_throughEntry (hv : Scalar.Ordered value) (h : Square n t) (hi : i < n) (head : R)
    (j a b : Qubit) : worth value (throughEntry k i head t j) a b =
      if a = i ∧ b = j then min (worth value t i j) (value head + worth value t k j)
      else worth value t a b := by
  rw [throughEntry]
  split
  · rename_i hnone
    rw [worth_eq_top.mpr hnone, WithTop.add_top, min_top_right]
    split
    · rename_i hab
      rw [hab.1, hab.2]
    · rfl
  · rename_i tail hsome
    rw [worth_offer hv h hi (h.lt_of_get? hsome).2, worth_of_get? hsome, hv.add, WithTop.coe_add]

/-- Each entry of a row is offered the way on from `k` that stood there before: the sweep writes an
entry only after it has read it. -/
theorem worth_foldl_throughEntry (hv : Scalar.Ordered value) (h : Square n t) (hi : i < n) (head : R)
    {js : List Qubit} (hjs : js.Nodup) (a b : Qubit) :
    worth value (js.foldl (throughEntry k i head) t) a b =
      if a = i ∧ b ∈ js then min (worth value t i b) (value head + worth value t k b)
      else worth value t a b := by
  induction js generalizing t with
  | nil => simp
  | cons j js ih =>
    obtain ⟨hj, hjs⟩ := List.nodup_cons.mp hjs
    have hother (x : Qubit) (hb : b ∈ js) :
        worth value (throughEntry k i head t j) x b = worth value t x b := by
      rw [worth_throughEntry hv h hi, if_neg]
      rintro ⟨-, rfl⟩
      exact hj hb
    rw [List.foldl_cons, ih (h.throughEntry k i head j) hjs]
    by_cases hb : b ∈ js
    · simp only [hother _ hb, hb, List.mem_cons, or_true]
    · rw [if_neg fun hab => hb hab.2, worth_throughEntry hv h hi]
      by_cases hbj : b = j
      · simp [hbj]
      · simp [hb, hbj]

theorem worth_throughRow (hv : Scalar.Ordered value) (h : Square n t) (k i a b : Qubit) :
    worth value (throughRow k t i) a b =
      if a = i then min (worth value t i b) (worth value t i k + worth value t k b)
      else worth value t a b := by
  rw [throughRow]
  split
  · rename_i hnone
    rw [worth_eq_top.mpr hnone, WithTop.top_add, min_top_right]
    split
    · rename_i ha
      rw [ha]
    · rfl
  · rename_i head hsome
    rw [worth_foldl_throughEntry hv h (h.lt_of_get? hsome).1 head List.nodup_range, h.rows,
      worth_of_get? hsome]
    by_cases hb : b < n
    · simp only [List.mem_range.mpr hb, and_true]
    · -- there is nothing to offer outside the table
      have htop (x : Qubit) : worth value t x b = ⊤ := h.worth_of_not_lt fun hlt => hb hlt.2
      simp [htop]

theorem worth_foldl_throughRow (hv : Scalar.Ordered value) (h : Square n t)
    (hk : worth value t k k = 0) {is : List Qubit} (his : is.Nodup) (a b : Qubit) :
    worth value (is.foldl (throughRow k) t) a b =
      if a ∈ is then min (worth value t a b) (worth value t a k + worth value t k b)
      else worth value t a b := by
  induction is generalizing t with
  | nil => simp
  | cons i is ih =>
    obtain ⟨hi, his⟩ := List.nodup_cons.mp his
    -- the row of `k` stands still, also while it is its own turn
    have hrow (c : Qubit) : worth value (throughRow k t i) k c = worth value t k c := by
      rw [worth_throughRow hv h]
      split
      · rename_i hki
        rw [← hki, hk, zero_add, min_self]
      · rfl
    rw [List.foldl_cons, ih (h.throughRow k i) (by rw [hrow, hk]) his, hrow]
    by_cases ha : a ∈ is
    · have hai : a ≠ i := fun hai => hi (hai ▸ ha)
      simp only [worth_throughRow hv h, ha, hai, if_true, if_false, List.mem_cons, or_true]
    · rw [if_neg ha, worth_throughRow hv h]
      by_cases hai : a = i
      · simp [hai]
      · simp [ha, hai]

/-- A round offers all ways over `k` at once. -/
theorem worth_through (hv : Scalar.Ordered value) (h : Square n t) (hk : worth value t k k = 0)
    (a b : Qubit) : worth value (through t k) a b =
      min (worth value t a b) (worth value t a k + worth value t k b) := by
  rw [through, worth_foldl_throughRow hv h hk List.nodup_range, h.rows]
  split
  · rfl
  · rename_i ha
    have htop (x : Qubit) : worth value t a x = ⊤ :=
      h.worth_of_not_lt fun hlt => ha (List.mem_range.mpr hlt.1)
    rw [htop, htop, WithTop.top_add, min_self]

end Round

/-! ## All rounds -/

section Rounds

variable {n k : Nat} {t : CostTable R} {value : R → ℝ} {G : SimpleGraph Qubit}
  {weight : Qubit → Qubit → ℝ}

/-- A round keeps what the earlier ones have made. -/
theorem Relaxed.through (h : Relaxed value G weight n k t) (hv : Scalar.Ordered value)
    (hw : ∀ a b, 0 ≤ weight a b) (hk : k < n) :
    Relaxed value G weight n (k + 1) (CostTable.through t k) := by
  have hround := worth_through hv h.square (h.diagonal k hk)
  have hle (a b : Qubit) : worth value (CostTable.through t k) a b ≤ worth value t a b := by
    rw [hround]
    exact min_le_left _ _
  refine ⟨h.square.through k, ?_, ?_, ?_, ?_⟩
  · intro a ha
    rw [hround, h.diagonal a ha]
    exact min_eq_left (add_nonneg (h.nonneg hw a k) (h.nonneg hw k a))
  · exact fun a b hab => (hle a b).trans (h.link a b hab)
  · intro a b x hx
    rw [hround] at hx
    rcases min_choice (worth value t a b) (worth value t a k + worth value t k b) with hmin | hmin
    · exact h.attained a b x (hmin ▸ hx)
    · obtain ⟨y, z, hy, hz, rfl⟩ := WithTop.add_eq_coe.mp (hmin ▸ hx)
      obtain ⟨p, hp⟩ := h.attained a k y hy.symm
      obtain ⟨q, hq⟩ := h.attained k b z hz.symm
      exact ⟨p.append q, by rw [walkCost_append, hp, hq]⟩
  · intro m hm a b
    simp only [hround]
    exact h.min_detour hw (Nat.le_of_lt_succ hm) a b

/-- The rounds of all qubits leave the costs of cheapest walks. -/
theorem relaxed_cheapest (hv : Scalar.Ordered value) (hw : ∀ a b, 0 ≤ weight a b)
    {links : List (Qubit × Qubit × R)} (h : Relaxed value G weight n 0 (direct n links)) :
    Relaxed value G weight n n (cheapest n links) := by
  have hrun (k : Nat) (hk : k ≤ n) :
      Relaxed value G weight n k ((List.range k).foldl CostTable.through (direct n links)) := by
    induction k with
    | zero => exact h
    | succ k ih =>
      rw [List.range_succ, List.foldl_append]
      exact (ih (by omega)).through hv hw hk
  exact hrun n le_rfl

end Rounds

end QuantumCompiler.CostTable
