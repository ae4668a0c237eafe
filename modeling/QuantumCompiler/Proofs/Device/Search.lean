import Mathlib
import QuantumCompiler.Device.Basic

/-!
# Breadth-first search

The search for the ways to a qubit knows, in the end, the distance of every qubit that is connected to
it, and from each one a next qubit that is one link nearer. `Searching` is what holds all along: what is
known was met from something nearer, and only qubits in the queue can have neighbours that are not known.
-/
namespace QuantumCompiler.Approach

variable {adjacency : Array (List Qubit)} {target : Qubit}

/-- The distance of a qubit is known. -/
def Knows (a : Approach) (q : Qubit) (h : Nat) : Prop := a.hops[q]? = some (some h)

/-- Number of qubits that were not met. -/
def unknown (a : Approach) : Nat := a.hops.toList.count none

/-- What meeting the neighbours of a qubit at distance `k` does: the new ones are known and queued. -/
structure Meets (from_ : Qubit) (k : Nat) (ns : List Qubit) (a b : Approach) (new : List Qubit) :
    Prop where
  hops_size : b.hops.size = a.hops.size
  next_size : b.next.size = a.next.size
  fresh : ∀ q ∈ new, q ∈ ns ∧ a.hops[q]? = some none ∧ b.Knows q (k + 1) ∧
    b.next[q]? = some (some from_)
  old : ∀ q, q ∉ new → b.hops[q]? = a.hops[q]? ∧ b.next[q]? = a.next[q]?
  met : ∀ q ∈ ns, b.hops[q]? ≠ some none
  fewer : b.unknown + new.length = a.unknown

theorem Meets.knows {from_ : Qubit} {k : Nat} {ns new : List Qubit} {a b : Approach}
    (h : Meets from_ k ns a b new) {q : Qubit} {d : Nat} (hq : a.Knows q d) :
    b.Knows q d ∧ b.next[q]? = a.next[q]? := by
  have hnot : q ∉ new := by
    intro hm
    have hnone := (h.fresh q hm).2.1
    rw [hq] at hnone
    cases hnone
  exact ⟨(h.old q hnot).1.trans hq, (h.old q hnot).2⟩

section Meet

variable {from_ : Qubit} {k : Nat} {a : Approach}

/-- A qubit that was met before is not met again. -/
theorem meets_known (from_ : Qubit) (k : Nat) (queue : List Qubit) {q : Qubit}
    (hq : a.hops[q]? ≠ some none) :
    meet from_ (a, queue) q = (a, queue) ∧ Meets from_ k [q] a a [] := by
  constructor
  · simp only [meet]
  · exact ⟨rfl, rfl, by simp, fun _ _ => ⟨rfl, rfl⟩, by simpa using hq, rfl⟩

/-- A qubit that is met for the first time is one link farther away and joins the queue. -/
theorem meets_new (queue : List Qubit) (hf : a.Knows from_ k)
    (hs : a.next.size = a.hops.size) {q : Qubit} (hq : a.hops[q]? = some none) :
    ∃ b, meet from_ (a, queue) q = (b, queue ++ [q]) ∧ Meets from_ k [q] a b [q] := by
  obtain ⟨hlt, hval⟩ := Array.getElem?_eq_some_iff.mp hq
  refine ⟨⟨a.hops.setIfInBounds q (some (k + 1)), a.next.setIfInBounds q (some from_)⟩, ?_, ?_⟩
  · have hf' : (a.hops[from_]?.join).map (· + 1) = some (k + 1) := by
      rw [show a.hops[from_]? = some (some k) from hf]
      rfl
    simp only [meet, hq, hf']
  · constructor
    · simp
    · simp
    · intro x hx
      obtain rfl := List.mem_singleton.mp hx
      refine ⟨by simp, hq, ?_, ?_⟩
      · simp [Knows, hlt]
      · simp [hs, hlt]
    · intro x hx
      have hne : q ≠ x := fun h => hx (by simp [h])
      simp [Array.getElem?_setIfInBounds_ne hne]
    · intro x hx
      obtain rfl := List.mem_singleton.mp hx
      simp [hlt]
    · have hlen : q < a.hops.toList.length := by simpa using hlt
      have hpos : 0 < a.hops.toList.count none := by
        rw [List.count_pos_iff, Array.mem_toList_iff]
        exact Array.mem_of_getElem? hq
      simp only [unknown, Array.toList_setIfInBounds, List.length_singleton,
        List.count_set hlen, Array.getElem_toList, hval]
      simp only [beq_self_eq_true, if_true, reduceCtorEq, beq_iff_eq, if_false]
      omega

/-- Neighbours met after others. -/
theorem Meets.append {ns ms first rest : List Qubit} {a b c : Approach}
    (hm : Meets from_ k ns a b first) (hr : Meets from_ k ms b c rest) :
    Meets from_ k (ns ++ ms) a c (first ++ rest) := by
  constructor
  · rw [hr.hops_size, hm.hops_size]
  · rw [hr.next_size, hm.next_size]
  · intro x hx
    rcases List.mem_append.mp hx with hx | hx
    · obtain ⟨hxn, hnone, hknown, hnext⟩ := hm.fresh x hx
      obtain ⟨hk, hn⟩ := hr.knows hknown
      exact ⟨by simp [hxn], hnone, hk, hn.trans hnext⟩
    · obtain ⟨hxm, hnone, hknown, hnext⟩ := hr.fresh x hx
      refine ⟨by simp [hxm], ?_, hknown, hnext⟩
      by_cases hf : x ∈ first
      · have hk := (hm.fresh x hf).2.2.1
        rw [Knows, hnone] at hk
        cases hk
      · rw [← (hm.old x hf).1, hnone]
  · intro x hx
    rw [List.mem_append, not_or] at hx
    obtain ⟨h1, h2⟩ := hr.old x hx.2
    obtain ⟨g1, g2⟩ := hm.old x hx.1
    exact ⟨h1.trans g1, h2.trans g2⟩
  · intro x hx hnone
    rcases List.mem_append.mp hx with hx | hx
    · by_cases hxr : x ∈ rest
      · have hk := (hr.fresh x hxr).2.2.1
        rw [Knows, hnone] at hk
        cases hk
      · rw [(hr.old x hxr).1] at hnone
        exact hm.met x hx hnone
    · exact hr.met x hx hnone
  · have h1 := hm.fewer
    have h2 := hr.fewer
    rw [List.length_append]
    omega

theorem foldl_meet (ns queue : List Qubit) {a : Approach} (hf : a.Knows from_ k)
    (hs : a.next.size = a.hops.size) :
    ∃ b new, ns.foldl (meet from_) (a, queue) = (b, queue ++ new) ∧
      Meets from_ k ns a b new := by
  induction ns generalizing a queue with
  | nil =>
    exact ⟨a, [], by simp, rfl, rfl, by simp, fun _ _ => ⟨rfl, rfl⟩, by simp, rfl⟩
  | cons q ns ih =>
    obtain ⟨b, first, hb, hm⟩ : ∃ b first, meet from_ (a, queue) q = (b, queue ++ first) ∧
        Meets from_ k [q] a b first := by
      by_cases hq : a.hops[q]? = some none
      · obtain ⟨b, hb, hm⟩ := meets_new queue hf hs hq
        exact ⟨b, [q], hb, hm⟩
      · obtain ⟨hb, hm⟩ := meets_known from_ k queue hq
        exact ⟨a, [], by simpa using hb, hm⟩
    obtain ⟨c, rest, hc, hr⟩ := ih (queue ++ first) (hm.knows hf).1
      (by rw [hm.next_size, hm.hops_size, hs])
    exact ⟨c, first ++ rest, by rw [List.foldl_cons, hb, hc, List.append_assoc], hm.append hr⟩

end Meet

/-- What a search knows along the way. -/
structure Searching (adjacency : Array (List Qubit)) (target : Qubit) (a : Approach)
    (queue : List Qubit) : Prop where
  next_size : a.next.size = a.hops.size
  start : a.Knows target 0
  back : ∀ q h, a.Knows q h → (h = 0 ∧ q = target) ∨ ∃ p k, h = k + 1 ∧
    a.next[q]? = some (some p) ∧ a.Knows p k ∧ q ∈ adjacency.getD p []
  queued : ∀ q ∈ queue, ∃ h, a.Knows q h
  closed : ∀ q h, a.Knows q h → q ∉ queue → ∀ r ∈ adjacency.getD q [], a.hops[r]? ≠ some none

/-- Looking at the neighbours of the first qubit in the queue. -/
theorem searching_step {a b : Approach} {q : Qubit} {queue new : List Qubit} {k : Nat}
    (h : Searching adjacency target a (q :: queue)) (hq : a.Knows q k)
    (hm : Meets q k (adjacency.getD q []) a b new) :
    Searching adjacency target b (queue ++ new) := by
  constructor
  · rw [hm.next_size, hm.hops_size, h.next_size]
  · exact (hm.knows h.start).1
  · intro x d hx
    by_cases hn : x ∈ new
    · obtain ⟨hxa, -, hk, hnext⟩ := hm.fresh x hn
      rw [Knows, hk] at hx
      obtain rfl := Option.some.inj (Option.some.inj hx)
      exact .inr ⟨q, k, rfl, hnext, (hm.knows hq).1, hxa⟩
    · obtain ⟨ho, hnext⟩ := hm.old x hn
      rcases h.back x d (ho.symm.trans hx) with hz | ⟨p, j, hd, hp, hpj, hxp⟩
      · exact .inl hz
      · exact .inr ⟨p, j, hd, hnext.trans hp, (hm.knows hpj).1, hxp⟩
  · intro x hx
    rcases List.mem_append.mp hx with hx | hx
    · obtain ⟨d, hd⟩ := h.queued x (by simp [hx])
      exact ⟨d, (hm.knows hd).1⟩
    · exact ⟨k + 1, (hm.fresh x hx).2.2.1⟩
  · intro x d hx hnot r hr
    rw [List.mem_append, not_or] at hnot
    by_cases hxq : x = q
    · subst hxq
      exact hm.met r hr
    · have ho := (hm.old x hnot.2).1
      have hopen := h.closed x d (ho.symm.trans hx) (by simp [hxq, hnot.1]) r hr
      by_cases hrn : r ∈ new
      · rw [(hm.fresh r hrn).2.2.1]
        simp
      · rw [(hm.old r hrn).1]
        exact hopen

/-- A search with enough steps empties its queue, and what each step keeps holds then. -/
theorem search_keeps {I : Approach → List Qubit → Prop}
    (hstep : ∀ a b q queue new k, Searching adjacency target a (q :: queue) → I a (q :: queue) →
      a.Knows q k → Meets q k (adjacency.getD q []) a b new → I b (queue ++ new))
    (steps : Nat) {a : Approach} {queue : List Qubit} (h : Searching adjacency target a queue)
    (hI : I a queue) (hsteps : a.unknown + queue.length ≤ steps) :
    Searching adjacency target (search adjacency steps (a, queue)) [] ∧
      I (search adjacency steps (a, queue)) [] := by
  induction steps generalizing a queue with
  | zero =>
    obtain rfl : queue = [] := List.length_eq_zero_iff.mp (by omega)
    exact ⟨h, hI⟩
  | succ steps ih =>
    cases queue with
    | nil => exact ⟨h, hI⟩
    | cons q queue =>
      obtain ⟨k, hk⟩ := h.queued q (by simp)
      obtain ⟨b, new, hb, hm⟩ := foldl_meet (adjacency.getD q []) queue hk h.next_size
      have hfewer := hm.fewer
      rw [search, hb]
      apply ih (searching_step h hk hm) (hstep a b q queue new k h hI hk hm)
      simp only [List.length_cons] at hsteps
      rw [List.length_append]
      omega

/-- What a search knows at first: the target. -/
def start (adjacency : Array (List Qubit)) (target : Qubit) : Approach where
  hops := (Array.replicate adjacency.size none).setIfInBounds target (some 0)
  next := (Array.replicate adjacency.size none).setIfInBounds target (some target)

theorem knows_start (ht : target < adjacency.size) {q : Qubit} {h : Nat} :
    (start adjacency target).Knows q h ↔ q = target ∧ h = 0 := by
  rw [Knows, start]
  by_cases hqt : target = q
  · subst hqt
    simp [ht, eq_comm]
  · rw [Array.getElem?_setIfInBounds_ne hqt, Array.getElem?_replicate]
    split <;> simp [Ne.symm hqt]

theorem searching_start (ht : target < adjacency.size) :
    Searching adjacency target (start adjacency target) [target] := by
  constructor
  · simp [start]
  · exact (knows_start ht).mpr ⟨rfl, rfl⟩
  · intro q h hq
    exact .inl ((knows_start ht).mp hq).symm
  · intro q hq
    exact ⟨0, (knows_start ht).mpr ⟨List.mem_singleton.mp hq, rfl⟩⟩
  · intro q h hq hnot
    exact absurd (List.mem_singleton.mpr ((knows_start ht).mp hq).1) hnot

theorem unknown_start (ht : target < adjacency.size) :
    (start adjacency target).unknown + [target].length ≤ adjacency.size := by
  have hlen : target < (List.replicate adjacency.size (none : Option Nat)).length := by
    simpa using ht
  simp only [start, unknown, Array.toList_setIfInBounds, Array.toList_replicate,
    List.count_set hlen]
  simp
  exact Nat.zero_lt_of_lt ht

/-- A search to a qubit of the table runs to its end. -/
theorem searching_toQubit (ht : target < adjacency.size) :
    Searching adjacency target (toQubit adjacency target) [] :=
  (search_keeps (I := fun _ _ => True) (by simp) _ (searching_start ht) trivial (unknown_start ht)).1

/-! ## The size of the tables -/

theorem hops_meet (from_ : Qubit) (state : Approach × List Qubit) (q : Qubit) :
    (meet from_ state q).1.hops.size = state.1.hops.size := by
  obtain ⟨a, queue⟩ := state
  simp only [meet]
  split <;> simp

theorem hops_search (steps : Nat) (a : Approach) (queue : List Qubit) :
    (search adjacency steps (a, queue)).hops.size = a.hops.size := by
  induction steps generalizing a queue with
  | zero => rfl
  | succ steps ih =>
    cases queue with
    | nil => rfl
    | cons q queue =>
      have hfold (ns : List Qubit) (state : Approach × List Qubit) :
          (ns.foldl (meet q) state).1.hops.size = state.1.hops.size := by
        induction ns generalizing state with
        | nil => rfl
        | cons n ns ihn => rw [List.foldl_cons, ihn, hops_meet]
      rw [search, ih, hfold]

theorem hops_toQubit (target : Qubit) :
    (toQubit adjacency target).hops.size = adjacency.size := by
  rw [toQubit, hops_search]
  simp

/-! ## The way to the target -/

section Walk

variable {a : Approach}

/-- When the queue is empty, what is coupled to a known qubit is known. -/
theorem exists_knows_of_adjacent (h : Searching adjacency target a [])
    (hn : ∀ q r, r ∈ adjacency.getD q [] → r < a.hops.size) {p r : Qubit} {d : Nat}
    (hp : a.Knows p d) (hr : r ∈ adjacency.getD p []) : ∃ e, a.Knows r e := by
  have hopen := h.closed p d hp (by simp) r hr
  have hlt := hn p r hr
  rw [Array.getElem?_eq_getElem hlt] at hopen
  cases hv : a.hops[r] with
  | none => simp [hv] at hopen
  | some e => exact ⟨e, by rw [Knows, Array.getElem?_eq_getElem hlt, hv]⟩

/-- Everything connected to the target is known. -/
theorem exists_knows (h : Searching adjacency target a [])
    (hn : ∀ q r, r ∈ adjacency.getD q [] → r < a.hops.size) {q : Qubit}
    (hc : Relation.ReflTransGen (fun p r => r ∈ adjacency.getD p []) target q) :
    ∃ d, a.Knows q d := by
  induction hc with
  | refl => exact ⟨0, h.start⟩
  | tail _ hr ih =>
    obtain ⟨d, hd⟩ := ih
    exact exists_knows_of_adjacent h hn hd hr

/-- The way from a qubit: one link for each unit of distance, always nearer, up to the target. -/
theorem walk_spec (h : Searching adjacency target a []) (d : Nat) {q : Qubit} (hq : a.Knows q d) :
    (q :: Device.walk a d q).length = d + 1 ∧
      (q :: Device.walk a d q).IsChain (fun p r => p ∈ adjacency.getD r []) ∧
      (q :: Device.walk a d q).getLast? = some target ∧
      (q :: Device.walk a d q).Nodup ∧ ∀ x ∈ q :: Device.walk a d q, ∃ e ≤ d, a.Knows x e := by
  induction d generalizing q with
  | zero =>
    rcases h.back q 0 hq with ⟨-, rfl⟩ | ⟨p, k, hk, -⟩
    · exact ⟨rfl, .singleton _, rfl, by simp [Device.walk], fun x hx => by
        obtain rfl := List.mem_singleton.mp hx
        exact ⟨0, le_rfl, hq⟩⟩
    · omega
  | succ d ih =>
    rcases h.back q (d + 1) hq with ⟨hd, -⟩ | ⟨p, k, hk, hp, hpk, hqp⟩
    · omega
    · obtain rfl : k = d := by omega
      have hnext : a.next.getD q none = some p := by
        rw [Array.getD_eq_getD_getElem?, hp]
        rfl
      have hwalk : Device.walk a (k + 1) q = p :: Device.walk a k p := by
        rw [Device.walk, hnext]
      obtain ⟨hlen, hchain, hlast, hnd, hknown⟩ := ih hpk
      rw [hwalk]
      refine ⟨by simpa using hlen, .cons_cons hqp hchain, by simpa using hlast, ?_, ?_⟩
      · refine List.nodup_cons.mpr ⟨?_, hnd⟩
        intro hm
        obtain ⟨e, he, hke⟩ := hknown q hm
        rw [Knows, hq] at hke
        have := Option.some.inj (Option.some.inj hke)
        omega
      · intro x hx
        rcases List.mem_cons.mp hx with rfl | hx
        · exact ⟨k + 1, le_rfl, hq⟩
        · obtain ⟨e, he, hke⟩ := hknown x hx
          exact ⟨e, by omega, hke⟩

end Walk

end QuantumCompiler.Approach
