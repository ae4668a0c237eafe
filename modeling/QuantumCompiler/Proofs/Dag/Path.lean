import Mathlib
import QuantumCompiler.Dag.Basic

/-!
# Paths and their edges

The edges between the neighbours of a path, as a list. A wire whose edges are those of a path without
repetitions determines at each point of the path the one before and the one after. The order in which
the edges are stored does not matter.
-/
namespace QuantumCompiler

/-- The edges between the neighbours of a path. -/
def linksOf : List Node → List Link
  | a :: b :: rest => ⟨a, b⟩ :: linksOf (b :: rest)
  | _ => []

theorem linksOf_append {p s : List Node} {a b : Node} (hp : p.getLast? = some a)
    (hs : s.head? = some b) : linksOf (p ++ s) = linksOf p ++ ⟨a, b⟩ :: linksOf s := by
  induction p with
  | nil => simp at hp
  | cons x p ih =>
    cases p with
    | nil =>
      obtain rfl : x = a := by simpa using hp
      cases s with
      | nil => simp at hs
      | cons y s =>
        obtain rfl : y = b := by simpa using hs
        rfl
    | cons y p =>
      have h := ih (by simpa using hp)
      simp only [List.cons_append, linksOf] at h ⊢
      rw [h]

theorem linksOf_concat {p : List Node} {a b : Node} (hp : p.getLast? = some a) :
    linksOf (p ++ [b]) = linksOf p ++ [⟨a, b⟩] := by
  rw [linksOf_append hp (b := b) (by simp)]
  rfl

theorem map_source_linksOf (p : List Node) : (linksOf p).map Link.source = p.dropLast := by
  induction p with
  | nil => rfl
  | cons a p ih =>
    cases p with
    | nil => rfl
    | cons b p => simp [linksOf, ih]

theorem map_target_linksOf (p : List Node) : (linksOf p).map Link.target = p.tail := by
  induction p with
  | nil => rfl
  | cons a p ih =>
    cases p with
    | nil => rfl
    | cons b p => simpa [linksOf] using ih

/-- One of the two ends of an edge. -/
inductive Side where
  | source
  | target

namespace Side

def opposite : Side → Side
  | source => target
  | target => source

/-- The point at this end of an edge. -/
def point : Side → Link → Node
  | source => Link.source
  | target => Link.target

/-- The edge with one point at this end and another at the opposite one. -/
def link : Side → Node → Node → Link
  | source, a, b => ⟨a, b⟩
  | target, a, b => ⟨b, a⟩

/-- The point of a wire that is at this end of no edge. -/
def terminal : Side → Wire → Node
  | source => .output
  | target => .input

variable (s : Side)

@[simp] theorem point_link (a b : Node) : s.point (s.link a b) = a := by cases s <;> rfl

@[simp] theorem point_opposite_link (a b : Node) : s.opposite.point (s.link a b) = b := by
  cases s <;> rfl

theorem link_point (l : Link) : s.link (s.point l) (s.opposite.point l) = l := by cases s <;> rfl

theorem sublist_linksOf (p : List Node) : ((linksOf p).map s.point).Sublist p := by
  cases s with
  | source => exact (map_source_linksOf p).symm ▸ List.dropLast_sublist p
  | target => exact (map_target_linksOf p).symm ▸ List.tail_sublist p

theorem point_mem {p : List Node} {l : Link} (h : l ∈ linksOf p) : s.point l ∈ p :=
  (s.sublist_linksOf p).subset (List.mem_map_of_mem h)

/-- On a path without repetitions no two edges have the same point at one end. -/
theorem point_injective {p : List Node} (hp : p.Nodup) {l m : Link} (hl : l ∈ linksOf p)
    (hm : m ∈ linksOf p) (h : s.point l = s.point m) : l = m :=
  List.inj_on_of_nodup_map (hp.sublist (s.sublist_linksOf p)) hl hm h

end Side

/-- An edge of a path splits it. -/
theorem mem_linksOf {p : List Node} {l : Link} :
    l ∈ linksOf p ↔ ∃ before after, p = before ++ l.source :: l.target :: after := by
  constructor
  · induction p with
    | nil => intro h; simp [linksOf] at h
    | cons a p ih =>
      cases p with
      | nil => intro h; simp [linksOf] at h
      | cons b p =>
        intro h
        rcases List.mem_cons.mp h with rfl | h
        · exact ⟨[], p, rfl⟩
        · obtain ⟨before, after, he⟩ := ih h
          exact ⟨a :: before, after, by rw [he]; rfl⟩
  · rintro ⟨before, after, rfl⟩
    rw [show before ++ l.source :: l.target :: after
      = (before ++ [l.source]) ++ l.target :: after by simp]
    rw [linksOf_append (a := l.source) (b := l.target) (by simp) (by simp)]
    simp

theorem isChain_linksOf (p : List Node) : p.IsChain fun a b => ⟨a, b⟩ ∈ linksOf p := by
  induction p with
  | nil => exact .nil
  | cons a p ih =>
    cases p with
    | nil => exact .singleton a
    | cons b p =>
      refine .cons_cons (by simp [linksOf]) (ih.imp ?_)
      intro x y h
      exact List.mem_cons_of_mem _ h

/-- The search finds the only element that passes. -/
theorem find?_eq_some_of_unique {α : Type} {xs : List α} {p : α → Bool} {a : α} (ha : a ∈ xs)
    (hp : p a) (hu : ∀ b ∈ xs, p b → b = a) : xs.find? p = some a := by
  cases hf : xs.find? p with
  | none =>
    have h := List.find?_eq_none.mp hf a ha
    exact absurd hp h
  | some b =>
    have hb := List.find?_some hf
    rw [hu b (List.mem_of_find?_eq_some hf) hb]

/-- The search for an edge by the point at one end finds the edge of the path. -/
theorem find?_point {ls : List Link} {p : List Node} (hl : ls.Perm (linksOf p)) (hp : p.Nodup)
    (s : Side) {l : Link} (h : l ∈ linksOf p) :
    (ls.find? fun m => s.point m == s.point l) = some l := by
  apply find?_eq_some_of_unique (hl.mem_iff.mpr h) (by simp)
  intro m hm he
  exact s.point_injective hp (hl.mem_iff.mp hm) h (by simpa using he)

/-- The point that is met by following the edge with a point at one end. -/
def Dag.across? {R : Type} (d : Dag R) (s : Side) (n : Node) (w : Wire) : Option Node :=
  ((d.along w).find? fun l => s.point l == n).map s.opposite.point

/-- On a wire with the edges of a path, a point leads to another exactly when an edge joins them. -/
theorem Dag.across?_eq_some {R : Type} {d : Dag R} {w : Wire} {p : List Node}
    (hl : (d.along w).Perm (linksOf p)) (hp : p.Nodup) (s : Side) {a b : Node} :
    d.across? s a w = some b ↔ s.link a b ∈ linksOf p := by
  constructor
  · intro h
    obtain ⟨l, hfind, rfl⟩ := Option.map_eq_some_iff.mp h
    obtain rfl : s.point l = a := by simpa using List.find?_some hfind
    rw [s.link_point]
    exact hl.mem_iff.mp (List.mem_of_find?_eq_some hfind)
  · intro h
    have hfind := find?_point hl hp s h
    rw [s.point_link] at hfind
    rw [across?, hfind, Option.map_some, s.point_opposite_link]

theorem not_touches_of_notMem {p : List Node} {n : Node} (hn : n ∉ p) {l : Link}
    (hl : l ∈ linksOf p) : l.touches n = false := by
  have hs : l.source ≠ n := fun h => hn (h ▸ Side.source.point_mem hl)
  have ht : l.target ≠ n := fun h => hn (h ▸ Side.target.point_mem hl)
  simp [Link.touches, hs, ht]

theorem filter_touches_of_notMem {p : List Node} {n : Node} (hn : n ∉ p) :
    ((linksOf p).filter fun l => !l.touches n) = linksOf p := by
  rw [List.filter_eq_self]
  intro l hl
  rw [not_touches_of_notMem hn hl]
  rfl

/-- Without the edges at a point, a path falls into the parts before and after the point. -/
theorem filter_touches {p s : List Node} {n a b : Node} (hp : p.getLast? = some a)
    (hs : s.head? = some b) (hnp : n ∉ p) (hns : n ∉ s) :
    ((linksOf (p ++ n :: s)).filter fun l => !l.touches n) = linksOf p ++ linksOf s := by
  have he : linksOf (p ++ n :: s) = linksOf p ++ ⟨a, n⟩ :: ⟨n, b⟩ :: linksOf s := by
    rw [linksOf_append hp (b := n) (by simp)]
    cases s with
    | nil => simp at hs
    | cons y s =>
      obtain rfl : y = b := by simpa using hs
      rfl
  rw [he, List.filter_append, List.filter_cons_of_neg (by simp [Link.touches]),
    List.filter_cons_of_neg (by simp [Link.touches]), filter_touches_of_notMem hnp,
    filter_touches_of_notMem hns]

end QuantumCompiler
