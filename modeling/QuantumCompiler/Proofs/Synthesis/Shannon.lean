import QuantumCompiler.Proofs.Matrix.Dense
import QuantumCompiler.Proofs.Numeric.Walsh
import QuantumCompiler.Proofs.Outcome
import QuantumCompiler.Synthesis.Shannon

/-!
# Operands and length of a Shannon decomposition

Whatever the numbers do, a decomposition has one of a few shapes, told by `Shape` along the recursion. Its
steps name one or two distinct operands of the source, and the matrix of a dense block has the size of its
operands. Weighing the steps of each shape bounds how many there are of a kind: with each operand more there
are four times as many dense blocks, and three more ladders.
-/
namespace QuantumCompiler

variable {R : Type}

/-- A step on one or two of the given operands, with a matrix of the size it needs. -/
structure ShannonStep.On (s : ShannonStep R) (qs : List Nat) : Prop where
  subset : ∀ q ∈ s.qubits, q ∈ qs
  nodup : s.qubits.Nodup
  pos : 0 < s.qubits.length
  narrow : s.qubits.length ≤ 2
  square : ∀ ks matrix, s = .block ks matrix → matrix.length = 4 ^ ks.length

namespace ShannonStep

theorem On.mono {s : ShannonStep R} {qs rs : List Nat} (h : s.On qs) (hs : ∀ q ∈ qs, q ∈ rs) :
    s.On rs :=
  ⟨fun q hq => hs q (h.subset q hq), h.nodup, h.pos, h.narrow, h.square⟩

/-- A step of a ladder: a rotation of the target, or a `cx` from one of the controls. -/
def OnTarget (rotation : Nat → R → ShannonStep R) (target : Nat) (controls : List Nat)
    (s : ShannonStep R) : Prop :=
  (∃ θ, s = rotation target θ) ∨ ∃ c ∈ controls, s = cx c target

theorem on_ry (q : Nat) (θ : R) : (ry q θ).On [q] := by
  constructor <;> simp [qubits]

theorem on_rz (q : Nat) (θ : R) : (rz q θ).On [q] := by
  constructor <;> simp [qubits]

theorem on_cx {control target : Nat} {qs : List Nat} (hc : control ∈ qs) (ht : target ∈ qs)
    (hne : control ≠ target) : (cx control target : ShannonStep R).On qs := by
  constructor <;> simp [qubits, hc, ht, hne]

def isCx : ShannonStep R → Bool
  | cx .. => true
  | _ => false

def isBlock : ShannonStep R → Bool
  | block .. => true
  | _ => false

/-- A step that an `n`-qubit register can carry out, its dense blocks being on two qubits. -/
structure WellFormed (n : Nat) (s : ShannonStep R) : Prop where
  positions : ∀ q ∈ s.qubits, q < n
  control_ne_target : ∀ control target, s = .cx control target → control ≠ target
  dense : ∀ qs matrix, s = .block qs matrix → (∃ q r, q ≠ r ∧ qs = [q, r]) ∧ matrix.length = 16

/-- A weight that tells dense blocks on two operands from others. -/
def misfit : ShannonStep R → Nat
  | block qs _ => if qs.length = 2 then 0 else 1
  | _ => 0

theorem On.wellFormed {n : Nat} {s : ShannonStep R} (h : s.On (List.range n)) (hfit : s.misfit = 0) :
    s.WellFormed n := by
  refine ⟨fun q hq => List.mem_range.mp (h.subset q hq), ?_, ?_⟩
  · rintro control target rfl rfl
    exact absurd h.nodup (by simp [qubits])
  · rintro qs matrix rfl
    have hlen : qs.length = 2 := by
      by_contra hne
      simp [misfit, hne] at hfit
    obtain ⟨q, r, rfl⟩ := List.length_eq_two.mp hlen
    have hnodup : [q, r].Nodup := h.nodup
    exact ⟨⟨q, r, by simpa using hnodup, rfl⟩, h.square _ _ rfl⟩

end ShannonStep

variable [Scalar R]

namespace Shannon

open ShannonStep

/-- The factorizations return as many numbers as their arguments have. -/
structure Kernels.Sized (kernels : Kernels R) : Prop where
  eigenvectors : ∀ a n, a.Fits n → (kernels.eigenvectors a).Fits n
  cosineSine : ∀ u₀₀ u₀₁ u₁₀ u₁₁ n, u₀₀.Fits n → u₁₀.Fits n →
    (kernels.cosineSine u₀₀ u₀₁ u₁₀ u₁₁).l₀.Fits n ∧
      (kernels.cosineSine u₀₀ u₀₁ u₁₀ u₁₁).r₀.Fits n ∧
      (kernels.cosineSine u₀₀ u₀₁ u₁₀ u₁₁).cosines.size = n ∧
      (kernels.cosineSine u₀₀ u₀₁ u₁₀ u₁₁).sines.size = n

theorem sized_jacobi : (Kernels.jacobi : Kernels R).Sized := by
  refine ⟨fun a n h => Dense.fits_hermitianEigenvectors h, ?_⟩
  intro u₀₀ u₀₁ u₁₀ u₁₁ n h₀ h₁
  obtain ⟨hl, -, hr, -, hc, hs⟩ := Dense.fits_cosineSine h₀ h₁ u₀₁ u₁₁
  exact ⟨hl, hr, hc, hs⟩

theorem onTarget_multiplexed (rotation : Nat → R → ShannonStep R) (angles : List R) (target : Nat)
    (controls : List Nat) :
    ∀ s ∈ multiplexed rotation angles target controls, s.OnTarget rotation target controls := by
  intro s hs
  obtain ⟨i, -, hs⟩ := List.mem_flatMap.mp hs
  rcases List.mem_append.mp hs with hs | hs
  · split at hs
    · exact .inl ⟨_, List.mem_singleton.mp hs⟩
    · cases hs
  · split at hs
    · rename_i control hc
      exact .inr ⟨control, by simpa using List.mem_of_getElem? hc, List.mem_singleton.mp hs⟩
    · cases hs

theorem on_multiplexed {rotation : Nat → R → ShannonStep R} {target : Nat} {controls : List Nat}
    (hr : ∀ θ, (rotation target θ).On [target]) (ht : target ∉ controls) (angles : List R) :
    ∀ s ∈ multiplexed rotation angles target controls, s.On (target :: controls) := by
  intro s hs
  rcases onTarget_multiplexed rotation angles target controls s hs with ⟨θ, rfl⟩ | ⟨c, hc, rfl⟩
  · exact (hr θ).mono (by simp)
  · exact on_cx (by simp [hc]) (by simp) fun h => ht (h ▸ hc)

theorem on_leaf {u : Dense (Cx R)} {qs : List Nat} (hu : u.Fits (2 ^ qs.length)) (hn : qs.Nodup)
    (hpos : 0 < qs.length) (hle : qs.length ≤ 2) : ∀ s ∈ leaf u qs, s.On qs := by
  intro s hs
  unfold leaf at hs
  split at hs
  · cases hs
  · obtain rfl := List.mem_singleton.mp hs
    refine ⟨fun q hq => hq, hn, hpos, hle, ?_⟩
    rintro ks matrix ⟨⟩
    rw [hu.length_toList, ← mul_pow]
    rfl

/-- Each rung of a ladder has its `cx`: the bit that changes belongs to one of the controls. -/
theorem countP_isCx_multiplexed {rotation : Nat → R → ShannonStep R} {target : Nat}
    (hr : ∀ θ, (rotation target θ).isCx = false) {angles : List R} {controls : List Nat}
    (hc : controls ≠ []) (ha : angles.length = 2 ^ controls.length) :
    (multiplexed rotation angles target controls).countP isCx = angles.length := by
  rw [multiplexed, List.countP_flatMap]
  refine (List.sum_eq_card_nsmul _ 1 fun c hcount => ?_).trans (by simp)
  obtain ⟨i, hi, rfl⟩ := List.mem_map.mp hcount
  obtain ⟨b, hb, hchange⟩ := exists_gray_xor (List.length_pos_iff.mpr hc)
    ((List.mem_range.mp hi).trans_eq ha)
  have hlt : b < controls.reverse.length := by rwa [List.length_reverse]
  have hget : controls.reverse[b]? = some controls.reverse[b] := List.getElem?_eq_getElem hlt
  have hcx (c : Nat) : (cx c target : ShannonStep R).isCx = true := rfl
  simp only [Function.comp_apply, List.countP_append, ha, hchange, trailingZeros_two_pow, hget]
  split <;> simp [hr, hcx]

/-! ## The shape of a decomposition -/

/-- The lists of steps that a decomposition on some operands can come to, along its recursion. -/
inductive Shape : List Nat → List (ShannonStep R) → Prop where
  /-- A dense block, where no more than two operands are left. -/
  | dense {qs : List Nat} {u : Dense (Cx R)} (hu : u.Fits (2 ^ qs.length)) (hle : qs.length ≤ 2) :
    Shape qs (leaf u qs)
  /-- The first operand is idle. -/
  | idle {q : Nat} {qs : List Nat} {l : List (ShannonStep R)} (hle : 2 ≤ qs.length) (hl : Shape qs l) :
    Shape (q :: qs) l
  /-- Two unitaries on the other operands around a multiplexed `rz` on the first. -/
  | diagonal {q : Nat} {qs : List Nat} {first last : List (ShannonStep R)} {angles : List R}
    (hle : 2 ≤ qs.length) (hf : Shape qs first) (hl : Shape qs last)
    (ha : angles.length = 2 ^ qs.length) :
    Shape (q :: qs) (first ++ multiplexed rz angles q qs ++ last)
  /-- Two pairs of unitaries on the other operands around multiplexed rotations on the first. -/
  | split {q : Nat} {qs : List Nat} {f₁ l₁ f₂ l₂ : List (ShannonStep R)} {a₁ a a₂ : List R}
    (hle : 2 ≤ qs.length) (hf₁ : Shape qs f₁) (hl₁ : Shape qs l₁) (hf₂ : Shape qs f₂)
    (hl₂ : Shape qs l₂) (ha₁ : a₁.length = 2 ^ qs.length) (ha : a.length = 2 ^ qs.length)
    (ha₂ : a₂.length = 2 ^ qs.length) :
    Shape (q :: qs) ((f₁ ++ multiplexed rz a₁ q qs ++ l₁) ++ multiplexed ry a q qs ++
      (f₂ ++ multiplexed rz a₂ q qs ++ l₂))

section Steps

variable {kernels : Kernels R} (hk : kernels.Sized) (name : String)

include hk

theorem fits_diagonalize {x v d : Dense (Cx R)} {residual : R} {κs : List R}
    (h : diagonalize kernels x residual κs = .ok (v, d)) : v.Fits x.size := by
  induction κs generalizing residual with
  | nil => cases h
  | cons κ κs ih =>
    rw [diagonalize] at h
    split at h
    · exact ih h
    · obtain ⟨rfl, rfl⟩ := Prod.mk.inj (Except.ok.inj h)
      exact hk.eigenvectors _ _ (Dense.fits_ofFn _ _)

/-- The parts that a demultiplexed pair is put together from. -/
theorem parts_of_demultiplex {recurse : Dense (Cx R) → Compile R (List (ShannonStep R))}
    {target : Nat} {controls : List Nat} {n : Nat} {a b : Dense (Cx R)} (ha : a.Fits n)
    {l : List (ShannonStep R)}
    (h : demultiplex kernels name recurse target controls a b = .ok l) :
    ∃ w v first last angles, w.Fits n ∧ v.Fits n ∧ recurse w = .ok first ∧ recurse v = .ok last ∧
      angles.length = n ∧ l = first ++ multiplexed rz angles target controls ++ last := by
  have hx := ha.mul b.adjoint
  unfold demultiplex at h
  simp only at h
  split at h
  · cases h
  · rename_i v d hd
    have hv := fits_diagonalize hk hd
    rw [hx.size] at hv
    obtain ⟨first, hf, h⟩ := Outcome.bind_eq_ok.mp h
    obtain ⟨last, hl, h⟩ := Outcome.bind_eq_ok.mp h
    have hdiag : (Dense.diagonal ((List.range (a.mul b.adjoint).size).map fun i =>
        (d.get i i).sqrt).toArray).Fits n := Dense.fits_diagonal (by simp [hx.size])
    exact ⟨_, v, first, last, _, (hdiag.mul v.adjoint).mul b, hv, hf, hl, by simp [hx.size],
      (Except.ok.inj h).symm⟩

theorem shape_of_steps (qs : List Nat) {u : Dense (Cx R)} (hu : u.Fits (2 ^ qs.length))
    {l : List (ShannonStep R)} (h : steps kernels name qs u = .ok l) : Shape qs l := by
  induction qs generalizing u l with
  | nil =>
    obtain rfl := Except.ok.inj h
    exact .dense hu (by simp)
  | cons q qs ih =>
    match qs with
    | [] =>
      obtain rfl := Except.ok.inj h
      exact .dense hu (by simp)
    | [r] =>
      obtain rfl := Except.ok.inj h
      exact .dense hu (by simp)
    | r :: s :: rest =>
      have hle : 2 ≤ (r :: s :: rest).length := by simp
      have hhalf : u.size / 2 = 2 ^ (r :: s :: rest).length := by
        rw [hu.size, List.length_cons, pow_succ]
        omega
      have hblock (i j : Nat) : (u.block i j (u.size / 2)).Fits (2 ^ (r :: s :: rest).length) := by
        rw [← hhalf]
        exact Dense.fits_block _ _ _ _
      rw [steps] at h
      simp only at h
      split at h
      · split at h
        · exact .idle hle (ih (hblock _ _) h)
        · obtain ⟨w, v, first, last, angles, hw, hv, hf, hl, ha, rfl⟩ :=
            parts_of_demultiplex hk name (hblock _ _) h
          exact .diagonal hle (ih hw hf) (ih hv hl) ha
      · obtain ⟨first, hf, h⟩ := Outcome.bind_eq_ok.mp h
        obtain ⟨last, hl, h⟩ := Outcome.bind_eq_ok.mp h
        obtain rfl := Except.ok.inj h
        obtain ⟨hl₀, hr₀, hcosines, hsines⟩ := hk.cosineSine _ (u.block 0 (u.size / 2) (u.size / 2)) _
          (u.block (u.size / 2) (u.size / 2) (u.size / 2)) _ (hblock 0 0) (hblock (u.size / 2) 0)
        obtain ⟨w₁, v₁, f₁, l₁, a₁, hw₁, hv₁, hf₁, hl₁, ha₁, rfl⟩ := parts_of_demultiplex hk name hr₀ hf
        obtain ⟨w₂, v₂, f₂, l₂, a₂, hw₂, hv₂, hf₂, hl₂, ha₂, rfl⟩ := parts_of_demultiplex hk name hl₀ hl
        refine .split hle (ih hw₁ hf₁) (ih hv₁ hl₁) (ih hw₂ hf₂) (ih hv₂ hl₂) ha₁ ?_ ha₂
        rw [List.length_zipWith, Array.length_toList, Array.length_toList, hcosines, hsines, Nat.min_self]

end Steps

/-! ## Operands -/

/-- The steps of a decomposition on distinct operands stay on them. -/
theorem Shape.on {qs : List Nat} {l : List (ShannonStep R)} (h : Shape qs l) (hn : qs.Nodup)
    (hpos : 0 < qs.length) : ∀ s ∈ l, s.On qs := by
  induction h with
  | dense hu hle => exact on_leaf hu hn hpos hle
  | idle hle hl ih =>
    intro s hs
    exact (ih hn.of_cons (by omega) s hs).mono (by simp +contextual)
  | @diagonal q qs first last angles hle hf hl ha ihf ihl =>
    obtain ⟨hq, hn⟩ := List.nodup_cons.mp hn
    have hmux := on_multiplexed (on_rz (R := R) q) hq angles
    intro s hs
    rw [List.mem_append, List.mem_append] at hs
    rcases hs with (hs | hs) | hs
    · exact (ihf hn (by omega) s hs).mono (by simp +contextual)
    · exact hmux s hs
    · exact (ihl hn (by omega) s hs).mono (by simp +contextual)
  | @split q qs f₁ l₁ f₂ l₂ a₁ a a₂ hle hf₁ hl₁ hf₂ hl₂ ha₁ ha ha₂ ihf₁ ihl₁ ihf₂ ihl₂ =>
    obtain ⟨hq, hn⟩ := List.nodup_cons.mp hn
    have hinner {l : List (ShannonStep R)} (h : ∀ s ∈ l, s.On qs) : ∀ s ∈ l, s.On (q :: qs) :=
      fun s hs => (h s hs).mono (by simp +contextual)
    simp only [List.forall_mem_append]
    exact ⟨⟨⟨⟨hinner (ihf₁ hn (by omega)), on_multiplexed (on_rz q) hq _⟩, hinner (ihl₁ hn (by omega))⟩,
      on_multiplexed (on_ry q) hq _⟩, ⟨hinner (ihf₂ hn (by omega)), on_multiplexed (on_rz q) hq _⟩,
      hinner (ihl₂ hn (by omega))⟩

/-! ## Weights -/

section Weight

/-- The total weight of steps. -/
def weight (w : ShannonStep R → Nat) (l : List (ShannonStep R)) : Nat := (l.map w).sum

/-- Bounds for the weight of a dense block on two operands and for that of a rung of a ladder. -/
structure Weighs (w : ShannonStep R → Nat) (dense rung : Nat) : Prop where
  block : ∀ q r m, w (.block [q, r] m) ≤ dense
  ry : ∀ t θ c, w (.ry t θ) + w (.cx c t) ≤ rung
  rz : ∀ t θ c, w (.rz t θ) + w (.cx c t) ≤ rung

variable {w : ShannonStep R → Nat} {dense rung : Nat}

omit [Scalar R] in
theorem weight_append (w : ShannonStep R → Nat) (l l' : List (ShannonStep R)) :
    weight w (l ++ l') = weight w l + weight w l' := by
  rw [weight, List.map_append, List.sum_append, weight, weight]

omit [Scalar R] in
theorem weight_toNat (p : ShannonStep R → Bool) (l : List (ShannonStep R)) :
    weight (fun s => (p s).toNat) l = l.countP p := by
  induction l with
  | nil => rfl
  | cons s l ih =>
    rw [List.countP_cons, ← ih, weight, List.map_cons, List.sum_cons, Nat.add_comm]
    cases p s <;> rfl

omit [Scalar R] in
theorem weight_flatMap_le {α : Type} {xs : List α} {f : α → List (ShannonStep R)} {b : Nat}
    (h : ∀ x ∈ xs, weight w (f x) ≤ b) : weight w (xs.flatMap f) ≤ xs.length * b := by
  induction xs with
  | nil => exact Nat.zero_le _
  | cons x xs ih =>
    have hx := h x List.mem_cons_self
    have hxs := ih fun y hy => h y (List.mem_cons_of_mem x hy)
    rw [List.flatMap_cons, weight_append, List.length_cons, Nat.succ_mul]
    omega

theorem weight_multiplexed_le {rotation : Nat → R → ShannonStep R} {target : Nat}
    (h : ∀ θ c, w (rotation target θ) + w (.cx c target) ≤ rung) (angles : List R)
    (controls : List Nat) :
    weight w (multiplexed rotation angles target controls) ≤ angles.length * rung := by
  rw [multiplexed]
  refine (weight_flatMap_le fun i _ => ?_).trans_eq (by rw [List.length_range])
  have hθ := h (ladderAngle angles i)
  rw [weight_append]
  split <;> split <;> simp only [weight, List.map_cons, List.map_nil, List.sum_cons, List.sum_nil]
  · exact hθ _
  · exact (Nat.le_add_right _ _).trans (hθ 0)
  · have := hθ ‹_›
    omega
  · exact Nat.zero_le _

theorem weight_leaf_le (h : Weighs w dense rung) (u : Dense (Cx R)) (q r : Nat) :
    weight w (leaf u [q, r]) ≤ dense := by
  unfold leaf
  split
  · exact Nat.zero_le _
  · exact h.block q r _

/-- With each operand more there are four times as many blocks, and three more ladders. -/
theorem Shape.weight_add_le {qs : List Nat} {l : List (ShannonStep R)} (hs : Shape qs l)
    (h : Weighs w dense rung) {k : Nat} (hk : qs.length = k + 2) :
    weight w l + 6 * rung * 2 ^ k ≤ (dense + 6 * rung) * 4 ^ k := by
  -- the other operands are one fewer, and a ladder on them has `4 * 2ᵏ` rungs
  have hpred {j : Nat} {qs : List Nat} (hle : 2 ≤ qs.length) (hj : qs.length + 1 = j + 2) :
      ∃ m, j = m + 1 ∧ qs.length = m + 2 ∧ 2 ^ qs.length = 4 * 2 ^ m ∧
        rung * 2 ^ m ≤ rung * 4 ^ m := by
    obtain ⟨m, hm⟩ := Nat.exists_eq_add_of_le' hle
    exact ⟨m, by omega, hm, by rw [hm, pow_add, mul_comm]; rfl,
      Nat.mul_le_mul_left rung (Nat.pow_le_pow_left (by decide) m)⟩
  have hladder {rotation : Nat → R → ShannonStep R} {q : Nat} {qs : List Nat}
      (hr : ∀ θ c, w (rotation q θ) + w (.cx c q) ≤ rung) {angles : List R}
      (ha : angles.length = 2 ^ qs.length) :
      weight w (multiplexed rotation angles q qs) ≤ 2 ^ qs.length * rung :=
    ha ▸ weight_multiplexed_le hr angles qs
  induction hs generalizing k with
  | @dense qs u hu hle =>
    obtain rfl : k = 0 := by omega
    obtain ⟨q, r, rfl⟩ := List.length_eq_two.mp hk
    have := weight_leaf_le h u q r
    omega
  | @idle q qs l hle hl ih =>
    obtain ⟨m, rfl, hm, hpow, hrung⟩ := hpred hle hk
    have hl := ih hm
    have hall := Nat.zero_le ((dense + 4 * rung) * 4 ^ m)
    rw [pow_succ, pow_succ]
    linarith
  | @diagonal q qs first last angles hle hf hl ha ihf ihl =>
    obtain ⟨m, rfl, hm, hpow, hrung⟩ := hpred hle hk
    have hf := ihf hm
    have hl := ihl hm
    have hmiddle := hladder (h.rz q) ha
    have hdense := Nat.zero_le (dense * 4 ^ m)
    simp only [weight_append, pow_succ]
    rw [hpow] at hmiddle
    linarith
  | @split q qs f₁ l₁ f₂ l₂ a₁ a a₂ hle hf₁ hl₁ hf₂ hl₂ ha₁ ha ha₂ ihf₁ ihl₁ ihf₂ ihl₂ =>
    obtain ⟨m, rfl, hm, hpow, hrung⟩ := hpred hle hk
    have hf₁ := ihf₁ hm
    have hl₁ := ihl₁ hm
    have hf₂ := ihf₂ hm
    have hl₂ := ihl₂ hm
    have hfirst := hladder (h.rz q) ha₁
    have hmiddle := hladder (h.ry q) ha
    have hlast := hladder (h.rz q) ha₂
    simp only [weight_append, pow_succ]
    rw [hpow] at hfirst hmiddle hlast
    linarith

end Weight

/-- A unitary on `n` operands takes at most `4ⁿ` steps. -/
theorem length_steps_le {kernels : Kernels R} (hk : kernels.Sized) (name : String) (qs : List Nat)
    {u : Dense (Cx R)} (hu : u.Fits (2 ^ qs.length)) {l : List (ShannonStep R)}
    (h : steps kernels name qs u = .ok l) : l.length ≤ 4 ^ qs.length := by
  have hweight (l : List (ShannonStep R)) : weight (fun _ => 1) l = l.length := by
    simp [weight]
  have hleaf (u : Dense (Cx R)) (qs : List Nat) : (leaf u qs).length ≤ 1 := by
    unfold leaf
    split <;> simp
  match qs with
  | [] =>
    obtain rfl := Except.ok.inj h
    exact hleaf u []
  | [q] =>
    obtain rfl := Except.ok.inj h
    exact (hleaf u [q]).trans (by simp)
  | q :: r :: qs =>
    have hweighs : Weighs (fun _ : ShannonStep R => 1) 1 2 :=
      ⟨fun _ _ _ => le_rfl, fun _ _ _ => le_rfl, fun _ _ _ => le_rfl⟩
    have hlen := (shape_of_steps hk name _ hu h).weight_add_le hweighs (k := qs.length) rfl
    have hpow : 4 ^ (q :: r :: qs).length = 16 * 4 ^ qs.length := by
      rw [List.length_cons, List.length_cons, pow_succ, pow_succ]
      ring
    rw [hweight] at hlen
    omega

/-- A decomposition is the steps of a matrix of the right size, where they pass the check. -/
theorem decompose_eq_ok_iff {name : String} {matrix : List (Cx R)} {n : Nat}
    {l : List (ShannonStep R)} : decompose name matrix n = .ok l ↔
      n < 64 ∧ matrix.length = 2 ^ n * 2 ^ n ∧
        steps .jacobi name (List.range n) ⟨2 ^ n, matrix.toArray⟩ = .ok l ∧
        Scalar.gt ((ShannonStep.product n l).sub ⟨2 ^ n, matrix.toArray⟩).maxNorm reconstruction =
          false := by
  rw [decompose]
  by_cases hn : n ≥ 64
  · rw [if_pos hn]
    exact iff_of_false nofun fun h => absurd h.1 (not_lt.mpr hn)
  rw [if_neg hn, and_iff_right (not_le.mp hn)]
  by_cases hlen : matrix.length = 2 ^ n * 2 ^ n
  case neg => exact iff_of_false (by rw [Nat.pow_eq, if_pos hlen]; nofun) fun h => hlen h.1
  rw [and_iff_right hlen, Nat.pow_eq, if_neg (not_not.mpr hlen)]
  show (steps .jacobi name (List.range n) ⟨2 ^ n, matrix.toArray⟩ >>= _) = .ok l ↔ _
  rw [Outcome.bind_eq_ok]
  constructor
  · rintro ⟨l', hsteps, hcheck⟩
    simp only at hcheck
    split at hcheck
    case isTrue => cases hcheck
    case isFalse hle =>
      obtain rfl := Except.ok.inj hcheck
      exact ⟨hsteps, Bool.not_eq_true _ ▸ hle⟩
  · rintro ⟨hsteps, hcheck⟩
    refine ⟨l, hsteps, ?_⟩
    simp only [hcheck]
    rfl

theorem steps_of_decompose {name : String} {matrix : List (Cx R)} {n : Nat}
    {l : List (ShannonStep R)} (h : decompose name matrix n = .ok l) :
    ∃ u : Dense (Cx R), u.Fits (2 ^ n) ∧ steps .jacobi name (List.range n) u = .ok l := by
  obtain ⟨-, hlen, hsteps, -⟩ := decompose_eq_ok_iff.mp h
  exact ⟨_, ⟨rfl, hlen⟩, hsteps⟩

/-- The steps of a decomposition stay on its operands. -/
theorem on_decompose {name : String} {matrix : List (Cx R)} {n : Nat} (hn : 0 < n)
    {l : List (ShannonStep R)} (h : decompose name matrix n = .ok l) :
    ∀ s ∈ l, s.On (List.range n) := by
  obtain ⟨u, hu, hs⟩ := steps_of_decompose h
  exact (shape_of_steps sized_jacobi name _ (by simpa using hu) hs).on List.nodup_range (by simpa using hn)

/-- A decomposition on `n` operands takes at most `4ⁿ` steps. -/
theorem length_decompose_le {name : String} {matrix : List (Cx R)} {n : Nat}
    {l : List (ShannonStep R)} (h : decompose name matrix n = .ok l) : l.length ≤ 4 ^ n := by
  obtain ⟨u, hu, hs⟩ := steps_of_decompose h
  simpa using length_steps_le sized_jacobi name (List.range n) (by simpa using hu) hs

/-! ## Why a decomposition fails -/

theorem error_of_demultiplex {kernels : Kernels R} {name : String}
    {recurse : Dense (Cx R) → Compile R (List (ShannonStep R))} {target : Nat}
    {controls : List Nat} {a b : Dense (Cx R)} {x : CompileError R}
    (hrec : ∀ u, recurse u = .error x → ∃ e t, x = .decompositionTolerance name e t)
    (h : demultiplex kernels name recurse target controls a b = .error x) :
    ∃ e t, x = .decompositionTolerance name e t := by
  unfold demultiplex at h
  simp only at h
  split at h
  · exact ⟨_, _, (Except.error.inj h).symm⟩
  · rcases Outcome.bind_eq_error.mp h with h | ⟨first, -, h⟩
    · exact hrec _ h
    · rcases Outcome.bind_eq_error.mp h with h | ⟨last, -, h⟩
      · exact hrec _ h
      · cases h

/-- The recursion fails only where no mixing factor separates the eigenvectors. -/
theorem error_of_steps {kernels : Kernels R} {name : String} (qs : List Nat) {u : Dense (Cx R)}
    {x : CompileError R} (h : steps kernels name qs u = .error x) :
    ∃ e t, x = .decompositionTolerance name e t := by
  induction qs generalizing u with
  | nil => cases h
  | cons q qs ih =>
    match qs with
    | [] => cases h
    | [r] => cases h
    | r :: s :: rest =>
      rw [steps] at h
      simp only at h
      split at h
      · split at h
        · exact ih h
        · exact error_of_demultiplex (fun u => ih) h
      · rcases Outcome.bind_eq_error.mp h with h | ⟨first, -, h⟩
        · exact error_of_demultiplex (fun u => ih) h
        · rcases Outcome.bind_eq_error.mp h with h | ⟨last, -, h⟩
          · exact error_of_demultiplex (fun u => ih) h
          · cases h

/-- A decomposition fails on too many operands, on a matrix of the wrong size, or where it misses its
tolerance. -/
theorem error_of_decompose {name : String} {matrix : List (Cx R)} {n : Nat} {x : CompileError R}
    (h : decompose name matrix n = .error x) :
    x = .unsupportedGate name (.tooWide n) ∨
    (matrix.length ≠ 4 ^ n ∧ x = .malformedCircuit (.matrixShape name (Nat.pow 2 n))) ∨
    ∃ e t, x = .decompositionTolerance name e t := by
  unfold decompose at h
  split at h
  · exact .inl (Except.error.inj h).symm
  · simp only at h
    split at h
    · rename_i hlen
      refine .inr (.inl ⟨fun he => hlen ?_, (Except.error.inj h).symm⟩)
      exact he.trans (mul_pow 2 2 n)
    · rcases Outcome.bind_eq_error.mp h with h | ⟨l, -, h⟩
      · exact .inr (.inr (error_of_steps _ h))
      · split at h
        · exact .inr (.inr ⟨_, _, (Except.error.inj h).symm⟩)
        · cases h

end Shannon

end QuantumCompiler
