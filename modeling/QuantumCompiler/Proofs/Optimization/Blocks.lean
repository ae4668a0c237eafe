import QuantumCompiler.Proofs.Numeric.Exact
import QuantumCompiler.Proofs.Optimization.Rebuilt

/-!
# Resynthesis rewrites the maximal blocks

Along a qubit the change that resynthesis makes replaces each maximal block of gates by the gates of its
sequence, where these are fewer and all executed, and leaves the rest alone. The walk over the qubit
carries the block that is still open; it ends at the first operation that can be in no run.
-/
namespace QuantumCompiler.Runs

variable {R : Type} [Scalar R] {d e : Dag R} {es : Dag.Entries R} {family : EulerFamily}
  {executes : StandardGate R → Bool}

/-! ## One qubit -/

section Qubit

variable {q : Qubit}

/-- Some gates at the start of a list that cannot be extended: the operations are these gates, and the
next one is none. -/
structure Leads (block : List (Instruction R)) (gates : List (StandardGate R))
    (rest : List (Instruction R)) : Prop where
  ne_nil : block ≠ []
  members : block.map member? = gates.map some
  maximal : ∀ i ∈ rest.head?, member? i = none

/-- The operations on a qubit before and after resynthesis, with the phases of the sequences that are
used: every maximal block of gates gives way to a shorter sequence for its product, or is kept when
there is none. -/
inductive Resynthesized (family : EulerFamily) (executes : StandardGate R → Bool) (q : Qubit) :
    List (Instruction R) → List R → List (Instruction R) → Prop
  | nil : Resynthesized family executes q [] [] []
  | other {i : Instruction R} {is js : List (Instruction R)} {phases : List R}
    (hi : member? i = none) (h : Resynthesized family executes q is phases js) :
    Resynthesized family executes q (i :: is) phases (i :: js)
  | kept {block rest js : List (Instruction R)} {gates : List (StandardGate R)} {phases : List R}
    (hb : Leads block gates rest) (hs : Synthesizes family gates)
    (hkept : ∀ s, ¬Shortens family executes gates s)
    (h : Resynthesized family executes q rest phases js) :
    Resynthesized family executes q (block ++ rest) phases (block ++ js)
  | improved {block rest js : List (Instruction R)} {gates : List (StandardGate R)}
    {s : OneQubitSequence R} {phases : List R}
    (hb : Leads block gates rest) (hs : Shortens family executes gates s)
    (h : Resynthesized family executes q rest phases js) :
    Resynthesized family executes q (block ++ rest) (s.phase :: phases)
      (s.gates.map (.ofStandard · [q]) ++ js)

omit [Scalar R] in
/-- The run of a block of gates has all of its nodes. -/
theorem members_ofBlock {block : Dag.Entries R} (hb : ∀ x ∈ block, (member? x.2).isSome) :
    (ofBlock q block).members.map (·.1) = block.map (·.1) ∧
      block.map (member? ·.2) = ((ofBlock q block).members.map (·.2)).map some := by
  induction block with
  | nil => exact ⟨rfl, rfl⟩
  | cons x block ih =>
    obtain ⟨hx, hb⟩ := List.forall_mem_cons.mp hb
    obtain ⟨hnodes, hgates⟩ := ih hb
    obtain ⟨g, hg⟩ := Option.isSome_iff_exists.mp hx
    have hcons : (ofBlock q (x :: block)).members = (x.1, g) :: (ofBlock q block).members := by
      rw [ofBlock, List.filterMap_cons, hg]
      rfl
    rw [hcons]
    simp [hnodes, hgates, hg]

omit [Scalar R] in
/-- Gates are found one by one at the nodes they were given to. -/
theorem filterMap_lookup_zip {nodes : List Nat} (hn : nodes.Nodup)
    {gates : List (StandardGate R)} (hle : gates.length ≤ nodes.length) :
    nodes.filterMap (fun k => (nodes.zip gates).lookup k) = gates := by
  induction nodes generalizing gates with
  | nil => exact (List.length_eq_zero_iff.mp (Nat.le_zero.mp hle)).symm
  | cons k nodes ih =>
    obtain ⟨hk, hn⟩ := List.nodup_cons.mp hn
    cases gates with
    | nil => simp
    | cons g gates =>
      have hrest : ∀ l ∈ nodes, ((k :: nodes).zip (g :: gates)).lookup l =
          (nodes.zip gates).lookup l := by
        intro l hl
        have hne : l ≠ k := fun he => hk (he ▸ hl)
        rw [List.zip_cons_cons, List.lookup_cons, beq_false_of_ne hne]
      rw [List.filterMap_cons, List.filterMap_congr hrest, ih hn (Nat.le_of_succ_le_succ hle)]
      simp

omit [Scalar R] in
/-- A sequence in the place of a block. -/
theorem map_snd_placed {block : Dag.Entries R} {s : OneQubitSequence R} {run : Run R}
    (hnodes : run.members.map (·.1) = block.map (·.1)) (hn : (block.map (·.1)).Nodup)
    (hle : s.gates.length ≤ block.length) :
    (block.filterMap (placed run s)).map (·.2) = s.gates.map (.ofStandard · [run.qubit]) := by
  have hplaced : ∀ x ∈ block, (placed run s x).map (·.2) =
      (((block.map (·.1)).zip s.gates).lookup x.1).map (.ofStandard · [run.qubit]) := by
    intro x hx
    rw [placed, hnodes, if_pos (List.mem_map_of_mem hx), Option.map_map]
    rfl
  have hlookup : block.filterMap (fun x => ((block.map (·.1)).zip s.gates).lookup x.1) = s.gates :=
    List.filterMap_map.symm.trans (filterMap_lookup_zip hn (by simpa using hle))
  rw [List.map_filterMap, List.filterMap_congr hplaced, ← List.map_filterMap, hlookup]

/-- A change that resynthesizes a block on a qubit. -/
structure Rebuilds (family : EulerFamily) (executes : StandardGate R → Bool) (q : Qubit)
    (change : Nat × Instruction R → Option (Nat × Instruction R)) (block : Dag.Entries R) :
    Prop where
  synthesizes : Synthesizes family ((ofBlock q block).members.map (·.2))
  eq_rebuilt : ∀ x ∈ block, (member? x.2).isSome →
    change x = rebuilt family executes (ofBlock q block) x

variable {change : Nat × Instruction R → Option (Nat × Instruction R)}

/-- A block that cannot be extended, and then the rest of the list. -/
theorem Resynthesized.block {block : Dag.Entries R} {rest js : List (Instruction R)}
    {blocks : List (Dag.Entries R)} (hne : block ≠ []) (hb : ∀ x ∈ block, (member? x.2).isSome)
    (hn : (block.map (·.1)).Nodup) (hmax : ∀ i ∈ rest.head?, member? i = none)
    (hblock : Rebuilds family executes q change block)
    (h : Resynthesized family executes q rest
      (blocks.filterMap fun block => addedPhase? family executes (ofBlock q block)) js) :
    Resynthesized family executes q (block.map (·.2) ++ rest)
      ((block :: blocks).filterMap fun block => addedPhase? family executes (ofBlock q block))
      ((block.filterMap change).map (·.2) ++ js) := by
  obtain ⟨hnodes, hgates⟩ := members_ofBlock (q := q) hb
  have hlead : Leads (block.map (·.2)) ((ofBlock q block).members.map (·.2)) rest :=
    ⟨by simpa using hne, List.map_map.trans hgates, hmax⟩
  have hlength : ((ofBlock q block).members.map (·.2)).length = block.length := by
    simpa using (congrArg List.length hgates).symm
  rw [List.filterMap_congr fun x hx => hblock.eq_rebuilt x hx (hb x hx), List.filterMap_cons]
  unfold addedPhase? rebuilt at *
  cases hs? : improved? family executes ((ofBlock q block).members.map (·.2)) with
  | none =>
    have hkept : ∀ s, ¬Shortens family executes ((ofBlock q block).members.map (·.2)) s :=
      fun s h => nomatch hs?.symm.trans (improved?_eq_some.mpr h)
    simpa using Resynthesized.kept hlead hblock.synthesizes hkept h
  | some s =>
    have hshort := improved?_eq_some.mp hs?
    simp only [Option.map_some]
    rw [map_snd_placed hnodes hn (hlength ▸ hshort.shorter).le]
    exact .improved hlead hshort h

/-- A change that resynthesizes the maximal blocks of a list and nothing else. -/
theorem resynthesized_maximalRuns (xs current : Dag.Entries R)
    (hcurrent : ∀ x ∈ current, (member? x.2).isSome) (hn : ((current ++ xs).map (·.1)).Nodup)
    (hother : ∀ x ∈ xs, member? x.2 = none → change x = some x)
    (hblock : ∀ block ∈ maximalRuns (fun x => (member? x.2).isSome) current xs,
      Rebuilds family executes q change block) :
    Resynthesized family executes q ((current ++ xs).map (·.2))
      ((maximalRuns (fun x => (member? x.2).isSome) current xs).filterMap
        fun block => addedPhase? family executes (ofBlock q block))
      (((current ++ xs).filterMap change).map (·.2)) := by
  have hopen {current xs : Dag.Entries R} (hn : ((current ++ xs).map (·.1)).Nodup) :
      (current.map (·.1)).Nodup := by
    rw [List.map_append] at hn
    exact (List.nodup_append.mp hn).1
  induction xs generalizing current with
  | nil =>
    rw [maximalRuns] at hblock ⊢
    by_cases hne : current = []
    · subst hne
      exact .nil
    · rw [if_neg (by simpa using hne)] at hblock ⊢
      have hnil : Resynthesized family executes q []
          (([] : List (Dag.Entries R)).filterMap
            fun block => addedPhase? family executes (ofBlock q block)) [] := .nil
      simpa using hnil.block hne hcurrent (hopen hn) (by simp) (hblock current (.head _))
  | cons x xs ih =>
    obtain ⟨hx, hother⟩ := List.forall_mem_cons.mp hother
    rw [maximalRuns] at hblock ⊢
    by_cases hm : (member? x.2).isSome = true
    · -- the open block goes on
      rw [if_pos hm] at hblock ⊢
      have hcurrent : ∀ y ∈ current ++ [x], (member? y.2).isSome := by
        simpa [or_imp, forall_and, hm] using hcurrent
      simpa using ih (current ++ [x]) hcurrent (by simpa using hn) hother hblock
    · rw [if_neg hm] at hblock ⊢
      rw [Bool.not_eq_true, Option.isSome_eq_false_iff, Option.isNone_iff_eq_none] at hm
      have hrest : (xs.map (·.1)).Nodup := by
        rw [List.map_append, List.map_cons] at hn
        exact (List.nodup_cons.mp (List.nodup_append.mp hn).2.1).2
      by_cases hne : current = []
      · subst hne
        simpa [hx hm] using Resynthesized.other hm (ih [] (by simp) hrest hother hblock)
      · rw [if_neg (by simpa using hne)] at hblock ⊢
        obtain ⟨hfirst, hblock⟩ := List.forall_mem_cons.mp hblock
        simpa [hx hm] using Resynthesized.block hne hcurrent (hopen hn) (by simpa using hm) hfirst
          (.other hm (ih [] (by simp) hrest hother hblock))

end Qubit

/-! ## All qubits -/

section Graph

omit [Scalar R] in
/-- A change that keeps what has a property and makes nothing else have it. -/
theorem filter_filterMap_of_keeps {F : Nat × Instruction R → Option (Nat × Instruction R)}
    {p : Nat × Instruction R → Bool}
    (hF : ∀ x ∈ es, F x = some x ∨ (p x = false ∧ ∀ y, F x = some y → p y = false)) :
    (es.filterMap F).filter p = es.filter p := by
  rw [List.filter_filterMap, ← List.filterMap_eq_filter]
  refine List.filterMap_congr fun x hx => ?_
  rcases hF x hx with hx | ⟨hx, hy⟩
  · simp [hx, Option.filter_some, Option.guard]
  · cases hFx : F x with
    | none => simp [Option.guard, hx]
    | some y => simp [Option.guard, Option.filter_some, hx, hy y hFx]

omit [Scalar R] in
/-- A change that keeps a property of what it changes. -/
theorem filter_filterMap_of_respects {F : Nat × Instruction R → Option (Nat × Instruction R)}
    {p : Nat × Instruction R → Bool} (hF : ∀ x ∈ es, ∀ y, F x = some y → p y = p x) :
    (es.filterMap F).filter p = (es.filter p).filterMap F := by
  rw [List.filter_filterMap, List.filterMap_filter]
  refine List.filterMap_congr fun x hx => ?_
  cases hFx : F x with
  | none => simp
  | some y => rw [Option.filter_some, hF x hx y hFx]

/-- The operations on a qubit before and after the runs were resynthesized. -/
theorem resynthesized_onQubit (h : d.Reads es) {n : Nat} {q : Qubit} (hq : q < n)
    (hs : ∀ run ∈ (List.range n).flatMap (onQubit es),
      Synthesizes family (run.members.map (·.2))) :
    Resynthesized family executes q ((es.filter fun x => x.2.qubits.contains q).map (·.2))
      ((onQubit es q).filterMap (addedPhase? family executes))
      (((es.filterMap (rebuiltAll family executes ((List.range n).flatMap (onQubit es)))).filter
        fun x => x.2.qubits.contains q).map (·.2)) := by
  have hregates : ∀ x ∈ es,
      Regates (rebuiltAll family executes ((List.range n).flatMap (onQubit es))) x :=
    fun x hx => regates_rebuiltAll h n hx
  rw [filter_filterMap_of_respects fun x hx y hy => by rw [(hregates x hx).qubits hy], onQubit,
    List.filterMap_map]
  refine resynthesized_maximalRuns _ [] (by simp) ?_ (fun x hx hnone => ?_) fun block hblock => ?_
  · exact (List.filter_sublist.map _).nodup h.nodup
  · rcases hregates x (List.mem_of_mem_filter hx) with hx | ⟨g, -, hg, -⟩
    · exact hx
    · exact nomatch hnone.symm.trans hg
  · have hrun : ofBlock q block ∈ (List.range n).flatMap (onQubit es) :=
      List.mem_flatMap.mpr ⟨q, List.mem_range.mpr hq, List.mem_map_of_mem hblock⟩
    refine ⟨hs _ hrun, fun x hx hmember => rebuiltAll_of_mem (nodup_runs h n) hrun ?_⟩
    obtain ⟨g, hg⟩ := Option.isSome_iff_exists.mp hmember
    refine List.mem_map.mpr ⟨(x.1, g), List.mem_filterMap.mpr ⟨x, hx, ?_⟩, rfl⟩
    rw [hg]
    rfl

end Graph

/-- Resynthesis rewrites the maximal blocks and nothing else. Along every qubit the operations are the ones
from before, except that each maximal block of gates has given way to what is synthesized for its product,
where that is shorter and executed. All other operations and all classical bits see the same operations in
the same order. The phase grows by the phases of the sequences that were used, up to full turns. -/
theorem rebuilds_runs {device : Option (Device R)} {requested : Option EulerFamily}
    {family : EulerFamily} (h : d.Reachable)
    (hb : ∀ id i, d.instruction? id = some i → i.isGate = true → i.clbits = [])
    (hfamily : family? device requested = .ok (some family))
    (he : all device requested d = .ok e) :
    ∃ is js, ∃ phases : Qubit → List R, d.linearize = .ok is ∧ e.linearize = .ok js ∧
      e.numQubits = d.numQubits ∧ e.numClbits = d.numClbits ∧
      (∀ q < d.numQubits, Resynthesized family (executedBy device) q
        (is.filter (·.qubits.contains q)) (phases q) (js.filter (·.qubits.contains q))) ∧
      js.filter (member? · |>.isNone) = is.filter (member? · |>.isNone) ∧
      (∀ c, js.filter (·.clbits.contains c) = is.filter (·.clbits.contains c)) ∧
      e.phase = ((List.range d.numQubits).flatMap phases).foldl
        (fun p x => Scalar.remEuclid (p + x) Scalar.tau) d.phase ∧
      ∀ value : R → ℝ, Scalar.Exact value → ∃ k : ℤ, value e.phase = value d.phase +
        (((List.range d.numQubits).flatMap phases).map value).sum + k * (2 * Real.pi) := by
  obtain ⟨es, hr⟩ := h.exists_reads
  obtain ⟨hr', hq, hc, hphase, hsynth⟩ := reads_all hr hfamily he
  rw [List.filterMap_flatMap] at hphase
  have hregates : ∀ x ∈ es, Regates (rebuiltAll family (executedBy device)
      ((List.range d.numQubits).flatMap (onQubit es))) x :=
    fun x hx => regates_rebuiltAll hr d.numQubits hx
  refine ⟨_, _, fun q => (onQubit es q).filterMap (addedPhase? family (executedBy device)),
    hr.linearize_eq, hr'.linearize_eq, hq, hc, fun q hlt => ?_, ?_, fun c => ?_, hphase,
    fun value hv => hphase ▸ hv.foldl_remEuclid _ d.phase⟩
  · rw [List.filter_map, List.filter_map]
    exact resynthesized_onQubit hr hlt hsynth
  · rw [List.filter_map, List.filter_map, filter_filterMap_of_keeps fun x hx => ?_]
    refine (hregates x hx).imp_right ?_
    rintro ⟨g, q, hg, -, hgate⟩
    refine ⟨by simp [hg], fun y hy => ?_⟩
    obtain ⟨g', -, hg'⟩ := hgate y hy
    simp [hg']
  · rw [List.filter_map, List.filter_map, filter_filterMap_of_keeps fun x hx => ?_]
    refine (hregates x hx).imp_right ?_
    rintro ⟨g, q, hg, -, hgate⟩
    have hbare : x.2.clbits = [] := hb x.1 x.2 (hr.mem_iff.mp hx) (of_member?_eq_some hg).1
    refine ⟨by simp [hbare], fun y hy => ?_⟩
    obtain ⟨g', rfl, -⟩ := hgate y hy
    rfl

/-! ## Two flips -/

section Flips

attribute [local instance] Scalar.real

open Scalar (real_zero real_one)

theorem cx_zero : (0 : Cx ℝ) = ⟨0, 0⟩ := by
  change Cx.mk _ _ = _
  rw [real_zero]

theorem cx_one : (1 : Cx ℝ) = ⟨1, 0⟩ := by
  change Cx.mk _ _ = _
  rw [real_one, real_zero]

theorem cx_add (a b : Cx ℝ) : a + b = ⟨a.re + b.re, a.im + b.im⟩ := rfl

theorem cx_sub (a b : Cx ℝ) : a - b = ⟨a.re - b.re, a.im - b.im⟩ := rfl

theorem cx_mul (a b : Cx ℝ) :
    a * b = ⟨a.re * b.re - a.im * b.im, a.re * b.im + a.im * b.re⟩ := rfl

theorem cis_zero : Cx.cis (0 : ℝ) = 1 := by
  simp [Cx.cis, Cx.ofPolar, Scalar.cos, Scalar.sin, real_one, cx_one]

theorem scale_one (u : Mat2 ℝ) : u.scale 1 = u := by
  simp [Mat2.scale, Mat2.map, cx_mul, cx_one]

theorem ofSequence?_flips : Mat2.ofSequence? [.x, .x] = some (Mat2.identity : Mat2 ℝ) := by
  have hproduct : Mat2.x.mul (Mat2.x.mul Mat2.identity) = (Mat2.identity : Mat2 ℝ) := by
    simp [Mat2.mul, Mat2.x, Mat2.identity, cx_mul, cx_add, cx_zero, cx_one]
  exact congrArg some hproduct

theorem ofMatrix_identity : EulerAngles.ofMatrix (Mat2.identity : Mat2 ℝ) = ⟨0, 0, 0, 0⟩ := by
  have hdet : (Mat2.identity : Mat2 ℝ).det = 1 := by
    simp [Mat2.det, Mat2.identity, cx_mul, cx_sub, cx_zero, cx_one]
  have hone : (1 : Cx ℝ).arg = 0 := by
    rw [cx_one]
    exact Complex.arg_one
  have hzero : (0 : Cx ℝ).arg = 0 := by
    rw [cx_zero]
    exact Complex.arg_zero
  have hflat : Scalar.atan2 (0 : Cx ℝ).norm (1 : Cx ℝ).norm = 0 := by
    simp only [Cx.norm, Scalar.hypot, Scalar.atan2, cx_zero, cx_one]
    norm_num
    exact Complex.arg_one
  simp only [EulerAngles.ofMatrix, hdet, hone, zero_div, neg_zero, cis_zero, scale_one]
  simp [Mat2.identity, hone, hzero, hflat]

theorem rotate_zero (s : OneQubitSequence ℝ) (make : Angle ℝ → StandardGate ℝ) :
    OneQubitSequence.rotate 0 s make 0 = s := by
  have hhalf : ⌊(2⁻¹ : ℝ)⌋ = 0 := by norm_num
  simp [OneQubitSequence.rotate, OneQubitSequence.wrap, Scalar.round, Scalar.gt, Scalar.lt,
    Scalar.abs, hhalf]

theorem sequence_identity : EulerFamily.zyz.sequence (Mat2.identity : Mat2 ℝ) 0 = ⟨[], 0⟩ := by
  simp [EulerFamily.sequence, ofMatrix_identity, rotate_zero, OneQubitSequence.finish,
    Scalar.remEuclid, Scalar.lt]

/-- Without rounding nothing is left of the identity. -/
theorem synthesize_identity :
    EulerFamily.zyz.synthesize (Mat2.identity : Mat2 ℝ) dropTolerance = .ok ⟨[], 0⟩ := by
  have htolerance : (dropTolerance : ℝ) = 0 := rfl
  have hmatrix : (⟨[], 0⟩ : OneQubitSequence ℝ).matrix? = some Mat2.identity := by
    rw [OneQubitSequence.matrix?, cis_zero]
    exact congrArg some (scale_one _)
  have hdeviation : Mat2.deviation (Mat2.identity : Mat2 ℝ) Mat2.identity = 0 := by
    simp [Mat2.deviation, Mat2.zipWith, Mat2.identity, cx_zero, cx_one, cx_sub, Scalar.maximum, Cx.norm,
      Scalar.hypot, Scalar.max, real_zero]
  unfold EulerFamily.synthesize
  simp only [htolerance, sequence_identity, OneQubitSequence.deviation, hmatrix, hdeviation]
  rw [if_neg]
  simp [Scalar.gt, Scalar.lt, EulerFamily.reconstruction, Scalar.allowance]

/-- Two flips of a qubit with a barrier on the other one between them, and a measurement. -/
def flips : List (Instruction ℝ) :=
  [.ofStandard .x [0], .barrier [1], .ofStandard .x [0], .measure 1 0]

/-- The graph of the flips. -/
theorem exists_reads_flips : ∃ d : Dag ℝ, ∃ es, Dag.ofInstructions 2 1 flips = .ok d ∧
    d.Reads es ∧ es.map (·.2) = flips ∧ d.numQubits = 2 ∧
      ∀ id i, d.instruction? id = some i → i.isGate = true → i.clbits = [] := by
  obtain ⟨d, es, hd, hr, hes, hq, -⟩ := Dag.exists_reads_ofInstructions 2 1 flips
    (by
      simp only [flips, List.forall_mem_cons]
      exact ⟨rfl, rfl, rfl, rfl, by simp⟩)
    (by simp [flips, Instruction.ofStandard, Instruction.ofGate, Instruction.barrier,
      Instruction.measure])
  refine ⟨d, es, hd, hr, hes, hq, fun id i hi hgate => ?_⟩
  have hm : i ∈ flips := hes ▸ List.mem_map_of_mem (f := (·.2)) (hr.mem_iff.mpr hi)
  simp only [flips, List.mem_cons, List.not_mem_nil, or_false] at hm
  rcases hm with rfl | rfl | rfl | rfl
  · rfl
  · rfl
  · rfl
  · exact absurd hgate Bool.false_ne_true

/-- The flips are the only run, and it can be resynthesized. -/
theorem exists_all_flips {d : Dag ℝ} {es : Dag.Entries ℝ} (h : d.Reads es)
    (hes : es.map (·.2) = flips) (hq : d.numQubits = 2) : ∃ e, all none none d = .ok e := by
  obtain ⟨⟨j, _⟩, es₁, rfl, rfl, h₁⟩ := List.map_eq_cons_iff.mp hes
  obtain ⟨⟨b, _⟩, es₂, rfl, rfl, h₂⟩ := List.map_eq_cons_iff.mp h₁
  obtain ⟨⟨k, _⟩, es₃, rfl, rfl, h₃⟩ := List.map_eq_cons_iff.mp h₂
  obtain ⟨⟨m, _⟩, es₄, rfl, rfl, h₄⟩ := List.map_eq_cons_iff.mp h₃
  obtain rfl := List.map_eq_nil_iff.mp h₄
  have hruns : ofDag d = .ok [⟨0, [(j, .x), (k, .x)]⟩] := by
    rw [ofDag_eq h, hq]
    rfl
  have hat : Run.At d ⟨0, [(j, .x), (k, .x)]⟩ := by
    constructor
    · have hn := h.nodup
      simp only [List.map_cons, List.nodup_cons, List.mem_cons, not_or] at hn
      simpa using hn.1.2.1
    · have hj : BareAt d 0 j := ⟨.ofStandard .x [0], h.mem_iff.mp (by simp), rfl, rfl⟩
      have hk : BareAt d 0 k := ⟨.ofStandard .x [0], h.mem_iff.mp (by simp), rfl, rfl⟩
      simpa using ⟨hj, hk⟩
  obtain ⟨e, he, -⟩ := hat.exists_place h.reachable (s := ⟨[], 0⟩) (by simp)
  have hrun : resynthesize .zyz (executedBy none) d ⟨0, [(j, .x), (k, .x)]⟩ = .ok e := by
    simp only [resynthesize, List.map_cons, List.map_nil, ofSequence?_flips, synthesize_identity]
    exact he
  refine ⟨e, Outcome.bind_eq_ok.mpr ⟨some .zyz, rfl, Outcome.bind_eq_ok.mpr ⟨_, hruns, ?_⟩⟩⟩
  exact Outcome.bind_eq_ok.mpr ⟨e, hrun, rfl⟩

theorem rebuilds_runs_flips : ∃ d e js, ∃ phases : Qubit → List ℝ,
    Dag.ofInstructions 2 1 flips = .ok d ∧ all none none d = .ok e ∧ e.linearize = .ok js ∧
      (∀ q < 2, Resynthesized .zyz (executedBy none) q (flips.filter (·.qubits.contains q))
        (phases q) (js.filter (·.qubits.contains q))) ∧
      ∃ k : ℤ, e.phase = d.phase + (((List.range 2).flatMap phases).map fun x => x).sum +
        k * (2 * Real.pi) := by
  obtain ⟨d, es, hd, hr, hes, hq, hb⟩ := exists_reads_flips
  obtain ⟨e, he⟩ := exists_all_flips hr hes hq
  obtain ⟨is, js, phases, his, hjs, -, -, hqubits, -, -, -, hphase⟩ :=
    rebuilds_runs hr.reachable hb rfl he
  obtain rfl : flips = is := by
    rw [hr.linearize_eq, hes] at his
    exact Except.ok.inj his
  rw [hq] at hqubits
  exact ⟨d, e, js, phases, hd, he, hjs, hqubits, hq ▸ hphase (fun x => x) Scalar.exact_real⟩

end Flips

end QuantumCompiler.Runs
