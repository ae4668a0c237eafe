import QuantumCompiler.Proofs.Device.Tables
import QuantumCompiler.Proofs.Routing.Route
import QuantumCompiler.Proofs.Routing.Score
import QuantumCompiler.Proofs.Routing.Window

/-!
# Steps of a sweep

`Holds` is the invariant of a sweep: it is in step with its output read back and with the order of its
circuit, the operands of every gate stay within reach, and the pending swaps are few and wait for gates
only. Every step succeeds, keeps the invariant and leaves less to do.
-/
namespace QuantumCompiler.Sweep

variable {R : Type}

/-- What a sweep works on is well-formed. -/
structure Sound (s : Sweep R) : Prop where
  device : s.device.WellFormed
  flows : s.graph.Flows s.direction
  operands : ∀ k i, s.graph.instruction? k = some i →
    i.qubits.Nodup ∧ ∀ q ∈ i.qubits, q < s.device.numQubits

/-- The operands of every two-qubit gate sit in one component of the device. -/
def Reaches (s : Sweep R) (p : Placement) : Prop :=
  ∀ k a b, s.graph.pair? k = some (a, b) →
    s.device.component? (p.physical a) = s.device.component? (p.physical b)

/-- Number of two-qubit gates among operations. -/
def pairs (s : Sweep R) (nodes : List Nat) : Nat :=
  nodes.countP fun k => (s.graph.pair? k).isSome

section Reach

variable {s : Sweep R} {p : Placement} {ps : List (Qubit × Qubit)}

theorem Sound.pair_operands (hs : s.Sound) {k : Nat} {a b : Qubit}
    (h : s.graph.pair? k = some (a, b)) :
    a < s.device.numQubits ∧ b < s.device.numQubits ∧ a ≠ b := by
  obtain ⟨i, hi, hp⟩ := Option.bind_eq_some_iff.mp h
  obtain ⟨hn, hq⟩ := hs.operands k i hi
  rw [(pair?_eq_some.mp hp).2] at hn hq
  refine ⟨hq a (by simp), hq b (by simp), ?_⟩
  simpa using hn

theorem exists_instruction? (s : Sweep R) {k : Nat} (hk : k < s.graph.size) :
    ∃ i, s.graph.instruction? k = some i := by
  have hk' : k < s.graph.nodes.size := hk
  exact ⟨s.graph.nodes[k].instruction, by simp [RoutingGraph.instruction?, hk']⟩

/-- Swaps on couplings leave every qubit in its component. -/
theorem component?_carry (hd : s.device.WellFormed)
    (h : ∀ t ∈ ps, s.device.isAdjacent t.1 t.2 = true) (x : Qubit) :
    s.device.component? (Placement.carry ps x) = s.device.component? x := by
  induction ps generalizing x with
  | nil => rfl
  | cons t ps ih =>
    have hstep : Placement.carry (t :: ps) x = Placement.carry ps (Equiv.swap t.1 t.2 x) := rfl
    have ht := hd.component?_eq (h t (by simp))
    rw [hstep, ih (fun u hu => h u (by simp [hu])), Equiv.swap_apply_def]
    by_cases h1 : x = t.1
    · rw [if_pos h1, h1, ht]
    · by_cases h2 : x = t.2
      · rw [if_neg h1, if_pos h2, h2, ht]
      · rw [if_neg h1, if_neg h2]

theorem lt_of_adjacent (hd : s.device.WellFormed)
    (h : ∀ t ∈ ps, s.device.isAdjacent t.1 t.2 = true) :
    ∀ t ∈ ps, t.1 < s.device.numQubits ∧ t.2 < s.device.numQubits := by
  intro t ht
  obtain ⟨h1, h2, -⟩ := hd.lt_of_isAdjacent (h t ht)
  exact ⟨h1, h2⟩

/-- Swaps on couplings keep every gate within reach, and bring none within reach. -/
theorem reaches_swaps (hs : s.Sound) (hp : p.IsPermutation s.device.numQubits)
    (h : ∀ t ∈ ps, s.device.isAdjacent t.1 t.2 = true) :
    s.Reaches (p.swaps ps) ↔ s.Reaches p := by
  have hlt := lt_of_adjacent hs.device h
  have hcomp {l : Qubit} (hl : l < s.device.numQubits) :
      s.device.component? ((p.swaps ps).physical l) = s.device.component? (p.physical l) := by
    rw [Placement.physical_swaps hp hlt hl, component?_carry hs.device h]
  constructor
  · intro hr k a b hk
    obtain ⟨ha, hb, -⟩ := hs.pair_operands hk
    rw [← hcomp ha, ← hcomp hb]
    exact hr k a b hk
  · intro hr k a b hk
    obtain ⟨ha, hb, -⟩ := hs.pair_operands hk
    rw [hcomp ha, hcomp hb]
    exact hr k a b hk

end Reach

/-- The invariant of a sweep. -/
structure Holds (s : Sweep R) (start : Placement) (state : State R) (done : List Nat)
    (inserted : List Bool) : Prop extends Tracks s start state done inserted where
  progress : s.graph.Progress s.direction done state.front state.waiting
  blocked : state.pending ≠ [] → ∀ k ∈ state.front, (s.graph.pair? k).isSome
  patient : state.pending.length ≤ s.patience + 1
  bounded : state.swaps ≤ (s.patience + 1) * s.pairs done
  reaches : s.Reaches state.placement
  settled : state.front = [] → state.pending = []

theorem pairs_append (s : Sweep R) (ks js : List Nat) :
    s.pairs (ks ++ js) = s.pairs ks + s.pairs js := List.countP_append

/-! ## Choosing -/

section Choice

variable {s : Sweep R}

/-- Some gate of the front is closest. -/
theorem exists_closest? {p : Placement} {front : List Nat} (hne : s.frontPairs front ≠ []) :
    ∃ pair ∈ s.frontPairs front, s.closest? p front = some pair :=
  exists_bestOf? _ hne

/-- No gate of the front is closer than the closest one. -/
theorem hops_le_of_closest? {p : Placement} {front : List Nat} {a b x y : Qubit} {k l : Nat}
    (h : s.closest? p front = some (a, b)) (hxy : (x, y) ∈ s.frontPairs front)
    (hk : s.device.distance? (p.physical a) (p.physical b) = some k)
    (hl : s.device.distance? (p.physical x) (p.physical y) = some l) : k ≤ l := by
  unfold closest? at h
  have hle := le_of_bestOf? (fun pair : Qubit × Qubit =>
      (s.device.distance? (p.physical pair.1) (p.physical pair.2)).getD maxIndex)
    (fun x y hlt => (of_decide_eq_true hlt).le) (fun x y hlt => not_lt.mp (of_decide_eq_false hlt))
    h (x, y) hxy
  simpa only [hk, hl, Option.getD_some] using hle

variable [Scalar R]

/-- Of several candidates one has the best score, whatever the scores are. -/
theorem exists_bestSwap? (state : State R) (following : List (Qubit × Qubit))
    (hne : s.candidates state.placement state.front ≠ []) :
    ∃ swap ∈ s.candidates state.placement state.front,
      s.bestSwap? state following = some swap :=
  exists_bestOf?_map _ (fun _ => rfl) hne

theorem mem_candidates_of_bestSwap? {state : State R} {following : List (Qubit × Qubit)}
    {swap : Qubit × Qubit} (h : s.bestSwap? state following = some swap) :
    swap ∈ s.candidates state.placement state.front := by
  obtain ⟨x, hx, rfl⟩ := Option.map_eq_some_iff.mp h
  obtain ⟨y, hy, rfl⟩ := List.mem_map.mp (mem_of_bestOf? hx)
  exact hy

end Choice

/-! ## Waiting gates -/

/-- Nothing in the front can be executed. -/
def Stuck (s : Sweep R) (state : State R) : Prop :=
  ∀ k ∈ state.front, s.executes state.placement k = false

section Waiting

variable {s : Sweep R} {state : State R} {p : Placement}

theorem exists_pair {k : Nat} (hx : s.executes p k = false) :
    ∃ a b, s.graph.pair? k = some (a, b) ∧
      s.device.isAdjacent (p.physical a) (p.physical b) = false := by
  unfold executes at hx
  split at hx
  · rename_i a b hp
    exact ⟨a, b, hp, hx⟩
  · cases hx

/-- A two-qubit gate has its operands in one component of the device. -/
structure WithinReach (s : Sweep R) (p : Placement) (k : Nat) (a b : Qubit) : Prop where
  pair : s.graph.pair? k = some (a, b)
  left_lt : a < s.device.numQubits
  right_lt : b < s.device.numQubits
  distinct : a ≠ b
  component : s.device.component? (p.physical a) = s.device.component? (p.physical b)

theorem Sound.withinReach (hs : s.Sound) (hr : s.Reaches p) {k : Nat} {a b : Qubit}
    (hk : s.graph.pair? k = some (a, b)) : s.WithinReach p k a b := by
  obtain ⟨ha, hb, hab⟩ := hs.pair_operands hk
  exact ⟨hk, ha, hb, hab, hr k a b hk⟩

/-- The way between the operands of a gate within reach. -/
theorem WithinReach.exists_path {k : Nat} {a b : Qubit} (h : s.WithinReach p k a b)
    (hd : s.device.WellFormed) (hp : p.IsPermutation s.device.numQubits) :
    p.physical a ≠ p.physical b ∧ ∃ hops rest,
      s.device.distance? (p.physical a) (p.physical b) = some hops ∧
      s.device.path? (p.physical a) (p.physical b) = some (p.physical a :: rest) ∧
      (p.physical a :: rest).IsChain (fun x y => s.device.isAdjacent x y = true) ∧
      (p.physical a :: rest).getLast? = some (p.physical b) ∧ (p.physical a :: rest).Nodup ∧
      (p.physical a :: rest).length = hops + 1 ∧ hops < s.device.numQubits := by
  have ha := hp.physical_lt a h.left_lt
  have hb := hp.physical_lt b h.right_lt
  refine ⟨fun he => h.distinct (hp.physical_inj h.left_lt h.right_lt he), ?_⟩
  obtain ⟨hops, hhops⟩ := Option.isSome_iff_exists.mp
    ((hd.component?_eq_iff ha hb).mp h.component)
  obtain ⟨-, rest, -, -, hpath, hlen, -⟩ := hd.path?_of_distance? hb hhops
  obtain ⟨rest', hpath', hchain, hlast, hnd, hlt⟩ := hd.path?_eq_some ha hb h.component
  obtain rfl : rest = rest' := List.tail_eq_of_cons_eq (Option.some.inj (hpath.symm.trans hpath'))
  have hsub : p.physical a :: rest ⊆ List.range s.device.numQubits := fun x hx =>
    List.mem_range.mpr (hlt x hx)
  have hle := (List.subperm_of_subset hnd hsub).length_le
  rw [hlen, List.length_range] at hle
  exact ⟨hops, rest, hhops, hpath, hchain, hlast, hnd, hlen, hle⟩

/-- Candidates are couplings. -/
theorem adjacent_of_mem_candidates (hd : s.device.WellFormed) {front : List Nat}
    {swap : Qubit × Qubit} (h : swap ∈ s.candidates p front) :
    s.device.isAdjacent swap.1 swap.2 = true := by
  rw [candidates, List.mem_eraseDups, List.mem_flatMap] at h
  obtain ⟨⟨a, b⟩, -, h⟩ := h
  obtain ⟨q, -, h⟩ := List.mem_flatMap.mp h
  obtain ⟨r, hr, rfl⟩ := List.mem_map.mp h
  have hadj := hd.mem_neighbours.mp hr
  rcases le_total q r with hle | hle
  · simpa [hle] using hadj
  · rw [Device.isAdjacent_comm]
    simpa [hle] using hadj

/-- A gate within reach that waits has a coupling to swap on. -/
theorem candidates_ne_nil (hs : s.Sound) (hp : p.IsPermutation s.device.numQubits)
    (hr : s.Reaches p) {front : List Nat} {k : Nat} (hk : k ∈ front)
    (hx : s.executes p k = false) : s.candidates p front ≠ [] := by
  obtain ⟨a, b, hpair, -⟩ := exists_pair hx
  obtain ⟨hne, -, rest, -, -, hchain, hlast, -⟩ := (hs.withinReach hr hpair).exists_path hs.device hp
  cases rest with
  | nil => exact absurd (by simpa using hlast) hne
  | cons r rest =>
    have hadj := (List.isChain_cons_cons.mp hchain).1
    have hmem : (min (p.physical a) r, max (p.physical a) r) ∈ s.candidates p front := by
      rw [candidates, List.mem_eraseDups, List.mem_flatMap]
      refine ⟨(a, b), List.mem_filterMap.mpr ⟨k, hk, hpair⟩, ?_⟩
      exact List.mem_flatMap.mpr ⟨p.physical a, by simp,
        List.mem_map.mpr ⟨r, hs.device.mem_neighbours.mpr hadj, rfl⟩⟩
    exact List.ne_nil_of_mem hmem

end Waiting

section Steps

variable {s : Sweep R} {start : Placement} {state : State R} {done : List Nat}
  {inserted : List Bool}

/-! ## Forcing -/

/-- Where all gates of a front are within reach, a closest one gets swaps that bring its operands
together: one swap for each qubit between them. -/
theorem exists_forcedSwaps {p : Placement} {front : List Nat} (hd : s.device.WellFormed)
    (hp : p.IsPermutation s.device.numQubits) (hne : front ≠ [])
    (hfront : ∀ k ∈ front, ∃ a b, s.WithinReach p k a b) :
    ∃ k ∈ front, ∃ a b hops swaps, s.graph.pair? k = some (a, b) ∧
      s.device.distance? (p.physical a) (p.physical b) = some hops ∧
      hops < s.device.numQubits ∧
      (∀ j ∈ front, ∀ x y l, s.graph.pair? j = some (x, y) →
        s.device.distance? (p.physical x) (p.physical y) = some l → hops ≤ l) ∧
      s.forcedSwaps p front = .ok swaps ∧ swaps.length = hops - 1 ∧
      (∀ t ∈ swaps, s.device.isAdjacent t.1 t.2 = true) ∧
      s.device.isAdjacent ((p.swaps swaps).physical a) ((p.swaps swaps).physical b) = true := by
  obtain ⟨j, hj⟩ := List.exists_mem_of_ne_nil _ hne
  have hpairs : s.frontPairs front ≠ [] := by
    obtain ⟨a, b, h⟩ := hfront j hj
    exact List.ne_nil_of_mem (List.mem_filterMap.mpr ⟨j, hj, h.pair⟩)
  obtain ⟨⟨a, b⟩, hmem, hclosest⟩ := exists_closest? (s := s) (p := p) hpairs
  obtain ⟨k, hk, hpair⟩ := List.mem_filterMap.mp hmem
  obtain ⟨a', b', hreach⟩ := hfront k hk
  obtain ⟨rfl, rfl⟩ : a' = a ∧ b' = b := by simpa using hreach.pair.symm.trans hpair
  obtain ⟨hends, hops, rest, hhops, hpath, hchain, hlast, hnd, hlen, hlt⟩ := hreach.exists_path hd hp
  obtain ⟨hadj, hmeet⟩ := meetingSwaps_spec hchain hnd rfl hlast hends
  have hrange := lt_of_adjacent hd hadj
  refine ⟨k, hk, a', b', hops, meetingSwaps (p.physical a' :: rest), hpair, hhops, hlt, ?_, ?_, ?_,
    hadj, ?_⟩
  · intro i hi x y l hxy hl
    exact hops_le_of_closest? hclosest (List.mem_filterMap.mpr ⟨i, hi, hxy⟩) hhops hl
  · simp only [forcedSwaps, hclosest, hpath]
  · rw [length_meetingSwaps (two_le_length rfl hlast hends), hlen]
    omega
  · rw [Placement.physical_swaps hp hrange hreach.left_lt,
      Placement.physical_swaps hp hrange hreach.right_lt]
    exact hmeet

/-- Forcing undoes the pending swaps and applies the forced ones. -/
theorem force_eq {p : Placement} (hundo : state.placement.swaps state.pending.reverse = p)
    {swaps : List (Qubit × Qubit)} (h : s.forcedSwaps p state.front = .ok swaps) :
    s.force state = .ok { state with
      placement := p.swaps swaps, pending := swaps, forced := state.forced + 1 } := by
  rw [Sweep.force, hundo]
  exact Outcome.bind_eq_ok.mpr ⟨swaps, h, rfl⟩

/-- Undoing the pending swaps and routing the closest gate succeeds, and lets it be executed. -/
theorem Holds.force (hs : s.Sound) (h : s.Holds start state done inserted)
    (hne : state.front ≠ []) (hstuck : s.Stuck state) :
    ∃ state', s.force state = .ok state' ∧ s.Holds start state' done inserted ∧
      state'.front = state.front ∧ ∃ k ∈ state'.front, s.executes state'.placement k = true := by
  set base := (replay start (state.output.zip inserted)).2 with hbase
  have hbp : base.IsPermutation s.device.numQubits := h.valid
  have hundo : state.placement.swaps state.pending.reverse = base := by
    rw [h.placement]
    exact Placement.swaps_reverse hbp (h.toTracks.pending_lt hs.device)
  have hreach : s.Reaches base := by
    have hr := h.reaches
    rw [h.placement] at hr
    exact (reaches_swaps hs hbp h.pending).mp hr
  obtain ⟨k, hk, a, b, hops, route, hpair, -, hlt, -, hforced, hshort, hadj, hmeet⟩ :=
    exists_forcedSwaps hs.device hbp hne fun j hj => by
      obtain ⟨x, y, hp, -⟩ := exists_pair (hstuck j hj)
      exact ⟨x, y, hs.withinReach hreach hp⟩
  refine ⟨_, force_eq hundo hforced, ?_, rfl, k, hk, ?_⟩
  · refine ⟨⟨h.length, h.swaps, h.coupled, h.written, h.operations, h.count, h.valid, rfl, hadj⟩,
      h.progress, ?_, ?_, h.bounded, ?_, fun hf => absurd hf hne⟩
    · intro _ i hi
      obtain ⟨x, y, hp, -⟩ := exists_pair (hstuck i hi)
      simp [hp]
    · -- a route visits no qubit twice
      change route.length ≤ 10 * max s.device.numQubits 1 + 1
      have hmax : s.device.numQubits ≤ max s.device.numQubits 1 := le_max_left _ _
      omega
    · exact (reaches_swaps hs hbp hadj).mpr hreach
  · simp only [executes, hpair]
    exact hmeet

/-! ## Swapping -/

/-- Whatever is done, the gates that follow the front can be looked up. -/
theorem exists_following (hs : s.Sound) (h : s.Holds start state done inserted) :
    ∃ following, s.following state = .ok following := by
  unfold Sweep.following
  split
  · exact ⟨_, rfl⟩
  · obtain ⟨behind, -, hrun⟩ := h.progress.exists_window hs.flows s.plan.extendedSetSize
    exact ⟨_, hrun⟩

variable [Scalar R]

/-- A swap moves the placement and becomes pending; the decay does not matter to the rest. -/
theorem exists_applySwap (s : Sweep R) (state : State R) (swap : Qubit × Qubit) :
    ∃ decay sinceReset, s.applySwap state swap = { state with
      placement := state.placement.swap swap.1 swap.2
      pending := state.pending ++ [swap], decay, sinceReset } := by
  unfold applySwap
  simp only
  split
  · exact ⟨_, _, rfl⟩
  · exact ⟨_, _, rfl⟩

/-- For a gate within reach that waits, a swap on a coupling is found. -/
theorem exists_improve (hs : s.Sound) (hp : state.placement.IsPermutation s.device.numQubits)
    (hr : s.Reaches state.placement) {k : Nat} (hk : k ∈ state.front)
    (hx : s.executes state.placement k = false) {following : List (Qubit × Qubit)}
    (hf : s.following state = .ok following) :
    ∃ swap decay sinceReset, s.device.isAdjacent swap.1 swap.2 = true ∧
      s.improve state = .ok { state with
        placement := state.placement.swap swap.1 swap.2
        window := some following
        pending := state.pending ++ [swap], decay, sinceReset } := by
  obtain ⟨swap, hswap, hbest⟩ := exists_bestSwap? { state with window := some following } following
    (candidates_ne_nil hs hp hr hk hx)
  obtain ⟨decay, since, happly⟩ := exists_applySwap s { state with window := some following } swap
  refine ⟨swap, decay, since, adjacent_of_mem_candidates hs.device hswap, ?_⟩
  refine Outcome.bind_eq_ok.mpr ⟨following, hf, ?_⟩
  simp only [hbest]
  rw [happly]
  rfl

/-- Where nothing can be executed, a swap on a coupling is found and becomes pending. -/
theorem Holds.improve (hs : s.Sound) (h : s.Holds start state done inserted)
    (hne : state.front ≠ []) (hstuck : s.Stuck state)
    (hpat : state.pending.length ≤ s.patience) :
    ∃ state', s.improve state = .ok state' ∧ s.Holds start state' done inserted ∧
      state'.front = state.front ∧ state'.pending.length = state.pending.length + 1 := by
  have hperm := h.toTracks.isPermutation hs.device
  obtain ⟨k, hk⟩ := List.exists_mem_of_ne_nil _ hne
  obtain ⟨following, hfollowing⟩ := exists_following hs h
  obtain ⟨swap, decay, since, hadj, himprove⟩ :=
    exists_improve hs hperm h.reaches hk (hstuck k hk) hfollowing
  have hone : ∀ t ∈ [swap], s.device.isAdjacent t.1 t.2 = true := by simpa using hadj
  refine ⟨_, himprove, ?_, rfl, by simp⟩
  refine ⟨⟨h.length, h.swaps, h.coupled, h.written, h.operations, h.count, h.valid, ?_, ?_⟩,
    h.progress, ?_, ?_, h.bounded, ?_, fun hf => absurd hf hne⟩
  · simp only [Placement.swaps_append, ← h.placement]
    rfl
  · intro t ht
    rcases List.mem_append.mp ht with ht | ht
    · exact h.pending t ht
    · exact hone t ht
  · intro _ j hj
    obtain ⟨a, b, hp, -⟩ := exists_pair (hstuck j hj)
    simp [hp]
  · simpa using hpat
  · exact (reaches_swaps hs hperm hone).mpr h.reaches

/-! ## Executing -/

/-- Operations that can be executed are written one after another. -/
theorem Tracks.emits (hs : s.Sound) (ks : List Nat) (h : s.Tracks start state done inserted)
    (hpend : state.pending = []) (hlt : ∀ k ∈ ks, k < s.graph.size)
    (hx : ∀ k ∈ ks, s.executes state.placement k = true) :
    ∃ cost output marks, ks.foldlM s.emit state = .ok { state with cost, output } ∧
      s.Tracks start { state with cost, output } (done ++ ks) marks := by
  induction ks generalizing state done inserted with
  | nil => exact ⟨state.cost, state.output, inserted, rfl, by simpa using h⟩
  | cons k ks ih =>
    obtain ⟨i, hi⟩ := s.exists_instruction? (hlt k (by simp))
    obtain ⟨cost, he⟩ := exists_emit hi (hx k (by simp))
    have ht := h.emit hpend hi (hs.operands k i hi).2 (hx k (by simp)) cost
    obtain ⟨cost', output', marks, hf, hm⟩ := ih ht hpend (fun j hj => hlt j (by simp [hj]))
      (fun j hj => hx j (by simp [hj]))
    refine ⟨cost', output', marks, ?_, by simpa using hm⟩
    rw [List.foldlM_cons, he]
    exact hf

/-- Executing part of the front does it. -/
theorem Holds.execute (hs : s.Sound) (h : s.Holds start state done inserted)
    {ready blocked : List Nat} (hperm : (ready ++ blocked).Perm state.front) (hne : ready ≠ [])
    (hx : ∀ k ∈ ready, s.executes state.placement k = true) :
    ∃ state' marks, s.execute state ready blocked = .ok state' ∧
      s.Holds start state' (done ++ ready) marks ∧ state'.pending = [] := by
  have hfront : ∀ k ∈ ready, k ∈ state.front := fun k hk => hperm.mem_iff.mp (by simp [hk])
  obtain ⟨cost, output, marks, hemit, htracks⟩ := (h.toTracks.flush hs.device).emits hs ready rfl
    (fun k hk => ((h.progress.mem_front k).mp (hfront k hk)).1) hx
  obtain ⟨waiting, free, hrel, hprog⟩ := h.progress.release hs.flows hperm
  have hexec : s.execute state ready blocked = .ok { s.flush state with
      cost, output, waiting, front := blocked ++ free, decay := s.freshDecay, sinceReset := 0
      window := none } := by
    exact Outcome.bind_eq_ok.mpr ⟨_, hemit,
      Outcome.bind_eq_ok.mpr ⟨(waiting, free), hrel, rfl⟩⟩
  refine ⟨_, marks, hexec, ?_, rfl⟩
  refine ⟨⟨htracks.length, htracks.swaps, htracks.coupled, htracks.written, htracks.operations,
    htracks.count, htracks.valid, htracks.placement, htracks.pending⟩, hprog, ?_, ?_, ?_,
    h.reaches, fun _ => rfl⟩
  · intro hp
    exact absurd rfl hp
  · exact Nat.zero_le _
  · -- each written swap waited for a gate that is done now
    change state.swaps + state.pending.length ≤ (s.patience + 1) * s.pairs (done ++ ready)
    have hb := h.bounded
    rw [pairs_append, Nat.mul_add]
    by_cases hp : state.pending = []
    · rw [hp, List.length_nil]
      omega
    · obtain ⟨k, hk⟩ := List.exists_mem_of_ne_nil ready hne
      have hone : 0 < s.pairs ready :=
        List.countP_pos_iff.mpr ⟨k, hk, h.blocked hp k (hfront k hk)⟩
      have hmul := Nat.mul_le_mul_left (s.patience + 1) hone
      have hpat := h.patient
      omega

end Steps

section Rounds

variable {s : Sweep R} {start : Placement} {state : State R} {done : List Nat}
  {inserted : List Bool}

/-! ## Steps -/

/-- The most steps that are left: a whole round for each operation behind the next one, and of the
present round what it takes to execute something, should every swap miss. -/
def fuel (s : Sweep R) (state : State R) (done : List Nat) : Nat :=
  if state.front = [] then 0
  else (s.graph.size - done.length - 1) * (s.patience + 3) +
    if state.front.any (s.executes state.placement) then 1
    else s.patience + 3 - state.pending.length

theorem fuel_of_executes (hne : state.front ≠ [])
    (hx : ∃ k ∈ state.front, s.executes state.placement k = true) :
    s.fuel state done = (s.graph.size - done.length - 1) * (s.patience + 3) + 1 := by
  rw [fuel, if_neg hne, if_pos (List.any_eq_true.mpr hx)]

theorem fuel_of_stuck (hne : state.front ≠ []) (hstuck : s.Stuck state) :
    s.fuel state done = (s.graph.size - done.length - 1) * (s.patience + 3) +
      (s.patience + 3 - state.pending.length) := by
  have hnone : ¬ state.front.any (s.executes state.placement) = true := by
    simpa [Stuck] using hstuck
  rw [fuel, if_neg hne, if_neg hnone]

theorem fuel_le_round (state : State R) (done : List Nat) :
    s.fuel state done ≤ (s.graph.size - done.length - 1) * (s.patience + 3) + (s.patience + 3) := by
  unfold fuel
  split
  · exact Nat.zero_le _
  · split <;> omega

theorem Holds.length_lt (h : s.Holds start state done inserted) (hne : state.front ≠ []) :
    done.length < s.graph.size := by
  obtain ⟨k, hk⟩ := List.exists_mem_of_ne_nil _ hne
  obtain ⟨hlt, hnot, -⟩ := (h.progress.mem_front k).mp hk
  have hnd : (k :: done).Nodup :=
    List.nodup_cons.mpr ⟨hnot, (List.nodup_append.mp h.progress.nodup).1⟩
  have hsub : k :: done ⊆ List.range s.graph.size := by
    intro v hv
    rcases List.mem_cons.mp hv with rfl | hv
    · exact List.mem_range.mpr hlt
    · exact List.mem_range.mpr (h.progress.done_lt v hv)
  simpa using (List.subperm_of_subset hnd hsub).length_le

/-- A whole round fits for every operation that is not done. -/
theorem Holds.fuel_le (h : s.Holds start state done inserted) :
    s.fuel state done ≤ (s.graph.size - done.length) * (s.patience + 3) := by
  by_cases hne : state.front = []
  · rw [fuel, if_pos hne]
    exact Nat.zero_le _
  · have hlt := h.length_lt hne
    have hround := s.fuel_le_round state done
    rw [← Nat.succ_mul] at hround
    rwa [show (s.graph.size - done.length - 1).succ = s.graph.size - done.length by omega] at hround

/-- A step that executes something ends the round. -/
theorem Holds.fuel_execute {state' : State R} {ready : List Nat}
    (h : s.Holds start state' (done ++ ready) inserted) (hne : state.front ≠ [])
    (hready : ready ≠ []) (hx : ∃ k ∈ state.front, s.executes state.placement k = true) :
    s.fuel state' (done ++ ready) < s.fuel state done := by
  have hle := h.fuel_le
  have hpos := List.length_pos_of_ne_nil hready
  have hrounds : s.graph.size - (done ++ ready).length ≤ s.graph.size - done.length - 1 := by
    rw [List.length_append]
    omega
  have hmul := Nat.mul_le_mul_right (s.patience + 3) hrounds
  rw [fuel_of_executes hne hx]
  omega

variable [Scalar R]

/-- Every step before the end succeeds, keeps the invariant and leaves fewer steps. -/
theorem Holds.step (hs : s.Sound) (h : s.Holds start state done inserted)
    (hne : state.front ≠ []) :
    ∃ state' done' inserted', s.step state = .ok state' ∧
      s.Holds start state' done' inserted' ∧ s.fuel state' done' < s.fuel state done := by
  set ready := state.front.filter (s.executes state.placement) with hready
  set blocked := state.front.filter fun k => !s.executes state.placement k with hblocked
  have hpart : state.front.partition (s.executes state.placement) = (ready, blocked) :=
    List.partition_eq_filter_filter
  have hperm : (ready ++ blocked).Perm state.front := List.filter_append_perm _ _
  by_cases hr : ready = []
  · have hstuck : s.Stuck state := by
      intro k hk
      simpa using List.filter_eq_nil_iff.mp hr k hk
    by_cases hpat : state.pending.length > s.patience
    · obtain ⟨state', hf, hh, hfront, hx⟩ := h.force hs hne hstuck
      refine ⟨state', done, inserted, ?_, hh, ?_⟩
      · rw [Sweep.step, hpart]
        simp only [hr, List.isEmpty_nil, Bool.not_true, Bool.false_eq_true, if_false, hpat, if_true,
          hf]
      · rw [fuel_of_executes (hfront ▸ hne) hx, fuel_of_stuck hne hstuck]
        have hbound := h.patient
        omega
    · obtain ⟨state', hi, hh, hfront, hlen⟩ := h.improve hs hne hstuck (Nat.le_of_not_lt hpat)
      refine ⟨state', done, inserted, ?_, hh, ?_⟩
      · rw [Sweep.step, hpart]
        simp only [hr, List.isEmpty_nil, Bool.not_true, Bool.false_eq_true, if_false, hpat, hi]
      · rw [fuel_of_stuck hne hstuck]
        by_cases hx : ∃ k ∈ state'.front, s.executes state'.placement k = true
        · rw [fuel_of_executes (hfront ▸ hne) hx]
          omega
        · have hstuck' : s.Stuck state' := by
            simpa [Stuck] using hx
          rw [fuel_of_stuck (hfront ▸ hne) hstuck']
          omega
  · obtain ⟨k, hk⟩ := List.exists_mem_of_ne_nil _ hr
    obtain ⟨state', marks, he, hh, -⟩ :=
      h.execute hs hperm hr fun k hk => (List.mem_filter.mp hk).2
    refine ⟨state', done ++ ready, marks, ?_, hh,
      hh.fuel_execute hne hr ⟨k, List.mem_filter.mp hk⟩⟩
    have hsome : (!ready.isEmpty) = true := by simpa using hr
    rw [Sweep.step, hpart]
    simp only [hsome, if_true, he]

/-- With enough steps a sweep comes to its end, and the invariant holds there. -/
theorem Holds.steps (hs : s.Sound) (h : s.Holds start state done inserted) {n : Nat}
    (hn : s.fuel state done ≤ n) :
    ∃ final done' inserted', s.steps n state = .ok final ∧
      s.Holds start final done' inserted' ∧ final.front = [] := by
  induction n generalizing state done inserted with
  | zero =>
    by_cases hne : state.front = []
    · exact ⟨state, done, inserted, by simp [Sweep.steps, hne], h, hne⟩
    · obtain ⟨_, _, _, -, -, hlt⟩ := h.step hs hne
      omega
  | succ n ih =>
    by_cases hne : state.front = []
    · exact ⟨state, done, inserted, by simp [Sweep.steps, hne], h, hne⟩
    · obtain ⟨state', done', inserted', hstep, hh, hlt⟩ := h.step hs hne
      obtain ⟨final, done'', inserted'', hrun, hend⟩ := ih hh (by omega)
      refine ⟨final, done'', inserted'', ?_, hend⟩
      have hcont : state.front.isEmpty = false := by simpa using hne
      rw [Sweep.steps, hcont]
      exact Outcome.bind_eq_ok.mpr ⟨state', hstep, hrun⟩

/-- More steps than a sweep takes do not matter. -/
theorem steps_of_le {n m : Nat} {final : State R} (h : s.steps n state = .ok final)
    (hle : n ≤ m) : s.steps m state = .ok final := by
  induction n generalizing m state with
  | zero =>
    unfold Sweep.steps at h ⊢
    split at h
    · rename_i hfront
      cases m <;> simpa [hfront] using h
    · cases h
  | succ n ih =>
    obtain ⟨m, rfl⟩ := Nat.exists_eq_add_one_of_ne_zero (show m ≠ 0 by omega)
    unfold Sweep.steps at h ⊢
    split at h
    · rename_i hfront
      simpa [hfront] using h
    · rename_i hfront
      obtain ⟨state', hstep, hrun⟩ := Outcome.bind_eq_ok.mp h
      rw [if_neg hfront]
      exact Outcome.bind_eq_ok.mpr ⟨state', hstep, ih hrun (by omega)⟩

end Rounds

end QuantumCompiler.Sweep
