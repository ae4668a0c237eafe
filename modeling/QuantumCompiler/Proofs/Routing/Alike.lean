import QuantumCompiler.Proofs.Routing.Run

/-!
# Idle qubits do not matter

A layout says where the qubits of a circuit sit; the placement that it is completed to also numbers the
idle physical qubits, and a sweep moves those along. `Twin` relates two states of a sweep that differ in
the idle numbers alone: every step of the one is a step of the other, so sweeps from two completions of
a layout write the same operations and end with the qubits of the circuit in the same places.
-/
namespace QuantumCompiler

namespace Placement

/-- Permutations that place the first qubits alike. -/
structure Alike (n w : Nat) (p q : Placement) : Prop where
  left : p.IsPermutation n
  right : q.IsPermutation n
  width : q.width = p.width
  physical : ∀ l < w, q.physical l = p.physical l

theorem getElem?_toPhysical {p : Placement} {n : Nat} (h : p.IsPermutation n) {l : Qubit}
    (hl : l < n) : p.toPhysical.toList[l]? = some (p.physical l) := by
  have hlt : l < p.toPhysical.size := h.size_physical ▸ hl
  simp [physical, hlt]

namespace Alike

variable {n w : Nat} {p q : Placement}

theorem swap (h : Alike n w p q) (hw : w ≤ n) {a b : Qubit} (ha : a < n) (hb : b < n) :
    Alike n w (p.swap a b) (q.swap a b) := by
  refine ⟨isPermutation_swap h.left ha hb, isPermutation_swap h.right ha hb, h.width, ?_⟩
  intro l hl
  have hln := hl.trans_le hw
  rw [physical_swap h.right ha hb hln, physical_swap h.left ha hb hln, h.physical l hl]

theorem swaps (h : Alike n w p q) (hw : w ≤ n) {ps : List (Qubit × Qubit)}
    (hps : ∀ t ∈ ps, t.1 < n ∧ t.2 < n) : Alike n w (p.swaps ps) (q.swaps ps) := by
  induction ps generalizing p q with
  | nil => exact h
  | cons t ps ih =>
    obtain ⟨ha, hb⟩ := hps t (by simp)
    rw [swaps_cons, swaps_cons]
    exact ih (h.swap hw ha hb) fun u hu => hps u (by simp [hu])

/-- What is recorded of two such placements is the same. -/
theorem toLayout_eq (h : Alike n w p q) (hw : p.width ≤ w) (hn : w ≤ n) :
    q.toLayout = p.toLayout := by
  rw [toLayout, toLayout, h.width]
  refine congrArg Layout.ofPhysical (List.ext_getElem? fun l => ?_)
  by_cases hl : l < p.width
  · have hlw := hl.trans_le hw
    rw [List.getElem?_take_of_lt hl, List.getElem?_take_of_lt hl,
      getElem?_toPhysical h.left (hlw.trans_le hn), getElem?_toPhysical h.right (hlw.trans_le hn),
      h.physical l hlw]
  · rw [List.getElem?_take_eq_none (by omega), List.getElem?_take_eq_none (by omega)]

end Alike

end Placement

/-! ## What a sweep asks of a placement -/

namespace RoutingGraph

variable {R : Type}

/-- Looking ahead adds two-qubit gates of the graph to the window. -/
theorem pairs_of_meet {g : RoutingGraph R} {limit node : Nat} {o o' : Outlook}
    (ho : ∀ x ∈ o.window, ∃ k, g.pair? k = some x) (h : g.meet limit o node = .ok o') :
    ∀ x ∈ o'.window, ∃ k, g.pair? k = some x := by
  rw [meet] at h
  split at h
  · exact Except.ok.inj h ▸ ho
  · obtain ⟨⟨waiting, free⟩, -, h⟩ := Outcome.bind_eq_ok.mp h
    obtain rfl := Except.ok.inj h
    intro x hx
    rcases List.mem_append.mp hx with hx | hx
    · exact ho x hx
    · obtain ⟨k, -, hk⟩ := List.mem_filterMap.mp hx
      exact ⟨k, hk⟩

/-- What is looked ahead to are two-qubit gates of the graph. -/
theorem exists_pair_of_lookahead {g : RoutingGraph R} {direction : Direction} {limit layers : Nat}
    {o : Outlook} {pairs : List (Qubit × Qubit)} (ho : ∀ x ∈ o.window, ∃ k, g.pair? k = some x)
    (h : g.lookahead direction limit layers o = .ok pairs) :
    ∀ x ∈ pairs, ∃ k, g.pair? k = some x := by
  induction layers generalizing o with
  | zero => cases h
  | succ layers ih =>
    rw [lookahead] at h
    split at h
    · exact Except.ok.inj h ▸ ho
    · obtain ⟨o', hrun, h⟩ := Outcome.bind_eq_ok.mp h
      refine ih ?_ h
      exact Outcome.foldlM_keeps (P := fun o => ∀ x ∈ o.window, ∃ k, g.pair? k = some x)
        (fun _ _ _ _ hb hc => pairs_of_meet hb hc) ho hrun

end RoutingGraph

namespace Sweep

variable {R : Type} {s : Sweep R} {w : Nat} {p q : Placement}

/-- The operations of a sweep act on the first qubits. -/
def Confined (s : Sweep R) (w : Nat) : Prop :=
  ∀ k i, s.graph.instruction? k = some i → ∀ l ∈ i.qubits, l < w

section Asks

variable (hc : s.Confined w) (hpq : ∀ l < w, q.physical l = p.physical l)

include hc

theorem Confined.pair_lt {k : Nat} {x : Qubit × Qubit} (hx : s.graph.pair? k = some x) :
    x.1 < w ∧ x.2 < w := by
  obtain ⟨i, hi, hp⟩ := Option.bind_eq_some_iff.mp hx
  have hlt := hc k i hi
  rw [(pair?_eq_some.mp hp).2] at hlt
  exact ⟨hlt x.1 (by simp), hlt x.2 (by simp)⟩

theorem Confined.frontPairs_lt {front : List Nat} {x : Qubit × Qubit}
    (hx : x ∈ s.frontPairs front) : x.1 < w ∧ x.2 < w := by
  obtain ⟨k, -, hk⟩ := List.mem_filterMap.mp hx
  exact hc.pair_lt hk

/-- The swaps of a route are swaps of physical qubits. -/
theorem forcedSwaps_lt (hd : s.device.WellFormed) (hw : w ≤ s.device.numQubits)
    (hp : p.IsPermutation s.device.numQubits) {front : List Nat} {swaps : List (Qubit × Qubit)}
    (h : s.forcedSwaps p front = .ok swaps) :
    ∀ t ∈ swaps, t.1 < s.device.numQubits ∧ t.2 < s.device.numQubits := by
  unfold forcedSwaps at h
  split at h
  · cases h
  · rename_i a b hab
    obtain ⟨ha, hb⟩ := hc.frontPairs_lt (mem_of_bestOf? hab)
    have hpa := hp.physical_lt a (ha.trans_le hw)
    have hpb := hp.physical_lt b (hb.trans_le hw)
    split at h
    · cases h
    · rename_i path hpath
      obtain rfl := Except.ok.inj h
      have hsome : (s.device.distance? (p.physical a) (p.physical b)).isSome = true := by
        rw [hd.path?_eq hpb] at hpath
        obtain ⟨k, hk, -⟩ := Option.map_eq_some_iff.mp hpath
        rw [hk]
        rfl
      obtain ⟨rest, hpath', -, -, -, hlt⟩ :=
        hd.path?_eq_some hpa hpb ((hd.component?_eq_iff hpa hpb).mpr hsome)
      obtain rfl := Option.some.inj (hpath.symm.trans hpath')
      intro t ht
      obtain ⟨h1, h2⟩ := mem_of_mem_meetingSwaps ht
      exact ⟨hlt _ h1, hlt _ h2⟩

include hpq

theorem executes_congr (k : Nat) : s.executes q k = s.executes p k := by
  unfold executes
  split
  · rename_i a b hab
    obtain ⟨ha, hb⟩ := hc.pair_lt hab
    rw [hpq a ha, hpq b hb]
  · rfl

theorem reaches_congr : s.Reaches q ↔ s.Reaches p := by
  refine forall_congr' fun k => forall_congr' fun a => forall_congr' fun b => forall_congr' fun hab => ?_
  obtain ⟨ha, hb⟩ := hc.pair_lt hab
  rw [hpq a ha, hpq b hb]

theorem candidates_congr (front : List Nat) : s.candidates q front = s.candidates p front := by
  unfold candidates
  refine congrArg List.eraseDups (List.flatMap_congr fun x hx => ?_)
  obtain ⟨ha, hb⟩ := hc.frontPairs_lt hx
  simp only [hpq x.1 ha, hpq x.2 hb]

theorem closest?_congr (front : List Nat) : s.closest? q front = s.closest? p front := by
  refine bestOf?_congr fun x hx y hy => ?_
  obtain ⟨hxa, hxb⟩ := hc.frontPairs_lt hx
  obtain ⟨hya, hyb⟩ := hc.frontPairs_lt hy
  simp only [hpq x.1 hxa, hpq x.2 hxb, hpq y.1 hya, hpq y.2 hyb]

theorem forcedSwaps_congr (front : List Nat) : s.forcedSwaps q front = s.forcedSwaps p front := by
  rw [forcedSwaps, forcedSwaps, closest?_congr hc hpq]
  cases hab : s.closest? p front with
  | none => rfl
  | some x =>
    obtain ⟨ha, hb⟩ := hc.frontPairs_lt (mem_of_bestOf? hab)
    simp only [hpq x.1 ha, hpq x.2 hb]

end Asks

/-! ## Steps from a state with other idle qubits -/

section Steps

variable [Scalar R] {state : State R}

section Same

variable (hc : s.Confined w) (hpq : ∀ l < w, q.physical l = state.placement.physical l)

include hc hpq

theorem bestSwap?_congr {following : List (Qubit × Qubit)}
    (hf : ∀ x ∈ following, x.1 < w ∧ x.2 < w) :
    s.bestSwap? { state with placement := q } following = s.bestSwap? state following := by
  have hplace (swap : Qubit × Qubit) {l : Qubit} (hl : l < w) :
      placeAfter q swap l = placeAfter state.placement swap l := by
    unfold placeAfter
    rw [hpq l hl]
  have hscore (decay : R) (swap : Qubit × Qubit) :
      Score.ofSwap s.device s.plan ⟨s.frontPairs state.front, following⟩ (placeAfter q swap)
        decay swap =
      Score.ofSwap s.device s.plan ⟨s.frontPairs state.front, following⟩
        (placeAfter state.placement swap) decay swap := by
    refine Score.ofSwap_congr (fun x hx => ?_) decay swap
    have hlt : x.1 < w ∧ x.2 < w := by
      rcases List.mem_append.mp hx with hx | hx
      · exact hc.frontPairs_lt hx
      · exact hf x hx
    exact ⟨hplace swap hlt.1, hplace swap hlt.2⟩
  unfold bestSwap?
  simp only [candidates_congr hc hpq, hscore]

/-- An operation is written alike. -/
theorem emit_congr {k : Nat} {after : State R} (h : s.emit state k = .ok after) :
    ∃ cost output, after = { state with cost, output } ∧
      s.emit { state with placement := q } k =
        .ok { state with placement := q, cost, output } := by
  have hmap : ∀ i, s.graph.instruction? k = some i →
      i.mapQubits q.physical = i.mapQubits state.placement.physical := by
    intro i hi
    have hqubits : i.qubits.map q.physical = i.qubits.map state.placement.physical :=
      List.map_congr_left fun l hl => hpq l (hc k i hi l hl)
    simp only [Instruction.mapQubits, hqubits]
  rcases hi : s.graph.instruction? k with _ | i <;> rcases hk : s.graph.pair? k with _ | x
  case none.some =>
    rw [RoutingGraph.pair?, hi] at hk
    cases hk
  case some.some =>
    obtain ⟨ha, hb⟩ := hc.pair_lt hk
    simp only [Sweep.emit, hi, hk, hmap i hi, hpq x.1 ha, hpq x.2 hb] at h ⊢
    split at h
    · exact ⟨_, _, (Except.ok.inj h).symm, rfl⟩
    · cases h
  all_goals simp only [Sweep.emit, hi, hk] at h ⊢
  case none.none => exact ⟨_, _, (Except.ok.inj h).symm, rfl⟩
  case some.none =>
    rw [hmap i hi]
    exact ⟨_, _, (Except.ok.inj h).symm, rfl⟩

/-- So are several. -/
theorem foldlM_emit_congr {ks : List Nat} {after : State R} (h : ks.foldlM s.emit state = .ok after) :
    ∃ cost output, after = { state with cost, output } ∧
      ks.foldlM s.emit { state with placement := q } =
        .ok { state with placement := q, cost, output } := by
  induction ks generalizing state with
  | nil =>
    obtain rfl := Except.ok.inj h
    exact ⟨state.cost, state.output, rfl, rfl⟩
  | cons k ks ih =>
    rw [List.foldlM_cons] at h
    obtain ⟨mid, hmid, h⟩ := Outcome.bind_eq_ok.mp h
    obtain ⟨cost, output, rfl, he⟩ := emit_congr hc hpq hmid
    obtain ⟨cost', output', rfl, hes⟩ := ih (by exact hpq) h
    refine ⟨cost', output', rfl, ?_⟩
    rw [List.foldlM_cons, he]
    exact hes

/-- Executing part of the front leaves the placement alone, and does not depend on its idle qubits. -/
theorem execute_congr {ready blocked : List Nat} {after : State R}
    (h : s.execute state ready blocked = .ok after) :
    after.placement = state.placement ∧ after.pending = [] ∧ after.window = none ∧
      s.execute { state with placement := q } ready blocked =
        .ok { after with placement := q } := by
  obtain ⟨mid, hmid, h⟩ := Outcome.bind_eq_ok.mp h
  obtain ⟨cost, output, rfl, he⟩ := foldlM_emit_congr hc (by exact hpq) hmid
  obtain ⟨⟨waiting, free⟩, hrel, h⟩ := Outcome.bind_eq_ok.mp h
  obtain rfl := Except.ok.inj h
  refine ⟨rfl, rfl, rfl, ?_⟩
  exact Outcome.bind_eq_ok.mpr ⟨_, he, Outcome.bind_eq_ok.mpr ⟨(waiting, free), hrel, rfl⟩⟩

end Same

/-- Two states of a sweep that differ in where the idle qubits sit. The gates that follow the front are
gates of the circuit, and pending swaps are swaps of physical qubits. -/
structure Twin (s : Sweep R) (w : Nat) (a b : State R) : Prop where
  placements : a.placement.Alike s.device.numQubits w b.placement
  rest : b = { a with placement := b.placement }
  window : ∀ pairs, a.window = some pairs → ∀ x ∈ pairs, x.1 < w ∧ x.2 < w
  pending : ∀ t ∈ a.pending, t.1 < s.device.numQubits ∧ t.2 < s.device.numQubits

namespace Twin

variable {a b a' : State R} (hc : s.Confined w)

include hc

theorem execute (h : s.Twin w a b) {ready blocked : List Nat}
    (hx : s.execute a ready blocked = .ok a') :
    ∃ b', s.execute b ready blocked = .ok b' ∧ s.Twin w a' b' := by
  obtain ⟨hplace, hpending, hwindow, hb⟩ := execute_congr hc h.placements.physical hx
  rw [h.rest]
  refine ⟨_, hb, ⟨hplace ▸ h.placements, rfl, ?_, ?_⟩⟩
  · intro pairs hp
    cases hwindow.symm.trans hp
  · rw [hpending]
    exact List.forall_mem_nil _

omit [Scalar R] in
/-- The gates that follow are looked up alike. -/
theorem following (h : s.Twin w a b) {pairs : List (Qubit × Qubit)}
    (hf : s.following a = .ok pairs) :
    s.following b = .ok pairs ∧ ∀ x ∈ pairs, x.1 < w ∧ x.2 < w := by
  refine ⟨by rw [h.rest]; exact hf, ?_⟩
  unfold Sweep.following at hf
  split at hf
  · rename_i window hwindow
    obtain rfl := Except.ok.inj hf
    exact h.window _ hwindow
  · intro x hx
    obtain ⟨k, hk⟩ := RoutingGraph.exists_pair_of_lookahead (by simp) hf x hx
    exact hc.pair_lt hk

omit hc in
theorem applySwap (h : s.Twin w a b) (hw : w ≤ s.device.numQubits) {swap : Qubit × Qubit}
    (hswap : swap.1 < s.device.numQubits ∧ swap.2 < s.device.numQubits) :
    s.Twin w (s.applySwap a swap) (s.applySwap b swap) := by
  obtain ⟨decay, since, ha⟩ := exists_applySwap s a swap
  have hb : s.applySwap b swap =
      { s.applySwap a swap with placement := b.placement.swap swap.1 swap.2 } := by
    rw [h.rest]
    unfold Sweep.applySwap
    simp only
    split <;> rfl
  rw [hb, ha]
  refine ⟨h.placements.swap hw hswap.1 hswap.2, rfl, h.window, fun t ht => ?_⟩
  rcases List.mem_append.mp ht with ht | ht
  · exact h.pending t ht
  · exact List.mem_singleton.mp ht ▸ hswap

theorem improve (hd : s.device.WellFormed) (hw : w ≤ s.device.numQubits) (h : s.Twin w a b)
    (hx : s.improve a = .ok a') : ∃ b', s.improve b = .ok b' ∧ s.Twin w a' b' := by
  obtain ⟨pairs, hpairs, hx⟩ := Outcome.bind_eq_ok.mp hx
  obtain ⟨hpairs', hlt⟩ := h.following hc hpairs
  have hlooked : s.Twin w { a with window := some pairs } { b with window := some pairs } := by
    refine ⟨h.placements, by rw [h.rest], ?_, h.pending⟩
    rintro _ ⟨⟩
    exact hlt
  have hbest : s.bestSwap? { b with window := some pairs } pairs =
      s.bestSwap? { a with window := some pairs } pairs := by
    rw [hlooked.rest]
    exact bestSwap?_congr hc h.placements.physical hlt
  cases hswap : s.bestSwap? { a with window := some pairs } pairs with
  | none =>
    simp only [hswap] at hx
    cases hx
  | some swap =>
    simp only [hswap] at hx
    obtain rfl := Except.ok.inj hx
    have hmem := mem_candidates_of_bestSwap? hswap
    obtain ⟨h1, h2, -⟩ := hd.lt_of_isAdjacent (adjacent_of_mem_candidates hd hmem)
    refine ⟨_, Outcome.bind_eq_ok.mpr ⟨pairs, hpairs', ?_⟩, hlooked.applySwap hw ⟨h1, h2⟩⟩
    simp only [hbest, hswap]
    rfl

omit [Scalar R] in
theorem force (hd : s.device.WellFormed) (hw : w ≤ s.device.numQubits) (h : s.Twin w a b)
    (hx : s.force a = .ok a') : ∃ b', s.force b = .ok b' ∧ s.Twin w a' b' := by
  obtain ⟨swaps, hswaps, hx⟩ := Outcome.bind_eq_ok.mp hx
  obtain rfl := Except.ok.inj hx
  have hback : ∀ t ∈ a.pending.reverse, t.1 < s.device.numQubits ∧ t.2 < s.device.numQubits :=
    fun t ht => h.pending t (List.mem_reverse.mp ht)
  have hundone := h.placements.swaps hw hback
  have hlt := forcedSwaps_lt hc hd hw hundone.left hswaps
  have hpending : b.pending = a.pending := by rw [h.rest]
  have hfront : b.front = a.front := by rw [h.rest]
  have hswaps' : s.forcedSwaps (b.placement.swaps b.pending.reverse) b.front = .ok swaps := by
    rw [hpending, hfront, forcedSwaps_congr hc hundone.physical, hswaps]
  refine ⟨_, force_eq rfl hswaps', ⟨?_, ?_, h.window, hlt⟩⟩
  · rw [hpending]
    exact hundone.swaps hw hlt
  · rw [h.rest]

theorem step (hd : s.device.WellFormed) (hw : w ≤ s.device.numQubits) (h : s.Twin w a b)
    (hx : s.step a = .ok a') : ∃ b', s.step b = .ok b' ∧ s.Twin w a' b' := by
  have hexec : s.executes b.placement = s.executes a.placement :=
    funext fun k => executes_congr hc h.placements.physical k
  have hpending : b.pending = a.pending := by rw [h.rest]
  have hfront : b.front = a.front := by rw [h.rest]
  unfold Sweep.step at hx ⊢
  rw [hexec, hfront, hpending]
  generalize a.front.partition (s.executes a.placement) = parts at hx ⊢
  obtain ⟨ready, blocked⟩ := parts
  dsimp only at hx ⊢
  split at hx
  · rename_i hready
    rw [if_pos hready]
    exact h.execute hc hx
  · rename_i hready
    rw [if_neg hready]
    split at hx
    · rename_i hlong
      rw [if_pos hlong]
      exact h.force hc hd hw hx
    · rename_i hlong
      rw [if_neg hlong]
      exact h.improve hc hd hw hx

theorem steps (hd : s.device.WellFormed) (hw : w ≤ s.device.numQubits) (h : s.Twin w a b)
    {n : Nat} (hx : s.steps n a = .ok a') : ∃ b', s.steps n b = .ok b' ∧ s.Twin w a' b' := by
  induction n generalizing a b with
  | zero =>
    have hfront : b.front = a.front := by rw [h.rest]
    rw [Sweep.steps] at hx ⊢
    rw [hfront]
    split at hx
    · rename_i hempty
      obtain rfl := Except.ok.inj hx
      exact ⟨b, by rw [if_pos hempty], h⟩
    · cases hx
  | succ n ih =>
    have hfront : b.front = a.front := by rw [h.rest]
    rw [Sweep.steps] at hx ⊢
    rw [hfront]
    split at hx
    · rename_i hempty
      obtain rfl := Except.ok.inj hx
      exact ⟨b, by rw [if_pos hempty], h⟩
    · rename_i hempty
      obtain ⟨mid, hmid, hx⟩ := Outcome.bind_eq_ok.mp hx
      obtain ⟨mid', hmid', hm⟩ := h.step hc hd hw hmid
      obtain ⟨b', hb', ht⟩ := ih hm hx
      exact ⟨b', by rw [if_neg hempty]; exact Outcome.bind_eq_ok.mpr ⟨mid', hmid', hb'⟩, ht⟩

end Twin

/-- Sweeps from placements that differ in their idle qubits give the same trial, up to idle qubits. -/
theorem exists_run_of_alike (hc : s.Confined w) (hd : s.device.WellFormed)
    (hw : w ≤ s.device.numQubits) (h : p.Alike s.device.numQubits w q) {trial : Trial R}
    (hrun : s.run p = .ok trial) : ∃ placement,
      s.run q = .ok { trial with placement } ∧
        trial.placement.Alike s.device.numQubits w placement := by
  obtain ⟨hreach, final, hsteps, rfl⟩ := run_eq_ok.mp hrun
  have hbegin : s.Twin w (s.begin p) (s.begin q) := by
    refine ⟨h, rfl, ?_, List.forall_mem_nil _⟩
    rintro _ ⟨⟩
  obtain ⟨final', hsteps', ht⟩ := hbegin.steps hc hd hw hsteps
  refine ⟨final'.placement, run_eq_ok.mpr ⟨?_, final', hsteps', ?_⟩, ht.placements⟩
  · rw [checkReachable_eq_ok, reaches_congr hc h.physical]
    exact checkReachable_eq_ok.mp hreach
  · rw [State.trial, ht.rest]
    rfl

end Steps

end Sweep

end QuantumCompiler
