import QuantumCompiler.Proofs.Device.Built
import QuantumCompiler.Proofs.Layout.Placement
import QuantumCompiler.Proofs.Outcome
import QuantumCompiler.Routing.Sweep

/-!
# Reading a routed circuit back

The output of a sweep is read from left to right, with a mark at each inserted swap. An inserted swap
moves the tracked placement; any other operation is mapped back to the qubits of the circuit. `Tracks`
says that a sweep is in step with this reading: what was read back is what was done, and the placement of
the sweep is the tracked one after the swaps that are not written yet.
-/
namespace QuantumCompiler.Sweep

variable {R : Type}

/-- Reads an output back, inserted swaps marked: the operations over the qubits of the circuit, and the
placement in the end. -/
def replay : Placement → List (Instruction R × Bool) → List (Instruction R) × Placement
  | p, [] => ([], p)
  | p, (i, true) :: rest =>
    match i.qubits with
    | [a, b] => replay (p.swap a b) rest
    | _ => replay p rest
  | p, (i, false) :: rest => (i.mapQubits p.logical :: (replay p rest).1, (replay p rest).2)

theorem replay_append (p : Placement) (xs ys : List (Instruction R × Bool)) :
    replay p (xs ++ ys) =
      ((replay p xs).1 ++ (replay (replay p xs).2 ys).1, (replay (replay p xs).2 ys).2) := by
  induction xs generalizing p with
  | nil => rfl
  | cons x xs ih =>
    obtain ⟨i, inserted⟩ := x
    cases inserted with
    | false => simp only [List.cons_append, replay, ih]
    | true =>
      simp only [List.cons_append, replay]
      split <;> exact ih _

/-- Inserted swaps move the placement and give no operation. -/
theorem replay_swaps (p : Placement) (ps : List (Qubit × Qubit)) :
    replay p ((ps.map (swapGate (R := R))).zip (List.replicate ps.length true)) =
      ([], p.swaps ps) := by
  induction ps generalizing p with
  | nil => rfl
  | cons s ps ih =>
    rw [List.map_cons, List.length_cons, List.replicate_succ, List.zip_cons_cons]
    exact ih (p.swap s.1 s.2)

/-- An operation that is not inserted is mapped back from where the placement is by then. -/
theorem replay_concat (p : Placement) (xs : List (Instruction R × Bool)) (i : Instruction R) :
    replay p (xs ++ [(i, false)]) =
      ((replay p xs).1 ++ [i.mapQubits (replay p xs).2.logical], (replay p xs).2) := by
  rw [replay_append]
  rfl

/-- What a sweep writes: swaps on couplings, and operations of the circuit over the qubits where their
operands sit. -/
def Writes (s : Sweep R) (o : Instruction R) : Prop :=
  (∃ a b, o = swapGate (a, b) ∧ s.device.isAdjacent a b = true) ∨
    ∃ (k : Nat) (i : Instruction R) (p : Placement), s.graph.instruction? k = some i ∧
      p.IsPermutation s.device.numQubits ∧ o = i.mapQubits p.physical

/-- The sweep is in step with its output read back. -/
structure Tracks (s : Sweep R) (start : Placement) (state : State R) (done : List Nat)
    (inserted : List Bool) : Prop where
  length : inserted.length = state.output.length
  swaps : ∀ i, (i, true) ∈ state.output.zip inserted →
    ∃ a b, i = swapGate (a, b) ∧ s.device.isAdjacent a b = true
  coupled : ∀ i ∈ state.output, ∀ a b, i.pair? = some (a, b) → s.device.isAdjacent a b = true
  written : ∀ o ∈ state.output, s.Writes o
  operations : (replay start (state.output.zip inserted)).1.map some =
    done.map s.graph.instruction?
  count : state.swaps = inserted.count true
  valid : (replay start (state.output.zip inserted)).2.IsPermutation s.device.numQubits
  placement : state.placement =
    (replay start (state.output.zip inserted)).2.swaps state.pending
  pending : ∀ t ∈ state.pending, s.device.isAdjacent t.1 t.2 = true

/-! ## Operands -/

theorem pair?_eq_some {i : Instruction R} {a b : Qubit} :
    i.pair? = some (a, b) ↔ i.isGate = true ∧ i.qubits = [a, b] := by
  unfold Instruction.pair?
  by_cases hg : i.isGate = true
  · rw [if_pos hg]
    split
    · rename_i x y he
      simp [hg, he]
    · rename_i hne
      simp only [reduceCtorEq, false_iff, not_and]
      exact fun _ he => hne a b he
  · simp [hg]

theorem pair?_swapGate (a b : Qubit) : (swapGate (R := R) (a, b)).pair? = some (a, b) :=
  pair?_eq_some.mpr ⟨rfl, rfl⟩

theorem pair?_mapQubits {i : Instruction R} {f : Qubit → Qubit} {a b : Qubit}
    (h : (i.mapQubits f).pair? = some (a, b)) :
    ∃ x y, i.pair? = some (x, y) ∧ a = f x ∧ b = f y := by
  obtain ⟨hg, hq⟩ := pair?_eq_some.mp h
  obtain ⟨x, xs, hx, rfl, hxs⟩ := List.map_eq_cons_iff.mp hq
  obtain ⟨y, ys, hy, rfl, hys⟩ := List.map_eq_cons_iff.mp hxs
  obtain rfl := List.map_eq_nil_iff.mp hys
  exact ⟨x, y, pair?_eq_some.mpr ⟨hg, by rw [hx, hy]⟩, rfl, rfl⟩

/-- Mapping operands to where they sit and back gives them back. -/
theorem mapQubits_logical_physical {p : Placement} {n : Nat} (hp : p.IsPermutation n)
    {i : Instruction R} (hi : ∀ q ∈ i.qubits, q < n) :
    (i.mapQubits p.physical).mapQubits p.logical = i := by
  have hq : (i.qubits.map p.physical).map p.logical = i.qubits := by
    rw [List.map_map]
    conv_rhs => rw [← List.map_id i.qubits]
    apply List.map_congr_left
    intro q hm
    exact hp.logical_physical q (hi q hm)
  simp only [Instruction.mapQubits, hq]

/-! ## Writing to the output -/

section Write

variable {s : Sweep R} {start : Placement} {state : State R} {done : List Nat}
  {inserted : List Bool}

/-- Two qubits of every pending swap are qubits of the device. -/
theorem Tracks.pending_lt (hd : s.device.WellFormed) (h : s.Tracks start state done inserted) :
    ∀ t ∈ state.pending, t.1 < s.device.numQubits ∧ t.2 < s.device.numQubits := by
  intro t ht
  obtain ⟨h1, h2, -⟩ := hd.lt_of_isAdjacent (h.pending t ht)
  exact ⟨h1, h2⟩

theorem Tracks.isPermutation (hd : s.device.WellFormed)
    (h : s.Tracks start state done inserted) :
    state.placement.IsPermutation s.device.numQubits := by
  rw [h.placement]
  exact Placement.isPermutation_swaps h.valid (h.pending_lt hd)

/-- An operation that can be executed has its operands on coupled qubits. -/
theorem adjacent_of_executes {k : Nat} {i : Instruction R}
    (hi : s.graph.instruction? k = some i) {p : Placement} (hx : s.executes p k = true)
    {a b : Qubit} (hab : i.pair? = some (a, b)) :
    s.device.isAdjacent (p.physical a) (p.physical b) = true := by
  rw [executes, RoutingGraph.pair?, hi, Option.bind_some, hab] at hx
  exact hx

/-- An operation that can be executed is written, over the qubits where its operands sit. -/
theorem Tracks.emit (h : s.Tracks start state done inserted) (hpend : state.pending = [])
    {k : Nat} {i : Instruction R} (hi : s.graph.instruction? k = some i)
    (hq : ∀ q ∈ i.qubits, q < s.device.numQubits)
    (hx : s.executes state.placement k = true) (cost : R) :
    s.Tracks start { state with
      cost, output := state.output ++ [i.mapQubits state.placement.physical] }
      (done ++ [k]) (inserted ++ [false]) := by
  have hplace : state.placement = (replay start (state.output.zip inserted)).2 := by
    rw [h.placement, hpend]
    rfl
  have hzip : (state.output ++ [i.mapQubits state.placement.physical]).zip (inserted ++ [false]) =
      state.output.zip inserted ++ [(i.mapQubits state.placement.physical, false)] :=
    List.zip_append h.length.symm
  have hreplay : replay start
      ((state.output ++ [i.mapQubits state.placement.physical]).zip (inserted ++ [false])) =
      ((replay start (state.output.zip inserted)).1 ++ [i],
        (replay start (state.output.zip inserted)).2) := by
    rw [hzip, replay_concat, hplace, mapQubits_logical_physical h.valid hq]
  constructor
  · simp [h.length]
  · intro j hj
    rw [hzip] at hj
    rcases List.mem_append.mp hj with hj | hj
    · exact h.swaps j hj
    · simp at hj
  · intro j hj a b hab
    rcases List.mem_append.mp hj with hj | hj
    · exact h.coupled j hj a b hab
    · rw [List.mem_singleton.mp hj] at hab
      obtain ⟨x, y, hxy, rfl, rfl⟩ := pair?_mapQubits hab
      exact adjacent_of_executes hi hx hxy
  · intro o ho
    rcases List.mem_append.mp ho with ho | ho
    · exact h.written o ho
    · refine .inr ⟨k, i, state.placement, hi, ?_, List.mem_singleton.mp ho⟩
      rw [hplace]
      exact h.valid
  · simp only [hreplay, List.map_append, h.operations, List.map_cons, List.map_nil, hi]
  · simp [h.count]
  · rw [hreplay]
    exact h.valid
  · simp only [hreplay]
    exact h.placement
  · exact h.pending

variable [Scalar R]

theorem tracks_begin (s : Sweep R) {p : Placement} (hp : p.IsPermutation s.device.numQubits) :
    s.Tracks p (s.begin p) [] [] :=
  ⟨rfl, by simp [begin], by simp [begin], by simp [begin], rfl, rfl, hp, rfl, by simp [begin]⟩

/-- Writing the pending swaps makes the placement the tracked one. -/
theorem Tracks.flush (hd : s.device.WellFormed) (h : s.Tracks start state done inserted) :
    s.Tracks start (s.flush state) done
      (inserted ++ List.replicate state.pending.length true) := by
  have hzip : (s.flush state).output.zip
      (inserted ++ List.replicate state.pending.length true) =
      state.output.zip inserted ++
        (state.pending.map swapGate).zip (List.replicate state.pending.length true) :=
    List.zip_append h.length.symm
  have hreplay : replay start ((s.flush state).output.zip
      (inserted ++ List.replicate state.pending.length true)) =
      ((replay start (state.output.zip inserted)).1, state.placement) := by
    rw [hzip, replay_append, replay_swaps, List.append_nil, h.placement]
  constructor
  · simp [Sweep.flush, h.length]
  · intro i hi
    rw [hzip] at hi
    rcases List.mem_append.mp hi with hi | hi
    · exact h.swaps i hi
    · obtain ⟨⟨a, b⟩, ht, rfl⟩ := List.mem_map.mp (List.of_mem_zip hi).1
      exact ⟨a, b, rfl, h.pending (a, b) ht⟩
  · intro i hi a b hab
    rcases List.mem_append.mp hi with hi | hi
    · exact h.coupled i hi a b hab
    · obtain ⟨⟨x, y⟩, ht, rfl⟩ := List.mem_map.mp hi
      rw [pair?_swapGate] at hab
      obtain ⟨rfl, rfl⟩ := Prod.mk.inj (Option.some.inj hab)
      exact h.pending (x, y) ht
  · intro o ho
    rcases List.mem_append.mp ho with ho | ho
    · exact h.written o ho
    · obtain ⟨⟨x, y⟩, ht, rfl⟩ := List.mem_map.mp ho
      exact .inl ⟨x, y, rfl, h.pending (x, y) ht⟩
  · rw [hreplay]
    exact h.operations
  · simp [Sweep.flush, h.count]
  · rw [hreplay]
    exact h.isPermutation hd
  · rw [hreplay]
    rfl
  · simp [Sweep.flush]

/-- Writing an operation that can be executed succeeds. -/
theorem exists_emit {k : Nat} {i : Instruction R} (hi : s.graph.instruction? k = some i)
    (hx : s.executes state.placement k = true) :
    ∃ cost, s.emit state k = .ok { state with
      cost, output := state.output ++ [i.mapQubits state.placement.physical] } := by
  have hpair : s.graph.pair? k = i.pair? := by
    rw [RoutingGraph.pair?, hi]
    rfl
  cases hp : i.pair? with
  | none =>
    refine ⟨state.cost, ?_⟩
    simp only [Sweep.emit, hpair, hp, hi]
    rfl
  | some pair =>
    obtain ⟨a, b⟩ := pair
    have hf := adjacent_of_executes hi hx hp
    rw [← Device.fidelity?_isSome] at hf
    obtain ⟨f, hf⟩ := Option.isSome_iff_exists.mp hf
    refine ⟨state.cost + -Scalar.ln f, ?_⟩
    simp only [Sweep.emit, hpair, hp, hi, hf]
    rfl

end Write

end QuantumCompiler.Sweep
