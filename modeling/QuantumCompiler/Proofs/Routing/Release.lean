import QuantumCompiler.Proofs.Routing.Sweep

/-!
# The release valve

A sweep that makes no progress gives up its pending swaps and routes one gate of the front. The gate is
a closest one, the swaps are as many as there are qubits between its operands, and they leave the two
operands coupled, whether the number of qubits on the path is even or odd.
-/
namespace QuantumCompiler.Sweep

variable {R : Type} [Scalar R] {s : Sweep R} {p : Placement} {front : List Nat}

/-- Forcing a route succeeds from any permutation under which the waiting gates are within reach. It
picks a gate of least distance, applies one swap fewer than that distance, each on a coupling, and leaves
the operands of the gate coupled; the swaps that it applied are the pending ones, in order. -/
theorem force_couples_closest (hb : s.device.Built) (hp : p.IsPermutation s.device.numQubits)
    (hne : front ≠ []) (hfront : ∀ k ∈ front, ∃ a b, s.WithinReach p k a b) :
    ∃ k ∈ front, ∃ a b hops swaps, s.graph.pair? k = some (a, b) ∧
      s.device.distance? (p.physical a) (p.physical b) = some hops ∧
      (∀ j ∈ front, ∀ x y l, s.graph.pair? j = some (x, y) →
        s.device.distance? (p.physical x) (p.physical y) = some l → hops ≤ l) ∧
      s.forcedSwaps p front = .ok swaps ∧ swaps.length = hops - 1 ∧
      (∀ t ∈ swaps, s.device.isAdjacent t.1 t.2 = true) ∧
      s.device.isAdjacent ((p.swaps swaps).physical a) ((p.swaps swaps).physical b) = true ∧
      ∀ state : State R, state.front = front → state.placement.swaps state.pending.reverse = p →
        s.force state = .ok { state with
          placement := p.swaps swaps, pending := swaps, forced := state.forced + 1 } := by
  obtain ⟨k, hk, a, b, hops, swaps, hpair, hhops, -, hleast, hforced, hlen, hadj, hmeet⟩ :=
    exists_forcedSwaps hb.wellFormed hp hne hfront
  refine ⟨k, hk, a, b, hops, swaps, hpair, hhops, hleast, hforced, hlen, hadj, hmeet, ?_⟩
  rintro state rfl hundo
  exact force_eq hundo hforced

/-- Two gates across a line of six qubits, one within the other. -/
def nestedSweep : Sweep Float where
  graph :=
    { nodes := #[⟨.ofStandard .cx [0, 5], [], []⟩, ⟨.ofStandard .cx [1, 4], [], []⟩]
      numClbits := 0
      phase := 0 }
  device := Device.linear 6
  plan := ⟨.distance, 1, 0, .trivial, 0.001, 20, 5, 0.5⟩
  direction := .forward

/-- Every qubit on the place of its number. -/
def nestedPlacement : Placement := .ofList [0, 1, 2, 3, 4, 5] 6

/-- The inner gate is routed. -/
theorem force_couples_nested : nestedPlacement.IsPermutation nestedSweep.device.numQubits ∧
    (∀ k ∈ [0, 1], ∃ a b, nestedSweep.WithinReach nestedPlacement k a b) ∧
    ∃ swaps, nestedSweep.forcedSwaps nestedPlacement [0, 1] = .ok swaps ∧ swaps.length ≤ 2 ∧
      ∀ t ∈ swaps, nestedSweep.device.isAdjacent t.1 t.2 = true := by
  have hb : nestedSweep.device.Built := .linear 6
  have hp : nestedPlacement.IsPermutation nestedSweep.device.numQubits :=
    Placement.isPermutation_ofList (List.Perm.refl (List.range 6)) 6
  have hfront : ∀ k ∈ [0, 1], ∃ a b, nestedSweep.WithinReach nestedPlacement k a b := by
    simp only [List.forall_mem_cons]
    exact ⟨⟨0, 5, rfl, by decide, by decide, by decide, by decide +kernel⟩,
      ⟨1, 4, rfl, by decide, by decide, by decide, by decide +kernel⟩, by simp⟩
  obtain ⟨k, -, a, b, hops, swaps, -, -, hleast, hforced, hlen, hadj, -⟩ :=
    force_couples_closest hb hp (List.cons_ne_nil 0 [1]) hfront
  -- the walk 1, 2, 3, 4 bounds the distance between the operands of the inner gate
  have hw := hb.wellFormed
  have hstep {x y : Qubit} (h : nestedSweep.device.isAdjacent x y = true) := hw.graph_adj.mpr h
  obtain ⟨l, hl⟩ : ∃ l, nestedSweep.device.distance? 1 4 = some l :=
    Option.isSome_iff_exists.mp
      ((hw.component?_eq_iff (by decide) (by decide)).mp (by decide +kernel))
  have hle : l ≤ 3 := ((hw.distance?_isLeast (by decide)).mp hl).2
    ⟨.cons (hstep (y := 2) rfl) (.cons (hstep (y := 3) rfl) (.cons (hstep rfl) .nil)), rfl⟩
  have hmin : hops ≤ l := hleast 1 (by simp) 1 4 l rfl hl
  exact ⟨hp, hfront, swaps, hforced, by omega, hadj⟩

end QuantumCompiler.Sweep
