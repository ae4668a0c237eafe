import QuantumCompiler.Proofs.Flow.Search
import QuantumCompiler.Proofs.Routing.Alike
import QuantumCompiler.Proofs.Routing.Trace

/-!
# The best sweep of a search

A search for a layout sweeps forward and backward in turns and keeps one of its forward sweeps, with the
layout it started from. `Shuttles` lists the sweeps that were made; what is recorded belongs to one of
them, and routing once more from the recorded layout records the same. That layout leaves the idle qubits
out, so the second sweep starts from a placement that may number them in another way.
-/
namespace QuantumCompiler

namespace Placement

variable {R : Type} {p : Placement} {n : Nat}

/-- Completing what is recorded of a placement gives it back, up to idle qubits. -/
theorem exists_ofLayout_toLayout (h : p.IsPermutation n) (hw : p.width ≤ n) :
    ∃ q, (ofLayout p.toLayout p.width n : Compile R _) = .ok q ∧ p.Alike n p.width q := by
  have hsize : p.width ≤ p.toPhysical.toList.length := by
    rw [Array.length_toList, h.size_physical]
    exact hw
  have hc : Choice p.width n (p.toPhysical.toList.take p.width) := by
    refine ⟨by rw [List.length_take, Nat.min_eq_left hsize],
      (nodup_toPhysical h).sublist (List.take_sublist _ _), fun x hx => ?_⟩
    obtain ⟨l, hl⟩ := List.mem_iff_getElem?.mp (List.mem_of_mem_take hx)
    have hln : l < n := by
      have hlt := (List.getElem?_eq_some_iff.mp hl).1
      rwa [Array.length_toList, h.size_physical] at hlt
    rw [getElem?_toPhysical h hln] at hl
    exact Option.some.inj hl ▸ h.physical_lt l hln
  obtain ⟨q, hq, hperm, hwidth, hphysical⟩ := exists_ofLayout (R := R) hw hc
  refine ⟨q, hq, h, hperm, hwidth, fun l hl => ?_⟩
  have hget := hphysical l hl
  rw [List.getElem?_take_of_lt hl, getElem?_toPhysical h (hl.trans_le hw)] at hget
  exact (Option.some.inj hget).symm

end Placement

theorem Trial.better_swaps {R : Type} [Scalar R] {heuristic : Heuristic} (hh : heuristic ≠ .fidelity)
    (a b : Trial R) : (better heuristic a b = true → a.swaps ≤ b.swaps) ∧
      (better heuristic a b = false → b.swaps ≤ a.swaps) := by
  cases heuristic with
  | fidelity => exact absurd rfl hh
  | distance => simp [better]; omega
  | mixture => simp [better]; omega

namespace Routing

variable {R : Type} [Scalar R] {graph : RoutingGraph R} {device : Device R} {plan : SearchPlan R}

/-! ## The sweeps of a search -/

/-- A sweep that was made. -/
structure Leg (R : Type) where
  direction : Direction
  start : Placement
  trial : Trial R

/-- Sweeps forward and backward in turns, from a forward one to a forward one, and each from where the
one before it ended. -/
inductive Shuttles (graph : RoutingGraph R) (device : Device R) (plan : SearchPlan R) :
    Placement → List (Leg R) → Prop
  /-- The last sweep. -/
  | last {start : Placement} {trial : Trial R}
    (h : Sweep.run ⟨graph, device, plan, .forward⟩ start = .ok trial) :
    Shuttles graph device plan start [⟨.forward, start, trial⟩]
  /-- A way there and back before the other sweeps. -/
  | turn {start : Placement} {there back : Trial R} {legs : List (Leg R)}
    (hthere : Sweep.run ⟨graph, device, plan, .forward⟩ start = .ok there)
    (hback : Sweep.run ⟨graph, device, plan, .reverse⟩ there.placement = .ok back)
    (h : Shuttles graph device plan back.placement legs) :
    Shuttles graph device plan start
      (⟨.forward, start, there⟩ :: ⟨.reverse, there.placement, back⟩ :: legs)

/-- The trials of a search are its forward sweeps, and all sweeps are counted. -/
theorem exists_shuttles {rounds sweeps : Nat} {start : Placement} {ts : List (Placement × Trial R)}
    (hts : trials graph device plan (rounds + 1) start = .ok (ts, sweeps)) :
    ∃ legs, Shuttles graph device plan start legs ∧
      legs.length = sweeps ∧ legs.length = 2 * (rounds + 1) - 1 ∧
      (∀ t ∈ ts, ⟨.forward, t.1, t.2⟩ ∈ legs) ∧
      ∀ leg ∈ legs, leg.direction = .forward → (leg.start, leg.trial) ∈ ts := by
  induction rounds generalizing start ts sweeps with
  | zero =>
    obtain ⟨forward, hforward, hts⟩ := Outcome.bind_eq_ok.mp hts
    obtain ⟨rfl, rfl⟩ := Prod.mk.inj (Except.ok.inj hts)
    exact ⟨_, .last hforward, rfl, rfl, by simp, by simp⟩
  | succ rounds ih =>
    obtain ⟨forward, hforward, hts⟩ := Outcome.bind_eq_ok.mp hts
    obtain ⟨backward, hbackward, hts⟩ := Outcome.bind_eq_ok.mp hts
    obtain ⟨⟨rest, more⟩, hrest, hts⟩ := Outcome.bind_eq_ok.mp hts
    obtain ⟨rfl, rfl⟩ := Prod.mk.inj (Except.ok.inj hts)
    obtain ⟨legs, hlegs, hcount, hlen, hts, hforwards⟩ := ih hrest
    refine ⟨_, .turn hforward hbackward hlegs, ?_, ?_, ?_, ?_⟩
    · rw [List.length_cons, List.length_cons, hcount]
    · rw [List.length_cons, List.length_cons, hlen]
      omega
    · refine List.forall_mem_cons.mpr ⟨List.mem_cons_self, fun t ht => ?_⟩
      exact List.mem_cons_of_mem _ (List.mem_cons_of_mem _ (hts t ht))
    · refine List.forall_mem_cons.mpr ⟨fun _ => List.mem_cons_self, List.forall_mem_cons.mpr
        ⟨nofun, fun leg hleg hd => List.mem_cons_of_mem _ (hforwards leg hleg hd)⟩⟩

/-! ## The sweep that is kept -/

/-- A search made the listed sweeps and kept a forward one of them, with least swaps; what it recorded
belongs to that sweep. -/
structure Kept (graph : RoutingGraph R) (device : Device R) (plan : SearchPlan R) (start : Placement)
    (legs : List (Leg R)) (leg : Leg R) (r : Routed R) : Prop where
  shuttles : Shuttles graph device plan start legs
  mem : leg ∈ legs
  forward : leg.direction = .forward
  least : ∀ other ∈ legs, other.direction = .forward → leg.trial.swaps ≤ other.trial.swaps
  initial : r.initial = leg.start.toLayout
  final : r.final = leg.trial.placement.toLayout
  output : r.dag.linearize = .ok leg.trial.output
  stats : r.stats = ⟨leg.trial.swaps, legs.length, leg.trial.forced⟩

variable {d : Dag R} {es : Dag.Entries R} {options : SearchOptions R} {fallback : Heuristic}

/-- The operations of a circuit act on its qubits. -/
theorem confined_of_ofDag (h : d.Reads es) (hg : RoutingGraph.ofDag d = .ok graph)
    (direction : Direction) : Sweep.Confined ⟨graph, device, plan, direction⟩ d.numQubits := by
  have hnum := RoutingGraph.numbers_of_ofDag h.holds hg
  intro k i hi
  obtain ⟨id, -, hid⟩ := Option.bind_eq_some_iff.mp ((hnum.instruction? k).symm.trans hi)
  exact (h.fits (h.mem_iff.mpr hid)).qubits

/-- Routing once more from the start of a forward sweep repeats it. -/
theorem fromLayout_toLayout (h : d.Reads es) (hb : device.Built)
    (hg : RoutingGraph.ofDag d = .ok graph) {start : Placement} {trial : Trial R} {sweeps : Nat}
    {r : Routed R} (hn : d.numQubits ≤ device.numQubits)
    (hp : start.IsPermutation device.numQubits) (hw : start.width = d.numQubits)
    (hrun : Sweep.run ⟨graph, device, options.resolve device fallback, .forward⟩ start = .ok trial)
    (hr : finish graph device start trial sweeps = .ok r) :
    fromLayout device options fallback d r.initial =
      .ok { r with stats := { r.stats with sweeps := 1 } } := by
  have hmade := madeOf_finish h hg hb hn hp hw hrun hr
  obtain ⟨-, hend⟩ := hmade.ends hb.wellFormed
  obtain ⟨q, hq, halike⟩ := Placement.exists_ofLayout_toLayout (R := R) hp (hw ▸ hn)
  rw [hw] at hq halike
  obtain ⟨placement, hagain, hlast⟩ :=
    Sweep.exists_run_of_alike (confined_of_ofDag h hg _) hb.wellFormed hn halike hrun
  refine Outcome.bind_eq_ok.mpr ⟨q, hmade.initial ▸ hq, Outcome.bind_eq_ok.mpr ⟨graph, hg,
    Outcome.bind_eq_ok.mpr ⟨_, hagain, ?_⟩⟩⟩
  obtain ⟨e, he, hr⟩ := Outcome.bind_eq_ok.mp hr
  obtain rfl := Except.ok.inj hr
  refine Outcome.bind_eq_ok.mpr ⟨e, he, ?_⟩
  rw [halike.toLayout_eq hw.le hn, hlast.toLayout_eq hend.le hn]
  rfl

/-- A search that succeeds under a heuristic that counts swaps keeps a best sweep, and what it records can be
had again by routing from the recorded layout. -/
theorem exists_kept (h : d.Reads es) (hb : device.Built)
    (hh : (options.resolve device fallback).heuristic ≠ .fidelity) {given : Option Layout}
    {r : Routed R} (hr : search device options fallback d given = .ok r) :
    ∃ layout start graph legs leg,
      firstLayout device (options.resolve device fallback) d given = .ok layout ∧
      (Placement.ofLayout layout d.numQubits device.numQubits : Compile R _) = .ok start ∧
      RoutingGraph.ofDag d = .ok graph ∧
      Kept graph device (options.resolve device fallback) start legs leg r ∧
      legs.length = 2 * rounds d (options.resolve device fallback) - 1 ∧
      fromLayout device options fallback d r.initial =
        .ok { r with stats := { r.stats with sweeps := 1 } } := by
  obtain ⟨layout, hlayout, hr⟩ := Outcome.bind_eq_ok.mp hr
  obtain ⟨start, hstart, hr⟩ := Outcome.bind_eq_ok.mp hr
  obtain ⟨graph, hg, hr⟩ := Outcome.bind_eq_ok.mp hr
  obtain ⟨⟨ts, sweeps⟩, hts, hr⟩ := Outcome.bind_eq_ok.mp hr
  obtain ⟨hn, hp, hw, -⟩ := Placement.of_ofLayout hstart
  obtain ⟨n, hrounds⟩ := Nat.exists_eq_add_one.mpr (rounds_pos d device options fallback)
  change trials graph device _ (rounds d _) start = .ok (ts, sweeps) at hts
  rw [hrounds] at hts ⊢
  obtain ⟨legs, hlegs, rfl, hlen, hts', hforwards⟩ := exists_shuttles hts
  dsimp only at hr
  split at hr
  · cases hr
  · rename_i best trial hbest
    obtain ⟨hbp, hbw, hrun⟩ := forall_trials h hg hb hn hp hts _ (mem_of_bestOf? hbest)
    have hbw := hbw.trans hw
    have hmade := madeOf_finish h hg hb hn hbp hbw hrun hr
    have hleast := le_of_bestOf? (fun t : Placement × Trial R => t.2.swaps)
      (fun a b => (Trial.better_swaps hh a.2 b.2).1) (fun a b => (Trial.better_swaps hh a.2 b.2).2)
      hbest
    refine ⟨layout, start, graph, legs, ⟨.forward, best, trial⟩, hlayout, hstart, hg,
      ⟨hlegs, hts' _ (mem_of_bestOf? hbest), rfl,
        fun other hmem hd => hleast _ (hforwards other hmem hd), hmade.initial, hmade.final,
        hmade.linearize_eq, ?_⟩,
      hlen, fromLayout_toLayout h hb hg hn hbp hbw hrun hr⟩
    obtain ⟨e, -, hr⟩ := Outcome.bind_eq_ok.mp hr
    obtain rfl := Except.ok.inj hr
    rfl

end Routing

/-! ## The pass -/

namespace Compilation

open Routing (Kept firstLayout rounds)

variable {R : Type} [Scalar R] {device : Device R} {c c' : Compilation R}

/-- The pass records what the search finds. -/
theorem run_searchLayout (hdevice : c.device = some device) (options : SearchOptions R)
    (fallback : Heuristic) : Pass.run (.searchLayout options fallback) c =
      (Routing.search device options fallback c.dag c.initial).map c.install := by
  rw [Pass.run, edited, edit_searchLayout hdevice]
  cases Routing.search device options fallback c.dag c.initial <;> rfl

/-- Gates on all pairs of three qubits. -/
def triangle : List (Instruction Float) :=
  [.ofStandard .cx [0, 2], .ofStandard .cx [0, 1], .ofStandard .cx [1, 2]]

/-- A row of three qubits, where one of these gates always has to wait for a swap. -/
def row : Device Float := .linear 3

end Compilation

end QuantumCompiler
