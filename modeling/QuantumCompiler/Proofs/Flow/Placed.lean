import QuantumCompiler.Proofs.Flow.Measured

/-!
# Where the qubits are

A result says for every qubit that the circuit references where it sits before the first operation and
after the last one. Without routing it stays where it is. With routing the places go through a layout, a
placement of the whole device and back; they stay different throughout, and the last ones are what the
inserted swaps make of the first ones.
-/
namespace QuantumCompiler

variable {R : Type}

/-! ## The swaps of an output -/

namespace Sweep

variable {ops : List (Instruction R × Bool)} {n : Nat}

/-- The inserted swaps of an output are what moves the placement. -/
theorem exists_swaps (hm : Marked n ops) :
    ∃ pairs, (ops.filter Prod.snd).map Prod.fst = pairs.map swapGate ∧
      (∀ s ∈ pairs, s.1 < n ∧ s.2 < n) ∧ ∀ p : Placement, (replay p ops).2 = p.swaps pairs := by
  induction ops with
  | nil => exact ⟨[], rfl, by simp, fun _ => rfl⟩
  | cons o ops ih =>
    obtain ⟨pairs, heq, hlt, hreplay⟩ := ih hm.tail
    obtain ⟨i, inserted⟩ := o
    cases inserted with
    | false => exact ⟨pairs, heq, hlt, hreplay⟩
    | true =>
      obtain ⟨a, b, rfl, ha, hb⟩ := hm i (by simp)
      exact ⟨(a, b) :: pairs, congrArg _ heq, List.forall_mem_cons.mpr ⟨⟨ha, hb⟩, hlt⟩,
        fun p => hreplay (p.swap a b)⟩

end Sweep

namespace Compiler

open Sweep (swapGate replay)
open Placement (carry)

/-- Places are listed for the qubits that a circuit references, in ascending order. -/
structure Covers (circuit : Circuit R) (places : List (Qubit × Qubit)) : Prop where
  ascending : (places.map Prod.fst).Pairwise (· < ·)
  mem_iff : ∀ q, q ∈ places.map Prod.fst ↔ ∃ i ∈ circuit.instructions, q ∈ i.qubits

/-- The places are different qubits out of the first `n`. -/
structure Apart (n : Nat) (places : List (Qubit × Qubit)) : Prop where
  distinct : (places.map Prod.snd).Nodup
  lt : ∀ p ∈ places.map Prod.snd, p < n

section Places

variable {layout : Option Layout} {used : List Qubit} {n : Nat}

theorem map_fst_placesOf (layout : Option Layout) (used : List Qubit) :
    (placesOf layout used).map Prod.fst = used := by
  rw [placesOf, List.map_map]
  exact List.map_id used

theorem placesOf_none (used : List Qubit) : placesOf none used = used.map fun q => (q, q) := rfl

/-- A layout puts the first `k` qubits of a circuit where a placement of the first `n` qubits has them. -/
structure Shows (n k : Nat) (p : Placement) (layout : Option Layout) : Prop where
  isPermutation : p.IsPermutation n
  width : p.width = k
  eq : layout = some p.toLayout

theorem Shows.placesOf_eq {k : Nat} {p : Placement} (h : Shows n k p layout) (hk : k ≤ n)
    (hu : ∀ q ∈ used, q < k) : placesOf layout used = used.map fun q => (q, p.physical q) := by
  refine List.map_congr_left fun q hq => ?_
  rw [h.eq, Option.bind_some, Placement.physical?_toLayout h.isPermutation (h.width ▸ hk)
    (h.width ▸ hu q hq), Option.getD_some]

/-- A placement puts different qubits on different places of the device. -/
theorem Shows.apart {k : Nat} {p : Placement} (h : Shows n k p layout) (hk : k ≤ n)
    (hd : used.Nodup) (hu : ∀ q ∈ used, q < k) : Apart n (placesOf layout used) := by
  have hn : ∀ q ∈ used, q < n := fun q hq => (hu q hq).trans_le hk
  have hsnd : (placesOf layout used).map Prod.snd = used.map p.physical := by
    rw [h.placesOf_eq hk hu, List.map_map]
    rfl
  constructor
  · rw [hsnd]
    exact hd.map_on fun q hq r hr => h.isPermutation.physical_inj (hn q hq) (hn r hr)
  · intro x hx
    rw [hsnd] at hx
    obtain ⟨q, hq, rfl⟩ := List.mem_map.mp hx
    exact h.isPermutation.physical_lt q (hn q hq)

end Places

variable [Scalar R] {device : Device R} {o : CompileOptions R} {compiler : Compiler R}
  {circuit : Circuit R} {result : Compiled R} {d : Dag R} {es : Dag.Entries R}

theorem covers_placesOf (h : d.Reads es) (hes : es.map (·.2) = circuit.instructions)
    (layout : Option Layout) : Covers circuit (placesOf layout d.qubitsUsed) := by
  constructor
  · rw [map_fst_placesOf]
    exact List.pairwise_lt_range.filter _
  · intro q
    rw [map_fst_placesOf, h.mem_qubitsUsed, hes]

/-- How a preset above level 0 has routed a circuit: from a placement of the device, with marks at the
swaps that it inserted. What is left without them is the prepared circuit, every operation once and
behind all that it waits for. -/
def Inserts (device : Device R) (o : CompileOptions R) (circuit : Circuit R) (start : Placement)
    (ops : List (Instruction R × Bool)) : Prop :=
  ∃ (d e : Dag R) (c : Compilation R) (trial : Trial R) (inserted : List Bool) (order : List Nat),
    circuit.toDag = .ok d ∧
    Pass.runAll (Flow.preparation o) (.ofDag d (some device) none) =
      .ok (.ofDag e (some device) none) ∧
    Pass.run (.searchLayout o.search (.ofLevel (min o.level 3))) (.ofDag e (some device) none) =
      .ok c ∧
    c.dag.linearize = .ok (ops.map Prod.fst) ∧ ops = trial.output.zip inserted ∧
    Sweep.Routes e .forward device start trial inserted order

/-- A preset prepares a circuit and goes on with a graph that can be read. -/
theorem exists_prepared {c : Compilation R} (hd : circuit.toDag = .ok d)
    (hc : Pass.runAll (Flow.preset o) (.ofDag d (some device) none) = .ok c) :
    ∃ es e, d.Reads es ∧ es.map (·.2) = circuit.instructions ∧
      Pass.runAll (Flow.preparation o) (.ofDag d (some device) none) =
        .ok (.ofDag e (some device) none) ∧
      e.HasOnly Wide.Single ∧ e.numQubits = d.numQubits ∧
      Pass.runAll (Flow.rest o) (.ofDag e (some device) none) = .ok c := by
  rw [Flow.preset_eq, Pass.runAll_append] at hc
  obtain ⟨c₀, hprep, hrest⟩ := Outcome.bind_eq_ok.mp hc
  obtain ⟨es, hreads, hes⟩ := reads_of_preparation hd hprep
  obtain ⟨e, rfl, -, hsingle, hq⟩ := readout_preparation hreads hprep
  exact ⟨es, e, hreads, hes, hprep, hsingle, hq, hrest⟩

/-- A preset above level 0 goes from one placement of the device to another by the swaps it inserts. -/
theorem exists_inserts (hb : device.Built) (hlevel : 1 ≤ o.level) {c : Compilation R} {e : Dag R}
    (hd : circuit.toDag = .ok d)
    (hprep : Pass.runAll (Flow.preparation o) (.ofDag d (some device) none) =
      .ok (.ofDag e (some device) none)) (he : e.Reachable)
    (hrest : Pass.runAll (Flow.rest o) (.ofDag e (some device) none) = .ok c) :
    c.dag.Reachable ∧ e.numQubits ≤ device.numQubits ∧
    ∃ start last ops pairs, Inserts device o circuit start ops ∧
      (ops.filter Prod.snd).map Prod.fst = pairs.map swapGate ∧
      pairs.length = (c.routing.map RoutingStats.swaps).getD 0 ∧
      Shows device.numQubits e.numQubits start c.initial ∧
      Shows device.numQubits e.numQubits last c.final ∧
      ∀ q < device.numQubits, last.physical q = carry pairs (start.physical q) := by
  rw [Flow.rest, if_neg (by omega), Pass.runAll_of_shouldRun rfl] at hrest
  obtain ⟨c₁, hsearch, hfinish⟩ := Outcome.bind_eq_ok.mp hrest
  obtain ⟨es, hreads⟩ := he.exists_reads
  have hinstalled := installed_searchLayout hb hreads hsearch
  have hsettles := settles_finish hinstalled.reachable hfinish
  obtain ⟨c₀, r, start, trial, rfl, hmade⟩ := hinstalled
  obtain ⟨inserted, order, hroutes⟩ := hmade.routes
  obtain ⟨pairs, hpairs, hlt, hreplay⟩ := Sweep.exists_swaps (hroutes.marked hb.wellFormed)
  obtain ⟨hend, hwidth⟩ := hmade.ends hb.wellFormed
  have hfst : (trial.output.zip inserted).map Prod.fst = trial.output :=
    List.map_fst_zip hroutes.length.ge
  refine ⟨hsettles.reachable, hmade.fits, start, trial.placement, trial.output.zip inserted, pairs,
    ⟨d, e, _, trial, inserted, order, hd, hprep, hsearch, hfst.symm ▸ hmade.linearize_eq, rfl,
      hroutes⟩,
    hpairs, ?_, ⟨hmade.isPermutation, hmade.width, ?_⟩, ⟨hend, hwidth, ?_⟩, fun q hq => ?_⟩
  · have hlen := congrArg List.length hpairs
    rw [List.length_map, List.length_map, ← List.countP_eq_length_filter, ← hroutes.countP,
      ← hmade.swaps] at hlen
    rw [hsettles.routing, ← hlen]
    rfl
  · rw [hsettles.initial, ← hmade.initial]
    rfl
  · rw [hsettles.final, ← hmade.final]
    rfl
  · rw [hroutes.placement, hreplay, Placement.physical_swaps hmade.isPermutation hlt hq]

section Collect

variable {c : Compilation R} {e : Dag R}

theorem covers_of_collect (h : d.Reads es) (hes : es.map (·.2) = circuit.instructions)
    {name : String} (hr : collect device name d.qubitsUsed c = .ok result) :
    Covers circuit result.initial ∧ Covers circuit result.final := by
  obtain ⟨circuit', -, hr⟩ := Outcome.bind_eq_ok.mp hr
  obtain rfl := Except.ok.inj hr
  exact ⟨covers_placesOf h hes _, covers_placesOf h hes _⟩

/-- On level 0 nothing makes a layout. -/
theorem stays_of_zero (hlevel : o.level = 0) (he : e.Reachable)
    (hrest : Pass.runAll (Flow.rest o) (.ofDag e (some device) none) = .ok c) {name : String}
    {used : List Qubit} (hr : collect device name used c = .ok result) :
    (∀ x ∈ result.initial, x.2 = x.1) ∧ ∀ x ∈ result.final, x.2 = x.1 := by
  rw [Flow.rest, if_pos hlevel, Pass.runAll_singleton rfl] at hrest
  have hsettles := settles_lower he hrest
  obtain ⟨-, hinitial, hfinal, -⟩ := of_collect hsettles.reachable hr
  rw [hsettles.final, hsettles.initial] at hfinal
  rw [hinitial, hfinal, hsettles.initial]
  change (∀ x ∈ placesOf none _, _) ∧ ∀ x ∈ placesOf none _, _
  simp [placesOf_none]

end Collect

/-- Returned layouts are placements of the qubits that the circuit references. On level 0 they stay where
they are. Above it they sit on different qubits of the device, before and after, and the swaps that
routing inserted, as many as the result says, carry each from its first place to its last one. -/
theorem places_of_compile (hb : device.Built) (hc : ofOptions device o = .ok compiler)
    {cancelled : Bool} (h : compiler.compile circuit cancelled = .ok result) :
    (Covers circuit result.initial ∧ Covers circuit result.final) ∧
    (o.level = 0 → (∀ x ∈ result.initial, x.2 = x.1) ∧ ∀ x ∈ result.final, x.2 = x.1) ∧
    (1 ≤ o.level →
      (Apart device.numQubits result.initial ∧ Apart device.numQubits result.final) ∧
      ∃ start ops pairs, Inserts device o circuit start ops ∧
        (ops.filter Prod.snd).map Prod.fst = pairs.map swapGate ∧
        pairs.length = result.swaps ∧ (∀ x ∈ result.initial, x.2 = start.physical x.1) ∧
        result.final = result.initial.map fun x => (x.1, carry pairs x.2)) := by
  obtain rfl := ofOptions_eq_ok hc
  obtain ⟨d, c, hd, hrun, hcollect⟩ := run_of_compile h
  obtain ⟨es, e, hreads, hes, hprep, hsingle, hq, hrest⟩ := exists_prepared hd hrun
  refine ⟨covers_of_collect hreads hes hcollect,
    fun hzero => stays_of_zero hzero hsingle.reachable hrest hcollect, fun hpos => ?_⟩
  obtain ⟨hreachable, hfits, start, last, ops, pairs, hinserts, hops, hswaps, hstart, hlast,
    hcarry⟩ := exists_inserts hb hpos hd hprep hsingle.reachable hrest
  obtain ⟨-, hinitial, hfinal, hcount⟩ := of_collect hreachable hcollect
  have hused : ∀ q ∈ d.qubitsUsed, q < e.numQubits := fun q h =>
    hq ▸ (Dag.mem_qubitsUsed.mp h).1
  have hnodup : d.qubitsUsed.Nodup := List.nodup_range.filter _
  rw [hlast.eq, Option.some_or, ← hlast.eq] at hfinal
  refine ⟨⟨hinitial ▸ hstart.apart hfits hnodup hused, hfinal ▸ hlast.apart hfits hnodup hused⟩,
    start, ops, pairs, hinserts, hops, hswaps.trans hcount.symm, ?_, ?_⟩
  · rw [hinitial, hstart.placesOf_eq hfits hused]
    simp
  · rw [hinitial, hfinal, hstart.placesOf_eq hfits hused, hlast.placesOf_eq hfits hused,
      List.map_map]
    refine List.map_congr_left fun q hm => ?_
    rw [Function.comp_apply, hcarry q ((hused q hm).trans_le hfits)]

/-- A preset that comes to the check at its end with what the device executes gives a result. -/
theorem exists_compile_of_front (hlevel : 1 ≤ o.level) (hw : circuit.numQubits ≤ device.numQubits)
    (hd : circuit.toDag = .ok d) {c : Compilation R}
    (hc : Pass.runAll (Flow.front o) (.ofDag d (some device) none) = .ok c)
    (hhas : c.Has device device.Executes) :
    ∃ result, compile ⟨device, .preset o⟩ circuit false = .ok result := by
  obtain ⟨census, hcensus⟩ := exists_checkCouplings hhas
  obtain ⟨es, hreads⟩ := hhas.dag.reachable.exists_reads
  obtain ⟨result, hresult⟩ : ∃ result,
      collect device circuit.name d.qubitsUsed { c with census := some census } = .ok result :=
    exists_collect hreads
  have hflow : Flow.run (.preset o) false (.ofDag d (some device) none) =
      .ok { c with census := some census } := by
    rw [Flow.run_uncancelled, Flow.preset_of_pos hlevel, Pass.runAll_append, hc]
    exact (Pass.runAll_singleton rfl).trans hcensus
  exact ⟨result, (compile_eq hw hd hflow).trans hresult⟩

section Ends

attribute [local instance] Scalar.real

theorem places_ends : row.Built ∧ ∃ compiler result,
    ofOptions row (.ofLevel 1) = .ok compiler ∧ compiler.compile ends false = .ok result ∧
    Covers ends result.final ∧ Apart 3 result.final ∧
    ∃ pairs, pairs.length = result.swaps ∧
      result.final = result.initial.map fun x => (x.1, carry pairs x.2) := by
  obtain ⟨d, es, hd, hr, hes, hq⟩ := Circuit.exists_toDag (c := ends)
    (List.forall_mem_singleton.mpr rfl) (List.forall_mem_singleton.mpr List.nodup_nil)
  obtain ⟨c, hc, hhas⟩ := exists_front hr hq hes
  obtain ⟨result, hresult⟩ := exists_compile_of_front le_rfl le_rfl hd hc hhas
  have hb : row.Built := .withBasis (.linear 3) _
  obtain ⟨⟨-, hcovers⟩, -, hrouted⟩ := places_of_compile hb ofOptions_row hresult
  obtain ⟨⟨-, hapart⟩, -, -, pairs, -, -, hlen, -, hfinal⟩ := hrouted le_rfl
  exact ⟨hb, _, result, ofOptions_row, hresult, hcovers, hapart, pairs, hlen, hfinal⟩

end Ends

end Compiler

end QuantumCompiler
