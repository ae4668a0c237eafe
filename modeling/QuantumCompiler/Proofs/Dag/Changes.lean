import QuantumCompiler.Proofs.Dag.Splice
import QuantumCompiler.Proofs.Instruction

/-!
# Changes of a represented graph

When each change of a graph is accepted and what it does to the list the graph represents: appending
extends the list at its end, replacing an operation puts the new operations in its place, exchanging
its instruction leaves the nodes alone. A change that is refused leaves the graph as it was.
-/
namespace QuantumCompiler.Dag

variable {R : Type}

theorem hasWire_qubit {d : Dag R} {q : Qubit} : d.HasWire (.qubit q) ↔ q < d.numQubits := by
  simp [HasWire, PerWire.get?, numQubits]

theorem hasWire_clbit {d : Dag R} {c : Clbit} : d.HasWire (.clbit c) ↔ c < d.numClbits := by
  simp [HasWire, PerWire.get?, numClbits]

/-- An accepted instruction has distinct wires of the register, if it repeats no classical bit. -/
theorem wires_of_validate {d : Dag R} {i : Instruction R}
    (h : i.validate d.numQubits d.numClbits = .ok ()) (hc : i.clbits.Nodup) :
    i.wires.Nodup ∧ ∀ w ∈ i.wires, d.HasWire w := by
  have hf := Instruction.fits_of_validate h
  refine ⟨Instruction.nodup_wires hf.distinct hc, ?_⟩
  intro w hw
  rcases Instruction.mem_wires.mp hw with ⟨q, hq, rfl⟩ | ⟨c, hc, rfl⟩
  · exact hasWire_qubit.mpr (hf.qubits q hq)
  · exact hasWire_clbit.mpr (hf.clbits c hc)

/-- The graph after a change: a register as before, and the operations of some nodes untouched. -/
structure Keeps (d e : Dag R) (ids : List Nat) : Prop where
  op? : ∀ id ∈ ids, e.op? id = d.op? id
  hasWire : ∀ w, e.HasWire w ↔ d.HasWire w

theorem Keeps.instruction? {d e : Dag R} {ids : List Nat} (h : Keeps d e ids) {id : Nat}
    (hid : id ∈ ids) : e.instruction? id = d.instruction? id :=
  instruction?_congr (h.op? id hid)

theorem Keeps.numQubits {d e : Dag R} {ids : List Nat} (h : Keeps d e ids) :
    e.numQubits = d.numQubits := by
  apply eq_of_forall_lt_iff
  intro q
  rw [← hasWire_qubit, ← hasWire_qubit, h.hasWire]

theorem Keeps.numClbits {d e : Dag R} {ids : List Nat} (h : Keeps d e ids) :
    e.numClbits = d.numClbits := by
  apply eq_of_forall_lt_iff
  intro c
  rw [← hasWire_clbit, ← hasWire_clbit, h.hasWire]

/-! ## Appending -/

section Append

variable {d : Dag R} {ids : List Nat} {i : Instruction R}

theorem append_refused {e : CircuitError}
    (h : i.validate d.numQubits d.numClbits = .error e) :
    d.edit (.append i) = (.error e, d) := by
  simp [Edit.append, edit_bind, h]

/-- An accepted instruction takes a node and is tied in at the ends of its wires. -/
theorem edit_append (hv : i.validate d.numQubits d.numClbits = .ok ()) :
    d.edit (.append i) =
      (({ d with appended := d.appended + 1 } : Dag R).addNode ⟨i, [d.appended]⟩).2.edit
        (i.wires.forM (Edit.extend
          (({ d with appended := d.appended + 1 } : Dag R).addNode ⟨i, [d.appended]⟩).1) >>=
            fun _ => pure
              (({ d with appended := d.appended + 1 } : Dag R).addNode ⟨i, [d.appended]⟩).1) := by
  simp [Edit.append, edit_bind, hv]

/-- Taking the next number for an operation leaves the list alone. -/
theorem represents_count (h : Represents d ids) :
    Represents { d with appended := d.appended + 1 } ids := by
  refine ⟨⟨h.nodup, h.mem_iff, h.ordered, ?_, h.operands, h.free_nodup, h.free_empty⟩, h.threaded⟩
  intro id hid
  obtain ⟨k, rest, hp, hk⟩ := h.counted id hid
  exact ⟨k, rest, hp, Nat.lt_succ_of_lt hk⟩

/-- An accepted instruction goes behind everything. -/
theorem append_accepted (h : Represents d ids)
    (hv : i.validate d.numQubits d.numClbits = .ok ()) (hc : i.clbits.Nodup) :
    ∃ id e, d.edit (.append i) = (.ok id, e) ∧ Represents e (ids ++ [id]) ∧
      e.instruction? id = some i ∧ Keeps d e ids := by
  obtain ⟨hn, hw⟩ := wires_of_validate hv hc
  have h0 := represents_count h
  set d0 : Dag R := { d with appended := d.appended + 1 } with hd0
  set n : OpNode R := ⟨i, [d.appended]⟩ with hnode
  have hl := listed_addNode (d := d0) (a := ids) (b := []) (n := n) (by simpa using h0.toListed)
    (by
      intro x hx
      obtain ⟨k, rest, hp, hk⟩ := h.counted x hx
      have hp' : d0.position x = k :: rest := hp
      rw [hp']
      exact .roots rest [] hk)
    (by simp) ⟨d.appended, [], rfl, Nat.lt_succ_self _⟩ ⟨hn, hw⟩
  have hex := extends_addNode h0.toListed n
  have hop := op?_addNode h0.free_empty n
  have hal (w : Wire) : (d0.addNode n).2.along w = d.along w := along_addNode d0 n w
  have hwire (w : Wire) : (d0.addNode n).2.HasWire w ↔ d.HasWire w := hasWire_addNode d0 n w
  have hedit : d.edit (.append i) = (d0.addNode n).2.edit
      (i.wires.forM (Edit.extend (d0.addNode n).1) >>= fun _ => pure (d0.addNode n).1) :=
    edit_append hv
  generalize (d0.addNode n).1 = id at hl hop hedit
  generalize (d0.addNode n).2 = f at hl hop hex hal hwire hedit
  obtain ⟨e, he, hs, hin, hout⟩ := forM_extend id (fun w => (d.gapBetween ids [] w).before)
    i.wires f hn (fun w hm => (hwire w).mpr (hw w hm))
    (fun w hm => by
      rw [incoming?, hal]
      exact incoming?_output h (hw w hm))
  have hold : ∀ x ∈ ids, e.op? x = d.op? x := fun x hx => by
    rw [hs.op?, hex.op?_eq ((h0.mem_iff x).mp hx)]
    rfl
  have hnew : e.op? id = some n := by rw [hs.op?, hop, if_pos rfl]
  refine ⟨id, e, ?_, ?_, instruction?_of_op? hnew, ⟨hold, ?_⟩⟩
  · rw [hedit, edit_bind, he]
    rfl
  · apply represents_extend h (hs.listed (by simpa using hl)) hnew hold
    · intro w hm
      exact (hwire w).mp ((hs.hasWire w).mp hm)
    · intro w hm
      rw [hin w hm, hal]
    · intro w hm
      rw [hout w hm, hal]
  · intro w
    rw [hs.hasWire, hwire]

end Append

/-! ## Removing and replacing -/

section Replace

variable {d : Dag R} {a b : List Nat} {id : Nat} {n : OpNode R}

/-- Every gap that a node would leave is found. -/
theorem mapM_gap (h : Represents d (a ++ id :: b)) (hop : d.op? id = some n) :
    n.instruction.wires.mapM (d.gap id) = .ok (n.instruction.wires.map (d.gapBetween a b)) :=
  Outcome.mapM_eq_ok fun _ hw => gap_eq_ok h (instruction?_of_op? hop) hw

/-- The operations of a sequence go where the removed node was. -/
theorem represents_fill (h : Represents d (a ++ id :: b)) (hop : d.op? id = some n)
    (is : List (Instruction R))
    (hw : ∀ i ∈ is, i.wires.Nodup ∧ ∀ w ∈ i.wires, w ∈ n.instruction.wires) :
    ∃ new e gaps, fill n.position 0 is
        (d.removeNode id, n.instruction.wires.map (d.gapBetween a b)) = (new, e, gaps) ∧
      Represents (e.close gaps) (a ++ new ++ b) ∧
      new.map (e.close gaps).instruction? = is.map some ∧ Keeps d (e.close gaps) (a ++ b) := by
  have hl := listed_removeNode h.toListed
  have hop' := op?_removeNode_of_mem (d := d) h.nodup
  have hpos : ∀ x ∈ a ++ b, (d.removeNode id).position x = d.position x := fun x hx =>
    position_congr (hop' x hx)
  have hord := List.pairwise_append.mp h.ordered
  have hbefore : ∀ x ∈ a, Precedes (d.position x) n.position := fun x hx => by
    rw [← position_of_op? hop]
    exact hord.2.2 x hx id (by simp)
  have hafter : ∀ x ∈ b, Precedes n.position (d.position x) := fun x hx => by
    rw [← position_of_op? hop]
    exact (List.pairwise_cons.mp hord.2.1).1 x hx
  obtain ⟨k, rest, hk, hlt⟩ := h.counted id (by simp)
  rw [position_of_op? hop] at hk
  obtain ⟨new, e, gaps, hfill, hle, hte, hex, hnew⟩ := fill_spec n.position is 0 a
    (d.removeNode id) _ hl (torn_removeNode h (instruction?_of_op? hop))
    (fun x hx j _ => by
      rw [hpos x (by simp [hx])]
      exact (hbefore x hx).append_right [j])
    (fun x hx j => by
      rw [hpos x (by simp [hx])]
      exact (hafter x hx).append_left [j])
    ⟨k, rest, hk, hlt⟩
    (by
      rw [map_wire_gapBetween]
      exact hw)
  obtain ⟨hr, hs⟩ := represents_close hle hte
  refine ⟨new, e, gaps, hfill, hr, ?_, ?_, ?_⟩
  · rw [← hnew]
    exact List.map_congr_left fun x _ => instruction?_congr (hs.op? x)
  · intro x hx
    have hlive : ((d.removeNode id).op? x).isSome := (hl.mem_iff x).mp hx
    rw [hs.op?, hex.op?_eq hlive, hop' x hx]
  · intro w
    rw [hs.hasWire, hex.hasWire, hasWire_removeNode]

theorem remove_refused (h : d.op? id = none) :
    d.edit (.remove id) = (.error .invalidNode, d) := by
  simp [Edit.remove, edit_bind, h]

/-- Removing an operation takes it out of the list. -/
theorem remove_accepted (h : Represents d (a ++ id :: b)) (hop : d.op? id = some n) :
    ∃ e, d.edit (.remove id) = (.ok n.instruction, e) ∧ Represents e (a ++ b) ∧
      Keeps d e (a ++ b) := by
  obtain ⟨new, e, gaps, hfill, hr, hnew, hk⟩ := represents_fill h hop [] (by simp)
  simp only [fill, Prod.mk.injEq] at hfill
  obtain ⟨rfl, rfl, rfl⟩ := hfill
  refine ⟨_, ?_, by simpa using hr, hk⟩
  simp [Edit.remove, edit_bind, edit_map, hop, mapM_gap h hop, Except.map]

theorem substitute_tooMany {is : List (Instruction R)} (h : maxIndex < is.length) :
    d.edit (.substitute id is) = (.error (.invalidStructure (.tooManyParts is.length)), d) := by
  simp [Edit.substitute, edit_bind, h]

theorem substitute_invalid {is : List (Instruction R)} (h : is.length ≤ maxIndex)
    (hop : d.op? id = none) :
    d.edit (.substitute id is) = (.error .invalidNode, d) := by
  simp [Edit.substitute, edit_bind, hop, Nat.not_lt.mpr h]

theorem substitute_refused {is : List (Instruction R)} {x : CircuitError}
    (h : is.length ≤ maxIndex) (hop : d.op? id = some n)
    (hx : is.forM (d.checkReplacement n.instruction.wires) = .error x) :
    d.edit (.substitute id is) = (.error x, d) := by
  have hx' : forM is (d.checkReplacement n.instruction.wires) = .error x := hx
  simp [Edit.substitute, edit_bind, hop, hx', Nat.not_lt.mpr h]

theorem checkReplacement_eq_ok {ws : List Wire} {i : Instruction R} :
    d.checkReplacement ws i = .ok () ↔
      i.validate d.numQubits d.numClbits = .ok () ∧ ∀ w ∈ i.wires, w ∈ ws := by
  rw [checkReplacement, Outcome.bind_eq_ok]
  cases hf : i.wires.find? fun w => !ws.contains w with
  | some w =>
    have hw := List.find?_some hf
    have hm := List.mem_of_find?_eq_some hf
    constructor
    · rintro ⟨_, -, h⟩
      cases h
    · rintro ⟨-, h⟩
      simp [h w hm] at hw
  | none =>
    have hall : ∀ w ∈ i.wires, w ∈ ws := by simpa using hf
    constructor
    · rintro ⟨_, h, -⟩
      exact ⟨h, hall⟩
    · rintro ⟨h, -⟩
      exact ⟨(), h, rfl⟩

/-- A replacement goes into the list at the place of the operation, in order. -/
theorem substitute_accepted (h : Represents d (a ++ id :: b)) (hop : d.op? id = some n)
    {is : List (Instruction R)} (hlen : is.length ≤ maxIndex)
    (his : ∀ i ∈ is, i.validate d.numQubits d.numClbits = .ok () ∧
      ∀ w ∈ i.wires, w ∈ n.instruction.wires)
    (hc : ∀ i ∈ is, i.clbits.Nodup) :
    ∃ new e, d.edit (.substitute id is) = (.ok new, e) ∧ Represents e (a ++ new ++ b) ∧
      new.map e.instruction? = is.map some ∧ Keeps d e (a ++ b) := by
  obtain ⟨new, e, gaps, hfill, hr, hnew, hk⟩ := represents_fill h hop is
    (fun i hi => ⟨(wires_of_validate (his i hi).1 (hc i hi)).1, (his i hi).2⟩)
  have hchk : forM is (d.checkReplacement n.instruction.wires) = .ok () :=
    Outcome.forM_eq_ok.mpr fun i hi => checkReplacement_eq_ok.mpr (his i hi)
  refine ⟨new, e.close gaps, ?_, hr, hnew, hk⟩
  simp [Edit.substitute, edit_bind, edit_map, hop, hchk, mapM_gap h hop, hfill,
    Nat.not_lt.mpr hlen, Except.map]

end Replace

/-! ## Exchanging -/

section Exchange

variable {d : Dag R} {ids : List Nat} {id : Nat} {i : Instruction R} {n : OpNode R}

theorem replace_refused {e : CircuitError}
    (h : i.validate d.numQubits d.numClbits = .error e) :
    d.edit (.replace id i) = (.error e, d) := by
  simp [Edit.replace, edit_bind, h]

theorem replace_invalid (h : i.validate d.numQubits d.numClbits = .ok ())
    (hop : d.op? id = none) : d.edit (.replace id i) = (.error .invalidNode, d) := by
  simp [Edit.replace, edit_bind, h, hop]

theorem replace_differ (h : i.validate d.numQubits d.numClbits = .ok ())
    (hop : d.op? id = some n) (hp : ¬ i.wires.Perm n.instruction.wires) :
    d.edit (.replace id i) =
      (.error (.invalidStructure (.wiresDiffer i.name n.instruction.name)), d) := by
  simp [Edit.replace, edit_bind, h, hop, List.isPerm_iff, hp]

/-- The graph with another instruction at a node. -/
def exchange (d : Dag R) (id : Nat) (i : Instruction R) (n : OpNode R) : Dag R :=
  { d with slots := d.slots.setIfInBounds id (some { n with instruction := i }) }

theorem edit_replace (hv : i.validate d.numQubits d.numClbits = .ok ()) (hop : d.op? id = some n)
    (hp : i.wires.Perm n.instruction.wires) :
    d.edit (.replace id i) = (.ok (), d.exchange id i n) := by
  simp [Edit.replace, edit_bind, hv, hop, List.isPerm_iff, hp, exchange]

theorem op?_exchange (hop : d.op? id = some n) (x : Nat) :
    (d.exchange id i n).op? x = if x = id then some { n with instruction := i } else d.op? x := by
  have hs : id < d.slots.size := lt_size_of_op? (by rw [hop]; rfl)
  simp only [op?, exchange, Array.getElem?_setIfInBounds, hs, if_true]
  by_cases hx : x = id
  · simp [hx]
  · simp [hx, Ne.symm hx]

theorem instruction?_exchange (hop : d.op? id = some n) (x : Nat) :
    (d.exchange id i n).instruction? x = if x = id then some i else d.instruction? x := by
  rw [instruction?, op?_exchange hop]
  by_cases hx : x = id
  · simp [hx]
  · rw [if_neg hx, if_neg hx]
    rfl

theorem position_exchange (hop : d.op? id = some n) (x : Nat) :
    (d.exchange id i n).position x = d.position x := by
  by_cases hx : x = id
  · subst hx
    rw [position_of_op? hop, position, op?_exchange hop, if_pos rfl]
    rfl
  · exact position_congr (by rw [op?_exchange hop, if_neg hx])

/-- Over the same wires the exchanged instruction is met where the old one was. -/
theorem represents_exchange (h : Represents d ids) (hop : d.op? id = some n)
    (hn : i.wires.Nodup) (hp : i.wires.Perm n.instruction.wires) :
    Represents (d.exchange id i n) ids := by
  have htouch (w : Wire) (x : Nat) : (d.exchange id i n).touches w x = d.touches w x := by
    by_cases hx : x = id
    · subst hx
      rw [Bool.eq_iff_iff, touches_eq_true, touches_eq_true, instruction?_of_op? hop,
        instruction?_exchange hop, if_pos rfl]
      simp [hp.mem_iff]
    · rw [touches, touches, instruction?_exchange hop, if_neg hx]
  have hfilter (w : Wire) (xs : List Nat) :
      xs.filter ((d.exchange id i n).touches w) = xs.filter (d.touches w) :=
    List.filter_congr fun x _ => htouch w x
  refine ⟨⟨h.nodup, ?_, ?_, ?_, ?_, h.free_nodup, ?_⟩, ?_⟩
  · intro x
    rw [h.mem_iff, op?_exchange hop]
    by_cases hx : x = id
    · simp [hx, hop]
    · rw [if_neg hx]
  · simpa only [position_exchange hop] using h.ordered
  · intro x hx
    rw [position_exchange hop]
    exact h.counted x hx
  · intro x j hj
    rw [instruction?_exchange hop] at hj
    by_cases hx : x = id
    · subst hx
      rw [if_pos rfl] at hj
      obtain rfl := Option.some.inj hj
      refine ⟨hn, fun w hm => ?_⟩
      exact (h.operands x _ (instruction?_of_op? hop)).2 w (hp.mem_iff.mp hm)
    · rw [if_neg hx] at hj
      exact h.operands x j hj
  · intro x hx
    obtain ⟨hs, ho⟩ := h.free_empty x hx
    have hne : x ≠ id := by
      rintro rfl
      rw [hop] at ho
      cases ho
    rw [op?_exchange hop, if_neg hne]
    exact ⟨by simpa [exchange] using hs, ho⟩
  · intro w hw
    have ht := h.threaded w hw
    simp only [near, far, hfilter] at ht ⊢
    exact ht

/-- Exchanging the instruction of a node leaves the nodes of the list alone. -/
theorem replace_accepted (h : Represents d ids) (hop : d.op? id = some n)
    (hv : i.validate d.numQubits d.numClbits = .ok ()) (hc : i.clbits.Nodup)
    (hp : i.wires.Perm n.instruction.wires) :
    ∃ e, d.edit (.replace id i) = (.ok (), e) ∧ Represents e ids ∧
      e.instruction? id = some i ∧ ∀ others, id ∉ others → Keeps d e others := by
  refine ⟨d.exchange id i n, edit_replace hv hop hp,
    represents_exchange h hop (wires_of_validate hv hc).1 hp, ?_, ?_⟩
  · rw [instruction?_exchange hop, if_pos rfl]
  · intro others hnot
    refine ⟨fun x hx => ?_, fun _ => Iff.rfl⟩
    have hne : x ≠ id := fun he => hnot (he ▸ hx)
    rw [op?_exchange hop, if_neg hne]

end Exchange

end QuantumCompiler.Dag
