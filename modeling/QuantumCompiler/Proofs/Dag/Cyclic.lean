import QuantumCompiler.Proofs.Dag.Reads

/-!
# Operations that depend on themselves

An instruction that names a classical bit twice comes right after itself on the wire of that bit. The
order of a graph takes an operation when nothing that leads to it is left, so such an operation is
never taken, and from then on every reading of the graph fails. Appending and exchanging do not cut the
edge again.
-/
namespace QuantumCompiler.Dag

variable {R : Type}

/-! ## The order takes no such operation -/

section Order

variable {d : Dag R} {es : List (Nat × Nat)} {done ready : List Nat} {waiting : Array Nat}
  {need : Nat → Nat}

/-- Number of edges to an operation from operations that are not done. -/
def owed (es : List (Nat × Nat)) (done : List Nat) (v : Nat) : Nat :=
  es.countP fun e => e.2 == v && !done.contains e.1

theorem owed_eq_add {u : Nat} (hu : u ∉ done) (v : Nat) :
    owed es done v = owed es (u :: done) v + ((es.filter (·.1 == u)).map (·.2)).count v := by
  induction es with
  | nil => rfl
  | cons e es ih =>
    simp only [owed, List.countP_cons, List.filter_cons] at ih ⊢
    by_cases he : e.1 = u
    · by_cases hv : e.2 = v <;> simp [he, hu, hv] at ih ⊢ <;> omega
    · by_cases hv : e.2 = v <;> by_cases hd : e.1 ∈ done <;> simp [he, hv, hd] at ih ⊢ <;> omega

theorem perm_enqueue (d : Dag R) (id : Nat) (xs : List Nat) : (d.enqueue id xs).Perm (id :: xs) := by
  induction xs with
  | nil => exact .refl _
  | cons x xs ih =>
    rw [enqueue]
    split
    · exact .refl _
    · exact (ih.cons x).trans (.swap id x xs)

theorem perm_foldl_enqueue (d : Dag R) (ids xs : List Nat) :
    (ids.foldl (fun xs id => d.enqueue id xs) xs).Perm (ids ++ xs) := by
  induction ids generalizing xs with
  | nil => exact .refl _
  | cons id ids ih =>
    exact (ih _).trans (((perm_enqueue d id xs).append_left ids).trans List.perm_middle)

/-- The counters stand at what operations wait for, and those that are free or done wait for nothing.
No operation is free twice, or free and done. -/
structure Waits (d : Dag R) (need : Nat → Nat) (done : List Nat) (waiting : Array Nat)
    (ready : List Nat) : Prop where
  counts : ∀ v k, waiting[v]? = some k → k = need v
  nodup : (ready ++ done).Nodup
  met : ∀ v ∈ ready ++ done, need v = 0
  ops : ∀ v ∈ ready, (d.op? v).isSome

/-- Counting the targets of a finished operation down. -/
theorem Waits.release (ts : List Nat) (hts : ∀ v ∈ ts, (d.op? v).isSome)
    (h : Waits d (fun v => need v + ts.count v) done waiting ready) :
    let s := ts.foldl (fun (acc : Array Nat × List Nat) v =>
      let waiting := acc.1.modify v (· - 1)
      (waiting, if waiting[v]? = some 0 then d.enqueue v acc.2 else acc.2)) (waiting, ready)
    Waits d need done s.1 s.2 := by
  induction ts generalizing waiting ready with
  | nil => simpa using h
  | cons t ts ih =>
    refine ih (fun v hv => hts v (by simp [hv])) ?_
    have hcounts : ∀ v k, (waiting.modify t (· - 1))[v]? = some k → k = need v + ts.count v := by
      intro v k hk
      rw [Array.getElem?_modify] at hk
      by_cases he : t = v
      · obtain ⟨j, hj, rfl⟩ := Option.map_eq_some_iff.mp ((if_pos he).symm.trans hk)
        have hjv := h.counts v j hj
        simp only [he, List.count_cons_self] at hjv
        omega
      · simpa [he] using h.counts v k ((if_neg he).symm.trans hk)
    have hmet : ∀ v ∈ ready ++ done, v ≠ t ∧ need v + ts.count v = 0 := by
      intro v hv
      have hzero := h.met v hv
      by_cases he : t = v
      · simp [he] at hzero
      · exact ⟨Ne.symm he, by simpa [he] using hzero⟩
    by_cases hfree : (waiting.modify t (· - 1))[t]? = some 0
    · simp only [hfree, if_true]
      have hperm := perm_enqueue d t ready
      have hall := hperm.append_right done
      refine ⟨hcounts, hall.nodup_iff.mpr (List.nodup_cons.mpr ⟨?_, h.nodup⟩), ?_, ?_⟩
      · exact fun hm => (hmet t hm).1 rfl
      · intro v hv
        rcases List.mem_cons.mp (hall.mem_iff.mp hv) with rfl | hv
        · exact (hcounts v 0 hfree).symm
        · exact (hmet v hv).2
      · intro v hv
        rcases List.mem_cons.mp (hperm.mem_iff.mp hv) with rfl | hv
        · exact hts v (by simp)
        · exact h.ops v hv
    · simp only [hfree, if_false]
      exact ⟨hcounts, h.nodup, fun v hv => (hmet v hv).2, h.ops⟩

/-- Every edge ends at an operation of the graph. -/
def Anchored (d : Dag R) (es : List (Nat × Nat)) : Prop := ∀ e ∈ es, (d.op? e.2).isSome

/-- Operations are taken once, and none that an edge leads from to itself. -/
theorem Waits.drain (ha : d.Anchored es) (steps : Nat)
    (h : Waits d (owed es done) done waiting ready) :
    (d.drain (d.targets es) steps waiting ready ++ done).Nodup ∧
      ∀ v ∈ d.drain (d.targets es) steps waiting ready, (d.op? v).isSome ∧ (v, v) ∉ es := by
  induction steps generalizing done waiting ready with
  | zero => exact ⟨(List.nodup_append.mp h.nodup).2.1, by simp [Dag.drain]⟩
  | succ steps ih =>
    cases ready with
    | nil => exact ⟨h.nodup, by simp [Dag.drain]⟩
    | cons u ready =>
      have hu : u ∉ ready ++ done := (List.nodup_cons.mp h.nodup).1
      have hdone : u ∉ done := fun hm => hu (List.mem_append_right _ hm)
      have hop := h.ops u (by simp)
      have hloop : (u, u) ∉ es := by
        intro hm
        have hzero := List.countP_eq_zero.mp (h.met u (by simp)) (u, u) hm
        simp [hdone] at hzero
      set ts := ((es.filter (·.1 == u)).map (·.2)).reverse with hts
      have hperm : (ready ++ u :: done).Perm (u :: (ready ++ done)) := List.perm_middle
      have hnext : Waits d (fun v => owed es (u :: done) v + ts.count v) (u :: done) waiting
          ready := by
        have hneed (v : Nat) : owed es (u :: done) v + ts.count v = owed es done v := by
          rw [owed_eq_add hdone, hts, List.count_reverse]
        refine ⟨fun v k hk => ?_, hperm.nodup_iff.mpr h.nodup, fun v hv => ?_,
          fun v hv => h.ops v (by simp [hv])⟩
        · rw [hneed]
          exact h.counts v k hk
        · rw [hneed]
          exact h.met v (hperm.mem_iff.mp hv)
      have hrest := hnext.release ts fun v hv => by
        obtain ⟨e, he, rfl⟩ := List.mem_map.mp (List.mem_reverse.mp hv)
        exact ha e (List.mem_of_mem_filter he)
      obtain ⟨hn, hall⟩ := ih hrest
      rw [Dag.drain, getElem?_targets d es (lt_size_of_op? hop)]
      refine ⟨List.perm_middle.nodup_iff.mp hn, fun v hv => ?_⟩
      rcases List.mem_cons.mp hv with rfl | hv
      · exact ⟨hop, hloop⟩
      · exact hall v hv

/-- A graph with an operation that depends on itself has no order. -/
theorem topologicalNodes_of_loop (ha : d.Anchored d.edges) {id : Nat} (hop : (d.op? id).isSome)
    (hloop : (id, id) ∈ d.edges) : d.topologicalNodes = .error (.invalidStructure .cycle) := by
  have hcounts : ∀ v k, (d.indegrees d.edges)[v]? = some k → k = owed d.edges [] v := by
    intro v k hk
    rw [indegrees, foldl_modify_count, Array.getElem?_replicate] at hk
    split at hk
    · simpa [owed] using hk.symm
    · simp at hk
  have hperm := perm_foldl_enqueue d
    (d.nodes.filter fun v => (d.indegrees d.edges)[v]? = some 0) []
  rw [List.append_nil] at hperm
  have hw : Waits d (owed d.edges []) [] (d.indegrees d.edges)
      ((d.nodes.filter fun v => (d.indegrees d.edges)[v]? = some 0).foldl
        (fun xs v => d.enqueue v xs) []) := by
    refine ⟨hcounts, ?_, fun v hv => ?_, fun v hv => ?_⟩
    · rw [List.append_nil]
      exact hperm.nodup_iff.mpr ((nodup_nodes d).filter _)
    · rw [List.append_nil, hperm.mem_iff, List.mem_filter] at hv
      exact (hcounts v 0 (by simpa using hv.2)).symm
    · exact mem_nodes.mp (List.mem_of_mem_filter (hperm.mem_iff.mp hv))
  obtain ⟨hn, hall⟩ := hw.drain ha d.nodes.length
  change (d.reachableOrder ++ []).Nodup at hn
  change ∀ v ∈ d.reachableOrder, _ at hall
  rw [List.append_nil] at hn
  have hcons : (id :: d.reachableOrder).Nodup :=
    List.nodup_cons.mpr ⟨fun hm => (hall id hm).2 hloop, hn⟩
  have hsub : id :: d.reachableOrder ⊆ d.nodes := by
    intro v hv
    rcases List.mem_cons.mp hv with rfl | hv
    · exact mem_nodes.mpr hop
    · exact mem_nodes.mpr (hall v hv).1
  have hlt : d.reachableOrder.length < d.numOps := (hcons.subperm hsub).length_le
  rw [topologicalNodes, if_neg hlt.ne]

end Order

/-! ## Where such an operation comes from -/

section Loop

variable {d e : Dag R} {id : Nat}

/-- An edge leads from an operation to itself along a wire. -/
def Loops (d : Dag R) (id : Nat) : Prop := ∃ w, d.HasWire w ∧ ⟨.op id, .op id⟩ ∈ d.along w

/-- Tying a node in at the end of a wire. -/
structure Extended (id : Nat) (w : Wire) (d e : Dag R) : Prop where
  sameOps : SameOps d e
  hasWire : d.HasWire w
  here : ∃ prior, d.incoming? (.output w) w = some ⟨prior, .output w⟩ ∧
    e.along w = ⟨.op id, .output w⟩ :: ⟨prior, .op id⟩ :: (d.along w).erase ⟨prior, .output w⟩
  elsewhere : ∀ v, v ≠ w → e.along v = d.along v

theorem extended_of_edit {w : Wire} (h : d.edit (Edit.extend id w) = (.ok (), e)) :
    Extended id w d e := by
  rw [Edit.extend, edit_bind, edit_get] at h
  by_cases hw : (d.links.get? w).isNone
  · simp [hw] at h
  · have hhas : d.HasWire w := by simpa [HasWire, Option.isSome_iff_ne_none] using hw
    cases hi : d.incoming? (.output w) w with
    | none => simp [hw, hi] at h
    | some l =>
      have htarget : l.target = .output w := by simpa using List.find?_some hi
      obtain ⟨prior, target⟩ := l
      obtain rfl : target = .output w := htarget
      simp only [hw, hi, Bool.false_eq_true, if_false, edit_set, Prod.mk.injEq, true_and] at h
      subst h
      refine ⟨((SameOps.unlink d w _).trans (.link _ w _)).trans (.link _ w _), hhas,
        ⟨prior, hi, ?_⟩, fun v hv => ?_⟩
      · rw [along_link (by simpa using hhas), along_link (by simpa using hhas), along_unlink]
      · rw [along_link_of_ne _ hv.symm, along_link_of_ne _ hv.symm, along_unlink_of_ne _ hv.symm]

theorem Extended.mem_along {w v : Wire} (h : Extended id w d e) {l : Link} (hl : l ∈ d.along v)
    (ht : l.target ≠ .output v) : l ∈ e.along v := by
  by_cases hv : v = w
  · subst hv
    obtain ⟨prior, -, he⟩ := h.here
    rw [he]
    refine List.mem_cons_of_mem _ (List.mem_cons_of_mem _ ((List.mem_erase_of_ne ?_).mpr hl))
    rintro rfl
    exact ht rfl
  · rw [h.elsewhere v hv]
    exact hl

theorem Extended.loops {w : Wire} {x : Nat} (h : Extended id w d e) (hl : d.Loops x) :
    e.Loops x := by
  obtain ⟨v, hv, hm⟩ := hl
  exact ⟨v, (h.sameOps.hasWire v).mpr hv, h.mem_along hm (by simp)⟩

/-- No new edge ends at an operation other than the one tied in. -/
theorem Extended.anchored {w : Wire} (h : Extended id w d e) (hop : (d.op? id).isSome)
    (ha : d.Anchored d.edges) : e.Anchored e.edges := by
  intro x hx
  obtain ⟨v, hv, hl⟩ := mem_edges.mp hx
  rw [h.sameOps.op?]
  by_cases hvw : v = w
  · subst hvw
    obtain ⟨prior, -, he⟩ := h.here
    rw [he] at hl
    rcases List.mem_cons.mp hl with heq | hl
    · cases heq
    · rcases List.mem_cons.mp hl with heq | hl
      · obtain ⟨-, htarget⟩ := Link.mk.inj heq
        exact Node.op.inj htarget ▸ hop
      · exact ha x (mem_edges.mpr ⟨v, h.hasWire, List.mem_of_mem_erase hl⟩)
  · rw [h.elsewhere v hvw] at hl
    exact ha x (mem_edges.mpr ⟨v, (h.sameOps.hasWire v).mp hv, hl⟩)

/-- Tying a node in at the ends of several wires, one after another. -/
theorem forM_extend_cons {w : Wire} {ws : List Wire}
    (h : d.edit ((w :: ws).forM (Edit.extend id)) = (.ok (), e)) :
    ∃ f, Extended id w d f ∧ f.edit (ws.forM (Edit.extend id)) = (.ok (), e) := by
  change d.edit (Edit.extend id w >>= fun _ => ws.forM (Edit.extend id)) = _ at h
  rw [edit_bind] at h
  generalize hone : d.edit (Edit.extend id w) = r at h
  obtain ⟨x | x, f⟩ := r
  · cases h
  · exact ⟨f, extended_of_edit hone, h⟩

theorem keeps_of_forM_extend (ws : List Wire)
    (h : d.edit (ws.forM (Edit.extend id)) = (.ok (), e)) :
    SameOps d e ∧ (∀ x, d.Loops x → e.Loops x) ∧
      ((d.op? id).isSome → d.Anchored d.edges → e.Anchored e.edges) := by
  induction ws generalizing d with
  | nil =>
    obtain rfl := (Prod.mk.inj h).2
    exact ⟨.refl _, fun _ h => h, fun _ h => h⟩
  | cons w ws ih =>
    obtain ⟨f, hf, hrest⟩ := forM_extend_cons h
    obtain ⟨hs, hl, ha⟩ := ih hrest
    refine ⟨hf.sameOps.trans hs, fun x hx => hl x (hf.loops hx), fun hop hd => ?_⟩
    exact ha (by rwa [hf.sameOps.op?]) (hf.anchored hop hd)

/-- A node at the end of a wire that is tied in there again comes after itself. -/
theorem loops_of_mem {w : Wire} (ws : List Wire) (hmem : w ∈ ws)
    (hlast : d.incoming? (.output w) w = some ⟨.op id, .output w⟩)
    (h : d.edit (ws.forM (Edit.extend id)) = (.ok (), e)) : e.Loops id := by
  induction ws generalizing d with
  | nil => cases hmem
  | cons v ws ih =>
    obtain ⟨f, hf, hrest⟩ := forM_extend_cons h
    by_cases hv : w = v
    · subst hv
      obtain ⟨prior, hprior, he⟩ := hf.here
      obtain rfl : prior = .op id := (Link.mk.inj (Option.some.inj (hprior.symm.trans hlast))).1
      refine (keeps_of_forM_extend ws hrest).2.1 id ⟨w, (hf.sameOps.hasWire w).mpr hf.hasWire, ?_⟩
      rw [he]
      simp
    · refine ih ((List.mem_cons.mp hmem).resolve_left hv) ?_ hrest
      rw [incoming?, hf.elsewhere w hv]
      exact hlast

/-- A node that is tied in twice on a wire comes after itself. -/
theorem loops_of_not_nodup (ws : List Wire) (hn : ¬ ws.Nodup)
    (h : d.edit (ws.forM (Edit.extend id)) = (.ok (), e)) : e.Loops id := by
  induction ws generalizing d with
  | nil => exact absurd List.nodup_nil hn
  | cons w ws ih =>
    obtain ⟨f, hf, hrest⟩ := forM_extend_cons h
    by_cases hmem : w ∈ ws
    · refine loops_of_mem ws hmem ?_ hrest
      obtain ⟨prior, -, he⟩ := hf.here
      rw [incoming?, he]
      simp
    · exact ih (fun hnd => hn (List.nodup_cons.mpr ⟨hmem, hnd⟩)) hrest

end Loop

/-- A graph that cannot be read: some operation depends on itself. -/
structure Cyclic (d : Dag R) : Prop where
  anchored : d.Anchored d.edges
  loop : ∃ id, (d.op? id).isSome ∧ d.Loops id

section Cyclic

variable {d e : Dag R} {i : Instruction R}

theorem Cyclic.topologicalOps_eq (h : d.Cyclic) :
    d.topologicalOps = .error (.invalidStructure .cycle) := by
  obtain ⟨id, hop, hloop⟩ := h.loop
  rw [topologicalOps, topologicalNodes_of_loop h.anchored hop (mem_edges.mpr hloop)]
  rfl

/-- Appending to a graph without free slots. -/
theorem append_spec (hfree : d.free = []) (ha : d.Anchored d.edges) {new : Nat}
    (h : d.append i = .ok (new, e)) : e.free = [] ∧ e.Anchored e.edges ∧ (d.Cyclic → e.Cyclic) ∧
      (¬ i.wires.Nodup → e.Cyclic) := by
  rw [append, edited_eq_ok] at h
  cases hv : i.validate d.numQubits d.numClbits with
  | error x =>
    rw [append_refused hv] at h
    cases h
  | ok _ =>
    rw [edit_append hv] at h
    set d0 : Dag R := { d with appended := d.appended + 1 }
    set n : OpNode R := ⟨i, [d.appended]⟩
    have hop := op?_addNode (d := d0) (by simp [d0, hfree]) n
    have hfree' : (d0.addNode n).2.free = [] := by
      simp [addNode, d0, hfree]
    have hal (w : Wire) : (d0.addNode n).2.along w = d.along w := along_addNode d0 n w
    have hwire (w : Wire) : (d0.addNode n).2.HasWire w ↔ d.HasWire w := hasWire_addNode d0 n w
    generalize (d0.addNode n).1 = id at hop h
    generalize (d0.addNode n).2 = f at hop hfree' hal hwire h
    have hedit : f.edit (i.wires.forM (Edit.extend id)) = (.ok (), e) := by
      rw [edit_bind] at h
      generalize f.edit (i.wires.forM (Edit.extend id)) = r at h ⊢
      obtain ⟨x | x, e'⟩ := r
      · cases h
      · rw [(Prod.mk.inj h).2]
    have hgrow (x : Nat) (hx : (d.op? x).isSome) : (f.op? x).isSome := by
      rw [hop]
      split
      · rfl
      · exact hx
    have hnew : (f.op? id).isSome := by simp [hop]
    have hf : f.Anchored f.edges := by
      intro x hx
      obtain ⟨w, hw, hl⟩ := mem_edges.mp hx
      exact hgrow _ (ha x (mem_edges.mpr ⟨w, (hwire w).mp hw, hal w ▸ hl⟩))
    obtain ⟨hs, hl, hanch⟩ := keeps_of_forM_extend i.wires hedit
    refine ⟨hs.free.trans hfree', hanch hnew hf, fun hc => ⟨hanch hnew hf, ?_⟩,
      fun hn => ⟨hanch hnew hf, id, ?_, loops_of_not_nodup i.wires hn hedit⟩⟩
    · obtain ⟨x, hx, w, hw, hm⟩ := hc.loop
      exact ⟨x, by rw [hs.op?]; exact hgrow x hx,
        hl x ⟨w, (hwire w).mpr hw, (hal w).symm ▸ hm⟩⟩
    · rw [hs.op?]
      exact hnew

/-- An instruction that names a classical bit twice makes the graph unreadable, whatever comes
after it. -/
theorem cyclic_of_foldlM (is : List (Instruction R)) (hfree : d.free = [])
    (ha : d.Anchored d.edges) (h : is.foldlM (fun d i => (d.append i).map (·.2)) d = .ok e)
    (hc : d.Cyclic ∨ ∃ i ∈ is, ¬ i.clbits.Nodup) : e.Cyclic := by
  induction is generalizing d with
  | nil =>
    obtain rfl := Except.ok.inj h
    simpa using hc
  | cons i is ih =>
    rw [List.foldlM_cons, Outcome.bind_eq_ok] at h
    obtain ⟨f, hf, h⟩ := h
    obtain ⟨⟨new, f'⟩, hp, rfl⟩ := Outcome.map_eq_ok.mp hf
    obtain ⟨hfree', ha', hkeep, hloop⟩ := append_spec hfree ha hp
    refine ih hfree' ha' h ?_
    rcases hc with hc | ⟨j, hj, hn⟩
    · exact .inl (hkeep hc)
    · rcases List.mem_cons.mp hj with rfl | hj
      · refine .inl (hloop fun hw => hn ?_)
        rw [Instruction.wires, List.nodup_append] at hw
        exact hw.2.1.of_map _
      · exact .inr ⟨j, hj, hn⟩

theorem cyclic_of_ofInstructions [Scalar R] {n m : Nat} {is : List (Instruction R)}
    (h : ofInstructions n m is = .ok d) (hc : ∃ i ∈ is, ¬ i.clbits.Nodup) : d.Cyclic := by
  have ha : (Dag.empty n m : Dag R).Anchored (Dag.empty n m : Dag R).edges :=
    fun e he => nomatch ((represents_empty n m).forward e he).1
  exact cyclic_of_foldlM is rfl ha h (.inr hc)

/-- Exchanging an instruction leaves the edges as they are. -/
theorem Cyclic.replace (h : d.Cyclic) {id : Nat} (he : d.replace id i = .ok e) : e.Cyclic := by
  obtain ⟨⟨_, e'⟩, hedit, rfl⟩ := Outcome.map_eq_ok.mp he
  rw [edited_eq_ok] at hedit
  cases hv : i.validate d.numQubits d.numClbits with
  | error x =>
    rw [replace_refused hv] at hedit
    cases hedit
  | ok _ =>
    cases hop : d.op? id with
    | none =>
      rw [replace_invalid hv hop] at hedit
      cases hedit
    | some n =>
      by_cases hp : i.wires.Perm n.instruction.wires
      · rw [edit_replace hv hop hp] at hedit
        obtain rfl := (Prod.mk.inj hedit).2
        have hsome (x : Nat) (hx : (d.op? x).isSome) : ((d.exchange id i n).op? x).isSome := by
          rw [op?_exchange hop]
          split
          · rfl
          · exact hx
        obtain ⟨x, hx, hloop⟩ := h.loop
        exact ⟨fun y hy => hsome _ (h.anchored y hy), x, hsome x hx, hloop⟩
      · rw [replace_differ hv hop hp] at hedit
        cases hedit

end Cyclic

end QuantumCompiler.Dag
