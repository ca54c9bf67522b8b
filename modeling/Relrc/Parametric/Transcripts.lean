import Relrc.Model.Answers
import Relrc.Parametric.Program

/-!
# What programs can tell of addresses and values

A program that is run with other values, over another allocator and in another memory, is told the
same: the transcripts differ in the mapped values only (`transcript_eq_of_image`). So nothing that
it can learn, `as_ptr` apart, depends on which addresses are free, on which were used before, or on
the values that the nodes and edges hold.
-/

namespace Relrc

open SlotStore Lockstep

variable {N E M F : Type} {φ : N → M} {ψ : E → F} {A B : AddrSource} {K : KeySource}

/-! ### Answers with other values -/

/-- Apply functions to the values in an answer. -/
def Answer.map (φ : N → M) (ψ : E → F) : Answer N E → Answer M F
  | .unit => .unit
  | .flag b => .flag b
  | .count n => .count n
  | .nodes rs => .nodes rs
  | .edges es => .edges es
  | .weakEdges es => .weakEdges es
  | .value v => .value (v.map φ)
  | .incoming es => .incoming (es.map (InnerEdgeData.map ψ))
  | .ids l => .ids l
  | .edgeIds l => .edgeIds l
  | .registry R => .registry R
  | .decoded R rs => .decoded R rs
  | .graph g => .graph g
  | .registryFile ser => .registryFile (ser.map φ ψ)
  | .graphFile ser => .graphFile (ser.map φ ψ)
  | .file ser => .file (ser.map φ ψ)

/-- Apply functions to the values that a call passes. -/
def ApiCall.map (φ : N → M) (ψ : E → F) : ApiCall N E → ApiCall M F
  | .op o => .op (o.map φ ψ)
  | .query q => .query q

/-- Apply functions to the values in the answer, if there is one. -/
def Outcome.map (φ : N → M) (ψ : E → F) : Outcome N E → Outcome M F
  | .returned a => .returned (a.map φ ψ)
  | .panicked p => .panicked p
  | .notEnabled => .notEnabled

section Calls

variable {s : State N E} {s' : State M F}

/-! ### One call -/

/-- **Operations return the same.** -/
theorem Op.answer_alike {op : Op N E} (hi : s.Inv) (hi' : s'.Inv) (h : State.Image φ ψ s s')
    (hen : op.Enabled s) :
    Alike (fun a b => b = a.map φ ψ) (op.answer A K s) ((op.map φ ψ).answer B K s') := by
  obtain ⟨w', hs, rs, gs⟩ := s'
  obtain ⟨hw, hhandles, hregs, hgraphs⟩ := h
  simp only at hw hhandles hregs hgraphs
  subst hhandles hregs hgraphs
  have ht : Twins φ ψ s.world w' s.held s.regs := ⟨hw, hi, hi'⟩
  have hgraph : (⟨w', s.handles, s.regHandles, s.graphs⟩ : State M F).graph = s.graph := rfl
  cases op with
  | new value | withParents value parents =>
    exact Alike.pure (congrArg (fun r => Answer.nodes [r]) hw.heap.size)
  | clone node | drop handle | downgrade node | dropWeak node | intoTarget e | cloneRegistry R
  | dropRegistry R | remove R id | graphDrop g => exact Alike.pure rfl
  | upgrade node => exact Alike.pure (by simp only [Answer.map, hw.heap.upgrade])
  | allOutgoing node => exact Alike.pure (by simp only [Answer.map, ht.allOutgoing_fst])
  | allChildren node =>
    exact Alike.pure (by simp only [Answer.map, World.allChildren, ht.allOutgoing_fst])
  | nOutgoing node =>
    exact Alike.pure (by simp only [Answer.map, World.nOutgoing, ht.allOutgoing_fst])
  | registryNew | registryFromIter nodes | registryClone R =>
    exact Alike.pure (by simp only [Answer.map, hw.nregs])
  | registryFromSerialized ser =>
    refine (ht.registryFromSerialized ser).bind fun _ _ hres => Alike.pure ?_
    rw [hres.1, hres.2.1]
    rfl
  | addNode R node =>
    exact Alike.pure (by simp only [Answer.map, (ht.addNode_registry R hen.2).1])
  | getIdOrInsert R node =>
    refine Alike.pure ?_
    simp only [Answer.map, Registry.getIdOrInsert_eq, (ht.addNode_registry R hen.2).1]
  | freeNodeIds R => exact Alike.pure (by simp only [Answer.map, (ht.freeNodeIds (hw.nodes R)).1])
  | tryRegisterIn node R =>
    exact Alike.pure (by simp only [Answer.map, (ht.tryRegisterIn hen.1 hen.2).1])
  | graphNew nodes R =>
    rw [State.held_of_le hen.1] at ht
    have hnew := ht.graphNew (K := K) (Multiset.mem_add.mpr (Or.inl hen.2))
    exact Alike.pure (congrArg Answer.graph hnew.graph)
  | graphFromNodes nodes =>
    rw [State.held_of_le hen] at ht
    exact Alike.pure (congrArg Answer.graph (ht.fromNodes (K := K)).graph)
  | graphClone g =>
    simp only [Op.map, answer, hgraph]
    cases s.graph g <;> exact Alike.pure rfl
  | insertNode g node =>
    obtain ⟨G, hg⟩ := Option.isSome_iff_exists.mp hen.1
    obtain ⟨-, R, -, hregs⟩ := State.exists_config hg
    obtain ⟨H, hheld⟩ := State.exists_held hg hen.2
    rw [hheld, hregs] at ht
    obtain ⟨hid, -⟩ := (GraphTwins.start ht).insertNode (K := K) (Multiset.mem_cons_self _ R)
    simp only [Op.map, answer, hgraph, hg]
    exact Alike.pure (congrArg (fun id => Answer.ids id.toList) hid)
  | insertAncestors g node =>
    obtain ⟨G, hg⟩ := Option.isSome_iff_exists.mp hen.1
    obtain ⟨-, R, -, hregs⟩ := State.exists_config hg
    obtain ⟨H, hheld⟩ := State.exists_held hg hen.2
    rw [hheld, hregs] at ht
    simp only [Op.map, answer, hgraph, hg]
    refine (ht.insertAncestors (K := K) (Multiset.mem_cons_self _ R)).bind fun _ _ hres => ?_
    exact Alike.pure (congrArg (fun id => Answer.ids [id]) hres.1)
  | outgoingEdges g u =>
    simp only [Op.map, answer, hgraph, ht.outgoingEdges]
    cases s.graph g <;> exact Alike.pure rfl
  | graphFromSerialized ser =>
    refine (ht.graphFromSerialized ser).bind fun _ _ hres => ?_
    exact Alike.pure (congrArg Answer.graph hres.1)
  | toSerialized node R =>
    refine (ht.toSerialized hen.1 hen.2).bind fun _ _ hres => ?_
    exact Alike.pure (congrArg Answer.file hres.1)
  | fromSerialized ser =>
    refine (ht.fromSerialized ser).bind fun _ _ hres => ?_
    exact Alike.pure (congrArg (fun r => Answer.nodes [r]) hres.1)

/-- The same queries can be made. -/
theorem State.Image.query_enabled_iff (h : State.Image φ ψ s s') (q : Query) :
    q.Enabled s' ↔ q.Enabled s := by
  have hgraph : s'.graph = s.graph := by
    funext g
    rw [State.graph, State.graph, h.graphs]
  cases q <;> simp only [Query.Enabled, h.world.heap.alive_iff, h.world.regAlive_iff, hgraph]

/-- **Queries return the same.** -/
theorem Query.answer_alike {q : Query} (hi : s.Inv) (hi' : s'.Inv) (h : State.Image φ ψ s s')
    (hen : q.Enabled s) : Alike (fun a b => b = a.map φ ψ) (q.answer K s) (q.answer K s') := by
  have ht := h.twins hi hi'
  have hw := h.world
  have hgraph : ∀ {g} {f : HistoryGraph → Except Panic (Answer N E)}
      {f' : HistoryGraph → Except Panic (Answer M F)},
      (∀ G, s.graph g = some G → Alike (fun a b => b = a.map φ ψ) (f G) (f' G)) →
      Alike (fun a b => b = a.map φ ψ) (onGraph s g f) (onGraph s' g f') := by
    intro g f f' hf
    have hsame : s'.graph g = s.graph g := by rw [State.graph, State.graph, h.graphs]
    rw [onGraph, onGraph, hsame]
    cases hg : s.graph g with
    | none => exact Alike.pure rfl
    | some G => exact hf G hg
  cases q with
  | value node => exact Alike.pure (by simp only [Answer.map, hw.heap.value])
  | allIncoming node => exact Alike.pure (by simp only [Answer.map, hw.heap.allIncoming])
  | allOutgoingWeak node => exact Alike.pure (by simp only [Answer.map, hw.heap.allOutgoingWeak])
  | allAncestors node => exact Alike.pure (by simp only [Answer.map, ht.allAncestors hen])
  | registry node =>
    exact Alike.pure (by simp only [Answer.map, World.registry, hw.heap.slot, hw.regAlive_iff])
  | getId R node => exact Alike.pure (by simp only [Answer.map, ht.getId_registry R (Or.inl hen.2)])
  | get R id => exact Alike.pure (by simp only [Answer.map, ht.get (hw.nodes R)])
  | len R => exact Alike.pure (by simp only [Answer.map, Registry.len, hw.nodes R])
  | registryToSerialized R =>
    refine (ht.registryToSerialized (ht.registryTwins R)).bind fun _ _ hser => ?_
    exact Alike.pure (congrArg Answer.registryFile hser)
  | contains g node =>
    exact hgraph fun G _ => Alike.pure (by simp only [Answer.map, ht.contains G (Or.inl hen.2)])
  | getNode g id => exact hgraph fun G _ => Alike.pure rfl
  | getEdge g e =>
    refine hgraph fun G _ => Alike.pure ?_
    simp only [Answer.map, ht.getEdge]
    cases G.getEdge s.world e <;> rfl
  | source g e => exact hgraph fun G _ => Alike.pure (by simp only [Answer.map, ht.source])
  | target g e => exact hgraph fun G _ => Alike.pure (by simp only [Answer.map, ht.target])
  | incomingEdges g v =>
    exact hgraph fun G _ => Alike.pure (by simp only [Answer.map, ht.incomingEdges])
  | parents g v => exact hgraph fun G _ => Alike.pure (by simp only [Answer.map, ht.parents])
  | graphToSerialized g =>
    refine hgraph fun G _ => (ht.graphToSerialized G).bind fun _ _ hser => ?_
    exact Alike.pure (congrArg Answer.graphFile hser)

/-- **Calls return the same**, and lead to states in step. -/
theorem ApiCall.run_alike {c : ApiCall N E} (hi : s.Inv) (hi' : s'.Inv) (h : State.Image φ ψ s s')
    (hen : c.Enabled s) :
    Alike (fun a b => b.1 = a.1.map φ ψ ∧ State.Image φ ψ a.2 b.2 ∧ a.2.Inv ∧ b.2.Inv)
      (c.run A K s) ((c.map φ ψ).run B K s') := by
  cases c with
  | op o =>
    have hen' := (h.enabled_iff o).mpr hen
    have hstep : Alike (fun t t' => State.Image φ ψ t t' ∧ t.Inv ∧ t'.Inv) (exec A K s o)
        (exec B K s' (o.map φ ψ)) :=
      (exec_alike hi hi' h hen).imp_of_ok fun t t' ht ht' himage =>
        ⟨himage, inv_of_exec hi hen ht, inv_of_exec hi' hen' ht'⟩
    refine hstep.bind fun t t' ht => (Op.answer_alike hi hi' h hen).bind fun a b hab => ?_
    exact Alike.pure ⟨hab, ht⟩
  | query q =>
    exact (Query.answer_alike hi hi' h hen).bind fun a b hab => Alike.pure ⟨hab, h, hi, hi'⟩

theorem State.Image.call_enabled_iff (h : State.Image φ ψ s s') (c : ApiCall N E) :
    (c.map φ ψ).Enabled s' ↔ c.Enabled s := by
  cases c with
  | op o => exact h.enabled_iff o
  | query q => exact h.query_enabled_iff q

end Calls

/-! ### Transcripts -/

/-- **Addresses and values do not matter.** A program that makes the same calls over another
allocator, in a memory that differs in addresses and values only and with the values in its calls
mapped alike, is told the same: the same answers but for the values, and the same panic in the same
place. -/
theorem transcript_eq_of_image {s : State N E} {s' : State M F} (hi : s.Inv) (hi' : s'.Inv)
    (h : State.Image φ ψ s s') (calls : List (ApiCall N E)) :
    transcript B K s' (calls.map (ApiCall.map φ ψ)) =
      (transcript A K s calls).map (Outcome.map φ ψ) := by
  induction calls generalizing s s' with
  | nil => rfl
  | cons c calls ih =>
    rw [List.map_cons, transcript, transcript]
    by_cases hen : c.Enabled s
    · rw [if_pos hen, if_pos ((h.call_enabled_iff c).mpr hen)]
      have hrun := ApiCall.run_alike (A := A) (B := B) (K := K) hi hi' h hen
      generalize c.run A K s = x at hrun
      generalize (c.map φ ψ).run B K s' = y at hrun
      cases hrun with
      | ok hres =>
        obtain ⟨hanswer, himage, hleft, hright⟩ := hres
        simp only [hanswer, ih hleft hright himage]
        rfl
      | error p => rfl
    · rw [if_neg hen, if_neg (mt (h.call_enabled_iff c).mp hen)]
      rfl

/-- Three nodes, the first of which is dropped before the last is made. -/
def recycledAddress : List (Op ℕ ℕ) := [.new 10, .new 20, .drop (.node 0), .new 30]

/-- The two allocators put the last node at different addresses, and a registry that is asked for it
does not show which. -/
theorem transcript_eq_of_image_recycledAddress :
    (execAll AddrSource.lowest KeySource.reusing State.init recycledAddress).map
      (fun s => s.world.heap.addr 2) = some 0 ∧
    (execAll AddrSource.above KeySource.reusing State.init recycledAddress).map
      (fun s => s.world.heap.addr 2) = some 3 ∧
    let calls := recycledAddress.map ApiCall.op ++
      [.op .registryNew, .op (.tryRegisterIn 2 0), .query (.getId 0 2), .query (.value 2)]
    transcript AddrSource.above KeySource.reusing State.init (calls.map (ApiCall.map (· + 1) id)) =
      (transcript AddrSource.lowest KeySource.reusing State.init calls).map
        (Outcome.map (· + 1) id) :=
  ⟨by decide, by decide, transcript_eq_of_image State.inv_init State.inv_init State.image_init _⟩

end Relrc
