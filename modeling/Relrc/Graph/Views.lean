import Relrc.Graph.Agreement
import Relrc.Model.Petgraph

/-!
# The edge views of a graph

A graph is a partial view of the DAG of all nodes; its edges are the incoming edges of stored
nodes whose source is stored too (`IsEdge`). Incoming edges are read from the child, outgoing
ones from the weak references in the parent, filtered through the registry; both views, and the
`petgraph` adaptors on top of them, list the same edges.

They do so for as long as parents and children record the same edges (`EdgesRecorded`), and only
then (`viewsAgree_iff`). Programs that put no copy of node data behind an `Rc` have no other graphs
(`views_agree_of_run`).
-/

namespace Relrc

open SlotStore Ancestry Fallible

variable {N E : Type} {A : AddrSource} {K : KeySource}

namespace HistoryGraph

/-- The edges of the induced graph: the target and the source of the incoming edge are stored. -/
def IsEdge (g : HistoryGraph) (w : World N E) (e : EdgeId) : Prop :=
  ∃ t d, g.getNode e.target = some t ∧ w.heap.incoming t e.index = some d ∧ g.Stores d.source

/-- Among the nodes of the graph, a parent lists in `outgoing` the edges that its children store in
`incoming`, each of them once. -/
structure EdgesRecorded (g : HistoryGraph) (w : World N E) : Prop where
  listed : ∀ p c index, g.Stores p → g.Stores c →
    ((⟨index, c⟩ : WeakEdge) ∈ w.heap.allOutgoingWeak p ↔
      ∃ d, w.heap.incoming c index = some d ∧ d.source = p)
  once : ∀ p, g.Stores p →
    (w.heap.allOutgoingWeak p).Pairwise fun a b => g.Stores a.target → a ≠ b

/-- Where no copy of node data has become a node, edges are recorded at both ends. -/
theorem edgesRecorded {w : World N E} {H : Multiset Ref} {G : Multiset RegRef} {g : HistoryGraph}
    (hi : Inv w H G) (hlive : ∀ r, g.Stores r → w.heap.Alive r) : g.EdgesRecorded w where
  listed p c index hp hc := by
    have hmem := hi.heap.mem_allOutgoing (hlive p hp) (e := ⟨index, c⟩)
    rw [Heap.mem_allOutgoing_fst] at hmem
    simpa only [hlive c hc, true_and] using hmem
  once p hp := by
    have hpairwise := Heap.edgesFrom_pairwise (h := w.heap) p
    rw [← hi.heap.outgoing p (Set.notMem_empty p) (hlive p hp), List.pairwise_filter] at hpairwise
    refine hpairwise.imp fun {a b} hab ha => ?_
    rintro rfl
    have halive := decide_eq_true (hlive a.target ha)
    rcases hab halive halive with hlt | ⟨-, hlt⟩ <;> exact Nat.lt_irrefl _ hlt

section Views

variable {w : World N E} {H : Multiset Ref} {G : Multiset RegRef} {X : Exempt} {g : HistoryGraph}
variable (hi : Inv w H G X) (hrec : g.EdgesRecorded w) (ha : g.Agrees w)
variable (hlive : ∀ r, g.Stores r → w.heap.Alive r)

include hi ha in
/-- An edge has data when both of its ends are in the graph. -/
theorem getEdge_eq_some_iff {e : EdgeId} {d : InnerEdgeData E} : g.getEdge w e = some d ↔
    ∃ t, g.getNode e.target = some t ∧ w.heap.incoming t e.index = some d ∧ g.Stores d.source := by
  rw [getEdge]
  cases ht : g.getNode e.target with
  | none => simp
  | some t =>
    simp only [Option.filter_eq_some_iff, Option.some.injEq, exists_eq_left']
    refine and_congr_right fun hd => ?_
    have hsource : w.heap.Alive d.source :=
      hi.heap.parent_alive (c := t) (List.mem_map_of_mem (List.mem_of_getElem? hd))
    exact ha.contains_iff hi hsource

include hi ha in
/-- `contains_edge` is being an edge. -/
theorem containsEdge_iff {e : EdgeId} : g.containsEdge w e = true ↔ g.IsEdge w e := by
  rw [containsEdge, Option.isSome_iff_exists]
  simp only [getEdge_eq_some_iff hi ha, IsEdge]
  exact exists_comm

include hi ha hlive in
/-- The source of an edge is the id of the parent. -/
theorem source_eq_some_iff {e : EdgeId} {u : NodeId} : g.source w e = some u ↔
    ∃ t d, g.getNode e.target = some t ∧ w.heap.incoming t e.index = some d ∧
      g.getNode u = some d.source := by
  rw [source]
  cases hd : g.getEdge w e with
  | none =>
    refine ⟨fun h => (by cases h), ?_⟩
    rintro ⟨t, d, ht, hin, hu⟩
    rw [(getEdge_eq_some_iff hi ha).mpr ⟨t, ht, hin, u, hu⟩] at hd
    cases hd
  | some d =>
    obtain ⟨t, ht, hin, hst⟩ := (getEdge_eq_some_iff hi ha).mp hd
    simp only
    rw [ha.getNodeId_eq_some_iff hi (hlive _ hst)]
    constructor
    · exact fun hu => ⟨t, d, ht, hin, hu⟩
    · rintro ⟨t', d', ht', hin', hu⟩
      obtain rfl := Option.some.inj (ht.symm.trans ht')
      obtain rfl := Option.some.inj (hin.symm.trans hin')
      exact hu

include hi ha hlive in
/-- Edges have a source. -/
theorem isEdge_iff_source {e : EdgeId} : g.IsEdge w e ↔ ∃ u, g.source w e = some u := by
  simp only [source_eq_some_iff hi ha hlive, IsEdge]
  constructor
  · rintro ⟨t, d, ht, hd, u, hu⟩
    exact ⟨u, t, d, ht, hd, hu⟩
  · rintro ⟨u, t, d, ht, hd, hu⟩
    exact ⟨t, d, ht, hd, u, hu⟩

include hi ha in
/-- The target of an edge is part of its id. -/
theorem target_eq_some_iff {e : EdgeId} {v : NodeId} :
    g.target w e = some v ↔ g.IsEdge w e ∧ e.target = v := by
  rw [target]
  split_ifs with hc
  · rw [Option.some.injEq]
    exact ⟨fun h => ⟨(containsEdge_iff hi ha).mp hc, h⟩, fun h => h.2⟩
  · exact ⟨fun h => (by cases h), fun h => absurd ((containsEdge_iff hi ha).mpr h.1) hc⟩

/-! Incoming edges. -/

include hi ha in
/-- Incoming edges are the edges with this target. -/
theorem mem_incomingEdges {e : EdgeId} {v : NodeId} :
    e ∈ g.incomingEdges w v ↔ g.IsEdge w e ∧ e.target = v := by
  rw [incomingEdges, List.mem_filter, containsEdge_iff hi ha, and_comm]
  refine and_congr_right fun he => ?_
  simp only [List.mem_map, List.mem_range]
  constructor
  · rintro ⟨i, -, rfl⟩
    rfl
  · rintro rfl
    obtain ⟨t, d, ht, hd, -⟩ := he
    refine ⟨e.index, ?_, rfl⟩
    rw [ht]
    exact (List.getElem?_eq_some_iff.mp hd).1

theorem incomingEdges_pairwise (g : HistoryGraph) (w : World N E) (v : NodeId) :
    (g.incomingEdges w v).Pairwise fun a b => a.index < b.index := by
  have hmap : ∀ n, ((List.range n).map fun index => (⟨v, index⟩ : EdgeId)).Pairwise
      fun a b => a.index < b.index := fun n => List.pairwise_map.mpr List.pairwise_lt_range
  exact (hmap _).filter _

theorem incomingEdges_nodup (g : HistoryGraph) (w : World N E) (v : NodeId) :
    (g.incomingEdges w v).Nodup :=
  (g.incomingEdges_pairwise w v).imp fun hlt heq => by simp [heq] at hlt

/-! Outgoing edges. -/

/-- An edge is listed as outgoing if the parent lists it and the graph has its target. -/
theorem mem_outgoingEdges_iff_listed {e : EdgeId} {u : NodeId} : e ∈ g.outgoingEdges w u ↔
    ∃ p t, g.getNode u = some p ∧ w.heap.Alive t ∧ g.getNodeId w t = some e.target ∧
      (⟨e.index, t⟩ : WeakEdge) ∈ w.heap.allOutgoingWeak p := by
  rw [outgoingEdges]
  cases hu : g.getNode u with
  | none => simp
  | some p =>
    simp only [List.mem_filterMap, Option.map_eq_some_iff, Option.some.injEq]
    constructor
    · rintro ⟨x, hx, tid, htid, rfl⟩
      obtain ⟨halive, hlisted⟩ := Heap.mem_allOutgoing_fst.mp hx
      exact ⟨p, x.target, rfl, halive, htid, hlisted⟩
    · rintro ⟨p', t, rfl, halive, htid, hlisted⟩
      exact ⟨⟨e.index, t⟩, Heap.mem_allOutgoing_fst.mpr ⟨halive, hlisted⟩, e.target, htid, rfl⟩

include hi ha hlive in
/-- What `outgoing_edges` lists twice, the parent lists twice. -/
theorem outgoingEdges_nodup_iff {u : NodeId} {p : Ref} (hu : g.getNode u = some p) :
    (g.outgoingEdges w u).Nodup ↔
      (w.heap.allOutgoingWeak p).Pairwise fun a b => g.Stores a.target → a ≠ b := by
  have hlisted : (w.allOutgoing p).1 = ((w.heap.allOutgoingWeak p).filter
      fun e => w.heap.Alive e.target).map WeakEdge.toEdge := filterMap_upgradeEdge w.heap _
  rw [outgoingEdges, hu]
  simp only
  rw [List.Nodup, List.pairwise_filterMap, hlisted, List.pairwise_map, List.pairwise_filter]
  -- the ids of two targets tell the targets apart
  refine ⟨fun h => h.imp fun {a b} hab hst => ?_, fun h => h.imp fun {a b} hab hla hlb => ?_⟩
  · rintro rfl
    have halive := hlive a.target hst
    obtain ⟨id, hid⟩ := hst
    have hget := (ha.getNodeId_eq_some_iff hi halive).mpr hid
    refine hab (decide_eq_true halive) (decide_eq_true halive) ⟨id, a.index⟩ ?_ ⟨id, a.index⟩ ?_ rfl
      <;> exact Option.map_eq_some_iff.mpr ⟨id, hget, rfl⟩
  · rintro e he f hf rfl
    obtain ⟨i, hia, rfl⟩ := Option.map_eq_some_iff.mp he
    obtain ⟨j, hjb, hje⟩ := Option.map_eq_some_iff.mp hf
    obtain ⟨rfl, hindex⟩ : j = i ∧ b.index = a.index := by simpa [WeakEdge.toEdge] using hje
    have hta := (ha.getNodeId_eq_some_iff hi (of_decide_eq_true hla)).mp hia
    have htb := (ha.getNodeId_eq_some_iff hi (of_decide_eq_true hlb)).mp hjb
    have htarget : a.target = b.target := Option.some.inj (hta.symm.trans htb)
    refine hab ⟨j, hta⟩ ?_
    cases a
    cases b
    exact congrArg₂ WeakEdge.mk hindex.symm htarget

include hi hrec ha hlive in
/-- Outgoing edges are the edges with this source. -/
theorem mem_outgoingEdges {e : EdgeId} {u : NodeId} :
    e ∈ g.outgoingEdges w u ↔ g.source w e = some u := by
  rw [mem_outgoingEdges_iff_listed, source_eq_some_iff hi ha hlive]
  constructor
  · rintro ⟨p, t, hu, halive, htid, hlisted⟩
    have ht := (ha.getNodeId_eq_some_iff hi halive).mp htid
    obtain ⟨d, hd, rfl⟩ := (hrec.listed p t e.index ⟨u, hu⟩ ⟨e.target, ht⟩).mp hlisted
    exact ⟨t, d, ht, hd, hu⟩
  · rintro ⟨t, d, ht, hd, hu⟩
    have halive : w.heap.Alive t := hlive t ⟨e.target, ht⟩
    exact ⟨d.source, t, hu, halive, (ha.getNodeId_eq_some_iff hi halive).mpr ht,
      (hrec.listed _ t e.index ⟨u, hu⟩ ⟨e.target, ht⟩).mpr ⟨d, hd, rfl⟩⟩

include hi hrec ha hlive in
theorem outgoingEdges_nodup (u : NodeId) : (g.outgoingEdges w u).Nodup := by
  cases hu : g.getNode u with
  | none =>
    rw [outgoingEdges, hu]
    exact List.nodup_nil
  | some p => exact (outgoingEdges_nodup_iff hi ha hlive hu).mpr (hrec.once p ⟨u, hu⟩)

/-! Both at once. -/

include hi hrec ha hlive in
/-- The children are the targets of the outgoing edges. -/
theorem children_eq (u : NodeId) :
    g.children w u = (g.outgoingEdges w u).map EdgeId.target := by
  rw [children, ← List.filterMap_eq_map]
  refine List.filterMap_congr fun e he => ?_
  have hedge := (isEdge_iff_source hi ha hlive).mpr ⟨u, (mem_outgoingEdges hi hrec ha hlive).mp he⟩
  exact (target_eq_some_iff hi ha).mpr ⟨hedge, rfl⟩

include hi hrec ha hlive in
/-- A parent and a child see each other equally often. -/
theorem count_parents (u v : NodeId) : (g.parents w v).count u = (g.children w u).count v := by
  rw [parents, children, List.count_filterMap, List.count_filterMap, List.countP_eq_length_filter,
    List.countP_eq_length_filter]
  refine List.Perm.length_eq ?_
  rw [List.perm_ext_iff_of_nodup ((g.incomingEdges_nodup w v).filter _)
    ((outgoingEdges_nodup hi hrec ha hlive u).filter _)]
  intro e
  rw [List.mem_filter, List.mem_filter, mem_incomingEdges hi ha, mem_outgoingEdges hi hrec ha hlive,
    beq_iff_eq, beq_iff_eq, target_eq_some_iff hi ha]
  exact and_comm

include hi ha in
/-- The references to edges are all the edges. -/
theorem mem_edgeReferences {e : EdgeId} : e ∈ g.edgeReferences w ↔ g.IsEdge w e := by
  simp only [edgeReferences, List.mem_flatMap, mem_incomingEdges hi ha]
  constructor
  · rintro ⟨v, -, he, -⟩
    exact he
  · intro he
    obtain ⟨t, -, ht, -⟩ := id he
    exact ⟨e.target, Slots.mem_keys.mpr ⟨t, ht⟩, he, rfl⟩

include hi ha in
theorem edgeReferences_nodup : (g.edgeReferences w).Nodup := by
  refine List.nodup_flatMap.mpr ⟨fun v _ => g.incomingEdges_nodup w v, ?_⟩
  refine g.nodes.keys_nodup.imp fun {u v} huv e he he' => huv ?_
  rw [← ((mem_incomingEdges hi ha).mp he).2, ((mem_incomingEdges hi ha).mp he').2]

include hi hrec ha hlive in
/-- An edge goes out of one node only. -/
theorem edges_flatMap_nodup : (g.allNodeIds.flatMap (g.edges w)).Nodup := by
  refine List.nodup_flatMap.mpr ⟨fun u _ => outgoingEdges_nodup hi hrec ha hlive u, ?_⟩
  refine g.nodes.keys_nodup.imp fun {u v} huv e he he' => huv ?_
  have hu := (mem_outgoingEdges hi hrec ha hlive).mp he
  rw [(mem_outgoingEdges hi hrec ha hlive).mp he'] at hu
  exact (Option.some.inj hu).symm

include hi hrec ha hlive in
/-- All edges are the edges out of all nodes. -/
theorem edgeReferences_perm : (g.edgeReferences w).Perm (g.allNodeIds.flatMap (g.edges w)) := by
  rw [List.perm_ext_iff_of_nodup (edgeReferences_nodup hi ha)
    (edges_flatMap_nodup hi hrec ha hlive)]
  intro e
  rw [mem_edgeReferences hi ha, isEdge_iff_source hi ha hlive, List.mem_flatMap]
  refine exists_congr fun u => ?_
  rw [edges, mem_outgoingEdges hi hrec ha hlive]
  refine ⟨fun hu => ⟨?_, hu⟩, fun hu => hu.2⟩
  obtain ⟨t, d, -, -, hd⟩ := (source_eq_some_iff hi ha hlive).mp hu
  exact Slots.mem_keys.mpr ⟨_, hd⟩

end Views

/-- All views describe the multigraph of `IsEdge`, and no accessor of an edge panics. -/
structure ViewsAgree (w : World N E) (g : HistoryGraph) : Prop where
  containsEdge : ∀ e, g.containsEdge w e = true ↔ g.IsEdge w e
  incoming_mem : ∀ v e, e ∈ g.incomingEdges w v ↔ g.IsEdge w e ∧ e.target = v
  incoming_order : ∀ v, (g.incomingEdges w v).Pairwise fun a b => a.index < b.index
  outgoing_mem : ∀ u e, e ∈ g.outgoingEdges w u ↔ g.IsEdge w e ∧ g.source w e = some u
  outgoing_nodup : ∀ u, (g.outgoingEdges w u).Nodup
  parents_eq : ∀ v, (g.parents w v).map some = (g.incomingEdges w v).map (g.source w)
  children_eq : ∀ u, g.children w u = (g.outgoingEdges w u).map EdgeId.target
  count_eq : ∀ u v, (g.parents w v).count u = (g.children w u).count v
  references_mem : ∀ e, e ∈ g.edgeReferences w ↔ g.IsEdge w e
  references_nodup : (g.edgeReferences w).Nodup
  references_perm : (g.edgeReferences w).Perm (g.allNodeIds.flatMap (g.edges w))
  directed : ∀ u v e, e ∈ g.edgesDirected w u .outgoing ∧ e.target = v ↔
    e ∈ g.edgesDirected w v .incoming ∧ g.source w e = some u
  neighbors_outgoing : ∀ n, g.neighborsDirected w n .outgoing =
    (g.edgesDirected w n .outgoing).map (g.edgeRefTarget w)
  neighbors_incoming : ∀ n, g.neighborsDirected w n .incoming =
    (g.edgesDirected w n .incoming).map (g.edgeRefSource w)
  neighbors_some : ∀ n dir, ∀ x ∈ g.neighborsDirected w n dir, x.isSome
  accessors : ∀ e, g.IsEdge w e → (g.edgeRefSource w e).isSome ∧
    g.edgeRefTarget w e = some e.target ∧ (g.edgeRefWeight w e).isSome

/-- **All views are of one multigraph.** -/
theorem viewsAgree {w : World N E} {H : Multiset Ref} {G : Multiset RegRef} {g : HistoryGraph}
    {X : Exempt} (hi : Inv w H G X) (hrec : g.EdgesRecorded w) (ha : g.Agrees w)
    (hlive : ∀ r, g.Stores r → w.heap.Alive r) : ViewsAgree w g := by
  have hsource : ∀ e, g.IsEdge w e → ∃ u, g.source w e = some u :=
    fun e => (isEdge_iff_source hi ha hlive).mp
  have hedge : ∀ u e, e ∈ g.outgoingEdges w u → g.IsEdge w e := fun u e he =>
    (isEdge_iff_source hi ha hlive).mpr ⟨u, (mem_outgoingEdges hi hrec ha hlive).mp he⟩
  have hneighbors : ∀ n, g.neighborsDirected w n .outgoing =
      (g.edgesDirected w n .outgoing).map (g.edgeRefTarget w) := fun n =>
    List.map_congr_left fun e he => ((target_eq_some_iff hi ha).mpr ⟨hedge n e he, rfl⟩).symm
  refine
    { containsEdge := fun e => containsEdge_iff hi ha
      incoming_mem := fun v e => mem_incomingEdges hi ha
      incoming_order := g.incomingEdges_pairwise w
      outgoing_mem := fun u e => ?_
      outgoing_nodup := outgoingEdges_nodup hi hrec ha hlive
      parents_eq := fun v => ?_
      children_eq := HistoryGraph.children_eq hi hrec ha hlive
      count_eq := count_parents hi hrec ha hlive
      references_mem := fun e => mem_edgeReferences hi ha
      references_nodup := edgeReferences_nodup hi ha
      references_perm := edgeReferences_perm hi hrec ha hlive
      directed := fun u v e => ?_
      neighbors_outgoing := hneighbors
      neighbors_incoming := fun _ => rfl
      neighbors_some := fun n dir x hx => ?_
      accessors := fun e he => ?_ }
  · rw [mem_outgoingEdges hi hrec ha hlive]
    exact ⟨fun h => ⟨(isEdge_iff_source hi ha hlive).mpr ⟨u, h⟩, h⟩, fun h => h.2⟩
  · rw [parents, List.map_filterMap]
    rw [← List.filterMap_eq_map]
    refine List.filterMap_congr fun e he => ?_
    obtain ⟨u, hu⟩ := hsource e ((mem_incomingEdges hi ha).mp he).1
    simp [hu]
  · rw [edgesDirected, edgesDirected, mem_outgoingEdges hi hrec ha hlive, mem_incomingEdges hi ha]
    constructor
    · exact fun h => ⟨⟨(isEdge_iff_source hi ha hlive).mpr ⟨u, h.1⟩, h.2⟩, h.1⟩
    · exact fun h => ⟨h.2, h.1.2⟩
  · cases dir with
    | outgoing =>
      obtain ⟨e, -, rfl⟩ := List.mem_map.mp hx
      rfl
    | incoming =>
      obtain ⟨e, he, rfl⟩ := List.mem_map.mp hx
      exact Option.isSome_iff_exists.mpr (hsource e ((mem_incomingEdges hi ha).mp he).1)
  · refine ⟨Option.isSome_iff_exists.mpr (hsource e he),
      (target_eq_some_iff hi ha).mpr ⟨he, rfl⟩, ?_⟩
    rw [edgeRefWeight, Option.isSome_map]
    exact (containsEdge_iff hi ha).mpr he

/-- **The views of a graph agree exactly when parents and children record the same edges.** -/
theorem viewsAgree_iff {w : World N E} {H : Multiset Ref} {G : Multiset RegRef} {g : HistoryGraph}
    {X : Exempt} (hi : Inv w H G X) (ha : g.Agrees w) (hlive : ∀ r, g.Stores r → w.heap.Alive r) :
    ViewsAgree w g ↔ g.EdgesRecorded w := by
  refine ⟨fun hv => ⟨fun p c index hp hc => ?_, fun p hp => ?_⟩,
    fun hrec => viewsAgree hi hrec ha hlive⟩
  · obtain ⟨u, hu⟩ := hp
    obtain ⟨v, hv'⟩ := hc
    have halive := hlive c ⟨v, hv'⟩
    have hid := (ha.getNodeId_eq_some_iff hi halive).mpr hv'
    have hmem := hv.outgoing_mem u ⟨v, index⟩
    rw [mem_outgoingEdges_iff_listed, source_eq_some_iff hi ha hlive] at hmem
    constructor
    · intro hlisted
      obtain ⟨-, t, d, ht, hd, hsource⟩ := hmem.mp ⟨p, c, hu, halive, hid, hlisted⟩
      obtain rfl := Option.some.inj (ht.symm.trans hv')
      exact ⟨d, hd, Option.some.inj (hsource.symm.trans hu)⟩
    · rintro ⟨d, hd, rfl⟩
      obtain ⟨p, t, hp, ht, htid, hlisted⟩ := hmem.mpr
        ⟨⟨c, d, hv', hd, u, hu⟩, c, d, hv', hd, hu⟩
      obtain rfl := Option.some.inj (hp.symm.trans hu)
      have hget := (ha.getNodeId_eq_some_iff hi ht).mp htid
      obtain rfl := Option.some.inj (hget.symm.trans hv')
      exact hlisted
  · obtain ⟨u, hu⟩ := hp
    exact (outgoingEdges_nodup_iff hi ha hlive hu).mp (hv.outgoing_nodup u)

end HistoryGraph

/-- **All edge views of every graph describe the same multigraph, in every run** in which
`Registry::remove` is left to the `Drop` hook. -/
theorem views_agree_of_run {s : State N E} (h : Run A K (Respects NoRemoval) State.init s) :
    ∀ i g, s.graph i = some g → g.ViewsAgree s.world := by
  intro i g hg
  have hi := Run.inv h State.inv_init
  have hlive : ∀ r, g.Stores r → s.world.heap.Alive r := fun r hr => hi.alive_of_stores hg hr
  exact HistoryGraph.viewsAgree hi (HistoryGraph.edgesRecorded hi hlive) (Run.agrees h i g hg) hlive

end Relrc
