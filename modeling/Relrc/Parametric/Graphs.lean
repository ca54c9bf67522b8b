import Relrc.Parametric.Nodes

/-!
# Graphs over twin memories

A history graph holds node identities and ids only, so in two memories that are in step it is the
same graph. Its functions return the same ids, hand over the same references and read the same
views; edge data is read with its value mapped.
-/

namespace Relrc

open SlotStore Ancestry Lockstep

variable {N E M F : Type} {φ : N → M} {ψ : E → F} {K : KeySource}

/-! ### Views -/

namespace Twins

variable {w : World N E} {w' : World M F} {H : Multiset Ref} {G : Multiset RegRef}
variable (ht : Twins φ ψ w w' H G) (g : HistoryGraph)

include ht

/-- A node has the same id, although it has another address. -/
theorem getNodeId {r : Ref} (hr : w.InUse r) : g.getNodeId w' r = g.getNodeId w r := by
  rw [HistoryGraph.getNodeId, HistoryGraph.getNodeId, ht.getId_registry g.registry hr]

theorem contains {r : Ref} (hr : w.InUse r) : g.contains w' r = g.contains w r := by
  rw [HistoryGraph.contains, HistoryGraph.contains, ht.getId_registry g.registry hr]

/-- The source of an incoming edge is in use. -/
theorem inUse_source {r : Ref} {i : ℕ} {d : InnerEdgeData E} (hd : w.heap.incoming r i = some d) :
    w.InUse d.source := by
  have hmem : d.source ∈ w.heap.allParents r := List.mem_map_of_mem (List.mem_of_getElem? hd)
  exact Or.inl (ht.left.heap.parent_alive hmem)

/-- An edge has the same ends, and its value is mapped. -/
theorem getEdge (e : EdgeId) : g.getEdge w' e = (g.getEdge w e).map (InnerEdgeData.map ψ) := by
  rw [HistoryGraph.getEdge, HistoryGraph.getEdge]
  cases g.getNode e.target with
  | none => rfl
  | some node =>
    simp only [ht.image.heap.incoming]
    cases hd : w.heap.incoming node e.index with
    | none => rfl
    | some d =>
      have hsource : g.contains w' (InnerEdgeData.map ψ d).source = g.contains w d.source :=
        ht.contains g (ht.inUse_source hd)
      simp only [Option.map_some, Option.filter_some, hsource]
      split_ifs <;> rfl

theorem containsEdge (e : EdgeId) : g.containsEdge w' e = g.containsEdge w e := by
  rw [HistoryGraph.containsEdge, HistoryGraph.containsEdge, ht.getEdge, Option.isSome_map]

theorem source (e : EdgeId) : g.source w' e = g.source w e := by
  rw [HistoryGraph.source, HistoryGraph.source, ht.getEdge]
  cases hd : g.getEdge w e with
  | none => rfl
  | some d =>
    rw [HistoryGraph.getEdge] at hd
    split at hd
    · exact ht.getNodeId g (ht.inUse_source (Option.filter_eq_some_iff.mp hd).1)
    · cases hd

theorem target (e : EdgeId) : g.target w' e = g.target w e := by
  rw [HistoryGraph.target, HistoryGraph.target, ht.containsEdge]

/-- The same outgoing edges, in the same order. -/
theorem outgoingEdges (u : NodeId) : g.outgoingEdges w' u = g.outgoingEdges w u := by
  rw [HistoryGraph.outgoingEdges, HistoryGraph.outgoingEdges]
  cases g.getNode u with
  | none => rfl
  | some node =>
    simp only [ht.allOutgoing_fst]
    refine List.filterMap_congr fun e he => ?_
    have halive : w.heap.Alive e.target := alive_of_mem_allOutgoing (h := w.heap) (r := node) he
    rw [ht.getNodeId g (Or.inl halive)]

/-- The same incoming edges, in the same order. -/
theorem incomingEdges (v : NodeId) : g.incomingEdges w' v = g.incomingEdges w v := by
  have hedge : g.containsEdge w' = g.containsEdge w := funext (ht.containsEdge g)
  simp only [HistoryGraph.incomingEdges, ht.image.heap.nIncoming, hedge]

theorem parents (v : NodeId) : g.parents w' v = g.parents w v := by
  rw [HistoryGraph.parents, HistoryGraph.parents, ht.incomingEdges, funext (ht.source g)]

end Twins

/-! ### Insertion -/

/-- Two graph functions have run in step: they return the same graph over the registry `R`, and the
nodes of `v` are unchanged where they are alive. -/
structure GraphTwins (φ : N → M) (ψ : E → F) (v : World N E) (R : RegRef)
    (a : World N E × HistoryGraph) (b : World M F × HistoryGraph) (H : Multiset Ref)
    (G : Multiset RegRef) : Prop where
  graph : b.2 = a.2
  registry : a.2.registry = R
  twins : Twins φ ψ a.1 b.1 (a.2.refs + H) G
  frame : Frame v a.1

namespace GraphTwins

variable {v : World N E} {R : RegRef} {a : World N E × HistoryGraph} {b : World M F × HistoryGraph}
variable {H : Multiset Ref} {G : Multiset RegRef} {r : Ref}

/-- Before anything has run. -/
theorem start {w : World N E} {w' : World M F} {g : HistoryGraph}
    (ht : Twins φ ψ w w' (g.refs + H) G) :
    GraphTwins φ ψ w g.registry (w, g) (w', g) H G := ⟨rfl, rfl, ht, Frame.refl w⟩

/-- The reference to the registry is the one the graph holds. -/
theorem twins_registry (h : GraphTwins φ ψ v R a b H (R ::ₘ G)) :
    Twins φ ψ a.1 b.1 (a.2.refs + H) (a.2.registry ::ₘ G) := by
  rw [h.registry]
  exact h.twins

/-- The memories of both have changed, and the graph has not. -/
theorem step (h : GraphTwins φ ψ v R a b H G) {w : World N E} {w' : World M F} {H' : Multiset Ref}
    (ht : Twins φ ψ w w' (a.2.refs + H') G) (hf : Frame a.1 w) :
    GraphTwins φ ψ v R (w, a.2) (w', b.2) H' G := ⟨h.graph, h.registry, ht, h.frame.trans hf⟩

theorem clone (h : GraphTwins φ ψ v R a b H G) (hr : a.1.heap.Alive r) :
    GraphTwins φ ψ v R (a.1.clone r, a.2) (b.1.clone r, b.2) (r ::ₘ H) G := by
  have hsteps : Steps AddrSource.lowest KeySource.reusing (fun _ => True) ⟨a.1, a.2.refs + H, G⟩
      ⟨a.1.clone r, r ::ₘ (a.2.refs + H), G⟩ := steps_clone hr
  refine h.step ?_ (Steps.frame hsteps h.twins.left)
  rw [Multiset.add_cons]
  exact h.twins.clone hr

theorem drop (h : GraphTwins φ ψ v R a b (r ::ₘ H) G) :
    GraphTwins φ ψ v R (a.1.drop r, a.2) (b.1.drop r, b.2) H G := by
  have ht := h.twins
  rw [Multiset.add_cons] at ht
  have hsteps : Steps AddrSource.lowest KeySource.reusing (fun _ => True)
      ⟨a.1, r ::ₘ (a.2.refs + H), G⟩ ⟨a.1.drop r, a.2.refs + H, G⟩ := steps_drop ht.left
  exact h.step ht.drop (Steps.frame hsteps ht.left)

/-- **`insert_node`** stores or drops the same reference and returns the same id. -/
theorem insertNode (h : GraphTwins φ ψ v R a b (r ::ₘ H) G) (hR : R ∈ G) :
    (b.2.insertNode K b.1 r).1 = (a.2.insertNode K a.1 r).1 ∧
      GraphTwins φ ψ v R (a.2.insertNode K a.1 r).2 (b.2.insertNode K b.1 r).2 H G := by
  obtain ⟨w, g⟩ := a
  obtain ⟨w', g'⟩ := b
  obtain ⟨hgraph, hregistry, ht, hframe⟩ := h
  simp only at hgraph hregistry ht hframe ⊢
  subst hgraph hregistry
  rw [Multiset.add_cons] at ht
  have halive : w.heap.Alive r := ht.left.heap.alive_of_held (Multiset.mem_cons_self _ _)
  obtain ⟨hid, hreg⟩ := ht.tryRegisterIn (K := K) halive (ht.left.regAlive_of_mem hR)
  have hsteps : Steps AddrSource.lowest K (fun _ => True) ⟨w, r ::ₘ (g'.refs + H), G⟩
      ⟨(g'.insertNode K w r).2.1, (g'.insertNode K w r).2.2.refs + H, G⟩ :=
    steps_insertNode ht.left hR trivial
  have hframe' := hframe.trans (Steps.frame hsteps ht.left)
  have hregistry := registry_insertNode (K := K) g' w r
  -- it remains to follow the references
  suffices hmain : (g'.insertNode K w' r).1 = (g'.insertNode K w r).1 ∧
      (g'.insertNode K w' r).2.2 = (g'.insertNode K w r).2.2 ∧
        Twins φ ψ (g'.insertNode K w r).2.1 (g'.insertNode K w' r).2.1
          ((g'.insertNode K w r).2.2.refs + H) G from
    ⟨hmain.1, hmain.2.1, hregistry, hmain.2.2, hframe'⟩
  rw [HistoryGraph.insertNode, HistoryGraph.insertNode, ht.getNodeId g' (Or.inl halive)]
  cases g'.getNodeId w r with
  | some id => exact ⟨rfl, rfl, ht.drop⟩
  | none =>
    generalize w.tryRegisterIn K r g'.registry = res at hid hreg ⊢
    generalize w'.tryRegisterIn K r g'.registry = res' at hid hreg ⊢
    obtain ⟨id, w1⟩ := res
    obtain ⟨id', w1'⟩ := res'
    simp only at hid hreg
    subst hid
    cases id' with
    | none => exact ⟨rfl, rfl, hreg.drop⟩
    | some id =>
      refine ⟨rfl, rfl, ?_⟩
      rw [HistoryGraph.refs_insert g' id] at hreg
      exact hreg.dropAll

/-- **`insert_ancestors`**, at any depth: both calls return the same id and the same graph, or both
panic. -/
theorem insertAncestorsAux (n : ℕ) (h : GraphTwins φ ψ v R a b (r ::ₘ H) G) (hR : R ∈ G)
    (hr : r < v.heap.size) :
    Alike (fun res res' => res'.1 = res.1 ∧ GraphTwins φ ψ v R res.2 res'.2 H G)
      (a.2.insertAncestorsAux K n a.1 r) (b.2.insertAncestorsAux K n b.1 r) := by
  induction n generalizing a b r H with
  | zero => exact Alike.error _
  | succ n ih =>
    have halive : ∀ {c : World N E × HistoryGraph} {c' : World M F × HistoryGraph},
        GraphTwins φ ψ v R c c' (r ::ₘ H) G → c.1.heap.Alive r := fun hc =>
      hc.twins.left.heap.alive_of_held (by simp)
    -- the parents visited by the loop are those the node has had all along
    have hparents : ∀ {c : World N E × HistoryGraph} {c' : World M F × HistoryGraph},
        GraphTwins φ ψ v R c c' (r ::ₘ H) G → c.1.heap.allParents r = v.heap.allParents r :=
      fun hc => hc.frame.allParents hr (halive hc)
    rw [HistoryGraph.insertAncestorsAux, HistoryGraph.insertAncestorsAux,
      h.twins.image.heap.allParents]
    refine Alike.bind (R := fun c c' => GraphTwins φ ψ v R c c' (r ::ₘ H) G)
      (Alike.foldlM (T := Eq) (List.forall₂_same.mpr fun _ _ => rfl) h ?_) ?_
    · rintro c c' p _ hp rfl hc
      rw [hparents h, ← hparents hc] at hp
      have hpalive : c.1.heap.Alive p := hc.twins.left.heap.parent_alive hp
      have hlt : p < v.heap.size := (hc.twins.left.heap.parent_lt r p hp).trans hr
      rw [hc.twins.contains c'.2 (Or.inl hpalive), hc.graph]
      split_ifs
      · exact Alike.pure hc
      · have hrec := ih (hc.clone hpalive) hlt
        simp only [hc.graph] at hrec
        exact hrec.bind fun _ _ hres => Alike.pure hres.2
    · intro c c' hc
      obtain ⟨hid, hins⟩ := (hc.clone (halive hc)).insertNode (K := K) hR
      simp only at hid hins ⊢
      rw [hid]
      refine Alike.bind (R := Eq) ?_ ?_
      · cases (c.2.insertNode K (c.1.clone r) r).1 with
        | none => exact Alike.error _
        | some id => exact Alike.ok rfl
      · rintro id _ rfl
        exact Alike.pure ⟨rfl, hins.drop⟩

end GraphTwins

/-! ### The calls -/

section Calls

variable {w : World N E} {w' : World M F} {H : Multiset Ref} {G : Multiset RegRef}

/-- **`insert_ancestors`** returns the same id and the same graph, or panics on both sides. -/
theorem Twins.insertAncestors {g : HistoryGraph} {r : Ref}
    (ht : Twins φ ψ w w' (g.refs + (r ::ₘ H)) G) (hg : g.registry ∈ G) :
    Alike (fun res res' => res'.1 = res.1 ∧ GraphTwins φ ψ w g.registry res.2 res'.2 H G)
      (g.insertAncestors K w r) (g.insertAncestors K w' r) :=
  (GraphTwins.start ht).insertAncestorsAux (r + 1) hg
    (ht.left.heap.alive_lt r (ht.left.heap.alive_of_held (by simp)))

/-- `HistoryGraph::new` turns the given nodes into the same graph. -/
theorem Twins.graphNew {nodes : List Ref} {R : RegRef}
    (ht : Twins φ ψ w w' ((nodes : Multiset Ref) + H) G) (hR : R ∈ G) :
    GraphTwins φ ψ w R (HistoryGraph.new K w nodes R) (HistoryGraph.new K w' nodes R) H G := by
  have hloop : ∀ (nodes : List Ref) (a : World N E × HistoryGraph) (b : World M F × HistoryGraph),
      GraphTwins φ ψ w R a b ((nodes : Multiset Ref) + H) G →
        GraphTwins φ ψ w R (a.2.insertNodes K a.1 nodes) (b.2.insertNodes K b.1 nodes) H G := by
    intro nodes
    induction nodes with
    | nil =>
      intro a b h
      rwa [Multiset.coe_nil, zero_add] at h
    | cons r nodes ih =>
      intro a b h
      rw [← Multiset.cons_coe, Multiset.cons_add] at h
      exact ih _ _ (h.insertNode hR).2
  rw [← HistoryGraph.refs_empty_add R ((nodes : Multiset Ref) + H)] at ht
  have hstart : GraphTwins φ ψ w R (w, ⟨Slots.empty, R⟩) (w', ⟨Slots.empty, R⟩) _ G :=
    GraphTwins.start ht
  exact hloop nodes _ _ hstart

/-- `HistoryGraph::from_nodes` makes the same graph over the same new registry. -/
theorem Twins.fromNodes {nodes : List Ref} (ht : Twins φ ψ w w' ((nodes : Multiset Ref) + H) G) :
    GraphTwins φ ψ (w.allocRegistry Registry.new) w.nregs (HistoryGraph.fromNodes K w nodes)
      (HistoryGraph.fromNodes K w' nodes) H (w.nregs ::ₘ G) := by
  have halloc : Twins φ ψ (w.allocRegistry Registry.new) (w'.allocRegistry Registry.new)
      ((nodes : Multiset Ref) + H) (w.nregs ::ₘ G) := by
    refine ht.of_steps (A := AddrSource.lowest) (B := AddrSource.lowest) (K := KeySource.reusing)
      (ht.image.allocRegistry rfl) (steps_allocRegistry_new w _ G) ?_
    rw [← ht.image.nregs]
    exact steps_allocRegistry_new w' _ G
  rw [HistoryGraph.fromNodes, HistoryGraph.fromNodes, ht.image.nregs]
  exact halloc.graphNew (Multiset.mem_cons_self _ _)

theorem Twins.graphClone {g : HistoryGraph}
    (ht : Twins φ ψ w w' (g.refs + H) (g.registry ::ₘ G)) :
    Twins φ ψ (g.clone w) (g.clone w') (g.refs + (g.refs + H))
      (g.registry ::ₘ g.registry ::ₘ G) := by
  have himage := (ht.image.withHeap (ht.image.heap.incStrongAll g.nodes.values)).cloneRegistry
    g.registry
  exact ht.of_steps (A := AddrSource.lowest) (B := AddrSource.lowest) (K := KeySource.reusing)
    himage (steps_graphClone ht.left) (steps_graphClone ht.right)

theorem Twins.graphDrop {g : HistoryGraph} (ht : Twins φ ψ w w' (g.refs + H) (g.registry ::ₘ G)) :
    Twins φ ψ (g.drop w) (g.drop w') H G := by
  have hdrop : Twins φ ψ (w.dropAll g.nodes.values) (w'.dropAll g.nodes.values) H
      (g.registry ::ₘ G) := ht.dropAll
  exact ht.of_steps (A := AddrSource.lowest) (B := AddrSource.lowest) (K := KeySource.reusing)
    (hdrop.image.dropRegistry g.registry) (steps_graphDrop ht.left) (steps_graphDrop ht.right)

theorem Twins.afterOutgoingEdges (ht : Twins φ ψ w w' H G) (g : HistoryGraph) (u : NodeId) :
    Twins φ ψ (g.afterOutgoingEdges w u) (g.afterOutgoingEdges w' u) H G := by
  rw [HistoryGraph.afterOutgoingEdges, HistoryGraph.afterOutgoingEdges]
  cases g.getNode u with
  | none => exact ht
  | some node => exact ht.nOutgoing_snd node

end Calls

end Relrc
