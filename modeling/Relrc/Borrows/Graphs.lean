import Relrc.Lib.Fallible
import Relrc.Borrows.Nodes

/-!
# Borrowing in registries and graphs

The methods of a registry that is borrowed upgrade nodes and drop them again; they leave memory as
it was, whatever is borrowed (`behaves_containsId`, `behaves_deadEntries`,
`behaves_serializeInnerData`, `exists_behaves_iter`). The functions of a graph hold the guard of the
registry for one look-up only, and drop nodes with no guard held.
-/

namespace Relrc

open SlotStore RefCells Action Fallible

namespace Guarded

variable {N E α : Type} {b : Cell → BorrowFlag} {w : World N E} {r : Ref} {R : RegRef}

theorem reads_expect (p : Panic) (o : Option α) :
    Reads (expect p o : Act N E α) w (Relrc.expect p o) := by
  cases o with
  | some x => exact Reads.pure x
  | none => exact Reads.raise p

/-! ### Upgrading and dropping -/

/-- A clone that is dropped at once leaves no trace. -/
theorem withHeap_decStrong_clone (hr : w.heap.Alive r) :
    (w.clone r).withHeap ((w.clone r).heap.decStrong r) = w := by
  have hpos : 0 < w.heap.strong r := hr
  have hstrong : (w.heap.incStrong r).strong r = w.heap.strong r + 1 := by
    rw [Heap.strong_incStrong, Function.update_self]
  rw [World.clone, World.heap_withHeap, Heap.decStrong, if_neg (by omega), hstrong]
  simp [World.withHeap, Heap.incStrong]

/-- **A node that was just upgraded** is dropped without a borrow: its count is at least two. -/
theorem behaves_drop_clone (hr : w.heap.Alive r) :
    Behaves (drop r) b (w.clone r) (.ok ((), w)) := by
  have hpos : 0 < w.heap.strong r := hr
  have hshared : 1 < (w.clone r).heap.strong r := by
    rw [World.clone, World.heap_withHeap, Heap.strong_incStrong, Function.update_self]
    omega
  have hdrop : Behaves (drop r) b (w.clone r) _ := behaves_drop_of_shared hshared
  rwa [withHeap_decStrong_clone hr] at hdrop

/-- A clone may be dropped under any guard: the original is a second reference, so no hook runs. -/
theorem behaves_dropAll_clone (hr : w.heap.Alive r) :
    Behaves (dropAll [r]) b (w.clone r) (.ok ((), w)) :=
  Behaves.bind_ok (behaves_drop_clone hr) (Behaves.pure ())

/-- What `upgrade` returned is dropped. -/
theorem behaves_dropAll_upgrade : Behaves (dropAll (w.heap.upgrade r).toList) b
    (if w.heap.Alive r then w.clone r else w) (.ok ((), w)) := by
  rw [Heap.upgrade]
  split_ifs with hr
  · exact behaves_dropAll_clone hr
  · exact Behaves.pure ()

/-! ### Registries -/

section Registries

variable (reg : Registry)

/-- `Registry::get` returns a new strong reference, or nothing. -/
theorem get_cases (id : NodeId) (w : World N E) :
    (reg.get w.heap id = none ∧ ∀ b, Behaves (get reg id) b w (.ok (none, w))) ∨
    ∃ r, w.heap.Alive r ∧ reg.get w.heap id = some r ∧
      ∀ b, Behaves (get reg id) b w (.ok (some r, w.clone r)) := by
  rw [Registry.get, get]
  cases reg.nodes.get id with
  | none => exact Or.inl ⟨rfl, fun b => Behaves.pure none⟩
  | some r =>
    have hup : ∀ b, Behaves (upgrade r) b w _ := fun b => behaves_upgrade
    simp only [Option.bind_some, Heap.upgrade] at hup ⊢
    split_ifs at hup ⊢ with hr
    · exact Or.inr ⟨r, hr, rfl, hup⟩
    · exact Or.inl ⟨rfl, hup⟩

/-- `contains_id` upgrades the entry and drops the reference again. -/
theorem behaves_containsId (id : NodeId) :
    Behaves (containsId reg id) b w (.ok (reg.containsId w.heap id, w)) := by
  rw [Registry.containsId]
  rcases get_cases reg id w with ⟨hget, hbehaves⟩ | ⟨r, hr, hget, hbehaves⟩
  · rw [hget]
    exact Behaves.bind_ok (hbehaves b) (Behaves.pure _)
  · rw [hget]
    exact Behaves.bind_ok (hbehaves b) (Behaves.bind_ok (behaves_dropAll_clone hr) (Behaves.pure _))

theorem foldl_append_ite {γ : Type} (p : γ → Bool) (l acc : List γ) :
    l.foldl (fun acc y => if p y then acc ++ [y] else acc) acc = acc ++ l.filter p := by
  induction l generalizing acc with
  | nil => rw [List.foldl_nil, List.filter_nil, List.append_nil]
  | cons y l ih =>
    rw [List.foldl_cons, ih]
    cases hy : p y <;> simp [hy]

/-- Looking for dead entries upgrades the live ones for a moment. -/
theorem behaves_deadEntries : Behaves (deadEntries reg) b w (.ok (reg.deadEntries w.heap, w)) := by
  have hstep : ∀ dead, ∀ e ∈ reg.nodes.entries, Behaves (recordDead dead e) b w
      (.ok (if (w.heap.upgrade e.2).isNone then dead ++ [e] else dead, w)) := fun dead e _ =>
    Behaves.bind_ok behaves_upgrade (Behaves.bind_ok behaves_dropAll_upgrade (Behaves.pure _))
  have hloop := Behaves.foldlM (g := fun dead (e : NodeId × Ref) =>
    pure (if (w.heap.upgrade e.2).isNone then dead ++ [e] else dead)) (fun dead => (dead, w))
    hstep []
  rw [List.foldlM_pure, foldl_append_ite] at hloop
  exact hloop

/-- `free_node_ids` drops no node that was alive, so it may run under the borrow of its registry. -/
theorem behaves_freeNodeIds : Behaves (freeNodeIds R) b w
    (.ok (((w.registries R).freeNodeIds w.heap).1,
      w.setRegistry R ((w.registries R).freeNodeIds w.heap).2)) :=
  Behaves.bind_ok (Behaves.read _) (Behaves.bind_ok (behaves_deadEntries _)
    (Behaves.bind_ok (Behaves.read _) (Behaves.bind_ok (Behaves.write _) (Behaves.pure _))))

/-! ### Iterating -/

/-- Every node that the consumer has got has a strong reference besides. -/
def Spare (kept : List Ref) (w : World N E) : Prop := ∀ r ∈ kept, kept.count r < w.heap.strong r

/-- A reference that is kept is one more. -/
theorem Spare.upgrade {kept : List Ref} (h : Spare kept w) (hr : w.heap.Alive r) :
    Spare (kept ++ [r]) (w.clone r) := by
  intro x hx
  rw [World.clone, World.heap_withHeap, Heap.strong_incStrong, List.count_append,
    Function.update_apply]
  split_ifs with hxr
  · subst hxr
    have hlt : kept.count x < w.heap.strong x := by
      by_cases hmem : x ∈ kept
      · exact h x hmem
      · rw [List.count_eq_zero_of_not_mem hmem]
        exact hr
    rw [List.count_singleton_self]
    omega
  · have hmem : x ∈ kept := by simpa [hxr] using hx
    rw [List.count_singleton, if_neg (by simpa using Ne.symm hxr)]
    exact h x hmem

/-- A kept reference may be dropped: it is not the last one. -/
theorem Spare.drop {kept : List Ref} (h : Spare kept w) (hr : r ∈ kept) :
    1 < w.heap.strong r ∧ Spare (kept.erase r) (w.withHeap (w.heap.decStrong r)) := by
  have hpos := List.count_pos_iff.mpr hr
  have hlt := h r hr
  refine ⟨by omega, fun x hx => ?_⟩
  have hx' := h x (List.mem_of_mem_erase hx)
  rw [World.heap_withHeap, Heap.decStrong, if_neg (by omega)]
  rw [List.count_erase]
  by_cases hxr : x = r
  · subst hxr
    rw [beq_self_eq_true, if_pos rfl]
    simp only [Function.update_self]
    omega
  · simpa [hxr, Ne.symm hxr] using hx'

/-- The next item of `Registry::iter`, with the reference that the consumer keeps. -/
theorem exists_behaves_iterNext {entries : List (NodeId × Ref)} {kept : List Ref}
    (h : Spare kept w) : ∃ node rest w', Behaves (iterNext entries) b w (.ok ((node, rest), w')) ∧
      Spare (kept ++ node.toList) w' := by
  induction entries with
  | nil => exact ⟨none, [], w, Behaves.pure _, by simpa using h⟩
  | cons e entries ih =>
    have hup : Behaves (upgrade e.2) b w _ := behaves_upgrade
    rw [Heap.upgrade] at hup
    split_ifs at hup with he
    · exact ⟨some e.2, entries, _, Behaves.bind_ok hup (Behaves.pure _), h.upgrade he⟩
    · obtain ⟨node, rest, w', hnext, hspare⟩ := ih
      exact ⟨node, rest, w', Behaves.bind_ok hup hnext, hspare⟩

/-- **Iterating over a borrowed registry** drops nodes without a borrow, in whatever order the
consumer drops them. -/
theorem exists_behaves_iter (script : List Consume) (entries : List (NodeId × Ref))
    {kept : List Ref} (h : Spare kept w) :
    ∃ kept' w', Behaves (iter script entries kept) b w (.ok (kept', w')) := by
  induction script generalizing w entries kept with
  | nil => exact ⟨kept, w, Behaves.pure _⟩
  | cons c script ih =>
    cases c with
    | next =>
      obtain ⟨node, rest, w', hnext, hspare⟩ := exists_behaves_iterNext h
      obtain ⟨kept', w'', hrest⟩ := ih rest hspare
      exact ⟨kept', w'', Behaves.bind_ok hnext hrest⟩
    | drop node =>
      rw [iter]
      split_ifs with hnode
      · obtain ⟨hshared, hspare⟩ := h.drop hnode
        obtain ⟨kept', w', hrest⟩ := ih entries hspare
        exact ⟨kept', w', Behaves.bind_ok (behaves_drop_of_shared hshared) hrest⟩
      · exact ih entries h

/-! ### Encoding -/

theorem reads_readNode (node : Ref) : Reads (readNode reg node) w (do
    let data ← Relrc.expect .validNode (w.heap.data node)
    let incoming ← data.incoming.mapM fun edge => do
      let parentId ← Relrc.expect .validNode (reg.getId w.heap edge.source)
      pure (parentId, edge.value)
    pure ⟨data.value, incoming⟩) := by
  refine Reads.read_bind ((reads_expect _ _).bind fun data _ => ?_)
  refine (Reads.mapM fun edge _ => ?_).bind fun incoming _ => Reads.pure _
  exact Reads.read_bind ((reads_expect _ _).bind fun id _ => Reads.pure _)

/-- Encoding an entry only reads, but for the reference of `get`, which is dropped again. -/
theorem behaves_serializeInnerData (id : NodeId) : Behaves (serializeInnerData reg id) b w
    ((reg.serializeInnerData w.heap id).map (·, w)) := by
  rw [Registry.serializeInnerData]
  rcases get_cases reg id w with ⟨hget, hbehaves⟩ | ⟨r, hr, hget, hbehaves⟩
  · rw [hget]
    exact Behaves.bind_ok (hbehaves b) (Behaves.raise _)
  · rw [hget]
    have hread := (reads_readNode (w := w.clone r) reg r).ensuring (behaves_drop_clone (b := b) hr)
    exact Behaves.bind_ok (hbehaves b) hread

/-- An action on every entry that changes nothing. -/
theorem behaves_traverseM {V W : Type} {f : Key → V → Act N E W} {g : Key → V → Except Panic W}
    (h : ∀ k x, Behaves (f k x) b w ((g k x).map (·, w))) (m : SlotMap V) :
    Behaves (m.traverseM f) b w ((m.traverse g).map (·, w)) := by
  rw [SlotMap.traverse_eq_traverseM, SlotMap.traverseM, SlotMap.traverseM, except_map_bind]
  refine Behaves.bind (·, w) (Behaves.mapM fun e _ => ?_) fun ys _ => Behaves.pure _
  exact except_map_bind _ _ _ ▸ Behaves.bind (·, w) (h e.1 e.2) fun y _ => Behaves.pure _

theorem behaves_registryToSerialized : Behaves (registryToSerialized reg) b w
    ((reg.toSerialized w.heap).map (·, w)) := by
  rw [Registry.toSerialized, except_map_bind]
  refine Behaves.bind (·, w) ?_ fun nodes _ => Behaves.pure _
  exact behaves_traverseM (fun id _ => behaves_serializeInnerData reg id) reg.nodes

end Registries

/-! ### Graphs -/

section Graphs

variable (g : HistoryGraph)

/-- A lookup borrows the registry of the graph for one call. -/
theorem behaves_getNodeId (node : Ref) :
    Behaves (getNodeId g node) clear w (.ok (g.getNodeId w node, w)) := by
  refine Behaves.bind_ok (behaves_withBorrow fun b => Behaves.read _) ?_
  rw [HistoryGraph.getNodeId]
  cases (w.registries g.registry).getId w.heap node with
  | some id => exact Behaves.pure _
  | none => exact Behaves.pure _

theorem behaves_contains (node : Ref) :
    Behaves (contains g node) clear w (.ok (g.contains w node, w)) := by
  refine Behaves.bind_ok (behaves_withBorrow fun b => Behaves.read _) ?_
  rw [HistoryGraph.contains]
  cases (w.registries g.registry).getId w.heap node with
  | some id => exact Behaves.pure _
  | none => exact Behaves.pure _

theorem behaves_getEdge (e : EdgeId) :
    Behaves (getEdge g e) clear w (.ok (g.getEdge w e, w)) := by
  rw [getEdge, HistoryGraph.getEdge]
  cases g.getNode e.target with
  | none => exact Behaves.pure _
  | some node =>
    refine Behaves.bind_ok (Behaves.read _) ?_
    simp only
    cases w.heap.incoming node e.index with
    | none => exact Behaves.pure _
    | some edge => exact Behaves.bind_ok (behaves_contains g edge.source) (Behaves.pure _)

theorem behaves_containsEdge (e : EdgeId) :
    Behaves (containsEdge g e) clear w (.ok (g.containsEdge w e, w)) :=
  Behaves.bind_ok (behaves_getEdge g e) (Behaves.pure _)

theorem behaves_source (e : EdgeId) : Behaves (source g e) clear w (.ok (g.source w e, w)) := by
  refine Behaves.bind_ok (behaves_getEdge g e) ?_
  rw [HistoryGraph.source]
  cases g.getEdge w e with
  | some edge => exact behaves_getNodeId g edge.source
  | none => exact Behaves.pure _

theorem behaves_target (e : EdgeId) : Behaves (target g e) clear w (.ok (g.target w e, w)) :=
  Behaves.bind_ok (behaves_containsEdge g e) (Behaves.pure _)

/-- An outgoing edge is looked up, and its strong reference dropped after the lookup. -/
theorem behaves_mapNodeId (e : Edge) : Behaves (mapNodeId g e) clear w
    (.ok ((g.getNodeId w e.target).map fun target => ⟨target, e.index⟩, w.drop e.target)) :=
  Behaves.bind_ok (behaves_getNodeId g e.target) (Behaves.bind_ok behaves_drop (Behaves.pure _))

/-- What `outgoing_edges` leaves behind is that the edges have been dropped. -/
theorem exists_behaves_outgoingEdges (u : NodeId) :
    ∃ ids, Behaves (outgoingEdges g u) clear w (.ok (ids, g.afterOutgoingEdges w u)) := by
  have hloop : ∀ (edges : List Edge) (ids : List EdgeId) (w : World N E),
      ∃ ids', Behaves (edges.foldlM (fun ids e => do
        let id ← mapNodeId g e
        pure (ids ++ id.toList)) ids) clear w
          (.ok (ids', w.dropAll (edges.map Edge.target))) := by
    intro edges
    induction edges with
    | nil => exact fun ids w => ⟨ids, Behaves.pure ids⟩
    | cons e edges ih =>
      intro ids w
      obtain ⟨ids', hrest⟩ := ih (ids ++ ((g.getNodeId w e.target).map fun target =>
        (⟨target, e.index⟩ : EdgeId)).toList) (w.drop e.target)
      exact ⟨ids', Behaves.bind_ok
        (Behaves.bind_ok (behaves_mapNodeId g e) (Behaves.pure _)) hrest⟩
  rw [outgoingEdges, HistoryGraph.afterOutgoingEdges]
  cases g.getNode u with
  | none => exact ⟨[], Behaves.pure _⟩
  | some node =>
    obtain ⟨ids, hids⟩ := hloop (w.allOutgoing node).1 [] (w.allOutgoing node).2
    exact ⟨ids, Behaves.bind_ok behaves_allOutgoing hids⟩

variable (K : KeySource)

/-- A node that is refused, or there already, is dropped when no guard is held. -/
theorem behaves_insertNode (node : Ref) : Behaves (insertNode g K node) clear w
    (.ok (((g.insertNode K w node).1, (g.insertNode K w node).2.2),
      (g.insertNode K w node).2.1)) := by
  rw [HistoryGraph.insertNode]
  refine Behaves.bind_ok (behaves_getNodeId g node) ?_
  cases g.getNodeId w node with
  | some id => exact Behaves.bind_ok behaves_drop (Behaves.pure _)
  | none =>
    have hreg : Behaves (tryRegisterIn K node g.registry) clear w
      (.ok (w.tryRegisterIn K node g.registry)) := behaves_tryRegisterIn K
    simp only
    generalize w.tryRegisterIn K node g.registry = res at hreg
    obtain ⟨id, w'⟩ := res
    refine Behaves.bind_ok hreg ?_
    cases id with
    | none => exact Behaves.bind_ok behaves_drop (Behaves.pure _)
    | some id => exact Behaves.bind_ok (behaves_dropAll _) (Behaves.pure _)

/-- **Inserting a node with its ancestors** borrows without conflict, also if it panics. -/
theorem behaves_insertAncestorsAux (n : ℕ) (node : Ref) :
    Behaves (insertAncestorsAux K n g node) clear w
      ((HistoryGraph.insertAncestorsAux K n w g node).map
        fun res => ((res.1, res.2.2), res.2.1)) := by
  induction n generalizing w g node with
  | zero => exact Behaves.raise _
  | succ n ih =>
    have hstep : ∀ (wg : World N E × HistoryGraph), ∀ parent ∈ w.heap.allParents node,
        Behaves (insertMissing (insertAncestorsAux K n) wg.2 parent) clear wg.1
          ((if wg.2.contains wg.1 parent then pure wg
            else do
              let res ← HistoryGraph.insertAncestorsAux K n (wg.1.clone parent) wg.2 parent
              pure res.2 :
                Except Panic (World N E × HistoryGraph)).map fun wg => (wg.2, wg.1)) := by
      intro wg parent _
      refine Behaves.bind_ok (behaves_contains wg.2 parent) ?_
      split_ifs
      · exact Behaves.pure _
      · refine Behaves.bind_ok (Behaves.write _) ?_
        rw [except_map_bind]
        exact Behaves.bind _ (ih wg.2 parent) fun res _ => Behaves.pure _
    have hparents := Behaves.foldlM (f := insertMissing (insertAncestorsAux K n))
      (fun wg : World N E × HistoryGraph => (wg.2, wg.1)) hstep (w, g)
    rw [HistoryGraph.insertAncestorsAux]
    generalize List.foldlM (m := Except Panic) _ (w, g) (w.heap.allParents node) = parents
      at hparents ⊢
    have hbody : Behaves (insertBelow K (insertAncestorsAux K n) g node) clear w
        (parents >>= fun wg => do
          let id ← Relrc.expect .nodeNotRegistered (wg.2.insertNode K (wg.1.clone node) node).1
          pure ((id, (wg.2.insertNode K (wg.1.clone node) node).2.2),
            (wg.2.insertNode K (wg.1.clone node) node).2.1)) := by
      refine Behaves.bind_ok (Behaves.read _) (Behaves.bind _ hparents fun wg _ => ?_)
      refine Behaves.bind_ok (Behaves.write _) (Behaves.bind_ok (behaves_insertNode wg.2 K node) ?_)
      exact Behaves.bind (·, _) (reads_expect _ _).behaves fun id _ => Behaves.pure _
    -- the node is dropped on every way out
    have hall := Runs.ensuring hbody fun w => behaves_drop (r := node)
    cases parents with
    | error e => exact hall
    | ok wg =>
      rw [bind_of_ok rfl] at hall ⊢
      generalize wg.2.insertNode K (wg.1.clone node) node = res at hall ⊢
      obtain ⟨id, w', g'⟩ := res
      cases id with
      | none => exact hall
      | some id => exact hall

/-- `insert_ancestors` holds no guard when it calls itself. -/
theorem behaves_insertAncestors (node : Ref) :
    Behaves (insertAncestors g K node) clear w
      ((g.insertAncestors K w node).map fun res => ((res.1, res.2.2), res.2.1)) :=
  behaves_insertAncestorsAux g K (node + 1) node

/-- The nodes of a new graph are inserted one after the other. -/
theorem behaves_graphNew (nodes : List Ref) (R : RegRef) : Behaves (graphNew K nodes R) clear w
    (.ok ((HistoryGraph.new K w nodes R).2, (HistoryGraph.new K w nodes R).1)) := by
  have hloop := Behaves.foldlM (l := nodes)
    (f := fun g node => insertNode g K node >>= fun res => pure res.2)
    (g := fun (wg : World N E × HistoryGraph) node => pure (wg.2.insertNode K wg.1 node).2)
    (fun wg => (wg.2, wg.1)) (fun wg node _ =>
      Behaves.bind_ok (behaves_insertNode wg.2 K node) (Behaves.pure _)) (w, ⟨Slots.empty, R⟩)
  rw [List.foldlM_pure] at hloop
  exact hloop

theorem behaves_fromNodes (nodes : List Ref) : Behaves (fromNodes K nodes) clear w
    (.ok ((HistoryGraph.fromNodes K w nodes).2, (HistoryGraph.fromNodes K w nodes).1)) :=
  Behaves.bind_ok (Behaves.read _) (Behaves.bind_ok (Behaves.write _) (behaves_graphNew K nodes _))

/-- The nodes of a graph are dropped before its reference to the registry. -/
theorem behaves_graphDrop : Behaves (graphDrop g) clear w (.ok ((), g.drop w)) :=
  Behaves.bind_ok (behaves_dropAll _) (Behaves.write _)

end Graphs

end Guarded

end Relrc
