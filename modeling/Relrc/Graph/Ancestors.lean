import Relrc.Graph.Agreement

/-!
# Inserting a node with its ancestors

`insert_ancestors` skips parents that the graph already contains, without looking at *their*
parents. It adds exactly the nodes that are reached from the given one without entering the graph,
and panics when one of them cannot be registered (`insertAncestorsAux_cases`). On a graph that is
closed under parents these are all the ancestors that were missing (`insertAncestors_ok`); on a
partial graph an ancestor may be hidden behind a node of the graph (`insertsAncestors_iff_of_run`).
-/

namespace Relrc

open SlotStore Ancestry Fallible

variable {N E : Type} {A : AddrSource} {K : KeySource}
variable {v w w' : World N E} {H : Multiset Ref} {G : Multiset RegRef} {g g' : HistoryGraph}

namespace HistoryGraph

/-- The id that `insert_node` returns is the one the node is stored under. -/
theorem get_insertNode (hi : Inv w H G) (ha : g.Agrees w) {node : Ref} (hnode : w.heap.Alive node)
    (hR : w.RegAlive g.registry) {id : NodeId} (hid : (g.insertNode K w node).1 = some id) :
    (g.insertNode K w node).2.2.nodes.get id = some node := by
  rcases insertNode_cases (K := K) hi ha hnode hR with
    ⟨id', hget, heq⟩ | ⟨-, -, heq⟩ | ⟨-, -, id', -, -, hvacant, heq⟩
  · rw [heq] at hid ⊢
    obtain rfl := Option.some.inj hid
    exact hget
  · rw [heq] at hid
    cases hid
  · rw [heq] at hid ⊢
    obtain rfl := Option.some.inj hid
    rw [Slots.get_insert_of_vacant hvacant, if_pos rfl]

/-- The state of a call of `insert_ancestors`. The nodes of `S` are those the graph had from the
start; any other node of the graph has its parents there, too. Parents are read off the memory `v`
from which the insertions started. -/
structure Inserting (v : World N E) (G : Multiset RegRef) (S : Ref → Prop) (w : World N E)
    (H : Multiset Ref) (g : HistoryGraph) : Prop where
  inv : Inv w (g.refs + H) G
  frame : Frame v w
  registry : g.registry ∈ G
  agrees : g.Agrees w
  base : ∀ r, S r → g.Stores r
  closed : ∀ r, g.Stores r → S r ∨ ∀ p ∈ v.heap.allParents r, g.Stores p

/-- The graph has grown, and no node that could be registered with it was registered elsewhere. -/
structure Expands (w w' : World N E) (g g' : HistoryGraph) : Prop extends Grows w w' g g' where
  free : ∀ r, Registrable w g.registry r → Registrable w' g.registry r

theorem Expands.trans {w'' : World N E} {g'' : HistoryGraph} (h : Expands w w' g g')
    (h' : Expands w' w'' g' g'') : Expands w w'' g g'' where
  toGrows := h.toGrows.trans h'.toGrows
  free r hr := by
    have hr' := h.free r hr
    rw [← h.registry] at hr' ⊢
    exact h'.free r hr'

namespace Inserting

variable {S : Ref → Prop} {node : Ref}

theorem alive (h : Inserting v G S w (node ::ₘ H) g) : w.heap.Alive node :=
  h.inv.heap.alive_of_held (by simp)

theorem allParents (h : Inserting v G S w (node ::ₘ H) g) (hnode : node < v.heap.size) :
    w.heap.allParents node = v.heap.allParents node := h.frame.allParents hnode h.alive

theorem clone (h : Inserting v G S w H g) (hr : w.heap.Alive node) :
    Inserting v G S (w.clone node) (node ::ₘ H) g ∧ Expands w (w.clone node) g g := by
  have hsteps : Steps AddrSource.lowest KeySource.reusing (fun _ => False) ⟨w, g.refs + H, G⟩
      ⟨w.clone node, g.refs + (node ::ₘ H), G⟩ := by
    rw [Multiset.add_cons]
    exact steps_clone hr
  have hagrees : g.Agrees (w.clone node) := fun k x hx =>
    ⟨(h.agrees k x hx).slot, (h.agrees k x hx).entry⟩
  exact ⟨⟨Steps.inv hsteps h.inv, h.frame.trans (Steps.frame hsteps h.inv), h.registry, hagrees,
    h.base, h.closed⟩, ⟨hagrees, fun _ _ hr => hr, rfl, fun _ hr => Or.inl hr⟩, fun _ hr => hr⟩

theorem drop (h : Inserting v G S w (node ::ₘ H) g) :
    Inserting v G S (w.drop node) H g ∧ Expands w (w.drop node) g g := by
  have hi := h.inv
  rw [Multiset.add_cons] at hi
  have hsteps : Steps AddrSource.lowest KeySource.reusing (fun _ => False) _ _ := steps_drop hi
  have hgrow := h.agrees.grows_drop hi h.registry
  exact ⟨⟨Steps.inv hsteps hi, h.frame.trans (Steps.frame hsteps hi), h.registry, hgrow.agrees,
    h.base, h.closed⟩, hgrow, fun r hr => hr.steps hsteps hi fun _ hok => absurd hok fun h => h⟩

/-- Inserting a node whose parents are stored and that can be registered. -/
theorem insertNode (h : Inserting v G S w (node ::ₘ H) g) (hfree : Registrable w g.registry node)
    (hparents : ∀ p ∈ v.heap.allParents node, g.Stores p) :
    Inserting v G S (g.insertNode K w node).2.1 H (g.insertNode K w node).2.2 ∧
      Expands w (g.insertNode K w node).2.1 g (g.insertNode K w node).2.2 ∧
      (∀ x, (g.insertNode K w node).2.2.Stores x ↔ g.Stores x ∨ x = node) ∧
      ∃ id, (g.insertNode K w node).1 = some id ∧
        (g.insertNode K w node).2.2.nodes.get id = some node := by
  have hi := h.inv
  rw [Multiset.add_cons] at hi
  have hR : w.RegAlive g.registry := hi.regAlive_of_mem h.registry
  have hsteps : Steps AddrSource.lowest K (fun a => a = .register g.registry) _ _ :=
    steps_insertNode hi h.registry rfl
  have hgrow := grows_insertNode (K := K) hi h.registry h.agrees
  have hsome := (insertNode_isSome_iff (K := K) hi h.agrees h.alive hR).mpr hfree
  obtain ⟨id, hid⟩ := Option.isSome_iff_exists.mp hsome
  have hstores : ∀ x, (g.insertNode K w node).2.2.Stores x ↔ g.Stores x ∨ x = node := by
    intro x
    rw [stores_insertNode hi h.registry h.agrees, hsome]
    simp
  refine ⟨⟨Steps.inv hsteps hi, h.frame.trans (Steps.frame hsteps hi), ?_, hgrow.agrees, ?_, ?_⟩,
    ⟨hgrow, fun r hr => hr.steps hsteps hi fun _ hok => Access.register.inj hok⟩, hstores, id, hid,
    get_insertNode hi h.agrees h.alive hR hid⟩
  · rw [hgrow.registry]
    exact h.registry
  · exact fun r hr => (hstores r).mpr (Or.inl (h.base r hr))
  · intro r hr
    have hkeep : ∀ p, g.Stores p → (g.insertNode K w node).2.2.Stores p := fun p hp =>
      (hstores p).mpr (Or.inl hp)
    rcases (hstores r).mp hr with hr | rfl
    · exact (h.closed r hr).imp_right fun hp p hmem => hkeep p (hp p hmem)
    · exact Or.inr fun p hp => hkeep p (hparents p hp)

end Inserting

/-- The call was made in `w` with the graph `g` for `node` and returned `res`: the node and what is
reached from it outside `S` has been added. -/
def Added (v : World N E) (G : Multiset RegRef) (S : Ref → Prop) (w : World N E) (H : Multiset Ref)
    (g : HistoryGraph) (node : Ref) (res : Except Panic (NodeId × World N E × HistoryGraph)) :
    Prop :=
  ∃ id w' g', res = .ok (id, w', g') ∧ Inserting v G S w' H g' ∧ Expands w w' g g' ∧
    g'.nodes.get id = some node ∧
    ∀ x, g'.Stores x ↔ g.Stores x ∨ ReachesOutside v.heap.allParents S node x

/-- Something that is to be added is registered elsewhere. -/
def Conflicting (v : World N E) (S : Ref → Prop) (w : World N E) (g : HistoryGraph) (node : Ref) :
    Prop :=
  ∃ x, ReachesOutside v.heap.allParents S node x ∧ ¬ Registrable w g.registry x

/-- The outcomes of a call of `insert_ancestors` for `node`. -/
def AddedOrConflicting (v : World N E) (G : Multiset RegRef) (S : Ref → Prop) (w : World N E)
    (H : Multiset Ref) (g : HistoryGraph) (node : Ref)
    (res : Except Panic (NodeId × World N E × HistoryGraph)) : Prop :=
  Added v G S w H g node res ∨ res = .error .nodeNotRegistered ∧ Conflicting v S w g node

/-- The loop over the parents of `node`: the graph has grown by what is reached from those that are
done. -/
structure ParentsDone (v : World N E) (G : Multiset RegRef) (S : Ref → Prop) (w : World N E)
    (H : Multiset Ref) (g : HistoryGraph) (node : Ref) (done : List Ref) (w' : World N E)
    (g' : HistoryGraph) : Prop where
  inserting : Inserting v G S w' (node ::ₘ H) g'
  expands : Expands w w' g g'
  stores : ∀ x, g'.Stores x ↔
    g.Stores x ∨ ∃ p ∈ done, ¬ S p ∧ ReachesOutside v.heap.allParents S p x

namespace ParentsDone

variable {S : Ref → Prop} {node parent : Ref} {done : List Ref}

theorem nil (h : Inserting v G S w (node ::ₘ H) g) : ParentsDone v G S w H g node [] w g :=
  ⟨h, ⟨h.agrees.grows, fun _ hr => hr⟩, by simp⟩

/-- One more parent has been inserted with its ancestors. -/
theorem snoc (h : ParentsDone v G S w H g node done w' g') {w'' : World N E} {g'' : HistoryGraph}
    (hins : Inserting v G S w'' (node ::ₘ H) g'') (hexp : Expands w' w'' g' g'')
    (hstores : ∀ x, g''.Stores x ↔
      g'.Stores x ∨ ¬ S parent ∧ ReachesOutside v.heap.allParents S parent x) :
    ParentsDone v G S w H g node (done ++ [parent]) w'' g'' := by
  refine ⟨hins, h.expands.trans hexp, fun x => ?_⟩
  rw [hstores, h.stores, or_assoc]
  simp [or_and_right, exists_or]

/-- What stands in the way of a parent stands in the way of the node. -/
theorem conflicting (h : ParentsDone v G S w H g node done w' g')
    (hmem : parent ∈ v.heap.allParents node) (hout : ¬ S parent)
    (hconf : Conflicting v S w' g' parent) : Conflicting v S w g node := by
  obtain ⟨x, hpx, hx⟩ := hconf
  refine ⟨x, reachesOutside_iff_eq_or.mpr (Or.inr ⟨parent, hmem, hout, hpx⟩), fun hfree => hx ?_⟩
  rw [h.expands.registry]
  exact h.expands.free x hfree

/-- One more parent. If the graph has it, then it also has what is reached from it; otherwise
`hrec` is about the recursive call. -/
theorem parent_cases (h : ParentsDone v G S w H g node done w' g') (hnode : node < v.heap.size)
    (hmem : parent ∈ v.heap.allParents node)
    {res : Except Panic (NodeId × World N E × HistoryGraph)}
    (hrec : Inserting v G S (w'.clone parent) (parent ::ₘ node ::ₘ H) g' →
      AddedOrConflicting v G S (w'.clone parent) (node ::ₘ H) g' parent res) :
    (∃ wg, (if g'.contains w' parent then pure (w', g') else do
        let r ← res
        pure r.2) = .ok wg ∧
      ParentsDone v G S w H g node (done ++ [parent]) wg.1 wg.2) ∨
    ∃ e, (if g'.contains w' parent then pure (w', g') else do
        let r ← res
        pure r.2) = .error e ∧
      e = .nodeNotRegistered ∧ Conflicting v S w g node := by
  have hx := h.inserting
  have halive : w'.heap.Alive parent :=
    hx.inv.heap.parent_alive (by rwa [hx.allParents hnode])
  by_cases hc : g'.contains w' parent = true
  · have hst : g'.Stores parent := (hx.agrees.contains_iff hx.inv halive).mp hc
    rw [if_pos hc]
    refine Or.inl ⟨(w', g'), rfl, h.snoc hx ⟨hx.agrees.grows, fun _ hr => hr⟩ fun x => ?_⟩
    exact ⟨Or.inl, fun hr => hr.elim (fun hr => hr) fun hr =>
      hr.2.mem_of_closed hx.closed hst hr.1⟩
  · have hout : ¬ S parent := fun hS =>
      hc ((hx.agrees.contains_iff hx.inv halive).mpr (hx.base parent hS))
    obtain ⟨hclone, hexp⟩ := hx.clone halive
    rw [if_neg hc]
    rcases hrec hclone with ⟨id, w'', g'', rfl, hins, hexp', -, hstores⟩ | ⟨rfl, hconf⟩
    · refine Or.inl ⟨(w'', g''), rfl, h.snoc hins (hexp.trans hexp') fun x => ?_⟩
      rw [hstores x, and_iff_right hout]
    · exact Or.inr ⟨_, rfl, rfl, h.conflicting hmem hout hconf⟩

/-- When all parents are done the node itself is inserted. -/
theorem insertNode_cases (h : ParentsDone v G S w H g node (v.heap.allParents node) w' g') :
    AddedOrConflicting v G S w H g node (do
      let res := insertNode K (w'.clone node) g' node
      let id ← expect .nodeNotRegistered res.1
      pure (id, res.2.1.drop node, res.2.2)) := by
  have hx := h.inserting
  obtain ⟨hclone, hexp⟩ := hx.clone hx.alive
  by_cases hfree : Registrable w' g'.registry node
  · have hparents : ∀ p ∈ v.heap.allParents node, g'.Stores p := by
      intro p hp
      by_cases hS : S p
      · exact hx.base p hS
      · exact (h.stores p).mpr (Or.inr ⟨p, hp, hS, Relation.ReflTransGen.refl⟩)
    obtain ⟨h2, hexp2, hstores2, id, hid, hget⟩ := hclone.insertNode (K := K) hfree hparents
    obtain ⟨h3, hexp3⟩ := h2.drop
    refine Or.inl ⟨id, _, _, bind_eq_ok_iff.mpr ⟨id, expect_eq_ok_iff.mpr hid, rfl⟩, h3,
      h.expands.trans (hexp.trans (hexp2.trans hexp3)), hget, fun x => ?_⟩
    rw [hstores2, h.stores, or_assoc, reachesOutside_iff_eq_or (x := node), eq_comm (a := node),
      or_comm (a := x = node)]
  · have hnone : (g'.insertNode K (w'.clone node) node).1 = none := by
      refine Option.not_isSome_iff_eq_none.mp fun hsome => hfree ?_
      exact (insertNode_isSome_iff hclone.inv hclone.agrees hclone.alive
        (hclone.inv.regAlive_of_mem hclone.registry)).mp hsome
    refine Or.inr ⟨bind_of_error (by rw [hnone]; rfl), node, Relation.ReflTransGen.refl,
      fun hnode => hfree ?_⟩
    rw [h.expands.registry]
    exact h.expands.free node hnode

end ParentsDone

/-- The two outcomes of `insert_ancestors`. The recursion visits the node, then its parents outside
the graph, and so on; it never enters `S`, and what it finds in the graph outside `S` has been
visited. It does not run out of fuel. -/
theorem insertAncestorsAux_cases {S : Ref → Prop} (n : ℕ) {node : Ref}
    (h : Inserting v G S w (node ::ₘ H) g) (hnode : node < v.heap.size) (hn : node < n) :
    AddedOrConflicting v G S w H g node (g.insertAncestorsAux K n w node) := by
  induction n generalizing w g node H with
  | zero => exact absurd hn (Nat.not_lt_zero _)
  | succ n ih =>
    have hparents := h.allParents hnode
    have hloop := foldlM_cases
      (f := fun (wg : World N E × HistoryGraph) parent =>
        if wg.2.contains wg.1 parent then pure wg
        else do
          let res ← insertAncestorsAux K n (wg.1.clone parent) wg.2 parent
          pure res.2)
      (I := fun rest (wg : World N E × HistoryGraph) => ∃ done,
        v.heap.allParents node = done ++ rest ∧ ParentsDone v G S w H g node done wg.1 wg.2)
      (F := fun e => e = Panic.nodeNotRegistered ∧ Conflicting v S w g node)
      (l := v.heap.allParents node) (b := (w, g)) ⟨[], rfl, .nil h⟩
      (by
        rintro parent rest ⟨w', g'⟩ hmem ⟨done, hdone, hd⟩
        have hlt : parent < node := by
          refine h.inv.heap.parent_lt node parent ?_
          rwa [hparents]
        have hstep := hd.parent_cases hnode hmem
          fun hins => ih hins (hlt.trans hnode) (Nat.lt_of_lt_of_le hlt (Nat.le_of_lt_succ hn))
        refine hstep.imp_left fun hok => ?_
        obtain ⟨wg, heq, hd'⟩ := hok
        exact ⟨wg, heq, done ++ [parent], by rw [hdone, List.append_assoc]; rfl, hd'⟩)
    rw [← hparents] at hloop
    rcases hloop with ⟨⟨w', g'⟩, hloop, done, hdone, hd⟩ | ⟨e, hfail, rfl, hconf⟩
    · rw [List.append_nil, hparents] at hdone
      subst hdone
      rw [insertAncestorsAux, bind_of_ok hloop]
      exact hd.insertNode_cases
    · exact Or.inr ⟨bind_of_error hfail, hconf⟩

/-- **`insert_ancestors` adds** what it visits, if the registry of the graph is open to that. -/
theorem insertAncestors_added {S : Ref → Prop} {node : Ref}
    (h : Inserting v G S w (node ::ₘ H) g) (hnode : node < v.heap.size)
    (hfree : ∀ x, Reaches v.heap.allParents node x → Registrable w g.registry x) :
    Added v G S w H g node (g.insertAncestors K w node) := by
  rcases insertAncestorsAux_cases (K := K) (node + 1) h hnode (Nat.lt_succ_self node) with
    hadded | ⟨-, x, hx, hconf⟩
  · exact hadded
  · exact absurd (hfree x hx.reaches) hconf

/-! ### Graphs closed under parents -/

/-- A graph closed under parents, over memory in which no node is registered elsewhere. Parents are
read off the memory `v` from which the insertions started. -/
structure Filling (v : World N E) (G : Multiset RegRef) (w : World N E) (H : Multiset Ref)
    (g : HistoryGraph) : Prop where
  inv : Inv w (g.refs + H) G
  frame : Frame v w
  registry : g.registry ∈ G
  agrees : g.Agrees w
  free : ∀ r, Registrable w g.registry r
  closed : ∀ r, g.Stores r → ∀ p ∈ v.heap.allParents r, g.Stores p

/-- **`insert_ancestors` succeeds** and adds exactly the node and its ancestors. -/
theorem insertAncestors_ok {node : Ref} (h : Filling v G w (node ::ₘ H) g)
    (hnode : node < v.heap.size) :
    ∃ id w' g', g.insertAncestors K w node = .ok (id, w', g') ∧ Filling v G w' H g' ∧
      Grows w w' g g' ∧ g'.nodes.get id = some node ∧
      ∀ x, g'.Stores x ↔ g.Stores x ∨ Reaches v.heap.allParents node x := by
  have hins : Inserting v G (fun _ => False) w (node ::ₘ H) g :=
    ⟨h.inv, h.frame, h.registry, h.agrees, fun _ hr => absurd hr fun h => h,
      fun r hr => Or.inr (h.closed r hr)⟩
  obtain ⟨id, w', g', hres, h', hext, hget, hstores⟩ :=
    insertAncestors_added (K := K) hins hnode fun x _ => h.free x
  refine ⟨id, w', g', hres, ⟨h'.inv, h'.frame, h'.registry, h'.agrees, fun r => ?_,
    fun r hr => (h'.closed r hr).resolve_left fun h => h⟩, hext.toGrows, hget, fun x => ?_⟩
  · rw [hext.registry]
    exact hext.free r (h.free r)
  · rw [hstores, reachesOutside_false]

/-! ### Any graph -/

/-- The graph `g` over `w` has become `g'` over `w'` by adding `n` and its ancestors and nothing
else, each under one id; `id` is that of `n`, and the nodes that the graph or its registry knew
before have kept theirs. -/
structure AncestorsInserted (w : World N E) (g : HistoryGraph) (n : Ref) (id : NodeId)
    (w' : World N E) (g' : HistoryGraph) : Prop where
  id_eq : g'.getNodeId w' n = some id
  stores_iff : ∀ r, g'.Stores r ↔ g.Stores r ∨ Reaches w.heap.allParents n r
  id_unique : ∀ k k' r, g'.nodes.get k = some r → g'.nodes.get k' = some r → k = k'
  stored_id : ∀ k r, g.nodes.get k = some r → g'.nodes.get k = some r
  registered_id : ∀ k r, w.heap.Alive r → (w.registries g.registry).getId w.heap r = some k →
    (w'.registries g'.registry).getId w'.heap r = some k ∧
      (g'.Stores r → g'.nodes.get k = some r)

/-- What a call that returned says about the nodes it was given. -/
theorem registrable_of_insertAncestors {node : Ref} {id : NodeId}
    (hi : Inv w (g.refs + (node ::ₘ H)) G) (hg : g.registry ∈ G) (ha : g.Agrees w)
    (h : g.insertAncestors K w node = .ok (id, w', g')) {x : Ref} (hx : g'.Stores x) :
    Registrable w g.registry x := by
  have hrun : GraphRun AddrSource.lowest K (fun _ => True) w (node ::ₘ H) G g w' H g' :=
    steps_insertAncestors hi hg trivial h
  have hgrow := grows_insertAncestors hi hg ha h
  obtain ⟨k, hk⟩ := hx
  have ht := hgrow.agrees k x hk
  intro R' hslot
  have hkept := Steps.slot_of_some hrun.steps hi hslot (ht.alive (Steps.inv hrun.steps hi))
  have hslot' : some R' = some g'.registry := hkept.symm.trans ht.slot
  rw [Option.some.inj hslot', hgrow.registry]

/-- The graph has grown by the node and its ancestors, so the insertion was complete. -/
theorem ancestorsInserted_of_ok {node : Ref} {id : NodeId}
    (hi : Inv w (g.refs + (node ::ₘ H)) G) (hg : g.registry ∈ G) (ha : g.Agrees w)
    (h : g.insertAncestors K w node = .ok (id, w', g')) (hget : g'.nodes.get id = some node)
    (hstores : ∀ x, g'.Stores x ↔ g.Stores x ∨ Reaches w.heap.allParents node x) :
    AncestorsInserted w g node id w' g' := by
  have hrun : GraphRun AddrSource.lowest K (fun a => a = .register g.registry) w (node ::ₘ H) G g
    w' H g' := steps_insertAncestors hi hg rfl h
  have hi' := Steps.inv hrun.steps hi
  have hgrow := grows_insertAncestors hi hg ha h
  have hnode : w'.heap.Alive node := (hgrow.agrees id node hget).alive hi'
  -- the handle has moved into the graph, so nothing dies
  have hsub : g.refs + (node ::ₘ H) ⊆ g'.refs + H := by
    intro x hx
    rcases Multiset.mem_add.mp hx with hx | hx
    · obtain ⟨k, hk⟩ := mem_refs_iff.mp hx
      exact Multiset.mem_add.mpr (Or.inl (mem_refs_iff.mpr ⟨k, hgrow.mono k x hk⟩))
    · rcases Multiset.mem_cons.mp hx with rfl | hx
      · exact Multiset.mem_add.mpr (Or.inl (mem_refs_iff.mpr ⟨id, hget⟩))
      · exact Multiset.mem_add.mpr (Or.inr hx)
  refine ⟨(hgrow.agrees.getNodeId_eq_some_iff hi' hnode).mpr hget, hstores,
    fun k k' r => hgrow.agrees.id_eq hi', hgrow.mono, fun k r hr hk => ?_⟩
  have hr' := (Steps.frame hrun.steps hi).alive_of_held_subset hi hi' hsub hr
  have hentry := (hi.getId_eq_some_iff (Inv.inUse_of_alive hr)).mp hk
  have hentry' := Steps.entry hrun.steps hi (fun hrem => by cases hrem) hentry hr'
    (hi'.regAlive_of_mem hg)
  rw [← hgrow.registry] at hentry'
  refine ⟨(hi'.getId_eq_some_iff (Inv.inUse_of_alive hr')).mpr hentry', ?_⟩
  rintro ⟨k', hk'⟩
  rwa [(hi'.inverse g'.registry).id_eq hentry' (hgrow.agrees k' r hk').entry]

end HistoryGraph

open HistoryGraph

variable {s : State N E}

/-- **`insert_ancestors` inserts all ancestors exactly when no ancestor is hidden behind a node of
the graph and none has a stale registry cell**, for every graph of every run without
`Registry::remove` and every node none of whose ancestors is registered elsewhere. -/
theorem insertsAncestors_iff_of_run (h : Run A K (Respects NoRemoval) State.init s) {i : GraphRef}
    {g : HistoryGraph} (hg : s.graph i = some g) {n : Ref} (hn : .node n ∈ s.handles)
    (hfree : ∀ x, Reaches s.world.heap.allParents n x →
      ∀ R, s.world.registry x = some R → R = g.registry) :
    (∃ id w' g', g.insertAncestors K s.world n = .ok (id, w', g') ∧
      AncestorsInserted s.world g n id w' g') ↔
    ∀ x, Reaches s.world.heap.allParents n x → ¬ s.world.Stale x ∧
      (g.Stores x ∨ ReachesOutside s.world.heap.allParents g.Stores n x) := by
  have hi := Run.inv h State.inv_init
  have ha := Run.agrees h i g hg
  have hR := State.registry_mem hg
  have hRalive := hi.regAlive_of_graph hg
  obtain ⟨H, hheld⟩ := State.exists_held hg hn
  rw [State.Inv, Config.Inv, State.config, hheld] at hi
  have hlt : n < s.world.heap.size := hi.heap.alive_lt n (hi.heap.alive_of_held (by simp))
  have hstart : Inserting s.world s.regs g.Stores s.world (n ::ₘ H) g :=
    ⟨hi, Frame.refl _, hR, ha, fun _ hr => hr, fun _ hr => Or.inl hr⟩
  constructor
  · rintro ⟨id, w', g', hres, hins⟩
    -- what is stored in the end could be registered at the start
    have hreg : ∀ x, Reaches s.world.heap.allParents n x → Registrable s.world g.registry x :=
      fun x hx => registrable_of_insertAncestors hi hR ha hres ((hins.stores_iff x).mpr (Or.inr hx))
    obtain ⟨id', w'', g'', hres', -, -, -, hstores⟩ :=
      insertAncestors_added (K := K) hstart hlt hreg
    rw [hres] at hres'
    obtain ⟨rfl, rfl, rfl⟩ : id = id' ∧ w' = w'' ∧ g' = g'' := by simpa using hres'
    refine fun x hx => ⟨?_, (hstores x).mp ((hins.stores_iff x).mpr (Or.inr hx))⟩
    rintro ⟨R, hslot, hdead⟩
    exact hdead (hreg x hx R hslot ▸ hRalive)
  · intro hcond
    -- `registry()` forgets a registry that is gone, but the cell does not
    have hreg : ∀ x, Reaches s.world.heap.allParents n x → Registrable s.world g.registry x := by
      intro x hx R hslot
      refine hfree x hx R (World.registry_eq_some_iff.mpr ⟨hslot, ?_⟩)
      by_contra hdead
      exact (hcond x hx).1 ⟨R, hslot, hdead⟩
    obtain ⟨id, w', g', hres, -, -, hget, hstores⟩ :=
      insertAncestors_added (K := K) hstart hlt hreg
    refine ⟨id, w', g', hres, ancestorsInserted_of_ok hi hR ha hres hget fun x => ?_⟩
    rw [hstores]
    exact ⟨fun hx => hx.imp_right ReachesOutside.reaches, fun hx =>
      hx.elim Or.inl fun hx => (hcond x hx).2⟩

/-- A chain of three nodes, of which the first is in a graph. -/
def rootInGraph : State ℕ ℕ :=
  State.init.after [.new 10, .clone 0, .withParents 20 [(0, 1)], .withParents 30 [(1, 2)],
    .graphFromNodes [0]]

/-- The graph stores the far end of the chain only, which hides nothing. -/
theorem insertsAncestors_iff_of_run_rootInGraph : ∃ g, rootInGraph.graph 0 = some g ∧
    ∃ id w' g', g.insertAncestors KeySource.reusing rootInGraph.world 2 = .ok (id, w', g') ∧
      AncestorsInserted rootInGraph.world g 2 id w' g' := by
  have hrun : Run _ _ (Respects NoRemoval) State.init rootInGraph :=
    run_after (by decide) fun op hop _ => respects_noRemoval (by revert op; decide)
  obtain ⟨g, hg⟩ : ∃ g, rootInGraph.graph 0 = some g := ⟨_, rfl⟩
  have hreg : (rootInGraph.graph 0).map HistoryGraph.registry = some 0 := by decide
  have hvalues : (rootInGraph.graph 0).map (fun g => g.nodes.values) = some [0] := by decide
  rw [hg, Option.map_some] at hreg hvalues
  have hstored : ∀ x, g.Stores x ↔ x = 0 := fun x => by
    rw [← mem_refs_iff, HistoryGraph.refs, Option.some.inj hvalues]
    simp
  have hchain : ∀ x, Reaches rootInGraph.world.heap.allParents 2 x → x ∈ [2, 1, 0] := by
    intro x hx
    have hlevels : levels rootInGraph.world.heap.allParents 3 [2] = [2, 1, 0] := by decide
    rw [← hlevels]
    refine (mem_levels_iff (Run.inv hrun State.inv_init).heap.parent_lt (by simp)).mpr
      ⟨2, List.mem_singleton_self 2, hx⟩
  have hcells : ∀ x ∈ [2, 1, 0], rootInGraph.world.heap.slot x = none ∨
      rootInGraph.world.heap.slot x = some 0 := by decide
  have hcell : ∀ x ∈ [2, 1, 0], ∀ R, rootInGraph.world.heap.slot x = some R → R = 0 := by
    intro x hx R hslot
    rcases hcells x hx with hnone | hzero
    · rw [hnone] at hslot
      cases hslot
    · rw [hzero] at hslot
      exact (Option.some.inj hslot).symm
  refine ⟨g, hg, (insertsAncestors_iff_of_run hrun hg (by decide) fun x hx R hR => ?_).mpr
    fun x hx => ⟨?_, ?_⟩⟩
  · rw [hcell x (hchain x hx) R (World.registry_eq_some_iff.mp hR).1, Option.some.inj hreg]
  · rintro ⟨R, hslot, hdead⟩
    obtain rfl := hcell x (hchain x hx) R hslot
    exact hdead (by decide)
  · have hone : ReachesOutside rootInGraph.world.heap.allParents g.Stores 2 1 :=
      Relation.ReflTransGen.single ⟨by decide, by simp [hstored]⟩
    have hmem := hchain x hx
    simp only [List.mem_cons, List.not_mem_nil, or_false] at hmem
    rcases hmem with rfl | rfl | rfl
    · exact Or.inr Relation.ReflTransGen.refl
    · exact Or.inr hone
    · exact Or.inl ((hstored 0).mpr rfl)

/-- A chain of three nodes, of which the middle one is in a graph. -/
def middleInGraph : State ℕ ℕ :=
  State.init.after [.new 10, .withParents 20 [(0, 1)], .clone 1, .withParents 30 [(1, 2)],
    .graphFromNodes [1]]

/-- The root is an ancestor of the node inserted, and is not in the graph afterwards. -/
theorem not_insertsAncestors_middleInGraph :
    Run AddrSource.lowest KeySource.reusing (Respects NoRemoval) State.init middleInGraph ∧
    .node 2 ∈ middleInGraph.handles ∧
    (∀ x < 3, middleInGraph.world.registry x = none ∨ middleInGraph.world.registry x = some 0) ∧
    Reaches middleInGraph.world.heap.allParents 2 0 ∧
    ∃ g, middleInGraph.graph 0 = some g ∧ g.registry = 0 ∧
      ¬ ∃ id w' g', g.insertAncestors KeySource.reusing middleInGraph.world 2 = .ok (id, w', g') ∧
        AncestorsInserted middleInGraph.world g 2 id w' g' := by
  have hroot : Reaches middleInGraph.world.heap.allParents 2 0 :=
    ((Reaches.refl 2).tail (z := 1) (by decide)).tail (by decide)
  refine ⟨run_after (by decide) fun op hop _ => respects_noRemoval (by revert op; decide),
    by decide, by decide, hroot, _, rfl, by decide, ?_⟩
  rintro ⟨id, w', g', hres, hins⟩
  have hvalues : ((middleInGraph.graph 0).bind fun g =>
      (g.insertAncestors KeySource.reusing middleInGraph.world 2).toOption.map
        fun res => res.2.2.nodes.values) = some [1, 2] := by decide
  have hmem := mem_refs_iff.mpr ((hins.stores_iff 0).mpr (Or.inr hroot))
  have hvalues' : some g'.nodes.values = some [1, 2] := by
    rw [← hvalues]
    exact (congrArg
      (fun res => (Except.toOption res).map fun res => res.2.2.nodes.values) hres).symm
  rw [HistoryGraph.refs, Option.some.inj hvalues'] at hmem
  simp at hmem

end Relrc
