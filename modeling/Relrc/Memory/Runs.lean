import Relrc.Lib.Fallible
import Relrc.Memory.Frame
import Relrc.Model.Allocation
import Relrc.Model.Serialization

/-!
# The library's functions as runs

Each function that writes memory is a run of elementary steps which turns the strong references
it consumes into the ones it returns. Everything proved about `Steps` then holds for it.

Where a function may panic, the run is the one of a call that returns.
-/

namespace Relrc

open SlotStore Ancestry Fallible

variable {N E : Type} {A : AddrSource} {K : KeySource} {ok : Access → Prop}
variable {w w' : World N E} {H : Multiset Ref} {G : Multiset RegRef} {X : Exempt}

/-! ### Dropping and cloning -/

/-- Run a function that gives up one reference over a list of references. -/
private theorem steps_foldl {f : World N E → Ref → World N E} {ps : List Ref}
    (hf : ∀ (w : World N E) H, ∀ p ∈ ps, Inv w (p ::ₘ H) G X →
      Steps A K ok ⟨w, p ::ₘ H, G⟩ ⟨f w p, H, G⟩)
    (hi : Inv w ((ps : Multiset Ref) + H) G X) :
    Steps A K ok ⟨w, (ps : Multiset Ref) + H, G⟩ ⟨ps.foldl f w, H, G⟩ := by
  induction ps generalizing w with
  | nil =>
    rw [Multiset.coe_nil, zero_add]
    exact Relation.ReflTransGen.refl
  | cons p ps ih =>
    rw [← Multiset.cons_coe, Multiset.cons_add] at hi ⊢
    have hfirst := hf w (ps + H) p List.mem_cons_self hi
    have hrest := ih (fun w H q hq => hf w H q (List.mem_cons_of_mem _ hq)) (Steps.inv hfirst hi)
    exact hfirst.trans hrest

/-- Parents are older, so the cascade stays within its bound. -/
private theorem lt_of_mem_releases {n : ℕ} {r p : Ref} (hi : Inv w (r ::ₘ H) G X) (hr : r < n + 1)
    (hp : p ∈ w.releases r) : p < n := by
  rw [World.releases] at hp
  split_ifs at hp
  · exact Nat.lt_of_lt_of_le (hi.heap.parent_lt r p hp) (Nat.le_of_lt_succ hr)
  · exact absurd hp List.not_mem_nil

/-- A cascade gives up one reference after the other. -/
theorem steps_dropAux (n : ℕ) {r : Ref} (hi : Inv w (r ::ₘ H) G X) (hr : r < n) :
    Steps A K ok ⟨w, r ::ₘ H, G⟩ ⟨World.dropAux n w r, H, G⟩ := by
  induction n generalizing w r H with
  | zero => exact absurd hr (Nat.not_lt_zero _)
  | succ n ih =>
    have hrel : Steps A K ok ⟨w, r ::ₘ H, G⟩
        ⟨w.release r, (w.releases r : Multiset Ref) + H, G⟩ := by
      rw [add_comm]
      exact Relation.ReflTransGen.single (.release w H G r)
    refine hrel.trans (steps_foldl
      (fun w H p hp hip => ih hip (lt_of_mem_releases hi hr hp)) ?_)
    exact Steps.inv hrel hi

theorem steps_drop {r : Ref} (hi : Inv w (r ::ₘ H) G X) :
    Steps A K ok ⟨w, r ::ₘ H, G⟩ ⟨w.drop r, H, G⟩ :=
  steps_dropAux (r + 1) hi (Nat.lt_succ_self r)

theorem steps_dropAll {rs : List Ref} (hi : Inv w ((rs : Multiset Ref) + H) G X) :
    Steps A K ok ⟨w, (rs : Multiset Ref) + H, G⟩ ⟨w.dropAll rs, H, G⟩ :=
  steps_foldl (fun _ _ _ _ hip => steps_drop hip) hi

section Cascades

variable {Q : World N E → Prop}

/-- What one drop keeps, many keep. -/
private theorem foldl_rule {f : World N E → Ref → World N E} {ps : List Ref}
    (hf : ∀ (w : World N E) H, ∀ p ∈ ps, Inv w (p ::ₘ H) G X → Q w →
      Inv (f w p) H G X ∧ Q (f w p))
    (hi : Inv w ((ps : Multiset Ref) + H) G X) (hq : Q w) : Q (ps.foldl f w) := by
  induction ps generalizing w with
  | nil => exact hq
  | cons p ps ih =>
    rw [← Multiset.cons_coe, Multiset.cons_add] at hi
    obtain ⟨hi', hq'⟩ := hf w (ps + H) p List.mem_cons_self hi hq
    exact ih (fun w H q hmem => hf w H q (List.mem_cons_of_mem _ hmem)) hi' hq'

/-- What the release of one reference keeps, a cascade keeps. -/
theorem dropAux_rule
    (hQ : ∀ (w : World N E) H r, Inv w (r ::ₘ H) G X → Q w → Q (w.release r)) (n : ℕ) {r : Ref}
    (hi : Inv w (r ::ₘ H) G X) (hr : r < n) (hq : Q w) : Q (World.dropAux n w r) := by
  induction n generalizing w r H with
  | zero => exact absurd hr (Nat.not_lt_zero _)
  | succ n ih =>
    have hreleased := hi.release
    rw [add_comm] at hreleased
    refine foldl_rule (fun v H p hp hip hqv => ⟨?_, ?_⟩) hreleased (hQ w H r hi hq)
    all_goals have hlt := lt_of_mem_releases hi hr hp
    · have hsteps : Steps AddrSource.lowest KeySource.reusing (fun _ => True) _ _ :=
        steps_dropAux n hip hlt
      exact Steps.inv hsteps hip
    · exact ih hip hlt hqv

/-- What giving up a reference keeps, drops keep. -/
theorem dropAll_rule
    (hQ : ∀ (w : World N E) H r, Inv w (r ::ₘ H) G X → Q w → Q (w.release r)) {rs : List Ref}
    (hi : Inv w ((rs : Multiset Ref) + H) G X) (hq : Q w) : Q (w.dropAll rs) := by
  refine foldl_rule (fun v H p _ hip hqv => ⟨?_, ?_⟩) hi hq
  · have hsteps : Steps AddrSource.lowest KeySource.reusing (fun _ => True) _ _ := steps_drop hip
    exact Steps.inv hsteps hip
  · exact dropAux_rule hQ (p + 1) hip (Nat.lt_succ_self p) hqv

end Cascades

theorem steps_clone {r : Ref} (hr : w.heap.Alive r) :
    Steps A K ok ⟨w, H, G⟩ ⟨w.clone r, r ::ₘ H, G⟩ :=
  Relation.ReflTransGen.single (.clone w H G r hr)

theorem steps_incStrongAll {rs : List Ref} (hrs : ∀ r ∈ rs, w.heap.Alive r) :
    Steps A K ok ⟨w, H, G⟩
      ⟨w.withHeap (w.heap.incStrongAll rs), (rs : Multiset Ref) + H, G⟩ := by
  induction rs generalizing w H with
  | nil =>
    rw [Multiset.coe_nil, zero_add]
    exact Relation.ReflTransGen.refl
  | cons r rs ih =>
    have hfirst : Steps A K ok ⟨w, H, G⟩ ⟨w.clone r, r ::ₘ H, G⟩ :=
      steps_clone (hrs r List.mem_cons_self)
    have hrest := ih (w := w.clone r) (H := r ::ₘ H) fun x hx => by
      have hx' := hrs x (List.mem_cons_of_mem _ hx)
      rw [Heap.Alive, World.clone, World.heap_withHeap, Heap.strong_incStrong]
      by_cases hxr : x = r
      · simp [hxr]
      · rw [Function.update_of_ne hxr]
        exact hx'
    rw [← Multiset.cons_coe, Multiset.cons_add, ← Multiset.add_cons]
    exact hfirst.trans hrest

/-! ### Outgoing edges -/

theorem alive_of_upgrade {h : Heap N E} {r t : Ref} (ht : h.upgrade r = some t) : h.Alive t := by
  rw [Heap.upgrade] at ht
  split_ifs at ht with halive
  obtain rfl := Option.some.inj ht
  exact halive

theorem alive_of_upgradeEdge {h : Heap N E} {x : WeakEdge} {e : Edge}
    (he : h.upgradeEdge x = some e) : h.Alive e.target := by
  rw [Heap.upgradeEdge, Option.map_eq_some_iff] at he
  obtain ⟨t, ht, rfl⟩ := he
  exact alive_of_upgrade ht

theorem alive_of_mem_allOutgoing {h : Heap N E} {r : Ref} {e : Edge}
    (he : e ∈ (h.allOutgoing r).1) : h.Alive e.target := by
  obtain ⟨x, -, hx⟩ := List.mem_filterMap.mp he
  exact alive_of_upgradeEdge hx

/-- The list is pruned, and the edges that are returned are clones. -/
theorem steps_allOutgoing (r : Ref) : Steps A K ok ⟨w, H, G⟩
    ⟨(w.allOutgoing r).2,
      (((w.allOutgoing r).1.map Edge.target : List Ref) : Multiset Ref) + H, G⟩ := by
  have hprune : Steps A K ok ⟨w, H, G⟩ ⟨w.withHeap (w.heap.modifyOutgoing r fun out =>
      out.filter fun e => (w.heap.upgradeEdge e).isSome), H, G⟩ :=
    Relation.ReflTransGen.single (.prune w H G r)
  refine hprune.trans (steps_incStrongAll fun x hx => ?_)
  obtain ⟨e, he, rfl⟩ := List.mem_map.mp hx
  have halive : w.heap.Alive e.target := alive_of_mem_allOutgoing (h := w.heap) (r := r) he
  exact halive

/-- The clones are dropped again. -/
theorem steps_nOutgoing (hi : Inv w H G X) (r : Ref) :
    Steps A K ok ⟨w, H, G⟩ ⟨(w.nOutgoing r).2, H, G⟩ := by
  have hout : Steps A K ok ⟨w, H, G⟩ ⟨(w.allOutgoing r).2, _, G⟩ := steps_allOutgoing r
  exact hout.trans (steps_dropAll (Steps.inv hout hi))

/-! ### Graphs -/

/-- The strong references stored in a graph. -/
def HistoryGraph.refs (g : HistoryGraph) : Multiset Ref := (g.nodes.values : Multiset Ref)

theorem HistoryGraph.refs_empty_add (R : RegRef) (H : Multiset Ref) :
    (⟨Slots.empty, R⟩ : HistoryGraph).refs + H = H := by
  simp [HistoryGraph.refs, Slots.values]

/-- A reference goes into the graph, and what it displaces comes out. -/
theorem HistoryGraph.refs_insert (g : HistoryGraph) (id : NodeId) (node : Ref) :
    node ::ₘ (g.refs + H) = ((g.nodes.evicted id node).toList : Multiset Ref) +
      (((g.nodes.insert id node).values : Multiset Ref) + H) := by
  rw [← add_assoc, add_comm ((g.nodes.evicted id node).toList : Multiset Ref),
    Slots.values_insert_evicted, Multiset.cons_add]
  rfl

/-- A node moves into the graph, or is dropped. -/
theorem steps_insertNode {g : HistoryGraph} {node : Ref}
    (hi : Inv w (node ::ₘ (g.refs + H)) G X) (hg : g.registry ∈ G)
    (hok : ok (.register g.registry)) :
    Steps A K ok ⟨w, node ::ₘ (g.refs + H), G⟩
      ⟨(g.insertNode K w node).2.1, (g.insertNode K w node).2.2.refs + H, G⟩ := by
  rw [HistoryGraph.insertNode]
  split
  · exact steps_drop hi
  · have hreg : Steps A K ok ⟨w, node ::ₘ (g.refs + H), G⟩
        ⟨(w.tryRegisterIn K node g.registry).2, node ::ₘ (g.refs + H), G⟩ :=
      Relation.ReflTransGen.single (.register w _ G node g.registry
        (hi.heap.alive_of_held (Multiset.mem_cons_self _ _)) (hi.regAlive_of_mem hg) hok)
    split
    · rename_i w' heq
      rw [heq] at hreg
      exact hreg.trans (steps_drop (Steps.inv hreg hi))
    · rename_i id w' heq
      rw [heq] at hreg
      have hi' := Steps.inv hreg hi
      rw [HistoryGraph.refs_insert g id] at hreg hi' ⊢
      exact hreg.trans (steps_dropAll hi')

theorem registry_insertNode (g : HistoryGraph) (w : World N E) (node : Ref) :
    (g.insertNode K w node).2.2.registry = g.registry := by
  rw [HistoryGraph.insertNode]
  split
  · rfl
  · split <;> rfl

theorem steps_insertNodes {g : HistoryGraph} {nodes : List Ref}
    (hi : Inv w ((nodes : Multiset Ref) + (g.refs + H)) G X) (hg : g.registry ∈ G)
    (hok : ok (.register g.registry)) :
    Steps A K ok ⟨w, (nodes : Multiset Ref) + (g.refs + H), G⟩
      ⟨(g.insertNodes K w nodes).1, (g.insertNodes K w nodes).2.refs + H, G⟩ ∧
    (g.insertNodes K w nodes).2.registry = g.registry := by
  induction nodes generalizing w g with
  | nil =>
    rw [Multiset.coe_nil, zero_add]
    exact ⟨Relation.ReflTransGen.refl, rfl⟩
  | cons node nodes ih =>
    have hmove : ((node :: nodes : List Ref) : Multiset Ref) + (g.refs + H) =
        node ::ₘ (g.refs + ((nodes : Multiset Ref) + H)) := by
      rw [← Multiset.cons_coe, Multiset.cons_add, add_left_comm]
    rw [hmove] at hi ⊢
    have hfirst : Steps A K ok ⟨w, node ::ₘ (g.refs + ((nodes : Multiset Ref) + H)), G⟩
        ⟨(g.insertNode K w node).2.1,
          (nodes : Multiset Ref) + ((g.insertNode K w node).2.2.refs + H), G⟩ := by
      rw [add_left_comm (nodes : Multiset Ref)]
      exact steps_insertNode hi hg hok
    rw [← registry_insertNode (K := K) g w node] at hg hok
    obtain ⟨hrest, hreg⟩ := ih (Steps.inv hfirst hi) hg hok
    exact ⟨hfirst.trans hrest, hreg.trans (registry_insertNode g w node)⟩

/-- A graph function has run: memory and graph have changed in step, over the same registry. -/
structure GraphRun (A : AddrSource) (K : KeySource) (ok : Access → Prop) (w : World N E)
    (H : Multiset Ref) (G : Multiset RegRef) (g : HistoryGraph) (w' : World N E)
    (H' : Multiset Ref) (g' : HistoryGraph) : Prop where
  steps : Steps A K ok ⟨w, g.refs + H, G⟩ ⟨w', g'.refs + H', G⟩
  registry : g'.registry = g.registry

/-- The rule for `insert_ancestors`: what cloning a node, inserting a node and dropping a reference
keep, a call that returns keeps. `I` speaks of the memory, the references outside the graph and
the graph; it has to imply the memory invariant and that no node has changed since `v`. -/
theorem insertAncestorsAux_rule {v : World N E}
    {I : World N E → Multiset Ref → HistoryGraph → Prop}
    (hinv : ∀ w H g, I w H g → Inv w (g.refs + H) G X ∧ Frame v w)
    (hclone : ∀ w H g r, I w H g → w.heap.Alive r → I (w.clone r) (r ::ₘ H) g)
    (hinsert : ∀ w H g r, I w (r ::ₘ H) g →
      I (g.insertNode K w r).2.1 H (g.insertNode K w r).2.2)
    (hdrop : ∀ w H g r, I w (r ::ₘ H) g → I (w.drop r) H g) (n : ℕ) {g g' : HistoryGraph}
    {node : Ref} {id : NodeId} (hnode : node < v.heap.size)
    (h : g.insertAncestorsAux K n w node = .ok (id, w', g')) (hI : I w (node ::ₘ H) g) :
    I w' H g' := by
  induction n generalizing w w' g g' node id H with
  | zero => cases h
  | succ n ih =>
    rw [HistoryGraph.insertAncestorsAux] at h
    obtain ⟨⟨w1, g1⟩, hloop, h⟩ := bind_eq_ok_iff.mp h
    obtain ⟨id', hid, h⟩ := bind_eq_ok_iff.mp h
    obtain ⟨-, rfl, rfl⟩ : id' = id ∧ _ ∧ _ := by simpa using pure_eq_ok_iff.mp h
    have halive : ∀ w g, I w (node ::ₘ H) g → w.heap.Alive node := fun w g hI =>
      (hinv w _ g hI).1.heap.alive_of_held (by simp)
    -- the parents that the loop visits are those the node has had all along
    have hparents : ∀ w g, I w (node ::ₘ H) g → w.heap.allParents node = v.heap.allParents node :=
      fun w g hI => (hinv w _ g hI).2.allParents hnode (halive w g hI)
    have hloopI : I w1 (node ::ₘ H) g1 := by
      refine foldlM_partial (I := fun _ (wg : World N E × HistoryGraph) =>
        I wg.1 (node ::ₘ H) wg.2) hloop hI ?_
      rintro parent rest ⟨wa, ga⟩ ⟨wb, gb⟩ hmem hIa hstep
      simp only at hIa hstep ⊢
      split_ifs at hstep with hc
      · obtain ⟨rfl, rfl⟩ := Prod.mk.inj (pure_eq_ok_iff.mp hstep)
        exact hIa
      · obtain ⟨⟨idb, wb', gb'⟩, hrec, hres⟩ := bind_eq_ok_iff.mp hstep
        obtain ⟨rfl, rfl⟩ := Prod.mk.inj (pure_eq_ok_iff.mp hres)
        rw [hparents w g hI, ← hparents wa ga hIa] at hmem
        have hia := (hinv wa _ ga hIa).1
        have hlt : parent < v.heap.size := (hia.heap.parent_lt node parent hmem).trans hnode
        exact ih hlt hrec (hclone wa _ ga parent hIa (hia.heap.parent_alive hmem))
    exact hdrop _ _ _ node (hinsert _ _ _ node (hclone w1 _ g1 node hloopI (halive w1 g1 hloopI)))

namespace GraphRun

variable {H' : Multiset Ref} {g g' : HistoryGraph} {r : Ref}

theorem clone (h : GraphRun A K ok w H G g w' H' g') (hr : w'.heap.Alive r) :
    GraphRun A K ok w H G g (w'.clone r) (r ::ₘ H') g' := by
  refine ⟨h.steps.trans ?_, h.registry⟩
  rw [Multiset.add_cons]
  exact steps_clone hr

theorem insertNode (h : GraphRun A K ok w H G g w' (r ::ₘ H') g') (hi : Inv w (g.refs + H) G X)
    (hg : g.registry ∈ G) (hok : ok (.register g.registry)) :
    GraphRun A K ok w H G g (g'.insertNode K w' r).2.1 H' (g'.insertNode K w' r).2.2 := by
  have hi' := Steps.inv h.steps hi
  have hreg := h.registry
  refine ⟨h.steps.trans ?_, (registry_insertNode g' w' r).trans hreg⟩
  rw [Multiset.add_cons] at hi' ⊢
  exact steps_insertNode hi' (hreg ▸ hg) (hreg ▸ hok)

theorem drop (h : GraphRun A K ok w H G g w' (r ::ₘ H') g') (hi : Inv w (g.refs + H) G X) :
    GraphRun A K ok w H G g (w'.drop r) H' g' := by
  have hi' := Steps.inv h.steps hi
  refine ⟨h.steps.trans ?_, h.registry⟩
  rw [Multiset.add_cons] at hi' ⊢
  exact steps_drop hi'

end GraphRun

/-- A node is inserted with its ancestors, which are cloned before. -/
theorem steps_insertAncestors {g g' : HistoryGraph} {node : Ref} {id : NodeId}
    (hi : Inv w (g.refs + (node ::ₘ H)) G X) (hg : g.registry ∈ G) (hok : ok (.register g.registry))
    (h : g.insertAncestors K w node = .ok (id, w', g')) :
    GraphRun A K ok w (node ::ₘ H) G g w' H g' :=
  insertAncestorsAux_rule (v := w) (G := G)
    (I := fun w' H' g' => GraphRun A K ok w (node ::ₘ H) G g w' H' g')
    (fun _ _ _ hrun => ⟨Steps.inv hrun.steps hi, Steps.frame hrun.steps hi⟩)
    (fun _ _ _ _ hrun hr => hrun.clone hr) (fun _ _ _ _ hrun => hrun.insertNode hi hg hok)
    (fun _ _ _ _ hrun => hrun.drop hi) (node + 1)
    (hi.heap.alive_lt node (hi.heap.alive_of_held (by simp))) h ⟨Relation.ReflTransGen.refl, rfl⟩

/-- `HistoryGraph::new` turns the given nodes into the graph's. -/
theorem steps_graphNew {nodes : List Ref} {R : RegRef} (hi : Inv w ((nodes : Multiset Ref) + H) G X)
    (hR : R ∈ G) (hok : ok (.register R)) :
    Steps A K ok ⟨w, (nodes : Multiset Ref) + H, G⟩
      ⟨(HistoryGraph.new K w nodes R).1, (HistoryGraph.new K w nodes R).2.refs + H, G⟩ ∧
    (HistoryGraph.new K w nodes R).2.registry = R := by
  rw [← HistoryGraph.refs_empty_add R H] at hi
  have h := steps_insertNodes (A := A) (K := K) hi hR hok
  rwa [HistoryGraph.refs_empty_add] at h

theorem steps_allocRegistry_new (w : World N E) (H : Multiset Ref) (G : Multiset RegRef) :
    Steps A K ok ⟨w, H, G⟩ ⟨w.allocRegistry Registry.new, H, w.nregs ::ₘ G⟩ := by
  refine Relation.ReflTransGen.single (.allocRegistry w H G _ Registry.Inverse.new ?_)
  rintro r ⟨id, hid⟩
  cases hid

/-- A registry is allocated and the nodes are inserted. -/
theorem steps_fromNodes {nodes : List Ref} (hi : Inv w ((nodes : Multiset Ref) + H) G X)
    (hok : ok (.register w.nregs)) :
    Steps A K ok ⟨w, (nodes : Multiset Ref) + H, G⟩ ⟨(HistoryGraph.fromNodes K w nodes).1,
      (HistoryGraph.fromNodes K w nodes).2.refs + H, w.nregs ::ₘ G⟩ ∧
    (HistoryGraph.fromNodes K w nodes).2.registry = w.nregs := by
  have halloc : Steps A K ok _ _ := steps_allocRegistry_new w ((nodes : Multiset Ref) + H) G
  obtain ⟨hsteps, hreg⟩ := steps_graphNew (K := K) (Steps.inv halloc hi)
    (Multiset.mem_cons_self _ _) hok
  exact ⟨halloc.trans hsteps, hreg⟩

theorem steps_graphClone {g : HistoryGraph} (hi : Inv w (g.refs + H) (g.registry ::ₘ G) X) :
    Steps A K ok ⟨w, g.refs + H, g.registry ::ₘ G⟩
      ⟨g.clone w, g.refs + (g.refs + H), g.registry ::ₘ g.registry ::ₘ G⟩ := by
  have hnodes : Steps A K ok ⟨w, g.refs + H, g.registry ::ₘ G⟩
      ⟨w.withHeap (w.heap.incStrongAll g.nodes.values), g.refs + (g.refs + H), g.registry ::ₘ G⟩ :=
    steps_incStrongAll fun r hr => hi.heap.alive_of_held (Multiset.mem_add.mpr (Or.inl hr))
  refine hnodes.tail (.cloneRegistry _ _ _ _ ?_)
  exact (Steps.inv hnodes hi).regAlive_of_mem (Multiset.mem_cons_self _ _)

theorem steps_graphDrop {g : HistoryGraph} (hi : Inv w (g.refs + H) (g.registry ::ₘ G) X) :
    Steps A K ok ⟨w, g.refs + H, g.registry ::ₘ G⟩ ⟨g.drop w, H, G⟩ := by
  have hnodes : Steps A K ok ⟨w, g.refs + H, g.registry ::ₘ G⟩
      ⟨w.dropAll g.nodes.values, H, g.registry ::ₘ G⟩ := steps_dropAll hi
  exact hnodes.tail (.dropRegistry _ _ _ _)

/-- What `outgoing_edges` prunes, and takes for a moment. -/
theorem steps_afterOutgoingEdges (hi : Inv w H G X) (g : HistoryGraph) (u : NodeId) :
    Steps A K ok ⟨w, H, G⟩ ⟨g.afterOutgoingEdges w u, H, G⟩ := by
  rw [HistoryGraph.afterOutgoingEdges]
  split
  · exact steps_nOutgoing hi _
  · exact Relation.ReflTransGen.refl

end Relrc
