import Relrc.Memory.Runs

/-!
# Decoding as a run

`deserialize_nodes` clones references to decoded parents, allocates nodes on top of them and
collects the nodes in a secondary map. Whatever the input, a call that returns is a run of
elementary steps, and no node is collected twice; so the slot map of weak references that
`Registry::from_serialized` builds names distinct nodes.
-/

namespace Relrc

open SlotStore Ancestry Fallible

variable {N E : Type} {A : AddrSource} {K : KeySource} {ok : Access → Prop}
variable {w w' : World N E} {H : Multiset Ref} {G : Multiset RegRef} {X : Exempt}

/-- The strong references collected so far. -/
def Decoding.refs (d : Decoding N E) : Multiset Ref := (d.nodes.values : Multiset Ref)

/-- A decoding function has run, and the collected nodes are still distinct. -/
structure DecodeRun (A : AddrSource) (K : KeySource) (ok : Access → Prop) (d d' : Decoding N E)
    (H : Multiset Ref) (G : Multiset RegRef) : Prop where
  steps : Steps A K ok ⟨d.world, d.refs + H, G⟩ ⟨d'.world, d'.refs + H, G⟩
  nodup : d'.nodes.values.Nodup

namespace Decoding

variable {d d' : Decoding N E} {nodeId : NodeId} {ser : SerializedInnerData N E}

/-- One node: clones of its parents, and an allocation. -/
theorem steps_create (hi : Inv d.world (d.refs + H) G X) (hnd : d.nodes.values.Nodup)
    (h : d.create A nodeId ser = .ok d') : DecodeRun A K ok d d' H G := by
  rw [create] at h
  obtain ⟨parents, hparents, h⟩ := bind_eq_ok_iff.mp h
  obtain rfl := pure_eq_ok_iff.mp h
  have hfound : ∀ p ∈ parents, p.1 ∈ d.nodes.values := by
    intro p hp
    obtain ⟨pe, -, hpe⟩ := exists_of_mem_mapM hparents hp
    obtain ⟨r, hr, hpe⟩ := bind_eq_ok_iff.mp hpe
    obtain rfl := pure_eq_ok_iff.mp hpe
    exact Slots.mem_values.mpr ⟨_, expect_eq_ok_iff.mp hr⟩
  set w1 := d.world.withHeap (d.world.heap.incStrongAll (parents.map Prod.fst)) with hw1
  set node := w1.heap.size with hnode
  have hclone : Steps A K ok ⟨d.world, d.refs + H, G⟩
      ⟨w1, ((parents.map Prod.fst : List Ref) : Multiset Ref) + (d.refs + H), G⟩ := by
    refine steps_incStrongAll fun r hr => ?_
    obtain ⟨p, hp, rfl⟩ := List.mem_map.mp hr
    exact hi.heap.alive_of_held (Multiset.mem_add.mpr (Or.inl (hfound p hp)))
  have hi1 := Steps.inv hclone hi
  -- the new node goes into the map, and what it displaces comes out
  have hval := Slots.values_insert_evicted d.nodes nodeId node
  have halloc : Steps A K ok ⟨w1, ((parents.map Prod.fst : List Ref) : Multiset Ref) +
      (d.refs + H), G⟩ ⟨w1.withParents A ser.value parents,
      ((d.nodes.evicted nodeId node).toList : Multiset Ref) +
        (((d.nodes.insert nodeId node).values : Multiset Ref) + H), G⟩ := by
    rw [← add_assoc ((d.nodes.evicted nodeId node).toList : Multiset Ref),
      add_comm ((d.nodes.evicted nodeId node).toList : Multiset Ref), hval, Multiset.cons_add]
    exact Relation.ReflTransGen.single (.alloc w1 (d.refs + H) G ser.value parents)
  refine ⟨(hclone.trans halloc).trans (steps_dropAll (Steps.inv halloc hi1)), ?_⟩
  have hfresh : node ∉ d.nodes.values := by
    intro hmem
    have halive : w1.heap.Alive node := hi1.heap.alive_of_held
      (Multiset.mem_add.mpr (Or.inr (Multiset.mem_add.mpr (Or.inl hmem))))
    exact Nat.lt_irrefl _ (hi1.heap.alive_lt node halive)
  have hcons : (node ::ₘ (d.nodes.values : Multiset Ref)).Nodup :=
    Multiset.nodup_cons.mpr ⟨hfresh, hnd⟩
  rw [← hval] at hcons
  exact Multiset.coe_nodup.mp (Multiset.nodup_of_le (Multiset.le_add_right _ _) hcons)

/-- A node with all its ancestors, by induction on the fuel. -/
theorem steps_node (n : ℕ) (hi : Inv d.world (d.refs + H) G X) (hnd : d.nodes.values.Nodup)
    (h : node A n d nodeId = .ok d') : DecodeRun A K ok d d' H G := by
  induction n generalizing d d' nodeId with
  | zero => cases h
  | succ n ih =>
    rw [node] at h
    obtain ⟨ser, -, h⟩ := bind_eq_ok_iff.mp h
    obtain ⟨d1, hloop, h⟩ := bind_eq_ok_iff.mp h
    have hrun : DecodeRun A K ok d d1 H G := by
      refine foldlM_partial (I := fun _ (x : Decoding N E) => DecodeRun A K ok d x H G) hloop
        ⟨Relation.ReflTransGen.refl, hnd⟩ ?_
      rintro pe rest da db - ⟨hsteps, hnda⟩ hstep
      split_ifs at hstep
      · obtain rfl := pure_eq_ok_iff.mp hstep
        exact ⟨hsteps, hnda⟩
      · have hrec := ih (Steps.inv hsteps hi) hnda hstep
        exact ⟨hsteps.trans hrec.steps, hrec.nodup⟩
    have hcreate : DecodeRun A K ok d1 d' H G :=
      steps_create (Steps.inv hrun.steps hi) hrun.nodup h
    exact ⟨hrun.steps.trans hcreate.steps, hcreate.nodup⟩

/-- The outer loop decodes one node after the other. -/
theorem steps_loop (n : ℕ) (hi : Inv d.world (d.refs + H) G X) (hnd : d.nodes.values.Nodup)
    (h : loop A n d = .ok d') : DecodeRun A K ok d d' H G := by
  induction n generalizing d with
  | zero =>
    obtain rfl := pure_eq_ok_iff.mp h
    exact ⟨Relation.ReflTransGen.refl, hnd⟩
  | succ n ih =>
    rw [loop] at h
    split at h
    · obtain rfl := pure_eq_ok_iff.mp h
      exact ⟨Relation.ReflTransGen.refl, hnd⟩
    · obtain ⟨d1, hfirst, h⟩ := bind_eq_ok_iff.mp h
      have hnode : DecodeRun A K ok d d1 H G := steps_node _ hi hnd hfirst
      have hrest := ih (Steps.inv hnode.steps hi) hnode.nodup h
      exact ⟨hnode.steps.trans hrest.steps, hrest.nodup⟩

end Decoding

/-- Decoding takes elementary steps, and hands over a reference to each node. -/
theorem steps_deserializeNodes {ser : SlotMap (SerializedInnerData N E)} {nodes : Slots Ref}
    (hi : Inv w H G X) (h : deserializeNodes A w ser = .ok (w', nodes)) :
    Steps A K ok ⟨w, H, G⟩ ⟨w', (nodes.values : Multiset Ref) + H, G⟩ ∧ nodes.values.Nodup := by
  rw [deserializeNodes] at h
  obtain ⟨d, hloop, h⟩ := bind_eq_ok_iff.mp h
  obtain ⟨rfl, rfl⟩ := Prod.mk.inj (pure_eq_ok_iff.mp h)
  have hzero : (⟨w, ser, Slots.empty⟩ : Decoding N E).refs + H = H := by
    simp [Decoding.refs, Slots.values]
  have hrun : DecodeRun A K ok ⟨w, ser, Slots.empty⟩ d H G :=
    Decoding.steps_loop _ (by rwa [hzero]) List.nodup_nil hloop
  refine ⟨?_, hrun.nodup⟩
  have hsteps := hrun.steps
  rwa [hzero] at hsteps

/-- `Registry::from_serialized` returns a new registry over the nodes it returns. -/
theorem steps_registryFromSerialized {ser : SerializedRegistry N E} {R : RegRef}
    {nodes : Slots Ref} (hi : Inv w H G X)
    (h : Registry.fromSerialized A w ser = .ok (R, nodes, w')) :
    Steps A K ok ⟨w, H, G⟩ ⟨w', (nodes.values : Multiset Ref) + H, R ::ₘ G⟩ ∧ w.nregs ≤ R := by
  rw [Registry.fromSerialized] at h
  obtain ⟨⟨w1, nodes1⟩, hnodes, h⟩ := bind_eq_ok_iff.mp h
  obtain ⟨m, hm, h⟩ := bind_eq_ok_iff.mp h
  have hres := pure_eq_ok_iff.mp h
  simp only [Prod.mk.injEq] at hres
  obtain ⟨rfl, rfl, rfl⟩ := hres
  obtain ⟨hsteps, hnd⟩ : Steps A K ok ⟨w, H, G⟩ ⟨w1, (nodes1.values : Multiset Ref) + H, G⟩ ∧ _ :=
    steps_deserializeNodes hi hnodes
  have hi1 := Steps.inv hsteps hi
  have hget : ∀ id r, m.get id = some r → nodes1.get id = some r := by
    intro id r hr
    rw [SlotMap.get_of_traverse hm, Option.bind_eq_some_iff] at hr
    obtain ⟨_, -, hr⟩ := hr
    rwa [toOption_expect] at hr
  have halive : ∀ id r, m.get id = some r → w1.heap.Alive r := fun id r hr =>
    hi1.heap.alive_of_held (Multiset.mem_add.mpr (Or.inl (Slots.mem_values.mpr ⟨id, hget id r hr⟩)))
  refine ⟨hsteps.tail (.allocRegistry _ _ _ _ ?_ ?_), (Steps.frame hsteps hi).nregs_le⟩
  · refine Registry.inverse_fromSlotmap _ _ fun id id' r r' hr hr' haddr => ?_
    obtain rfl := hi1.addr_inj r r' (Or.inl (halive id r hr)) (Or.inl (halive id' r' hr')) haddr
    have hmem := Slots.mem_entries.mpr (hget id r hr)
    have hmem' := Slots.mem_entries.mpr (hget id' r hr')
    exact (Prod.mk.inj (List.inj_on_of_nodup_map hnd hmem hmem' rfl)).1
  · rintro r ⟨id, hr⟩
    exact Or.inl (halive id r hr)

/-! ### Graphs and objects -/

namespace HistoryGraph

/-- The memory once the rebuilt nodes outside the node set are dropped. -/
def withoutOthers (ser : SerializedHistoryGraph N E) (nodes : Slots Ref) (w : World N E) :
    World N E :=
  w.dropAll (nodes.retain fun k _ => k ∉ ser.nodes).values

/-- The rebuilt nodes of the node set. -/
def keptNodes (ser : SerializedHistoryGraph N E) (nodes : Slots Ref) : Slots Ref :=
  nodes.retain fun k _ => k ∈ ser.nodes

/-- The nodes that are not in the graph are dropped. -/
theorem steps_withoutOthers (ser : SerializedHistoryGraph N E) {nodes : Slots Ref}
    (hi : Inv w ((nodes.values : Multiset Ref) + H) G X) :
    Steps A K ok ⟨w, (nodes.values : Multiset Ref) + H, G⟩
      ⟨withoutOthers ser nodes w, ((keptNodes ser nodes).values : Multiset Ref) + H, G⟩ := by
  rw [← Slots.values_retain_add nodes fun k => k ∈ ser.nodes, add_assoc] at hi ⊢
  exact steps_dropAll hi

/-- A graph that is returned was made of the nodes that are kept. -/
theorem of_fromSerialized {ser : SerializedHistoryGraph N E} {g : HistoryGraph}
    (h : HistoryGraph.fromSerialized A K w ser = .ok (w', g)) :
    ∃ R nodes w₁, Registry.fromSerialized A w ser.registry = .ok (R, nodes, w₁) ∧
      HistoryGraph.new K (withoutOthers ser nodes w₁) (keptNodes ser nodes).values R =
        (w', g) := by
  obtain ⟨⟨R, nodes, w₁⟩, hreg, h⟩ := bind_eq_ok_iff.mp h
  obtain ⟨-, -, h⟩ := bind_eq_ok_iff.mp h
  obtain ⟨-, -, h⟩ := bind_eq_ok_iff.mp h
  obtain ⟨-, -, h⟩ := bind_eq_ok_iff.mp h
  exact ⟨R, nodes, w₁, hreg, pure_eq_ok_iff.mp h⟩

end HistoryGraph

namespace World

/-- An object that is returned was taken from a graph. -/
theorem of_fromSerialized {ser : SerializedRelRc N E} {node : Ref}
    (h : w.fromSerialized A K ser = .ok (node, w')) :
    ∃ w₁ g, HistoryGraph.fromSerialized A K w ser.ancestorsGraph = .ok (w₁, g) ∧
      g.nodes.get ser.id = some node ∧ g.drop (w₁.clone node) = w' := by
  obtain ⟨⟨w₁, g⟩, hgraph, h⟩ := bind_eq_ok_iff.mp h
  obtain ⟨node', hnode, h⟩ := bind_eq_ok_iff.mp h
  obtain ⟨rfl, hw⟩ := Prod.mk.inj (pure_eq_ok_iff.mp h)
  exact ⟨w₁, g, hgraph, expect_eq_ok_iff.mp hnode, hw⟩

/-- An object that was written has been inserted into a temporary graph with its ancestors. -/
theorem of_toSerialized {ser : SerializedRelRc N E} {node : Ref} {R : RegRef}
    (h : w.toSerialized K node R = .ok (ser, w')) :
    ∃ w₁ g, HistoryGraph.insertAncestors K ((w.cloneRegistry R).clone node) ⟨Slots.empty, R⟩ node =
        .ok (ser.id, w₁, g) ∧
      g.toSerialized K w₁ = .ok ser.ancestorsGraph ∧ g.drop w₁ = w' := by
  obtain ⟨⟨id, w₁, g⟩, hins, h⟩ := bind_eq_ok_iff.mp h
  obtain ⟨graph, hgraph, h⟩ := bind_eq_ok_iff.mp h
  obtain ⟨rfl, hw⟩ := Prod.mk.inj (pure_eq_ok_iff.mp h)
  exact ⟨w₁, g, hins, hgraph, hw⟩

end World

/-- `HistoryGraph::from_serialized` returns a new graph over a new registry. -/
theorem steps_graphFromSerialized {ser : SerializedHistoryGraph N E} {g : HistoryGraph}
    (hi : Inv w H G X) (h : HistoryGraph.fromSerialized A K w ser = .ok (w', g))
    (hok : ∀ R, w.nregs ≤ R → ok (.register R)) :
    Steps A K ok ⟨w, H, G⟩ ⟨w', g.refs + H, g.registry ::ₘ G⟩ ∧ w.nregs ≤ g.registry := by
  obtain ⟨R, nodes, w1, hreg, hres⟩ := HistoryGraph.of_fromSerialized h
  obtain ⟨hsteps, hle⟩ : Steps A K ok ⟨w, H, G⟩ ⟨w1, (nodes.values : Multiset Ref) + H, R ::ₘ G⟩ ∧
      _ := steps_registryFromSerialized hi hreg
  have hi1 := Steps.inv hsteps hi
  have hdrop : Steps A K ok _ _ := HistoryGraph.steps_withoutOthers ser hi1
  obtain ⟨hnew, hgreg⟩ := steps_graphNew (K := K) (Steps.inv hdrop hi1)
    (Multiset.mem_cons_self R G) (hok R hle)
  rw [hres] at hnew hgreg
  simp only at hgreg
  rw [hgreg]
  exact ⟨(hsteps.trans hdrop).trans hnew, hle⟩

/-- `RelRc::from_serialized` returns one new node reference; graph and registry are gone. -/
theorem steps_fromSerialized {ser : SerializedRelRc N E} {node : Ref} (hi : Inv w H G X)
    (h : World.fromSerialized A K w ser = .ok (node, w'))
    (hok : ∀ R, w.nregs ≤ R → ok (.register R)) :
    Steps A K ok ⟨w, H, G⟩ ⟨w', node ::ₘ H, G⟩ := by
  obtain ⟨w1, g, hgraph, hnode, rfl⟩ := World.of_fromSerialized h
  obtain ⟨hsteps, -⟩ := steps_graphFromSerialized hi hgraph hok
  have hi1 := Steps.inv hsteps hi
  have hstored : node ∈ g.refs := Slots.mem_values.mpr ⟨ser.id, hnode⟩
  have hclone : Steps A K ok ⟨w1, g.refs + H, g.registry ::ₘ G⟩
      ⟨w1.clone node, g.refs + (node ::ₘ H), g.registry ::ₘ G⟩ := by
    rw [Multiset.add_cons]
    exact steps_clone (hi1.heap.alive_of_held (Multiset.mem_add.mpr (Or.inl hstored)))
  exact (hsteps.trans hclone).trans (steps_graphDrop (Steps.inv hclone hi1))

/-- `RelRc::to_serialized` may leave new entries in the registry, and nothing else. -/
theorem steps_toSerialized {ser : SerializedRelRc N E} {node : Ref} {R : RegRef}
    (hi : Inv w H G X) (hnode : w.heap.Alive node) (hR : R ∈ G) (hok : ok (.register R))
    (h : w.toSerialized K node R = .ok (ser, w')) :
    Steps A K ok ⟨w, H, G⟩ ⟨w', H, G⟩ := by
  obtain ⟨w2, g, hins, -, rfl⟩ := World.of_toSerialized h
  have hreg : Steps A K ok ⟨w, H, G⟩ ⟨w.cloneRegistry R, H, R ::ₘ G⟩ :=
    Relation.ReflTransGen.single (.cloneRegistry w H G R (hi.regAlive_of_mem hR))
  have hclone : Steps A K ok ⟨w.cloneRegistry R, H, R ::ₘ G⟩
      ⟨(w.cloneRegistry R).clone node, node ::ₘ H, R ::ₘ G⟩ := steps_clone hnode
  have hsteps := hreg.trans hclone
  have hrun : GraphRun A K ok _ (node ::ₘ H) (R ::ₘ G) ⟨Slots.empty, R⟩ w2 H g :=
    steps_insertAncestors (by rw [HistoryGraph.refs_empty_add]; exact Steps.inv hsteps hi)
      (Multiset.mem_cons_self _ _) hok hins
  have hrun' := hrun.steps
  rw [HistoryGraph.refs_empty_add] at hrun'
  have hregistry : g.registry = R := hrun.registry
  have hi2 := Steps.inv (hsteps.trans hrun') hi
  rw [← hregistry] at hi2
  have hdrop : Steps A K ok _ _ := steps_graphDrop hi2
  rw [hregistry] at hdrop
  exact (hsteps.trans hrun').trans hdrop

end Relrc
