import Relrc.Codec.Decode

/-!
# What `from_serialized` returns

`Registry::from_serialized` and `HistoryGraph::from_serialized` succeed on every well-formed
input. The graph stores, under the ids of the file, the rebuilt nodes of its node set: the ids
survive because `insert_node` finds each node in the new registry under the id it was decoded
with.
-/

namespace Relrc

open SlotStore Ancestry Fallible

variable {N E : Type} {A : AddrSource} {K : KeySource}
variable {w w' v : World N E} {H : Multiset Ref} {G : Multiset RegRef}

theorem Rebuilt.frame {ser : SerializedRegistry N E} {nodes : Slots Ref}
    (hr : Rebuilt ser v w nodes) (hf : Frame w w') : Rebuilt ser v w' nodes where
  inj := hr.inj
  mem_iff := hr.mem_iff
  fresh := hr.fresh
  lt k r h := lt_of_lt_of_le (hr.lt k r h) hf.size_le
  encodes k r sd h hk halive :=
    (hr.encodes k r sd h hk (hf.alive r (hr.lt k r h) halive)).frame hf (hr.lt k r h) halive

/-- `Registry::from_serialized` accepts the same inputs; its registry has exactly the rebuilt
nodes. -/
theorem registryFromSerialized_cases (ser : SerializedRegistry N E) (hi : Inv w H G) :
    (ser.WellFormed ∧ ∃ R nodes w', Registry.fromSerialized A w ser = .ok (R, nodes, w') ∧
      Rebuilt ser w w' nodes ∧ ∀ k, (w'.registries R).nodes.get k = nodes.get k) ∨
    ¬ ser.WellFormed ∧ Registry.fromSerialized A w ser = .error .invalidNodeId := by
  rcases deserializeNodes_cases (A := A) ser hi with
    ⟨hwf, w1, nodes, hnodes, hreb⟩ | ⟨hwf, hfail⟩
  · -- every id of the file was decoded, so that each look-up succeeds
    obtain ⟨m, hm⟩ : ∃ m, ((ser.nodes.map fun _ _ => ()).traverse fun k _ =>
        expect Panic.invalidNodeId (nodes.get k)) = .ok m := by
      rw [SlotMap.traverse_eq_ok_iff]
      intro k _ hk
      rw [SlotMap.get_map, Option.map_eq_some_iff] at hk
      obtain ⟨sd, hsd, -⟩ := hk
      obtain ⟨r, hr⟩ := (hreb.mem_iff k).mpr ⟨sd, hsd⟩
      exact ⟨r, expect_eq_ok_iff.mpr hr⟩
    refine Or.inl ⟨hwf, w1.nregs, nodes, w1.allocRegistry (Registry.fromSlotmap w1.heap m),
      bind_eq_ok_iff.mpr ⟨(w1, nodes), hnodes, bind_eq_ok_iff.mpr ⟨m, hm, rfl⟩⟩,
      ⟨hreb.inj, hreb.mem_iff, hreb.fresh, hreb.lt, hreb.encodes⟩, fun k => ?_⟩
    have hreg : (w1.allocRegistry (Registry.fromSlotmap w1.heap m)).registries w1.nregs =
        Registry.fromSlotmap w1.heap m := Function.update_self _ _ _
    have hget : m.get k = nodes.get k := by
      rw [SlotMap.get_of_traverse hm, SlotMap.get_map]
      cases hk : ser.nodes.get k with
      | none =>
        rcases hr : nodes.get k with _ | r
        · rfl
        · obtain ⟨sd, hsd⟩ := (hreb.mem_iff k).mp ⟨r, hr⟩
          rw [hk] at hsd
          cases hsd
      | some sd => exact toOption_expect _ _
    rw [hreg]
    exact hget
  · exact Or.inr ⟨hwf, bind_of_error hfail⟩

namespace HistoryGraph

/-- The graph `g` was restored from `ser`, out of the rebuilt nodes `nodes`. -/
structure Restored (ser : SerializedHistoryGraph N E) (v w : World N E) (g : HistoryGraph)
    (nodes : Slots Ref) : Prop where
  rebuilt : Rebuilt ser.registry v w nodes
  agrees : g.Agrees w
  get_iff : ∀ k r, g.nodes.get k = some r ↔ k ∈ ser.nodes ∧ nodes.get k = some r
  has : ∀ r, (w.registries g.registry).Has r → ∃ k, nodes.get k = some r

namespace Restored

variable {ser : SerializedHistoryGraph N E} {g : HistoryGraph} {nodes : Slots Ref}

/-- The parent links of a live rebuilt node follow the parent ids of the file. -/
theorem mem_parentIds (hr : Restored ser v w g nodes) {k : NodeId} {r p : Ref}
    (hk : nodes.get k = some r) (halive : w.heap.Alive r) (hp : p ∈ w.heap.allParents r) :
    ∃ kp ∈ ser.registry.parentIds k, nodes.get kp = some p := by
  obtain ⟨sd, hsd⟩ := (hr.rebuilt.mem_iff k).mp ⟨r, hk⟩
  obtain ⟨pe, hpe, hnode⟩ := (hr.rebuilt.encodes k r sd hk hsd halive).parent_mem hp
  exact ⟨pe.1, SerializedRegistry.mem_parentIds hsd hpe, hnode⟩

/-- A parent in the file is a parent in memory. -/
theorem exists_parent (hr : Restored ser v w g nodes) {k kp : NodeId} {r : Ref}
    (hk : nodes.get k = some r) (halive : w.heap.Alive r) (hkp : kp ∈ ser.registry.parentIds k) :
    ∃ p ∈ w.heap.allParents r, nodes.get kp = some p := by
  obtain ⟨sd, hsd, pe, hpe, rfl⟩ := SerializedRegistry.exists_of_mem_parentIds hkp
  exact (hr.rebuilt.encodes k r sd hk hsd halive).exists_parent hpe

/-- **A rebuilt node is still alive exactly if its id is reached from the node set**: the graph
holds nothing else, and no node that was there before holds a new one. -/
theorem alive_iff (hr : Restored ser v w g nodes) (hv : Inv v H G)
    (hi : Inv w (g.refs + H) (g.registry ::ₘ G))
    (hsub : ∀ k ∈ ser.nodes, ∃ sd, ser.registry.nodes.get k = some sd) {k : NodeId} {r : Ref}
    (hk : nodes.get k = some r) :
    w.heap.Alive r ↔ ∃ k' ∈ ser.nodes, Reaches ser.registry.parentIds k' k := by
  constructor
  · intro halive
    obtain ⟨x, hx, hxr⟩ := hi.heap.alive_iff_reached.mp halive
    rcases Multiset.mem_add.mp hx with hx | hx
    · have hxalive := hi.heap.alive_of_held (Multiset.mem_add.mpr (Or.inl hx))
      obtain ⟨k', hk'⟩ := mem_refs_iff.mp hx
      obtain ⟨hin, hk'⟩ := (hr.get_iff k' x).mp hk'
      -- along the chain of parents, every node was rebuilt under an id that is reached
      obtain ⟨-, k₁, hk₁, hreach⟩ := Reaches.mem_of_closed
        (S := fun y => w.heap.Alive y ∧
          ∃ ky, nodes.get ky = some y ∧ Reaches ser.registry.parentIds k' ky)
        (fun y ⟨hy, ky, hky, hkr⟩ p hp => by
          obtain ⟨kp, hkp, hnode⟩ := hr.mem_parentIds hky hy hp
          exact ⟨hi.heap.parent_alive hp, kp, hnode, hkr.tail hkp⟩)
        ⟨hxalive, k', hk', Reaches.refl k'⟩ hxr
      rw [hr.rebuilt.inj k k₁ r hk hk₁]
      exact ⟨k', hin, hreach⟩
    · have hold : x < v.heap.size := hv.heap.alive_lt x (hv.heap.alive_of_held hx)
      have hle := hi.heap.le_of_reaches hxr
      exact absurd (lt_of_le_of_lt hle hold) (Nat.not_lt_of_le (hr.rebuilt.fresh k r hk))
  · rintro ⟨k', hin, hreach⟩
    have hstored : ∃ x, nodes.get k' = some x ∧ w.heap.Alive x := by
      obtain ⟨x, hx⟩ := (hr.rebuilt.mem_iff k').mpr (hsub k' hin)
      exact ⟨x, hx, hi.heap.alive_of_held (Multiset.mem_add.mpr
        (Or.inl (mem_refs_iff.mpr ⟨k', (hr.get_iff k' x).mpr ⟨hin, hx⟩⟩)))⟩
    obtain ⟨x, hx, halive⟩ := Reaches.mem_of_closed
      (S := fun k => ∃ x, nodes.get k = some x ∧ w.heap.Alive x)
      (fun k ⟨x, hx, halive⟩ kp hkp => by
        obtain ⟨p, hp, hnode⟩ := hr.exists_parent hx halive hkp
        exact ⟨p, hnode, hi.heap.parent_alive hp⟩) hstored hreach
    obtain rfl := Option.some.inj (hx.symm.trans hk)
    exact halive

end Restored

/-- A new graph made of nodes that the registry has already entered stores them under the ids of
the registry. -/
theorem new_of_entries {R : RegRef} {kept : Slots Ref}
    (hi : Inv w ((kept.values : Multiset Ref) + H) G) (hR : R ∈ G)
    (hentry : ∀ k r, kept.get k = some r → (w.registries R).nodes.get k = some r)
    (hfree : ∀ r ∈ kept.values, Registrable w R r) :
    ∃ w' g, HistoryGraph.new K w kept.values R = (w', g) ∧ Frame w w' ∧
      Grows w w' ⟨Slots.empty, R⟩ g ∧ (∀ k r, g.nodes.get k = some r ↔ kept.get k = some r) ∧
      (∀ k r, (w.registries R).nodes.get k = some r → w'.heap.Alive r →
        (w'.registries R).nodes.get k = some r) ∧
      (∀ k r, (w'.registries R).nodes.get k = some r → (w.registries R).nodes.get k = some r) ∧
      ∀ r R', r ∉ kept.values → w'.heap.slot r = some R' → w.heap.slot r = some R' := by
  obtain ⟨w', g, hnew⟩ : ∃ w' g, HistoryGraph.new K w kept.values R = (w', g) := ⟨_, _, rfl⟩
  have hrun : Steps AddrSource.lowest K (fun a => a = .register R)
      ⟨w, (kept.values : Multiset Ref) + H, G⟩ ⟨w', g.refs + H, G⟩ := by
    obtain ⟨h, -⟩ : Steps AddrSource.lowest K (fun a => a = .register R) _ _ ∧ _ :=
      steps_graphNew hi hR rfl
    rwa [hnew] at h
  have hframe := Steps.frame hrun hi
  have hb := (builtFrom_new_iff (K := K) hi hR).mpr hfree
  rw [hnew] at hb
  have hgrow := grows_insertNodes (K := K) (H := H) (by rwa [refs_empty_add]) hR (agrees_empty R)
  rw [← HistoryGraph.new, hnew] at hgrow
  -- `insert_node` finds the id that the registry has for the node
  have hkept : ∀ k r, kept.get k = some r → g.nodes.get k = some r := by
    intro k r hk
    refine hb.id_kept r (Slots.mem_values.mpr ⟨k, hk⟩) k ?_
    rw [hgrow.registry]
    exact (hi.inverse R).ptr_of_node k r (hentry k r hk)
  have hi' := Steps.inv hrun hi
  have hsame : ∀ k r, (w.registries R).nodes.get k = some r → w'.heap.Alive r →
      (w'.registries R).nodes.get k = some r := fun k r hk hr =>
    Steps.entry hrun hi (fun h => (by cases h)) hk hr (hi'.regAlive_of_mem hR)
  refine ⟨w', g, hnew, hframe, hgrow, fun k r => ⟨fun hk => ?_, hkept k r⟩, hsame,
    fun k r hk => ?_, fun r R' hr hslot => ?_⟩
  · obtain ⟨k', hk'⟩ := Slots.mem_values.mp ((hb.stores_iff r).mp ⟨k, hk⟩)
    rwa [hb.id_unique k k' r hk (hkept k' r hk')]
  · -- a later entry would be of a node that was inserted, and this had one already
    rcases Steps.tracked_or (U := fun k r => (w.registries R).nodes.get k = some r) hrun hi
      (hi.reg_lt R (hi.regAlive_of_mem hR)) (fun h => (by cases h)) (fun h => (by cases h))
      (fun _ _ h => Or.inl h) hk with hold | hslot
    · exact hold
    · obtain ⟨k', hk'⟩ : (w.registries R).Has r := by
        rcases hgrow.has r ⟨k, hk⟩ with hold | ⟨k', hk'⟩
        · exact hold
        · obtain ⟨k'', hk''⟩ := Slots.mem_values.mp ((hb.stores_iff r).mp ⟨k', hk'⟩)
          exact ⟨k'', hentry k'' r hk''⟩
      have hnow := hsame k' r hk' (alive_of_slot hi' hslot)
      rwa [(hi'.inverse R).id_eq hk hnow]
  · refine slot_of_insertNodes (K := K) (H := H) (by rwa [refs_empty_add]) hR (agrees_empty R) hr ?_
    rwa [← HistoryGraph.new, hnew]

section Stages

variable {ser : SerializedHistoryGraph N E} {R : RegRef} {nodes : Slots Ref} {w₁ : World N E}

/-- The nodes of the graph are kept. -/
theorem get_keptNodes {k : NodeId} {r : Ref} :
    (keptNodes ser nodes).get k = some r ↔ nodes.get k = some r ∧ k ∈ ser.nodes := by
  rw [keptNodes, Slots.get_retain_eq_some, decide_eq_true_eq]

/-- The checks pass: the nodes of the node set have been rebuilt, and those that are kept are in the
registry. -/
theorem fromSerialized_eq (hreg : Registry.fromSerialized A w ser.registry = .ok (R, nodes, w₁))
    (hget : ∀ k ∈ ser.nodes, ∃ r, nodes.get k = some r ∧
      (w₁.registries R).nodes.get k = some r ∧ w₁.heap.Alive r)
    (hkept : ∀ r ∈ (keptNodes ser nodes).values,
      ((withoutOthers ser nodes w₁).registries R).contains (withoutOthers ser nodes w₁).heap r) :
    HistoryGraph.fromSerialized A K w ser =
      .ok (HistoryGraph.new K (withoutOthers ser nodes w₁) (keptNodes ser nodes).values R) := by
  refine bind_eq_ok_iff.mpr ⟨(R, nodes, w₁), hreg, ?_⟩
  refine bind_eq_ok_iff.mpr ⟨(), assertThat_eq_ok_iff.mpr (decide_eq_true fun k hk => ?_), ?_⟩
  · obtain ⟨r, hr, -⟩ := hget k hk
    exact Slots.contains_iff.mpr ⟨r, hr⟩
  refine bind_eq_ok_iff.mpr ⟨(), assertThat_eq_ok_iff.mpr (decide_eq_true fun k hk => ?_), ?_⟩
  · obtain ⟨r, -, hentry, halive⟩ := hget k hk
    exact Option.isSome_iff_exists.mpr ⟨r, Registry.get_eq_some_iff.mpr ⟨hentry, halive⟩⟩
  refine bind_eq_ok_iff.mpr ⟨(), assertThat_eq_ok_iff.mpr (List.all_eq_true.mpr hkept), ?_⟩
  rfl

end Stages

/-- **`HistoryGraph::from_serialized` succeeds** when the registry is well-formed and has the ids
of the node set. -/
theorem fromSerialized_ok {ser : SerializedHistoryGraph N E} (hwf : ser.registry.WellFormed)
    (hsub : ∀ k ∈ ser.nodes, ∃ sd, ser.registry.nodes.get k = some sd) (hi : Inv w H G) :
    ∃ w' g nodes, HistoryGraph.fromSerialized A K w ser = .ok (w', g) ∧
      Restored ser w w' g nodes ∧
      (∃ R w1, Registry.fromSerialized A w ser.registry = .ok (R, nodes, w1)) ∧
      (∀ k r, (w'.registries g.registry).nodes.get k = some r → nodes.get k = some r) ∧
      ∀ k r, nodes.get k = some r → w'.heap.Alive r →
        (w'.registries g.registry).nodes.get k = some r ∧
          (k ∉ ser.nodes → w'.heap.slot r = none) := by
  obtain ⟨-, R, nodes, w1, hreg, hreb, hget⟩ :=
    (registryFromSerialized_cases (A := A) ser.registry hi).resolve_right fun h => h.1 hwf
  have hrun1 : Steps A K (fun _ => False) ⟨w, H, G⟩
      ⟨w1, (nodes.values : Multiset Ref) + H, R ::ₘ G⟩ := (steps_registryFromSerialized hi hreg).1
  have hi1 := Steps.inv hrun1 hi
  have hrun2 : Steps A K (fun _ => False) _ _ := steps_withoutOthers ser hi1
  have hi2 := Steps.inv hrun2 hi1
  set kept := keptNodes ser nodes
  set w2 := withoutOthers ser nodes w1
  have hRalive2 : w2.RegAlive R := hi2.regAlive_of_mem (Multiset.mem_cons_self _ _)
  -- a node that is still alive is where it was entered
  have hentry : ∀ k r, nodes.get k = some r → w2.heap.Alive r →
      (w2.registries R).nodes.get k = some r := fun k r hr halive =>
    Steps.entry hrun2 hi1 (fun h => h) (by rw [hget, hr]) halive hRalive2
  have hentry2 : ∀ k r, kept.get k = some r → (w2.registries R).nodes.get k = some r :=
    fun k r hr => hentry k r (get_keptNodes.mp hr).1 (hi2.heap.alive_of_held
      (Multiset.mem_add.mpr (Or.inl (Slots.mem_values.mpr ⟨k, hr⟩))))
  -- no new node has been registered anywhere
  have hcell : ∀ k r, nodes.get k = some r → ∀ R', w2.heap.slot r ≠ some R' := by
    intro k r hk R' hslot
    have hold := (Steps.slot_cases (hrun1.trans hrun2) hi hslot).resolve_right fun h => h
    have hlt : r < w.heap.size := hi.heap.alive_lt r (alive_of_slot hi hold)
    exact absurd hlt (Nat.not_lt_of_le (hreb.fresh k r hk))
  have hfree : ∀ r ∈ kept.values, Registrable w2 R r := by
    intro r hr R' hslot
    obtain ⟨k, hk⟩ := Slots.mem_values.mp hr
    exact absurd hslot (hcell k r (get_keptNodes.mp hk).1 R')
  obtain ⟨w3, g, hnew, hframe, hgrow, hnodes, hentry3, hback3, hslot3⟩ :=
    new_of_entries (K := K) hi2 (Multiset.mem_cons_self R G) hentry2 hfree
  have hback : ∀ k r, (w3.registries g.registry).nodes.get k = some r → nodes.get k = some r := by
    intro k r hk
    rw [hgrow.registry] at hk
    have hlt : R < w1.nregs := hi1.reg_lt R (hi1.regAlive_of_mem (Multiset.mem_cons_self _ _))
    rw [← hget]
    exact (Steps.entry_cases hrun2 hi1 hlt (fun h => h) (hback3 k r hk)).resolve_right fun h => h
  refine ⟨w3, g, nodes, ?_, ⟨hreb.frame ((Steps.frame hrun2 hi1).trans hframe), hgrow.agrees,
    fun k r => ?_, fun r hr => hr.imp fun k => hback k r⟩, ⟨R, w1, hreg⟩, hback,
    fun k r hk hr => ⟨?_, fun hout => ?_⟩⟩
  · rw [← hnew]
    refine fromSerialized_eq hreg (fun k hk => ?_) fun r hr => ?_
    · obtain ⟨r, hr⟩ := (hreb.mem_iff k).mpr (hsub k hk)
      exact ⟨r, hr, by rw [hget, hr], hi1.heap.alive_of_held
        (Multiset.mem_add.mpr (Or.inl (Slots.mem_values.mpr ⟨k, hr⟩)))⟩
    · obtain ⟨k, hk⟩ := Slots.mem_values.mp hr
      exact Option.isSome_iff_exists.mpr ⟨k, (hi2.inverse R).ptr_of_node k r (hentry2 k r hk)⟩
  · rw [hnodes, get_keptNodes, and_comm]
  · have hr2 := hframe.alive r (lt_of_lt_of_le (hreb.lt k r hk) (Steps.frame hrun2 hi1).size_le) hr
    rw [hgrow.registry]
    exact hentry3 k r (hentry k r hk hr2) hr
  · refine Option.eq_none_iff_forall_ne_some.mpr fun R' hslot => hcell k r hk R' ?_
    refine hslot3 r R' (fun hmem => hout ?_) hslot
    obtain ⟨k', hk'⟩ := Slots.mem_values.mp hmem
    obtain ⟨hk', hin⟩ := get_keptNodes.mp hk'
    rwa [hreb.inj k k' r hk hk']

/-- `HistoryGraph::from_serialized` fails on all other inputs. -/
theorem fromSerialized_error {ser : SerializedHistoryGraph N E} (hi : Inv w H G)
    (h : ¬ (ser.registry.WellFormed ∧ ∀ k ∈ ser.nodes, ∃ sd, ser.registry.nodes.get k = some sd)) :
    HistoryGraph.fromSerialized A K w ser = .error .invalidNodeId ∨
      HistoryGraph.fromSerialized A K w ser = .error .assertion := by
  rcases registryFromSerialized_cases (A := A) ser.registry hi with
    ⟨hwf, R, nodes, w1, hreg, hreb, -⟩ | ⟨-, hfail⟩
  · refine Or.inr ?_
    have hassert : assertThat (decide (∀ k ∈ ser.nodes, nodes.contains k = true)) =
        .error .assertion := by
      refine if_neg fun hall => h ⟨hwf, fun k hk => ?_⟩
      exact (hreb.mem_iff k).mp (Slots.contains_iff.mp (of_decide_eq_true hall k hk))
    exact (bind_of_ok hreg).trans (bind_of_error hassert)
  · exact Or.inl (bind_of_error hfail)

end HistoryGraph

/-! ### All inputs -/

/-- The nodes in memory `w` are those that `ser` describes: one live node per id, with the recorded
value, and whose `i`-th incoming edge has the recorded value and as source the node of the `i`-th
parent id. -/
structure DescribedBy (ser : SerializedRegistry N E) (w : World N E) (nodes : Slots Ref) :
    Prop where
  mem_iff : ∀ k, (∃ r, nodes.get k = some r) ↔ ∃ sd, ser.nodes.get k = some sd
  inj : ∀ k k' r, nodes.get k = some r → nodes.get k' = some r → k = k'
  alive : ∀ k r, nodes.get k = some r → w.heap.Alive r
  value : ∀ k r sd, nodes.get k = some r → ser.nodes.get k = some sd →
    w.heap.value r = some sd.value
  nIncoming : ∀ k r sd, nodes.get k = some r → ser.nodes.get k = some sd →
    w.heap.nIncoming r = sd.incoming.length
  incoming : ∀ k r sd, nodes.get k = some r → ser.nodes.get k = some sd → ∀ i pe,
    sd.incoming[i]? = some pe → ∃ e, w.heap.incoming r i = some e ∧ e.value = pe.2 ∧
      nodes.get pe.1 = some e.source

/-- The graph `g` in memory `w` is the one that `ser` describes, out of the nodes `nodes` that were
rebuilt for the ids of its registry. Those of the node set and their ancestors are alive, and each
of these has the recorded value, the recorded incoming edges and the entry of its id. -/
structure HistoryGraph.DescribedBy (ser : SerializedHistoryGraph N E) (w : World N E)
    (g : HistoryGraph) (nodes : Slots Ref) : Prop where
  containsId : ∀ k, g.containsId k = true ↔ k ∈ ser.nodes
  getNode : ∀ k ∈ ser.nodes, g.getNode k = nodes.get k
  mem_iff : ∀ k, (∃ r, nodes.get k = some r) ↔ ∃ sd, ser.registry.nodes.get k = some sd
  inj : ∀ k k' r, nodes.get k = some r → nodes.get k' = some r → k = k'
  alive_iff : ∀ k r, nodes.get k = some r →
    (w.heap.Alive r ↔ ∃ k' ∈ ser.nodes, Reaches ser.registry.parentIds k' k)
  value : ∀ k r sd, nodes.get k = some r → ser.registry.nodes.get k = some sd → w.heap.Alive r →
    w.heap.value r = some sd.value
  nIncoming : ∀ k r sd, nodes.get k = some r → ser.registry.nodes.get k = some sd →
    w.heap.Alive r → w.heap.nIncoming r = sd.incoming.length
  incoming : ∀ k r sd, nodes.get k = some r → ser.registry.nodes.get k = some sd →
    w.heap.Alive r → ∀ i pe, sd.incoming[i]? = some pe →
      ∃ e, w.heap.incoming r i = some e ∧ e.value = pe.2 ∧ nodes.get pe.1 = some e.source
  get_iff : ∀ k r, (w.registries g.registry).get w.heap k = some r ↔
    nodes.get k = some r ∧ w.heap.Alive r
  getId_iff : ∀ k r, w.heap.Alive r →
    ((w.registries g.registry).getId w.heap r = some k ↔ nodes.get k = some r)
  registry : ∀ k r, nodes.get k = some r → w.heap.Alive r →
    w.registry r = if k ∈ ser.nodes then some g.registry else none

/-- The incoming edges of an encoded node are those in the file, in the same order. -/
theorem Encodes.incoming {node : NodeId → Option Ref} {h : Heap N E} {r : Ref}
    {sd : SerializedInnerData N E} (he : Encodes node h r sd) {i : ℕ} {pe : NodeId × E}
    (hi : sd.incoming[i]? = some pe) :
    ∃ e, h.incoming r i = some e ∧ e.value = pe.2 ∧ node pe.1 = some e.source := by
  obtain ⟨hlt, rfl⟩ := List.getElem?_eq_some_iff.mp hi
  have hlt' : i < (h.allIncoming r).length := by rwa [he.2.length_eq]
  obtain ⟨hsource, hvalue⟩ := he.2.get hlt' hlt
  exact ⟨_, List.getElem?_eq_getElem hlt', hvalue.symm, hsource⟩

/-- What has been rebuilt is described by the file. -/
theorem Rebuilt.describedBy {ser : SerializedRegistry N E} {nodes : Slots Ref}
    (hr : Rebuilt ser v w nodes) (hi : Inv w ((nodes.values : Multiset Ref) + H) G) :
    DescribedBy ser w nodes := by
  have halive : ∀ k r, nodes.get k = some r → w.heap.Alive r := fun k r hk =>
    hi.heap.alive_of_held (Multiset.mem_add.mpr (Or.inl (Slots.mem_values.mpr ⟨k, hk⟩)))
  exact ⟨hr.mem_iff, hr.inj, halive,
    fun k r sd hk hsd => (hr.encodes k r sd hk hsd (halive k r hk)).1,
    fun k r sd hk hsd => (hr.encodes k r sd hk hsd (halive k r hk)).2.length_eq,
    fun k r sd hk hsd _ _ => (hr.encodes k r sd hk hsd (halive k r hk)).incoming⟩

/-- `deserialize_nodes` on any input. -/
theorem deserializeNodes_correct (ser : SerializedRegistry N E) (hi : Inv w H G) :
    ((∃ res, deserializeNodes A w ser.nodes = .ok res) ↔ ser.WellFormed) ∧
    (¬ ser.WellFormed → deserializeNodes A w ser.nodes = .error .invalidNodeId) ∧
    ∀ w' nodes, deserializeNodes A w ser.nodes = .ok (w', nodes) → DescribedBy ser w' nodes := by
  rcases deserializeNodes_cases (A := A) ser hi with
    ⟨hwf, w1, nodes, hok, hreb⟩ | ⟨hwf, hfail⟩
  · refine ⟨⟨fun _ => hwf, fun _ => ⟨_, hok⟩⟩, fun hn => absurd hwf hn, fun w' nodes' h => ?_⟩
    obtain ⟨rfl, rfl⟩ := Prod.mk.inj (Except.ok.inj (hok.symm.trans h))
    have hsteps : Steps A KeySource.reusing (fun _ => False) ⟨w, H, G⟩ _ :=
      (steps_deserializeNodes hi hok).1
    exact hreb.describedBy (Steps.inv hsteps hi)
  · rw [hfail]
    refine ⟨⟨fun h => ?_, fun h => absurd h hwf⟩, fun _ => rfl, fun _ _ h => (by cases h)⟩
    obtain ⟨_, h⟩ := h
    cases h

/-- `Registry::from_serialized` on any input. -/
theorem registryFromSerialized_correct (ser : SerializedRegistry N E) (hi : Inv w H G) :
    ((∃ res, Registry.fromSerialized A w ser = .ok res) ↔ ser.WellFormed) ∧
    (¬ ser.WellFormed → Registry.fromSerialized A w ser = .error .invalidNodeId) ∧
    ∀ R nodes w', Registry.fromSerialized A w ser = .ok (R, nodes, w') →
      DescribedBy ser w' nodes ∧ (∀ k, (w'.registries R).get w'.heap k = nodes.get k) ∧
      ∀ k r, nodes.get k = some r ↔
        w'.heap.Alive r ∧ (w'.registries R).getId w'.heap r = some k := by
  rcases registryFromSerialized_cases (A := A) ser hi with
    ⟨hwf, R, nodes, w1, hok, hreb, hget⟩ | ⟨hwf, hfail⟩
  · refine ⟨⟨fun _ => hwf, fun _ => ⟨_, hok⟩⟩, fun hn => absurd hwf hn, fun R' nodes' w' h => ?_⟩
    obtain ⟨rfl, rfl, rfl⟩ : R = R' ∧ nodes = nodes' ∧ w1 = w' := by
      simpa using hok.symm.trans h
    have hsteps : Steps A KeySource.reusing (fun _ => False) ⟨w, H, G⟩ _ :=
      (steps_registryFromSerialized hi hok).1
    have hi1 := Steps.inv hsteps hi
    have hdesc := hreb.describedBy hi1
    refine ⟨hdesc, fun k => Option.ext fun r => ?_, fun k r => ⟨fun hk => ⟨hdesc.alive k r hk, ?_⟩,
      fun hk => ?_⟩⟩
    · rw [Registry.get_eq_some_iff, hget]
      exact and_iff_left_of_imp (hdesc.alive k r)
    · rw [hi1.getId_eq_some_iff (Inv.inUse_of_alive (hdesc.alive k r hk)), hget]
      exact hk
    · rw [hi1.getId_eq_some_iff (Inv.inUse_of_alive hk.1), hget] at hk
      exact hk.2
  · rw [hfail]
    refine ⟨⟨fun h => ?_, fun h => absurd h hwf⟩, fun _ => rfl, fun _ _ _ h => (by cases h)⟩
    obtain ⟨_, h⟩ := h
    cases h

/-- A graph that has been restored is described by the file, in the memory that is returned. -/
theorem HistoryGraph.Restored.describedBy {ser : SerializedHistoryGraph N E} {g : HistoryGraph}
    {nodes : Slots Ref} (hr : Restored ser v w g nodes) (hv : Inv v H G)
    (hi : Inv w (g.refs + H) (g.registry ::ₘ G))
    (hsub : ∀ k ∈ ser.nodes, ∃ sd, ser.registry.nodes.get k = some sd)
    (hback : ∀ k r, (w.registries g.registry).nodes.get k = some r → nodes.get k = some r)
    (hcells : ∀ k r, nodes.get k = some r → w.heap.Alive r →
      (w.registries g.registry).nodes.get k = some r ∧ (k ∉ ser.nodes → w.heap.slot r = none)) :
    DescribedBy ser w g nodes where
  containsId k := by
    rw [HistoryGraph.containsId, Slots.contains_iff]
    constructor
    · rintro ⟨r, hk⟩
      exact ((hr.get_iff k r).mp hk).1
    · intro hk
      obtain ⟨r, hr'⟩ := (hr.rebuilt.mem_iff k).mpr (hsub k hk)
      exact ⟨r, (hr.get_iff k r).mpr ⟨hk, hr'⟩⟩
  getNode k hk := Option.ext fun r => by
    rw [HistoryGraph.getNode, hr.get_iff]
    exact and_iff_right hk
  mem_iff := hr.rebuilt.mem_iff
  inj := hr.rebuilt.inj
  alive_iff _ _ hk := hr.alive_iff hv hi hsub hk
  value k r sd hk hsd halive := (hr.rebuilt.encodes k r sd hk hsd halive).1
  nIncoming k r sd hk hsd halive := (hr.rebuilt.encodes k r sd hk hsd halive).2.length_eq
  incoming k r sd hk hsd halive _ _ := (hr.rebuilt.encodes k r sd hk hsd halive).incoming
  get_iff k r := by
    rw [Registry.get_eq_some_iff]
    exact ⟨fun h => ⟨hback k r h.1, h.2⟩, fun h => ⟨(hcells k r h.1 h.2).1, h.2⟩⟩
  getId_iff k r halive := by
    rw [hi.getId_eq_some_iff (Inv.inUse_of_alive halive)]
    exact ⟨hback k r, fun h => (hcells k r h halive).1⟩
  registry k r hk halive := by
    split_ifs with hin
    · have ht := hr.agrees k r ((hr.get_iff k r).mpr ⟨hin, hk⟩)
      exact World.registry_eq_some_iff.mpr ⟨ht.slot, ht.regAlive hi⟩
    · rw [World.registry, (hcells k r hk halive).2 hin]
      rfl

/-- `HistoryGraph::from_serialized` on any input. -/
theorem graphFromSerialized_correct (ser : SerializedHistoryGraph N E) (hi : Inv w H G) :
    ((∃ res, HistoryGraph.fromSerialized A K w ser = .ok res) ↔ ser.registry.WellFormed ∧
      ∀ k ∈ ser.nodes, ∃ sd, ser.registry.nodes.get k = some sd) ∧
    (HistoryGraph.fromSerialized A K w ser ≠ .error .stackOverflow) ∧
    ∀ w' g, HistoryGraph.fromSerialized A K w ser = .ok (w', g) →
      ∃ R nodes w1, Registry.fromSerialized A w ser.registry = .ok (R, nodes, w1) ∧
        HistoryGraph.DescribedBy ser w' g nodes := by
  by_cases hcond : ser.registry.WellFormed ∧
      ∀ k ∈ ser.nodes, ∃ sd, ser.registry.nodes.get k = some sd
  · obtain ⟨w', g, nodes, hok, hr, ⟨R, w1, hreg⟩, hback, hcells⟩ :=
      HistoryGraph.fromSerialized_ok (A := A) (K := K) hcond.1 hcond.2 hi
    obtain ⟨hsteps, -⟩ : Steps A K (fun _ => True) _ _ ∧ _ :=
      steps_graphFromSerialized hi hok fun _ _ => trivial
    have hdesc := hr.describedBy hi (Steps.inv hsteps hi) hcond.2 hback hcells
    rw [hok]
    refine ⟨⟨fun _ => hcond, fun _ => ⟨_, rfl⟩⟩, fun h => (by cases h), fun _ _ h => ?_⟩
    obtain ⟨rfl, rfl⟩ := Prod.mk.inj (Except.ok.inj h)
    exact ⟨R, nodes, w1, hreg, hdesc⟩
  · have hfail : ∀ res, HistoryGraph.fromSerialized A K w ser ≠ .ok res := by
      intro res hres
      rcases HistoryGraph.fromSerialized_error (A := A) (K := K) hi hcond with hp | hp <;>
        rw [hp] at hres <;> cases hres
    refine ⟨⟨?_, fun h => absurd h hcond⟩, fun h => ?_, fun w' g h => absurd h (hfail _)⟩
    · rintro ⟨res, hres⟩
      exact absurd hres (hfail res)
    rcases HistoryGraph.fromSerialized_error (A := A) (K := K) hi hcond with hp | hp <;>
      rw [hp] at h <;> cases h

variable {P : State N E → Op N E → Prop} {s : State N E}

/-- **The decoder accepts exactly the well-formed inputs and rebuilds what they describe**, in every
state of every run. On any other input it panics; it never recurses without end. -/
theorem decodes_iff_wellFormed_of_run (h : Run A K P State.init s)
    (ser : SerializedHistoryGraph N E) :
    -- `deserialize_nodes`
    (((∃ res, deserializeNodes A s.world ser.registry.nodes = .ok res) ↔
        ser.registry.WellFormed) ∧
      (¬ ser.registry.WellFormed →
        deserializeNodes A s.world ser.registry.nodes = .error .invalidNodeId) ∧
      ∀ w nodes, deserializeNodes A s.world ser.registry.nodes = .ok (w, nodes) →
        DescribedBy ser.registry w nodes) ∧
    -- `Registry::from_serialized`
    (((∃ res, Registry.fromSerialized A s.world ser.registry = .ok res) ↔
        ser.registry.WellFormed) ∧
      (¬ ser.registry.WellFormed →
        Registry.fromSerialized A s.world ser.registry = .error .invalidNodeId) ∧
      ∀ R nodes w, Registry.fromSerialized A s.world ser.registry = .ok (R, nodes, w) →
        DescribedBy ser.registry w nodes ∧
        (∀ k, (w.registries R).get w.heap k = nodes.get k) ∧
        ∀ k r, nodes.get k = some r ↔
          w.heap.Alive r ∧ (w.registries R).getId w.heap r = some k) ∧
    -- `HistoryGraph::from_serialized`
    ((∃ res, HistoryGraph.fromSerialized A K s.world ser = .ok res) ↔ ser.registry.WellFormed ∧
      ∀ k ∈ ser.nodes, ∃ sd, ser.registry.nodes.get k = some sd) ∧
    (HistoryGraph.fromSerialized A K s.world ser ≠ .error .stackOverflow) ∧
    ∀ w g, HistoryGraph.fromSerialized A K s.world ser = .ok (w, g) →
      ∃ R nodes w1, Registry.fromSerialized A s.world ser.registry = .ok (R, nodes, w1) ∧
        HistoryGraph.DescribedBy ser w g nodes := by
  have hi : Inv s.world s.held s.regs := Run.inv h State.inv_init
  exact ⟨deserializeNodes_correct ser.registry hi, registryFromSerialized_correct ser.registry hi,
    graphFromSerialized_correct ser hi⟩

/-- Two ids that are each other's parents. -/
def cyclicFile : SerializedHistoryGraph ℕ ℕ where
  nodes := {⟨1, 1⟩}
  registry := ⟨.ofSlots ((Slots.empty.setSlot 1 (some (1, ⟨10, [(⟨2, 1⟩, 1)]⟩))).setSlot 2
    (some (1, ⟨20, [(⟨1, 1⟩, 2)]⟩)))⟩

theorem decodes_iff_wellFormed_of_run_cyclicFile :
    deserializeNodes AddrSource.lowest parallelEdges.world cyclicFile.registry.nodes =
      .error .invalidNodeId ∧ ¬ cyclicFile.registry.WellFormed := by
  have hrun : Run _ KeySource.reusing (fun _ _ => True) State.init parallelEdges :=
    run_after (by decide) fun _ _ _ => trivial
  have hcycle : ¬ cyclicFile.registry.WellFormed := by
    intro hwf
    refine hwf.acyclic ⟨1, 1⟩ ((Relation.TransGen.single (b := ⟨2, 1⟩) ?_).tail ?_) <;> decide
  exact ⟨(decodes_iff_wellFormed_of_run hrun cyclicFile).1.2.1 hcycle, hcycle⟩

end Relrc
