import Relrc.Graph.Agreement
import Relrc.Traversal

/-!
# What the encoder writes

`HistoryGraph::to_serialized` works on a copy of the registry. It gives ids to the nodes that
`all_ancestors` visits, encodes **every** entry of the copy, and then keeps the entries of the
visited nodes. So it panics exactly when some entry of the copy, visited or not, is dead or has a
parent without an entry (`toSerialized_ok_iff`).

The visited nodes are described without reference to the traversal: the ones that the level order
of the ancestor tree lists before its first repetition (`mem_allAncestors_iff`).
-/

namespace Relrc

open SlotStore Ancestry Fallible

variable {N E : Type} {K : KeySource} {w : World N E} {H : Multiset Ref} {G : Multiset RegRef}

/-! ### Registry copies -/

namespace Registry

/-- A registry, possibly a copy, whose maps are inverse and whose entries are nodes in use. -/
structure Faithful (reg : Registry) (w : World N E) : Prop where
  inverse : reg.Inverse w.heap.addr
  inUse : ∀ r, reg.Has r → w.InUse r

/-- Addresses of nodes in use are distinct, so a lookup by address finds the right node. -/
theorem Faithful.getId_eq_some_iff {reg : Registry} (hf : reg.Faithful w) (hi : Inv w H G) {r : Ref}
    (hr : w.InUse r) {id : NodeId} : reg.getId w.heap r = some id ↔ reg.nodes.get id = some r := by
  constructor
  · intro h
    obtain ⟨x, hx, hxr⟩ := hf.inverse.node_of_ptr _ _ h
    rwa [hi.addr_inj x r (hf.inUse x ⟨id, hx⟩) hr hxr] at hx
  · exact hf.inverse.ptr_of_node id r

/-- A live node may be added to a faithful registry. -/
theorem Faithful.addNode {reg : Registry} (hf : reg.Faithful w) {r : Ref} (hr : w.heap.Alive r) :
    (reg.addNode K w.heap r).2.Faithful w := by
  refine ⟨hf.inverse.addNode K w.heap r, ?_⟩
  rintro x ⟨id, hx⟩
  rcases get_of_addNode K _ _ _ hx with hx | ⟨rfl, -⟩
  · exact hf.inUse x ⟨id, hx⟩
  · exact Or.inl hr

end Registry

/-- Every registry of a memory is faithful. -/
theorem Inv.faithful (hi : Inv w H G) (R : RegRef) : (w.registries R).Faithful w :=
  ⟨hi.inverse R, fun _ ⟨_, hid⟩ => hi.inUse_of_entry hid⟩

/-- `reg'` extends `reg` by the nodes `V`, which have the ids `ids` in it. -/
structure Interned (w : World N E) (reg reg' : Registry) (V : List Ref) (ids : List NodeId) :
    Prop where
  faithful : reg'.Faithful w
  mono : ∀ id r, reg.nodes.get id = some r → reg'.nodes.get id = some r
  has_iff : ∀ r, reg'.Has r ↔ reg.Has r ∨ r ∈ V
  mem_ids : ∀ id, id ∈ ids ↔ ∃ r ∈ V, reg'.nodes.get id = some r

namespace Interned

variable {reg reg' : Registry} {V : List Ref} {ids : List NodeId}

theorem nil (hf : reg.Faithful w) : Interned w reg reg [] [] :=
  ⟨hf, fun _ _ h => h, fun _ => by simp, fun _ => by simp⟩

/-- One more node is interned. -/
theorem snoc (h : Interned w reg reg' V ids) (hi : Inv w H G) {r : Ref} (hr : w.heap.Alive r) :
    Interned w reg (reg'.getIdOrInsert K w.heap r).2 (V ++ [r])
      (ids ++ [(reg'.getIdOrInsert K w.heap r).1]) := by
  rw [Registry.getIdOrInsert_eq]
  have hf := h.faithful.addNode (K := K) hr
  have hmono : ∀ id x, reg'.nodes.get id = some x →
      (reg'.addNode K w.heap r).2.nodes.get id = some x :=
    fun id x => Registry.get_addNode_of_some K reg' w.heap r
  have hnew : (reg'.addNode K w.heap r).2.nodes.get (reg'.addNode K w.heap r).1 = some r :=
    (hf.getId_eq_some_iff hi (Or.inl hr)).mp (Registry.getId_addNode K reg' w.heap r)
  have hold : ∀ id x, x ≠ r → (reg'.addNode K w.heap r).2.nodes.get id = some x →
      reg'.nodes.get id = some x := fun id x hx hid =>
    (Registry.get_of_addNode K _ _ _ hid).resolve_right fun hr => hx hr.1
  refine ⟨hf, fun id x hx => hmono id x (h.mono id x hx), fun x => ?_, fun id => ?_⟩
  · rw [List.mem_append, List.mem_singleton, ← or_assoc, ← h.has_iff]
    constructor
    · rintro ⟨id, hid⟩
      by_cases hx : x = r
      · exact Or.inr hx
      · exact Or.inl ⟨id, hold id x hx hid⟩
    · rintro (⟨id, hid⟩ | rfl)
      · exact ⟨id, hmono id x hid⟩
      · exact ⟨_, hnew⟩
  · rw [List.mem_append, List.mem_singleton, h.mem_ids]
    constructor
    · rintro (⟨x, hx, hid⟩ | rfl)
      · exact ⟨x, List.mem_append_left _ hx, hmono id x hid⟩
      · exact ⟨r, by simp, hnew⟩
    · rintro ⟨x, hx, hid⟩
      by_cases hxr : x = r
      · subst hxr
        exact Or.inr (hf.inverse.id_eq hid hnew)
      · rcases List.mem_append.mp hx with hx | hx
        · exact Or.inl ⟨x, hx, hold id x hxr hid⟩
        · exact absurd (List.mem_singleton.mp hx) hxr

theorem internAll (h : Interned w reg reg' V ids) (hi : Inv w H G) {rs : List Ref}
    (hrs : ∀ r ∈ rs, w.heap.Alive r) :
    Interned w reg (Registry.internAll K w.heap reg' rs).1 (V ++ rs)
      (ids ++ (Registry.internAll K w.heap reg' rs).2) := by
  have hgen : ∀ (rs : List Ref) (acc : Registry × List NodeId) (V : List Ref),
      (∀ r ∈ rs, w.heap.Alive r) → Interned w reg acc.1 V (ids ++ acc.2) →
      Interned w reg (rs.foldl (fun acc node => ((acc.1.getIdOrInsert K w.heap node).2,
        acc.2 ++ [(acc.1.getIdOrInsert K w.heap node).1])) acc).1 (V ++ rs)
        (ids ++ (rs.foldl (fun acc node => ((acc.1.getIdOrInsert K w.heap node).2,
          acc.2 ++ [(acc.1.getIdOrInsert K w.heap node).1])) acc).2) := by
    intro rs
    induction rs with
    | nil =>
      intro acc V _ hacc
      simpa using hacc
    | cons r rs ih =>
      intro acc V hrs hacc
      have hsnoc := hacc.snoc (K := K) hi (hrs r List.mem_cons_self)
      rw [List.append_assoc] at hsnoc
      have hrest := ih ((acc.1.getIdOrInsert K w.heap r).2,
        acc.2 ++ [(acc.1.getIdOrInsert K w.heap r).1]) _
        (fun x hx => hrs x (List.mem_cons_of_mem _ hx)) hsnoc
      simpa using hrest
  exact hgen rs (reg', []) V hrs (by simpa using h)

end Interned

/-! ### Ancestors visited -/

section Visited

/-- The nodes visited from all nodes of the graph. -/
def HistoryGraph.visited (g : HistoryGraph) (w : World N E) : List Ref :=
  g.allNodeIds.flatMap fun k => (g.getNode k).elim [] w.heap.allAncestors

/-- Visited are the nodes that `all_ancestors` lists for some node of the graph. -/
theorem HistoryGraph.mem_visited {g : HistoryGraph} {a : Ref} :
    a ∈ g.visited w ↔ ∃ n, g.Stores n ∧ a ∈ w.heap.allAncestors n := by
  rw [visited, List.mem_flatMap]
  constructor
  · rintro ⟨k, hk, ha⟩
    obtain ⟨n, hn⟩ := Slots.mem_keys.mp hk
    rw [getNode, hn] at ha
    exact ⟨n, ⟨k, hn⟩, ha⟩
  · rintro ⟨n, ⟨k, hk⟩, ha⟩
    refine ⟨k, Slots.mem_keys.mpr ⟨n, hk⟩, ?_⟩
    rw [getNode, hk]
    exact ha

theorem Inv.alive_of_mem_visited (hi : Inv w H G) {g : HistoryGraph}
    (hg : ∀ r, g.Stores r → w.heap.Alive r) {a : Ref} (ha : a ∈ g.visited w) : w.heap.Alive a := by
  obtain ⟨n, hn, han⟩ := HistoryGraph.mem_visited.mp ha
  exact hi.heap.alive_of_reaches (hg n hn) (hi.reaches_of_mem_allAncestors (hg n hn) han)

end Visited

/-! ### Encoding a registry -/

/-- `sd` is what the encoder writes for the node `r` when ids stand for the nodes `node`. -/
def Encodes (node : NodeId → Option Ref) (h : Heap N E) (r : Ref) (sd : SerializedInnerData N E) :
    Prop :=
  h.value r = some sd.value ∧ List.Forall₂ (fun (e : InnerEdgeData E) pe =>
    node pe.1 = some e.source ∧ pe.2 = e.value) (h.allIncoming r) sd.incoming

namespace Encodes

variable {node node' : NodeId → Option Ref} {r : Ref} {sd sd' : SerializedInnerData N E}

/-- An encoding stays one when more nodes have ids. -/
theorem mono {h : Heap N E} (he : Encodes node h r sd)
    (hmono : ∀ pe ∈ sd.incoming, ∀ p, node pe.1 = some p → node' pe.1 = some p) :
    Encodes node' h r sd := by
  have hmem := (List.forall₂_and_left (p := fun pe => pe ∈ sd.incoming) _ _).mpr
    ⟨fun _ hpe => hpe, he.2.flip⟩
  exact ⟨he.1, hmem.flip.imp fun e pe hpe => ⟨hmono pe hpe.1 _ hpe.2.1, hpe.2.2⟩⟩

/-- Nodes that stay alive keep their encoding. -/
theorem frame {w' : World N E} (he : Encodes node w.heap r sd) (hf : Frame w w')
    (hr : r < w.heap.size) (halive : w'.heap.Alive r) : Encodes node w'.heap r sd := by
  refine ⟨(hf.value r hr halive).trans he.1, ?_⟩
  rw [hf.allIncoming r hr halive]
  exact he.2

/-- Where ids stand for different nodes, a node has one encoding. -/
theorem unique {h : Heap N E} (he : Encodes node h r sd) (he' : Encodes node h r sd')
    (hinj : ∀ k k' p, node k = some p → node k' = some p → k = k') : sd = sd' := by
  have hvalue : sd.value = sd'.value := Option.some.inj (he.1.symm.trans he'.1)
  have hincoming : List.Forall₂ Eq sd.incoming sd'.incoming := by
    refine forall₂_of_forall₂ (fun pe pe' e hpe hpe' => ?_) he.2.flip he'.2.flip
    exact Prod.ext (hinj _ _ _ hpe.1 hpe'.1) (hpe.2.trans hpe'.2.symm)
  rw [List.forall₂_eq_eq_eq] at hincoming
  cases sd
  cases sd'
  simp_all

/-- Every parent of an encoded node is written. -/
theorem parent_mem {h : Heap N E} (he : Encodes node h r sd) {p : Ref} (hp : p ∈ h.allParents r) :
    ∃ pe ∈ sd.incoming, node pe.1 = some p := by
  obtain ⟨e, hmem, rfl⟩ := List.mem_map.mp hp
  obtain ⟨pe, hpe, hR⟩ := exists_of_forall₂ he.2 hmem
  exact ⟨pe, hpe, hR.1⟩

/-- Every id that is written as a parent stands for one. -/
theorem exists_parent {h : Heap N E} (he : Encodes node h r sd) {pe : NodeId × E}
    (hpe : pe ∈ sd.incoming) : ∃ p ∈ h.allParents r, node pe.1 = some p := by
  obtain ⟨e, hmem, hR⟩ := exists_of_forall₂ he.2.flip hpe
  exact ⟨e.source, List.mem_map_of_mem hmem, hR.1⟩

end Encodes

namespace Registry

variable {reg : Registry}

theorem Faithful.forall₂_edges_iff (hf : reg.Faithful w) (hi : Inv w H G) {r : Ref}
    {incoming : List (NodeId × E)} :
    List.Forall₂ (fun (e : InnerEdgeData E) pe => (do
        let parentId ← expect Panic.validNode (reg.getId w.heap e.source)
        pure (parentId, e.value)) = .ok pe) (w.heap.allIncoming r) incoming ↔
      List.Forall₂ (fun (e : InnerEdgeData E) pe =>
        reg.nodes.get pe.1 = some e.source ∧ pe.2 = e.value) (w.heap.allIncoming r) incoming := by
  -- parents are alive, so their addresses stand for them
  have hsource : ∀ e ∈ w.heap.allIncoming r, w.InUse e.source := fun e he =>
    Inv.inUse_of_alive (hi.heap.parent_alive (List.mem_map_of_mem he))
  have hiff : ∀ (e : InnerEdgeData E) (pe : NodeId × E), w.InUse e.source →
      ((do let parentId ← expect Panic.validNode (reg.getId w.heap e.source)
           pure (parentId, e.value)) = .ok pe ↔
        reg.nodes.get pe.1 = some e.source ∧ pe.2 = e.value) := by
    intro e pe he
    rw [bind_eq_ok_iff]
    constructor
    · rintro ⟨id, hid, hpe⟩
      obtain rfl := pure_eq_ok_iff.mp hpe
      exact ⟨(hf.getId_eq_some_iff hi he).mp (expect_eq_ok_iff.mp hid), rfl⟩
    · rintro ⟨hid, hval⟩
      refine ⟨pe.1, expect_eq_ok_iff.mpr ((hf.getId_eq_some_iff hi he).mpr hid), ?_⟩
      rw [← hval]
      rfl
  have hand := fun R : InnerEdgeData E → NodeId × E → Prop =>
    List.forall₂_and_left (R := R) (p := fun e => w.InUse e.source) (w.heap.allIncoming r) incoming
  constructor
  · intro h
    exact ((hand _).mpr ⟨hsource, h⟩).imp fun e pe h => (hiff e pe h.1).mp h.2
  · intro h
    exact ((hand _).mpr ⟨hsource, h⟩).imp fun e pe h => (hiff e pe h.1).mpr h.2

theorem Faithful.serializeInnerData_eq_ok_iff (hf : reg.Faithful w) (hi : Inv w H G) {k : NodeId}
    {sd : SerializedInnerData N E} : reg.serializeInnerData w.heap k = .ok sd ↔
      ∃ r, reg.nodes.get k = some r ∧ w.heap.Alive r ∧ Encodes reg.nodes.get w.heap r sd := by
  rw [serializeInnerData, bind_eq_ok_iff]
  constructor
  · rintro ⟨r, hr, h⟩
    obtain ⟨hentry, halive⟩ := get_eq_some_iff.mp (expect_eq_ok_iff.mp hr)
    obtain ⟨data, hdata, h⟩ := bind_eq_ok_iff.mp h
    obtain ⟨incoming, hinc, h⟩ := bind_eq_ok_iff.mp h
    obtain rfl := pure_eq_ok_iff.mp h
    have hdata' := expect_eq_ok_iff.mp hdata
    have hall : w.heap.allIncoming r = data.incoming := by rw [Heap.allIncoming, hdata']
    refine ⟨r, hentry, halive, by rw [Heap.value, hdata']; rfl, ?_⟩
    rw [← hf.forall₂_edges_iff hi, hall]
    exact mapM_eq_ok_iff.mp hinc
  · rintro ⟨r, hentry, halive, hvalue, hinc⟩
    obtain ⟨data, hdata⟩ := Option.ne_none_iff_exists'.mp (hi.heap.data_ne_none halive)
    have hall : w.heap.allIncoming r = data.incoming := by rw [Heap.allIncoming, hdata]
    rw [← hf.forall₂_edges_iff hi, hall] at hinc
    refine ⟨r, expect_eq_ok_iff.mpr (get_eq_some_iff.mpr ⟨hentry, halive⟩), ?_⟩
    refine bind_eq_ok_iff.mpr ⟨data, expect_eq_ok_iff.mpr hdata, ?_⟩
    refine bind_eq_ok_iff.mpr ⟨sd.incoming, mapM_eq_ok_iff.mpr hinc, ?_⟩
    rw [Heap.value, hdata] at hvalue
    rw [Option.some.inj hvalue]
    rfl

/-- A live node can be encoded just when its parents have ids. -/
theorem Faithful.exists_encodes_iff (hi : Inv w H G) {r : Ref} (hr : w.heap.Alive r) :
    (∃ sd, Encodes reg.nodes.get w.heap r sd) ↔ ∀ p ∈ w.heap.allParents r, reg.Has p := by
  constructor
  · rintro ⟨sd, -, hinc⟩ p hp
    obtain ⟨e, he, rfl⟩ := List.mem_map.mp hp
    obtain ⟨pe, -, hpe⟩ := exists_of_forall₂ hinc he
    exact ⟨pe.1, hpe.1⟩
  · intro hall
    obtain ⟨data, hdata⟩ := Option.ne_none_iff_exists'.mp (hi.heap.data_ne_none hr)
    obtain ⟨incoming, hinc⟩ := exists_forall₂ (l := w.heap.allIncoming r)
      (R := fun (e : InnerEdgeData E) (pe : NodeId × E) =>
        reg.nodes.get pe.1 = some e.source ∧ pe.2 = e.value)
      fun e he => by
        obtain ⟨id, hid⟩ := hall e.source (List.mem_map_of_mem he)
        exact ⟨(id, e.value), hid, rfl⟩
    exact ⟨⟨data.value, incoming⟩, by rw [Heap.value, hdata]; rfl, hinc⟩

/-- `Registry::to_serialized` panics unless every entry is alive and its parents have entries. -/
theorem Faithful.toSerialized_ok_iff (hf : reg.Faithful w) (hi : Inv w H G) :
    (∃ ser, reg.toSerialized w.heap = .ok ser) ↔
      ∀ r, reg.Has r → w.heap.Alive r ∧ ∀ p ∈ w.heap.allParents r, reg.Has p := by
  have htraverse : (∃ ser, reg.toSerialized w.heap = .ok ser) ↔
      ∃ m, reg.nodes.traverse (fun k _ => reg.serializeInnerData w.heap k) = .ok m := by
    constructor
    · rintro ⟨ser, h⟩
      obtain ⟨m, hm, -⟩ := bind_eq_ok_iff.mp h
      exact ⟨m, hm⟩
    · rintro ⟨m, hm⟩
      exact ⟨⟨m⟩, bind_eq_ok_iff.mpr ⟨m, hm, rfl⟩⟩
  rw [htraverse, SlotMap.traverse_eq_ok_iff]
  constructor
  · rintro h r ⟨k, hk⟩
    obtain ⟨sd, hsd⟩ := h k r hk
    obtain ⟨r', hr', halive, hsd⟩ := (hf.serializeInnerData_eq_ok_iff hi).mp hsd
    obtain rfl := Option.some.inj (hk.symm.trans hr')
    exact ⟨halive, (exists_encodes_iff hi halive).mp ⟨sd, hsd⟩⟩
  · intro h k r hk
    obtain ⟨halive, hparents⟩ := h r ⟨k, hk⟩
    obtain ⟨sd, hsd⟩ := (exists_encodes_iff hi halive).mpr hparents
    exact ⟨sd, (hf.serializeInnerData_eq_ok_iff hi).mpr ⟨r, hk, halive, hsd⟩⟩

/-- The entries of an encoded registry are the encodings of its nodes. -/
theorem Faithful.get_of_toSerialized (hf : reg.Faithful w) (hi : Inv w H G)
    {ser : SerializedRegistry N E} (h : reg.toSerialized w.heap = .ok ser) {k : NodeId}
    {sd : SerializedInnerData N E} : ser.nodes.get k = some sd ↔
      ∃ r, reg.nodes.get k = some r ∧ w.heap.Alive r ∧ Encodes reg.nodes.get w.heap r sd := by
  obtain ⟨m, hm, h⟩ := bind_eq_ok_iff.mp h
  obtain rfl := pure_eq_ok_iff.mp h
  rw [SlotMap.get_of_traverse hm, Option.bind_eq_some_iff]
  simp only [toOption_eq_some_iff, hf.serializeInnerData_eq_ok_iff hi]
  constructor
  · rintro ⟨-, -, r, hr⟩
    exact ⟨r, hr⟩
  · rintro ⟨r, hr⟩
    exact ⟨r, hr.1, r, hr⟩

end Registry

/-! ### Encoding a graph -/

namespace HistoryGraph

variable {g : HistoryGraph}

/-- The stored nodes are live entries of the registry. -/
def Registered (g : HistoryGraph) (w : World N E) : Prop :=
  ∀ id r, g.nodes.get id = some r →
    (w.registries g.registry).nodes.get id = some r ∧ w.heap.Alive r

/-- A graph that agrees with its registry is registered there. -/
theorem Agrees.registered (ha : g.Agrees w) (hi : Inv w H G) : g.Registered w :=
  fun id r hr => ⟨(ha id r hr).entry, (ha id r hr).alive hi⟩

/-- Registered nodes of a graph are live. -/
theorem Registered.alive (hg : g.Registered w) {r : Ref} (hr : g.Stores r) : w.heap.Alive r := by
  obtain ⟨id, hid⟩ := hr
  exact (hg id r hid).2

theorem collectAncestors_ok (hi : Inv w H G) (hg : g.Registered w) :
    ∃ reg ids, g.collectAncestors K w = .ok (reg, ids) ∧
      Interned w (w.registries g.registry) reg (g.visited w) ids := by
  -- the nodes visited so far belong to the ids that are done
  have hloop := foldlM_total (I := fun rest (acc : Registry × List NodeId) =>
      ∃ done, g.allNodeIds = done ++ rest ∧ Interned w (w.registries g.registry) acc.1
        (done.flatMap fun k => (g.getNode k).elim [] w.heap.allAncestors) acc.2)
    (f := fun (acc : Registry × List NodeId) n => (do
      let node ← expect Panic.invalidNode (acc.1.get w.heap n)
      let res := Registry.internAll K w.heap acc.1 (w.heap.allAncestors node)
      pure (res.1, acc.2 ++ res.2) : Except Panic (Registry × List NodeId)))
    (l := g.allNodeIds) (b := (w.registries g.registry, []))
    ⟨[], rfl, Interned.nil (hi.faithful _)⟩ ?_
  · obtain ⟨⟨reg, ids⟩, hok, done, hdone, hint⟩ := hloop
    rw [List.append_nil] at hdone
    rw [← hdone] at hint
    exact ⟨reg, ids, hok, hint⟩
  · rintro k rest ⟨reg, ids⟩ hk ⟨done, hdone, hint⟩
    obtain ⟨r, hr⟩ := Slots.mem_keys.mp hk
    obtain ⟨hentry, halive⟩ := hg k r hr
    have hget : reg.get w.heap k = some r :=
      Registry.get_eq_some_iff.mpr ⟨hint.mono k r hentry, halive⟩
    refine ⟨_, bind_eq_ok_iff.mpr ⟨r, expect_eq_ok_iff.mpr hget, rfl⟩, done ++ [k], ?_, ?_⟩
    · rw [hdone, List.append_assoc]
      rfl
    · rw [List.flatMap_append, List.flatMap_singleton, getNode, hr]
      exact hint.internAll hi fun a ha =>
        hi.heap.alive_of_reaches halive (hi.reaches_of_mem_allAncestors halive ha)

/-- The condition under which `to_serialized` returns: every entry of the registry is alive, and
every parent of an entry or a visited node is one of these again. -/
def Encodable (g : HistoryGraph) (w : World N E) : Prop :=
  ∀ r, (w.registries g.registry).Has r ∨ r ∈ g.visited w →
    w.heap.Alive r ∧ ∀ p ∈ w.heap.allParents r,
      (w.registries g.registry).Has p ∨ p ∈ g.visited w

/-- `ser` is the graph written with the ids of `reg`, a copy of its registry extended to the
visited nodes. -/
structure Written (w : World N E) (g : HistoryGraph) (reg : Registry)
    (ser : SerializedHistoryGraph N E) : Prop where
  faithful : reg.Faithful w
  mono : ∀ id r, (w.registries g.registry).nodes.get id = some r → reg.nodes.get id = some r
  has_iff : ∀ r, reg.Has r ↔ (w.registries g.registry).Has r ∨ r ∈ g.visited w
  nodes : ser.nodes = g.allNodeIds.toFinset
  get_iff : ∀ k sd, ser.registry.nodes.get k = some sd ↔
    ∃ r ∈ g.visited w, reg.nodes.get k = some r ∧ Encodes reg.nodes.get w.heap r sd

theorem toSerialized_ok_iff (hi : Inv w H G) (hg : g.Registered w) :
    (∃ ser, g.toSerialized K w = .ok ser) ↔ g.Encodable w := by
  obtain ⟨reg, ids, hcol, hint⟩ := collectAncestors_ok (K := K) hi hg
  have hser : (∃ ser, g.toSerialized K w = .ok ser) ↔ ∃ ser, reg.toSerialized w.heap = .ok ser := by
    constructor
    · rintro ⟨ser, h⟩
      obtain ⟨_, hcol', h⟩ := bind_eq_ok_iff.mp h
      obtain rfl := Except.ok.inj (hcol.symm.trans hcol')
      obtain ⟨x, hx, -⟩ := bind_eq_ok_iff.mp h
      exact ⟨x, hx⟩
    · rintro ⟨x, hx⟩
      exact ⟨_, bind_eq_ok_iff.mpr ⟨_, hcol, bind_eq_ok_iff.mpr ⟨x, hx, rfl⟩⟩⟩
  rw [hser, hint.faithful.toSerialized_ok_iff hi]
  simp only [hint.has_iff, Encodable]

/-- What `to_serialized` returns is what `Written` says. -/
theorem written_of_toSerialized (hi : Inv w H G) (hg : g.Registered w)
    {ser : SerializedHistoryGraph N E} (h : g.toSerialized K w = .ok ser) :
    ∃ reg, Written w g reg ser := by
  obtain ⟨reg, ids, hcol, hint⟩ := collectAncestors_ok (K := K) hi hg
  obtain ⟨_, hcol', h⟩ := bind_eq_ok_iff.mp h
  obtain rfl := Except.ok.inj (hcol.symm.trans hcol')
  obtain ⟨x, hx, h⟩ := bind_eq_ok_iff.mp h
  obtain rfl := pure_eq_ok_iff.mp h
  refine ⟨reg, hint.faithful, hint.mono, hint.has_iff, rfl, fun k sd => ?_⟩
  rw [SlotMap.get_retain_eq_some, hint.faithful.get_of_toSerialized hi hx, decide_eq_true_eq,
    hint.mem_ids]
  constructor
  · rintro ⟨⟨r, hr, -, hsd⟩, r', hr', hk⟩
    obtain rfl := Option.some.inj (hr.symm.trans hk)
    exact ⟨r, hr', hr, hsd⟩
  · rintro ⟨r, hr, hk, hsd⟩
    exact ⟨⟨r, hk, hi.alive_of_mem_visited (fun x hx => hg.alive hx) hr, hsd⟩, r, hr, hk⟩

/-- The ids written are those of the visited nodes. -/
theorem Written.mem_keys_iff (hi : Inv w H G) {reg : Registry}
    {ser : SerializedHistoryGraph N E} (hw : Written w g reg ser) (he : g.Encodable w)
    {k : NodeId} : (∃ sd, ser.registry.nodes.get k = some sd) ↔
      ∃ r ∈ g.visited w, reg.nodes.get k = some r := by
  constructor
  · rintro ⟨sd, hsd⟩
    obtain ⟨r, hr, hk, -⟩ := (hw.get_iff k sd).mp hsd
    exact ⟨r, hr, hk⟩
  · rintro ⟨r, hr, hk⟩
    obtain ⟨halive, hparents⟩ := he r (Or.inr hr)
    obtain ⟨sd, hsd⟩ := (Registry.Faithful.exists_encodes_iff hi halive).mpr fun p hp =>
      (hw.has_iff p).mpr (hparents p hp)
    exact ⟨sd, (hw.get_iff k sd).mpr ⟨r, hr, hk, hsd⟩⟩

end HistoryGraph

end Relrc
