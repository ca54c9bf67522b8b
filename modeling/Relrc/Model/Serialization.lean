import Relrc.Model.History

/-!
# Serialization

`serialization.rs`: a graph is written as the set of its node ids and a slot map from ids to
values and parent ids, covering the graph's nodes and their ancestors; decoding rebuilds the
nodes depth-first along parent ids, under the ids they were written with.
-/

namespace Relrc

open SlotStore

/-- The serializable content of a node. -/
structure SerializedInnerData (N E : Type) where
  value : N
  incoming : List (NodeId × E)
deriving DecidableEq

/-- A serializable registry. -/
structure SerializedRegistry (N E : Type) where
  nodes : SlotMap (SerializedInnerData N E)

/-- A serializable history graph. -/
structure SerializedHistoryGraph (N E : Type) where
  nodes : Finset NodeId
  registry : SerializedRegistry N E

/-- A serializable node with its ancestors. -/
structure SerializedRelRc (N E : Type) where
  id : NodeId
  ancestorsGraph : SerializedHistoryGraph N E

variable {N E : Type}

/-! ### Mapping values -/

/-- `SerializedInnerData::map_value`. -/
def SerializedInnerData.mapValue {M : Type} (f : N → M) (data : SerializedInnerData N E) :
    SerializedInnerData M E := ⟨f data.value, data.incoming⟩

/-- `SerializedRegistry::map_nodes`. -/
def SerializedRegistry.mapNodes {M : Type} (f : N → M) (ser : SerializedRegistry N E) :
    SerializedRegistry M E := ⟨ser.nodes.map fun _ v => v.mapValue f⟩

/-! ### Encoding -/

namespace Registry

/-- `SerializedInnerData::serialize_inner_data`. -/
def serializeInnerData (reg : Registry) (h : Heap N E) (nodeId : NodeId) :
    Except Panic (SerializedInnerData N E) := do
  let node ← expect .validNode (reg.get h nodeId)
  let data ← expect .validNode (h.data node)
  let incoming ← data.incoming.mapM fun edge => do
    let parentId ← expect .validNode (reg.getId h edge.source)
    pure (parentId, edge.value)
  pure ⟨data.value, incoming⟩

/-- `Registry::to_serialized`: every entry is encoded, in slot order. -/
def toSerialized (reg : Registry) (h : Heap N E) : Except Panic (SerializedRegistry N E) := do
  let nodes ← reg.nodes.traverse fun k _ => reg.serializeInnerData h k
  pure ⟨nodes⟩

/-- `get_id_or_insert` on a list of nodes, with the ids it returns. -/
def internAll (K : KeySource) (h : Heap N E) (reg : Registry) (nodes : List Ref) :
    Registry × List NodeId :=
  nodes.foldl (fun acc node =>
    let res := acc.1.getIdOrInsert K h node
    (res.2, acc.2 ++ [res.1])) (reg, [])

end Registry

namespace HistoryGraph

/-- The first half of `HistoryGraph::to_serialized`: a copy of the registry in which the
ancestors of the graph's nodes have been given ids, and the list of these ids. The ids of the
graph are visited in the order of `BTreeSet`, which is their slot order. -/
def collectAncestors (K : KeySource) (g : HistoryGraph) (w : World N E) :
    Except Panic (Registry × List NodeId) :=
  g.allNodeIds.foldlM (fun (acc : Registry × List NodeId) n => do
    let node ← expect .invalidNode (acc.1.get w.heap n)
    let res := Registry.internAll K w.heap acc.1 (w.heap.allAncestors node)
    pure (res.1, acc.2 ++ res.2)) (w.registries g.registry, [])

/-- `HistoryGraph::to_serialized`. It works on a copy of the registry and leaves memory as it
was. -/
def toSerialized (K : KeySource) (g : HistoryGraph) (w : World N E) :
    Except Panic (SerializedHistoryGraph N E) := do
  let col ← g.collectAncestors K w
  let ser ← col.1.toSerialized w.heap
  pure ⟨g.allNodeIds.toFinset, ⟨ser.nodes.retain fun k _ => k ∈ col.2⟩⟩

end HistoryGraph

/-- `RelRc::to_serialized` against the registry `R`, of which the caller passes a clone. -/
def World.toSerialized (K : KeySource) (w : World N E) (node : Ref) (R : RegRef) :
    Except Panic (SerializedRelRc N E × World N E) := do
  let history := HistoryGraph.withRegistry K (w.cloneRegistry R) R
  let res ← HistoryGraph.insertAncestors K (history.1.clone node) history.2 node
  let ser ← res.2.2.toSerialized K res.2.1
  pure (⟨res.1, ser⟩, res.2.2.drop res.2.1)

/-! ### Decoding -/

/-- The state of `deserialize_nodes`: memory, the entries still to decode, the nodes decoded. -/
structure Decoding (N E : Type) where
  world : World N E
  serialised : SlotMap (SerializedInnerData N E)
  nodes : Slots Ref

namespace Decoding

/-- The last part of `deserialize_node`: create the node from the decoded parents. -/
def create (A : AddrSource) (d : Decoding N E) (nodeId : NodeId)
    (ser : SerializedInnerData N E) : Except Panic (Decoding N E) := do
  let parents ← ser.incoming.mapM fun pe => do
    let parent ← expect .validDfsOrder (d.nodes.get pe.1)
    pure (parent, pe.2)
  let w := d.world.withHeap (d.world.heap.incStrongAll (parents.map Prod.fst))
  let node := w.heap.size
  let w := w.withParents A ser.value parents
  pure { d with
    world := w.dropAll (d.nodes.evicted nodeId node).toList
    nodes := d.nodes.insert nodeId node }

/-- `deserialize_node`, with a bound on the depth of the recursion. -/
def node (A : AddrSource) : ℕ → Decoding N E → NodeId → Except Panic (Decoding N E)
  | 0, _, _ => .error .stackOverflow
  | n + 1, d, nodeId => do
    let ser ← expect .invalidNodeId (d.serialised.get nodeId)
    let d ← ser.incoming.foldlM (fun (d : Decoding N E) pe =>
      if d.nodes.contains pe.1 then pure d else node A n d pe.1)
      { d with serialised := d.serialised.remove nodeId }
    d.create A nodeId ser

/-- The loop of `deserialize_nodes`: decode the first remaining entry until none is left. Every
round removes at least one entry. -/
def loop (A : AddrSource) : ℕ → Decoding N E → Except Panic (Decoding N E)
  | 0, d => pure d
  | n + 1, d =>
    match d.serialised.keys with
    | [] => pure d
    | nodeId :: _ => do
      let d ← node A (d.serialised.len + 1) d nodeId
      loop A n d

end Decoding

/-- `deserialize_nodes`. -/
def deserializeNodes (A : AddrSource) (w : World N E)
    (serialised : SlotMap (SerializedInnerData N E)) : Except Panic (World N E × Slots Ref) := do
  let d ← Decoding.loop A (serialised.len + 1) ⟨w, serialised, Slots.empty⟩
  pure (d.world, d.nodes)

/-- `Registry::from_serialized`: the new registry, the decoded nodes and the memory. -/
def Registry.fromSerialized (A : AddrSource) (w : World N E) (ser : SerializedRegistry N E) :
    Except Panic (RegRef × Slots Ref × World N E) := do
  let res ← deserializeNodes A w ser.nodes
  let registry ← (ser.nodes.map fun _ _ => ()).traverse fun k _ =>
    expect .invalidNodeId (res.2.get k)
  pure (res.1.nregs, res.2, res.1.allocRegistry (Registry.fromSlotmap res.1.heap registry))

/-- `assert!`. -/
def assertThat (b : Bool) : Except Panic Unit := if b then .ok () else .error .assertion

theorem assertThat_eq_ok_iff {b : Bool} {u : Unit} : assertThat b = .ok u ↔ b = true := by
  cases b with
  | false => exact ⟨fun h => (by cases h), fun h => (by cases h)⟩
  | true => exact ⟨fun _ => rfl, fun _ => rfl⟩

/-- `HistoryGraph::from_serialized`. -/
def HistoryGraph.fromSerialized (A : AddrSource) (K : KeySource) (w : World N E)
    (ser : SerializedHistoryGraph N E) : Except Panic (World N E × HistoryGraph) := do
  let res ← Registry.fromSerialized A w ser.registry
  let allNodes := res.2.1
  let w := res.2.2
  assertThat (∀ k ∈ ser.nodes, allNodes.contains k)
  assertThat (∀ k ∈ ser.nodes, (w.registries res.1).containsId w.heap k)
  let kept := allNodes.retain fun k _ => k ∈ ser.nodes
  let w := w.dropAll (allNodes.retain fun k _ => k ∉ ser.nodes).values
  assertThat (kept.values.all ((w.registries res.1).contains w.heap))
  pure (HistoryGraph.new K w kept.values res.1)

/-- `RelRc::from_serialized`: the node, with one strong reference. -/
def World.fromSerialized (A : AddrSource) (K : KeySource) (w : World N E)
    (ser : SerializedRelRc N E) : Except Panic (Ref × World N E) := do
  let history ← HistoryGraph.fromSerialized A K w ser.ancestorsGraph
  let node ← expect .validNode (history.2.getNode ser.id)
  pure (node, history.2.drop (history.1.clone node))

end Relrc
