import Relrc.Lib.RefCells
import Relrc.Model.Machine

/-!
# The library with its cells

Three fields are behind a `RefCell`: the `outgoing` list and the `registry` of a node, and a
registry that is shared. Here are the functions of the library that borrow one of them or drop a
node, each as an `Action` in which every `borrow()` and `borrow_mut()` of the source is a guard that
is held for as long as the temporary lives in the source. Strong references to nodes are counted as
they come and go, so that the `Drop` hook runs for every temporary, argument, overwritten value and
cascaded ancestor.

Functions that the model has without cells keep their names, in the namespace `Guarded`. A registry
that is owned, and not shared, is read without a guard.
-/

namespace Relrc

open SlotStore RefCells Action

/-- The cells of a program. -/
inductive Cell where
  | outgoing (r : Ref)
  | registry (r : Ref)
  | shared (R : RegRef)
deriving DecidableEq

/-- Programs over the memory. -/
abbrev Act (N E : Type) : Type → Type := Action Cell (World N E) Panic

namespace Guarded

variable {N E : Type} {α : Type}

/-- `Option::expect`. -/
def expect (p : Panic) : Option α → Act N E α
  | some x => pure x
  | none => raise p

/-! ### Counted references -/

/-- `Clone for RelRc`. -/
def clone (r : Ref) : Act N E Unit := write fun w => w.clone r

/-- `RelWeak::upgrade`. -/
def upgrade (r : Ref) : Act N E (Option Ref) := do
  match ← read fun w => w.heap.upgrade r with
  | some r => do
    clone r
    pure (some r)
  | none => pure none

/-- `Weak::upgrade` for a registry. -/
def upgradeRegistry (R : RegRef) : Act N E (Option RegRef) := do
  if ← read fun w => decide (w.RegAlive R) then do
    write fun w => w.cloneRegistry R
    pure (some R)
  else pure none

/-- Drop an `Rc<RefCell<Registry>>`. -/
def dropRegistry (R : RegRef) : Act N E Unit := write fun w => w.dropRegistry R

/-- The second half of `Drop for RelRc`: the registry is borrowed to find the id, and again to
remove it. -/
def freeId (r : Ref) (R : RegRef) : Act N E Unit := do
  match ← upgradeRegistry R with
  | none => pure ()
  | some R => do
    match ← withBorrow (.shared R) (read fun w => (w.registries R).getId w.heap r) with
    | none => dropRegistry R
    | some id => do
      withBorrowMut (.shared R)
        (write fun w => w.setRegistry R ((w.registries R).remove w.heap id))
      dropRegistry R

/-- `Drop for RelRc`. The node's registry cell is borrowed until the end. -/
def dropHook (r : Ref) : Act N E Unit := do
  if 1 < (← read fun w => w.heap.strong r) then pure ()
  else
    withBorrowMut (.registry r) do
      let register ← read fun w => w.heap.slot r
      write fun w => w.withHeap (w.heap.setSlot r none)
      match register with
      | none => pure ()
      | some R => freeId r R

/-- The decrement of `Rc`. With the last reference the node goes, and its incoming edges are
dropped next. -/
def decStrong (r : Ref) : Act N E (List Ref) := do
  let sources ← read fun w => w.releases r
  write fun w => w.withHeap (w.heap.decStrong r)
  pure sources

/-- Drop a strong reference, with the cascade through incoming edges. The first argument bounds the
depth of the cascade. -/
def dropAux : ℕ → Ref → Act N E Unit
  | 0, _ => pure ()
  | n + 1, r => do
    dropHook r
    let sources ← decStrong r
    sources.forM (dropAux n)

/-- Drop a strong reference. -/
def drop (r : Ref) : Act N E Unit := dropAux (r + 1) r

/-- Drop several strong references in order. -/
def dropAll (rs : List Ref) : Act N E Unit := rs.forM drop

/-! ### Nodes -/

/-- `register_outgoing_edges`. -/
def registerOutgoingEdges (incoming : List (InnerEdgeData E)) : Act N E Unit :=
  incoming.zipIdx.forM fun ei =>
    withBorrowMut (.outgoing ei.1.source) (write fun w => w.withHeap
      (w.heap.modifyOutgoing ei.1.source fun out => out ++ [ei.1.downgrade ei.2]))

/-- `RelRc::with_parents`. -/
def withParents (A : AddrSource) (value : N) (parents : List (Ref × E)) : Act N E Ref := do
  let node ← read fun w => w.heap.size
  let incoming := Heap.edgesOf node parents
  write fun w => w.withHeap
    (w.heap.alloc (w.nextAddr A) (InnerData.withIncoming value incoming))
  registerOutgoingEdges incoming
  pure node

/-- `RelRc::registry`. -/
def registry (r : Ref) : Act N E (Option RegRef) :=
  withBorrow (.registry r) do
    match ← read fun w => w.heap.slot r with
    | some R => upgradeRegistry R
    | none => pure none

/-- `RelRc::try_set_register`. The comparison is made under the first guard. -/
def trySetRegister (r : Ref) (R : RegRef) : Act N E Bool := do
  match ← withBorrow (.registry r) (read fun w => (w.heap.slot r).map (· == R)) with
  | some same => pure same
  | none => do
    withBorrowMut (.registry r) (write fun w => w.withHeap (w.heap.setSlot r (some R)))
    pure true

/-- `Registry::add_node`, on a registry that is already borrowed. -/
def addNode (K : KeySource) (R : RegRef) (r : Ref) : Act N E NodeId := do
  let added ← read fun w => (w.registries R).addNode K w.heap r
  write fun w => w.setRegistry R added.2
  pure added.1

/-- `RelRc::try_register_in`. -/
def tryRegisterIn (K : KeySource) (r : Ref) (R : RegRef) : Act N E (Option NodeId) := do
  if ← trySetRegister r R then do
    let id ← withBorrowMut (.shared R) (addNode K R r)
    pure (some id)
  else pure none

/-- `InnerData::all_outgoing_weak`. -/
def allOutgoingWeak (r : Ref) : Act N E (List WeakEdge) :=
  withBorrow (.outgoing r) (read fun w => w.heap.allOutgoingWeak r)

/-- `WeakEdge::upgrade`. -/
def upgradeEdge (e : WeakEdge) : Act N E (Option Edge) := do
  let target ← upgrade e.target
  pure (target.map fun t => ⟨e.index, t⟩)

/-- The closure given to `retain` in `all_outgoing`: the edges so far, and the weak edges that
stay. -/
def retainEdge (acc : List Edge × List WeakEdge) (e : WeakEdge) :
    Act N E (List Edge × List WeakEdge) := do
  match ← upgradeEdge e with
  | some edge => pure (acc.1 ++ [edge], acc.2 ++ [e])
  | none => pure acc

/-- `InnerData::all_outgoing`. -/
def allOutgoing (r : Ref) : Act N E (List Edge) := do
  let _ ← withBorrow (.outgoing r) (read fun w => (w.heap.allOutgoingWeak r).length)
  withBorrowMut (.outgoing r) do
    let out ← read fun w => w.heap.allOutgoingWeak r
    let res ← out.foldlM retainEdge ([], [])
    write fun w => w.withHeap (w.heap.modifyOutgoing r fun _ => res.2)
    pure res.1

/-- `InnerData::n_outgoing`. -/
def nOutgoing (r : Ref) : Act N E ℕ := do
  let edges ← allOutgoing r
  dropAll (edges.map Edge.target)
  pure edges.length

/-- `Clone for InnerData`, into an `Rc` of its own; `none` if there is no such node. The cells are
copied under a guard each. -/
def cloneInner (A : AddrSource) (r : Ref) : Act N E (Option Ref) := do
  match ← read fun w => w.heap.data r with
  | none => pure none
  | some data => do
    write fun w => w.withHeap (w.heap.incStrongAll (data.incoming.map InnerEdgeData.source))
    let outgoing ← withBorrow (.outgoing r) (read fun w => w.heap.allOutgoingWeak r)
    let registry ← withBorrow (.registry r) (read fun w => w.heap.slot r)
    let node ← read fun w => w.heap.size
    write fun w => w.withHeap
      (w.heap.alloc (w.nextAddr A) ⟨data.value, data.incoming, outgoing, registry⟩)
    pure (some node)

/-- Drop an `Rc<InnerData>`, which has no hook. -/
def dropInner (r : Ref) : Act N E Unit := do
  let sources ← decStrong r
  dropAll sources

/-! ### Registries -/

/-- `Registry::get`. -/
def get (reg : Registry) (id : NodeId) : Act N E (Option Ref) :=
  match reg.nodes.get id with
  | some weakRef => upgrade weakRef
  | none => pure none

/-- `Registry::contains_id`: what `get` returns is dropped. -/
def containsId (reg : Registry) (id : NodeId) : Act N E Bool := do
  let node ← get reg id
  dropAll node.toList
  pure node.isSome

/-- The body of the first loop of `Registry::free_node_ids`: what is upgraded is dropped at once. -/
def recordDead (dead : List (NodeId × Ref)) (e : NodeId × Ref) : Act N E (List (NodeId × Ref)) := do
  let node ← upgrade e.2
  dropAll node.toList
  pure (if node.isNone then dead ++ [e] else dead)

/-- The first loop of `Registry::free_node_ids`. -/
def deadEntries (reg : Registry) : Act N E (List (NodeId × Ref)) :=
  reg.nodes.entries.foldlM recordDead []

/-- `Registry::free_node_ids`, on a registry that is already borrowed. -/
def freeNodeIds (R : RegRef) : Act N E ℕ := do
  let reg ← read fun w => w.registries R
  let dead ← deadEntries reg
  let deadPtrs ← read fun w => dead.map fun e => w.heap.asPtr e.2
  let nodes := (dead.map Prod.fst).foldl SlotMap.remove reg.nodes
  write fun w => w.setRegistry R
    ⟨nodes, deadPtrs.foldl (fun m p => Function.update m p none) reg.ptrToId⟩
  pure nodes.len

/-- What the consumer of `Registry::iter` does: ask for the next node, or drop one that it has
got. -/
inductive Consume where
  | next
  | drop (node : Ref)

/-- `Registry::iter`, asked once: the next entry that upgrades. -/
def iterNext : List (NodeId × Ref) → Act N E (Option Ref × List (NodeId × Ref))
  | [] => pure (none, [])
  | e :: entries => do
    match ← upgrade e.2 with
    | some node => pure (some node, entries)
    | none => iterNext entries

/-- `Registry::iter`, consumed: from the entries to come and the nodes that the consumer has got,
the nodes that it keeps. -/
def iter : List Consume → List (NodeId × Ref) → List Ref → Act N E (List Ref)
  | [], _, kept => pure kept
  | .next :: script, entries, kept => do
    let res ← iterNext entries
    iter script res.2 (kept ++ res.1.toList)
  | .drop node :: script, entries, kept =>
    if node ∈ kept then do
      drop node
      iter script entries (kept.erase node)
    else iter script entries kept

/-- What `serialize_inner_data` reads of a node. -/
def readNode (reg : Registry) (node : Ref) : Act N E (SerializedInnerData N E) := do
  let data ← expect .validNode (← read fun w => w.heap.data node)
  let incoming ← data.incoming.mapM fun edge => do
    let parentId ← expect .validNode (← read fun w => reg.getId w.heap edge.source)
    pure (parentId, edge.value)
  pure ⟨data.value, incoming⟩

/-- `SerializedInnerData::serialize_inner_data`. The node is dropped in the end. -/
def serializeInnerData (reg : Registry) (nodeId : NodeId) :
    Act N E (SerializedInnerData N E) := do
  let node ← expect .validNode (← get reg nodeId)
  ensuring (readNode reg node) (drop node)

/-- `Registry::to_serialized`. -/
def registryToSerialized (reg : Registry) : Act N E (SerializedRegistry N E) := do
  let nodes ← reg.nodes.traverseM fun k _ => serializeInnerData reg k
  pure ⟨nodes⟩

/-! ### Graphs -/

section Graphs

variable (g : HistoryGraph)

/-- `HistoryGraph::get_node_id`. -/
def getNodeId (node : Ref) : Act N E (Option NodeId) := do
  match ← withBorrow (.shared g.registry)
    (read fun w => (w.registries g.registry).getId w.heap node) with
  | some id => pure (if g.nodes.contains id then some id else none)
  | none => pure none

/-- `HistoryGraph::contains`. -/
def contains (node : Ref) : Act N E Bool := do
  match ← withBorrow (.shared g.registry)
    (read fun w => (w.registries g.registry).getId w.heap node) with
  | some id => pure (g.containsId id)
  | none => pure false

/-- `HistoryGraph::get_edge`. -/
def getEdge (e : EdgeId) : Act N E (Option (InnerEdgeData E)) :=
  match g.getNode e.target with
  | none => pure none
  | some node => do
    match ← read fun w => w.heap.incoming node e.index with
    | none => pure none
    | some edge => do
      let inside ← contains g edge.source
      pure (if inside then some edge else none)

/-- `HistoryGraph::contains_edge`. -/
def containsEdge (e : EdgeId) : Act N E Bool := do
  let edge ← getEdge g e
  pure edge.isSome

/-- `HistoryGraph::source`. -/
def source (e : EdgeId) : Act N E (Option NodeId) := do
  match ← getEdge g e with
  | some edge => getNodeId g edge.source
  | none => pure none

/-- `HistoryGraph::target`. -/
def target (e : EdgeId) : Act N E (Option NodeId) := do
  let inside ← containsEdge g e
  pure (if inside then some e.target else none)

/-- The closure of `HistoryGraph::outgoing_edges`, which owns the edge. -/
def mapNodeId (e : Edge) : Act N E (Option EdgeId) := do
  let id ← getNodeId g e.target
  drop e.target
  pure (id.map fun target => ⟨target, e.index⟩)

/-- `HistoryGraph::outgoing_edges`, consumed. -/
def outgoingEdges (u : NodeId) : Act N E (List EdgeId) :=
  match g.getNode u with
  | some node => do
    let edges ← allOutgoing node
    edges.foldlM (fun ids e => do
      let id ← mapNodeId g e
      pure (ids ++ id.toList)) []
  | none => pure []

variable (K : KeySource)

/-- `HistoryGraph::insert_node`. -/
def insertNode (node : Ref) : Act N E (Option NodeId × HistoryGraph) := do
  match ← getNodeId g node with
  | some id => do
    drop node
    pure (some id, g)
  | none => do
    match ← tryRegisterIn K node g.registry with
    | none => do
      drop node
      pure (none, g)
    | some id => do
      dropAll (g.nodes.evicted id node).toList
      pure (some id, { g with nodes := g.nodes.insert id node })

/-- The loop body of `insert_ancestors`, given the recursive call. -/
def insertMissing (insert : HistoryGraph → Ref → Act N E (NodeId × HistoryGraph))
    (g : HistoryGraph) (parent : Ref) : Act N E HistoryGraph := do
  if ← contains g parent then pure g
  else do
    clone parent
    let res ← insert g parent
    pure res.2

/-- The body of `insert_ancestors`, given the recursive call. -/
def insertBelow (insert : HistoryGraph → Ref → Act N E (NodeId × HistoryGraph))
    (g : HistoryGraph) (node : Ref) : Act N E (NodeId × HistoryGraph) := do
  let parents ← read fun w => w.heap.allParents node
  let g ← parents.foldlM (insertMissing insert) g
  clone node
  let res ← insertNode g K node
  let id ← expect .nodeNotRegistered res.1
  pure (id, res.2)

/-- `HistoryGraph::insert_ancestors`, with a bound on the depth of the recursion. The node is
dropped in the end, also if an insertion panics. -/
def insertAncestorsAux : ℕ → HistoryGraph → Ref → Act N E (NodeId × HistoryGraph)
  | 0, _, _ => raise .stackOverflow
  | n + 1, g, node => ensuring (insertBelow K (insertAncestorsAux n) g node) (drop node)

/-- `HistoryGraph::insert_ancestors`. -/
def insertAncestors (node : Ref) : Act N E (NodeId × HistoryGraph) :=
  insertAncestorsAux K (node + 1) g node

/-- `HistoryGraph::new`. -/
def graphNew (nodes : List Ref) (R : RegRef) : Act N E HistoryGraph :=
  nodes.foldlM (fun g node => do
    let res ← insertNode g K node
    pure res.2) ⟨Slots.empty, R⟩

/-- `HistoryGraph::from_nodes`. -/
def fromNodes (nodes : List Ref) : Act N E HistoryGraph := do
  let R ← read fun w => w.nregs
  write fun w => w.allocRegistry Registry.new
  graphNew K nodes R

/-- Drop a graph. -/
def graphDrop : Act N E Unit := do
  dropAll g.nodes.values
  dropRegistry g.registry

/-- The closure of `HistoryGraph::to_serialized`: a node of the graph is looked up in the copy of
the registry, and dropped again. -/
def internAncestors (acc : Registry × List NodeId) (n : NodeId) :
    Act N E (Registry × List NodeId) := do
  let node ← expect .invalidNode (← get acc.1 n)
  let res ← read fun w => Registry.internAll K w.heap acc.1 (w.heap.allAncestors node)
  drop node
  pure (res.1, acc.2 ++ res.2)

/-- The first half of `HistoryGraph::to_serialized`, on a copy of the registry. -/
def collectAncestors : Act N E (Registry × List NodeId) := do
  let registry ← withBorrow (.shared g.registry) (read fun w => w.registries g.registry)
  g.allNodeIds.foldlM (internAncestors K) (registry, [])

/-- `HistoryGraph::to_serialized`. -/
def graphToSerialized : Act N E (SerializedHistoryGraph N E) := do
  let col ← collectAncestors g K
  let ser ← registryToSerialized col.1
  pure ⟨g.allNodeIds.toFinset, ⟨ser.nodes.retain fun k _ => k ∈ col.2⟩⟩

/-- `RelRc::to_serialized` against the registry `R`, of which the caller passes a clone. -/
def toSerialized (node : Ref) (R : RegRef) : Act N E (SerializedRelRc N E) := do
  write fun w => w.cloneRegistry R
  let history ← graphNew K [] R
  clone node
  let res ← insertAncestors history K node
  let ser ← graphToSerialized res.2 K
  graphDrop res.2
  pure ⟨res.1, ser⟩

end Graphs

/-! ### Decoding -/

section Decoding

variable (A : AddrSource) (K : KeySource)

/-- Look up the node of a parent, and clone it. -/
def cloneParent (nodes : Slots Ref) (pe : NodeId × E) : Act N E (Ref × E) := do
  let parent ← expect .validDfsOrder (nodes.get pe.1)
  clone parent
  pure (parent, pe.2)

/-- The last part of `deserialize_node`: create the node from the decoded parents. -/
def createNode (nodes : Slots Ref) (nodeId : NodeId) (ser : SerializedInnerData N E) :
    Act N E (Slots Ref) := do
  let parents ← ser.incoming.mapM (cloneParent nodes)
  let node ← withParents A ser.value parents
  dropAll (nodes.evicted nodeId node).toList
  pure (nodes.insert nodeId node)

/-- `deserialize_node`, with a bound on the depth of the recursion: the entries still to decode, and
the nodes decoded. -/
def deserializeNode : ℕ → SlotMap (SerializedInnerData N E) × Slots Ref → NodeId →
    Act N E (SlotMap (SerializedInnerData N E) × Slots Ref)
  | 0, _, _ => raise .stackOverflow
  | n + 1, d, nodeId => do
    let ser ← expect .invalidNodeId (d.1.get nodeId)
    let d ← ser.incoming.foldlM (fun d pe =>
      if d.2.contains pe.1 then pure d else deserializeNode n d pe.1) (d.1.remove nodeId, d.2)
    let nodes ← createNode A d.2 nodeId ser
    pure (d.1, nodes)

/-- The loop of `deserialize_nodes`. -/
def deserializeLoop : ℕ → SlotMap (SerializedInnerData N E) × Slots Ref → Act N E (Slots Ref)
  | 0, d => pure d.2
  | n + 1, d =>
    match d.1.keys with
    | [] => pure d.2
    | nodeId :: _ => do
      let d ← deserializeNode A (d.1.len + 1) d nodeId
      deserializeLoop n d

/-- `deserialize_nodes`. -/
def deserializeNodes (serialised : SlotMap (SerializedInnerData N E)) : Act N E (Slots Ref) :=
  deserializeLoop A (serialised.len + 1) (serialised, Slots.empty)

/-- `Registry::from_serialized`. -/
def registryFromSerialized (ser : SerializedRegistry N E) : Act N E (RegRef × Slots Ref) := do
  let nodes ← deserializeNodes A ser.nodes
  let registry ← (ser.nodes.map fun _ _ => ()).traverseM fun k _ =>
    expect .invalidNodeId (nodes.get k)
  let R ← read fun w => w.nregs
  write fun w => w.allocRegistry (Registry.fromSlotmap w.heap registry)
  pure (R, nodes)

/-- `assert!`. -/
def assertThat (b : Bool) : Act N E Unit := if b then pure () else raise .assertion

/-- `HistoryGraph::from_serialized`. The registry is owned until the graph is created; its entries
are looked up, and dropped again, in slot order. -/
def graphFromSerialized (ser : SerializedHistoryGraph N E) : Act N E HistoryGraph := do
  let res ← registryFromSerialized A ser.registry
  let allNodes := res.2
  assertThat (∀ k ∈ ser.nodes, allNodes.contains k)
  let registry ← read fun w => w.registries res.1
  let found ← (allNodes.keys.filter (· ∈ ser.nodes)).mapM (containsId registry)
  assertThat (found.all id)
  let kept := allNodes.retain fun k _ => k ∈ ser.nodes
  dropAll (allNodes.retain fun k _ => k ∉ ser.nodes).values
  assertThat (← read fun w => kept.values.all ((w.registries res.1).contains w.heap))
  graphNew K kept.values res.1

/-- `RelRc::from_serialized`. The graph is dropped in the end. -/
def fromSerialized (ser : SerializedRelRc N E) : Act N E Ref := do
  let history ← graphFromSerialized A K ser.ancestorsGraph
  ensuring (do
    let node ← expect .validNode (history.getNode ser.id)
    clone node
    pure node) (graphDrop history)

end Decoding

end Guarded

end Relrc
