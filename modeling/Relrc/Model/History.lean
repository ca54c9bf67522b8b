import Relrc.Model.World

/-!
# History graphs

`history.rs`: a set of strongly held nodes, stored in a secondary map under the ids of a shared
registry. A graph is a partial view: it may contain a node without containing its parents.

The functions that take a node by value (`insertNode`, `insertAncestors`) own one strong
reference to it, which they either store or drop.
-/

namespace Relrc

open SlotStore

/-- The panics of the modelled functions. -/
inductive Panic where
  /-- `insert_ancestors` met a node that is registered elsewhere. -/
  | nodeNotRegistered
  /-- `serialize_inner_data` met a dead node or an unregistered parent;
  `RelRc::from_serialized` was given an id that is not in the graph. -/
  | validNode
  /-- `HistoryGraph::to_serialized` holds an id that the registry does not resolve. -/
  | invalidNode
  /-- `deserialize_node` met an id without entry. -/
  | invalidNodeId
  /-- `deserialize_node` did not find the node of a parent. -/
  | validDfsOrder
  /-- One of the assertions of `HistoryGraph::from_serialized`. -/
  | assertion
  /-- Recursion without end. -/
  | stackOverflow
deriving DecidableEq, Repr

/-- The text of the panic, as given to `expect`. -/
def Panic.message : Panic → String
  | .nodeNotRegistered => "node not registered"
  | .validNode => "valid node"
  | .invalidNode => "invalid node"
  | .invalidNodeId => "invalid node_id"
  | .validDfsOrder => "valid dfs order"
  | .assertion => "assertion failed"
  | .stackOverflow => "stack overflow"

/-- `Option::expect`. -/
def expect {α : Type} (p : Panic) : Option α → Except Panic α
  | some x => .ok x
  | none => .error p

theorem expect_eq_ok_iff {α : Type} {p : Panic} {o : Option α} {x : α} :
    expect p o = .ok x ↔ o = some x := by
  cases o with
  | none => exact ⟨fun h => (by cases h), fun h => (by cases h)⟩
  | some y => exact ⟨fun h => congrArg some (Except.ok.inj h), fun h => by cases h; rfl⟩

@[simp] theorem toOption_expect {α : Type} (p : Panic) (o : Option α) :
    (expect p o).toOption = o := by
  cases o <;> rfl

/-- An edge identifier: the target and the position among its incoming edges. -/
structure EdgeId where
  target : NodeId
  index : ℕ
deriving DecidableEq

/-- A graph of nodes and their dependencies. -/
structure HistoryGraph where
  nodes : Slots Ref
  registry : RegRef

variable {N E : Type}

namespace HistoryGraph

/-! ### Views -/

/-- `HistoryGraph::all_node_ids`. -/
def allNodeIds (g : HistoryGraph) : List NodeId := g.nodes.keys

/-- `HistoryGraph::contains_id`. -/
def containsId (g : HistoryGraph) (id : NodeId) : Bool := g.nodes.contains id

/-- `HistoryGraph::get_node`. -/
def getNode (g : HistoryGraph) (id : NodeId) : Option Ref := g.nodes.get id

/-- `HistoryGraph::get_node_id`. -/
def getNodeId (g : HistoryGraph) (w : World N E) (node : Ref) : Option NodeId :=
  match (w.registries g.registry).getId w.heap node with
  | some id => if g.nodes.contains id then some id else none
  | none => none

/-- `HistoryGraph::contains`. -/
def contains (g : HistoryGraph) (w : World N E) (node : Ref) : Bool :=
  match (w.registries g.registry).getId w.heap node with
  | some id => g.containsId id
  | none => false

/-- `HistoryGraph::get_edge`. -/
def getEdge (g : HistoryGraph) (w : World N E) (e : EdgeId) : Option (InnerEdgeData E) :=
  match g.getNode e.target with
  | some node => (w.heap.incoming node e.index).filter fun d => g.contains w d.source
  | none => none

/-- `HistoryGraph::contains_edge`. -/
def containsEdge (g : HistoryGraph) (w : World N E) (e : EdgeId) : Bool := (g.getEdge w e).isSome

/-- `HistoryGraph::source`. -/
def source (g : HistoryGraph) (w : World N E) (e : EdgeId) : Option NodeId :=
  match g.getEdge w e with
  | some edge => g.getNodeId w edge.source
  | none => none

/-- `HistoryGraph::target`. -/
def target (g : HistoryGraph) (w : World N E) (e : EdgeId) : Option NodeId :=
  if g.containsEdge w e then some e.target else none

/-- `HistoryGraph::outgoing_edges`. -/
def outgoingEdges (g : HistoryGraph) (w : World N E) (u : NodeId) : List EdgeId :=
  match g.getNode u with
  | some node => (w.allOutgoing node).1.filterMap fun e =>
      (g.getNodeId w e.target).map fun target => ⟨target, e.index⟩
  | none => []

/-- What `outgoing_edges` leaves behind once its edges are consumed: the source node's list of
outgoing edges has been pruned. -/
def afterOutgoingEdges (g : HistoryGraph) (w : World N E) (u : NodeId) : World N E :=
  match g.getNode u with
  | some node => (w.nOutgoing node).2
  | none => w

/-- `HistoryGraph::incoming_edges`. -/
def incomingEdges (g : HistoryGraph) (w : World N E) (v : NodeId) : List EdgeId :=
  let nIncoming := match g.getNode v with
    | some node => w.heap.nIncoming node
    | none => 0
  ((List.range nIncoming).map fun index => ⟨v, index⟩).filter (g.containsEdge w)

/-- `HistoryGraph::parents`. -/
def parents (g : HistoryGraph) (w : World N E) (v : NodeId) : List NodeId :=
  (g.incomingEdges w v).filterMap (g.source w)

/-- `HistoryGraph::children`. -/
def children (g : HistoryGraph) (w : World N E) (u : NodeId) : List NodeId :=
  (g.outgoingEdges w u).filterMap (g.target w)

/-! ### Insertion -/

/-- `HistoryGraph::insert_node`. -/
def insertNode (K : KeySource) (w : World N E) (g : HistoryGraph) (node : Ref) :
    Option NodeId × World N E × HistoryGraph :=
  match g.getNodeId w node with
  | some id => (some id, w.drop node, g)
  | none =>
    match w.tryRegisterIn K node g.registry with
    | (none, w) => (none, w.drop node, g)
    | (some id, w) =>
      (some id, w.dropAll (g.nodes.evicted id node).toList,
        { g with nodes := g.nodes.insert id node })

/-- `HistoryGraph::insert_ancestors`, with a bound on the depth of the recursion. -/
def insertAncestorsAux (K : KeySource) :
    ℕ → World N E → HistoryGraph → Ref → Except Panic (NodeId × World N E × HistoryGraph)
  | 0, _, _, _ => .error .stackOverflow
  | n + 1, w, g, node => do
    let wg ← (w.heap.allParents node).foldlM (fun (wg : World N E × HistoryGraph) parent =>
      if wg.2.contains wg.1 parent then pure wg
      else do
        let res ← insertAncestorsAux K n (wg.1.clone parent) wg.2 parent
        pure res.2) (w, g)
    let res := insertNode K (wg.1.clone node) wg.2 node
    let id ← expect .nodeNotRegistered res.1
    pure (id, res.2.1.drop node, res.2.2)

/-- `HistoryGraph::insert_ancestors`. Parents are older than their children. -/
def insertAncestors (K : KeySource) (w : World N E) (g : HistoryGraph) (node : Ref) :
    Except Panic (NodeId × World N E × HistoryGraph) :=
  insertAncestorsAux K (node + 1) w g node

/-- Insert nodes in order, ignoring which insertions fail. -/
def insertNodes (K : KeySource) (w : World N E) (g : HistoryGraph) (nodes : List Ref) :
    World N E × HistoryGraph :=
  nodes.foldl (fun wg node => (insertNode K wg.1 wg.2 node).2) (w, g)

/-- `HistoryGraph::new`. The strong reference to the registry moves into the graph. -/
def new (K : KeySource) (w : World N E) (nodes : List Ref) (R : RegRef) :
    World N E × HistoryGraph :=
  insertNodes K w ⟨Slots.empty, R⟩ nodes

/-- `HistoryGraph::with_registry`. -/
def withRegistry (K : KeySource) (w : World N E) (R : RegRef) : World N E × HistoryGraph :=
  new K w [] R

/-- `HistoryGraph::from_nodes`; on the empty list, `HistoryGraph::default`. -/
def fromNodes (K : KeySource) (w : World N E) (nodes : List Ref) : World N E × HistoryGraph :=
  new K (w.allocRegistry Registry.new) nodes w.nregs

/-- `Clone for HistoryGraph`: the memory afterwards; the clone has the same fields. -/
def clone (g : HistoryGraph) (w : World N E) : World N E :=
  (w.withHeap (w.heap.incStrongAll g.nodes.values)).cloneRegistry g.registry

/-- Drop a graph: first the nodes, then the registry. -/
def drop (g : HistoryGraph) (w : World N E) : World N E :=
  (w.dropAll g.nodes.values).dropRegistry g.registry

end HistoryGraph

end Relrc
