import Relrc.Model.Machine

/-!
# What programs are told

`exec` says what a call does to the state of a program. Here is what the call returns (`Op.answer`),
and what the calls that change nothing return (`Query`). The `transcript` of a program is the list
of all the answers it gets, up to the first call that panics or that it cannot make.

Nodes stand for themselves in answers, which is what `ptr_eq` can tell of them. Left out is
`as_ptr`, which returns an address, and what can be computed from the other answers, such as
`children`, which is `outgoing_edges` with the targets only.
-/

namespace Relrc

open SlotStore

variable {N E : Type}

/-! ### Calls that change something -/

/-- What a call returns. -/
inductive Answer (N E : Type) where
  | unit
  | flag (b : Bool)
  | count (n : ℕ)
  | nodes (rs : List Ref)
  | edges (es : List Edge)
  | weakEdges (es : List WeakEdge)
  | value (v : Option N)
  | incoming (es : List (InnerEdgeData E))
  | ids (ids : List NodeId)
  | edgeIds (ids : List EdgeId)
  | registry (R : Option RegRef)
  /-- A registry and the nodes that were decoded for it. -/
  | decoded (R : RegRef) (nodes : Slots Ref)
  | graph (g : HistoryGraph)
  | registryFile (ser : SerializedRegistry N E)
  | graphFile (ser : SerializedHistoryGraph N E)
  | file (ser : SerializedRelRc N E)

/-- What an operation returns, or how it panics. -/
def Op.answer (A : AddrSource) (K : KeySource) (s : State N E) :
    Op N E → Except Panic (Answer N E)
  | .new _ => pure (.nodes [s.world.heap.size])
  | .withParents _ _ => pure (.nodes [s.world.heap.size])
  | .clone node => pure (.nodes [node])
  | .drop _ => pure .unit
  | .downgrade node => pure (.nodes [node])
  | .dropWeak _ => pure .unit
  | .upgrade node => pure (.nodes (s.world.heap.upgrade node).toList)
  | .allOutgoing node => pure (.edges (s.world.allOutgoing node).1)
  | .allChildren node => pure (.nodes (s.world.allChildren node).1)
  | .nOutgoing node => pure (.count (s.world.nOutgoing node).1)
  | .intoTarget e => pure (.nodes [e.target])
  | .registryNew => pure (.registry (some s.world.nregs))
  | .registryFromIter _ => pure (.registry (some s.world.nregs))
  | .registryClone _ => pure (.registry (some s.world.nregs))
  | .registryFromSerialized ser => do
    let res ← Registry.fromSerialized A s.world ser
    pure (.decoded res.1 res.2.1)
  | .cloneRegistry R => pure (.registry (some R))
  | .dropRegistry _ => pure .unit
  | .addNode R node =>
    pure (.ids [((s.world.registries R).addNode K s.world.heap node).1])
  | .getIdOrInsert R node =>
    pure (.ids [((s.world.registries R).getIdOrInsert K s.world.heap node).1])
  | .remove _ _ => pure .unit
  | .freeNodeIds R => pure (.count ((s.world.registries R).freeNodeIds s.world.heap).1)
  | .tryRegisterIn node R => pure (.ids (s.world.tryRegisterIn K node R).1.toList)
  | .graphNew nodes R => pure (.graph (HistoryGraph.new K s.world nodes R).2)
  | .graphFromNodes nodes => pure (.graph (HistoryGraph.fromNodes K s.world nodes).2)
  | .graphClone g =>
    match s.graph g with
    | some G => pure (.graph G)
    | none => pure .unit
  | .graphDrop _ => pure .unit
  | .insertNode g node =>
    match s.graph g with
    | some G => pure (.ids (G.insertNode K s.world node).1.toList)
    | none => pure .unit
  | .insertAncestors g node =>
    match s.graph g with
    | some G => do
      let res ← G.insertAncestors K s.world node
      pure (.ids [res.1])
    | none => pure .unit
  | .outgoingEdges g u =>
    match s.graph g with
    | some G => pure (.edgeIds (G.outgoingEdges s.world u))
    | none => pure .unit
  | .graphFromSerialized ser => do
    let res ← HistoryGraph.fromSerialized A K s.world ser
    pure (.graph res.2)
  | .toSerialized node R => do
    let res ← s.world.toSerialized K node R
    pure (.file res.1)
  | .fromSerialized ser => do
    let res ← s.world.fromSerialized A K ser
    pure (.nodes [res.1])

/-! ### Calls that only read -/

/-- The calls that change nothing. -/
inductive Query where
  | value (node : Ref)
  | allIncoming (node : Ref)
  | allOutgoingWeak (node : Ref)
  | allAncestors (node : Ref)
  | registry (node : Ref)
  | getId (R : RegRef) (node : Ref)
  | get (R : RegRef) (id : NodeId)
  | len (R : RegRef)
  | registryToSerialized (R : RegRef)
  | contains (g : GraphRef) (node : Ref)
  | getNode (g : GraphRef) (id : NodeId)
  | getEdge (g : GraphRef) (e : EdgeId)
  | source (g : GraphRef) (e : EdgeId)
  | target (g : GraphRef) (e : EdgeId)
  | incomingEdges (g : GraphRef) (v : NodeId)
  | parents (g : GraphRef) (v : NodeId)
  | graphToSerialized (g : GraphRef)

namespace Query

/-- The query can be made. -/
def Enabled (s : State N E) : Query → Prop
  | .value node | .allIncoming node | .allOutgoingWeak node | .allAncestors node
  | .registry node => s.world.heap.Alive node
  | .getId R node => s.world.RegAlive R ∧ s.world.heap.Alive node
  | .get R _ | .len R | .registryToSerialized R => s.world.RegAlive R
  | .contains g node => (s.graph g).isSome ∧ s.world.heap.Alive node
  | .getNode g _ | .getEdge g _ | .source g _ | .target g _ | .incomingEdges g _ | .parents g _
  | .graphToSerialized g => (s.graph g).isSome

instance (s : State N E) (q : Query) : Decidable (q.Enabled s) := by
  cases q <;> dsimp only [Enabled] <;> infer_instance

/-- What a graph answers. -/
def onGraph (s : State N E) (g : GraphRef) (f : HistoryGraph → Except Panic (Answer N E)) :
    Except Panic (Answer N E) :=
  match s.graph g with
  | some G => f G
  | none => pure .unit

/-- What a query returns, or how it panics. -/
def answer (K : KeySource) (s : State N E) : Query → Except Panic (Answer N E)
  | .value node => pure (.value (s.world.heap.value node))
  | .allIncoming node => pure (.incoming (s.world.heap.allIncoming node))
  | .allOutgoingWeak node => pure (.weakEdges (s.world.heap.allOutgoingWeak node))
  | .allAncestors node => pure (.nodes (s.world.heap.allAncestors node))
  | .registry node => pure (.registry (s.world.registry node))
  | .getId R node => pure (.ids ((s.world.registries R).getId s.world.heap node).toList)
  | .get R id => pure (.nodes ((s.world.registries R).get s.world.heap id).toList)
  | .len R => pure (.count (s.world.registries R).len)
  | .registryToSerialized R => do
    let ser ← (s.world.registries R).toSerialized s.world.heap
    pure (.registryFile ser)
  | .contains g node => onGraph s g fun G => pure (.flag (G.contains s.world node))
  | .getNode g id => onGraph s g fun G => pure (.nodes (G.getNode id).toList)
  | .getEdge g e => onGraph s g fun G => pure (.incoming (G.getEdge s.world e).toList)
  | .source g e => onGraph s g fun G => pure (.ids (G.source s.world e).toList)
  | .target g e => onGraph s g fun G => pure (.ids (G.target s.world e).toList)
  | .incomingEdges g v => onGraph s g fun G => pure (.edgeIds (G.incomingEdges s.world v))
  | .parents g v => onGraph s g fun G => pure (.ids (G.parents s.world v))
  | .graphToSerialized g => onGraph s g fun G => do
    let ser ← G.toSerialized K s.world
    pure (.graphFile ser)

end Query

/-! ### Transcripts -/

/-- A call of either kind. -/
inductive ApiCall (N E : Type) where
  | op (o : Op N E)
  | query (q : Query)

namespace ApiCall

/-- The call can be made. -/
def Enabled (s : State N E) : ApiCall N E → Prop
  | .op o => o.Enabled s
  | .query q => q.Enabled s

instance (s : State N E) (c : ApiCall N E) : Decidable (c.Enabled s) := by
  cases c <;> dsimp only [Enabled] <;> infer_instance

/-- What the call returns, and the state after it. -/
def run (A : AddrSource) (K : KeySource) (s : State N E) :
    ApiCall N E → Except Panic (Answer N E × State N E)
  | .op o => do
    let t ← exec A K s o
    let a ← o.answer A K s
    pure (a, t)
  | .query q => do
    let a ← q.answer K s
    pure (a, s)

end ApiCall

/-- How a call ends. -/
inductive Outcome (N E : Type) where
  | returned (a : Answer N E)
  | panicked (p : Panic)
  | notEnabled

/-- What a program is told that makes the given calls, until one panics or cannot be made. -/
def transcript (A : AddrSource) (K : KeySource) :
    State N E → List (ApiCall N E) → List (Outcome N E)
  | _, [] => []
  | s, c :: calls =>
    if c.Enabled s then
      match c.run A K s with
      | .ok res => .returned res.1 :: transcript A K res.2 calls
      | .error p => [.panicked p]
    else [.notEnabled]

end Relrc
