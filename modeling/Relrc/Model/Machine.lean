import Relrc.Model.Serialization

/-!
# Programs that use the library

A `State` is what a program owns: memory, its `RelRc` and `Edge` handles, its handles to
registries, and its history graphs. An `Op` is one call of the library, or the drop of something
owned. Calls that take a node by value consume a handle; calls that borrow ask that the node is
alive, since every live node can be borrowed from some handle along `parent`.

A run is a sequence of enabled operations, none of which panics. The parameter `P` of `Step`
restricts which operations a run is made of; `Op.Accesses` says which writes to registries an
operation may make.
-/

namespace Relrc

open SlotStore

/-- A strong handle of the program. -/
inductive Handle where
  | node (r : Ref)
  | edge (e : Edge)
deriving DecidableEq

/-- The node a handle keeps alive. -/
def Handle.target : Handle → Ref
  | .node r => r
  | .edge e => e.target

/-- The position of a graph in the order of creation. -/
abbrev GraphRef := ℕ

/-- What a program owns. Dropped graphs leave `none` behind. -/
structure State (N E : Type) where
  world : World N E
  handles : Multiset Handle
  regHandles : Multiset RegRef
  graphs : List (Option HistoryGraph)

/-- The operations of a program. -/
inductive Op (N E : Type) where
  | new (value : N)
  | withParents (value : N) (parents : List (Ref × E))
  | clone (node : Ref)
  | drop (handle : Handle)
  | downgrade (node : Ref)
  | dropWeak (node : Ref)
  | upgrade (node : Ref)
  | allOutgoing (node : Ref)
  | allChildren (node : Ref)
  | nOutgoing (node : Ref)
  | intoTarget (e : Edge)
  | registryNew
  | registryFromIter (nodes : List Ref)
  | registryClone (R : RegRef)
  | registryFromSerialized (ser : SerializedRegistry N E)
  | cloneRegistry (R : RegRef)
  | dropRegistry (R : RegRef)
  | addNode (R : RegRef) (node : Ref)
  | getIdOrInsert (R : RegRef) (node : Ref)
  | remove (R : RegRef) (id : NodeId)
  | freeNodeIds (R : RegRef)
  | tryRegisterIn (node : Ref) (R : RegRef)
  | graphNew (nodes : List Ref) (R : RegRef)
  | graphFromNodes (nodes : List Ref)
  | graphClone (g : GraphRef)
  | graphDrop (g : GraphRef)
  | insertNode (g : GraphRef) (node : Ref)
  | insertAncestors (g : GraphRef) (node : Ref)
  | outgoingEdges (g : GraphRef) (u : NodeId)
  | graphFromSerialized (ser : SerializedHistoryGraph N E)
  | toSerialized (node : Ref) (R : RegRef)
  | fromSerialized (ser : SerializedRelRc N E)

variable {N E : Type}

namespace State

/-- A program that has not done anything. -/
def init : State N E := ⟨World.empty, 0, 0, []⟩

/-- The graph at a position, unless it was dropped. -/
def graph (s : State N E) (g : GraphRef) : Option HistoryGraph := (s.graphs[g]?).join

/-- Own one more graph, at position `s.graphs.length`. -/
def addGraph (s : State N E) (w : World N E) (g : HistoryGraph) : State N E :=
  { s with world := w, graphs := s.graphs ++ [some g] }

/-- Replace a graph, or drop it. -/
def setGraph (s : State N E) (w : World N E) (i : GraphRef) (g : Option HistoryGraph) :
    State N E :=
  { s with world := w, graphs := s.graphs.set i g }

end State

/-- The handles consumed by a call that takes nodes by value. -/
def nodeHandles (nodes : List Ref) : Multiset Handle := (nodes.map Handle.node : List Handle)

namespace Op

/-- The operation can be called. -/
def Enabled (s : State N E) : Op N E → Prop
  | .new _ => True
  | .withParents _ parents => nodeHandles (parents.map Prod.fst) ≤ s.handles
  | .clone node => s.world.heap.Alive node
  | .drop handle => handle ∈ s.handles
  | .downgrade node => s.world.heap.Alive node
  | .dropWeak node => node ∈ s.world.weaks
  | .upgrade node => node ∈ s.world.weaks
  | .allOutgoing node => s.world.heap.Alive node
  | .allChildren node => s.world.heap.Alive node
  | .nOutgoing node => s.world.heap.Alive node
  | .intoTarget e => .edge e ∈ s.handles
  | .registryNew => True
  | .registryFromIter nodes => ∀ r ∈ nodes, s.world.heap.Alive r
  | .registryClone R => s.world.RegAlive R
  | .registryFromSerialized _ => True
  | .cloneRegistry R => s.world.RegAlive R
  | .dropRegistry R => R ∈ s.regHandles
  | .addNode R node => s.world.RegAlive R ∧ s.world.heap.Alive node
  | .getIdOrInsert R node => s.world.RegAlive R ∧ s.world.heap.Alive node
  | .remove R _ => s.world.RegAlive R
  | .freeNodeIds R => s.world.RegAlive R
  | .tryRegisterIn node R => s.world.heap.Alive node ∧ s.world.RegAlive R
  | .graphNew nodes R => nodeHandles nodes ≤ s.handles ∧ R ∈ s.regHandles
  | .graphFromNodes nodes => nodeHandles nodes ≤ s.handles
  | .graphClone g => (s.graph g).isSome
  | .graphDrop g => (s.graph g).isSome
  | .insertNode g node => (s.graph g).isSome ∧ .node node ∈ s.handles
  | .insertAncestors g node => (s.graph g).isSome ∧ .node node ∈ s.handles
  | .outgoingEdges g _ => (s.graph g).isSome
  | .graphFromSerialized _ => True
  | .toSerialized node R => s.world.heap.Alive node ∧ s.world.RegAlive R
  | .fromSerialized _ => True

instance (s : State N E) (op : Op N E) : Decidable (op.Enabled s) := by
  cases op <;> dsimp only [Enabled] <;> infer_instance

/-- The registry writes that the operation may make. Decoding registers nodes in a registry of
its own, and so does `from_nodes`. -/
def Accesses (s : State N E) : Op N E → Access → Prop
  | .addNode R _, a => a = .add R
  | .getIdOrInsert R _, a => a = .add R
  | .remove R _, a => a = .remove R
  | .tryRegisterIn _ R, a => a = .register R
  | .graphNew _ R, a => a = .register R
  | .insertNode g _, a => ∃ G, s.graph g = some G ∧ a = .register G.registry
  | .insertAncestors g _, a => ∃ G, s.graph g = some G ∧ a = .register G.registry
  | .toSerialized _ R, a => a = .register R
  | .graphFromNodes _, a => ∃ R, s.world.nregs ≤ R ∧ a = .register R
  | .graphFromSerialized _, a => ∃ R, s.world.nregs ≤ R ∧ a = .register R
  | .fromSerialized _, a => ∃ R, s.world.nregs ≤ R ∧ a = .register R
  | _, _ => False

end Op

/-- One operation of a program. -/
def exec (A : AddrSource) (K : KeySource) (s : State N E) : Op N E → Except Panic (State N E)
  | .new value => pure { s with
      world := s.world.new A value
      handles := .node s.world.heap.size ::ₘ s.handles }
  | .withParents value parents => pure { s with
      world := s.world.withParents A value parents
      handles := .node s.world.heap.size ::ₘ (s.handles - nodeHandles (parents.map Prod.fst)) }
  | .clone node => pure { s with
      world := s.world.clone node
      handles := .node node ::ₘ s.handles }
  | .drop handle => pure { s with
      world := s.world.drop handle.target
      handles := s.handles.erase handle }
  | .downgrade node => pure { s with world.weaks := node :: s.world.weaks }
  | .dropWeak node => pure { s with world.weaks := s.world.weaks.erase node }
  | .upgrade node =>
    match s.world.heap.upgrade node with
    | some r => pure { s with world := s.world.clone r, handles := .node r ::ₘ s.handles }
    | none => pure s
  | .allOutgoing node =>
    let out := s.world.allOutgoing node
    pure { s with
      world := out.2
      handles := ((out.1.map Handle.edge : List Handle) : Multiset Handle) + s.handles }
  | .allChildren node =>
    let out := s.world.allChildren node
    pure { s with world := out.2, handles := nodeHandles out.1 + s.handles }
  | .nOutgoing node => pure { s with world := (s.world.nOutgoing node).2 }
  | .intoTarget e => pure { s with handles := .node e.target ::ₘ s.handles.erase (.edge e) }
  | .registryNew => pure { s with
      world := s.world.allocRegistry Registry.new
      regHandles := s.world.nregs ::ₘ s.regHandles }
  | .registryFromIter nodes => pure { s with
      world := s.world.allocRegistry (Registry.fromIter K s.world.heap nodes)
      regHandles := s.world.nregs ::ₘ s.regHandles }
  | .registryClone R => pure { s with
      world := s.world.allocRegistry (s.world.registries R)
      regHandles := s.world.nregs ::ₘ s.regHandles }
  | .registryFromSerialized ser => do
    let res ← Registry.fromSerialized A s.world ser
    pure { s with
      world := res.2.2
      handles := nodeHandles res.2.1.values + s.handles
      regHandles := res.1 ::ₘ s.regHandles }
  | .cloneRegistry R => pure { s with
      world := s.world.cloneRegistry R
      regHandles := R ::ₘ s.regHandles }
  | .dropRegistry R => pure { s with
      world := s.world.dropRegistry R
      regHandles := s.regHandles.erase R }
  | .addNode R node => pure { s with
      world := s.world.setRegistry R ((s.world.registries R).addNode K s.world.heap node).2 }
  | .getIdOrInsert R node => pure { s with
      world := s.world.setRegistry R ((s.world.registries R).getIdOrInsert K s.world.heap node).2 }
  | .remove R id => pure { s with
      world := s.world.setRegistry R ((s.world.registries R).remove s.world.heap id) }
  | .freeNodeIds R => pure { s with
      world := s.world.setRegistry R ((s.world.registries R).freeNodeIds s.world.heap).2 }
  | .tryRegisterIn node R => pure { s with world := (s.world.tryRegisterIn K node R).2 }
  | .graphNew nodes R =>
    let res := HistoryGraph.new K s.world nodes R
    pure ({ s with
      handles := s.handles - nodeHandles nodes
      regHandles := s.regHandles.erase R }.addGraph res.1 res.2)
  | .graphFromNodes nodes =>
    let res := HistoryGraph.fromNodes K s.world nodes
    pure ({ s with handles := s.handles - nodeHandles nodes }.addGraph res.1 res.2)
  | .graphClone g =>
    match s.graph g with
    | some G => pure (s.addGraph (G.clone s.world) G)
    | none => pure s
  | .graphDrop g =>
    match s.graph g with
    | some G => pure (s.setGraph (G.drop s.world) g none)
    | none => pure s
  | .insertNode g node =>
    match s.graph g with
    | some G =>
      let res := G.insertNode K s.world node
      pure ({ s with handles := s.handles.erase (.node node) }.setGraph res.2.1 g res.2.2)
    | none => pure s
  | .insertAncestors g node =>
    match s.graph g with
    | some G => do
      let res ← G.insertAncestors K s.world node
      pure ({ s with handles := s.handles.erase (.node node) }.setGraph res.2.1 g res.2.2)
    | none => pure s
  | .outgoingEdges g u =>
    match s.graph g with
    | some G => pure { s with world := G.afterOutgoingEdges s.world u }
    | none => pure s
  | .graphFromSerialized ser => do
    let res ← HistoryGraph.fromSerialized A K s.world ser
    pure (s.addGraph res.1 res.2)
  | .toSerialized node R => do
    let res ← s.world.toSerialized K node R
    pure { s with world := res.2 }
  | .fromSerialized ser => do
    let res ← s.world.fromSerialized A K ser
    pure { s with world := res.2, handles := .node res.1 ::ₘ s.handles }

/-- One step of a run whose operations satisfy `P`. -/
def Step (A : AddrSource) (K : KeySource) (P : State N E → Op N E → Prop) (s s' : State N E) :
    Prop :=
  ∃ op, op.Enabled s ∧ P s op ∧ exec A K s op = .ok s'

/-- Runs whose operations satisfy `P`. -/
abbrev Run (A : AddrSource) (K : KeySource) (P : State N E → Op N E → Prop) :
    State N E → State N E → Prop := Relation.ReflTransGen (Step A K P)

/-- The operation writes registries only as `ok` allows. -/
def Respects (ok : Access → Prop) (s : State N E) (op : Op N E) : Prop :=
  ∀ a, op.Accesses s a → ok a

end Relrc
