import Relrc.Model.Guarded

/-!
# Programs that use the library with its cells

The operations of a program, with every borrow. To the operations of `Machine` come those that leave
no trace in a `State`: the reads of a graph, the methods of a registry called through `borrow()`,
and those on an `Rc<InnerData>` that a program may own, which has no `Drop` hook. Between two calls
no guard is held. A program may catch a panic and go on (`Program.Step`).

A `Call` through a guard takes nodes that stay with the program. A node that is moved into the
statement is dropped under the guard: that is `methodOnTemporary`, which is not a `Call`.

A lazy iterator is not one call. `outgoing_edges` is `allOutgoing`, whose edges the program then
owns, and one `mapNodeId` for each edge that it asks for; `incoming_edges`, `parents` and `children`
ask for `getEdge`, `source` and `target` one edge at a time. Functions that neither borrow a cell
nor drop a node are not calls either.
-/

namespace Relrc

open SlotStore RefCells Action

variable {N E : Type}

namespace Guarded

/-- `Registry::get_id_or_insert`, on a registry that is already borrowed. -/
def getIdOrInsert (K : KeySource) (R : RegRef) (r : Ref) : Act N E NodeId := do
  let res ← read fun w => (w.registries R).getIdOrInsert K w.heap r
  write fun w => w.setRegistry R res.2
  pure res.1

/-- One operation of a program. -/
def exec (A : AddrSource) (K : KeySource) (s : State N E) : Op N E → Act N E (State N E)
  | .new value => do
    let node ← read fun w => w.heap.size
    write fun w => w.new A value
    read fun w => { s with world := w, handles := .node node ::ₘ s.handles }
  | .withParents value parents => do
    let node ← withParents A value parents
    read fun w => { s with
      world := w
      handles := .node node ::ₘ (s.handles - nodeHandles (parents.map Prod.fst)) }
  | .clone node => do
    clone node
    read fun w => { s with world := w, handles := .node node ::ₘ s.handles }
  | .drop handle => do
    drop handle.target
    read fun w => { s with world := w, handles := s.handles.erase handle }
  | .downgrade node => do
    write fun w => { w with weaks := node :: w.weaks }
    read fun w => { s with world := w }
  | .dropWeak node => do
    write fun w => { w with weaks := w.weaks.erase node }
    read fun w => { s with world := w }
  | .upgrade node => do
    match ← upgrade node with
    | some r => read fun w => { s with world := w, handles := .node r ::ₘ s.handles }
    | none => read fun w => { s with world := w }
  | .allOutgoing node => do
    let edges ← allOutgoing node
    read fun w => { s with
      world := w
      handles := ((edges.map Handle.edge : List Handle) : Multiset Handle) + s.handles }
  | .allChildren node => do
    let edges ← allOutgoing node
    read fun w => { s with
      world := w
      handles := nodeHandles (edges.map Edge.target) + s.handles }
  | .nOutgoing node => do
    let _ ← nOutgoing node
    read fun w => { s with world := w }
  | .intoTarget e => read fun w => { s with
      world := w
      handles := .node e.target ::ₘ s.handles.erase (.edge e) }
  | .registryNew => do
    let R ← read fun w => w.nregs
    write fun w => w.allocRegistry Registry.new
    read fun w => { s with world := w, regHandles := R ::ₘ s.regHandles }
  | .registryFromIter nodes => do
    let R ← read fun w => w.nregs
    write fun w => w.allocRegistry (Registry.fromIter K w.heap nodes)
    read fun w => { s with world := w, regHandles := R ::ₘ s.regHandles }
  | .registryClone R => do
    let registry ← withBorrow (.shared R) (read fun w => w.registries R)
    let R' ← read fun w => w.nregs
    write fun w => w.allocRegistry registry
    read fun w => { s with world := w, regHandles := R' ::ₘ s.regHandles }
  | .registryFromSerialized ser => do
    let res ← registryFromSerialized A ser
    read fun w => { s with
      world := w
      handles := nodeHandles res.2.values + s.handles
      regHandles := res.1 ::ₘ s.regHandles }
  | .cloneRegistry R => do
    write fun w => w.cloneRegistry R
    read fun w => { s with world := w, regHandles := R ::ₘ s.regHandles }
  | .dropRegistry R => do
    dropRegistry R
    read fun w => { s with world := w, regHandles := s.regHandles.erase R }
  | .addNode R node => do
    let _ ← withBorrowMut (.shared R) (addNode K R node)
    read fun w => { s with world := w }
  | .getIdOrInsert R node => do
    let _ ← withBorrowMut (.shared R) (getIdOrInsert K R node)
    read fun w => { s with world := w }
  | .remove R id => do
    withBorrowMut (.shared R) (write fun w => w.setRegistry R ((w.registries R).remove w.heap id))
    read fun w => { s with world := w }
  | .freeNodeIds R => do
    let _ ← withBorrowMut (.shared R) (freeNodeIds R)
    read fun w => { s with world := w }
  | .tryRegisterIn node R => do
    let _ ← tryRegisterIn K node R
    read fun w => { s with world := w }
  | .graphNew nodes R => do
    let g ← graphNew K nodes R
    read fun w => { s with
      handles := s.handles - nodeHandles nodes
      regHandles := s.regHandles.erase R }.addGraph w g
  | .graphFromNodes nodes => do
    let g ← fromNodes K nodes
    read fun w => { s with handles := s.handles - nodeHandles nodes }.addGraph w g
  | .graphClone g =>
    match s.graph g with
    | some G => do
      write fun w => G.clone w
      read fun w => s.addGraph w G
    | none => pure s
  | .graphDrop g =>
    match s.graph g with
    | some G => do
      graphDrop G
      read fun w => s.setGraph w g none
    | none => pure s
  | .insertNode g node =>
    match s.graph g with
    | some G => do
      let res ← insertNode G K node
      read fun w => { s with handles := s.handles.erase (.node node) }.setGraph w g res.2
    | none => pure s
  | .insertAncestors g node =>
    match s.graph g with
    | some G => do
      let res ← insertAncestors G K node
      read fun w => { s with handles := s.handles.erase (.node node) }.setGraph w g res.2
    | none => pure s
  | .outgoingEdges g u =>
    match s.graph g with
    | some G => do
      let _ ← outgoingEdges G u
      read fun w => { s with world := w }
    | none => pure s
  | .graphFromSerialized ser => do
    let g ← graphFromSerialized A K ser
    read fun w => s.addGraph w g
  | .toSerialized node R => do
    let _ ← toSerialized K node R
    read fun w => { s with world := w }
  | .fromSerialized ser => do
    let node ← fromSerialized A K ser
    read fun w => { s with world := w, handles := .node node ::ₘ s.handles }

end Guarded

/-- How a statement borrows a registry. -/
inductive Guard where
  | ref
  | refMut

/-- The methods of a registry that only read it. -/
inductive Method where
  | getId (node : Ref)
  | contains (node : Ref)
  | len
  /-- `Registry::get`. A node that is not kept is dropped in the statement that borrows. -/
  | get (id : NodeId) (keep : Bool)
  | containsId (id : NodeId)
  /-- `Registry::iter`, consumed in the statement that borrows. -/
  | iter (script : List Guarded.Consume)
  | toSerialized

/-- The calls of a program. -/
inductive Call (N E : Type) where
  | op (op : Op N E)
  | registry (node : Ref)
  | allOutgoingWeak (node : Ref)
  /-- `Default for InnerData`, into an `Rc`. -/
  | innerDefault (value : N)
  /-- `Clone for InnerData`, into an `Rc`. -/
  | innerClone (node : Ref)
  | innerShare (node : Ref)
  | innerUpgrade (node : Ref)
  | innerDrop (node : Ref)
  /-- `From<Rc<InnerData>> for RelRc`. -/
  | fromInner (node : Ref)
  | onRegistry (k : Guard) (R : RegRef) (m : Method)
  | graphContains (g : GraphRef) (node : Ref)
  | getEdge (g : GraphRef) (e : EdgeId)
  | containsEdge (g : GraphRef) (e : EdgeId)
  | source (g : GraphRef) (e : EdgeId)
  | target (g : GraphRef) (e : EdgeId)
  /-- `HistoryGraph::outgoing_edges`, asked for the next edge. -/
  | mapNodeId (g : GraphRef) (e : Edge)
  | graphToSerialized (g : GraphRef)

/-- A program between two calls: what it owns, its `Rc<InnerData>` handles besides, and the borrows
that are outstanding. -/
structure Program (N E : Type) where
  state : State N E
  inner : Multiset Ref
  flag : Cell → BorrowFlag

/-- The method can be called: a node that it takes is borrowed from some handle. -/
def Method.Enabled (w : World N E) : Method → Prop
  | .getId node => w.heap.Alive node
  | .contains node => w.heap.Alive node
  | _ => True

instance (w : World N E) (m : Method) : Decidable (m.Enabled w) := by
  cases m <;> dsimp only [Method.Enabled] <;> infer_instance

/-- The call can be made. -/
def Call.Enabled (p : Program N E) : Call N E → Prop
  | .op o => o.Enabled p.state
  | .registry node => p.state.world.heap.Alive node
  | .allOutgoingWeak node => p.state.world.heap.Alive node
  | .innerDefault _ => True
  | .innerClone node => p.state.world.heap.Alive node
  | .innerShare node => node ∈ p.inner
  | .innerUpgrade node => node ∈ p.state.world.weaks
  | .innerDrop node => node ∈ p.inner
  | .fromInner node => node ∈ p.inner
  | .onRegistry _ R m => p.state.world.RegAlive R ∧ m.Enabled p.state.world
  | .graphContains g node => (p.state.graph g).isSome ∧ p.state.world.heap.Alive node
  | .getEdge g _ => (p.state.graph g).isSome
  | .containsEdge g _ => (p.state.graph g).isSome
  | .source g _ => (p.state.graph g).isSome
  | .target g _ => (p.state.graph g).isSome
  | .mapNodeId g e => (p.state.graph g).isSome ∧ .edge e ∈ p.state.handles
  | .graphToSerialized g => (p.state.graph g).isSome

instance (p : Program N E) (c : Call N E) : Decidable (c.Enabled p) := by
  cases c <;> dsimp only [Call.Enabled] <;> infer_instance

namespace Guarded

/-- A statement that borrows a registry. -/
def withGuard {α : Type} (k : Guard) (R : RegRef) (x : Act N E α) : Act N E α :=
  match k with
  | .ref => withBorrow (.shared R) x
  | .refMut => withBorrowMut (.shared R) x

/-- A method of a registry that is already borrowed; the nodes that the caller keeps. -/
def method (R : RegRef) (m : Method) : Act N E (List Ref) := do
  let reg ← read fun w => w.registries R
  match m with
  | .getId node => do
    let _ ← read fun w => reg.getId w.heap node
    pure []
  | .contains node => do
    let _ ← read fun w => reg.contains w.heap node
    pure []
  | .len => pure []
  | .get id keep => do
    let node ← get reg id
    if keep then pure node.toList
    else do
      dropAll node.toList
      pure []
  | .containsId id => do
    let _ ← containsId reg id
    pure []
  | .iter script => iter script reg.nodes.entries []
  | .toSerialized => do
    let _ ← registryToSerialized reg
    pure []

/-- A method of a borrowed registry in a statement that owns a temporary, such as the argument in
`get_id(&identity(n))`. The temporary is dropped at the end of the statement, before the guard. -/
def methodOnTemporary (R : RegRef) (m : Method) (node : Ref) : Act N E (List Ref) := do
  let kept ← method R m
  drop node
  pure kept

/-- A call on a graph that the program owns. -/
def onGraph (s : State N E) (g : GraphRef) (x : HistoryGraph → Act N E Unit) : Act N E Unit :=
  match s.graph g with
  | some G => x G
  | none => pure ()

/-- One call of a program, from what it owns to what it owns then. -/
def call (A : AddrSource) (K : KeySource) (s : State N E) (inner : Multiset Ref) :
    Call N E → Act N E (State N E × Multiset Ref)
  | .op op => do
    let s ← exec A K s op
    pure (s, inner)
  | .registry node => do
    let R ← registry node
    pure ({ s with regHandles := (R.toList : Multiset RegRef) + s.regHandles }, inner)
  | .allOutgoingWeak node => do
    let edges ← allOutgoingWeak node
    write fun w => { w with weaks := edges.map WeakEdge.target ++ w.weaks }
    pure (s, inner)
  | .innerDefault value => do
    let node ← read fun w => w.heap.size
    write fun w => w.new A value
    pure (s, node ::ₘ inner)
  | .innerClone node => do
    let copy ← cloneInner A node
    pure (s, (copy.toList : Multiset Ref) + inner)
  | .innerShare node => do
    clone node
    pure (s, node ::ₘ inner)
  | .innerUpgrade node => do
    let node ← upgrade node
    pure (s, (node.toList : Multiset Ref) + inner)
  | .innerDrop node => do
    dropInner node
    pure (s, inner.erase node)
  | .fromInner node => pure ({ s with handles := .node node ::ₘ s.handles }, inner.erase node)
  | .onRegistry k R m => do
    let kept ← withGuard k R (method R m)
    pure ({ s with handles := nodeHandles kept + s.handles }, inner)
  | .graphContains g node => do
    onGraph s g fun G => do
      let _ ← contains G node
      pure ()
    pure (s, inner)
  | .getEdge g e => do
    onGraph s g fun G => do
      let _ ← getEdge G e
      pure ()
    pure (s, inner)
  | .containsEdge g e => do
    onGraph s g fun G => do
      let _ ← containsEdge G e
      pure ()
    pure (s, inner)
  | .source g e => do
    onGraph s g fun G => do
      let _ ← source G e
      pure ()
    pure (s, inner)
  | .target g e => do
    onGraph s g fun G => do
      let _ ← target G e
      pure ()
    pure (s, inner)
  | .mapNodeId g e => do
    onGraph s g fun G => do
      let _ ← mapNodeId G e
      pure ()
    pure ({ s with handles := s.handles.erase (.edge e) }, inner)
  | .graphToSerialized g => do
    onGraph s g fun G => do
      let _ ← graphToSerialized G K
      pure ()
    pure (s, inner)

end Guarded

namespace Program

/-- A program that has not done anything. -/
def init : Program N E := ⟨State.init, 0, clear⟩

/-- What a call does. -/
def outcome (A : AddrSource) (K : KeySource) (p : Program N E) (c : Call N E) :
    EStateM.Result (Fault Panic) (Cells Cell (World N E)) (State N E × Multiset Ref) :=
  Guarded.call A K p.state p.inner c ⟨p.state.world, p.flag⟩

/-- One step of a run: a call that returns, or one that does not. In the second case the references
that the call has on its stack are dropped, and the program goes on with what it has left. Neither
is determined here: `rs` is any list of nodes, and `q` owns anything. -/
inductive Step (A : AddrSource) (K : KeySource) (p : Program N E) : Program N E → Prop
  | returns {c : Call N E} {res cells} (henabled : c.Enabled p)
      (hcall : p.outcome A K c = .ok res cells) :
      Step A K p ⟨{ res.1 with world := cells.content }, res.2, cells.flag⟩
  | unwinds {c : Call N E} {e cells} (henabled : c.Enabled p)
      (hcall : p.outcome A K c = .error e cells) {rs : List Ref} {cells'}
      (hdrop : Guarded.dropAll rs cells = .ok () cells') {q : Program N E}
      (hworld : q.state.world = cells'.content) (hflag : q.flag = cells'.flag) :
      Step A K p q

/-- Runs of a program. -/
abbrev Run (A : AddrSource) (K : KeySource) : Program N E → Program N E → Prop :=
  Relation.ReflTransGen (Step A K)

end Program

end Relrc
