import Relrc.Model.Allocation

/-!
# Copies of nodes and edges

`InnerData` and `InnerEdgeData` are public types that can be cloned, and an `InnerData` can be made
a node through `From<Rc<InnerData>> for RelRc`. A `Caller` owns what a `State` owns and also values
of the two types, and pointers `Rc<InnerData>` and `Weak<InnerData>`; its operations are those of a
program and those on such values.

`Clone` is derived for both types, field by field. A copy of a node has edges whose target is the
original, and it lists the outgoing edges of the original; a copy of an edge has the source and the
target of the edge.

A value that is not behind an `Rc` is not part of the heap. The strong references in it are held by
the caller; the weak ones are among `World.weaks`, with the handles of the program (`copied`).
-/

namespace Relrc

open SlotStore

variable {N E : Type}

/-! ### Values -/

namespace InnerData

/-- The strong references in a value. -/
def sources (d : InnerData N E) : List Ref := d.incoming.map InnerEdgeData.source

/-- The weak references to nodes in a value. -/
def weakRefs (d : InnerData N E) : List Ref :=
  d.incoming.map InnerEdgeData.target ++ d.outgoing.map WeakEdge.target

end InnerData

namespace World

/-- More weak references outside of the heap. -/
def gainWeaks (w : World N E) (rs : List Ref) : World N E := { w with weaks := rs ++ w.weaks }

/-- Weak references outside of the heap are dropped, or move into it. -/
def loseWeaks (w : World N E) (rs : List Ref) : World N E := { w with weaks := w.weaks.diff rs }

/-- `Clone for InnerData`. -/
def cloneData (w : World N E) (d : InnerData N E) : World N E :=
  (w.withHeap (w.heap.incStrongAll d.sources)).gainWeaks d.weakRefs

/-- Drop an `InnerData`. -/
def dropData (w : World N E) (d : InnerData N E) : World N E :=
  (w.dropAll d.sources).loseWeaks d.weakRefs

/-- `Rc::new` on an `InnerData`: the node is `w.heap.size`. -/
def allocData (A : AddrSource) (w : World N E) (d : InnerData N E) : World N E :=
  (w.withHeap (w.heap.alloc (w.nextAddr A) d)).loseWeaks d.weakRefs

/-- Drop an `Rc<InnerData>`, which has no hook. -/
def dropRc (w : World N E) (r : Ref) : World N E :=
  (w.withHeap (w.heap.decStrong r)).dropAll (w.releases r)

/-- `Clone for InnerEdgeData`. -/
def cloneEdge (w : World N E) (e : InnerEdgeData E) : World N E :=
  (w.clone e.source).gainWeaks [e.target]

/-- Drop an `InnerEdgeData`. -/
def dropEdge (w : World N E) (e : InnerEdgeData E) : World N E :=
  (w.drop e.source).loseWeaks [e.target]

end World

/-! ### Callers -/

/-- What the caller of the library owns. -/
structure Caller (N E : Type) where
  state : State N E
  /-- Values of type `InnerData`. -/
  datas : List (InnerData N E)
  /-- Pointers `Rc<InnerData>`. -/
  rcs : Multiset Ref
  /-- Pointers `Weak<InnerData>`. -/
  rcWeaks : Multiset Ref
  /-- Values of type `InnerEdgeData`. -/
  edges : List (InnerEdgeData E)

/-- Where an `InnerData` can be borrowed: at a node, or from a value of the caller's. -/
inductive DataPlace where
  | node (r : Ref)
  | value (k : ℕ)

/-- Where an `InnerEdgeData` can be borrowed: from an `InnerData`, or from a value. -/
inductive EdgePlace where
  | incoming (d : DataPlace) (index : ℕ)
  | value (j : ℕ)

/-- The panics of a caller's operations. -/
inductive CallerPanic where
  | library (p : Panic)
  /-- `InnerEdgeData::target`: "target node is no longer alive". -/
  | targetGone
deriving DecidableEq

/-- The operations of a caller. -/
inductive CallerOp (N E : Type) where
  | op (op : Op N E)
  /-- `InnerData::default`, for the given `N::default`. -/
  | dataDefault (value : N)
  | dataClone (d : DataPlace)
  | dataDrop (k : ℕ)
  /-- `InnerData::all_outgoing` on a value. -/
  | dataOutgoing (k : ℕ)
  /-- `InnerData::all_outgoing_weak`. -/
  | dataOutgoingWeak (d : DataPlace)
  /-- `InnerData::incoming_weak`. -/
  | dataIncomingWeak (d : DataPlace) (index : ℕ)
  /-- `Rc::new`. -/
  | rcNew (k : ℕ)
  | rcClone (node : Ref)
  | rcDrop (node : Ref)
  | rcDowngrade (node : Ref)
  | rcUpgrade (node : Ref)
  | rcDropWeak (node : Ref)
  /-- `RelRc::from`. -/
  | fromRc (node : Ref)
  /-- `RelWeak::from`. -/
  | fromRcWeak (node : Ref)
  | edgeClone (e : EdgePlace)
  | edgeDrop (j : ℕ)
  /-- `InnerEdgeData::target`. -/
  | edgeTarget (e : EdgePlace)

/-- Own more handles. -/
def State.addHandles (s : State N E) (hs : Multiset Handle) : State N E :=
  { s with handles := hs + s.handles }

/-- The weak handle that an operation of a program is called with. -/
def Op.weakHandle : Op N E → Option Ref
  | .upgrade node => some node
  | .dropWeak node => some node
  | _ => none

namespace Caller

/-- A caller that has not done anything. -/
def init : Caller N E := ⟨State.init, [], 0, 0, []⟩

/-- The memory. -/
def world (c : Caller N E) : World N E := c.state.world

/-- Change the memory. -/
def withWorld (c : Caller N E) (w : World N E) : Caller N E := { c with state.world := w }

/-- Own more handles. -/
def addHandles (c : Caller N E) (hs : Multiset Handle) : Caller N E :=
  { c with state := c.state.addHandles hs }

/-- The `InnerData` at a place. -/
def dataAt (c : Caller N E) : DataPlace → Option (InnerData N E)
  | .node r => c.world.heap.data r
  | .value k => c.datas[k]?

/-- The `InnerEdgeData` at a place. -/
def edgeAt (c : Caller N E) : EdgePlace → Option (InnerEdgeData E)
  | .incoming d index => (c.dataAt d).bind fun d => d.incoming[index]?
  | .value j => c.edges[j]?

/-- The edges at a node are those that it stores. -/
theorem edgeAt_node (c : Caller N E) (node : Ref) (index : ℕ) :
    c.edgeAt (.incoming (.node node) index) = c.world.heap.incoming node index := by
  rw [edgeAt, dataAt, Heap.incoming, Heap.allIncoming]
  cases c.world.heap.data node <;> rfl

/-- The weak references outside of the heap that are not handles of the program. -/
def copied (c : Caller N E) : Multiset Ref :=
  c.rcWeaks + (c.edges.map InnerEdgeData.target : List Ref) +
    (c.datas.flatMap InnerData.weakRefs : List Ref)

/-- `InnerData::all_outgoing` on the `k`-th value, which is `d`: the edges that upgrade become
handles, and the others are dropped. -/
def takeOutgoing (c : Caller N E) (k : ℕ) (d : InnerData N E) : Caller N E :=
  let h := c.world.heap
  let edges := d.outgoing.filterMap h.upgradeEdge
  let kept := d.outgoing.filter fun e => (h.upgradeEdge e).isSome
  let gone := d.outgoing.filter fun e => !(h.upgradeEdge e).isSome
  let w := (c.world.withHeap (h.incStrongAll (edges.map Edge.target))).loseWeaks
    (gone.map WeakEdge.target)
  { (c.withWorld w).addHandles (edges.map Handle.edge : List Handle) with
    datas := c.datas.set k { d with outgoing := kept } }

/-- The weak handles of the program. -/
def weakHandles (c : Caller N E) : Multiset Ref := (c.world.weaks : Multiset Ref) - c.copied

end Caller

/-- The operation can be called. -/
def CallerOp.Enabled (c : Caller N E) : CallerOp N E → Prop
  | .op o => o.Enabled c.state ∧ ∀ r ∈ o.weakHandle, r ∈ c.weakHandles
  | .dataDefault _ => True
  | .dataClone d => (c.dataAt d).isSome
  | .dataDrop k => k < c.datas.length
  | .dataOutgoing k => k < c.datas.length
  | .dataOutgoingWeak d => (c.dataAt d).isSome
  | .dataIncomingWeak d index => (c.edgeAt (.incoming d index)).isSome
  | .rcNew k => k < c.datas.length
  | .rcClone node => node ∈ c.rcs
  | .rcDrop node => node ∈ c.rcs
  | .rcDowngrade node => node ∈ c.rcs
  | .rcUpgrade node => node ∈ c.rcWeaks
  | .rcDropWeak node => node ∈ c.rcWeaks
  | .fromRc node => node ∈ c.rcs
  | .fromRcWeak node => node ∈ c.rcWeaks
  | .edgeClone e => (c.edgeAt e).isSome
  | .edgeDrop j => j < c.edges.length
  | .edgeTarget e => (c.edgeAt e).isSome

instance CallerOp.decidableEnabled (c : Caller N E) (op : CallerOp N E) :
    Decidable (op.Enabled c) := by
  cases op <;> dsimp only [CallerOp.Enabled] <;> infer_instance

namespace Caller

/-- One operation of a caller. -/
def exec (A : AddrSource) (K : KeySource) (c : Caller N E) :
    CallerOp N E → Except CallerPanic (Caller N E)
  | .op op =>
    match Relrc.exec A K c.state op with
    | .ok s => pure { c with state := s }
    | .error p => throw (.library p)
  | .dataDefault value => pure { c with datas := c.datas ++ [InnerData.new value] }
  | .dataClone p =>
    match c.dataAt p with
    | some d => pure { c.withWorld (c.world.cloneData d) with datas := c.datas ++ [d] }
    | none => pure c
  | .dataDrop k =>
    match c.datas[k]? with
    | some d => pure { c.withWorld (c.world.dropData d) with datas := c.datas.eraseIdx k }
    | none => pure c
  | .dataOutgoing k =>
    match c.datas[k]? with
    | some d => pure (c.takeOutgoing k d)
    | none => pure c
  | .dataOutgoingWeak p =>
    match c.dataAt p with
    | some d => pure (c.withWorld (c.world.gainWeaks (d.outgoing.map WeakEdge.target)))
    | none => pure c
  | .dataIncomingWeak p index =>
    match c.edgeAt (.incoming p index) with
    | some e => pure (c.withWorld (c.world.gainWeaks [e.target]))
    | none => pure c
  | .rcNew k =>
    match c.datas[k]? with
    | some d => pure { c.withWorld (c.world.allocData A d) with
        datas := c.datas.eraseIdx k
        rcs := c.world.heap.size ::ₘ c.rcs }
    | none => pure c
  | .rcClone node => pure { c.withWorld (c.world.clone node) with rcs := node ::ₘ c.rcs }
  | .rcDrop node => pure { c.withWorld (c.world.dropRc node) with rcs := c.rcs.erase node }
  | .rcDowngrade node =>
    pure { c.withWorld (c.world.gainWeaks [node]) with rcWeaks := node ::ₘ c.rcWeaks }
  | .rcUpgrade node =>
    match c.world.heap.upgrade node with
    | some r => pure { c.withWorld (c.world.clone r) with rcs := r ::ₘ c.rcs }
    | none => pure c
  | .rcDropWeak node =>
    pure { c.withWorld (c.world.loseWeaks [node]) with rcWeaks := c.rcWeaks.erase node }
  | .fromRc node => pure { c.addHandles {.node node} with rcs := c.rcs.erase node }
  | .fromRcWeak node => pure { c with rcWeaks := c.rcWeaks.erase node }
  | .edgeClone p =>
    match c.edgeAt p with
    | some e => pure { c.withWorld (c.world.cloneEdge e) with edges := c.edges ++ [e] }
    | none => pure c
  | .edgeDrop j =>
    match c.edges[j]? with
    | some e => pure { c.withWorld (c.world.dropEdge e) with edges := c.edges.eraseIdx j }
    | none => pure c
  | .edgeTarget p =>
    match c.edgeAt p with
    | some e =>
      match c.world.heap.edgeTarget e with
      | some t => pure ((c.withWorld (c.world.clone t)).addHandles {.node t})
      | none => throw .targetGone
    | none => pure c

/-- One step of a run whose operations satisfy `P`. -/
def Step (A : AddrSource) (K : KeySource) (P : Caller N E → CallerOp N E → Prop)
    (c c' : Caller N E) : Prop :=
  ∃ op, op.Enabled c ∧ P c op ∧ exec A K c op = .ok c'

/-- Runs whose operations satisfy `P`. -/
abbrev Run (A : AddrSource) (K : KeySource) (P : Caller N E → CallerOp N E → Prop) :
    Caller N E → Caller N E → Prop := Relation.ReflTransGen (Step A K P)

/-- Run some operations, provided each is enabled, satisfies `P` and returns. -/
def execAll (A : AddrSource) (K : KeySource) (P : Caller N E → CallerOp N E → Prop)
    [∀ c o, Decidable (P c o)] : Caller N E → List (CallerOp N E) → Option (Caller N E)
  | c, [] => some c
  | c, op :: ops =>
    if op.Enabled c ∧ P c op then
      match exec A K c op with
      | .ok c' => execAll A K P c' ops
      | .error _ => none
    else none

theorem run_of_execAll {A : AddrSource} {K : KeySource} {P : Caller N E → CallerOp N E → Prop}
    [∀ c o, Decidable (P c o)] {c c' : Caller N E} {ops : List (CallerOp N E)}
    (h : execAll A K P c ops = some c') : Run A K P c c' := by
  induction ops generalizing c with
  | nil =>
    obtain rfl := Option.some.inj h
    exact Relation.ReflTransGen.refl
  | cons op ops ih =>
    rw [execAll] at h
    split_ifs at h with hop
    split at h
    · rename_i d hd
      exact (ih h).head ⟨op, hop.1, hop.2, hd⟩
    · cases h

/-- The caller that some operations end in with the lowest free addresses and the reused slots;
where they began if they do not run through. -/
def after (P : Caller N E → CallerOp N E → Prop) [∀ c o, Decidable (P c o)]
    (ops : List (CallerOp N E)) (c : Caller N E := init) : Caller N E :=
  (execAll AddrSource.lowest KeySource.reusing P c ops).getD c

theorem run_after {P : Caller N E → CallerOp N E → Prop} [∀ c o, Decidable (P c o)]
    {ops : List (CallerOp N E)} {c : Caller N E}
    (h : (execAll AddrSource.lowest KeySource.reusing P c ops).isSome) :
    Run AddrSource.lowest KeySource.reusing P c (after P ops c) := by
  obtain ⟨c', hc⟩ := Option.isSome_iff_exists.mp h
  rw [after, hc]
  exact run_of_execAll hc

theorem exec_of_after {P : Caller N E → CallerOp N E → Prop} [∀ c o, Decidable (P c o)]
    {c : Caller N E} {op : CallerOp N E}
    (h : (execAll AddrSource.lowest KeySource.reusing P c [op]).isSome) :
    exec AddrSource.lowest KeySource.reusing c op = .ok (after P [op] c) := by
  obtain ⟨c', hc⟩ := Option.isSome_iff_exists.mp h
  rw [after, hc]
  rw [execAll] at hc
  split_ifs at hc
  split at hc
  · rename_i d hd
    obtain rfl := Option.some.inj hc
    exact hd
  · cases hc

end Caller

end Relrc
