import Relrc.Lib.Ancestry

/-!
# Nodes and edges

The data of `node.rs` and `edge.rs` on an explicit heap.

A `RelRc<N, E>` and a `RelWeak<N, E>` are both pointers to one allocation. The model names an
allocation by its birth number, a `Ref`, which is never reused; `addr` is the address it was
given, which may be. What `as_ptr` returns, and what every pointer comparison and every
pointer-keyed hash map sees, is the address. Whether a `Ref` is held strongly or weakly is
visible in the stored count only.

An allocation whose count has reached zero has lost its `InnerData`: `data` is `none` from then
on, and `upgrade` fails.
-/

namespace Relrc

open Ancestry

/-- The identity of a node allocation: its position in the order of creation. -/
abbrev Ref := ℕ

/-- A raw address, as returned by `as_ptr`. -/
abbrev Addr := ℕ

/-- The identity of a `Registry` behind an `Rc<RefCell<_>>`. -/
abbrev RegRef := ℕ

/-- A parent-child relationship, stored and owned by the child. -/
structure InnerEdgeData (E : Type) where
  value : E
  /-- Strong reference to the parent. -/
  source : Ref
  /-- Weak reference to the child. -/
  target : Ref

/-- Weak reference to an edge: position in the incoming edges of a weakly referenced node. -/
structure WeakEdge where
  index : ℕ
  target : Ref
deriving DecidableEq

/-- Strong reference to an edge: position in the incoming edges of a strongly held node. -/
structure Edge where
  index : ℕ
  target : Ref
deriving DecidableEq

/-- Data within a `RelRc` object. -/
structure InnerData (N E : Type) where
  value : N
  incoming : List (InnerEdgeData E)
  outgoing : List WeakEdge
  /-- Weak reference to the registry that tracks this node. -/
  registry : Option RegRef

/-- All node allocations of a program, with their strong counts. -/
structure Heap (N E : Type) where
  size : ℕ
  addr : Ref → Addr
  strong : Ref → ℕ
  data : Ref → Option (InnerData N E)

variable {N E : Type}

namespace InnerEdgeData

/-- Downgrade the edge, given its position among the incoming edges of its target. -/
def downgrade (e : InnerEdgeData E) (targetPos : ℕ) : WeakEdge := ⟨targetPos, e.target⟩

end InnerEdgeData

namespace InnerData

/-- A node without parents. -/
def new (value : N) : InnerData N E := ⟨value, [], [], none⟩

/-- A node with the given incoming edges. -/
def withIncoming (value : N) (incoming : List (InnerEdgeData E)) : InnerData N E :=
  ⟨value, incoming, [], none⟩

end InnerData

namespace Heap

/-- No allocation yet. -/
def empty : Heap N E := ⟨0, fun _ => 0, fun _ => 0, fun _ => none⟩

/-! ### Reading a node -/

/-- `RelRc::as_ptr` and `RelWeak::as_ptr`. -/
def asPtr (h : Heap N E) (r : Ref) : Addr := h.addr r

/-- `RelRc::ptr_eq` and `RelWeak::ptr_eq`. -/
def ptrEq (h : Heap N E) (r s : Ref) : Bool := h.asPtr r == h.asPtr s

/-- The node data is alive. -/
def Alive (h : Heap N E) (r : Ref) : Prop := 0 < h.strong r

instance (h : Heap N E) (r : Ref) : Decidable (h.Alive r) := inferInstanceAs (Decidable (0 < _))

/-- `RelWeak::upgrade`; the count of the new handle is the caller's to record. -/
def upgrade (h : Heap N E) (r : Ref) : Option Ref := if h.Alive r then some r else none

/-- `InnerData::value`. -/
def value (h : Heap N E) (r : Ref) : Option N := (h.data r).map InnerData.value

/-- `InnerData::all_incoming`. -/
def allIncoming (h : Heap N E) (r : Ref) : List (InnerEdgeData E) :=
  match h.data r with
  | some d => d.incoming
  | none => []

/-- The weak edges recorded in `outgoing`, dead ones included: `InnerData::all_outgoing_weak`. -/
def allOutgoingWeak (h : Heap N E) (r : Ref) : List WeakEdge :=
  match h.data r with
  | some d => d.outgoing
  | none => []

/-- The content of the `registry` cell. -/
def slot (h : Heap N E) (r : Ref) : Option RegRef := (h.data r).bind InnerData.registry

/-- `InnerData::incoming`: the `i`-th incoming edge. -/
def incoming (h : Heap N E) (r : Ref) (index : ℕ) : Option (InnerEdgeData E) :=
  (h.allIncoming r)[index]?

/-- `InnerData::parent`: the `i`-th parent. -/
def parent (h : Heap N E) (r : Ref) (index : ℕ) : Option Ref :=
  (h.incoming r index).map InnerEdgeData.source

/-- `InnerData::all_parents`. -/
def allParents (h : Heap N E) (r : Ref) : List Ref := (h.allIncoming r).map InnerEdgeData.source

/-- `InnerData::n_incoming`. -/
def nIncoming (h : Heap N E) (r : Ref) : ℕ := (h.allIncoming r).length

/-- `RelRc::all_ancestors`, consumed up to its first `None`: the iterator answers `None` both
when its queue is empty and when it pops a pointer seen before. -/
def allAncestors (h : Heap N E) (r : Ref) : List Ref :=
  queueWalk h.asPtr h.allParents (h.size + 1) [] [r]

/-- `InnerData::incoming_weak`: the `i`-th incoming edge as a weak reference. -/
def incomingWeak (h : Heap N E) (r : Ref) (index : ℕ) : Option WeakEdge :=
  (h.incoming r index).map fun e => ⟨index, e.target⟩

/-- `InnerData::all_incoming_weak`. -/
def allIncomingWeak (h : Heap N E) (r : Ref) : List WeakEdge :=
  (h.allIncoming r).zipIdx.map fun ei => ⟨ei.2, ei.1.target⟩

/-- `WeakEdge::ptr_eq`. -/
def weakEdgePtrEq (h : Heap N E) (e e' : WeakEdge) : Bool :=
  e.index == e'.index && h.ptrEq e.target e'.target

/-- `Deref for Edge`: the owner's incoming edge at this position; `none` is the panic of
`unwrap`. -/
def derefEdge (h : Heap N E) (e : Edge) : Option (InnerEdgeData E) := h.incoming e.target e.index

/-- `InnerEdgeData::target`; `none` is the panic "target node is no longer alive". -/
def edgeTarget (h : Heap N E) (e : InnerEdgeData E) : Option Ref := h.upgrade e.target

/-- `WeakEdge::upgrade`. -/
def upgradeEdge (h : Heap N E) (e : WeakEdge) : Option Edge :=
  (h.upgrade e.target).map fun t => ⟨e.index, t⟩

/-! ### Writing a node -/

/-- Mutate the data of one node in place. -/
def modify (h : Heap N E) (r : Ref) (f : InnerData N E → InnerData N E) : Heap N E :=
  { h with data := Function.update h.data r ((h.data r).map f) }

/-- Replace the content of the `outgoing` cell. -/
def modifyOutgoing (h : Heap N E) (r : Ref) (f : List WeakEdge → List WeakEdge) : Heap N E :=
  h.modify r fun d => { d with outgoing := f d.outgoing }

/-- Replace the content of the `registry` cell. -/
def setSlot (h : Heap N E) (r : Ref) (R : Option RegRef) : Heap N E :=
  h.modify r fun d => { d with registry := R }

/-- One more strong reference. -/
def incStrong (h : Heap N E) (r : Ref) : Heap N E :=
  { h with strong := Function.update h.strong r (h.strong r + 1) }

/-- One more strong reference to each of a list of nodes. -/
def incStrongAll (h : Heap N E) (rs : List Ref) : Heap N E := rs.foldl incStrong h

/-- One strong reference less. The last one takes the node data with it. -/
def decStrong (h : Heap N E) (r : Ref) : Heap N E :=
  if h.strong r ≤ 1 then
    { h with strong := Function.update h.strong r 0, data := Function.update h.data r none }
  else
    { h with strong := Function.update h.strong r (h.strong r - 1) }

/-- A fresh allocation at address `a`, with one strong reference. -/
def alloc (h : Heap N E) (a : Addr) (d : InnerData N E) : Heap N E where
  size := h.size + 1
  addr := Function.update h.addr h.size a
  strong := Function.update h.strong h.size 1
  data := Function.update h.data h.size (some d)

/-- `register_outgoing_edges`: push a weak edge to the parent of each incoming edge. -/
def registerOutgoingEdges (h : Heap N E) (incoming : List (InnerEdgeData E)) : Heap N E :=
  incoming.zipIdx.foldl
    (fun h ei => h.modifyOutgoing ei.1.source fun out => out ++ [ei.1.downgrade ei.2]) h

/-- The incoming edges of a node to be, from its list of parents and edge values. -/
def edgesOf (node : Ref) (parents : List (Ref × E)) : List (InnerEdgeData E) :=
  parents.map fun pe => ⟨pe.2, pe.1, node⟩

/-- `RelRc::with_parents`. The strong references to the parents move into the new edges. -/
def withParents (h : Heap N E) (a : Addr) (value : N) (parents : List (Ref × E)) : Heap N E :=
  let incoming := edgesOf h.size parents
  (h.alloc a (InnerData.withIncoming value incoming)).registerOutgoingEdges incoming

/-- `RelRc::new`. -/
def new (h : Heap N E) (a : Addr) (value : N) : Heap N E := h.alloc a (InnerData.new value)

/-- `InnerData::all_outgoing`: upgrade the outgoing edges, dropping those that are gone. -/
def allOutgoing (h : Heap N E) (r : Ref) : List Edge × Heap N E :=
  let edges := (h.allOutgoingWeak r).filterMap h.upgradeEdge
  let pruned := h.modifyOutgoing r fun out => out.filter fun e => (h.upgradeEdge e).isSome
  (edges, pruned.incStrongAll (edges.map Edge.target))

/-! ### Field lemmas -/

section Fields

variable (h : Heap N E) (r x : Ref)

@[simp] theorem size_modify (f) : (h.modify r f).size = h.size := rfl
@[simp] theorem addr_modify (f) : (h.modify r f).addr = h.addr := rfl
@[simp] theorem strong_modify (f) : (h.modify r f).strong = h.strong := rfl

theorem data_modify (f) : (h.modify r f).data x =
    if x = r then (h.data x).map f else h.data x := by
  by_cases hx : x = r
  · subst hx
    simp [modify]
  · simp [modify, hx]

@[simp] theorem size_modifyOutgoing (f) : (h.modifyOutgoing r f).size = h.size := rfl
@[simp] theorem addr_modifyOutgoing (f) : (h.modifyOutgoing r f).addr = h.addr := rfl
@[simp] theorem strong_modifyOutgoing (f) : (h.modifyOutgoing r f).strong = h.strong := rfl
@[simp] theorem size_setSlot (R) : (h.setSlot r R).size = h.size := rfl
@[simp] theorem addr_setSlot (R) : (h.setSlot r R).addr = h.addr := rfl
@[simp] theorem strong_setSlot (R) : (h.setSlot r R).strong = h.strong := rfl
@[simp] theorem size_incStrong : (h.incStrong r).size = h.size := rfl
@[simp] theorem addr_incStrong : (h.incStrong r).addr = h.addr := rfl
@[simp] theorem data_incStrong : (h.incStrong r).data = h.data := rfl

@[simp] theorem size_decStrong : (h.decStrong r).size = h.size := by
  rw [decStrong]
  split_ifs <;> rfl

@[simp] theorem addr_decStrong : (h.decStrong r).addr = h.addr := by
  rw [decStrong]
  split_ifs <;> rfl

end Fields

end Heap

end Relrc
