import Relrc.Lib.Slots
import Relrc.Model.Node

/-!
# Registries

`registry.rs`: a slot map of weak references and its inverse, a hash map from raw addresses to
ids. Every function that follows a weak reference or takes an address reads the heap, so the
heap is an argument throughout; none of them writes it.
-/

namespace Relrc

open SlotStore

/-- A unique identifier for a node in the registry. -/
abbrev NodeId := Key

/-- Shared registry for assigning unique ids to nodes. -/
structure Registry where
  nodes : SlotMap Ref
  ptrToId : Addr → Option NodeId

namespace Registry

variable {N E : Type}

/-- `Registry::new`. -/
def new : Registry := ⟨SlotMap.empty, fun _ => none⟩

/-- `Registry::from_slotmap`: on equal addresses the later slot wins, as in `collect`. -/
def fromSlotmap (h : Heap N E) (nodes : SlotMap Ref) : Registry where
  nodes := nodes
  ptrToId := nodes.entries.foldl (fun m e => Function.update m (h.asPtr e.2) (some e.1))
    fun _ => none

/-- `Registry::get_id`. -/
def getId (reg : Registry) (h : Heap N E) (node : Ref) : Option NodeId :=
  reg.ptrToId (h.asPtr node)

/-- `Registry::add_node`. -/
def addNode (K : KeySource) (reg : Registry) (h : Heap N E) (node : Ref) : NodeId × Registry :=
  match reg.getId h node with
  | some existingId => (existingId, reg)
  | none =>
    let inserted := reg.nodes.insert K node
    (inserted.1, ⟨inserted.2, Function.update reg.ptrToId (h.asPtr node) (some inserted.1)⟩)

/-- `Registry::get_id_or_insert`. -/
def getIdOrInsert (K : KeySource) (reg : Registry) (h : Heap N E) (node : Ref) :
    NodeId × Registry :=
  match reg.getId h node with
  | some id => (id, reg)
  | none => reg.addNode K h node

/-- `Registry::contains`. -/
def contains (reg : Registry) (h : Heap N E) (node : Ref) : Bool := (reg.getId h node).isSome

/-- `Registry::get`. -/
def get (reg : Registry) (h : Heap N E) (id : NodeId) : Option Ref :=
  (reg.nodes.get id).bind h.upgrade

/-- `Registry::contains_id`. -/
def containsId (reg : Registry) (h : Heap N E) (id : NodeId) : Bool := (reg.get h id).isSome

/-- The entries whose weak reference no longer upgrades. -/
def deadEntries (reg : Registry) (h : Heap N E) : List (NodeId × Ref) :=
  reg.nodes.entries.filter fun e => (h.upgrade e.2).isNone

/-- `Registry::free_node_ids`. -/
def freeNodeIds (reg : Registry) (h : Heap N E) : ℕ × Registry :=
  let deadIds := (reg.deadEntries h).map Prod.fst
  let deadPtrs := (reg.deadEntries h).map fun e => h.asPtr e.2
  let nodes := deadIds.foldl SlotMap.remove reg.nodes
  (nodes.len, ⟨nodes, deadPtrs.foldl (fun m p => Function.update m p none) reg.ptrToId⟩)

/-- `Registry::len`. -/
def len (reg : Registry) : ℕ := reg.nodes.len

/-- `Registry::remove`. -/
def remove (reg : Registry) (h : Heap N E) (id : NodeId) : Registry :=
  match reg.nodes.get id with
  | some weakRef =>
    ⟨reg.nodes.remove id, Function.update reg.ptrToId (h.asPtr weakRef) none⟩
  | none => reg

/-- `FromIterator for Registry`. -/
def fromIter (K : KeySource) (h : Heap N E) (nodes : List Ref) : Registry :=
  nodes.foldl (fun reg node => (reg.addNode K h node).2) new

end Registry

end Relrc
