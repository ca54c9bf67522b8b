import Relrc.Model.Registry

/-!
# Counted memory: nodes, registries and the `Drop` hook

A `World` is the memory of one program: the node heap, the registries behind
`Rc<RefCell<Registry>>` with their strong counts, and the weak handles the program holds. An
owned `Registry` value is a registry with count one.

Three facts of `std::rc` and of the allocator are built in.

* A registry whose count reaches zero is dropped, and its weak references to nodes with it.
* An allocation keeps its address for as long as a strong or weak reference to it exists
  (`World.InUse`), weak references being those in `outgoing` lists, edge targets, registries and
  program handles.
* A new allocation gets an address that is not in use; which one is up to an `AddrSource`, so an
  address **may** be reused as soon as it can be.

Weak references to a registry are compared by identity of the registry: the reference in a node
keeps the registry's allocation, hence its address, from being reused.
-/

namespace Relrc

open SlotStore

/-- The memory of a program. -/
structure World (N E : Type) where
  heap : Heap N E
  registries : RegRef → Registry
  regStrong : RegRef → ℕ
  nregs : ℕ
  /-- The nodes behind the `RelWeak` handles of the program. -/
  weaks : List Ref

/-- Write access to a registry: `Registry::remove` and `Registry::add_node` called directly, and
registration through `try_register_in`. -/
inductive Access where
  | remove (R : RegRef)
  | add (R : RegRef)
  | register (R : RegRef)

/-- How the allocator chooses addresses: the `n`-th allocation avoids the addresses in use. -/
structure AddrSource where
  pick : ℕ → List Addr → Addr
  fresh : ∀ n used, pick n used ∉ used

variable {N E : Type}

namespace World

/-- The memory of a program that has not done anything. -/
def empty : World N E := ⟨Heap.empty, fun _ => Registry.new, fun _ => 0, 0, []⟩

/-! ### Addresses -/

/-- All weak references to nodes that exist. -/
def weakRefs (w : World N E) : List Ref :=
  w.weaks ++
  ((List.range w.heap.size).flatMap fun c =>
    (w.heap.allIncoming c).map InnerEdgeData.target ++
      (w.heap.allOutgoingWeak c).map WeakEdge.target) ++
  (List.range w.nregs).flatMap fun R => (w.registries R).nodes.values

/-- Some reference keeps the allocation, hence its address. -/
def InUse (w : World N E) (r : Ref) : Prop := w.heap.Alive r ∨ r ∈ w.weakRefs

instance (w : World N E) (r : Ref) : Decidable (w.InUse r) := inferInstanceAs (Decidable (_ ∨ _))

/-- The addresses in use. -/
def usedAddrs (w : World N E) : List Addr :=
  ((List.range w.heap.size).filter fun r => w.InUse r).map w.heap.addr

/-- The address of the next allocation. -/
def nextAddr (A : AddrSource) (w : World N E) : Addr := A.pick w.heap.size w.usedAddrs

/-! ### Creating and cloning -/

/-- Change the node heap. -/
def withHeap (w : World N E) (h : Heap N E) : World N E := { w with heap := h }

/-- `RelRc::new`: the new node is `w.heap.size`. -/
def new (A : AddrSource) (w : World N E) (value : N) : World N E :=
  w.withHeap (w.heap.new (w.nextAddr A) value)

/-- `RelRc::with_parents`: the new node is `w.heap.size`. -/
def withParents (A : AddrSource) (w : World N E) (value : N) (parents : List (Ref × E)) :
    World N E :=
  w.withHeap (w.heap.withParents (w.nextAddr A) value parents)

/-- `RelRc::clone`. -/
def clone (w : World N E) (r : Ref) : World N E := w.withHeap (w.heap.incStrong r)

/-! ### Registries -/

/-- The registry still exists: a weak reference to it upgrades. -/
def RegAlive (w : World N E) (R : RegRef) : Prop := 0 < w.regStrong R

instance (w : World N E) (R : RegRef) : Decidable (w.RegAlive R) :=
  inferInstanceAs (Decidable (0 < _))

/-- Replace the content of a registry. -/
def setRegistry (w : World N E) (R : RegRef) (reg : Registry) : World N E :=
  { w with registries := Function.update w.registries R reg }

/-- A new registry, with one strong reference; its identity is `w.nregs`. -/
def allocRegistry (w : World N E) (reg : Registry) : World N E :=
  { w with
    registries := Function.update w.registries w.nregs reg
    regStrong := Function.update w.regStrong w.nregs 1
    nregs := w.nregs + 1 }

/-- Clone an `Rc<RefCell<Registry>>`. -/
def cloneRegistry (w : World N E) (R : RegRef) : World N E :=
  { w with regStrong := Function.update w.regStrong R (w.regStrong R + 1) }

/-- Drop an `Rc<RefCell<Registry>>`. -/
def dropRegistry (w : World N E) (R : RegRef) : World N E :=
  if w.regStrong R ≤ 1 then
    { w with
      regStrong := Function.update w.regStrong R 0
      registries := Function.update w.registries R Registry.new }
  else
    { w with regStrong := Function.update w.regStrong R (w.regStrong R - 1) }

/-- `RelRc::registry`. -/
def registry (w : World N E) (r : Ref) : Option RegRef :=
  (w.heap.slot r).filter fun R => w.RegAlive R

/-- `RelRc::try_set_register`: pointer comparison with the stored weak reference, whether or not
that still upgrades. -/
def trySetRegister (w : World N E) (r : Ref) (R : RegRef) : Bool × World N E :=
  match w.heap.slot r with
  | some existing => (existing == R, w)
  | none => (true, w.withHeap (w.heap.setSlot r (some R)))

/-- `RelRc::try_register_in`. -/
def tryRegisterIn (K : KeySource) (w : World N E) (r : Ref) (R : RegRef) :
    Option NodeId × World N E :=
  match w.trySetRegister r R with
  | (false, w) => (none, w)
  | (true, w) =>
    let added := (w.registries R).addNode K w.heap r
    (some added.1, w.setRegistry R added.2)

/-! ### Dropping -/

/-- `Drop for RelRc`: when this is the last strong reference, take the registry cell and, if it
named a registry that still exists, free the node's id there. -/
def dropHook (w : World N E) (r : Ref) : World N E :=
  if 1 < w.heap.strong r then w
  else
    match w.heap.slot r with
    | none => w
    | some R =>
      let w := w.withHeap (w.heap.setSlot r none)
      if w.RegAlive R then
        match (w.registries R).getId w.heap r with
        | none => w
        | some id => w.setRegistry R ((w.registries R).remove w.heap id)
      else w

/-- The hook followed by the decrement of `Rc`. -/
def release (w : World N E) (r : Ref) : World N E :=
  let w := w.dropHook r
  w.withHeap (w.heap.decStrong r)

/-- What dropping one strong reference to `r` leads to drop next: the sources of its incoming
edges, in order, when the reference was the last. -/
def releases (w : World N E) (r : Ref) : List Ref :=
  if w.heap.strong r ≤ 1 then w.heap.allParents r else []

/-- Drop a strong reference, with the cascade through incoming edges. The first argument bounds
the depth of the cascade. -/
def dropAux : ℕ → World N E → Ref → World N E
  | 0, w, _ => w
  | n + 1, w, r => (w.releases r).foldl (dropAux n) (w.release r)

/-- Drop a strong reference. Parents are older than their children, so the cascade from `r` is
no deeper than `r`. -/
def drop (w : World N E) (r : Ref) : World N E := dropAux (r + 1) w r

/-- Drop several strong references in order. -/
def dropAll (w : World N E) (rs : List Ref) : World N E := rs.foldl drop w

/-! ### Outgoing edges -/

/-- `InnerData::all_outgoing`. -/
def allOutgoing (w : World N E) (r : Ref) : List Edge × World N E :=
  let out := w.heap.allOutgoing r
  (out.1, w.withHeap out.2)

/-- `InnerData::all_children`: the targets of the outgoing edges. -/
def allChildren (w : World N E) (r : Ref) : List Ref × World N E :=
  let out := w.allOutgoing r
  (out.1.map Edge.target, out.2)

/-- `InnerData::n_outgoing`: the edges are dropped again. -/
def nOutgoing (w : World N E) (r : Ref) : ℕ × World N E :=
  let out := w.allOutgoing r
  (out.1.length, out.2.dropAll (out.1.map Edge.target))

/-! ### Field lemmas -/

section Fields

variable (w : World N E) (h : Heap N E) (R : RegRef) (reg : Registry)

@[simp] theorem heap_withHeap : (w.withHeap h).heap = h := rfl
@[simp] theorem registries_withHeap : (w.withHeap h).registries = w.registries := rfl
@[simp] theorem regStrong_withHeap : (w.withHeap h).regStrong = w.regStrong := rfl
@[simp] theorem regAlive_withHeap : (w.withHeap h).RegAlive = w.RegAlive := rfl
@[simp] theorem heap_setRegistry : (w.setRegistry R reg).heap = w.heap := rfl
@[simp] theorem regAlive_setRegistry : (w.setRegistry R reg).RegAlive = w.RegAlive := rfl

@[simp] theorem registries_setRegistry_self : (w.setRegistry R reg).registries R = reg :=
  Function.update_self _ _ _

theorem registries_setRegistry_of_ne {R' : RegRef} (h : R' ≠ R) :
    (w.setRegistry R reg).registries R' = w.registries R' := Function.update_of_ne h _ _

end Fields

end World

end Relrc
