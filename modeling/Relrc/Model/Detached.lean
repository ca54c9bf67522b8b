import Relrc.Lib.OrderedMap
import Relrc.Lib.PostOrder
import Relrc.Model.World

/-!
# Detached objects

`detached.rs`: an object is taken out of memory as a map from hashes to records, a record being a
value and the hashes of the parents with the edge values; the cut is a set of hashes that are not
recorded. Attaching rebuilds the recorded objects in post-order on top of given ones.

The type `RelRcHash` and the function `hash_id` are not part of the repository. The model takes the
hash of a node as a **parameter**, a function of its value and of the list of its parents' hashes
and edge values.
-/

namespace Relrc

open Std (ExtTreeMap)
open OrderedMap PostOrder

variable {N E H : Type} [LinearOrder H] [Inhabited H]

/-! ### Hashes -/

namespace Heap

variable (hash : N → List (H × E) → H) (h : Heap N E)

/-- `hash_id`, with a bound on the depth of the recursion. -/
def hashIdAux : ℕ → Ref → H
  | 0, _ => default
  | n + 1, r =>
    match h.value r with
    | some value => hash value ((h.allIncoming r).map fun e => (hashIdAux n e.source, e.value))
    | none => default

/-- `RelRc::hash_id`. Parents are older than their children, so the recursion from `r` is no deeper
than `r`. -/
def hashId (r : Ref) : H := hashIdAux hash h (r + 1) r

end Heap

/-! ### Detaching -/

/-- A record: the value of an object, and its incoming edges by the hash of the source. -/
structure DetachedInnerData (N E H : Type) where
  value : N
  incoming : List (H × E)
deriving DecidableEq

/-- A detached object. -/
structure Detached (N E H : Type) [LinearOrder H] where
  current : H
  allData : ExtTreeMap H (DetachedInnerData N E H)

namespace DetachedInnerData

/-- `DetachedInnerData::new`. -/
def new (hash : N → List (H × E) → H) (h : Heap N E) (value : N)
    (incoming : List (InnerEdgeData E)) : DetachedInnerData N E H :=
  ⟨value, incoming.map fun e => (h.hashId hash e.source, e.value)⟩

/-- `DetachedInnerData::parents`. -/
def parents (data : DetachedInnerData N E H) : List H := data.incoming.map Prod.fst

end DetachedInnerData

section Detach

variable (hash : N → List (H × E) → H) (h : Heap N E) (detachFrom : Finset H)

/-- The worklist of `ancestors_upto`, with a bound on the number of nodes taken from it. The top of
the stack is the head of the list. -/
def ancestorsUptoAux : ℕ → List Ref → ExtTreeMap H Ref → Option (ExtTreeMap H Ref)
  | _, [], allNodes => some allNodes
  | 0, _ :: _, _ => none
  | n + 1, node :: stack, allNodes =>
    let nodeId := h.hashId hash node
    if nodeId ∉ allNodes ∧ nodeId ∉ detachFrom then
      ancestorsUptoAux n ((h.allParents node).reverse ++ stack) (allNodes.insert nodeId node)
    else
      ancestorsUptoAux n stack allNodes

/-- `ancestors_upto`. A node is put on the stack once for every edge that leads to it from an object
that is recorded for the first time. -/
def ancestorsUpto (obj : Ref) : Option (ExtTreeMap H Ref) :=
  ancestorsUptoAux hash h detachFrom (1 + ((List.range h.size).map h.nIncoming).sum) [obj] ∅

/-- `RelRc::detach` and `Detached::new`; `none` would be a worklist that is never empty. -/
def Heap.detach (obj : Ref) : Option (Detached N E H) :=
  (ancestorsUpto hash h detachFrom obj).map fun allRelrc =>
    { current := h.hashId hash obj
      allData := allRelrc.filterMap fun _ n => (h.value n).map fun value =>
        DetachedInnerData.new hash h value (h.allIncoming n) }

end Detach

namespace Detached

variable (d : Detached N E H)

/-- `Detached::required_hashes`. -/
def requiredHashes : List H :=
  (((valuesOf d.allData).flatMap DetachedInnerData.parents).filter
    fun hash => !d.allData.contains hash).eraseDups

/-- `Detached::attaches_to`. -/
def attachesTo (attachTo : ExtTreeMap H Ref) : Bool :=
  d.requiredHashes.all fun hash => attachTo.contains hash

end Detached

/-! ### Attaching -/

/-- The panics of `RelRc::attach`, all of them an `unwrap`. -/
inductive AttachPanic where
  /-- An object to be visited has no record. -/
  | unknownObject
  /-- A parent has not been created and is not given. -/
  | missingParent
  /-- The object itself has not been created. -/
  | notCreated
  /-- Not a panic: traversal without end. -/
  | endless
deriving DecidableEq

/-- The value of an option, or a panic. -/
def unwrap {α : Type} (panic : AttachPanic) (x : Option α) : Except AttachPanic α :=
  match x with
  | some a => .ok a
  | none => .error panic

/-- The given objects by hash, and those that another object with the same hash displaces. -/
def attachMap (hash : N → List (H × E) → H) (h : Heap N E) (attachTo : List Ref) :
    ExtTreeMap H Ref × List Ref :=
  attachTo.foldl (fun acc n =>
    let nodeId := h.hashId hash n
    (acc.1.insert nodeId n, acc.2 ++ (acc.1[nodeId]?).toList)) (∅, [])

section Attach

variable (A : AddrSource) (d : Detached N E H) (attachTo : ExtTreeMap H Ref)

/-- The parents of an object to be created, with the edge values. -/
def attachParents (allNewRelrc : ExtTreeMap H Ref) (incoming : List (H × E)) :
    Except AttachPanic (List (Ref × E)) :=
  incoming.mapM fun pe => do
    let relrc ← unwrap .missingParent ((allNewRelrc[pe.1]?).or attachTo[pe.1]?)
    pure (relrc, pe.2)

/-- The exit event of `attach`: create the object `id`. -/
def attachNode (st : World N E × ExtTreeMap H Ref) (id : H) :
    Except AttachPanic (World N E × ExtTreeMap H Ref) := do
  let data ← unwrap .unknownObject d.allData[id]?
  let parents ← attachParents attachTo st.2 data.incoming
  let w := st.1.withHeap (st.1.heap.incStrongAll (parents.map Prod.fst))
  let relrc := w.heap.size
  pure ((w.withParents A data.value parents).dropAll (st.2[id]?).toList, st.2.insert id relrc)

/-- The successors of an object are its parents. -/
def attachSuccessors (id : H) : Except AttachPanic (List H) := do
  let data ← unwrap .unknownObject d.allData[id]?
  pure data.parents

/-- Rebuild the objects that are not given. Every object is entered at most once, and the first one
possibly again. -/
def attachAll (w : World N E) : Except AttachPanic (World N E × ExtTreeMap H Ref) :=
  postOrderForEach (attachNode A d attachTo) (attachSuccessors d) (fun id => !attachTo.contains id)
    .endless (2 * d.allData.size + 4) [.dfsEnter d.current] ∅ (w, ∅)

end Attach

/-- `RelRc::attach`: the node, and the memory in which the handles in `attachTo` are used up. -/
def World.attach (A : AddrSource) (hash : N → List (H × E) → H) (w : World N E)
    (d : Detached N E H) (attachTo : List Ref) : Except AttachPanic (Ref × World N E) :=
  let given := attachMap hash w.heap attachTo
  let w := w.dropAll given.2
  match given.1[d.current]? with
  | some relrc => pure (relrc, (w.clone relrc).dropAll (valuesOf given.1))
  | none => do
    let (w, allNewRelrc) ← attachAll A d given.1 w
    let relrc ← unwrap .notCreated allNewRelrc[d.current]?
    pure (relrc, (w.dropAll (valuesOf (allNewRelrc.erase d.current))).dropAll (valuesOf given.1))

end Relrc
