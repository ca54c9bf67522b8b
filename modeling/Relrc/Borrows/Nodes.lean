import Relrc.Memory.Invariant
import Relrc.Model.Guarded

/-!
# Borrowing and the `Drop` hook

A node that is dropped takes its own registry cell, and then the registry. Neither is borrowed if no
guard is held when the drop begins (`behaves_drop`); and where a guard **is** held, the node that is
dropped was upgraded under it, so that another strong reference to it exists and the hook returns at
once (`behaves_drop_of_shared`).
-/

namespace Relrc

open SlotStore RefCells Action

namespace Guarded

variable {N E α : Type} {b : Cell → BorrowFlag} {w : World N E} {r : Ref} {R : RegRef}

/-! ### Guards of one statement -/

section Guards

variable {c : Cell} {x : Act N E α} {res : Except Panic (α × World N E)}

/-- When no guard is held, every cell can be borrowed. -/
theorem behaves_withBorrow (hx : ∀ b, Behaves x b w res) : Behaves (withBorrow c x) clear w res :=
  Behaves.withBorrow rfl (hx _)

theorem behaves_withBorrowMut (hx : ∀ b, Behaves x b w res) :
    Behaves (withBorrowMut c x) clear w res :=
  Behaves.withBorrowMut rfl (hx _)

end Guards

/-! ### Upgrading -/

/-- `Weak::upgrade` takes a reference to a live node. -/
theorem behaves_upgrade : Behaves (upgrade r) b w
    (.ok (w.heap.upgrade r, if w.heap.Alive r then w.clone r else w)) := by
  refine Behaves.bind_ok (Behaves.read _) ?_
  rw [Heap.upgrade]
  split_ifs with hr
  · exact Behaves.bind_ok (Behaves.write _) (Behaves.pure _)
  · exact Behaves.pure _

/-- The registry of a node is upgraded while it exists. -/
theorem behaves_upgradeRegistry (hR : w.RegAlive R) :
    Behaves (upgradeRegistry R) b w (.ok (some R, w.cloneRegistry R)) := by
  refine Behaves.bind_ok (Behaves.read _) ?_
  rw [if_pos (decide_eq_true hR)]
  exact Behaves.bind_ok (Behaves.write _) (Behaves.pure _)

theorem behaves_upgradeRegistry_of_not (hR : ¬ w.RegAlive R) :
    Behaves (upgradeRegistry R) b w (.ok (none, w)) := by
  refine Behaves.bind_ok (Behaves.read _) ?_
  rw [if_neg (by simpa using hR)]
  exact Behaves.pure _

/-- A registry that was upgraded is not dropped with the new reference. -/
theorem behaves_dropRegistry (hR : w.RegAlive R) (w' : World N E)
    (hw : w'.regStrong = (w.cloneRegistry R).regStrong) :
    Behaves (dropRegistry R) b w' (.ok ((), { w' with regStrong := w.regStrong })) := by
  have hstrong : w'.regStrong R = w.regStrong R + 1 := by
    rw [hw]
    exact Function.update_self _ _ _
  have hpos : 0 < w.regStrong R := hR
  have hdrop : w'.dropRegistry R = { w' with regStrong := w.regStrong } := by
    rw [World.dropRegistry, if_neg (by omega), hw]
    simp [World.cloneRegistry]
  rw [← hdrop]
  exact Behaves.write _

/-! ### Dropping -/

/-- A cell that is empty may be emptied. -/
theorem setSlot_none_of_slot {h : Heap N E} (hr : h.slot r = none) : h.setSlot r none = h := by
  rw [Heap.setSlot, Heap.modify]
  cases hd : h.data r with
  | none => rw [Option.map_none, ← hd, Function.update_eq_self]
  | some d =>
    have hnone : d.registry = none := by
      rwa [Heap.slot, hd] at hr
    have hsame : ({ d with registry := none } : InnerData N E) = d := by
      rw [← hnone]
    rw [Option.map_some, hsame, ← hd, Function.update_eq_self]

/-- The hook returns at once when another strong reference exists, whatever is borrowed. -/
theorem behaves_dropHook_of_shared (hr : 1 < w.heap.strong r) :
    Behaves (dropHook r) b w (.ok ((), w)) := by
  refine Behaves.bind_ok (Behaves.read _) ?_
  rw [if_pos hr]
  exact Behaves.pure _

/-- The hook borrows the registry twice, one after the other. -/
theorem behaves_freeId (hb : b (.shared R) = .reading 0) (r : Ref) : Behaves (freeId r R) b w
    (.ok ((), if w.RegAlive R then
      match (w.registries R).getId w.heap r with
      | none => w
      | some id => w.setRegistry R ((w.registries R).remove w.heap id)
    else w)) := by
  by_cases hR : w.RegAlive R
  · rw [if_pos hR]
    refine Behaves.bind_ok (behaves_upgradeRegistry hR) ?_
    refine Behaves.bind_ok (Behaves.withBorrow hb (Behaves.read _)) ?_
    change Behaves (match (w.registries R).getId w.heap r with
      | none => dropRegistry R
      | some id => _) b _ _
    cases (w.registries R).getId w.heap r with
    | none => exact behaves_dropRegistry hR _ rfl
    | some id =>
      refine Behaves.bind_ok (Behaves.withBorrowMut hb (Behaves.write _)) ?_
      exact behaves_dropRegistry hR _ rfl
  · rw [if_neg hR]
    exact Behaves.bind_ok (behaves_upgradeRegistry_of_not hR) (Behaves.pure _)

/-- **The hook borrows without conflict** when no guard is held. -/
theorem behaves_dropHook : Behaves (dropHook r) clear w (.ok ((), w.dropHook r)) := by
  refine Behaves.bind_ok (Behaves.read _) ?_
  rw [World.dropHook]
  split_ifs with hr
  · exact Behaves.pure _
  refine Behaves.withBorrowMut rfl ?_
  refine Behaves.bind_ok (Behaves.read _) (Behaves.bind_ok (Behaves.write _) ?_)
  cases hslot : w.heap.slot r with
  | none =>
    rw [setSlot_none_of_slot hslot]
    exact Behaves.pure _
  | some R => exact behaves_freeId rfl r

/-! ### The cascade -/

/-- `Rc::drop` tells whether it was the last reference. -/
theorem behaves_decStrong : Behaves (decStrong r) b w
    (.ok (w.releases r, w.withHeap (w.heap.decStrong r))) :=
  Behaves.bind_ok (Behaves.read _) (Behaves.bind_ok (Behaves.write _) (Behaves.pure _))

/-- The hook changes neither the count nor the incoming edges. -/
theorem releases_dropHook (w : World N E) (r : Ref) : (w.dropHook r).releases r = w.releases r := by
  rw [World.releases, World.releases, Inv.strong_dropHook, Inv.allParents_dropHook]

/-- A cascade borrows one cell at a time. -/
theorem behaves_dropAux (n : ℕ) (r : Ref) :
    Behaves (dropAux n r) clear w (.ok ((), World.dropAux n w r)) := by
  induction n generalizing w r with
  | zero => exact Behaves.pure ()
  | succ n ih =>
    rw [World.dropAux, World.release, ← releases_dropHook]
    refine Behaves.bind_ok behaves_dropHook (Behaves.bind_ok behaves_decStrong ?_)
    exact Behaves.forM fun w p _ => ih p

/-- **Dropping a node borrows without conflict** when no guard is held, and so does the cascade. -/
theorem behaves_drop : Behaves (drop r) clear w (.ok ((), w.drop r)) := behaves_dropAux (r + 1) r

theorem behaves_dropAll (rs : List Ref) : Behaves (dropAll rs) clear w (.ok ((), w.dropAll rs)) :=
  Behaves.forM fun _ _ _ => behaves_drop

/-- A reference that is not the last one is dropped without a borrow. -/
theorem behaves_drop_of_shared (hr : 1 < w.heap.strong r) :
    Behaves (drop r) b w (.ok ((), w.withHeap (w.heap.decStrong r))) := by
  refine Behaves.bind_ok (behaves_dropHook_of_shared hr) (Behaves.bind_ok behaves_decStrong ?_)
  rw [World.releases, if_neg (by omega)]
  exact Behaves.pure ()

/-! ### Nodes -/

/-- A loop over the heap is a loop over the memory. -/
theorem foldl_withHeap {γ : Type} (f : Heap N E → γ → Heap N E) (l : List γ) (w : World N E) :
    l.foldl (fun w y => w.withHeap (f w.heap y)) w = w.withHeap (l.foldl f w.heap) := by
  induction l generalizing w with
  | nil => rfl
  | cons y l ih => exact ih (w.withHeap (f w.heap y))

/-- Each parent's list is borrowed for one push. -/
theorem behaves_registerOutgoingEdges (incoming : List (InnerEdgeData E)) :
    Behaves (registerOutgoingEdges incoming) clear w
      (.ok ((), w.withHeap (w.heap.registerOutgoingEdges incoming))) := by
  rw [Heap.registerOutgoingEdges, ← foldl_withHeap]
  exact Behaves.forM fun w ei _ => behaves_withBorrowMut fun b => Behaves.write _

theorem behaves_withParents (A : AddrSource) (value : N) (parents : List (Ref × E)) :
    Behaves (withParents A value parents) clear w
      (.ok (w.heap.size, w.withParents A value parents)) :=
  Behaves.bind_ok (Behaves.read _) (Behaves.bind_ok (Behaves.write _)
    (Behaves.bind_ok (behaves_registerOutgoingEdges _) (Behaves.pure _)))

theorem behaves_trySetRegister : Behaves (trySetRegister r R) clear w
    (.ok (w.trySetRegister r R)) := by
  refine Behaves.bind_ok (behaves_withBorrow fun b => Behaves.read _) ?_
  rw [World.trySetRegister]
  cases w.heap.slot r with
  | some existing => exact Behaves.pure _
  | none => exact Behaves.bind_ok (behaves_withBorrowMut fun b => Behaves.write _) (Behaves.pure _)

theorem behaves_addNode (K : KeySource) : Behaves (addNode K R r) b w
    (.ok (((w.registries R).addNode K w.heap r).1,
      w.setRegistry R ((w.registries R).addNode K w.heap r).2)) :=
  Behaves.bind_ok (Behaves.read _) (Behaves.bind_ok (Behaves.write _) (Behaves.pure _))

/-- The cell of the node is written before the registry is borrowed. -/
theorem behaves_tryRegisterIn (K : KeySource) : Behaves (tryRegisterIn K r R) clear w
    (.ok (w.tryRegisterIn K r R)) := by
  have hset : Behaves (trySetRegister r R) clear w (.ok (w.trySetRegister r R)) :=
    behaves_trySetRegister
  rw [World.tryRegisterIn]
  generalize w.trySetRegister r R = res at hset
  obtain ⟨same, w'⟩ := res
  refine Behaves.bind_ok hset ?_
  cases same with
  | false => exact Behaves.pure _
  | true =>
    exact Behaves.bind_ok (behaves_withBorrowMut fun b => behaves_addNode K) (Behaves.pure _)

/-! ### Outgoing edges -/

/-- A clone of a live node brings nothing to life. -/
theorem alive_clone (hr : w.heap.Alive r) (x : Ref) :
    (w.clone r).heap.Alive x ↔ w.heap.Alive x := by
  rw [Heap.Alive, World.clone, World.heap_withHeap, Heap.strong_incStrong, Heap.Alive,
    Function.update_apply]
  split_ifs with hx
  · rw [hx]
    exact iff_of_true (Nat.succ_pos _) hr
  · rfl

theorem upgradeEdge_clone (hr : w.heap.Alive r) :
    (w.clone r).heap.upgradeEdge = w.heap.upgradeEdge := by
  funext e
  rw [Heap.upgradeEdge, Heap.upgradeEdge, Heap.upgrade, Heap.upgrade,
    if_congr (alive_clone hr e.target) rfl rfl]

/-- The edges are upgraded one after the other, under the guard of the list they are in. -/
theorem behaves_retainEdge (out : List WeakEdge) (acc : List Edge × List WeakEdge) :
    Behaves (out.foldlM retainEdge acc) b w
      (.ok ((acc.1 ++ out.filterMap w.heap.upgradeEdge,
          acc.2 ++ out.filter fun e => (w.heap.upgradeEdge e).isSome),
        w.withHeap
          (w.heap.incStrongAll ((out.filterMap w.heap.upgradeEdge).map Edge.target)))) := by
  induction out generalizing w acc with
  | nil =>
    rw [List.filterMap_nil, List.filter_nil, List.append_nil, List.append_nil]
    exact Behaves.pure acc
  | cons e out ih =>
    rw [List.foldlM_cons]
    have hup : Behaves (upgradeEdge e) b w (.ok (w.heap.upgradeEdge e,
        if w.heap.Alive e.target then w.clone e.target else w)) :=
      Behaves.bind_ok behaves_upgrade (Behaves.pure _)
    -- a target that was cloned is alive anyway, so the edges to come upgrade as before
    by_cases he : w.heap.Alive e.target
    · have hsome : w.heap.upgradeEdge e = some ⟨e.index, e.target⟩ := by
        rw [Heap.upgradeEdge, Heap.upgrade, if_pos he, Option.map_some]
      rw [if_pos he, hsome] at hup
      have hrest := ih (w := w.clone e.target) (acc.1 ++ [⟨e.index, e.target⟩], acc.2 ++ [e])
      rw [upgradeEdge_clone he, List.append_assoc, List.append_assoc] at hrest
      rw [List.filterMap_cons_some hsome, List.filter_cons_of_pos (by rw [hsome]; rfl)]
      exact Behaves.bind_ok (Behaves.bind_ok hup (Behaves.pure _)) hrest
    · have hnone : w.heap.upgradeEdge e = none := by
        rw [Heap.upgradeEdge, Heap.upgrade, if_neg he, Option.map_none]
      rw [if_neg he, hnone] at hup
      rw [List.filterMap_cons_none hnone, List.filter_cons_of_neg (by rw [hnone]; simp)]
      exact Behaves.bind_ok (Behaves.bind_ok hup (Behaves.pure _)) (ih acc)

/-- Counting references and editing a list may be done in either order. -/
theorem incStrongAll_modifyOutgoing (rs : List Ref) (h : Heap N E) (f) :
    (h.incStrongAll rs).modifyOutgoing r f = (h.modifyOutgoing r f).incStrongAll rs := by
  induction rs generalizing h with
  | nil => rfl
  | cons x rs ih => exact ih (h.incStrong x)

theorem modifyOutgoing_const (h : Heap N E) (f : List WeakEdge → List WeakEdge) :
    (h.modifyOutgoing r fun _ => f (h.allOutgoingWeak r)) = h.modifyOutgoing r f := by
  rw [Heap.modifyOutgoing, Heap.modifyOutgoing, Heap.modify, Heap.modify, Heap.allOutgoingWeak]
  cases h.data r <;> rfl

/-- `all_outgoing` upgrades its edges under the borrow of the list, and returns them after it. -/
theorem behaves_allOutgoing : Behaves (allOutgoing r) clear w (.ok (w.allOutgoing r)) := by
  rw [World.allOutgoing, Heap.allOutgoing]
  simp only
  rw [← modifyOutgoing_const, ← incStrongAll_modifyOutgoing]
  refine Behaves.bind_ok (behaves_withBorrow fun b => Behaves.read _) ?_
  refine behaves_withBorrowMut fun b => ?_
  refine Behaves.bind_ok (Behaves.read _) (Behaves.bind_ok (behaves_retainEdge _ _) ?_)
  exact Behaves.bind_ok (Behaves.write _) (Behaves.pure _)

/-- `n_outgoing` drops what it has upgraded after the borrow has ended. -/
theorem behaves_nOutgoing : Behaves (nOutgoing r) clear w (.ok (w.nOutgoing r)) :=
  Behaves.bind_ok behaves_allOutgoing (Behaves.bind_ok (behaves_dropAll _) (Behaves.pure _))

end Guarded

end Relrc
