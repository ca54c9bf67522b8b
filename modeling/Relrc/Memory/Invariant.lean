import Relrc.Memory.HeapInv
import Relrc.Memory.RegistryFacts
import Relrc.Model.World

/-!
# The memory invariant

`Inv w held regs` extends the heap invariant to registries and addresses, relative to the strong
references to nodes (`held`) and to registries (`regs`) that exist outside of memory.

The fields about addresses are the ones an allocator guarantees through strong *and* weak
references: allocations in use have distinct addresses. Every entry of a registry is a weak
reference, so an address that is a key of `ptrToId` cannot be given to another node.
-/

namespace Relrc

open SlotStore Ancestry

variable {N E : Type}

/-- A weak reference to `r`: in a program handle, an `outgoing` list, a registry or a stored
edge. -/
def World.WeakTo (w : World N E) (r : Ref) : Prop :=
  r ∈ w.weaks ∨ (∃ c, ∃ e ∈ w.heap.allOutgoingWeak c, e.target = r) ∨
    (∃ R, (w.registries R).Has r) ∨ ∃ c, ∃ e ∈ w.heap.allIncoming c, e.target = r

/-- The invariant of memory, but for the edges at the nodes of `X`. -/
structure Inv (w : World N E) (held : Multiset Ref) (regs : Multiset RegRef)
    (X : Exempt := ∅) : Prop where
  heap : HeapInv w.heap held X
  inUse_lt : ∀ r, w.InUse r → r < w.heap.size
  addr_inj : ∀ r s, w.InUse r → w.InUse s → w.heap.addr r = w.heap.addr s → r = s
  inverse : ∀ R, (w.registries R).Inverse w.heap.addr
  reg_count : ∀ R, w.regStrong R = regs.count R
  reg_lt : ∀ R, w.RegAlive R → R < w.nregs
  reg_dead : ∀ R, ¬ w.RegAlive R → w.registries R = Registry.new

/-- A node is in use when it is live or weakly referred to. -/
theorem World.mem_weakRefs_iff {w : World N E} {held : Multiset Ref} {X : Exempt}
    (hh : HeapInv w.heap held X)
    (hlt : ∀ R, w.RegAlive R → R < w.nregs)
    (hdead : ∀ R, ¬ w.RegAlive R → w.registries R = Registry.new) {r : Ref} :
    w.InUse r ↔ w.heap.Alive r ∨ w.WeakTo r := by
  have hbound : ∀ c, w.heap.data c ≠ none → c < w.heap.size :=
    fun c hc => hh.alive_lt c (hh.alive_of_data hc)
  simp only [World.InUse, World.weakRefs, World.WeakTo, List.mem_append, List.mem_flatMap,
    List.mem_range, List.mem_map, Registry.Has, Slots.mem_values]
  constructor
  · rintro (hr | (hr | ⟨c, -, ⟨e, he, rfl⟩ | ⟨e, he, rfl⟩⟩) | ⟨R, -, hR⟩)
    · exact Or.inl hr
    · exact Or.inr (Or.inl hr)
    · exact Or.inr (Or.inr (Or.inr (Or.inr ⟨c, e, he, rfl⟩)))
    · exact Or.inr (Or.inr (Or.inl ⟨c, e, he, rfl⟩))
    · exact Or.inr (Or.inr (Or.inr (Or.inl ⟨R, hR⟩)))
  · rintro (hr | hr | ⟨c, e, he, rfl⟩ | ⟨R, id, hR⟩ | ⟨c, e, he, rfl⟩)
    · exact Or.inl hr
    · exact Or.inr (Or.inl (Or.inl hr))
    · refine Or.inr (Or.inl (Or.inr ⟨c, hbound c fun hn => ?_, Or.inr ⟨e, he, rfl⟩⟩))
      rw [Heap.allOutgoingWeak_of_data_none hn] at he
      exact absurd he List.not_mem_nil
    · refine Or.inr (Or.inr ⟨R, hlt R ?_, id, hR⟩)
      by_contra hR'
      rw [hdead R hR'] at hR
      cases hR
    · refine Or.inr (Or.inl (Or.inr ⟨c, hbound c fun hn => ?_, Or.inl ⟨e, he, rfl⟩⟩))
      rw [Heap.allIncoming_of_data_none hn] at he
      exact absurd he List.not_mem_nil

namespace Inv

variable {w : World N E} {held : Multiset Ref} {regs : Multiset RegRef} {X : Exempt}

theorem inUse_iff (hi : Inv w held regs X) {r : Ref} : w.InUse r ↔ w.heap.Alive r ∨ w.WeakTo r :=
  World.mem_weakRefs_iff hi.heap hi.reg_lt hi.reg_dead

theorem inUse_of_alive {r : Ref} (hr : w.heap.Alive r) : w.InUse r := Or.inl hr

theorem inUse_of_weak (hi : Inv w held regs X) {r : Ref} (hr : r ∈ w.weaks) : w.InUse r :=
  hi.inUse_iff.mpr (Or.inr (Or.inl hr))

theorem inUse_of_outgoing (hi : Inv w held regs X) {c : Ref} {e : WeakEdge}
    (he : e ∈ w.heap.allOutgoingWeak c) : w.InUse e.target :=
  hi.inUse_iff.mpr (Or.inr (Or.inr (Or.inl ⟨c, e, he, rfl⟩)))

theorem inUse_of_incoming (hi : Inv w held regs X) {c : Ref} {e : InnerEdgeData E}
    (he : e ∈ w.heap.allIncoming c) : w.InUse e.target :=
  hi.inUse_iff.mpr (Or.inr (Or.inr (Or.inr (Or.inr ⟨c, e, he, rfl⟩))))

theorem inUse_of_entry (hi : Inv w held regs X) {R : RegRef} {id : NodeId} {r : Ref}
    (hr : (w.registries R).nodes.get id = some r) : w.InUse r :=
  hi.inUse_iff.mpr (Or.inr (Or.inr (Or.inr (Or.inl ⟨R, id, hr⟩))))

theorem inUse_of_has (hi : Inv w held regs X) {R : RegRef} {r : Ref}
    (hr : (w.registries R).Has r) : w.InUse r := by
  obtain ⟨id, hid⟩ := hr
  exact hi.inUse_of_entry hid

/-- **Addresses name nodes faithfully**: for a node in use, `get_id` answers the id under which
that very node is registered. -/
theorem getId_eq_some_iff (hi : Inv w held regs X) {R : RegRef} {id : NodeId} {r : Ref}
    (hr : w.InUse r) :
    (w.registries R).getId w.heap r = some id ↔ (w.registries R).nodes.get id = some r := by
  constructor
  · intro h
    obtain ⟨x, hx, hxr⟩ := (hi.inverse R).node_of_ptr _ _ h
    rwa [hi.addr_inj x r (hi.inUse_of_entry hx) hr hxr] at hx
  · exact (hi.inverse R).ptr_of_node id r

/-- A lookup finds nothing just when there is no entry: no other node in use has the address. -/
theorem getId_eq_none_iff (hi : Inv w held regs X) {R : RegRef} {r : Ref} (hr : w.InUse r) :
    (w.registries R).getId w.heap r = none ↔ ¬ (w.registries R).Has r := by
  rw [Option.eq_none_iff_forall_ne_some]
  simp [Registry.Has, hi.getId_eq_some_iff hr]

theorem regAlive_of_mem (hi : Inv w held regs X) {R : RegRef} (hR : R ∈ regs) : w.RegAlive R := by
  have hpos := Multiset.count_pos.mpr hR
  rw [World.RegAlive, hi.reg_count]
  exact hpos

theorem mem_of_regAlive (hi : Inv w held regs X) {R : RegRef} (hR : w.RegAlive R) : R ∈ regs := by
  rw [World.RegAlive, hi.reg_count] at hR
  exact Multiset.count_pos.mp hR

theorem regAlive_of_has (hi : Inv w held regs X) {R : RegRef} {r : Ref}
    (hr : (w.registries R).Has r) : w.RegAlive R := by
  by_contra hR
  rw [hi.reg_dead R hR] at hr
  obtain ⟨id, hid⟩ := hr
  cases hid

/-! ### Preservation -/

/-- Operations that allocate no node keep the invariant as soon as they bring no reference to a
node that was not in use. -/
private theorem of_subset {w' : World N E} {held' : Multiset Ref} {regs' : Multiset RegRef}
    {X' : Exempt} (hi : Inv w held regs X) (hheap : HeapInv w'.heap held' X')
    (hsize : w'.heap.size = w.heap.size) (haddr : w'.heap.addr = w.heap.addr)
    (hsub : ∀ r, w'.heap.Alive r ∨ w'.WeakTo r → w.InUse r)
    (hinv : ∀ R, (w'.registries R).Inverse w.heap.addr)
    (hcount : ∀ R, w'.regStrong R = regs'.count R) (hlt : ∀ R, w'.RegAlive R → R < w'.nregs)
    (hdead : ∀ R, ¬ w'.RegAlive R → w'.registries R = Registry.new) : Inv w' held' regs' X' := by
  have hin : ∀ r, w'.InUse r → w.InUse r :=
    fun r hr => hsub r ((World.mem_weakRefs_iff hheap hlt hdead).mp hr)
  refine ⟨hheap, fun r hr => ?_, fun r s hr hs hrs => ?_, ?_, hcount, hlt, hdead⟩
  · rw [hsize]
    exact hi.inUse_lt r (hin r hr)
  · rw [haddr] at hrs
    exact hi.addr_inj r s (hin r hr) (hin s hs) hrs
  · rw [haddr]
    exact hinv

/-- A heap operation that allocates no node and writes no weak reference. -/
private theorem withHeap {h' : Heap N E} {held' : Multiset Ref} {X' : Exempt}
    (hi : Inv w held regs X) (hheap : HeapInv h' held' X') (hsize : h'.size = w.heap.size)
    (haddr : h'.addr = w.heap.addr)
    (halive : ∀ r, h'.Alive r → w.heap.Alive r)
    (hout : ∀ c, ∀ e ∈ h'.allOutgoingWeak c, e ∈ w.heap.allOutgoingWeak c)
    (hin : ∀ c, ∀ e ∈ h'.allIncoming c, e ∈ w.heap.allIncoming c) :
    Inv (w.withHeap h') held' regs X' := by
  refine hi.of_subset hheap hsize haddr ?_ hi.inverse hi.reg_count hi.reg_lt hi.reg_dead
  rintro r (hr | hr | ⟨c, e, he, rfl⟩ | ⟨R, hr⟩ | ⟨c, e, he, rfl⟩)
  · exact inUse_of_alive (halive r hr)
  · exact hi.inUse_of_weak hr
  · exact hi.inUse_of_outgoing (hout c e he)
  · exact hi.inUse_of_has hr
  · exact hi.inUse_of_incoming (hin c e he)

theorem clone (hi : Inv w held regs X) {r : Ref} (hr : w.heap.Alive r) :
    Inv (w.clone r) (r ::ₘ held) regs X := by
  refine hi.withHeap (hi.heap.incStrong hr) rfl rfl (fun x hx => ?_) (fun c e he => he)
    fun c e he => he
  by_cases hxr : x = r
  · exact hxr ▸ hr
  · simpa [Heap.Alive, Heap.strong_incStrong, hxr] using hx

/-- Remove the dead entries of an `outgoing` list. -/
theorem prune (hi : Inv w held regs X) (r : Ref) : Inv (w.withHeap (w.heap.modifyOutgoing r
    fun out => out.filter fun e => (w.heap.upgradeEdge e).isSome)) held regs X := by
  refine hi.withHeap (hi.heap.prune r) rfl rfl (fun _ hx => hx) (fun c e he => ?_)
    fun c e he => by rwa [(Heap.sameNodes_modifyOutgoing w.heap r _).allIncoming] at he
  by_cases hd : w.heap.data c = none
  · rw [Heap.allOutgoingWeak_of_data_none
      (((Heap.sameNodes_modifyOutgoing w.heap r _).data_eq_none_iff c).mpr hd)] at he
    exact absurd he List.not_mem_nil
  · rw [Heap.allOutgoingWeak_modifyOutgoing _ _ _ _ hd] at he
    split_ifs at he
    · exact List.mem_of_mem_filter he
    · exact he

theorem setSlot (hi : Inv w held regs X) (r : Ref) (R : Option RegRef) :
    Inv (w.withHeap (w.heap.setSlot r R)) held regs X :=
  hi.withHeap (hi.heap.setSlot r R) rfl rfl (fun _ hx => hx) (fun c e he => by simpa using he)
    fun c e he => by simpa using he

/-- A reference goes; if it was the last one, those to the parents are left. -/
theorem decStrong {r : Ref} (hi : Inv w (r ::ₘ held) regs X) : Inv (w.withHeap (w.heap.decStrong r))
    (held + ((if w.heap.strong r ≤ 1 then w.heap.allParents r else [] : List Ref) :
      Multiset Ref)) regs X := by
  refine hi.withHeap hi.heap.decStrong (Heap.size_decStrong _ _) (Heap.addr_decStrong _ _)
    (fun x hx => lt_of_lt_of_le hx (Heap.strong_decStrong_le _ _ _)) (fun c e he => ?_)
    fun c e he => ?_
  · by_cases hd : c = r ∧ w.heap.strong r ≤ 1
    · rw [Heap.allOutgoingWeak_of_data_none (by rw [Heap.data_decStrong, if_pos hd])] at he
      exact absurd he List.not_mem_nil
    · simpa [Heap.allOutgoingWeak, Heap.data_decStrong, hd] using he
  · by_cases hd : c = r ∧ w.heap.strong r ≤ 1
    · rw [Heap.allIncoming_of_data_none (by rw [Heap.data_decStrong, if_pos hd])] at he
      exact absurd he List.not_mem_nil
    · simpa [Heap.allIncoming, Heap.data_decStrong, hd] using he

/-- Registries may be given any inverse pair of maps over nodes in use. -/
theorem setRegistry (hi : Inv w held regs X) {R : RegRef} (hR : w.RegAlive R) {reg : Registry}
    (hinv : reg.Inverse w.heap.addr) (hin : ∀ r, reg.Has r → w.InUse r) :
    Inv (w.setRegistry R reg) held regs X := by
  refine hi.of_subset hi.heap rfl rfl ?_ (fun R' => ?_) hi.reg_count hi.reg_lt fun R' hR' => ?_
  · rintro r (hr | hr | ⟨c, e, he, rfl⟩ | ⟨R', hr⟩ | ⟨c, e, he, rfl⟩)
    · exact inUse_of_alive hr
    · exact hi.inUse_of_weak hr
    · exact hi.inUse_of_outgoing he
    · by_cases h : R' = R
      · subst h
        rw [World.registries_setRegistry_self] at hr
        exact hin r hr
      · rw [World.registries_setRegistry_of_ne _ _ _ h] at hr
        exact hi.inUse_of_has hr
    · exact hi.inUse_of_incoming he
  · by_cases h : R' = R
    · subst h
      rw [World.registries_setRegistry_self]
      exact hinv
    · rw [World.registries_setRegistry_of_ne _ _ _ h]
      exact hi.inverse R'
  · have h : R' ≠ R := fun h => hR' (h ▸ hR)
    rw [World.registries_setRegistry_of_ne _ _ _ h]
    exact hi.reg_dead R' hR'

theorem addNode (K : KeySource) (hi : Inv w held regs X) {R : RegRef} (hR : w.RegAlive R) {r : Ref}
    (hr : w.heap.Alive r) :
    Inv (w.setRegistry R ((w.registries R).addNode K w.heap r).2) held regs X := by
  refine hi.setRegistry hR ((hi.inverse R).addNode K w.heap r) ?_
  rintro x ⟨id, hx⟩
  rcases Registry.get_of_addNode K _ _ _ hx with hx | ⟨rfl, -⟩
  · exact hi.inUse_of_entry hx
  · exact inUse_of_alive hr

theorem removeId (hi : Inv w held regs X) {R : RegRef} (hR : w.RegAlive R) (id : NodeId) :
    Inv (w.setRegistry R ((w.registries R).remove w.heap id)) held regs X := by
  refine hi.setRegistry hR ((hi.inverse R).remove w.heap id) ?_
  rintro x ⟨id', hx⟩
  rw [Registry.get_remove] at hx
  split_ifs at hx
  exact hi.inUse_of_entry hx

theorem freeNodeIds (hi : Inv w held regs X) {R : RegRef} (hR : w.RegAlive R) :
    Inv (w.setRegistry R ((w.registries R).freeNodeIds w.heap).2) held regs X := by
  refine hi.setRegistry hR ((hi.inverse R).freeNodeIds w.heap) ?_
  rintro x ⟨id, hx⟩
  exact hi.inUse_of_entry ((Registry.get_freeNodeIds _ _).mp hx).1

theorem trySetRegister (hi : Inv w held regs X) (r : Ref) (R : RegRef) :
    Inv (w.trySetRegister r R).2 held regs X := by
  rw [World.trySetRegister]
  split
  · exact hi
  · exact hi.setSlot r (some R)

theorem tryRegisterIn (K : KeySource) (hi : Inv w held regs X) {r : Ref} (hr : w.heap.Alive r)
    {R : RegRef} (hR : w.RegAlive R) : Inv (w.tryRegisterIn K r R).2 held regs X := by
  have hset := hi.trySetRegister r R
  have hr' : (w.trySetRegister r R).2.heap.Alive r := by
    rw [World.trySetRegister]
    split <;> exact hr
  have hR' : (w.trySetRegister r R).2.RegAlive R := by
    rw [World.trySetRegister]
    split <;> exact hR
  rw [World.tryRegisterIn]
  split
  · rename_i w' heq
    rw [heq] at hset
    exact hset
  · rename_i w' heq
    rw [heq] at hset hr' hR'
    exact hset.addNode K hR' hr'

/-- The `Drop` hook takes a registry cell and may free one id. -/
theorem dropHook (hi : Inv w held regs X) (r : Ref) : Inv (w.dropHook r) held regs X := by
  rw [World.dropHook]
  split_ifs
  · exact hi
  · split
    · exact hi
    · rename_i R _
      have hset := hi.setSlot r none
      simp only
      split_ifs with hR
      · split
        · exact hset
        · exact hset.removeId hR _
      · exact hset


theorem strong_dropHook (w : World N E) (r : Ref) : (w.dropHook r).heap.strong = w.heap.strong := by
  rw [World.dropHook]
  split_ifs
  · rfl
  · split
    · rfl
    · simp only
      split_ifs
      · split <;> rfl
      · rfl

theorem allParents_dropHook (w : World N E) (r : Ref) :
    (w.dropHook r).heap.allParents = w.heap.allParents := by
  rw [World.dropHook]
  split_ifs
  · rfl
  · split
    · rfl
    · simp only
      split_ifs
      · split <;> simp
      · simp

/-- Giving up one reference, hook included. -/
theorem release {r : Ref} (hi : Inv w (r ::ₘ held) regs X) :
    Inv (w.release r) (held + (w.releases r : Multiset Ref)) regs X := by
  have h := (hi.dropHook r).decStrong
  rwa [strong_dropHook, allParents_dropHook] at h

/-! New nodes. -/

/-- A new node gets an address of its own. -/
theorem addr_ne_nextAddr {A : AddrSource} (hi : Inv w held regs X) {r : Ref} (hr : w.InUse r) :
    w.heap.addr r ≠ w.nextAddr A := by
  intro heq
  refine A.fresh w.heap.size w.usedAddrs ?_
  rw [← World.nextAddr, ← heq]
  exact List.mem_map_of_mem (List.mem_filter.mpr
    ⟨List.mem_range.mpr (hi.inUse_lt r hr), decide_eq_true hr⟩)

/-- A heap operation that allocates one node, whose weak references were in use. -/
private theorem withAlloc (A : AddrSource) {h' : Heap N E} {held' : Multiset Ref} {X' : Exempt}
    (hi : Inv w held regs X) (hheap : HeapInv h' held' X') (hsize : h'.size = w.heap.size + 1)
    (haddr : h'.addr = Function.update w.heap.addr w.heap.size (w.nextAddr A))
    (hsub : ∀ r, r ≠ w.heap.size → h'.Alive r ∨ (w.withHeap h').WeakTo r → w.InUse r) :
    Inv (w.withHeap h') held' regs X' := by
  have huse : ∀ r, (w.withHeap h').InUse r → r = w.heap.size ∨ w.InUse r := fun r hr =>
    or_iff_not_imp_left.mpr fun hrs => hsub r hrs
      ((World.mem_weakRefs_iff (w := w.withHeap h') hheap hi.reg_lt hi.reg_dead).mp hr)
  -- a new address is none of those in use, dead nodes included
  have hfresh : ∀ r, w.InUse r → w.heap.addr r ≠ w.nextAddr A := fun _ hr => hi.addr_ne_nextAddr hr
  have hold : ∀ r, w.InUse r → h'.addr r = w.heap.addr r := by
    intro r hr
    rw [haddr, Function.update_of_ne (Nat.ne_of_lt (hi.inUse_lt r hr))]
  have hnew : h'.addr w.heap.size = w.nextAddr A := by rw [haddr, Function.update_self]
  refine ⟨hheap, fun r hr => ?_, fun r s hr hs hrs => ?_, fun R => ?_, hi.reg_count, hi.reg_lt,
    hi.reg_dead⟩
  · rw [World.heap_withHeap, hsize]
    rcases huse r hr with rfl | hr
    · exact Nat.lt_succ_self _
    · exact (hi.inUse_lt r hr).trans (Nat.lt_succ_self _)
  · rw [World.heap_withHeap] at hrs
    rcases huse r hr with rfl | hr <;> rcases huse s hs with rfl | hs
    · rfl
    · rw [hnew, hold s hs] at hrs
      exact absurd hrs.symm (hfresh s hs)
    · rw [hnew, hold r hr] at hrs
      exact absurd hrs (hfresh r hr)
    · rw [hold r hr, hold s hs] at hrs
      exact hi.addr_inj r s hr hs hrs
  · exact (hi.inverse R).congr fun id r hr => hold r (hi.inUse_of_entry hr)

/-- A node is made of references to its parents. -/
theorem withParents (A : AddrSource) (v : N) (ps : List (Ref × E))
    (hi : Inv w (((ps.map Prod.fst : List Ref) : Multiset Ref) + held) regs X) :
    Inv (w.withParents A v ps) (w.heap.size ::ₘ held) regs X := by
  have hheap := hi.heap.withParents (w.nextAddr A) v ps
  refine hi.withAlloc A hheap (Heap.size_withParents _ _ _ _) (Heap.addr_withParents _ _ _ _) ?_
  rintro r hrs (hr | hr | ⟨c, e, he, rfl⟩ | ⟨R, hr⟩ | ⟨c, e, he, rfl⟩)
  · refine inUse_of_alive ?_
    simpa [Heap.Alive, Heap.strong_withParents, hrs] using hr
  · exact hi.inUse_of_weak hr
  · exact hi.inUse_of_outgoing (Heap.mem_outgoing_of_withParents he hrs)
  · exact hi.inUse_of_has hr
  · rw [World.heap_withHeap, Heap.allIncoming_withParents] at he
    split_ifs at he
    · -- an edge of the new node has it as target
      obtain ⟨pe, -, rfl⟩ := List.mem_map.mp he
      exact absurd rfl hrs
    · exact hi.inUse_of_incoming he

/-- A value becomes a node, with the references in it. -/
theorem alloc (A : AddrSource) {d : InnerData N E}
    (hi : Inv w ((d.incoming.map InnerEdgeData.source : List Ref) + held) regs X)
    (hin : ∀ e ∈ d.incoming, w.InUse e.target) (hout : ∀ e ∈ d.outgoing, w.InUse e.target) :
    Inv (w.withHeap (w.heap.alloc (w.nextAddr A) d)) (w.heap.size ::ₘ held) regs
      (X.wrap w.heap d) := by
  have hheap := hi.heap.alloc (w.nextAddr A) fun e he => hi.inUse_lt _ (hout e he)
  refine hi.withAlloc A hheap rfl rfl ?_
  rintro r hrs (hr | hr | ⟨c, e, he, rfl⟩ | ⟨R, hr⟩ | ⟨c, e, he, rfl⟩)
  · refine inUse_of_alive ?_
    simpa [Heap.Alive, Heap.strong_alloc, hrs] using hr
  · exact hi.inUse_of_weak hr
  · rw [World.heap_withHeap, Heap.allOutgoingWeak_alloc] at he
    split_ifs at he
    · exact hout e he
    · exact hi.inUse_of_outgoing he
  · exact hi.inUse_of_has hr
  · rw [World.heap_withHeap, Heap.allIncoming_alloc] at he
    split_ifs at he
    · exact hin e he
    · exact hi.inUse_of_incoming he

/-! Registries come and go. -/

theorem setWeaks (hi : Inv w held regs X) {ws : List Ref} (hws : ∀ r ∈ ws, w.InUse r) :
    Inv { w with weaks := ws } held regs X := by
  refine hi.of_subset hi.heap rfl rfl ?_ hi.inverse hi.reg_count hi.reg_lt hi.reg_dead
  rintro r (hr | hr | hr)
  · exact inUse_of_alive hr
  · exact hws r hr
  · exact hi.inUse_iff.mpr (Or.inr (Or.inr hr))

theorem cloneRegistry (hi : Inv w held regs X) {R : RegRef} (hR : w.RegAlive R) :
    Inv (w.cloneRegistry R) held (R ::ₘ regs) X := by
  have halive : ∀ R', (w.cloneRegistry R).RegAlive R' ↔ w.RegAlive R' := by
    intro R'
    by_cases h : R' = R
    · subst h
      simp only [World.RegAlive, World.cloneRegistry, Function.update_self] at hR ⊢
      omega
    · simp [World.RegAlive, World.cloneRegistry, h]
  refine hi.of_subset hi.heap rfl rfl (fun r hr => hi.inUse_iff.mpr hr) hi.inverse (fun R' => ?_)
    (fun R' hR' => hi.reg_lt R' ((halive R').mp hR'))
    fun R' hR' => hi.reg_dead R' fun h => hR' ((halive R').mpr h)
  have hcount := hi.reg_count R'
  by_cases h : R' = R
  · subst h
    simp [World.cloneRegistry, hcount]
  · simp [World.cloneRegistry, h, hcount]

/-- A reference to a registry goes; if it was the last one, its entries go too. -/
theorem dropRegistry {R : RegRef} (hi : Inv w held (R ::ₘ regs) X) :
    Inv (w.dropRegistry R) held regs X := by
  rw [World.dropRegistry]
  split_ifs with hR
  · -- the last reference: the registry is emptied
    refine hi.of_subset hi.heap rfl rfl ?_ (fun R' => ?_) (fun R' => ?_) (fun R' hR' => ?_)
      fun R' hR' => ?_
    · rintro r (hr | hr | ⟨c, e, he, rfl⟩ | ⟨R', id, hr⟩ | ⟨c, e, he, rfl⟩)
      · exact inUse_of_alive hr
      · exact hi.inUse_of_weak hr
      · exact hi.inUse_of_outgoing he
      · by_cases h : R' = R
        · subst h
          simp [Registry.new] at hr
        · have hentry : (w.registries R').nodes.get id = some r := by simpa [h] using hr
          exact hi.inUse_of_entry hentry
      · exact hi.inUse_of_incoming he
    · by_cases h : R' = R
      · subst h
        simpa using Registry.Inverse.new
      · simpa [h] using hi.inverse R'
    · have hcount := hi.reg_count R'
      by_cases h : R' = R
      · subst h
        rw [Multiset.count_cons_self] at hcount
        simp only [Function.update_self]
        omega
      · rw [Multiset.count_cons_of_ne h] at hcount
        simpa [h] using hcount
    · by_cases h : R' = R
      · subst h
        simp [World.RegAlive] at hR'
      · exact hi.reg_lt R' (by simpa [World.RegAlive, h] using hR')
    · by_cases h : R' = R
      · subst h
        simp
      · have := hi.reg_dead R' fun hR'' => hR' (by simpa [World.RegAlive, h] using hR'')
        simpa [h] using this
  · -- other references are left
    have halive : ∀ R', 0 < Function.update w.regStrong R (w.regStrong R - 1) R' ↔
        w.RegAlive R' := by
      intro R'
      by_cases h : R' = R
      · subst h
        simp only [World.RegAlive, Function.update_self]
        omega
      · simp [World.RegAlive, h]
    refine hi.of_subset hi.heap rfl rfl (fun r hr => hi.inUse_iff.mpr hr) hi.inverse
      (fun R' => ?_) (fun R' hR' => hi.reg_lt R' ((halive R').mp hR'))
      fun R' hR' => hi.reg_dead R' fun h => hR' ((halive R').mpr h)
    have hcount := hi.reg_count R'
    by_cases h : R' = R
    · subst h
      rw [Multiset.count_cons_self] at hcount
      simp only [Function.update_self]
      omega
    · rw [Multiset.count_cons_of_ne h] at hcount
      simpa [h] using hcount

theorem allocRegistry (hi : Inv w held regs X) {reg : Registry} (hinv : reg.Inverse w.heap.addr)
    (hin : ∀ r, reg.Has r → w.InUse r) :
    Inv (w.allocRegistry reg) held (w.nregs ::ₘ regs) X := by
  have hzero : w.regStrong w.nregs = 0 := by
    by_contra h0
    exact Nat.lt_irrefl _ (hi.reg_lt w.nregs (Nat.pos_of_ne_zero h0))
  refine hi.of_subset hi.heap rfl rfl ?_ (fun R => ?_) (fun R => ?_) (fun R hR => ?_)
    fun R hR => ?_
  · rintro r (hr | hr | ⟨c, e, he, rfl⟩ | ⟨R, hr⟩ | ⟨c, e, he, rfl⟩)
    · exact inUse_of_alive hr
    · exact hi.inUse_of_weak hr
    · exact hi.inUse_of_outgoing he
    · by_cases h : R = w.nregs
      · subst h
        exact hin r (by simpa [World.allocRegistry] using hr)
      · exact hi.inUse_of_has (R := R) (by simpa [World.allocRegistry, h] using hr)
    · exact hi.inUse_of_incoming he
  · by_cases h : R = w.nregs
    · subst h
      simpa [World.allocRegistry] using hinv
    · simpa [World.allocRegistry, h] using hi.inverse R
  · have hcount := hi.reg_count R
    by_cases h : R = w.nregs
    · subst h
      simp only [World.allocRegistry, Function.update_self, Multiset.count_cons_self]
      omega
    · simp [World.allocRegistry, h, hcount]
  · by_cases h : R = w.nregs
    · subst h
      exact Nat.lt_succ_self _
    · refine (hi.reg_lt R ?_).trans (Nat.lt_succ_self _)
      simpa [World.RegAlive, World.allocRegistry, h] using hR
  · have h : R ≠ w.nregs := by
      rintro rfl
      simp [World.RegAlive, World.allocRegistry] at hR
    have hdead := hi.reg_dead R fun hR' => hR (by
      simpa [World.RegAlive, World.allocRegistry, h] using hR')
    simpa [World.allocRegistry, h] using hdead

theorem empty : Inv (World.empty : World N E) 0 0 X where
  heap := HeapInv.empty
  inUse_lt r hr := by
    rcases hr with hr | hr
    · exact absurd hr (Nat.lt_irrefl 0)
    · simp [World.weakRefs, World.empty, Heap.empty] at hr
  addr_inj r s hr := by
    rcases hr with hr | hr
    · exact absurd hr (Nat.lt_irrefl 0)
    · simp [World.weakRefs, World.empty, Heap.empty] at hr
  inverse R := Registry.Inverse.new
  reg_count R := by simp [World.empty]
  reg_lt R hR := absurd hR (Nat.lt_irrefl 0)
  reg_dead R _ := rfl

end Inv

end Relrc
