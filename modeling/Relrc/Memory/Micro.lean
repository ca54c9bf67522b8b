import Relrc.Memory.Invariant

/-!
# Elementary steps

Everything the library does to memory is a sequence of the steps of `Micro`: allocate a node,
clone or give up one strong reference, prune an `outgoing` list, write one entry of a registry,
create, clone or give up a registry. A `Config` is a memory together with the strong references
that exist outside of it; a step says what happens to both.

What holds over every run is proved here once, step by step, and used through `Steps`:

* the invariant `Inv` (`Steps.inv`);
* values and incoming edges of live nodes never change, the dead stay dead, addresses of
  allocations never change (`Frame`);
* as long as nobody calls `Registry::remove`, an id obtained through `try_register_in` belongs to
  its node until the node dies and is gone from then on (`Tracked`, `Forgotten`).

`Access` names the ways in which a run may write a registry other than by letting nodes die, so
that a result can be stated for runs without some of them.
-/

namespace Relrc

open SlotStore Ancestry

variable {N E : Type}

/-- Memory and the strong references outside of it. -/
structure Config (N E : Type) where
  world : World N E
  held : Multiset Ref
  regs : Multiset RegRef

/-- Elementary steps of memory, with accesses to registries restricted to those in `ok`. -/
inductive Micro (A : AddrSource) (K : KeySource) (ok : Access → Prop) :
    Config N E → Config N E → Prop where
  | alloc (w : World N E) (H G) (v : N) (ps : List (Ref × E)) :
      Micro A K ok ⟨w, ((ps.map Prod.fst : List Ref) : Multiset Ref) + H, G⟩
        ⟨w.withParents A v ps, w.heap.size ::ₘ H, G⟩
  | clone (w : World N E) (H G) (r : Ref) (hr : w.heap.Alive r) :
      Micro A K ok ⟨w, H, G⟩ ⟨w.clone r, r ::ₘ H, G⟩
  | release (w : World N E) (H G) (r : Ref) :
      Micro A K ok ⟨w, r ::ₘ H, G⟩ ⟨w.release r, H + (w.releases r : Multiset Ref), G⟩
  | prune (w : World N E) (H G) (r : Ref) :
      Micro A K ok ⟨w, H, G⟩ ⟨w.withHeap (w.heap.modifyOutgoing r fun out =>
        out.filter fun e => (w.heap.upgradeEdge e).isSome), H, G⟩
  | setWeaks (w : World N E) (H G) (ws : List Ref)
      (hws : ∀ r ∈ ws, w.InUse r) :
      Micro A K ok ⟨w, H, G⟩ ⟨{ w with weaks := ws }, H, G⟩
  | register (w : World N E) (H G) (r : Ref) (R : RegRef) (hr : w.heap.Alive r)
      (hR : w.RegAlive R) (hok : ok (.register R)) :
      Micro A K ok ⟨w, H, G⟩ ⟨(w.tryRegisterIn K r R).2, H, G⟩
  | addNode (w : World N E) (H G) (r : Ref) (R : RegRef) (hr : w.heap.Alive r)
      (hR : w.RegAlive R) (hok : ok (.add R)) :
      Micro A K ok ⟨w, H, G⟩ ⟨w.setRegistry R ((w.registries R).addNode K w.heap r).2, H, G⟩
  | remove (w : World N E) (H G) (R : RegRef) (id : NodeId) (hR : w.RegAlive R)
      (hok : ok (.remove R)) :
      Micro A K ok ⟨w, H, G⟩ ⟨w.setRegistry R ((w.registries R).remove w.heap id), H, G⟩
  | freeNodeIds (w : World N E) (H G) (R : RegRef) (hR : w.RegAlive R) :
      Micro A K ok ⟨w, H, G⟩ ⟨w.setRegistry R ((w.registries R).freeNodeIds w.heap).2, H, G⟩
  | allocRegistry (w : World N E) (H G) (reg : Registry) (hinv : reg.Inverse w.heap.addr)
      (hin : ∀ r, reg.Has r → w.InUse r) :
      Micro A K ok ⟨w, H, G⟩ ⟨w.allocRegistry reg, H, w.nregs ::ₘ G⟩
  | cloneRegistry (w : World N E) (H G) (R : RegRef) (hR : w.RegAlive R) :
      Micro A K ok ⟨w, H, G⟩ ⟨w.cloneRegistry R, H, R ::ₘ G⟩
  | dropRegistry (w : World N E) (H G) (R : RegRef) :
      Micro A K ok ⟨w, H, R ::ₘ G⟩ ⟨w.dropRegistry R, H, G⟩

/-- Runs of elementary steps. -/
abbrev Steps (A : AddrSource) (K : KeySource) (ok : Access → Prop) :
    Config N E → Config N E → Prop := Relation.ReflTransGen (Micro A K ok)

/-- The memory invariant of a configuration. -/
abbrev Config.Inv (c : Config N E) (X : Exempt := ∅) : Prop :=
  Relrc.Inv c.world c.held c.regs X

variable {A : AddrSource} {K : KeySource} {ok : Access → Prop} {c c' : Config N E} {X : Exempt}

/-- **Every elementary step keeps the invariant.** -/
theorem Micro.inv (h : Micro A K ok c c') (hi : c.Inv X) : c'.Inv X := by
  cases h with
  | alloc w H G v ps => exact Inv.withParents A v ps hi
  | clone w H G r hr => exact Inv.clone hi hr
  | release w H G r => exact Inv.release hi
  | prune w H G r => exact Inv.prune hi r
  | setWeaks w H G ws hws => exact Inv.setWeaks hi hws
  | register w H G r R hr hR => exact Inv.tryRegisterIn K hi hr hR
  | addNode w H G r R hr hR => exact Inv.addNode K hi hR hr
  | remove w H G R id hR => exact Inv.removeId hi hR id
  | freeNodeIds w H G R hR => exact Inv.freeNodeIds hi hR
  | allocRegistry w H G reg hinv hin => exact Inv.allocRegistry hi hinv hin
  | cloneRegistry w H G R hR => exact Inv.cloneRegistry hi hR
  | dropRegistry w H G R => exact Inv.dropRegistry hi

theorem Steps.inv (h : Steps A K ok c c') (hi : c.Inv X) : c'.Inv X := by
  induction h with
  | refl => exact hi
  | tail _ hstep ih => exact hstep.inv ih

/-- Fewer restrictions allow more steps. -/
theorem Steps.mono {ok' : Access → Prop} (hok : ∀ x, ok x → ok' x) (h : Steps A K ok c c') :
    Steps A K ok' c c' := by
  refine Relation.ReflTransGen.mono (fun a b hab => ?_) _ _ h
  cases hab with
  | alloc w H G v ps => exact .alloc w H G v ps
  | clone w H G r hr => exact .clone w H G r hr
  | release w H G r => exact .release w H G r
  | prune w H G r => exact .prune w H G r
  | setWeaks w H G ws hws => exact .setWeaks w H G ws hws
  | register w H G r R hr hR hk => exact .register w H G r R hr hR (hok _ hk)
  | addNode w H G r R hr hR hk => exact .addNode w H G r R hr hR (hok _ hk)
  | remove w H G R id hR hk => exact .remove w H G R id hR (hok _ hk)
  | freeNodeIds w H G R hR => exact .freeNodeIds w H G R hR
  | allocRegistry w H G reg hinv hin => exact .allocRegistry w H G reg hinv hin
  | cloneRegistry w H G R hR => exact .cloneRegistry w H G R hR
  | dropRegistry w H G R => exact .dropRegistry w H G R

/-! ### What giving up a reference does -/

section Release

variable (w : World N E) (r : Ref)

/-- The three outcomes of the `Drop` hook. -/
theorem World.dropHook_cases :
    (w.dropHook r = w ∧ (1 < w.heap.strong r ∨ w.heap.slot r = none)) ∨
    (w.heap.strong r ≤ 1 ∧ ∃ R, w.heap.slot r = some R ∧
      ((w.dropHook r = w.withHeap (w.heap.setSlot r none) ∧
          (w.RegAlive R → (w.registries R).getId w.heap r = none)) ∨
        ∃ id, w.RegAlive R ∧ (w.registries R).getId w.heap r = some id ∧
          w.dropHook r = (w.withHeap (w.heap.setSlot r none)).setRegistry R
            ((w.registries R).remove w.heap id))) := by
  by_cases hs : 1 < w.heap.strong r
  · exact Or.inl ⟨by rw [World.dropHook, if_pos hs], Or.inl hs⟩
  · cases hslot : w.heap.slot r with
    | none => exact Or.inl ⟨by rw [World.dropHook, if_neg hs, hslot], Or.inr rfl⟩
    | some R =>
      refine Or.inr ⟨Nat.le_of_not_lt hs, R, rfl, ?_⟩
      by_cases hR : w.RegAlive R
      · cases hid : (w.registries R).getId w.heap r with
        | none =>
          refine Or.inl ⟨?_, fun _ => rfl⟩
          have hid' : (w.registries R).getId (w.heap.setSlot r none) r = none := hid
          simp [World.dropHook, hs, hslot, hR, hid']
        | some id =>
          refine Or.inr ⟨id, hR, rfl, ?_⟩
          have hid' : (w.registries R).getId (w.heap.setSlot r none) r = some id := hid
          simp only [World.dropHook, hs, if_false, hslot, World.regAlive_withHeap, hR, if_true,
            World.registries_withHeap, World.heap_withHeap, hid']
          rfl
      · refine Or.inl ⟨?_, fun h => absurd h hR⟩
        simp [World.dropHook, hs, hslot, hR]

/-- Giving up a reference creates nothing and takes no weak handle. -/
theorem World.fields_release : (w.release r).heap.size = w.heap.size ∧
    (w.release r).heap.addr = w.heap.addr ∧ (w.release r).regStrong = w.regStrong ∧
    (w.release r).nregs = w.nregs ∧ (w.release r).weaks = w.weaks := by
  rcases w.dropHook_cases r with ⟨h, -⟩ | ⟨-, R, -, ⟨h, -⟩ | ⟨id, -, -, h⟩⟩ <;>
    simp [World.release, h, World.withHeap, World.setRegistry]

/-- Dropping handles creates no nodes. -/
theorem World.size_drop : (w.drop r).heap.size = w.heap.size := by
  suffices haux : ∀ n (w : World N E) r, (World.dropAux n w r).heap.size = w.heap.size from
    haux (r + 1) w r
  intro n
  induction n with
  | zero => exact fun _ _ => rfl
  | succ n ih =>
    intro w r
    rw [World.dropAux]
    refine List.foldlRecOn (motive := fun v : World N E => v.heap.size = w.heap.size)
      (w.releases r) _ (w.fields_release r).1 ?_
    exact fun v hv x _ => (ih v x).trans hv

theorem World.size_dropAll (rs : List Ref) : (w.dropAll rs).heap.size = w.heap.size :=
  List.foldlRecOn (motive := fun v : World N E => v.heap.size = w.heap.size) rs _ rfl
    fun v hv x _ => (World.size_drop v x).trans hv

/-- Only the node itself is changed, and only by dying. -/
theorem World.data_release (x : Ref) : (w.release r).heap.data x =
    if x = r ∧ w.heap.strong r ≤ 1 then none else w.heap.data x := by
  rw [World.release, World.heap_withHeap, Heap.data_decStrong, Inv.strong_dropHook]
  split_ifs with hx
  · rfl
  · rcases w.dropHook_cases r with ⟨h, -⟩ | ⟨hs, R, -, ⟨h, -⟩ | ⟨id, -, -, h⟩⟩
    · rw [h]
    · rw [h, World.heap_withHeap, Heap.setSlot, Heap.data_modify, if_neg fun h => hx ⟨h, hs⟩]
    · rw [h, World.heap_setRegistry, World.heap_withHeap, Heap.setSlot, Heap.data_modify,
        if_neg fun h => hx ⟨h, hs⟩]

theorem World.strong_release (x : Ref) : (w.release r).heap.strong x =
    if x = r then w.heap.strong r - 1 else w.heap.strong x := by
  rw [World.release, World.heap_withHeap, Heap.decStrong, Inv.strong_dropHook]
  split_ifs with hs hx hx
  · subst hx
    simp only [Function.update_self]
    omega
  · simp [hx]
  · subst hx
    simp
  · simp [hx]

/-- At most one entry of one registry is removed: that of a node which dies registered there. -/
theorem World.registries_release (R : RegRef) : (w.release r).registries R = w.registries R ∨
    w.heap.strong r ≤ 1 ∧ w.heap.slot r = some R ∧ ∃ id, (w.registries R).getId w.heap r = some id ∧
      (w.release r).registries R = (w.registries R).remove w.heap id := by
  rcases w.dropHook_cases r with ⟨h, -⟩ | ⟨hs, R', hslot, ⟨h, -⟩ | ⟨id, -, hid, h⟩⟩
  · exact Or.inl (by rw [World.release, h, World.registries_withHeap])
  · exact Or.inl (by simp only [World.release, h, World.registries_withHeap])
  · by_cases hR : R = R'
    · subst hR
      refine Or.inr ⟨hs, hslot, id, hid, ?_⟩
      rw [World.release, h, World.registries_withHeap, World.registries_setRegistry_self]
    · refine Or.inl ?_
      rw [World.release, h, World.registries_withHeap, World.registries_setRegistry_of_ne _ _ _ hR,
        World.registries_withHeap]

/-- A node that dies registered in a live registry loses its entry there. -/
theorem World.registries_release_of_last {R : RegRef} {id : NodeId} (hs : w.heap.strong r ≤ 1)
    (hslot : w.heap.slot r = some R) (hR : w.RegAlive R)
    (hid : (w.registries R).getId w.heap r = some id) :
    (w.release r).registries R = (w.registries R).remove w.heap id := by
  rcases w.dropHook_cases r with ⟨-, h | h⟩ | ⟨-, R', hslot', ⟨-, h⟩ | ⟨id', -, hid', h⟩⟩
  · omega
  · rw [hslot] at h
    cases h
  · rw [hslot] at hslot'
    obtain rfl := Option.some.inj hslot'
    rw [h hR] at hid
    cases hid
  · rw [hslot] at hslot'
    obtain rfl := Option.some.inj hslot'
    rw [hid] at hid'
    obtain rfl := Option.some.inj hid'
    rw [World.release, h, World.registries_withHeap, World.registries_setRegistry_self]

end Release

/-! ### Registration -/

section TryRegister

variable (w : World N E) (r : Ref) (R : RegRef)

/-- The two outcomes of `try_register_in`. -/
theorem World.tryRegisterIn_cases :
    (∃ R', w.heap.slot r = some R' ∧ R' ≠ R ∧ w.tryRegisterIn K r R = (none, w)) ∨
    (w.heap.slot r = some R ∧ w.tryRegisterIn K r R =
      (some ((w.registries R).addNode K w.heap r).1,
        w.setRegistry R ((w.registries R).addNode K w.heap r).2)) ∨
    (w.heap.slot r = none ∧ w.tryRegisterIn K r R =
      (some ((w.registries R).addNode K w.heap r).1,
        (w.withHeap (w.heap.setSlot r (some R))).setRegistry R
          ((w.registries R).addNode K w.heap r).2)) := by
  cases hslot : w.heap.slot r with
  | none =>
    refine Or.inr (Or.inr ⟨rfl, ?_⟩)
    simp only [World.tryRegisterIn, World.trySetRegister, hslot]
    rfl
  | some R' =>
    by_cases hR : R' = R
    · subst hR
      refine Or.inr (Or.inl ⟨rfl, ?_⟩)
      simp [World.tryRegisterIn, World.trySetRegister, hslot]
    · refine Or.inl ⟨R', rfl, hR, ?_⟩
      have hb : (R' == R) = false := beq_eq_false_iff_ne.mpr hR
      simp only [World.tryRegisterIn, World.trySetRegister, hslot, hb]

/-- A registration changes no count, edge or value. -/
theorem World.fields_tryRegisterIn : (w.tryRegisterIn K r R).2.heap.size = w.heap.size ∧
    (w.tryRegisterIn K r R).2.heap.addr = w.heap.addr ∧
    (w.tryRegisterIn K r R).2.heap.strong = w.heap.strong ∧
    (w.tryRegisterIn K r R).2.regStrong = w.regStrong ∧
    (w.tryRegisterIn K r R).2.nregs = w.nregs ∧
    (w.tryRegisterIn K r R).2.heap.allIncoming = w.heap.allIncoming ∧
    (w.tryRegisterIn K r R).2.heap.value = w.heap.value := by
  rcases w.tryRegisterIn_cases (K := K) r R with ⟨_, _, _, h⟩ | ⟨_, h⟩ | ⟨_, h⟩
  · simp [h]
  · simp [h, World.setRegistry]
  · refine ⟨?_, ?_, ?_, ?_, ?_, ?_, ?_⟩ <;> rw [h] <;> try rfl
    · simp
    · funext x
      simp [Heap.value_setSlot]

theorem World.registries_tryRegisterIn_of_ne {R' : RegRef} (h : R' ≠ R) :
    (w.tryRegisterIn K r R).2.registries R' = w.registries R' := by
  rcases w.tryRegisterIn_cases (K := K) r R with ⟨_, _, _, heq⟩ | ⟨_, heq⟩ | ⟨_, heq⟩
  · rw [heq]
  · rw [heq]
    exact World.registries_setRegistry_of_ne _ _ _ h
  · rw [heq]
    exact World.registries_setRegistry_of_ne _ _ _ h

theorem World.slot_tryRegisterIn_of_ne {x : Ref} (h : x ≠ r) :
    (w.tryRegisterIn K r R).2.heap.slot x = w.heap.slot x := by
  rcases w.tryRegisterIn_cases (K := K) r R with ⟨_, _, _, heq⟩ | ⟨_, heq⟩ | ⟨_, heq⟩
  · rw [heq]
  · rw [heq]
    rfl
  · rw [heq, World.heap_setRegistry, World.heap_withHeap, Heap.slot_setSlot, if_neg (by tauto)]

/-- A registry cell that is set stays as it is. -/
theorem World.slot_tryRegisterIn_of_some {x : Ref} {R' : RegRef} (h : w.heap.slot x = some R') :
    (w.tryRegisterIn K r R).2.heap.slot x = some R' := by
  by_cases hx : x = r
  · subst hx
    rcases w.tryRegisterIn_cases (K := K) x R with ⟨_, _, _, heq⟩ | ⟨_, heq⟩ | ⟨hn, heq⟩
    · rw [heq]
      exact h
    · rw [heq]
      exact h
    · rw [h] at hn
      cases hn
  · rw [World.slot_tryRegisterIn_of_ne w r R hx, h]

/-- The registry gains at most the entry of the node. -/
theorem World.get_of_tryRegisterIn {id : NodeId} {x : Ref}
    (hx : ((w.tryRegisterIn K r R).2.registries R).nodes.get id = some x) :
    (w.registries R).nodes.get id = some x ∨
      x = r ∧ (w.registries R).getId w.heap r = none := by
  rcases w.tryRegisterIn_cases (K := K) r R with ⟨_, _, _, heq⟩ | ⟨_, heq⟩ | ⟨_, heq⟩
  · rw [heq] at hx
    exact Or.inl hx
  all_goals
    rw [heq, World.registries_setRegistry_self] at hx
    exact (Registry.get_of_addNode K _ _ _ hx).imp_right fun h => ⟨h.1, h.2.2⟩

theorem World.get_tryRegisterIn {R' : RegRef} {id : NodeId} {x : Ref}
    (hx : (w.registries R').nodes.get id = some x) :
    ((w.tryRegisterIn K r R).2.registries R').nodes.get id = some x := by
  by_cases hR : R' = R
  · subst hR
    rcases w.tryRegisterIn_cases (K := K) r R' with ⟨_, _, _, heq⟩ | ⟨_, heq⟩ | ⟨_, heq⟩
    · rw [heq]
      exact hx
    all_goals
      rw [heq, World.registries_setRegistry_self]
      exact Registry.get_addNode_of_some K _ _ _ hx
  · rw [World.registries_tryRegisterIn_of_ne w r R hR]
    exact hx

end TryRegister

end Relrc
