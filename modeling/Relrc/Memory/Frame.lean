import Relrc.Memory.Micro

/-!
# What every run keeps

`Frame` collects what no step can change about the allocations and registries that exist.
`Tracked` is the state of a node registered through `try_register_in`; a run without
`Registry::remove` keeps it until the node dies, and then leaves the id `Forgotten` for good.
-/

namespace Relrc

open SlotStore Ancestry

variable {N E : Type} {A : AddrSource} {K : KeySource} {ok : Access → Prop} {c c' : Config N E}
variable {X : Exempt}

/-- What no run changes: addresses; values and incoming edges of nodes that stay alive; death. -/
structure Frame (w w' : World N E) : Prop where
  size_le : w.heap.size ≤ w'.heap.size
  nregs_le : w.nregs ≤ w'.nregs
  addr : ∀ r, r < w.heap.size → w'.heap.addr r = w.heap.addr r
  alive : ∀ r, r < w.heap.size → w'.heap.Alive r → w.heap.Alive r
  value : ∀ r, r < w.heap.size → w'.heap.Alive r → w'.heap.value r = w.heap.value r
  allIncoming : ∀ r, r < w.heap.size → w'.heap.Alive r →
    w'.heap.allIncoming r = w.heap.allIncoming r
  regAlive : ∀ R, R < w.nregs → w'.RegAlive R → w.RegAlive R

namespace Frame

variable {w w' w'' : World N E}

theorem refl (w : World N E) : Frame w w :=
  ⟨le_rfl, le_rfl, fun _ _ => rfl, fun _ _ h => h, fun _ _ _ => rfl, fun _ _ _ => rfl,
    fun _ _ h => h⟩

theorem trans (a : Frame w w') (b : Frame w' w'') : Frame w w'' where
  size_le := a.size_le.trans b.size_le
  nregs_le := a.nregs_le.trans b.nregs_le
  addr r hr := (b.addr r (lt_of_lt_of_le hr a.size_le)).trans (a.addr r hr)
  alive r hr h := a.alive r hr (b.alive r (lt_of_lt_of_le hr a.size_le) h)
  value r hr h :=
    (b.value r (lt_of_lt_of_le hr a.size_le) h).trans
      (a.value r hr (b.alive r (lt_of_lt_of_le hr a.size_le) h))
  allIncoming r hr h :=
    (b.allIncoming r (lt_of_lt_of_le hr a.size_le) h).trans
      (a.allIncoming r hr (b.alive r (lt_of_lt_of_le hr a.size_le) h))
  regAlive R hR h := a.regAlive R hR (b.regAlive R (lt_of_lt_of_le hR a.nregs_le) h)

theorem allParents (a : Frame w w') {r : Ref} (hr : r < w.heap.size) (h : w'.heap.Alive r) :
    w'.heap.allParents r = w.heap.allParents r := by
  rw [Heap.allParents, a.allIncoming r hr h, Heap.allParents]

/-- A step that touches registries only. -/
private theorem of_heap_eq (hheap : w'.heap = w.heap) (hn : w.nregs ≤ w'.nregs)
    (hR : ∀ R, R < w.nregs → w'.RegAlive R → w.RegAlive R) : Frame w w' := by
  refine ⟨by rw [hheap], hn, fun _ _ => by rw [hheap], fun r _ h => ?_, fun _ _ _ => by rw [hheap],
    fun _ _ _ => by rw [hheap], hR⟩
  rwa [hheap] at h

end Frame

theorem World.frame_release (w : World N E) (r : Ref) : Frame w (w.release r) := by
  obtain ⟨hsize, haddr, hstrong, hnregs, -⟩ := w.fields_release r
  have hlive : ∀ x, (w.release r).heap.Alive x → ¬ (x = r ∧ w.heap.strong r ≤ 1) := by
    rintro x hx ⟨rfl, hs⟩
    rw [Heap.Alive, w.strong_release, if_pos rfl] at hx
    omega
  have hdata : ∀ x, (w.release r).heap.Alive x → (w.release r).heap.data x = w.heap.data x :=
    fun x hx => by rw [w.data_release, if_neg (hlive x hx)]
  refine ⟨hsize.ge, hnregs.ge, fun x _ => by rw [haddr], fun x _ hx => ?_, fun x _ hx => ?_,
    fun x _ hx => ?_, fun R _ hR => ?_⟩
  · rw [Heap.Alive, w.strong_release] at hx
    split_ifs at hx with hxr
    · subst hxr
      rw [Heap.Alive]
      omega
    · exact hx
  · rw [Heap.value, hdata x hx, Heap.value]
  · rw [Heap.allIncoming, hdata x hx, Heap.allIncoming]
  · rwa [World.RegAlive, hstrong] at hR

/-- No elementary step changes a node that stays. -/
theorem Micro.frame (h : Micro A K ok c c') (hi : c.Inv X) : Frame c.world c'.world := by
  cases h with
  | alloc w H G v ps =>
    have hne : ∀ r, r < w.heap.size → r ≠ w.heap.size := fun r hr => Nat.ne_of_lt hr
    refine ⟨?_, le_rfl, fun r hr => ?_, fun r hr h => ?_, fun r hr _ => ?_, fun r hr _ => ?_,
      fun _ _ h => h⟩
    · simp [World.withParents, Heap.size_withParents]
    · simp [World.withParents, Heap.addr_withParents, hne r hr]
    · simpa [World.withParents, Heap.Alive, Heap.strong_withParents, hne r hr] using h
    · simp [World.withParents, Heap.value_withParents, hne r hr]
    · simp [World.withParents, Heap.allIncoming_withParents, hne r hr]
  | clone w H G r hr =>
    refine ⟨le_rfl, le_rfl, fun _ _ => rfl, fun x _ h => ?_, fun _ _ _ => rfl, fun _ _ _ => rfl,
      fun _ _ h => h⟩
    by_cases hx : x = r
    · exact hx ▸ hr
    · simpa [World.clone, Heap.Alive, Heap.strong_incStrong, hx] using h
  | release w H G r => exact w.frame_release r
  | prune w H G r =>
    have hsame := Heap.sameNodes_modifyOutgoing w.heap r
      fun out => out.filter fun e => (w.heap.upgradeEdge e).isSome
    exact ⟨le_rfl, le_rfl, fun _ _ => rfl, fun _ _ h => h, fun r _ _ => hsame.value r,
      fun r _ _ => hsame.allIncoming r, fun _ _ h => h⟩
  | setWeaks w H G ws hws => exact Frame.of_heap_eq rfl le_rfl fun _ _ h => h
  | register w H G r R hr hR =>
    obtain ⟨h1, h2, h3, h4, h5, h6, h7⟩ := w.fields_tryRegisterIn (K := K) r R
    exact ⟨h1.ge, h5.ge, fun x _ => by rw [h2], fun x _ h => by rwa [Heap.Alive, h3] at h,
      fun x _ _ => by rw [h7], fun x _ _ => by rw [h6], fun R' _ h => by
        rwa [World.RegAlive, h4] at h⟩
  | addNode w H G r R hr hR => exact Frame.of_heap_eq rfl le_rfl fun _ _ h => h
  | remove w H G R id hR => exact Frame.of_heap_eq rfl le_rfl fun _ _ h => h
  | freeNodeIds w H G R hR => exact Frame.of_heap_eq rfl le_rfl fun _ _ h => h
  | allocRegistry w H G reg hinv hin =>
    refine Frame.of_heap_eq rfl (Nat.le_succ _) fun R hR h => ?_
    simpa [World.RegAlive, World.allocRegistry, Nat.ne_of_lt hR] using h
  | cloneRegistry w H G R hR =>
    refine Frame.of_heap_eq rfl le_rfl fun R' _ h => ?_
    by_cases hRR : R' = R
    · exact hRR ▸ hR
    · simpa [World.RegAlive, World.cloneRegistry, hRR] using h
  | dropRegistry w H G R =>
    have hheap : (w.dropRegistry R).heap = w.heap := by
      rw [World.dropRegistry]
      split_ifs <;> rfl
    have hnregs : (w.dropRegistry R).nregs = w.nregs := by
      rw [World.dropRegistry]
      split_ifs <;> rfl
    refine Frame.of_heap_eq hheap hnregs.ge fun R' _ h => ?_
    by_cases hRR : R' = R
    · subst hRR
      exact hi.regAlive_of_mem (Multiset.mem_cons_self _ _)
    · rw [World.dropRegistry] at h
      split_ifs at h <;> simpa [World.RegAlive, hRR] using h

theorem Steps.frame (h : Steps A K ok c c') (hi : c.Inv X) : Frame c.world c'.world := by
  induction h with
  | refl => exact Frame.refl _
  | tail hs hstep ih => exact ih.trans (hstep.frame (Steps.inv hs hi))

/-! ### Registered nodes -/

/-- The node `r` is registered in `R` under `id`, through `try_register_in`. -/
structure Tracked (w : World N E) (R : RegRef) (id : NodeId) (r : Ref) : Prop where
  slot : w.heap.slot r = some R
  entry : (w.registries R).nodes.get id = some r

/-- The node `r` died, and neither map of `R` has an entry for it; its id cannot come back. -/
structure Forgotten (w : World N E) (R : RegRef) (id : NodeId) (r : Ref) : Prop where
  lt : r < w.heap.size
  dead : ¬ w.heap.Alive r
  noEntry : ¬ (w.registries R).Has r
  vacant : (w.registries R).nodes.get id = none
  issued : (w.registries R).nodes.Issued id

theorem alive_of_slot {w : World N E} {held : Multiset Ref} {regs : Multiset RegRef}
    (hi : Inv w held regs X) {r : Ref} {R : RegRef} (h : w.heap.slot r = some R) : w.heap.Alive r :=
  hi.heap.alive_of_data fun hn => by
    rw [Heap.slot_of_data_none hn] at h
    cases h

theorem Tracked.alive {w : World N E} {held : Multiset Ref} {regs : Multiset RegRef}
    (hi : Inv w held regs X) {R : RegRef} {id : NodeId} {r : Ref} (h : Tracked w R id r) :
    w.heap.Alive r := alive_of_slot hi h.slot

theorem Tracked.regAlive {w : World N E} {held : Multiset Ref} {regs : Multiset RegRef}
    (hi : Inv w held regs X) {R : RegRef} {id : NodeId} {r : Ref} (h : Tracked w R id r) :
    w.RegAlive R := hi.regAlive_of_has ⟨id, h.entry⟩

theorem Tracked.getId {w : World N E} {held : Multiset Ref} {regs : Multiset RegRef}
    (hi : Inv w held regs X) {R : RegRef} {id : NodeId} {r : Ref} (h : Tracked w R id r) :
    (w.registries R).getId w.heap r = some id :=
  (hi.inverse R).ptr_of_node id r h.entry

/-- After a successful registration the node is tracked under the returned id. -/
theorem tracked_tryRegisterIn {w : World N E} {held : Multiset Ref} {regs : Multiset RegRef}
    (hi : Inv w held regs X) {r : Ref} {R : RegRef} (hr : w.heap.Alive r) (hR : w.RegAlive R)
    {id : NodeId} (hid : (w.tryRegisterIn K r R).1 = some id) :
    Tracked (w.tryRegisterIn K r R).2 R id r := by
  have hi' := hi.tryRegisterIn K hr hR
  have hstrong := (w.fields_tryRegisterIn (K := K) r R).2.2.1
  have hr' : (w.tryRegisterIn K r R).2.heap.Alive r := by rwa [Heap.Alive, hstrong]
  have hget : ((w.tryRegisterIn K r R).2.registries R).getId (w.tryRegisterIn K r R).2.heap r =
      some id := by
    rcases w.tryRegisterIn_cases (K := K) r R with ⟨_, _, _, heq⟩ | ⟨_, heq⟩ | ⟨_, heq⟩
    · rw [heq] at hid
      cases hid
    all_goals
      rw [heq] at hid ⊢
      rw [World.registries_setRegistry_self, ← hid]
      exact Registry.getId_addNode K _ w.heap r
  refine ⟨?_, (hi'.getId_eq_some_iff (Inv.inUse_of_alive hr')).mp hget⟩
  rcases w.tryRegisterIn_cases (K := K) r R with ⟨_, _, _, heq⟩ | ⟨hslot, heq⟩ | ⟨_, heq⟩
  · rw [heq] at hid
    cases hid
  · rw [heq]
    exact hslot
  · rw [heq, World.heap_setRegistry, World.heap_withHeap, Heap.slot_setSlot,
      if_pos ⟨rfl, hi.heap.data_ne_none hr⟩]

/-- No `Registry::remove` on `R`. -/
abbrev NoRemove (ok : Access → Prop) (R : RegRef) : Prop := ¬ ok (.remove R)

/-- Registry cells are never cleared or overwritten while the node lives. -/
theorem Micro.slot_of_some (h : Micro A K ok c c') (hi : c.Inv X) {R : RegRef} {r : Ref}
    (hs : c.world.heap.slot r = some R) (hr : c'.world.heap.Alive r) :
    c'.world.heap.slot r = some R := by
  cases h with
  | alloc w H G v ps =>
    have hne : r ≠ w.heap.size := by
      rintro rfl
      have hdead : w.heap.data w.heap.size = none :=
        (hi.heap.data_iff _).mpr (Nat.eq_zero_of_not_pos fun h =>
          Nat.lt_irrefl _ (hi.heap.alive_lt _ h))
      rw [Heap.slot_of_data_none hdead] at hs
      cases hs
    rw [World.withParents, World.heap_withHeap, Heap.slot_withParents, if_neg hne]
    exact hs
  | release w H G x =>
    have hdead : ¬ (r = x ∧ w.heap.strong x ≤ 1) := by
      rintro ⟨rfl, hs⟩
      rw [Heap.Alive, w.strong_release, if_pos rfl] at hr
      omega
    rw [Heap.slot, w.data_release, if_neg hdead]
    exact hs
  | prune w H G x =>
    rw [World.heap_withHeap, (Heap.sameNodes_modifyOutgoing w.heap x _).slot]
    exact hs
  | register w H G x R' hx hR' hk => exact World.slot_tryRegisterIn_of_some w x R' hs
  | dropRegistry w H G R' =>
    rw [World.dropRegistry]
    split_ifs <;> exact hs
  | clone w H G x hx => exact hs
  | setWeaks w H G ws hws => exact hs
  | addNode w H G x R' hx hR' hk => exact hs
  | remove w H G R' id hR' hk => exact hs
  | freeNodeIds w H G R' hR' => exact hs
  | allocRegistry w H G reg hinv hin => exact hs
  | cloneRegistry w H G R' hR' => exact hs

/-- The four things that can happen to a registry while it exists. An entry is removed by a direct
call, or because its node has died. -/
theorem Micro.registry_cases (h : Micro A K ok c c') (hi : c.Inv X) {R : RegRef}
    (hlt : R < c.world.nregs) (hR : c'.world.RegAlive R) :
    c'.world.registries R = c.world.registries R ∨
    (∃ x, c.world.heap.Alive x ∧
      (ok (.add R) ∨ ok (.register R) ∧ c'.world.heap.slot x = some R) ∧
      c'.world.registries R = ((c.world.registries R).addNode K c.world.heap x).2) ∨
    (∃ id, (ok (.remove R) ∨
        ∃ x, (c.world.registries R).nodes.get id = some x ∧ ¬ c'.world.heap.Alive x) ∧
      c'.world.registries R = (c.world.registries R).remove c.world.heap id) ∨
    c'.world.registries R = ((c.world.registries R).freeNodeIds c.world.heap).2 := by
  cases h with
  | release w H G x =>
    rcases w.registries_release x R with heq | ⟨hs, -, id, hid, heq⟩
    · exact Or.inl heq
    · -- the last reference to a registered node takes its entry along
      have hx : w.heap.Alive x := hi.heap.alive_of_held (Multiset.mem_cons_self _ _)
      have hdead : ¬ (w.release x).heap.Alive x := by
        rw [Heap.Alive, w.strong_release, if_pos rfl]
        omega
      exact Or.inr (Or.inr (Or.inl ⟨id, Or.inr
        ⟨x, (hi.getId_eq_some_iff (Inv.inUse_of_alive hx)).mp hid, hdead⟩, heq⟩))
  | register w H G x R' hx hR' hk =>
    by_cases hRR : R = R'
    · subst hRR
      rcases w.tryRegisterIn_cases (K := K) x R with ⟨_, _, _, heq⟩ | ⟨_, heq⟩ | ⟨_, heq⟩
      · exact Or.inl (by rw [heq])
      all_goals
        have hslot := (tracked_tryRegisterIn (K := K) hi hx hR' (by rw [heq])).slot
        refine Or.inr (Or.inl ⟨x, hx, Or.inr ⟨hk, hslot⟩, ?_⟩)
        rw [heq, World.registries_setRegistry_self]
    · exact Or.inl (World.registries_tryRegisterIn_of_ne w x R' hRR)
  | addNode w H G x R' hx hR' hk =>
    by_cases hRR : R = R'
    · subst hRR
      exact Or.inr (Or.inl ⟨x, hx, Or.inl hk, World.registries_setRegistry_self _ _ _⟩)
    · exact Or.inl (World.registries_setRegistry_of_ne _ _ _ hRR)
  | remove w H G R' id hR' hk =>
    by_cases hRR : R = R'
    · subst hRR
      exact Or.inr (Or.inr (Or.inl ⟨id, Or.inl hk, World.registries_setRegistry_self _ _ _⟩))
    · exact Or.inl (World.registries_setRegistry_of_ne _ _ _ hRR)
  | freeNodeIds w H G R' hR' =>
    by_cases hRR : R = R'
    · subst hRR
      exact Or.inr (Or.inr (Or.inr (World.registries_setRegistry_self _ _ _)))
    · exact Or.inl (World.registries_setRegistry_of_ne _ _ _ hRR)
  | allocRegistry w H G reg hinv hin =>
    exact Or.inl (Function.update_of_ne (Nat.ne_of_lt hlt) _ _)
  | dropRegistry w H G R' =>
    refine Or.inl ?_
    rw [World.dropRegistry] at hR ⊢
    split_ifs at hR ⊢
    · have hne : R ≠ R' := by
        rintro rfl
        simp [World.RegAlive] at hR
      exact Function.update_of_ne hne _ _
    · rfl
  | alloc w H G v ps => exact Or.inl rfl
  | clone w H G x hx => exact Or.inl rfl
  | prune w H G x => exact Or.inl rfl
  | setWeaks w H G ws hws => exact Or.inl rfl
  | cloneRegistry w H G R' hR' => exact Or.inl rfl

/-- Unless `Registry::remove` is called, the entry of a node stays while the node lives. -/
theorem Micro.entry (h : Micro A K ok c c') (hi : c.Inv X) {R : RegRef} (hok : NoRemove ok R)
    {id : NodeId} {r : Ref} (he : (c.world.registries R).nodes.get id = some r)
    (hr : c'.world.heap.Alive r) (hR : c'.world.RegAlive R) :
    (c'.world.registries R).nodes.get id = some r := by
  have hlt : R < c.world.nregs := hi.reg_lt R (hi.regAlive_of_has ⟨id, he⟩)
  rcases h.registry_cases hi hlt hR with heq | ⟨x, -, -, heq⟩ | ⟨id', hwhy, heq⟩ | heq <;> rw [heq]
  · exact he
  · exact Registry.get_addNode_of_some K _ _ _ he
  · have hne : id ≠ id' := by
      rintro rfl
      rcases hwhy with hrem | ⟨x, hx, hdead⟩
      · exact hok hrem
      · obtain rfl := Option.some.inj (he.symm.trans hx)
        exact hdead hr
    rw [Registry.get_remove, if_neg hne]
    exact he
  · exact (Registry.get_freeNodeIds _ _).mpr
      ⟨he, (h.frame hi).alive r (hi.inUse_lt r (hi.inUse_of_entry he)) hr⟩

/-- An entry stays while its node and the registry live. -/
theorem Steps.entry (h : Steps A K ok c c') (hi : c.Inv X) {R : RegRef} (hok : NoRemove ok R)
    {id : NodeId} {r : Ref} (he : (c.world.registries R).nodes.get id = some r)
    (hr : c'.world.heap.Alive r) (hR : c'.world.RegAlive R) :
    (c'.world.registries R).nodes.get id = some r := by
  have hlt : r < c.world.heap.size := hi.inUse_lt r (hi.inUse_of_entry he)
  have hRlt : R < c.world.nregs := hi.reg_lt R (hi.regAlive_of_has ⟨id, he⟩)
  induction h with
  | refl => exact he
  | @tail b c' hs hstep ih =>
    have hib := Steps.inv hs hi
    have hframe := Steps.frame hs hi
    have hframe' := hstep.frame hib
    exact hstep.entry hib hok (ih (hframe'.alive r (lt_of_lt_of_le hlt hframe.size_le) hr)
      (hframe'.regAlive R (lt_of_lt_of_le hRlt hframe.nregs_le) hR)) hr hR

/-- Before a step that keeps the node and the registry, tracked nodes stay tracked. -/
theorem Micro.tracked (h : Micro A K ok c c') (hi : c.Inv X) {R : RegRef} (hok : NoRemove ok R)
    {id : NodeId} {r : Ref} (ht : Tracked c.world R id r) (hr : c'.world.heap.Alive r)
    (hR : c'.world.RegAlive R) : Tracked c'.world R id r :=
  ⟨h.slot_of_some hi ht.slot hr, h.entry hi hok ht.entry hr hR⟩

/-- The step in which a tracked node dies removes its entry. -/
theorem Micro.forgotten_of_dies (h : Micro A K ok c c') (hi : c.Inv X) {R : RegRef} {id : NodeId}
    {r : Ref} (ht : Tracked c.world R id r) (hr : ¬ c'.world.heap.Alive r) :
    Forgotten c'.world R id r := by
  have hralive : c.world.heap.Alive r := ht.alive hi
  have hRalive : c.world.RegAlive R := ht.regAlive hi
  have hlt : r < c'.world.heap.size :=
    lt_of_lt_of_le (hi.heap.alive_lt r hralive) (h.frame hi).size_le
  cases h with
  | release w H G x =>
    -- only the last reference to a node lets it die
    have hx : r = x ∧ w.heap.strong x ≤ 1 := by
      by_contra hnot
      refine hr ?_
      rw [Heap.Alive, w.strong_release]
      split_ifs with hrx
      · have hs : ¬ w.heap.strong x ≤ 1 := fun hs => hnot ⟨hrx, hs⟩
        omega
      · exact hralive
    obtain ⟨rfl, hs⟩ := hx
    have hreg := w.registries_release_of_last r hs ht.slot hRalive (ht.getId hi)
    refine ⟨hlt, hr, ?_, ?_, ?_⟩
    · rintro ⟨id', hid'⟩
      rw [hreg, Registry.get_remove] at hid'
      split_ifs at hid' with hne
      exact hne ((hi.inverse R).id_eq hid' ht.entry)
    · rw [hreg, Registry.get_remove, if_pos rfl]
    · rw [hreg]
      exact Registry.issued_remove _ _ _ ((w.registries R).nodes.issued id r ht.entry)
  | alloc w H G v ps =>
    refine absurd ?_ hr
    have hne : r ≠ w.heap.size := Nat.ne_of_lt (hi.heap.alive_lt r hralive)
    simpa [World.withParents, Heap.Alive, Heap.strong_withParents, hne] using hralive
  | clone w H G x hx =>
    refine absurd ?_ hr
    by_cases hrx : r = x
    · simp [World.clone, Heap.Alive, Heap.strong_incStrong, hrx]
    · simpa [World.clone, Heap.Alive, Heap.strong_incStrong, hrx] using hralive
  | register w H G x R' hx hR' hk =>
    refine absurd ?_ hr
    rw [Heap.Alive, (w.fields_tryRegisterIn x R').2.2.1]
    exact hralive
  | dropRegistry w H G R' =>
    refine absurd ?_ hr
    rw [World.dropRegistry]
    split_ifs <;> exact hralive
  | prune w H G x => exact absurd hralive hr
  | setWeaks w H G ws hws => exact absurd hralive hr
  | addNode w H G x R' hx hR' => exact absurd hralive hr
  | remove w H G R' id' hR' hk => exact absurd hralive hr
  | freeNodeIds w H G R' hR' => exact absurd hralive hr
  | allocRegistry w H G reg hinv hin => exact absurd hralive hr
  | cloneRegistry w H G R' hR' => exact absurd hralive hr

/-- An entry that a step makes is under a key that was never issued. -/
theorem Micro.get_cases (h : Micro A K ok c c') (hi : c.Inv X) {R : RegRef}
    (hlt : R < c.world.nregs) (hR : c'.world.RegAlive R) {id : NodeId} {x : Ref}
    (hx : (c'.world.registries R).nodes.get id = some x) :
    (c.world.registries R).nodes.get id = some x ∨
      c.world.heap.Alive x ∧ ¬ (c.world.registries R).nodes.Issued id := by
  rcases h.registry_cases hi hlt hR with heq | ⟨y, hy, -, heq⟩ | ⟨id', -, heq⟩ | heq <;>
    rw [heq] at hx
  · exact Or.inl hx
  · rcases Registry.get_of_addNode K _ _ _ hx with hold | ⟨rfl, hnew, hnone⟩
    · exact Or.inl hold
    · refine Or.inr ⟨hy, ?_⟩
      rw [Registry.addNode_of_none K _ _ _ hnone] at hnew
      rw [hnew]
      exact SlotMap.not_issued_nextKey K _
  · rw [Registry.get_remove] at hx
    split_ifs at hx
    exact Or.inl hx
  · exact Or.inl ((Registry.get_freeNodeIds _ _).mp hx).1

/-- A key that was issued is never forgotten. -/
theorem Micro.issued (h : Micro A K ok c c') (hi : c.Inv X) {R : RegRef} (hlt : R < c.world.nregs)
    (hR : c'.world.RegAlive R) {id : NodeId} (hid : (c.world.registries R).nodes.Issued id) :
    (c'.world.registries R).nodes.Issued id := by
  rcases h.registry_cases hi hlt hR with heq | ⟨y, -, -, heq⟩ | ⟨id', -, heq⟩ | heq <;> rw [heq]
  · exact hid
  · exact Registry.issued_addNode K _ _ y hid
  · exact Registry.issued_remove _ _ _ hid
  · exact Registry.issued_freeNodeIds _ _ hid

theorem Steps.issued (h : Steps A K ok c c') (hi : c.Inv X) {R : RegRef} (hlt : R < c.world.nregs)
    (hR : c'.world.RegAlive R) {id : NodeId} (hid : (c.world.registries R).nodes.Issued id) :
    (c'.world.registries R).nodes.Issued id := by
  induction h with
  | refl => exact hid
  | tail hs hstep ih =>
    have hi' := Steps.inv hs hi
    have hlt' := lt_of_lt_of_le hlt (Steps.frame hs hi).nregs_le
    exact hstep.issued hi' hlt' hR (ih ((hstep.frame hi').regAlive R hlt' hR))

/-- Keys are not issued twice, and only live nodes get entries. -/
theorem Micro.forgotten (h : Micro A K ok c c') (hi : c.Inv X) {R : RegRef} {id : NodeId} {r : Ref}
    (hf : Forgotten c.world R id r) (hlt : R < c.world.nregs) (hR : c'.world.RegAlive R) :
    Forgotten c'.world R id r := by
  have hframe := h.frame hi
  refine ⟨lt_of_lt_of_le hf.lt hframe.size_le, fun hr => hf.dead (hframe.alive r hf.lt hr), ?_, ?_,
    h.issued hi hlt hR hf.issued⟩
  · rintro ⟨id', hid'⟩
    rcases h.get_cases hi hlt hR hid' with hold | ⟨halive, -⟩
    · exact hf.noEntry ⟨id', hold⟩
    · exact hf.dead halive
  · rw [Option.eq_none_iff_forall_ne_some]
    intro x hx
    rcases h.get_cases hi hlt hR hx with hold | ⟨-, hnew⟩
    · rw [hf.vacant] at hold
      cases hold
    · exact hnew hf.issued

/-- The id was issued by `R`, and if it resolves, then to `r`. -/
structure Assigned (w : World N E) (R : RegRef) (id : NodeId) (r : Ref) : Prop where
  issued : (w.registries R).nodes.Issued id
  eq : ∀ x, (w.registries R).nodes.get id = some x → x = r

theorem Micro.assigned (h : Micro A K ok c c') (hi : c.Inv X) {R : RegRef} {id : NodeId} {r : Ref}
    (ha : Assigned c.world R id r) (hlt : R < c.world.nregs) (hR : c'.world.RegAlive R) :
    Assigned c'.world R id r := by
  refine ⟨h.issued hi hlt hR ha.issued, fun x hx => ?_⟩
  rcases h.get_cases hi hlt hR hx with hold | ⟨-, hnew⟩
  · exact ha.eq x hold
  · exact absurd ha.issued hnew

/-- An id goes on to stand for the same node, or for none. -/
theorem Steps.assigned (h : Steps A K ok c c') (hi : c.Inv X) {R : RegRef} {id : NodeId} {r : Ref}
    (ha : Assigned c.world R id r) (hlt : R < c.world.nregs) (hR : c'.world.RegAlive R) :
    Assigned c'.world R id r := by
  induction h with
  | refl => exact ha
  | @tail b c' hs hstep ih =>
    have hlt' := lt_of_lt_of_le hlt (Steps.frame hs hi).nregs_le
    have hi' := Steps.inv hs hi
    exact hstep.assigned hi' (ih ((hstep.frame hi').regAlive R hlt' hR)) hlt' hR

/-- Over a run without `Registry::remove`, a tracked node stays tracked while it lives and is
forgotten once it is dead. -/
theorem Steps.tracked (h : Steps A K ok c c') (hi : c.Inv X) {R : RegRef} (hok : NoRemove ok R)
    {id : NodeId} {r : Ref} (ht : Tracked c.world R id r) (hR : c'.world.RegAlive R) :
    (c'.world.heap.Alive r → Tracked c'.world R id r) ∧
      (¬ c'.world.heap.Alive r → Forgotten c'.world R id r) := by
  have hlt : r < c.world.heap.size := hi.heap.alive_lt r (ht.alive hi)
  have hRlt : R < c.world.nregs := hi.reg_lt R (ht.regAlive hi)
  induction h with
  | refl => exact ⟨fun _ => ht, fun hr => absurd (ht.alive hi) hr⟩
  | @tail b c' hs hstep ih =>
    have hib := Steps.inv hs hi
    have hframe := Steps.frame hs hi
    have hRb := (hstep.frame hib).regAlive R (lt_of_lt_of_le hRlt hframe.nregs_le) hR
    obtain ⟨ih1, ih2⟩ := ih hRb
    by_cases hb : b.world.heap.Alive r
    · exact ⟨fun hr => hstep.tracked hib hok (ih1 hb) hr hR,
        fun hr => hstep.forgotten_of_dies hib (ih1 hb) hr⟩
    · have hf := hstep.forgotten hib (ih2 hb) (lt_of_lt_of_le hRlt hframe.nregs_le) hR
      exact ⟨fun hr => absurd hr hf.dead, fun _ => hf⟩

theorem Steps.forgotten (h : Steps A K ok c c') (hi : c.Inv X) {R : RegRef} {id : NodeId} {r : Ref}
    (hf : Forgotten c.world R id r) (hlt : R < c.world.nregs) (hR : c'.world.RegAlive R) :
    Forgotten c'.world R id r := by
  induction h with
  | refl => exact hf
  | tail hs hstep ih =>
    have hi' := Steps.inv hs hi
    have hlt' := lt_of_lt_of_le hlt (Steps.frame hs hi).nregs_le
    exact hstep.forgotten hi' (ih ((hstep.frame hi').regAlive R hlt' hR)) hlt' hR

/-- The state of a node that was registered in `R` under `id`: it is tracked while it lives and
forgotten once it is dead. -/
structure Lifetime (w : World N E) (R : RegRef) (id : NodeId) (r : Ref) : Prop where
  live : w.heap.Alive r → Tracked w R id r
  dead : ¬ w.heap.Alive r → Forgotten w R id r

/-- **An id lives as long as its node.** -/
theorem Steps.lifetime (h : Steps A K ok c c') (hi : c.Inv X) {R : RegRef} (hok : NoRemove ok R)
    {id : NodeId} {r : Ref} (hl : Lifetime c.world R id r) (hlt : R < c.world.nregs)
    (hR : c'.world.RegAlive R) : Lifetime c'.world R id r := by
  by_cases hr : c.world.heap.Alive r
  · obtain ⟨hlive, hdead⟩ := Steps.tracked h hi hok (hl.live hr) hR
    exact ⟨hlive, hdead⟩
  · have hf := Steps.forgotten h hi (hl.dead hr) hlt hR
    exact ⟨fun hr' => absurd hr' hf.dead, fun _ => hf⟩

/-! ### Registry cells -/

/-- The only step that sets a registry cell is a registration. -/
theorem Micro.slot_cases (h : Micro A K ok c c') (hi : c.Inv X) {r : Ref} {R : RegRef}
    (hslot : c'.world.heap.slot r = some R) : c.world.heap.slot r = some R ∨
      ok (.register R) ∧ R < c.world.nregs ∧ ∃ id, Tracked c'.world R id r := by
  cases h with
  | alloc w H G v ps =>
    rw [World.withParents, World.heap_withHeap, Heap.slot_withParents] at hslot
    split_ifs at hslot
    exact Or.inl hslot
  | release w H G x =>
    rw [Heap.slot, w.data_release] at hslot
    split_ifs at hslot
    · cases hslot
    · exact Or.inl hslot
  | prune w H G x =>
    rw [World.heap_withHeap, (Heap.sameNodes_modifyOutgoing w.heap x _).slot] at hslot
    exact Or.inl hslot
  | register w H G x R' hx hR' hk =>
    by_cases hrx : r = x
    · subst hrx
      rcases hres : (w.tryRegisterIn K r R').1 with _ | id
      · refine Or.inl ?_
        rcases w.tryRegisterIn_cases (K := K) r R' with ⟨_, _, _, heq⟩ | ⟨_, heq⟩ | ⟨_, heq⟩
        · rw [heq] at hslot
          exact hslot
        all_goals
          rw [heq] at hres
          cases hres
      · have ht := tracked_tryRegisterIn hi hx hR' hres
        have hslot' : some R = some R' := hslot.symm.trans ht.slot
        obtain rfl := Option.some.inj hslot'
        exact Or.inr ⟨hk, hi.reg_lt R hR', id, ht⟩
    · exact Or.inl ((World.slot_tryRegisterIn_of_ne w x R' hrx).symm.trans hslot)
  | dropRegistry w H G R' =>
    refine Or.inl ?_
    rw [World.dropRegistry] at hslot
    split_ifs at hslot <;> exact hslot
  | clone w H G x hx => exact Or.inl hslot
  | setWeaks w H G ws hws => exact Or.inl hslot
  | addNode w H G x R' hx hR' => exact Or.inl hslot
  | remove w H G R' id' hR' hk => exact Or.inl hslot
  | freeNodeIds w H G R' hR' => exact Or.inl hslot
  | allocRegistry w H G reg hinv hin => exact Or.inl hslot
  | cloneRegistry w H G R' hR' => exact Or.inl hslot

/-- A cell that is written names a registry in which nodes are registered. -/
theorem Steps.slot_cases (h : Steps A K ok c c') (hi : c.Inv X) {r : Ref} {R : RegRef}
    (hslot : c'.world.heap.slot r = some R) :
    c.world.heap.slot r = some R ∨ ok (.register R) := by
  induction h with
  | refl => exact Or.inl hslot
  | tail hs hstep ih =>
    rcases hstep.slot_cases (Steps.inv hs hi) hslot with hold | ⟨hok, -⟩
    · exact ih hold
    · exact Or.inr hok

/-- A registry cell keeps its content for as long as the node lives. -/
theorem Steps.slot_of_some (h : Steps A K ok c c') (hi : c.Inv X) {r : Ref} {R : RegRef}
    (hs : c.world.heap.slot r = some R) (hr : c'.world.heap.Alive r) :
    c'.world.heap.slot r = some R := by
  have hlt : r < c.world.heap.size := hi.heap.alive_lt r (alive_of_slot hi hs)
  induction h with
  | refl => exact hs
  | tail hsteps hstep ih =>
    have hib := Steps.inv hsteps hi
    have hltb := lt_of_lt_of_le hlt (Steps.frame hsteps hi).size_le
    exact hstep.slot_of_some hib (ih ((hstep.frame hib).alive r hltb hr)) hr

/-- Registry cells name registries that were created before. -/
theorem Steps.slot_lt (h : Steps A K ok c c') (hi : c.Inv X)
    (hlt : ∀ r R, c.world.heap.slot r = some R → R < c.world.nregs) {r : Ref} {R : RegRef}
    (hslot : c'.world.heap.slot r = some R) : R < c'.world.nregs := by
  induction h with
  | refl => exact hlt r R hslot
  | tail hs hstep ih =>
    have hib := Steps.inv hs hi
    refine lt_of_lt_of_le ?_ (hstep.frame hib).nregs_le
    rcases hstep.slot_cases hib hslot with hold | ⟨-, hR, -⟩
    · exact ih hold
    · exact hR

/-! ### Registries filled by registration only -/

/-- Every entry of `R` was made by `try_register_in`. -/
def OnlyTracked (w : World N E) (R : RegRef) : Prop :=
  ∀ r, (w.registries R).Has r → w.heap.slot r = some R

/-- The only steps that add an entry to an existing registry are registrations and direct
additions. -/
theorem Micro.entry_cases (h : Micro A K ok c c') (hi : c.Inv X) {r : Ref} {R : RegRef}
    {id : NodeId} (hlt : R < c.world.nregs) (hadd : ¬ ok (.add R))
    (hid : (c'.world.registries R).nodes.get id = some r) :
    (c.world.registries R).nodes.get id = some r ∨
      ok (.register R) ∧ c'.world.heap.slot r = some R := by
  have hR : c'.world.RegAlive R := (h.inv hi).regAlive_of_has ⟨id, hid⟩
  rcases h.registry_cases hi hlt hR with heq | ⟨x, -, hwhy, heq⟩ | ⟨id', -, heq⟩ | heq <;>
    rw [heq] at hid
  · exact Or.inl hid
  · rcases Registry.get_of_addNode K _ _ _ hid with hold | ⟨rfl, -⟩
    · exact Or.inl hold
    · exact Or.inr (hwhy.resolve_left hadd)
  · rw [Registry.get_remove] at hid
    split_ifs at hid
    exact Or.inl hid
  · exact Or.inl ((Registry.get_freeNodeIds _ _).mp hid).1

/-- An entry that is made comes from a registration. -/
theorem Steps.entry_cases (h : Steps A K ok c c') (hi : c.Inv X) {r : Ref} {R : RegRef}
    {id : NodeId} (hlt : R < c.world.nregs) (hadd : ¬ ok (.add R))
    (hid : (c'.world.registries R).nodes.get id = some r) :
    (c.world.registries R).nodes.get id = some r ∨ ok (.register R) := by
  induction h with
  | refl => exact Or.inl hid
  | tail hs hstep ih =>
    have hlt' := lt_of_lt_of_le hlt (Steps.frame hs hi).nregs_le
    rcases hstep.entry_cases (Steps.inv hs hi) hlt' hadd hid with hold | ⟨hok, -⟩
    · exact ih hold
    · exact Or.inr hok

theorem Steps.has_cases (h : Steps A K ok c c') (hi : c.Inv X) {r : Ref} {R : RegRef}
    (hlt : R < c.world.nregs) (hadd : ¬ ok (.add R)) (hhas : (c'.world.registries R).Has r) :
    (c.world.registries R).Has r ∨ ok (.register R) := by
  obtain ⟨id, hid⟩ := hhas
  exact (Steps.entry_cases h hi hlt hadd hid).imp_left fun hold => ⟨id, hold⟩

/-- In a registry that is filled by registration from now on, entries are tracked, but for the
entries in `U` that it started with. -/
theorem Micro.tracked_or (h : Micro A K ok c c') (hi : c.Inv X) {R : RegRef}
    (hlt : R < c.world.nregs) (hadd : ¬ ok (.add R)) (hrem : NoRemove ok R)
    {U : NodeId → Ref → Prop}
    (ho : ∀ id r, (c.world.registries R).nodes.get id = some r →
      U id r ∨ c.world.heap.slot r = some R)
    {id : NodeId} {r : Ref} (hid : (c'.world.registries R).nodes.get id = some r) :
    U id r ∨ c'.world.heap.slot r = some R := by
  have hR : c'.world.RegAlive R := (h.inv hi).regAlive_of_has ⟨id, hid⟩
  rcases h.entry_cases hi hlt hadd hid with hold | ⟨-, hslot⟩
  · refine (ho id r hold).imp_right fun hslot => ?_
    have ht : Tracked c.world R id r := ⟨hslot, hold⟩
    by_cases hr : c'.world.heap.Alive r
    · exact (h.tracked hi hrem ht hr hR).slot
    · exact absurd ⟨id, hid⟩ (h.forgotten_of_dies hi ht hr).noEntry
  · exact Or.inr hslot

theorem Steps.tracked_or (h : Steps A K ok c c') (hi : c.Inv X) {R : RegRef}
    (hlt : R < c.world.nregs) (hadd : ¬ ok (.add R)) (hrem : NoRemove ok R)
    {U : NodeId → Ref → Prop}
    (ho : ∀ id r, (c.world.registries R).nodes.get id = some r →
      U id r ∨ c.world.heap.slot r = some R)
    {id : NodeId} {r : Ref} (hid : (c'.world.registries R).nodes.get id = some r) :
    U id r ∨ c'.world.heap.slot r = some R := by
  induction h generalizing id r with
  | refl => exact ho id r hid
  | tail hs hstep ih =>
    exact hstep.tracked_or (Steps.inv hs hi)
      (lt_of_lt_of_le hlt (Steps.frame hs hi).nregs_le) hadd hrem (fun id r h => ih h) hid

/-- Every entry goes on to be that of a registered node. -/
theorem Steps.onlyTracked (h : Steps A K ok c c') (hi : c.Inv X) {R : RegRef}
    (hlt : R < c.world.nregs) (hadd : ¬ ok (.add R)) (hrem : NoRemove ok R)
    (ho : OnlyTracked c.world R) : OnlyTracked c'.world R := by
  rintro r ⟨id, hid⟩
  refine (Steps.tracked_or (U := fun _ _ => False) h hi hlt hadd hrem ?_ hid).resolve_left
    fun h => h
  exact fun id r hid => Or.inr (ho r ⟨id, hid⟩)

end Relrc
