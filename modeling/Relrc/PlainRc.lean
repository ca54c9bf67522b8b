import Relrc.Registries

/-!
# Ids and plain pointers

The id of a registered node is freed by the `Drop` hook of `RelRc`. A caller that has made a node of
an `InnerData` can keep an `Rc<InnerData>` to it, and that has no hook: if it is the last strong
reference to a registered node, the entry of the node stays for good (`dead_entry_plainRc`).

There is no other way to break the rule. In every run of a caller in which no such pointer goes
last, ids live exactly as long as their nodes; and a step in which one does leaves a dead entry
(`registered_id_of_callers`).
-/

namespace Relrc

open SlotStore Fallible

variable {N E : Type} {A : AddrSource} {K : KeySource} {ok : Access → Prop} {X : Exempt}

/-! ### Steps that leave registries alone -/

/-- What leaves registries alone, and keeps registered nodes, keeps all entries tracked. -/
theorem Unregistering.onlyTracked {w w' : World N E} {H : Multiset Ref} {G : Multiset RegRef}
    {R : RegRef} (h : Unregistering w w') (hi : Inv w H G X) (ho : OnlyTracked w R)
    (hkeep : ∀ r, (w.registries R).Has r → w.heap.slot r = some R → w'.heap.Alive r) :
    OnlyTracked w' R := by
  intro r hr
  rw [h.registries] at hr
  have hslot := ho r hr
  rw [h.slot r (hi.heap.alive_lt r (alive_of_slot hi hslot)) (hkeep r hr hslot)]
  exact hslot

/-! ### A node that goes without the hook -/

/-- The entry of a node that is dead already outlives the drop of other handles. -/
theorem entry_dropAll {w : World N E} {H : Multiset Ref} {G : Multiset RegRef} {rs : List Ref}
    {x : Ref} {R : RegRef} {id : NodeId} (hi : Inv w ((rs : Multiset Ref) + H) G X)
    (hx : (w.registries R).nodes.get id = some x ∧ ¬ w.heap.Alive x) :
    ((w.dropAll rs).registries R).nodes.get id = some x ∧ ¬ (w.dropAll rs).heap.Alive x := by
  refine dropAll_rule (Q := fun v => (v.registries R).nodes.get id = some x ∧ ¬ v.heap.Alive x)
    (fun v H' r hiv hxv => ?_) hi hx
  obtain ⟨hentry, hdead⟩ := hxv
  have hlt : x < v.heap.size := hiv.inUse_lt x (hiv.inUse_of_entry hentry)
  refine ⟨?_, fun hlive => hdead ((v.frame_release r).alive x hlt hlive)⟩
  rcases v.registries_release r R with heq | ⟨-, -, id', hid', heq⟩
  · rw [heq]
    exact hentry
  · -- the hook removes the entry of a node that was alive
    have halive : v.heap.Alive r := hiv.heap.alive_of_held (Multiset.mem_cons_self _ _)
    have hne : id ≠ id' := by
      rintro rfl
      have hr := (hiv.getId_eq_some_iff (Inv.inUse_of_alive halive)).mp hid'
      obtain rfl := Option.some.inj (hr.symm.trans hentry)
      exact hdead halive
    rw [heq, Registry.get_remove, if_neg hne]
    exact hentry

/-! ### Callers -/

variable {c c' : Caller N E} {o : CallerOp N E} {R : RegRef} {id : NodeId} {n : Ref}

/-- The operation does not drop an `Rc<InnerData>` that is the last reference to a node registered
in `R`. -/
def Caller.LeavesNoEntry (R : RegRef) (c : Caller N E) : CallerOp N E → Prop
  | .rcDrop node => c.world.heap.strong node ≤ 1 → c.world.registry node = some R →
      (c.world.registries R).contains c.world.heap node = false
  | _ => True

theorem Caller.leavesNoEntry_rcDrop_iff (c : Caller N E) (node : Ref) :
    (!decide (c.world.heap.strong node ≤ 1) || !decide (c.world.registry node = some R) ||
      !(c.world.registries R).contains c.world.heap node) ↔ c.LeavesNoEntry R (.rcDrop node) := by
  rw [LeavesNoEntry, Bool.or_eq_true, Bool.or_eq_true, Bool.not_eq_true', Bool.not_eq_true',
    Bool.not_eq_true', decide_eq_false_iff_not, decide_eq_false_iff_not]
  tauto

instance (c : Caller N E) (o : CallerOp N E) : Decidable (c.LeavesNoEntry R o) :=
  match o with
  | .rcDrop node => decidable_of_bool _ (c.leavesNoEntry_rcDrop_iff node)
  | .op _ | .dataDefault _ | .dataClone _ | .dataDrop _ | .dataOutgoing _ | .dataOutgoingWeak _
  | .dataIncomingWeak _ _ | .rcNew _ | .rcClone _ | .rcDowngrade _ | .rcUpgrade _ | .rcDropWeak _
  | .fromRc _ | .fromRcWeak _ | .edgeClone _ | .edgeDrop _ | .edgeTarget _ => isTrue trivial

/-- What leaves no entry frees no node that has one. -/
theorem Caller.not_has_of_leavesNoEntry {H : Multiset Ref} (hi : c.config.Inv X)
    (hheld : c.held = n ::ₘ H) (hleaves : c.LeavesNoEntry R (.rcDrop n))
    (hlast : c.world.heap.strong n ≤ 1) (hslot : c.world.heap.slot n = some R) :
    ¬ (c.world.registries R).Has n := by
  intro hhas
  have hn : c.world.heap.Alive n := by
    rw [config_eq hheld] at hi
    exact hi.heap.alive_of_held (Multiset.mem_cons_self _ _)
  have hcontains := (hi.contains_iff hn).mpr hhas
  have hregistry : c.world.registry n = some R :=
    World.registry_eq_some_iff.mpr ⟨hslot, hi.regAlive_of_has hhas⟩
  rw [hleaves hlast hregistry] at hcontains
  cases hcontains

theorem World.alive_decStrong (w : World N E) {r x : Ref} (hne : x ≠ r) (hx : w.heap.Alive x) :
    (w.withHeap (w.heap.decStrong r)).heap.Alive x := by
  rw [World.heap_withHeap, Heap.Alive, Heap.strong_decStrong, if_neg hne]
  exact hx

namespace Caller.Effect

/-- An operation that leaves no entry keeps an id as long as its node. -/
theorem lifetime (h : Effect A K ok c c' o) (hi : c.config.Inv X) (hok : NoRemove ok R)
    (hleaves : c.LeavesNoEntry R o) (hl : Lifetime c.world R id n) (hlt : R < c.world.nregs)
    (hR : c'.world.RegAlive R) : Lifetime c'.world R id n := by
  cases h with
  | steps hX h => exact Steps.lifetime h hi hok hl hlt hR
  | @wraps k d H hd hheld hin hc' =>
    have hw : c'.world = c.world.allocData A d := congrArg Config.world hc'
    rw [hw]
    exact (c.world.unregistering_allocData A d).lifetime hi hl fun ht =>
      c.world.alive_allocData A d (ht.alive hi)
  | @frees r H hheld hlast h =>
    have hi' := hi
    rw [config_eq hheld] at hi'
    have hdec := hi'.decStrong
    rw [if_pos hlast] at hdec
    refine Steps.lifetime h hdec hok ((c.world.unregistering_decStrong r).lifetime hi hl
      fun ht => c.world.alive_decStrong ?_ (ht.alive hi)) hlt hR
    rintro rfl
    exact not_has_of_leavesNoEntry hi hheld hleaves hlast ht.slot ⟨id, ht.entry⟩

/-- It leaves no entry of a dead node behind. -/
theorem onlyTracked (h : Effect A K ok c c' o) (hi : c.config.Inv X) (hadd : ¬ ok (.add R))
    (hok : NoRemove ok R) (hleaves : c.LeavesNoEntry R o) (ho : OnlyTracked c.world R)
    (hlt : R < c.world.nregs) : OnlyTracked c'.world R := by
  cases h with
  | steps hX h => exact Steps.onlyTracked h hi hlt hadd hok ho
  | @wraps k d H hd hheld hin hc' =>
    have hw : c'.world = c.world.allocData A d := congrArg Config.world hc'
    rw [hw]
    exact (c.world.unregistering_allocData A d).onlyTracked hi ho fun r _ hslot =>
      c.world.alive_allocData A d (alive_of_slot hi hslot)
  | @frees r H hheld hlast h =>
    have hi' := hi
    rw [config_eq hheld] at hi'
    have hdec := hi'.decStrong
    rw [if_pos hlast] at hdec
    refine Steps.onlyTracked h hdec hlt hadd hok ((c.world.unregistering_decStrong r).onlyTracked
      hi ho fun x hx hslot => c.world.alive_decStrong ?_ (alive_of_slot hi hslot))
    rintro rfl
    exact not_has_of_leavesNoEntry hi hheld hleaves hlast hslot hx

end Caller.Effect

/-! ### Runs -/

/-- **In a run whose steps leave no entry**, a registered node is tracked while it lives and
forgotten once it is dead. -/
theorem Caller.Run.lifetime
    (h : Caller.Run A K (fun c o => c.Respects ok o ∧ c.LeavesNoEntry R o) c c') (hc : c.Good X)
    (hok : NoRemove ok R) (hl : Lifetime c.world R id n) (hlt : R < c.world.nregs)
    (hR : c'.world.RegAlive R) : Lifetime c'.world R id n := by
  induction h with
  | refl => exact hl
  | tail hrun hstep ih =>
    obtain ⟨X', hc'⟩ := Caller.Run.good hrun hc
    obtain ⟨o, hen, ⟨hresp, hleaves⟩, hexec⟩ := hstep
    obtain ⟨heffect, -⟩ := hc'.effect hen hresp hexec
    have hlt' := lt_of_lt_of_le hlt (Caller.Run.frame hrun hc).nregs_le
    have hR' := (heffect.frame hc'.inv).regAlive R hlt' hR
    exact heffect.lifetime hc'.inv hok hleaves (ih hR') hlt' hR

/-- A run of such operations leaves no entry of a dead node behind. -/
theorem Caller.Run.onlyTracked
    (h : Caller.Run A K (fun c o => c.Respects ok o ∧ c.LeavesNoEntry R o) c c') (hc : c.Good X)
    (hadd : ¬ ok (.add R)) (hok : NoRemove ok R) (ho : OnlyTracked c.world R)
    (hlt : R < c.world.nregs) : OnlyTracked c'.world R := by
  induction h with
  | refl => exact ho
  | tail hrun hstep ih =>
    obtain ⟨X', hc'⟩ := Caller.Run.good hrun hc
    obtain ⟨o, hen, ⟨hresp, hleaves⟩, hexec⟩ := hstep
    obtain ⟨heffect, -⟩ := hc'.effect hen hresp hexec
    exact heffect.onlyTracked hc'.inv hadd hok hleaves ih
      (lt_of_lt_of_le hlt (Caller.Run.frame hrun hc).nregs_le)

/-- A pointer that goes last at a node registered in `R` leaves the entry of a dead node. -/
theorem Caller.Good.dead_entry (hc : c.Good X) (hen : o.Enabled c) (h : ¬ c.LeavesNoEntry R o)
    (hexec : c.exec A K o = .ok c') :
    ∃ id n, (c'.world.registries R).nodes.get id = some n ∧ ¬ c'.world.heap.Alive n := by
  cases o with
  | rcDrop node =>
    obtain ⟨hlast, hregistry, hcontains⟩ : c.world.heap.strong node ≤ 1 ∧
        c.world.registry node = some R ∧
        (c.world.registries R).contains c.world.heap node = true := by
      simpa [LeavesNoEntry] using h
    obtain rfl := pure_eq_ok_iff.mp hexec
    have hi := hc.inv
    obtain ⟨hslot, -⟩ := World.registry_eq_some_iff.mp hregistry
    obtain ⟨id, hid⟩ := (hi.contains_iff (alive_of_slot hi hslot)).mp hcontains
    rw [config_eq (held_erase_rc hen)] at hi
    have hdec := hi.decStrong
    rw [add_comm] at hdec
    refine ⟨id, node, entry_dropAll hdec ⟨hid, ?_⟩⟩
    rw [World.heap_withHeap, Heap.Alive, Heap.strong_decStrong, if_pos rfl]
    omega
  | _ => exact absurd trivial h

/-- **When ids live exactly as long as their nodes**: in a run of a caller after `try_register_in`
has returned an id, and until `R` is dropped, if no `Rc<InnerData>` goes as the last reference to a
node registered in `R`; and then a registry filled by `try_register_in` has as many entries as live
nodes. If one does go last, a dead node has an entry. -/
theorem registered_id_of_callers {P : Caller N E → CallerOp N E → Prop}
    (h : Caller.Run A K P Caller.init c) :
    (∀ n R id t c', (CallerOp.op (.tryRegisterIn n R)).Enabled c →
      (c.world.tryRegisterIn K n R).1 = some id →
      c.exec A K (.op (.tryRegisterIn n R)) = .ok t →
      Caller.Run A K (fun c o => c.Respects NoRemoval o ∧ c.LeavesNoEntry R o) t c' →
      c'.world.RegAlive R → (c'.world.registries R).Follows c'.world.heap id n) ∧
    (∀ R c', c.world.RegAlive R → (c.world.registries R).len = 0 →
      Caller.Run A K (fun c o => c.Respects (RegisteredOnly R) o ∧ c.LeavesNoEntry R o) c c' →
      c'.world.RegAlive R → (c'.world.registries R).len = (c'.world.liveNodes R).length) ∧
    ∀ R o c', o.Enabled c → ¬ c.LeavesNoEntry R o → c.exec A K o = .ok c' →
      ∃ id n, (c'.world.registries R).nodes.get id = some n ∧ ¬ c'.world.heap.Alive n := by
  obtain ⟨X, hc⟩ := h.good Caller.good_init
  refine ⟨fun n R id t c' hen hid hexec hrun hR => ?_, fun R c' hR hlen hrun hR' => ?_,
    fun R o c' hen hleaves hexec => hc.dead_entry hen hleaves hexec⟩
  · have ht := hc.step hen hexec
    obtain ⟨⟨hn, hRalive⟩, -⟩ := hen
    have htracked : Tracked t.world R id n := by
      obtain rfl := pure_eq_ok_iff.mp hexec
      exact tracked_tryRegisterIn hc.inv hn hRalive hid
    have hlt : R < t.world.nregs := ht.inv.reg_lt R (htracked.regAlive ht.inv)
    obtain ⟨X', hc'⟩ := hrun.good ht
    refine Lifetime.follows hc'.inv (hrun.lifetime ht (fun hr => hr) ?_ hlt hR)
    exact ⟨fun _ => htracked, fun hdead => absurd (htracked.alive ht.inv) hdead⟩
  · obtain ⟨X', hc'⟩ := hrun.good hc
    have honly := hrun.onlyTracked hc (fun hadd => hadd rfl) (fun hrem => hrem)
      (onlyTracked_of_len hlen) (hc.inv.reg_lt R hR)
    exact hc'.inv.len_eq fun r hr => alive_of_slot hc'.inv (honly r hr)

/-- A registry, and a node with a handle and a plain pointer to it. -/
def plainPointer : Caller ℕ ℕ :=
  Caller.after (fun _ _ => True) [.dataDefault 10, .rcNew 0, .rcClone 0, .fromRc 0,
    .op .registryNew]

/-- The node has been registered. -/
def registeredPointer : Caller ℕ ℕ :=
  Caller.after (fun _ _ => True) [.op (.tryRegisterIn 0 0)] plainPointer

/-- The pointer went first, and the handle after it. -/
def handleLast : Caller ℕ ℕ :=
  Caller.after (fun c o => o.isRemoval = false ∧ c.LeavesNoEntry 0 o)
    [.rcDrop 0, .op (.drop (.node 0))] registeredPointer

/-- Only the pointer is left. -/
def pointerLast : Caller ℕ ℕ :=
  Caller.after (fun c o => o.isRemoval = false ∧ c.LeavesNoEntry 0 o)
    [.op (.drop (.node 0))] registeredPointer

/-- If the handle goes last, the id goes with it; if the pointer does, an entry stays. -/
theorem registered_id_of_callers_plainPointer :
    (plainPointer.world.tryRegisterIn KeySource.reusing 0 0).1 = some ⟨1, 1⟩ ∧
    (handleLast.world.registries 0).get handleLast.world.heap ⟨1, 1⟩ = none ∧
    ∃ c', pointerLast.exec AddrSource.lowest KeySource.reusing (.rcDrop 0) = .ok c' ∧
      ∃ id n, (c'.world.registries 0).nodes.get id = some n ∧ ¬ c'.world.heap.Alive n := by
  have hrun : Caller.Run AddrSource.lowest KeySource.reusing (fun _ _ => True) Caller.init
      plainPointer := Caller.run_after (by decide +kernel)
  have hstep : plainPointer.exec AddrSource.lowest KeySource.reusing (.op (.tryRegisterIn 0 0)) =
      .ok registeredPointer := Caller.exec_of_after (by decide +kernel)
  have hkeep : Caller.Run AddrSource.lowest KeySource.reusing
      (fun c o => c.Respects NoRemoval o ∧ c.LeavesNoEntry 0 o) registeredPointer handleLast := by
    refine Caller.Run.mono (P := fun c o => o.isRemoval = false ∧ c.LeavesNoEntry 0 o)
      (fun c o h => ⟨Caller.respects_noRemoval h.1, h.2⟩) ?_
    exact Caller.run_after (by decide +kernel)
  have hlast : Caller.Run AddrSource.lowest KeySource.reusing (fun _ _ => True) Caller.init
      pointerLast := by
    refine hrun.trans (.head ⟨_, by decide +kernel, trivial, hstep⟩ ?_)
    refine Caller.Run.mono (P := fun c o => o.isRemoval = false ∧ c.LeavesNoEntry 0 o)
      (fun _ _ _ => trivial) ?_
    exact Caller.run_after (by decide +kernel)
  have hid : (plainPointer.world.tryRegisterIn KeySource.reusing 0 0).1 = some ⟨1, 1⟩ := by
    decide +kernel
  have hlife := (registered_id_of_callers hrun).1 0 0 ⟨1, 1⟩ _ _ (by decide +kernel) hid hstep hkeep
    (by decide +kernel)
  obtain ⟨-, -, hleaves⟩ := registered_id_of_callers hlast
  exact ⟨hid, (hlife.dead (by decide +kernel)).1, _, rfl,
    hleaves 0 (.rcDrop 0) _ (by decide +kernel) (by decide +kernel) rfl⟩

/-- The handle went first, and the pointer after it. -/
def unhookedNode : Caller ℕ ℕ :=
  Caller.after (fun _ o => o.isRemoval = false) [.op (.drop (.node 0)), .rcDrop 0]
    registeredPointer

/-- The node is dead, and both maps of the registry still have an entry for it: `len` counts one
node too many. -/
theorem dead_entry_plainRc :
    Caller.Run AddrSource.lowest KeySource.reusing (fun _ _ => True) Caller.init plainPointer ∧
    (plainPointer.world.tryRegisterIn KeySource.reusing 0 0).1 = some ⟨1, 1⟩ ∧
    plainPointer.exec AddrSource.lowest KeySource.reusing (.op (.tryRegisterIn 0 0)) =
      .ok registeredPointer ∧
    Caller.Run AddrSource.lowest KeySource.reusing (fun c o => c.Respects NoRemoval o)
      registeredPointer unhookedNode ∧
    unhookedNode.world.RegAlive 0 ∧ ¬ unhookedNode.world.heap.Alive 0 ∧
    (unhookedNode.world.registries 0).nodes.get ⟨1, 1⟩ = some 0 ∧
    (unhookedNode.world.registries 0).ptrToId (unhookedNode.world.heap.addr 0) = some ⟨1, 1⟩ ∧
    (unhookedNode.world.registries 0).len = 1 ∧ unhookedNode.world.liveNodes 0 = [] ∧
    ¬ (unhookedNode.world.registries 0).Follows unhookedNode.world.heap ⟨1, 1⟩ 0 := by
  have hdead : ¬ unhookedNode.world.heap.Alive 0 := by decide +kernel
  have hentry : (unhookedNode.world.registries 0).nodes.get ⟨1, 1⟩ = some 0 := by decide +kernel
  refine ⟨Caller.run_after (by decide +kernel), by decide +kernel,
    Caller.exec_of_after (by decide +kernel), ?_, by decide +kernel, hdead, hentry,
    by decide +kernel, by decide +kernel, by decide +kernel, fun hfollows => ?_⟩
  · refine Caller.Run.mono (P := fun _ o => o.isRemoval = false)
      (fun c o h => Caller.respects_noRemoval h) ?_
    exact Caller.run_after (by decide +kernel)
  · exact (hfollows.dead hdead).2.1 ⟨1, 1⟩ hentry

end Relrc
