import Relrc.Liveness
import Relrc.Memory.Callers

/-!
# Registries

Three results about registries over whole runs.

* The two maps of every registry stay inverse to each other, although one of them is keyed by raw
  addresses and addresses are reused: an entry is a weak reference, which keeps the allocation.
* An id handed out by `try_register_in` lives exactly as long as its node, unless
  `Registry::remove` is called. The `Drop` hook frees it with the last strong reference, at any
  depth of a cascade.
* `try_register_in` compares the stored weak pointer without upgrading it, so a node that
  survived its registry is refused by every other one; any other refusal is a conflict.
-/

namespace Relrc

open SlotStore Ancestry Fallible

variable {N E : Type} {A : AddrSource} {K : KeySource} {P : State N E → Op N E → Prop}
variable {s s' : State N E}

/-! ### Inverse maps -/

theorem Registry.Inverse.ptrToId_iff {reg : Registry} {addr : Ref → Addr} (hi : reg.Inverse addr)
    {id : NodeId} {p : Addr} :
    (reg.nodes.get id).map addr = some p ↔ reg.ptrToId p = some id := by
  rw [Option.map_eq_some_iff]
  constructor
  · rintro ⟨r, hr, rfl⟩
    exact hi.ptr_of_node id r hr
  · exact hi.node_of_ptr p id

/-- An id resolves to the live node of its entry. -/
theorem Registry.get_eq_some_iff {reg : Registry} {h : Heap N E} {id : NodeId} {r : Ref} :
    reg.get h id = some r ↔ reg.nodes.get id = some r ∧ h.Alive r := by
  rw [Registry.get, Option.bind_eq_some_iff]
  constructor
  · rintro ⟨x, hx, hr⟩
    rw [Heap.upgrade] at hr
    split_ifs at hr with halive
    obtain rfl := Option.some.inj hr
    exact ⟨hx, halive⟩
  · rintro ⟨hx, halive⟩
    exact ⟨r, hx, upgrade_eq_some_iff.mpr halive⟩

/-- The live entries of a registry. -/
def Registry.liveEntries (reg : Registry) (h : Heap N E) : List (NodeId × Ref) :=
  reg.nodes.entries.filter fun e => h.Alive e.2

/-- `free_node_ids` returns the number of live entries. -/
theorem Registry.freeNodeIds_fst_eq (reg : Registry) (h : Heap N E) :
    (reg.freeNodeIds h).1 = (reg.liveEntries h).length := by
  have hperm : (reg.freeNodeIds h).2.nodes.entries.Perm (reg.liveEntries h) := by
    rw [Registry.liveEntries, Slots.entries_perm_iff (reg.nodes.entries_nodup.filter _)]
    intro id r
    rw [Registry.get_freeNodeIds, List.mem_filter, Slots.mem_entries]
    simp
  exact hperm.length_eq

/-- A node that was just allocated has no entry anywhere. -/
theorem State.Inv.not_has_size (hi : s.Inv) (R : RegRef) :
    ¬ (s.world.registries R).Has s.world.heap.size := by
  rintro ⟨id, hid⟩
  exact Nat.lt_irrefl _ (hi.inUse_lt _ (hi.inUse_of_entry hid))

/-- The maps of a registry are inverse to each other, and so are its lookups. -/
theorem Inv.lookups {w : World N E} {H : Multiset Ref} {G : Multiset RegRef} {X : Exempt}
    (hi : Inv w H G X) (R : RegRef) :
    (∀ id p, ((w.registries R).nodes.get id).map w.heap.asPtr = some p ↔
      (w.registries R).ptrToId p = some id) ∧
    (∀ n id, w.heap.Alive n → (w.registries R).getId w.heap n = some id →
      ∃ m, (w.registries R).get w.heap id = some m ∧ w.heap.ptrEq m n) ∧
    ∀ n id, (w.registries R).get w.heap id = some n →
      (w.registries R).getId w.heap n = some id := by
  refine ⟨fun id p => (hi.inverse R).ptrToId_iff, fun n id hn hid => ⟨n, ?_, ?_⟩, fun n id hn => ?_⟩
  · exact Registry.get_eq_some_iff.mpr
      ⟨(hi.getId_eq_some_iff (Inv.inUse_of_alive hn)).mp hid, hn⟩
  · exact beq_self_eq_true _
  · exact (hi.inverse R).ptr_of_node id n (Registry.get_eq_some_iff.mp hn).1

/-- Callers that copy nodes and their data, and make nodes of copies, keep the maps inverse too. -/
theorem Caller.lookups_of_run {Q : Caller N E → CallerOp N E → Prop} {c : Caller N E}
    (h : Caller.Run A K Q Caller.init c) (R : RegRef) :
    (∀ id p, ((c.world.registries R).nodes.get id).map c.world.heap.asPtr = some p ↔
      (c.world.registries R).ptrToId p = some id) ∧
    (∀ n id, c.world.heap.Alive n → (c.world.registries R).getId c.world.heap n = some id →
      ∃ m, (c.world.registries R).get c.world.heap id = some m ∧ c.world.heap.ptrEq m n) ∧
    ∀ n id, (c.world.registries R).get c.world.heap id = some n →
      (c.world.registries R).getId c.world.heap n = some id := by
  obtain ⟨X, hc⟩ := Caller.Run.good h Caller.good_init
  exact hc.inv.lookups R

/-- **The two maps of a registry are mutually inverse in every state of every run**, with what
follows for lookups, new nodes and clean-up. -/
theorem registry_inverse_of_run (h : Run A K P State.init s) (R : RegRef) :
    (∀ id p, ((s.world.registries R).nodes.get id).map s.world.heap.asPtr = some p ↔
      (s.world.registries R).ptrToId p = some id) ∧
    (∀ n id, s.world.heap.Alive n → (s.world.registries R).getId s.world.heap n = some id →
      ∃ m, (s.world.registries R).get s.world.heap id = some m ∧ s.world.heap.ptrEq m n) ∧
    (∀ n id, (s.world.registries R).get s.world.heap id = some n →
      (s.world.registries R).getId s.world.heap n = some id) ∧
    (∀ v s', exec A K s (.new v) = .ok s' →
      (s'.world.registries R).getId s'.world.heap s.world.heap.size = none) ∧
    (∀ v ps s', Op.Enabled s (.withParents v ps) → exec A K s (.withParents v ps) = .ok s' →
      (s'.world.registries R).getId s'.world.heap s.world.heap.size = none) ∧
    (∀ id r, ((s.world.registries R).freeNodeIds s.world.heap).2.nodes.get id = some r ↔
      (s.world.registries R).nodes.get id = some r ∧ s.world.heap.Alive r) ∧
    ((s.world.registries R).freeNodeIds s.world.heap).1 =
      ((s.world.registries R).liveEntries s.world.heap).length := by
  have hi := Run.inv h State.inv_init
  -- a new node has no entry, whatever its address was used for
  have hnew : ∀ op s', Op.Enabled s op → exec A K s op = .ok s' →
      s'.world.registries R = s.world.registries R → s'.world.heap.Alive s.world.heap.size →
      (s'.world.registries R).getId s'.world.heap s.world.heap.size = none := by
    intro op s' hen hexec hreg halive
    have hi' : s'.Inv := Run.inv (P := fun _ _ => True)
      (Relation.ReflTransGen.single ⟨op, hen, trivial, hexec⟩) hi
    refine (hi'.getId_eq_none_iff (Inv.inUse_of_alive halive)).mpr ?_
    rw [State.config, hreg]
    exact hi.not_has_size R
  obtain ⟨hinverse, hget, hgetId⟩ := hi.lookups R
  refine ⟨hinverse, hget, hgetId, fun v s' hexec => ?_, fun v ps s' hen hexec => ?_,
    fun id r => Registry.get_freeNodeIds _ _, Registry.freeNodeIds_fst_eq _ _⟩
  · refine hnew (.new v) s' trivial hexec ?_ ?_ <;> obtain rfl := pure_eq_ok_iff.mp hexec
    · rfl
    · simp [World.new, Heap.new, Heap.Alive, Heap.strong_alloc]
  · refine hnew (.withParents v ps) s' hen hexec ?_ ?_ <;> obtain rfl := pure_eq_ok_iff.mp hexec
    · rfl
    · simp [World.withParents, Heap.Alive, Heap.strong_withParents]

/-- A dead entry: its address is still in use when the next node is allocated. -/
def deadEntry : State ℕ ℕ :=
  State.init.after [.new 10, .registryNew, .addNode 0 0, .drop (.node 0)]

theorem registry_inverse_of_run_deadEntry :
    (deadEntry.world.registries 0).ptrToId 0 = some ⟨1, 1⟩ ∧
    ∀ s', exec AddrSource.lowest KeySource.reusing deadEntry (.new 20) = .ok s' →
      (s'.world.registries 0).getId s'.world.heap 1 = none := by
  have hrun : Run _ _ (fun _ _ => True) State.init deadEntry :=
    run_after (by decide) fun _ _ _ => trivial
  obtain ⟨hinv, -, -, hnew, -⟩ := registry_inverse_of_run hrun 0
  exact ⟨(hinv ⟨1, 1⟩ 0).mp (by decide), hnew 20⟩

/-! ### Lifetime of ids -/

/-- `Registry::remove` is called by the `Drop` hook only. -/
def NoRemoval : Access → Prop
  | .remove _ => False
  | _ => True

/-- The operation is a direct call of `Registry::remove`. -/
def Op.isRemoval : Op N E → Bool
  | .remove _ _ => true
  | _ => false

theorem respects_noRemoval {op : Op N E} (h : op.isRemoval = false) :
    Respects NoRemoval s op := by
  intro a ha
  cases op with
  | remove R id => cases h
  | addNode R node | getIdOrInsert R node | tryRegisterIn node R | graphNew nodes R
  | toSerialized node R =>
    obtain rfl := ha
    trivial
  | insertNode g node | insertAncestors g node =>
    obtain ⟨G, -, rfl⟩ := ha
    trivial
  | graphFromNodes nodes | graphFromSerialized ser | fromSerialized ser =>
    obtain ⟨R, -, rfl⟩ := ha
    trivial
  | _ => exact absurd ha fun h => h

/-- The operation is a direct call of `Registry::remove`. -/
def CallerOp.isRemoval : CallerOp N E → Bool
  | .op o => o.isRemoval
  | _ => false

theorem Caller.respects_noRemoval {c : Caller N E} {o : CallerOp N E} (h : o.isRemoval = false) :
    c.Respects NoRemoval o := by
  cases o with
  | op o => exact Relrc.respects_noRemoval h
  | _ => trivial

/-- Moreover `R` is filled by `try_register_in` only. -/
def RegisteredOnly (R : RegRef) : Access → Prop
  | .remove _ => False
  | .add R' => R' ≠ R
  | .register _ => True

/-- The live nodes that `R` knows. -/
def World.liveNodes (w : World N E) (R : RegRef) : List Ref :=
  (List.range w.heap.size).filter fun r => w.heap.Alive r ∧ (w.registries R).contains w.heap r

section Lifetimes

variable {w : World N E} {H : Multiset Ref} {G : Multiset RegRef} {X : Exempt}

/-- `contains` answers for a live node whether it has an entry. -/
theorem Inv.contains_iff (hi : Inv w H G X) {R : RegRef} {r : Ref} (hr : w.heap.Alive r) :
    (w.registries R).contains w.heap r = true ↔ (w.registries R).Has r := by
  rw [Registry.contains, Option.isSome_iff_exists, Registry.Has]
  exact exists_congr fun id => hi.getId_eq_some_iff (Inv.inUse_of_alive hr)

/-- The live nodes of a registry are its entries that are live. -/
theorem Inv.mem_liveNodes (hi : Inv w H G X) {R : RegRef} {r : Ref} :
    r ∈ w.liveNodes R ↔ w.heap.Alive r ∧ (w.registries R).Has r := by
  rw [World.liveNodes, List.mem_filter, List.mem_range, decide_eq_true_eq]
  constructor
  · rintro ⟨-, hr, hc⟩
    exact ⟨hr, (hi.contains_iff hr).mp hc⟩
  · rintro ⟨hr, hhas⟩
    exact ⟨hi.heap.alive_lt r hr, hr, (hi.contains_iff hr).mpr hhas⟩

/-- A registry without dead entries has as many entries as live nodes. -/
theorem Inv.len_eq (hi : Inv w H G X) {R : RegRef}
    (hlive : ∀ r, (w.registries R).Has r → w.heap.Alive r) :
    (w.registries R).len = (w.liveNodes R).length := by
  have hperm : (w.registries R).nodes.values.Perm (w.liveNodes R) := by
    rw [List.perm_ext_iff_of_nodup]
    · intro r
      rw [hi.mem_liveNodes, Slots.mem_values]
      exact ⟨fun hr => ⟨hlive r hr, hr⟩, fun hr => hr.2⟩
    · refine List.Nodup.map_on ?_ (w.registries R).nodes.entries_nodup
      rintro ⟨id, r⟩ he ⟨id', r'⟩ he' heq
      obtain rfl : r = r' := heq
      rw [(hi.inverse R).id_eq (Slots.mem_entries.mp he) (Slots.mem_entries.mp he')]
    · exact List.nodup_range.filter _
  rw [Registry.len, ← hperm.length_eq, Slots.values, List.length_map, Slots.len]

/-- What a registry answers about the node that it gave `id`. While the node lives, the id and the
node are each other's; once it is dead, neither map knows it. -/
structure Registry.Follows (reg : Registry) (h : Heap N E) (id : NodeId) (n : Ref) : Prop where
  live : h.Alive n → reg.getId h n = some id ∧ reg.get h id = some n
  dead : ¬ h.Alive n → reg.get h id = none ∧ (∀ id', reg.nodes.get id' ≠ some n) ∧
    ∀ p id', reg.ptrToId p = some id' → id' ≠ id ∧ ∃ m, m ≠ n ∧ reg.nodes.get id' = some m

/-- An id that lives as long as its node is found while the node lives, and never after. -/
theorem Lifetime.follows (hi : Inv w H G X) {R : RegRef} {id : NodeId} {n : Ref}
    (hl : Lifetime w R id n) : (w.registries R).Follows w.heap id n := by
  refine ⟨fun hr => ?_, fun hr => ?_⟩
  · have ht := hl.live hr
    exact ⟨ht.getId hi, Registry.get_eq_some_iff.mpr ⟨ht.entry, hr⟩⟩
  · have hf : Forgotten w R id n := hl.dead hr
    refine ⟨?_, fun id' hid' => hf.noEntry ⟨id', hid'⟩, fun p id' hp => ?_⟩
    · rw [Registry.get, hf.vacant]
      rfl
    · obtain ⟨m, hm, -⟩ := (hi.inverse R).node_of_ptr p id' hp
      refine ⟨?_, m, ?_, hm⟩
      · rintro rfl
        rw [hf.vacant] at hm
        cases hm
      · rintro rfl
        exact hf.noEntry ⟨id', hm⟩

/-- A registry without entries is filled by registration from the start. -/
theorem onlyTracked_of_len {R : RegRef} (hlen : (w.registries R).len = 0) : OnlyTracked w R := by
  rintro r ⟨id, hid⟩
  rw [Slots.len_eq_zero_iff.mp hlen id] at hid
  cases hid

end Lifetimes

/-- **Ids live exactly as long as their nodes.** After `try_register_in` returned an id, and until
`R` is dropped: while the node lives, the id and the node are each other's in `R`; once it is
dead, neither map of `R` knows it. A registry filled by `try_register_in` only holds its live
nodes and nothing else. -/
theorem registered_id_of_run (h : Run A K (Respects NoRemoval) State.init s) :
    (∀ n R id t s', Op.Enabled s (.tryRegisterIn n R) → (s.world.tryRegisterIn K n R).1 = some id →
      exec A K s (.tryRegisterIn n R) = .ok t → Run A K (Respects NoRemoval) t s' →
      s'.world.RegAlive R → (s'.world.registries R).Follows s'.world.heap id n) ∧
    ∀ R s', s.world.RegAlive R → (s.world.registries R).len = 0 →
      Run A K (Respects (RegisteredOnly R)) s s' → s'.world.RegAlive R →
      (s'.world.registries R).len = (s'.world.liveNodes R).length := by
  have hi := Run.inv h State.inv_init
  refine ⟨fun n R id t s' hen hid hexec hrun hR => ?_, fun R s' hR hlen hrun hR' => ?_⟩
  · obtain ⟨hn, hRalive⟩ := hen
    have hit : t.Inv := Run.inv (P := fun _ _ => True)
      (Relation.ReflTransGen.single ⟨.tryRegisterIn n R, ⟨hn, hRalive⟩, trivial, hexec⟩) hi
    have htracked : Tracked t.world R id n := by
      obtain rfl := pure_eq_ok_iff.mp hexec
      exact tracked_tryRegisterIn hi hn hRalive hid
    have hi' := Run.inv hrun hit
    have hsteps : Steps A K NoRemoval t.config s'.config := Run.steps hrun hit fun _ _ hp => hp
    -- the entry stays with the node, and is gone with it
    obtain ⟨hlive, hdead⟩ := Steps.tracked hsteps hit (fun hr => hr) htracked hR
    exact Lifetime.follows hi' ⟨hlive, hdead⟩
  · have hi' := Run.inv hrun hi
    have hsteps : Steps A K (RegisteredOnly R) s.config s'.config :=
      Run.steps hrun hi fun _ _ hp => hp
    have honly : OnlyTracked s'.world R := Steps.onlyTracked hsteps hi (hi.reg_lt R hR)
      (fun hadd => hadd rfl) (fun hrem => hrem) (onlyTracked_of_len hlen)
    exact hi'.len_eq fun r hr => alive_of_slot hi' (honly r hr)

/-! ### Conflicts of registration -/

/-- The registry of a node is named by its cell, while it is alive. -/
theorem World.registry_eq_some_iff {w : World N E} {r : Ref} {R : RegRef} :
    w.registry r = some R ↔ w.heap.slot r = some R ∧ w.RegAlive R := by
  rw [World.registry, Option.filter_eq_some_iff, decide_eq_true_eq]

/-- The registry cell of the node names a registry that was dropped: `registry()` answers `None`
although the cell is not empty. -/
def World.Stale (w : World N E) (r : Ref) : Prop :=
  ∃ R, w.heap.slot r = some R ∧ ¬ w.RegAlive R

/-- `try_register_in` refuses exactly the nodes that `registry()` reports elsewhere, changes nothing
when it refuses, and registers the node under the id it returns otherwise. -/
structure RegistersUnlessConflict (K : KeySource) (w : World N E) (n : Ref) (R : RegRef) :
    Prop where
  refused_iff : (w.tryRegisterIn K n R).1 = none ↔ ∃ R', w.registry n = some R' ∧ R' ≠ R
  unchanged : (w.tryRegisterIn K n R).1 = none → (w.tryRegisterIn K n R).2 = w
  registered : ∀ id, (w.tryRegisterIn K n R).1 = some id →
    (w.tryRegisterIn K n R).2.registry n = some R ∧
    ((w.tryRegisterIn K n R).2.registries R).getId (w.tryRegisterIn K n R).2.heap n = some id

/-- The cell is compared without upgrading it. -/
theorem World.tryRegisterIn_eq_none_iff {w : World N E} {n : Ref} {R : RegRef} :
    (w.tryRegisterIn K n R).1 = none ↔ ∃ R', w.heap.slot n = some R' ∧ R' ≠ R := by
  rcases w.tryRegisterIn_cases (K := K) n R with ⟨R', hslot, hne, heq⟩ | ⟨hslot, heq⟩ | ⟨hslot, heq⟩
  · simp [heq, hslot, hne]
  · simp [heq, hslot]
  · simp [heq, hslot]

/-- **Registration refuses only a genuine conflict, exactly when the node's registry cell is not
stale**, for every live node and registry in every state of every run. -/
theorem registersUnlessConflict_iff_of_run (h : Run A K P State.init s) {n : Ref} {R : RegRef}
    (hn : s.world.heap.Alive n) (hR : s.world.RegAlive R) :
    RegistersUnlessConflict K s.world n R ↔ ¬ s.world.Stale n := by
  have hi := Run.inv h State.inv_init
  constructor
  · rintro hreg ⟨R', hslot, hdead⟩
    -- the dead registry is not `R`, so the call is refused without a conflict
    have hne : R' ≠ R := fun heq => hdead (heq ▸ hR)
    obtain ⟨R'', hR'', -⟩ :=
      hreg.refused_iff.mp (World.tryRegisterIn_eq_none_iff.mpr ⟨R', hslot, hne⟩)
    obtain ⟨hslot', halive⟩ := World.registry_eq_some_iff.mp hR''
    rw [hslot] at hslot'
    obtain rfl := Option.some.inj hslot'
    exact hdead halive
  · intro hfresh
    refine ⟨?_, fun hnone => ?_, fun id hid => ?_⟩
    · rw [World.tryRegisterIn_eq_none_iff]
      refine exists_congr fun R' => and_congr_left fun _ => ?_
      rw [World.registry_eq_some_iff]
      refine ⟨fun hslot => ⟨hslot, ?_⟩, fun hslot => hslot.1⟩
      by_contra hdead
      exact hfresh ⟨R', hslot, hdead⟩
    · rcases s.world.tryRegisterIn_cases (K := K) n R with ⟨_, _, _, heq⟩ | ⟨_, heq⟩ | ⟨_, heq⟩
      · rw [heq]
      · rw [heq] at hnone
        cases hnone
      · rw [heq] at hnone
        cases hnone
    · have ht := tracked_tryRegisterIn hi hn hR hid
      have hi' := hi.tryRegisterIn K hn hR
      exact ⟨World.registry_eq_some_iff.mpr ⟨ht.slot, ht.regAlive hi'⟩, ht.getId hi'⟩

/-- A node registered in a registry that exists. -/
def registeredNode : State ℕ ℕ :=
  State.init.after [.new 10, .registryNew, .tryRegisterIn 0 0, .registryNew]

/-- The second registry is refused, and rightly so. -/
theorem registersUnlessConflict_iff_of_run_registeredNode :
    RegistersUnlessConflict KeySource.reusing registeredNode.world 0 1 := by
  have hrun : Run _ _ (fun _ _ => True) State.init registeredNode :=
    run_after (by decide) fun _ _ _ => trivial
  refine (registersUnlessConflict_iff_of_run hrun (by decide) (by decide)).mpr ?_
  rintro ⟨R, hslot, hdead⟩
  have hzero : registeredNode.world.heap.slot 0 = some 0 := by decide
  rw [hzero] at hslot
  obtain rfl := Option.some.inj hslot
  exact hdead (by decide)

/-- The registry is dropped while the node survives. -/
def orphanedNode : State ℕ ℕ :=
  State.init.after [.new 10, .registryNew, .tryRegisterIn 0 0, .dropRegistry 0, .registryNew]

/-- `registry()` answers `None`, and the node still cannot be registered in a new registry. -/
theorem not_registersUnlessConflict_orphanedNode :
    Run AddrSource.lowest KeySource.reusing (fun _ _ => True) State.init orphanedNode ∧
    orphanedNode.world.heap.Alive 0 ∧ orphanedNode.world.RegAlive 1 ∧
    orphanedNode.world.registry 0 = none ∧
    (orphanedNode.world.tryRegisterIn KeySource.reusing 0 1).1 = none ∧
    ¬ RegistersUnlessConflict KeySource.reusing orphanedNode.world 0 1 := by
  have hnone : orphanedNode.world.registry 0 = none := by decide
  have hrefused : (orphanedNode.world.tryRegisterIn KeySource.reusing 0 1).1 = none := by decide
  refine ⟨run_after (by decide) fun _ _ _ => trivial, by decide, by decide, hnone, hrefused, ?_⟩
  intro hreg
  obtain ⟨R, hR, -⟩ := hreg.refused_iff.mp hrefused
  rw [hnone] at hR
  cases hR

end Relrc
