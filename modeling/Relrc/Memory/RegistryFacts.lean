import Relrc.Model.Registry

/-!
# Registries as a pair of inverse maps

`Registry.Inverse` says that `nodes` and `ptrToId` are inverse to each other, the latter read
through the addresses of the nodes. Every operation of `registry.rs` keeps it, whatever the
addresses of other nodes are: what makes an address a faithful name for a node is not decided
here but by the allocator (see `Inv.addr_inj`).
-/

namespace Relrc

open SlotStore

namespace Registry

variable {N E : Type}

/-- The two maps are inverse to each other: `nodes[id]` points to address `p` if and only if
`ptrToId[p]` is `id`. -/
structure Inverse (reg : Registry) (addr : Ref → Addr) : Prop where
  ptr_of_node : ∀ id r, reg.nodes.get id = some r → reg.ptrToId (addr r) = some id
  node_of_ptr : ∀ p id, reg.ptrToId p = some id → ∃ r, reg.nodes.get id = some r ∧ addr r = p

/-- The node `r` has an entry. -/
def Has (reg : Registry) (r : Ref) : Prop := ∃ id, reg.nodes.get id = some r

theorem not_has_new (r : Ref) : ¬ Registry.new.Has r := by
  rintro ⟨id, hid⟩
  cases hid

namespace Inverse

variable {reg : Registry} {addr : Ref → Addr}

theorem new : Inverse Registry.new addr where
  ptr_of_node _ _ h := by cases h
  node_of_ptr _ _ h := by cases h

/-- Only the addresses of entries matter. -/
theorem congr {addr' : Ref → Addr} (hi : reg.Inverse addr)
    (ha : ∀ id r, reg.nodes.get id = some r → addr' r = addr r) : reg.Inverse addr' where
  ptr_of_node id r hr := by
    rw [ha id r hr]
    exact hi.ptr_of_node id r hr
  node_of_ptr p id hp := by
    obtain ⟨r, hr, rfl⟩ := hi.node_of_ptr p id hp
    exact ⟨r, hr, ha id r hr⟩

/-- No node has two entries. -/
theorem id_eq (hi : reg.Inverse addr) {id id' : NodeId} {r : Ref} (h : reg.nodes.get id = some r)
    (h' : reg.nodes.get id' = some r) : id = id' := by
  have heq := (hi.ptr_of_node id r h).symm.trans (hi.ptr_of_node id' r h')
  exact Option.some.inj heq

/-- Entries have distinct addresses. -/
theorem id_eq_of_addr (hi : reg.Inverse addr) {id id' : NodeId} {r r' : Ref}
    (h : reg.nodes.get id = some r) (h' : reg.nodes.get id' = some r') (ha : addr r = addr r') :
    id = id' := by
  have heq := (hi.ptr_of_node id r h).symm
  rw [ha, hi.ptr_of_node id' r' h'] at heq
  exact Option.some.inj heq

end Inverse

/-! ### `add_node` -/

section AddNode

variable (K : KeySource) (reg : Registry) (h : Heap N E) (r : Ref)

theorem addNode_of_some {id : NodeId} (hid : reg.getId h r = some id) :
    reg.addNode K h r = (id, reg) := by
  rw [addNode, hid]

/-- A node that is not there gets a fresh id, under its address. -/
theorem addNode_of_none (hid : reg.getId h r = none) : reg.addNode K h r =
    (reg.nodes.nextKey K, ⟨(reg.nodes.insert K r).2,
      Function.update reg.ptrToId (h.asPtr r) (some (reg.nodes.nextKey K))⟩) := by
  rw [addNode, hid]
  rfl

/-- `get_id_or_insert` is `add_node`. -/
theorem getIdOrInsert_eq : reg.getIdOrInsert K h r = reg.addNode K h r := by
  rw [getIdOrInsert]
  cases hid : reg.getId h r with
  | none => rfl
  | some id => rw [addNode_of_some K reg h r hid]

/-- Afterwards the node is found under the returned id. -/
theorem getId_addNode : (reg.addNode K h r).2.getId h r = some (reg.addNode K h r).1 := by
  cases hid : reg.getId h r with
  | none => simp [addNode_of_none K reg h r hid, getId]
  | some id => rw [addNode_of_some K reg h r hid, hid]

/-- Entries are kept. -/
theorem get_addNode_of_some {id : NodeId} {x : Ref} (hx : reg.nodes.get id = some x) :
    (reg.addNode K h r).2.nodes.get id = some x := by
  cases hid : reg.getId h r with
  | none =>
    have hne : id ≠ reg.nodes.nextKey K := by
      rintro rfl
      rw [reg.nodes.get_nextKey K] at hx
      cases hx
    rw [addNode_of_none K reg h r hid, SlotMap.get_insert, if_neg hne]
    exact hx
  | some id' =>
    rw [addNode_of_some K reg h r hid]
    exact hx

/-- The only entry that can be new is that of the node. -/
theorem get_of_addNode {id : NodeId} {x : Ref}
    (hx : (reg.addNode K h r).2.nodes.get id = some x) :
    reg.nodes.get id = some x ∨ x = r ∧ id = (reg.addNode K h r).1 ∧ reg.getId h r = none := by
  cases hid : reg.getId h r with
  | none =>
    rw [addNode_of_none K reg h r hid] at hx ⊢
    rw [SlotMap.get_insert] at hx
    split_ifs at hx with hk
    · exact Or.inr ⟨(Option.some.inj hx).symm, hk, rfl⟩
    · exact Or.inl hx
  | some id' =>
    rw [addNode_of_some K reg h r hid] at hx
    exact Or.inl hx

theorem issued_addNode {id : NodeId} (hid : reg.nodes.Issued id) :
    (reg.addNode K h r).2.nodes.Issued id := by
  cases hr : reg.getId h r with
  | none =>
    rw [addNode_of_none K reg h r hr]
    exact hid.insert K r
  | some id' =>
    rw [addNode_of_some K reg h r hr]
    exact hid

variable {reg}

/-- The two maps stay inverse. -/
theorem Inverse.addNode (hi : reg.Inverse h.addr) : (reg.addNode K h r).2.Inverse h.addr := by
  cases hid : reg.getId h r with
  | some id =>
    rw [addNode_of_some K reg h r hid]
    exact hi
  | none =>
    rw [addNode_of_none K reg h r hid]
    refine ⟨fun id x hx => ?_, fun p id hp => ?_⟩
    · rw [SlotMap.get_insert] at hx
      split_ifs at hx with hk
      · obtain rfl := Option.some.inj hx
        rw [hk]
        exact Function.update_self _ _ _
      · have hptr := hi.ptr_of_node id x hx
        -- an entry at the same address would have been found
        have hne : h.addr x ≠ h.asPtr r := by
          intro heq
          rw [heq, ← getId, hid] at hptr
          cases hptr
        change Function.update reg.ptrToId (h.asPtr r) _ (h.addr x) = some id
        rw [Function.update_of_ne hne]
        exact hptr
    · change Function.update reg.ptrToId (h.asPtr r) _ p = some id at hp
      by_cases hpr : p = h.asPtr r
      · rw [hpr, Function.update_self] at hp
        obtain rfl := Option.some.inj hp
        exact ⟨r, by rw [SlotMap.get_insert, if_pos rfl], hpr.symm⟩
      · rw [Function.update_of_ne hpr] at hp
        obtain ⟨x, hx, hxp⟩ := hi.node_of_ptr p id hp
        have hne : id ≠ reg.nodes.nextKey K := by
          rintro rfl
          rw [reg.nodes.get_nextKey K] at hx
          cases hx
        exact ⟨x, by rw [SlotMap.get_insert, if_neg hne]; exact hx, hxp⟩

end AddNode

/-! ### `remove` -/

section Remove

variable (reg : Registry) (h : Heap N E) (id : NodeId)

@[simp] theorem get_remove (id' : NodeId) : (reg.remove h id).nodes.get id' =
    if id' = id then none else reg.nodes.get id' := by
  cases hid : reg.nodes.get id with
  | none =>
    rw [remove, hid]
    split_ifs with heq
    · rw [heq, hid]
    · rfl
  | some x =>
    rw [remove, hid]
    exact SlotMap.get_remove _ _ _

theorem issued_remove {id' : NodeId} (hid : reg.nodes.Issued id') :
    (reg.remove h id).nodes.Issued id' := by
  rw [remove]
  split
  · exact hid.remove id
  · exact hid

variable {reg}

theorem Inverse.remove (hi : reg.Inverse h.addr) : (reg.remove h id).Inverse h.addr := by
  cases hid : reg.nodes.get id with
  | none =>
    rw [Registry.remove, hid]
    exact hi
  | some x =>
    have hptr : (reg.remove h id).ptrToId = Function.update reg.ptrToId (h.addr x) none := by
      rw [Registry.remove, hid]
      rfl
    refine ⟨fun id' y hy => ?_, fun p id' hp => ?_⟩
    · rw [get_remove] at hy
      split_ifs at hy with heq
      have hne : h.addr y ≠ h.addr x := fun ha => heq (hi.id_eq_of_addr hy hid ha)
      rw [hptr, Function.update_of_ne hne]
      exact hi.ptr_of_node id' y hy
    · rw [hptr] at hp
      by_cases hpx : p = h.addr x
      · rw [hpx, Function.update_self] at hp
        cases hp
      · rw [Function.update_of_ne hpx] at hp
        obtain ⟨y, hy, hyp⟩ := hi.node_of_ptr p id' hp
        have hne : id' ≠ id := by
          rintro rfl
          rw [hid] at hy
          exact hpx ((Option.some.inj hy) ▸ hyp.symm)
        exact ⟨y, by rw [get_remove, if_neg hne]; exact hy, hyp⟩

end Remove

/-! ### `free_node_ids` -/

section Free

variable (reg : Registry) (h : Heap N E)

theorem mem_deadEntries {id : NodeId} {r : Ref} :
    (id, r) ∈ reg.deadEntries h ↔ reg.nodes.get id = some r ∧ ¬ h.Alive r := by
  rw [deadEntries, List.mem_filter, Slots.mem_entries]
  by_cases hr : h.Alive r <;> simp [Heap.upgrade, hr]

/-- Exactly the entries of live nodes remain. -/
theorem get_freeNodeIds {id : NodeId} {r : Ref} :
    (reg.freeNodeIds h).2.nodes.get id = some r ↔ reg.nodes.get id = some r ∧ h.Alive r := by
  have hget : (reg.freeNodeIds h).2.nodes.get id =
      if id ∈ (reg.deadEntries h).map Prod.fst then none else reg.nodes.get id :=
    SlotMap.get_foldl_remove _ _ _
  have hmem : id ∈ (reg.deadEntries h).map Prod.fst ↔
      ∃ x, reg.nodes.get id = some x ∧ ¬ h.Alive x := by
    simp [mem_deadEntries]
  rw [hget]
  split_ifs with hd
  · obtain ⟨x, hx, hxd⟩ := hmem.mp hd
    simp only [false_iff, not_and]
    intro hr hra
    rw [hr] at hx
    exact hxd (Option.some.inj hx ▸ hra)
  · constructor
    · intro hr
      exact ⟨hr, not_not.mp fun hnr => hd (hmem.mpr ⟨r, hr, hnr⟩)⟩
    · exact And.left

theorem issued_freeNodeIds {id : NodeId} (hid : reg.nodes.Issued id) :
    (reg.freeNodeIds h).2.nodes.Issued id := hid.foldl_remove _

private theorem foldl_erase_ptr (ps : List Addr) (m : Addr → Option NodeId) (p : Addr) :
    (ps.foldl (fun m p => Function.update m p none) m) p = if p ∈ ps then none else m p := by
  induction ps generalizing m with
  | nil => simp
  | cons q ps ih =>
    rw [List.foldl_cons, ih]
    by_cases hp : p = q <;> simp [hp]

variable {reg}

/-- Clean-up removes dead entries from both maps. -/
theorem Inverse.freeNodeIds (hi : reg.Inverse h.addr) :
    (reg.freeNodeIds h).2.Inverse h.addr := by
  have hptr : ∀ p, (reg.freeNodeIds h).2.ptrToId p =
      if p ∈ (reg.deadEntries h).map (fun e => h.asPtr e.2) then none else reg.ptrToId p :=
    fun p => foldl_erase_ptr _ _ p
  refine ⟨fun id r hr => ?_, fun p id hp => ?_⟩
  · obtain ⟨hr, hra⟩ := (get_freeNodeIds reg h).mp hr
    have hnot : h.addr r ∉ (reg.deadEntries h).map (fun e => h.asPtr e.2) := by
      intro hmem
      obtain ⟨⟨id', x⟩, hx, hxr⟩ := List.mem_map.mp hmem
      obtain ⟨hx, hxd⟩ := (mem_deadEntries reg h).mp hx
      obtain rfl := hi.id_eq_of_addr hx hr hxr
      rw [hr] at hx
      exact hxd (Option.some.inj hx ▸ hra)
    rw [hptr, if_neg hnot]
    exact hi.ptr_of_node id r hr
  · rw [hptr] at hp
    split_ifs at hp with hd
    obtain ⟨r, hr, hrp⟩ := hi.node_of_ptr p id hp
    refine ⟨r, (get_freeNodeIds reg h).mpr ⟨hr, not_not.mp fun hnr => hd ?_⟩, hrp⟩
    exact List.mem_map.mpr ⟨(id, r), (mem_deadEntries reg h).mpr ⟨hr, hnr⟩, hrp⟩

end Free

/-! ### `from_slotmap` and `from_iter` -/

/-- Collecting pairs into a map, the first components are found under the second. -/
private theorem foldl_collect (addr : Ref → Addr) (l : List (NodeId × Ref))
    (hl : (l.map fun e => addr e.2).Nodup) (m : Addr → Option NodeId) (p : Addr) (id : NodeId) :
    (l.foldl (fun m e => Function.update m (addr e.2) (some e.1)) m) p = some id ↔
      (∃ r, (id, r) ∈ l ∧ addr r = p) ∨ p ∉ l.map (fun e => addr e.2) ∧ m p = some id := by
  induction l generalizing m with
  | nil => simp
  | cons e l ih =>
    rw [List.map_cons, List.nodup_cons] at hl
    rw [List.foldl_cons, ih hl.2]
    by_cases hp : p = addr e.2
    · subst hp
      have hnone : ¬ ∃ r, (id, r) ∈ l ∧ addr r = addr e.2 := by
        rintro ⟨r, hr, hre⟩
        exact hl.1 (List.mem_map.mpr ⟨(id, r), hr, hre⟩)
      have hval : Function.update m (addr e.2) (some e.1) (addr e.2) = some id ↔ e.1 = id := by
        simp
      rw [hval]
      constructor
      · rintro (hex | ⟨-, rfl⟩)
        · exact absurd hex hnone
        · exact Or.inl ⟨e.2, List.mem_cons_self, rfl⟩
      · rintro (⟨r, hr, hre⟩ | ⟨hnot, -⟩)
        · rcases List.mem_cons.mp hr with rfl | hr
          · exact Or.inr ⟨hl.1, rfl⟩
          · exact absurd ⟨r, hr, hre⟩ hnone
        · exact absurd List.mem_cons_self hnot
    · have hex : (∃ r, (id, r) ∈ e :: l ∧ addr r = p) ↔ ∃ r, (id, r) ∈ l ∧ addr r = p := by
        constructor
        · rintro ⟨r, hr, hre⟩
          rcases List.mem_cons.mp hr with rfl | hr
          · exact absurd hre.symm hp
          · exact ⟨r, hr, hre⟩
        · rintro ⟨r, hr, hre⟩
          exact ⟨r, List.mem_cons_of_mem _ hr, hre⟩
      rw [hex, Function.update_of_ne hp, List.map_cons, List.mem_cons, not_or]
      simp [hp]

/-- A slot map of nodes at distinct addresses makes a registry. -/
theorem inverse_fromSlotmap (h : Heap N E) (nodes : SlotMap Ref)
    (hinj : ∀ id id' r r', nodes.get id = some r → nodes.get id' = some r' →
      h.addr r = h.addr r' → id = id') : (fromSlotmap h nodes).Inverse h.addr := by
  have hnd : (nodes.entries.map fun e => h.addr e.2).Nodup := by
    refine List.Nodup.map_on ?_ nodes.entries_nodup
    rintro ⟨id, r⟩ he ⟨id', r'⟩ he' heq
    rw [Slots.mem_entries] at he he'
    obtain rfl := hinj id id' r r' he he' heq
    rw [he] at he'
    rw [Option.some.inj he']
  have hptr : ∀ p id, (fromSlotmap h nodes).ptrToId p = some id ↔
      ∃ r, nodes.get id = some r ∧ h.addr r = p := by
    intro p id
    refine (foldl_collect h.addr nodes.entries hnd (fun _ => none) p id).trans ?_
    simp [Slots.mem_entries]
  exact ⟨fun id r hr => (hptr _ _).mpr ⟨r, hr, rfl⟩, fun p id hp => (hptr p id).mp hp⟩

/-- Adding a list of nodes keeps the maps inverse. -/
theorem Inverse.addNodes {reg : Registry} (K : KeySource) (h : Heap N E)
    (hi : reg.Inverse h.addr) (nodes : List Ref) :
    (nodes.foldl (fun reg node => (reg.addNode K h node).2) reg).Inverse h.addr := by
  induction nodes generalizing reg with
  | nil => exact hi
  | cons r nodes ih => exact ih (hi.addNode K h r)

theorem get_of_addNodes {reg : Registry} (K : KeySource) (h : Heap N E) (nodes : List Ref)
    {id : NodeId} {x : Ref}
    (hx : (nodes.foldl (fun reg node => (reg.addNode K h node).2) reg).nodes.get id = some x) :
    reg.nodes.get id = some x ∨ x ∈ nodes := by
  induction nodes generalizing reg with
  | nil => exact Or.inl hx
  | cons r nodes ih =>
    rcases ih hx with hx | hx
    · rcases get_of_addNode K reg h r hx with hx | ⟨rfl, -⟩
      · exact Or.inl hx
      · exact Or.inr List.mem_cons_self
    · exact Or.inr (List.mem_cons_of_mem _ hx)

/-- While addresses tell the nodes of `S` apart, adding one of them gives it an entry. -/
theorem has_addNode {reg : Registry} (K : KeySource) (h : Heap N E) {S : Ref → Prop}
    (hinj : ∀ x y, S x → S y → h.addr x = h.addr y → x = y) (hinv : reg.Inverse h.addr)
    (hreg : ∀ x, reg.Has x → S x) {r x : Ref} (hr : S r) :
    (reg.addNode K h r).2.Has x ↔ reg.Has x ∨ x = r := by
  constructor
  · rintro ⟨id, hid⟩
    exact (get_of_addNode K reg h r hid).imp (fun h => ⟨id, h⟩) fun h => h.1
  · rintro (⟨id, hid⟩ | rfl)
    · exact ⟨id, get_addNode_of_some K reg h r hid⟩
    · obtain ⟨y, hy, hyx⟩ := (hinv.addNode K h x).node_of_ptr _ _ (getId_addNode K reg h x)
      have hyS : S y :=
        (get_of_addNode K reg h x hy).elim (fun h => hreg y ⟨_, h⟩) fun h => h.1 ▸ hr
      exact ⟨_, hinj y x hyS hr hyx ▸ hy⟩

/-- Nodes with distinct addresses are all added. -/
theorem has_addNodes {reg : Registry} (K : KeySource) (h : Heap N E) {S : Ref → Prop}
    (hinj : ∀ x y, S x → S y → h.addr x = h.addr y → x = y) (hinv : reg.Inverse h.addr)
    (hreg : ∀ x, reg.Has x → S x) {nodes : List Ref} (hnodes : ∀ r ∈ nodes, S r) {x : Ref} :
    (nodes.foldl (fun reg node => (reg.addNode K h node).2) reg).Has x ↔ reg.Has x ∨ x ∈ nodes := by
  induction nodes generalizing reg with
  | nil => simp
  | cons r nodes ih =>
    obtain ⟨hr, hnodes⟩ := List.forall_mem_cons.mp hnodes
    have hadd : ∀ y, (reg.addNode K h r).2.Has y ↔ reg.Has y ∨ y = r := fun y =>
      has_addNode K h hinj hinv hreg hr
    rw [List.foldl_cons, ih (hinv.addNode K h r) (fun y hy => ?_) hnodes, hadd, List.mem_cons,
      or_assoc]
    exact ((hadd y).mp hy).elim (hreg y) fun h => h ▸ hr

end Registry

end Relrc
