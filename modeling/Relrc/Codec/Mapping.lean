import Relrc.Codec.Restore

/-!
# Migrating a registry to other node values

`map_nodes` rewrites the node values of a written registry. A registry that can be written can be
read back with its values mapped into the memory of any other program: the new registry has the same
ids, and the node of each id has the mapped value and the same incoming edges, by id and value.
-/

namespace Relrc

open SlotStore Ancestry Fallible

variable {N E M : Type} {A B : AddrSource} {K L : KeySource}

/-! ### Mapped data -/

namespace SerializedRegistry

variable (ser : SerializedRegistry N E) (f : N → M)

@[simp] theorem get_mapNodes (k : NodeId) :
    (ser.mapNodes f).nodes.get k = (ser.nodes.get k).map fun sd => sd.mapValue f :=
  SlotMap.get_map _ _ _

/-- `map_nodes` leaves the ids of parents alone. -/
theorem parentIds_mapNodes : (ser.mapNodes f).parentIds = ser.parentIds := by
  funext k
  rw [parentIds, parentIds, get_mapNodes]
  cases ser.nodes.get k <;> rfl

/-- What is well-formed does not depend on the values. -/
theorem wellFormed_mapNodes_iff : (ser.mapNodes f).WellFormed ↔ ser.WellFormed := by
  constructor
  · rintro ⟨hclosed, hacyclic⟩
    refine ⟨fun k sd hk pe hpe => ?_, ser.parentIds_mapNodes f ▸ hacyclic⟩
    obtain ⟨sp, hsp⟩ := hclosed k (sd.mapValue f) (by rw [get_mapNodes, hk]; rfl) pe hpe
    rw [get_mapNodes, Option.map_eq_some_iff] at hsp
    exact ⟨_, hsp.choose_spec.1⟩
  · rintro ⟨hclosed, hacyclic⟩
    refine ⟨fun k sd hk pe hpe => ?_, (ser.parentIds_mapNodes f).symm ▸ hacyclic⟩
    rw [get_mapNodes, Option.map_eq_some_iff] at hk
    obtain ⟨sd, hk, rfl⟩ := hk
    obtain ⟨sp, hsp⟩ := hclosed k sd hk pe hpe
    exact ⟨sp.mapValue f, by rw [get_mapNodes, hsp]; rfl⟩

end SerializedRegistry

/-! ### What can be written can be read -/

section Written

variable {w : World N E} {H : Multiset Ref} {G : Multiset RegRef} {reg : Registry}
variable {ser : SerializedRegistry N E}

/-- The entries of a written registry are those of the registry. -/
theorem Registry.Faithful.get_iff_of_toSerialized (hf : reg.Faithful w) (hi : Inv w H G)
    (h : reg.toSerialized w.heap = .ok ser) {k : NodeId} {r : Ref} :
    reg.get w.heap k = some r ↔
      ∃ sd, ser.nodes.get k = some sd ∧ reg.nodes.get k = some r ∧
        Encodes reg.nodes.get w.heap r sd := by
  rw [Registry.get_eq_some_iff]
  constructor
  · rintro ⟨hk, halive⟩
    have hparents := ((hf.toSerialized_ok_iff hi).mp ⟨ser, h⟩ r ⟨k, hk⟩).2
    obtain ⟨sd, hsd⟩ := (Registry.Faithful.exists_encodes_iff hi halive).mpr hparents
    exact ⟨sd, (hf.get_of_toSerialized hi h).mpr ⟨r, hk, halive, hsd⟩, hk, hsd⟩
  · rintro ⟨sd, hsd, hk, -⟩
    obtain ⟨r', hk', halive, -⟩ := (hf.get_of_toSerialized hi h).mp hsd
    obtain rfl := Option.some.inj (hk.symm.trans hk')
    exact ⟨hk, halive⟩

/-- **What is written can be read**: the parents of every entry are entries. -/
theorem Registry.Faithful.wellFormed_of_toSerialized (hf : reg.Faithful w) (hi : Inv w H G)
    (h : reg.toSerialized w.heap = .ok ser) : ser.WellFormed where
  closed k sd hk pe hpe := by
    obtain ⟨r, -, -, henc⟩ := (hf.get_of_toSerialized hi h).mp hk
    obtain ⟨p, -, hp⟩ := henc.exists_parent hpe
    have hpalive := ((hf.toSerialized_ok_iff hi).mp ⟨ser, h⟩ p ⟨_, hp⟩).1
    obtain ⟨sp, hsp, -⟩ := (hf.get_iff_of_toSerialized hi h).mp
      (Registry.get_eq_some_iff.mpr ⟨hp, hpalive⟩)
    exact ⟨sp, hsp⟩
  acyclic := by
    -- ids inherit the age of their nodes
    refine @acyclic_of_rank _ _ (fun k => (reg.nodes.get k).getD 0) fun k p hp => ?_
    obtain ⟨sd, hk, pe, hpe, rfl⟩ := SerializedRegistry.exists_of_mem_parentIds hp
    obtain ⟨r, hr, -, henc⟩ := (hf.get_of_toSerialized hi h).mp hk
    obtain ⟨x, hx, hxk⟩ := henc.exists_parent hpe
    rw [hr, hxk]
    exact hi.heap.parent_lt r x hx

end Written

/-! ### Migration -/

/-- The registry `R'` is `R` with its values mapped: the same ids, the mapped value and the same
incoming edges at each, by the ids of their sources and their values. -/
structure Migrated (f : N → M) (v : World N E) (R : RegRef) (w : World M E) (R' : RegRef) :
    Prop where
  ids : ∀ k, (w.registries R').containsId w.heap k = (v.registries R).containsId v.heap k
  value : ∀ k r r', (v.registries R).get v.heap k = some r →
    (w.registries R').get w.heap k = some r' → w.heap.value r' = (v.heap.value r).map f
  incoming : ∀ k r r', (v.registries R).get v.heap k = some r →
    (w.registries R').get w.heap k = some r' → ∀ i,
      (w.heap.incoming r' i).map (fun e => ((w.registries R').getId w.heap e.source, e.value)) =
        (v.heap.incoming r i).map fun e => ((v.registries R).getId v.heap e.source, e.value)

section Migration

variable {v : World N E} {w w' : World M E} {H H' : Multiset Ref} {G G' : Multiset RegRef}
variable {R R' : RegRef} {ser : SerializedRegistry N E} {nodes : Slots Ref} {f : N → M}

/-- A memory that the mapped file describes has the nodes of the registry that was written. -/
theorem DescribedBy.migrated (hi : Inv v H G)
    (hser : (v.registries R).toSerialized v.heap = .ok ser)
    (hd : DescribedBy (ser.mapNodes f) w nodes)
    (hget : ∀ k, (w.registries R').get w.heap k = nodes.get k)
    (hid : ∀ k r, nodes.get k = some r ↔
      w.heap.Alive r ∧ (w.registries R').getId w.heap r = some k) : Migrated f v R w R' := by
  have hf := hi.faithful R
  have hentry : ∀ {k r}, (v.registries R).get v.heap k = some r →
      ∃ sd, (ser.mapNodes f).nodes.get k = some (sd.mapValue f) ∧
        Encodes (v.registries R).nodes.get v.heap r sd := by
    intro k r hk
    obtain ⟨sd, hsd, -, henc⟩ := (hf.get_iff_of_toSerialized hi hser).mp hk
    exact ⟨sd, by rw [SerializedRegistry.get_mapNodes, hsd]; rfl, henc⟩
  refine ⟨fun k => ?_, fun k r r' hk hk' => ?_, fun k r r' hk hk' i => ?_⟩
  · rw [Bool.eq_iff_iff, Registry.containsId, Registry.containsId, Option.isSome_iff_exists,
      Option.isSome_iff_exists, hget, hd.mem_iff]
    constructor
    · rintro ⟨sd, hsd⟩
      rw [SerializedRegistry.get_mapNodes, Option.map_eq_some_iff] at hsd
      obtain ⟨sd, hsd, -⟩ := hsd
      obtain ⟨r, hr, halive, -⟩ := (hf.get_of_toSerialized hi hser).mp hsd
      exact ⟨r, Registry.get_eq_some_iff.mpr ⟨hr, halive⟩⟩
    · rintro ⟨r, hk⟩
      obtain ⟨sd, hsd, -⟩ := hentry hk
      exact ⟨_, hsd⟩
  · obtain ⟨sd, hsd, henc⟩ := hentry hk
    rw [hget] at hk'
    rw [hd.value k r' _ hk' hsd, henc.1]
    rfl
  · obtain ⟨sd, hsd, henc⟩ := hentry hk
    rw [hget] at hk'
    cases he : v.heap.incoming r i with
    | none =>
      -- both nodes have as many incoming edges as were written
      have hlen : w.heap.nIncoming r' = v.heap.nIncoming r :=
        (hd.nIncoming k r' _ hk' hsd).trans henc.2.length_eq.symm
      have hnone : w.heap.incoming r' i = none := by
        rw [Heap.incoming, List.getElem?_eq_none_iff] at he ⊢
        rw [Heap.nIncoming, Heap.nIncoming] at hlen
        omega
      rw [hnone]
      rfl
    | some e =>
      obtain ⟨hlt, rfl⟩ := List.getElem?_eq_some_iff.mp he
      have hlt' : i < sd.incoming.length := by rwa [← henc.2.length_eq]
      obtain ⟨hsource, hvalue⟩ := henc.2.get hlt hlt'
      obtain ⟨e', he', hvalue', hsource'⟩ :=
        hd.incoming k r' _ hk' hsd i _ (List.getElem?_eq_getElem hlt')
      have halive : v.heap.Alive (v.heap.allIncoming r)[i].source :=
        hi.heap.parent_alive (List.mem_map_of_mem (List.getElem_mem hlt))
      have hleft := (hf.getId_eq_some_iff hi (Or.inl halive)).mpr hsource
      have hright := ((hid _ _).mp hsource').2
      rw [he', Option.map_some, Option.map_some, hvalue', hleft, hright]
      exact congrArg (fun y => some (some _, y)) hvalue

/-- **Migration**: what one memory writes, any other reads back with its values mapped. -/
theorem registry_migrates (hi : Inv v H G) (hi' : Inv w H' G')
    (hser : (v.registries R).toSerialized v.heap = .ok ser) (f : N → M) :
    ∃ R' nodes w', Registry.fromSerialized B w (ser.mapNodes f) = .ok (R', nodes, w') ∧
      Migrated f v R w' R' ∧
      Inv w' ((nodes.values : Multiset Ref) + H') (R' ::ₘ G') := by
  have hwf := (ser.wellFormed_mapNodes_iff f).mpr
    ((hi.faithful R).wellFormed_of_toSerialized hi hser)
  obtain ⟨hok, -, hres⟩ := registryFromSerialized_correct (A := B) (ser.mapNodes f) hi'
  obtain ⟨⟨R', nodes, w'⟩, hdec⟩ := hok.mpr hwf
  obtain ⟨hd, hget, hid⟩ := hres R' nodes w' hdec
  have hsteps : Steps B KeySource.reusing (fun _ => False) ⟨w, H', G'⟩
      ⟨w', (nodes.values : Multiset Ref) + H', R' ::ₘ G'⟩ :=
    (steps_registryFromSerialized hi' hdec).1
  exact ⟨R', nodes, w', hdec, hd.migrated hi hser hget hid, Steps.inv hsteps hi'⟩

end Migration

/-- **A registry migrates between any two programs.** It can be written if its entries are alive and
their parents have entries; and then `map_nodes` and `from_serialized` rebuild it in the memory of
the other program, which keeps its invariant with the rebuilt nodes and the new registry held. -/
theorem registry_migrates_of_run {P : State N E → Op N E → Prop} {Q : State M E → Op M E → Prop}
    {s : State N E} {s' : State M E} (h : Run A K P State.init s) (h' : Run B L Q State.init s')
    (R : RegRef) (f : N → M) :
    ((∃ ser, (s.world.registries R).toSerialized s.world.heap = .ok ser) ↔
      ∀ k r, (s.world.registries R).nodes.get k = some r → s.world.heap.Alive r ∧
        ∀ p ∈ s.world.heap.allParents r, (s.world.registries R).contains s.world.heap p = true) ∧
    ∀ ser, (s.world.registries R).toSerialized s.world.heap = .ok ser →
      ∃ R' nodes w, Registry.fromSerialized B s'.world (ser.mapNodes f) = .ok (R', nodes, w) ∧
        Migrated f s.world R w R' ∧
        Inv w ((nodes.values : Multiset Ref) + s'.held) (R' ::ₘ s'.regs) := by
  have hi : Inv s.world s.held s.regs := Run.inv h State.inv_init
  have hi' : Inv s'.world s'.held s'.regs := Run.inv h' State.inv_init
  have hhas : ∀ {r p}, p ∈ s.world.heap.allParents r →
      ((s.world.registries R).contains s.world.heap p = true ↔ (s.world.registries R).Has p) := by
    intro r p hp
    rw [Registry.contains, Option.isSome_iff_exists]
    exact exists_congr fun k => hi.getId_eq_some_iff (Or.inl (hi.heap.parent_alive hp))
  refine ⟨?_, fun ser hser => registry_migrates hi hi' hser f⟩
  rw [(hi.faithful R).toSerialized_ok_iff hi]
  constructor
  · intro hall k r hk
    obtain ⟨halive, hparents⟩ := hall r ⟨k, hk⟩
    exact ⟨halive, fun p hp => (hhas hp).mpr (hparents p hp)⟩
  · rintro hall r ⟨k, hk⟩
    obtain ⟨halive, hparents⟩ := hall k r hk
    exact ⟨halive, fun p hp => (hhas hp).mp (hparents p hp)⟩

/-- A registry with two entries, the second a child of the first. -/
def registeredEdge : State ℕ ℕ :=
  State.init.after [.registryNew, .new 10, .clone 0, .withParents 20 [(0, 1)], .addNode 0 0,
    .addNode 0 1]

theorem registry_migrates_of_run_registeredEdge :
    ∃ ser, (registeredEdge.world.registries 0).toSerialized registeredEdge.world.heap = .ok ser ∧
      ∃ R' nodes w, Registry.fromSerialized AddrSource.lowest (World.empty : World Bool ℕ)
        (ser.mapNodes fun n => decide (10 < n)) = .ok (R', nodes, w) ∧
        Migrated (fun n => decide (10 < n)) registeredEdge.world 0 w R' ∧
        Inv w ((nodes.values : Multiset Ref) + (State.init : State Bool ℕ).held)
          (R' ::ₘ (State.init : State Bool ℕ).regs) := by
  have hrun : Run AddrSource.lowest KeySource.reusing (fun _ _ => True) State.init registeredEdge :=
    run_after (by decide +kernel) fun _ _ _ => trivial
  have hsome : ((registeredEdge.world.registries 0).toSerialized
    registeredEdge.world.heap).toOption.isSome = true := by decide +kernel
  obtain ⟨ser, hser⟩ := Option.isSome_iff_exists.mp hsome
  have hwritten := toOption_eq_some_iff.mp hser
  exact ⟨ser, hwritten, (registry_migrates_of_run (B := AddrSource.lowest)
    (L := KeySource.reusing) (Q := fun _ _ => True) hrun Relation.ReflTransGen.refl 0
    fun n => decide (10 < n)).2 ser hwritten⟩

end Relrc
