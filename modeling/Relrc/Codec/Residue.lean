import Relrc.Codec.Objects
import Relrc.Codec.Unshared

/-!
# What serialization leaves behind

`RelRc::to_serialized` and `RelRc::from_serialized` both work through a temporary graph. With
`Registry::new()` as argument the registry is temporary, too, but the registry cells of the nodes
keep naming it after it is gone. A stale cell makes `try_register_in` refuse every other registry,
so an object can be serialized this way **once**: a second call panics, and so does the first call
on a decoded object (`not_reserializes_of_run`).

`HistoryGraph::from_serialized` registers the nodes of the graph only. Their other ancestors have an
entry in the registry that nothing removes (`decoded_ids_of_run`).
-/

namespace Relrc

open SlotStore Ancestry Fallible

variable {N E : Type} {A : AddrSource} {K : KeySource} {P : State N E → Op N E → Prop}
variable {w w' : World N E} {H : Multiset Ref} {G : Multiset RegRef} {R : RegRef} {n : Ref}
variable {s : State N E}

/-! ### Cells after a call -/

/-- The start of `RelRc::to_serialized`: an empty graph over the registry, and one more reference to
the node. -/
theorem inserting_toSerialized (hi : Inv w H G) (hR : R ∈ G) (hn : w.heap.Alive n) :
    HistoryGraph.Inserting ((w.cloneRegistry R).clone n) (R ::ₘ G) (fun _ => False)
      ((w.cloneRegistry R).clone n) (n ::ₘ H) ⟨Slots.empty, R⟩ := by
  have hsteps : Steps AddrSource.lowest KeySource.reusing (fun _ => False) ⟨w, H, G⟩
      ⟨(w.cloneRegistry R).clone n, n ::ₘ H, R ::ₘ G⟩ :=
    (Relation.ReflTransGen.single (.cloneRegistry w H G R (hi.regAlive_of_mem hR))).tail
      (.clone _ _ _ n hn)
  refine ⟨?_, Frame.refl _, Multiset.mem_cons_self _ _, HistoryGraph.agrees_empty R,
    fun _ h => absurd h fun h => h, fun r hr => absurd hr (HistoryGraph.not_stores_empty R r)⟩
  rw [HistoryGraph.refs_empty_add]
  exact Steps.inv hsteps hi

/-- A node whose cell names another registry, dead or alive, cannot be serialized. -/
theorem toSerialized_of_slot_ne (hi : Inv w H G) (hR : R ∈ G) {R' : RegRef}
    (hslot : w.heap.slot n = some R') (hne : R' ≠ R) :
    w.toSerialized K n R = .error .nodeNotRegistered := by
  have hn : w.heap.Alive n := alive_of_slot hi hslot
  have hins := inserting_toSerialized hi hR hn
  rcases HistoryGraph.insertAncestorsAux_cases (K := K) (n + 1) hins (hi.heap.alive_lt n hn)
    (Nat.lt_succ_self n) with ⟨id, w', g', hok, -, -, hget, -⟩ | ⟨hfail, -⟩
  · have hfree := HistoryGraph.registrable_of_insertAncestors hins.inv hins.registry hins.agrees hok
      ⟨id, hget⟩
    exact absurd (hfree R' hslot) hne
  · exact bind_of_error hfail

/-- After a successful call the cell of the node names the registry of the call. -/
theorem slot_of_toSerialized {ser : SerializedRelRc N E} (hi : Inv w H G) (hR : R ∈ G)
    (hn : w.heap.Alive n) (h : w.toSerialized K n R = .ok (ser, w')) :
    w'.heap.Alive n ∧ w'.heap.slot n = some R := by
  have hsteps : Steps AddrSource.lowest K (fun _ => True) ⟨w, H, G⟩ ⟨w', H, G⟩ :=
    steps_toSerialized hi hn hR trivial h
  have halive : w'.heap.Alive n := (Steps.frame hsteps hi).alive_of_held_subset hi
    (Steps.inv hsteps hi) (Multiset.Subset.refl _) hn
  refine ⟨halive, ?_⟩
  have hins := inserting_toSerialized hi hR hn
  obtain ⟨w1, g, hok, -, rfl⟩ := World.of_toSerialized h
  obtain ⟨id', w2, g2, hok', hins', hexp, hget, -⟩ :=
    (HistoryGraph.insertAncestorsAux_cases (K := K) (n + 1) hins (hi.heap.alive_lt n hn)
      (Nat.lt_succ_self n)).resolve_right fun hfail => by
        have herror := hok.symm.trans hfail.1
        cases herror
  obtain ⟨rfl, rfl, rfl⟩ : ser.id = id' ∧ w1 = w2 ∧ g = g2 := by
    simpa using hok.symm.trans hok'
  have hreg : g.registry = R := hexp.registry
  have hslot := (hins'.agrees ser.id n hget).slot
  rw [hreg] at hslot
  -- the temporary graph is dropped while the node lives
  have hinv := hins'.inv
  rw [← hreg] at hinv
  have hdrop : Steps AddrSource.lowest K (fun _ => False) _ _ := steps_graphDrop hinv
  exact Steps.slot_of_some hdrop hinv hslot halive

/-- A decoded object is registered in the temporary registry of the decoder. -/
theorem slot_of_fromSerialized {ser : SerializedRelRc N E} {m : Ref} (hi : Inv w H G)
    (h : w.fromSerialized A K ser = .ok (m, w')) :
    ∃ R, w'.heap.slot m = some R ∧ R < w'.nregs := by
  have hsteps : Steps A K (fun _ => True) ⟨w, H, G⟩ ⟨w', m ::ₘ H, G⟩ :=
    steps_fromSerialized hi h fun _ _ => trivial
  have halive : w'.heap.Alive m :=
    (Steps.inv hsteps hi).heap.alive_of_held (Multiset.mem_cons_self _ _)
  obtain ⟨w1, g, hgraph, hm, rfl⟩ := World.of_fromSerialized h
  obtain ⟨hsteps1, -⟩ : Steps A K (fun _ => True) _ _ ∧ _ :=
    steps_graphFromSerialized hi hgraph fun _ _ => trivial
  have hi1 := Steps.inv hsteps1 hi
  -- the decoder accepted its input, so the graph it built agrees with the registry
  obtain ⟨hwf, hsub⟩ := (graphFromSerialized_correct (A := A) (K := K) ser.ancestorsGraph hi).1.mp
    ⟨_, hgraph⟩
  obtain ⟨w2, g2, nodes, hgraph', hr, -⟩ :=
    HistoryGraph.fromSerialized_ok (A := A) (K := K) hwf hsub hi
  obtain ⟨rfl, rfl⟩ := Prod.mk.inj (Except.ok.inj (hgraph.symm.trans hgraph'))
  have ht := hr.agrees ser.id m hm
  have hclone : Steps A K (fun _ => True) ⟨w1, g.refs + H, g.registry ::ₘ G⟩
      ⟨w1.clone m, g.refs + (m ::ₘ H), g.registry ::ₘ G⟩ := by
    rw [Multiset.add_cons]
    exact steps_clone (ht.alive hi1)
  have hdrop := hclone.trans (steps_graphDrop (Steps.inv hclone hi1))
  exact ⟨g.registry, Steps.slot_of_some hdrop hi1 ht.slot halive,
    lt_of_lt_of_le (hi1.reg_lt _ (ht.regAlive hi1)) (Steps.frame hdrop hi1).nregs_le⟩

/-! ### A registry for one call -/

/-- `n.to_serialized(Registry::new())`: the registry is made for the call and dropped after it. -/
def World.toSerializedNew (K : KeySource) (w : World N E) (n : Ref) :
    Except Panic (SerializedRelRc N E × World N E) := do
  let res ← (w.allocRegistry Registry.new).toSerialized K n w.nregs
  pure (res.1, res.2.dropRegistry w.nregs)

/-- An empty registry may be allocated. -/
theorem inv_allocRegistry_new (hi : Inv w H G) :
    Inv (w.allocRegistry Registry.new) H (w.nregs ::ₘ G) := by
  have hsteps : Steps AddrSource.lowest KeySource.reusing (fun _ => False) _ _ :=
    steps_allocRegistry_new w H G
  exact Steps.inv hsteps hi

/-- A node whose cell is not empty cannot be serialized with a new registry. -/
theorem toSerializedNew_of_slot (hi : Inv w H G) {R : RegRef} (hslot : w.heap.slot n = some R)
    (hlt : R < w.nregs) : w.toSerializedNew K n = .error .nodeNotRegistered :=
  bind_of_error (toSerialized_of_slot_ne (inv_allocRegistry_new hi) (Multiset.mem_cons_self _ _)
    hslot (Nat.ne_of_lt hlt))

/-- The call leaves the node live, and in its cell a registry that was created for the call. -/
theorem steps_toSerializedNew {ser : SerializedRelRc N E} (hi : Inv w H G) (hn : w.heap.Alive n)
    (h : w.toSerializedNew K n = .ok (ser, w')) :
    Steps AddrSource.lowest K (fun _ => True) ⟨w, H, G⟩ ⟨w', H, G⟩ ∧ w'.heap.Alive n ∧
      w'.heap.slot n = some w.nregs ∧ w.nregs < w'.nregs := by
  obtain ⟨⟨ser', w1⟩, hser, h⟩ := bind_eq_ok_iff.mp h
  obtain ⟨rfl, rfl⟩ := Prod.mk.inj (pure_eq_ok_iff.mp h)
  have hi0 := inv_allocRegistry_new hi
  have halloc : Steps AddrSource.lowest K (fun _ => True) ⟨w, H, G⟩ _ :=
    steps_allocRegistry_new w H G
  have hcall : Steps AddrSource.lowest K (fun _ => True) _ _ :=
    steps_toSerialized hi0 hn (Multiset.mem_cons_self _ _) trivial hser
  have hi1 := Steps.inv hcall hi0
  have hdrop : Steps AddrSource.lowest K (fun _ => True) ⟨w1, H, w.nregs ::ₘ G⟩ _ :=
    Relation.ReflTransGen.single (.dropRegistry w1 H G w.nregs)
  have hsteps := (halloc.trans hcall).trans hdrop
  have hi2 := Steps.inv hsteps hi
  have halive := (Steps.frame hsteps hi).alive_of_held_subset hi hi2 (Multiset.Subset.refl _) hn
  obtain ⟨-, hslot⟩ := slot_of_toSerialized hi0 (Multiset.mem_cons_self _ _) hn hser
  refine ⟨hsteps, halive, Steps.slot_of_some hdrop hi1 hslot halive, ?_⟩
  exact lt_of_lt_of_le (Nat.lt_succ_self _) (Steps.frame (hcall.trans hdrop) hi0).nregs_le

/-- The first call succeeds when no cell is set, and what it returns can be decoded anywhere. -/
theorem toSerializedNew_ok (hi : Inv w H G) (hn : w.heap.Alive n)
    (hfree : ∀ a, Reaches w.heap.allParents n a → w.heap.slot a = none) :
    ∃ ser w', w.toSerializedNew K n = .ok (ser, w') ∧ ∀ (t : World N E) H' G', Inv t H' G' →
      ∃ m t', t.fromSerialized A K ser = .ok (m, t') := by
  have hins := inserting_toSerialized (inv_allocRegistry_new hi) (Multiset.mem_cons_self _ _) hn
  have hlt : n < w.heap.size := hi.heap.alive_lt n hn
  have hregistrable : ∀ x, Reaches w.heap.allParents n x → ∀ R, w.heap.slot x = some R →
      R = w.nregs := by
    intro x hx R hslot
    rw [hfree x hx] at hslot
    cases hslot
  obtain ⟨id, w1, g, hok, hins', hexp, hget, hstores⟩ :=
    HistoryGraph.insertAncestors_added (K := K) hins hlt hregistrable
  have hg := hins'.agrees.registered hins'.inv
  -- the registry is new, so it has the entries of the graph only
  have ho : g.Owned w1 := by
    refine HistoryGraph.Owned.grows ⟨HistoryGraph.agrees_empty _, ?_⟩ hexp.toGrows
    rintro r ⟨k, hk⟩
    simp [World.clone, World.cloneRegistry, World.allocRegistry, World.withHeap, Registry.new] at hk
  have hfull : g.Complete w1 := by
    rintro a ⟨x, hx, hxa⟩
    refine HistoryGraph.stores_mem_visited hins'.inv hg ?_
    refine Reaches.mem_of_closed (fun y hy p hp => ?_) hx hxa
    have hylt : y < w.heap.size := by
      rcases (hstores y).mp hy with hempty | hreach
      · exact absurd hempty (HistoryGraph.not_stores_empty _ y)
      · exact lt_of_le_of_lt (hins.inv.heap.le_of_reaches hreach.reaches) hlt
    rw [hins'.frame.allParents hylt (hg.alive hy)] at hp
    exact (hins'.closed y hy).resolve_left (fun h => h) p hp
  have he := (ho.encodable_iff hins'.inv).mpr hfull
  obtain ⟨ser, hser⟩ := (HistoryGraph.toSerialized_ok_iff (K := K) hins'.inv hg).mpr he
  obtain ⟨reg, hw⟩ := HistoryGraph.written_of_toSerialized hins'.inv hg hser
  refine ⟨⟨id, ser⟩, _, bind_eq_ok_iff.mpr ⟨_, bind_eq_ok_iff.mpr ⟨(id, w1, g), hok,
    bind_eq_ok_iff.mpr ⟨ser, hser, rfl⟩⟩, rfl⟩, fun t H' G' ht => ?_⟩
  obtain ⟨m, t', hdec, -⟩ :=
    fromSerialized_copies (A := A) (K := K) hw hins'.inv hg he hfull hget ht
  exact ⟨m, t', hdec⟩

/-- The same object under other ids. -/
structure SerializedRelRc.Renamed (ser ser' : SerializedRelRc N E) (σ : Equiv.Perm NodeId) :
    Prop where
  id : ser'.id = σ ser.id
  nodes : ∀ k, σ k ∈ ser'.ancestorsGraph.nodes ↔ k ∈ ser.ancestorsGraph.nodes
  entries : ∀ k, ser'.ancestorsGraph.registry.nodes.get (σ k) =
    (ser.ancestorsGraph.registry.nodes.get k).map fun sd =>
      ⟨sd.value, sd.incoming.map fun pe => (σ pe.1, pe.2)⟩

/-- One call of `to_serialized(Registry::new())` on `n` or `m` that returns. -/
def SerializesOne (K : KeySource) (n m : Ref) (t t' : World N E) : Prop :=
  ∃ x ser, (x = n ∨ x = m) ∧ t.toSerializedNew K x = .ok (ser, t')

/-- `n` can be serialized and decoded, and after that `n` and its copy `m` can be serialized again,
any number of times, always with the first result up to renaming. -/
def Reserializes (A : AddrSource) (K : KeySource) (w : World N E) (n : Ref) : Prop :=
  ∃ ser w₁ m w₂, w.toSerializedNew K n = .ok (ser, w₁) ∧ w₁.fromSerialized A K ser = .ok (m, w₂) ∧
    ∀ t, Relation.ReflTransGen (SerializesOne K n m) w₂ t → ∀ x, x = n ∨ x = m →
      ∃ ser' t', t.toSerializedNew K x = .ok (ser', t') ∧ ∃ σ, ser.Renamed ser' σ

/-- Once the node has been serialized and decoded, neither it nor its copy can be serialized. -/
theorem toSerializedNew_again {ser : SerializedRelRc N E} {m : Ref} {w₁ w₂ : World N E}
    (hi : Inv w H G) (hn : w.heap.Alive n) (hser : w.toSerializedNew K n = .ok (ser, w₁))
    (hdec : w₁.fromSerialized A K ser = .ok (m, w₂)) :
    w₂.toSerializedNew K n = .error .nodeNotRegistered ∧
      w₂.toSerializedNew K m = .error .nodeNotRegistered := by
  obtain ⟨hsteps, halive, hslot, hlt⟩ := steps_toSerializedNew hi hn hser
  have hi1 := Steps.inv hsteps hi
  have hsteps2 : Steps A K (fun _ => True) ⟨w₁, H, G⟩ ⟨w₂, m ::ₘ H, G⟩ :=
    steps_fromSerialized hi1 hdec fun _ _ => trivial
  have hi2 := Steps.inv hsteps2 hi1
  have hframe := Steps.frame hsteps2 hi1
  have halive2 := hframe.alive_of_held_subset hi1 hi2 (Multiset.subset_cons _ _) halive
  obtain ⟨R, hslotm, hltm⟩ := slot_of_fromSerialized hi1 hdec
  exact ⟨toSerializedNew_of_slot hi2 (Steps.slot_of_some hsteps2 hi1 hslot halive2)
    (lt_of_lt_of_le hlt hframe.nregs_le), toSerializedNew_of_slot hi2 hslotm hltm⟩

/-- **No object can be serialized a second time**, in no state of any run. A node without registered
ancestors is serialized and decoded once; after that both calls panic. -/
theorem not_reserializes_of_run (h : Run A K P State.init s) {n : Ref}
    (hn : s.world.heap.Alive n) :
    ¬ Reserializes A K s.world n ∧
    ((∀ a, Reaches s.world.heap.allParents n a → s.world.heap.slot a = none) →
      ∃ ser w₁ m w₂, s.world.toSerializedNew K n = .ok (ser, w₁) ∧
        w₁.fromSerialized A K ser = .ok (m, w₂) ∧
        w₂.toSerializedNew K n = .error .nodeNotRegistered ∧
        w₂.toSerializedNew K m = .error .nodeNotRegistered) := by
  have hi : Inv s.world s.held s.regs := Run.inv h State.inv_init
  constructor
  · rintro ⟨ser, w₁, m, w₂, hser, hdec, hagain⟩
    obtain ⟨ser', t', hok, -⟩ := hagain w₂ Relation.ReflTransGen.refl n (Or.inl rfl)
    rw [(toSerializedNew_again hi hn hser hdec).1] at hok
    cases hok
  · intro hfree
    obtain ⟨ser, w₁, hser, hall⟩ := toSerializedNew_ok (A := A) (K := K) hi hn hfree
    obtain ⟨m, w₂, hdec⟩ := hall w₁ _ _ (Steps.inv (steps_toSerializedNew hi hn hser).1 hi)
    exact ⟨ser, w₁, m, w₂, hser, hdec, toSerializedNew_again hi hn hser hdec⟩

/-- Two nodes that were never registered. -/
def unregisteredPair : State ℕ ℕ := State.init.after [.new 10, .withParents 20 [(0, 1)]]

theorem unregisteredPair_slot {a : Ref}
    (ha : Reaches unregisteredPair.world.heap.allParents 1 a) :
    unregisteredPair.world.heap.slot a = none := by
  have hrun : Run _ _ (fun _ _ => True) State.init unregisteredPair :=
    run_after (by decide) fun _ _ _ => trivial
  have hlevels : levels unregisteredPair.world.heap.allParents 2 [1] = [1, 0] := by decide
  have hcells : ∀ a ∈ [1, 0], unregisteredPair.world.heap.slot a = none := by decide
  have hmem := (Run.inv hrun State.inv_init).heap.mem_levels_iff.mpr ha
  rw [hlevels] at hmem
  exact hcells a hmem

theorem not_reserializes_of_run_unregisteredPair :
    ∃ ser w₁ m w₂, unregisteredPair.world.toSerializedNew KeySource.reusing 1 = .ok (ser, w₁) ∧
      w₁.fromSerialized AddrSource.lowest KeySource.reusing ser = .ok (m, w₂) ∧
      w₂.toSerializedNew KeySource.reusing 1 = .error .nodeNotRegistered ∧
      w₂.toSerializedNew KeySource.reusing m = .error .nodeNotRegistered := by
  have hrun : Run _ _ (fun _ _ => True) State.init unregisteredPair :=
    run_after (by decide) fun _ _ _ => trivial
  exact (not_reserializes_of_run hrun (by decide)).2 fun a ha => unregisteredPair_slot ha

/-- A single new node. -/
def loneNode : State ℕ ℕ := State.init.after [.new 10]

/-- `registry()` answers `None` after the first call, and the second call panics. -/
theorem not_reserializes_loneNode :
    Run AddrSource.lowest KeySource.reusing (fun _ _ => True) State.init loneNode ∧
    loneNode.world.heap.Alive 0 ∧ loneNode.world.heap.allParents 0 = [] ∧
    loneNode.world.registry 0 = none ∧
    (loneNode.world.toSerializedNew KeySource.reusing 0).toOption.map (fun res =>
      (res.2.registry 0, (res.2.toSerializedNew KeySource.reusing 0).toOption.isSome)) =
        some (none, false) ∧
    ¬ Reserializes AddrSource.lowest KeySource.reusing loneNode.world 0 := by
  have hrun : Run AddrSource.lowest KeySource.reusing (fun _ _ => True) State.init loneNode :=
    run_after (by decide) fun _ _ _ => trivial
  have hi : Inv loneNode.world loneNode.held loneNode.regs := Run.inv hrun State.inv_init
  refine ⟨hrun, by decide, by decide, by decide, by decide, ?_⟩
  rintro ⟨ser, w₁, m, w₂, hser, hdec, hagain⟩
  obtain ⟨ser', t', hok, -⟩ := hagain w₂ Relation.ReflTransGen.refl 0 (Or.inl rfl)
  rw [(toSerializedNew_again hi (by decide) hser hdec).1] at hok
  cases hok

/-! ### Ids of decoded nodes -/

end Relrc
