import Relrc.Codec.RoundTrip
import Relrc.Graph.Ancestors

/-!
# Serializing single objects

`RelRc::to_serialized` inserts the node and its ancestors into a temporary graph over the caller's
registry, encodes the graph and drops it. What it leaves behind are the ids: the nodes stay
registered, and the next call finds them there.

When the registry is used for nothing else it stays closed under parents, and its entries die with
their nodes (`Serving`). Then no call panics, and each one writes exactly the node and its
ancestors, under ids that stay the same from call to call.
-/

namespace Relrc

open SlotStore Ancestry Fallible

variable {N E : Type} {A : AddrSource} {K : KeySource} {ok : Access → Prop}
variable {w w' : World N E} {H : Multiset Ref} {G : Multiset RegRef} {R : RegRef}
variable {s s' s₀ : State N E}

/-- A registry that is only used to serialize objects. -/
structure Serving (w : World N E) (R : RegRef) : Prop where
  regLt : R < w.nregs
  free : ∀ r, HistoryGraph.Registrable w R r
  tracked : OnlyTracked w R
  closed : ∀ r, (w.registries R).Has r → ∀ p ∈ w.heap.allParents r, (w.registries R).Has p

namespace Serving

/-- The entry of a parent lives at least as long as that of its child. -/
theorem closed_of_steps {c c' : Config N E} (h : Steps A K ok c c') (hi : c.Inv)
    (hrem : NoRemove ok R) (ht : OnlyTracked c'.world R) {r : Ref}
    (hr : r < c.world.heap.size)
    (hold : ∀ p ∈ c.world.heap.allParents r, (c.world.registries R).Has p)
    (hhas : (c'.world.registries R).Has r) :
    ∀ p ∈ c'.world.heap.allParents r, (c'.world.registries R).Has p := by
  intro p hp
  have hi' := Steps.inv h hi
  have halive : c'.world.heap.Alive r := alive_of_slot hi' (ht r hhas)
  have hp' := hp
  rw [(Steps.frame h hi).allParents hr halive] at hp
  obtain ⟨id, hid⟩ := hold p hp
  exact ⟨id, Steps.entry h hi hrem hid (hi'.heap.parent_alive hp') (hi'.regAlive_of_has hhas)⟩

/-- Nothing is lost as long as nobody writes to registries. -/
theorem steps {c c' : Config N E} (hs : Serving c.world R)
    (h : Steps A K (fun _ => False) c c') (hi : c.Inv) : Serving c'.world R := by
  have ht : OnlyTracked c'.world R :=
    Steps.onlyTracked h hi hs.regLt (fun h => h) (fun h => h) hs.tracked
  refine ⟨lt_of_lt_of_le hs.regLt (Steps.frame h hi).nregs_le,
    fun r => (hs.free r).steps h hi fun _ hok => absurd hok fun h => h, ht, fun r hr => ?_⟩
  have hold := (Steps.has_cases h hi hs.regLt (fun h => h) hr).resolve_right fun h => h
  exact closed_of_steps h hi (fun h => h) ht
    (hi.heap.alive_lt r (alive_of_slot hi (hs.tracked r hold)))
    (hs.closed r hold) hr

end Serving

/-! ### One call -/

/-- What one call of `RelRc::to_serialized` returns and leaves behind. -/
structure SerializedIn (w w' : World N E) (R : RegRef) (n : Ref) (ser : SerializedRelRc N E) :
    Prop where
  serving : Serving w' R
  id : (w'.registries R).nodes.get ser.id = some n
  has : ∀ a, Reaches w.heap.allParents n a → (w'.registries R).Has a
  alive : ∀ r, w.heap.Alive r → w'.heap.Alive r
  mem_nodes : ∀ k, k ∈ ser.ancestorsGraph.nodes ↔
    ∃ a, Reaches w.heap.allParents n a ∧ (w'.registries R).nodes.get k = some a
  mem_keys : ∀ k, (∃ sd, ser.ancestorsGraph.registry.nodes.get k = some sd) ↔
    ∃ a, Reaches w.heap.allParents n a ∧ (w'.registries R).nodes.get k = some a
  copies : ∀ (A' : AddrSource) (K' : KeySource) (t : World N E) (H' : Multiset Ref)
    (G' : Multiset RegRef), Inv t H' G' → ∃ r t', t.fromSerialized A' K' ser = .ok (r, t') ∧
      ∃ f, Copies w.heap t'.heap (Reaches w.heap.allParents n) f ∧ f n = r ∧
        ∀ b, Reaches t'.heap.allParents r b ↔ ∃ a, Reaches w.heap.allParents n a ∧ f a = b

/-- `RelRc::from_serialized` on a written graph that stores the node. -/
theorem fromSerialized_copies {g : HistoryGraph} {reg : Registry}
    {ser : SerializedHistoryGraph N E} (hw : HistoryGraph.Written w g reg ser) (hi : Inv w H G)
    (hg : g.Registered w) (he : g.Encodable w) (hfull : g.Complete w) {id : NodeId} {n : Ref}
    (hn : g.nodes.get id = some n) {t : World N E} {H' : Multiset Ref} {G' : Multiset RegRef}
    (ht : Inv t H' G') : ∃ r t', t.fromSerialized A K ⟨id, ser⟩ = .ok (r, t') ∧
      ∃ f, Copies w.heap t'.heap (Reaches w.heap.allParents n) f ∧ f n = r ∧
        ∀ b, Reaches t'.heap.allParents r b ↔ ∃ a, Reaches w.heap.allParents n a ∧ f a = b := by
  obtain ⟨t1, g', nodes, hdec, hr, -⟩ := HistoryGraph.fromSerialized_ok (A := A) (K := K)
    (hw.wellFormed hi hg he hfull) (fun k hk => hw.exists_of_mem_nodes hi hg he hk) ht
  obtain ⟨hsteps, -⟩ : Steps A K (fun _ => True) ⟨t, H', G'⟩
      ⟨t1, g'.refs + H', g'.registry ::ₘ G'⟩ ∧
      _ := steps_graphFromSerialized ht hdec fun _ _ => trivial
  have hi1 := Steps.inv hsteps ht
  obtain ⟨f, hcopies, hstored, -⟩ := hr.copies hi1 hw hi hg he hfull
  have hroot := hstored id n hn
  have hanc : ∀ r, Reaches w.heap.allParents n r → g.IsAncestor w r := fun r hr => ⟨n, ⟨id, hn⟩, hr⟩
  have hclosed : ∀ r, Reaches w.heap.allParents n r → ∀ p ∈ w.heap.allParents r,
      Reaches w.heap.allParents n p := fun r hr p hp => hr.tail hp
  have hcopies1 := hcopies.mono hanc
  -- the graph is dropped, all but the one node
  have halive1 : t1.heap.Alive (f n) := (hr.agrees id (f n) hroot).alive hi1
  have hclone : Steps A K (fun _ => True) ⟨t1, g'.refs + H', g'.registry ::ₘ G'⟩
      ⟨t1.clone (f n), g'.refs + (f n ::ₘ H'), g'.registry ::ₘ G'⟩ := by
    rw [Multiset.add_cons]
    exact steps_clone halive1
  have hdrop := hclone.trans (steps_graphDrop (Steps.inv hclone hi1))
  have hi2 := Steps.inv hdrop hi1
  have hframe := Steps.frame hdrop hi1
  have halive2 : (g'.drop (t1.clone (f n))).heap.Alive (f n) :=
    hi2.heap.alive_of_held (Multiset.mem_cons_self _ _)
  have hcopy : ∀ r, Reaches w.heap.allParents n r →
      f r < t1.heap.size ∧ (g'.drop (t1.clone (f n))).heap.Alive (f r) := by
    intro r hnr
    have hreach := (hcopies1.reaches_iff hclosed (Reaches.refl n)).mpr ⟨r, hnr, rfl⟩
    refine ⟨hi1.heap.alive_lt _ (hi1.heap.alive_of_reaches halive1 hreach), ?_⟩
    exact hi2.heap.alive_of_reaches halive2
      ((hframe.reaches_iff hi1 hi2 (hi1.heap.alive_lt _ halive1) halive2).mpr hreach)
  have hcopies2 := hcopies1.frame hframe hcopy
  refine ⟨f n, g'.drop (t1.clone (f n)), ?_, f, hcopies2, rfl, fun b =>
    hcopies2.reaches_iff hclosed (Reaches.refl n)⟩
  exact bind_eq_ok_iff.mpr ⟨(t1, g'), hdec, bind_eq_ok_iff.mpr
    ⟨f n, expect_eq_ok_iff.mpr hroot, rfl⟩⟩

/-- The temporary graph `g` stores `n` and its ancestors, over a registry that still serves. -/
structure Covering (w w' : World N E) (R : RegRef) (n : Ref) (g : HistoryGraph) : Prop where
  registry : g.registry = R
  frame : Frame w w'
  agrees : g.Agrees w'
  serving : Serving w' R
  stores_iff : ∀ x, g.Stores x ↔ Reaches w.heap.allParents n x

/-- `insert_ancestors` on an empty graph over the registry. -/
theorem Serving.exists_covering (hs : Serving w R) (hi : Inv w H G) (hR : R ∈ G) {n : Ref}
    (hn : w.heap.Alive n) : ∃ id w' g, HistoryGraph.insertAncestors K ((w.cloneRegistry R).clone n)
      ⟨Slots.empty, R⟩ n = .ok (id, w', g) ∧ Inv w' (g.refs + H) (R ::ₘ G) ∧
      Covering w w' R n g ∧ g.nodes.get id = some n := by
  have hstart : Steps AddrSource.lowest K (fun _ => False) ⟨w, H, G⟩
      ⟨(w.cloneRegistry R).clone n, n ::ₘ H, R ::ₘ G⟩ :=
    (Relation.ReflTransGen.single (.cloneRegistry w H G R (hi.regAlive_of_mem hR))).tail
      (.clone _ _ _ n hn)
  have hfill : HistoryGraph.Filling w (R ::ₘ G) ((w.cloneRegistry R).clone n) (n ::ₘ H)
      ⟨Slots.empty, R⟩ := by
    refine ⟨?_, Steps.frame hstart hi, Multiset.mem_cons_self _ _, HistoryGraph.agrees_empty R,
      fun r => (hs.free r).steps hstart hi fun _ hok => absurd hok fun h => h, ?_⟩
    · rw [HistoryGraph.refs_empty_add]
      exact Steps.inv hstart hi
    · exact fun r hr => absurd hr (HistoryGraph.not_stores_empty R r)
  obtain ⟨id, w', g, hins, h', hgrow, hget, hstores⟩ :=
    HistoryGraph.insertAncestors_ok (K := K) hfill (hi.heap.alive_lt n hn)
  have hreg : g.registry = R := hgrow.registry
  have hstored : ∀ x, g.Stores x ↔ Reaches w.heap.allParents n x := fun x =>
    (hstores x).trans ⟨fun h => h.resolve_left (HistoryGraph.not_stores_empty R x), Or.inr⟩
  have hrun : Steps AddrSource.lowest K (fun a => a = .register R) ⟨w, H, G⟩
      ⟨w', g.refs + H, R ::ₘ G⟩ := by
    have hgraph : GraphRun AddrSource.lowest K (fun a => a = .register R) _ (n ::ₘ H) (R ::ₘ G)
        ⟨Slots.empty, R⟩ w' H g :=
      steps_insertAncestors hfill.inv hfill.registry rfl hins
    have hsteps := hgraph.steps
    rw [HistoryGraph.refs_empty_add] at hsteps
    exact (Steps.mono (fun _ h => absurd h fun h => h) hstart).trans hsteps
  have htracked : OnlyTracked w' R := Steps.onlyTracked hrun hi hs.regLt (fun h => (by cases h))
    (fun h => (by cases h)) hs.tracked
  -- an entry was there before, or belongs to an ancestor of the node
  have hclosed : ∀ r, (w'.registries R).Has r →
      ∀ p ∈ w'.heap.allParents r, (w'.registries R).Has p := by
    intro r hr
    rcases hgrow.has r hr with hold | hnew
    · have hold' : (w.registries R).Has r := hold
      exact closed_of_steps hrun hi (fun h => (by cases h)) htracked
        (hi.heap.alive_lt r (alive_of_slot hi (hs.tracked r hold'))) (hs.closed r hold') hr
    · intro p hp
      have hlt : r < w.heap.size := hi.heap.alive_lt r
        (hi.heap.alive_of_reaches hn ((hstored r).mp hnew))
      rw [h'.frame.allParents hlt ((h'.agrees.registered h'.inv).alive hnew)] at hp
      obtain ⟨k, hk⟩ := h'.closed r hnew p hp
      have hentry := (h'.agrees k p hk).entry
      rw [hreg] at hentry
      exact ⟨k, hentry⟩
  exact ⟨id, w', g, hins, h'.inv, ⟨hreg, h'.frame, h'.agrees,
    ⟨lt_of_lt_of_le hs.regLt h'.frame.nregs_le, fun r => hreg ▸ h'.free r, htracked, hclosed⟩,
    hstored⟩, hget⟩

namespace Covering

variable {n : Ref} {g : HistoryGraph}

/-- The nodes of the temporary graph are entries of the registry. -/
theorem entry (hc : Covering w w' R n g) {k : NodeId} {x : Ref} (hk : g.nodes.get k = some x) :
    (w'.registries R).nodes.get k = some x := by
  have hentry := (hc.agrees k x hk).entry
  rwa [hc.registry] at hentry

/-- The ancestors of an object are the same after the call. -/
theorem reaches_iff (hc : Covering w w' R n g) (hi : Inv w H G) {H' : Multiset Ref}
    {G' : Multiset RegRef} (hi' : Inv w' H' G') (hn : w.heap.Alive n) {x a : Ref}
    (hx : g.Stores x) :
    Reaches w'.heap.allParents x a ↔ Reaches w.heap.allParents x a :=
  hc.frame.reaches_iff hi hi' (hi.heap.alive_lt x
    (hi.heap.alive_of_reaches hn ((hc.stores_iff x).mp hx)))
    ((hc.agrees.registered hi').alive hx)

/-- The graph is closed under parents, so all ancestors of its nodes are visited. -/
theorem complete (hc : Covering w w' R n g) (hi : Inv w H G) {H' : Multiset Ref}
    {G' : Multiset RegRef} (hi' : Inv w' H' G') (hn : w.heap.Alive n) :
    g.Complete w' ∧ ∀ a, a ∈ g.visited w' ↔ g.Stores a := by
  have hg := hc.agrees.registered hi'
  have hanc : ∀ a, g.IsAncestor w' a → g.Stores a := by
    rintro a ⟨x, hx, hxa⟩
    exact (hc.stores_iff a).mpr
      (((hc.stores_iff x).mp hx).trans ((hc.reaches_iff hi hi' hn hx).mp hxa))
  have hfull : g.Complete w' := fun a ha => HistoryGraph.stores_mem_visited hi' hg (hanc a ha)
  refine ⟨hfull, fun a => ⟨fun ha => ?_, HistoryGraph.stores_mem_visited hi' hg⟩⟩
  exact hanc a ((HistoryGraph.mem_visited_iff hi' hg hfull).mp ha)

/-- The whole registry can be encoded. -/
theorem encodable (hc : Covering w w' R n g) (hi : Inv w H G) {H' : Multiset Ref}
    {G' : Multiset RegRef} (hi' : Inv w' H' G') (hn : w.heap.Alive n) : g.Encodable w' := by
  intro r hr
  have hhas : (w'.registries R).Has r := by
    rcases hr with hr | hr
    · rwa [hc.registry] at hr
    · obtain ⟨k, hk⟩ := ((hc.complete hi hi' hn).2 r).mp hr
      exact ⟨k, hc.entry hk⟩
  refine ⟨alive_of_slot hi' (hc.serving.tracked r hhas), fun p hp => Or.inl ?_⟩
  rw [hc.registry]
  exact hc.serving.closed r hhas p hp

/-- Where ids stand for different nodes, the ids of the graph are those of `n` and its ancestors. -/
theorem mem_ids_iff (hc : Covering w w' R n g) {m : SlotMap Ref}
    (hinj : ∀ k k' x, m.get k = some x → m.get k' = some x → k = k')
    (hm : ∀ k x, g.nodes.get k = some x → m.get k = some x) (k : NodeId) :
    (∃ a, g.nodes.get k = some a) ↔ ∃ a, Reaches w.heap.allParents n a ∧ m.get k = some a := by
  constructor
  · rintro ⟨a, ha⟩
    exact ⟨a, (hc.stores_iff a).mp ⟨k, ha⟩, hm k a ha⟩
  · rintro ⟨a, ha, hk⟩
    obtain ⟨k', hk'⟩ := (hc.stores_iff a).mpr ha
    rw [hinj k k' a hk (hm k' a hk')]
    exact ⟨a, hk'⟩

end Covering

/-- **A call of `RelRc::to_serialized` succeeds** against a registry that is only used for
serializing. -/
theorem Serving.toSerialized_ok (hs : Serving w R) (hi : Inv w H G) (hR : R ∈ G) {n : Ref}
    (hn : w.heap.Alive n) : ∃ ser w', w.toSerialized K n R = .ok (ser, w') ∧
      SerializedIn w w' R n ser := by
  obtain ⟨id, w2, g, hins, hi2, hc, hget⟩ := hs.exists_covering (K := K) hi hR hn
  have hg := hc.agrees.registered hi2
  obtain ⟨hfull, hvis⟩ := hc.complete hi hi2 hn
  have he := hc.encodable hi hi2 hn
  obtain ⟨ser, hser⟩ := (HistoryGraph.toSerialized_ok_iff (K := K) hi2 hg).mpr he
  obtain ⟨reg, hw⟩ := HistoryGraph.written_of_toSerialized hi2 hg hser
  -- dropping the temporary graph gives back what the call was given, and no entry is lost
  have hi2' := hi2
  rw [← hc.registry] at hi2'
  have hdrop : Steps AddrSource.lowest K (fun _ => False) ⟨w2, g.refs + H, R ::ₘ G⟩
      ⟨g.drop w2, H, G⟩ := by
    have h : Steps AddrSource.lowest K (fun _ => False) _ _ := steps_graphDrop hi2'
    rwa [hc.registry] at h
  have hi3 := Steps.inv hdrop hi2
  have halive : ∀ r, w.heap.Alive r → (g.drop w2).heap.Alive r := fun r hr =>
    (hc.frame.trans (Steps.frame hdrop hi2)).alive_of_held_subset hi hi3 (Multiset.Subset.refl _) hr
  have hentry : ∀ k a, g.nodes.get k = some a →
      ((g.drop w2).registries R).nodes.get k = some a := by
    intro k a hk
    have ha := (hc.stores_iff a).mp ⟨k, hk⟩
    exact Steps.entry hdrop hi2 (fun h => h) (hc.entry hk)
      (halive a (hi.heap.alive_of_reaches hn ha)) (hi3.regAlive_of_mem hR)
  have hids := hc.mem_ids_iff (fun k k' x => (hi3.inverse R).id_eq) hentry
  refine ⟨⟨id, ser⟩, g.drop w2, ?_, hc.serving.steps hdrop hi2, hentry id n hget, fun a ha => ?_,
    halive, fun k => hw.mem_nodes_iff.trans (hids k), fun k => ?_, fun A' K' t H' G' ht => ?_⟩
  · exact bind_eq_ok_iff.mpr ⟨(id, w2, g), hins, bind_eq_ok_iff.mpr ⟨ser, hser, rfl⟩⟩
  · obtain ⟨k, hk⟩ := (hc.stores_iff a).mpr ha
    exact ⟨k, hentry k a hk⟩
  · rw [hw.mem_keys_iff hi2 he, ← hids, hc.mem_ids_iff
      (fun k k' x => hw.faithful.inverse.id_eq) fun k a hk => hw.mono k a (hg k a hk).1]
    simp only [hvis, hc.stores_iff]
  · have hsame : Reaches w2.heap.allParents n = Reaches w.heap.allParents n :=
      funext fun a => propext (hc.reaches_iff hi hi2 hn ⟨id, hget⟩)
    obtain ⟨r, t', hdec, f, hcopies, hf, hiso⟩ := fromSerialized_copies (A := A') (K := K') hw hi2
      hg he hfull hget ht
    rw [hsame] at hcopies
    refine ⟨r, t', hdec, f, hcopies.of_frame hc.frame fun a ha => ?_, hf, fun b => ?_⟩
    · exact ⟨hi.heap.alive_lt a (hi.heap.alive_of_reaches hn ha),
        hg.alive ((hc.stores_iff a).mpr ha)⟩
    · rw [hiso b, hsame]

/-! ### All runs -/

/-- The operation serializes an object against `R`, or writes to no registry. -/
def Serializing (R : RegRef) (s : State N E) (op : Op N E) : Prop :=
  (∃ n, op = .toSerialized n R) ∨ Respects (fun _ => False) s op

/-- An operation that may be part of such a program keeps the registry ready. -/
theorem exec_serving {op : Op N E} (hi : s.Inv) (hs : Serving s.world R) (hen : op.Enabled s)
    (hop : Serializing R s op) (h : exec A K s op = .ok s') : Serving s'.world R := by
  rcases hop with ⟨n, rfl⟩ | hop
  · obtain ⟨⟨ser, w'⟩, hres, h⟩ := bind_eq_ok_iff.mp h
    obtain rfl := pure_eq_ok_iff.mp h
    obtain ⟨ser', w'', hres', hser⟩ :=
      hs.toSerialized_ok (K := K) hi (hi.mem_of_regAlive hen.2) hen.1
    rw [hres] at hres'
    obtain ⟨rfl, rfl⟩ := Prod.mk.inj (Except.ok.inj hres')
    exact hser.serving
  · exact hs.steps (exec_steps hi hen hop h) hi

/-- So does any run of them. -/
theorem Run.serving (h : Run A K (Serializing R) s s') (hi : s.Inv) (hs : Serving s.world R) :
    Serving s'.world R := by
  induction h with
  | refl => exact hs
  | tail hrun hstep ih =>
    obtain ⟨op, hen, hop, hexec⟩ := hstep
    exact exec_serving (Run.inv hrun hi) ih hen hop hexec

/-- A new registry serves, as long as no node was registered before. -/
theorem serving_registryNew (h₀ : Run A K (Respects fun _ => False) State.init s₀)
    (hnew : exec A K s₀ .registryNew = .ok s) : Serving s.world s₀.world.nregs := by
  have hsteps : Steps A K (fun _ => False) State.init.config s₀.config :=
    Run.steps h₀ State.inv_init fun _ _ h => h
  obtain rfl := pure_eq_ok_iff.mp hnew
  have hempty : ∀ r, ¬ ((s₀.world.allocRegistry Registry.new).registries s₀.world.nregs).Has r := by
    rintro r ⟨id, hid⟩
    simp [World.allocRegistry, Registry.new] at hid
  refine ⟨Nat.lt_succ_self _, fun r R' hslot => ?_, fun r hr => absurd hr (hempty r),
    fun r hr => absurd hr (hempty r)⟩
  have hslot' : s₀.world.heap.slot r = some R' := hslot
  rcases Steps.slot_cases hsteps State.inv_init hslot' with hold | hno
  · cases hold
  · exact absurd hno fun h => h

/-- **Serializing objects against one long-lived registry.** Every call succeeds; it writes the
node and its ancestors, under the ids that the registry has for them and keeps for as long as they
live; and the file decodes to an isomorphic DAG in whichever program. -/
theorem toSerialized_of_run (h₀ : Run A K (Respects fun _ => False) State.init s₀)
    {s₁ : State N E} (hnew : exec A K s₀ .registryNew = .ok s₁)
    (h : Run A K (Serializing s₀.world.nregs) s₁ s) {n : Ref}
    (hen : Op.Enabled s (.toSerialized n s₀.world.nregs)) :
    ∃ ser w', s.world.toSerialized K n s₀.world.nregs = .ok (ser, w') ∧
      (w'.registries s₀.world.nregs).getId w'.heap n = some ser.id ∧
      (∀ k, (∃ sd, ser.ancestorsGraph.registry.nodes.get k = some sd) ↔
        ∃ a, Reaches s.world.heap.allParents n a ∧
          (w'.registries s₀.world.nregs).getId w'.heap a = some k) ∧
      (∀ k, k ∈ ser.ancestorsGraph.nodes ↔
        ∃ a, Reaches s.world.heap.allParents n a ∧
          (w'.registries s₀.world.nregs).getId w'.heap a = some k) ∧
      (∀ s', Run A K (Serializing s₀.world.nregs) { s with world := w' } s' →
        s'.world.RegAlive s₀.world.nregs → ∀ a k, Reaches s.world.heap.allParents n a →
        (w'.registries s₀.world.nregs).getId w'.heap a = some k → s'.world.heap.Alive a →
        (s'.world.registries s₀.world.nregs).getId s'.world.heap a = some k) ∧
      ∀ (A' : AddrSource) (K' : KeySource) (t : State N E),
        Run A' K' (fun _ _ => True) State.init t →
        ∃ r t', t.world.fromSerialized A' K' ser = .ok (r, t') ∧
          ∃ f, Copies s.world.heap t'.heap (Reaches s.world.heap.allParents n) f ∧ f n = r ∧
            ∀ b, Reaches t'.heap.allParents r b ↔
              ∃ a, Reaches s.world.heap.allParents n a ∧ f a = b := by
  set R := s₀.world.nregs with hR
  have hi₁ : s₁.Inv := Run.inv (P := fun _ _ => True) (Relation.ReflTransGen.single
    ⟨.registryNew, trivial, trivial, hnew⟩) (Run.inv h₀ State.inv_init)
  have hi := Run.inv h hi₁
  have hs : Serving s.world R := Run.serving h hi₁ (serving_registryNew h₀ hnew)
  obtain ⟨ser, w', hres, hser⟩ := hs.toSerialized_ok (K := K) hi (hi.mem_of_regAlive hen.2) hen.1
  -- the call registers nodes with `R` and does nothing else to registries
  have hstep : Steps A K (fun a => a = .register R) s.config
      ({ s with world := w' } : State N E).config :=
    steps_toSerialized hi hen.1 (hi.mem_of_regAlive hen.2) rfl hres
  have hi' : ({ s with world := w' } : State N E).Inv := Steps.inv hstep hi
  have hids : ∀ a k, Reaches s.world.heap.allParents n a →
      ((w'.registries R).getId w'.heap a = some k ↔ (w'.registries R).nodes.get k = some a) :=
    fun a k ha => hi'.getId_eq_some_iff (Or.inl (hser.alive a (hi.heap.alive_of_reaches hen.1 ha)))
  refine ⟨ser, w', hres, (hids n ser.id (Reaches.refl n)).mpr hser.id, fun k => ?_, fun k => ?_,
    fun s' hrun hRs' a k ha hid hlive => ?_, fun A' K' t ht => ?_⟩
  · rw [hser.mem_keys]
    exact exists_congr fun a => and_congr_right fun ha => (hids a k ha).symm
  · rw [hser.mem_nodes]
    exact exists_congr fun a => and_congr_right fun ha => (hids a k ha).symm
  · -- nothing in the run removes the entry of a node that is alive
    have hsteps : Steps A K (fun a => a = .register R)
        ({ s with world := w' } : State N E).config s'.config := by
      refine Run.steps hrun hi' fun s op hop a ha => ?_
      rcases hop with ⟨m, rfl⟩ | hop
      · exact ha
      · exact absurd (hop a ha) fun h => h
    have hentry := Steps.entry hsteps hi' (fun h => (by cases h)) ((hids a k ha).mp hid) hlive hRs'
    exact ((Steps.inv hsteps hi').inverse R).ptr_of_node k a hentry
  · exact hser.copies A' K' t.world _ _ (Run.inv ht State.inv_init)

/-- A registry against which the parent of two parallel edges was serialized. -/
def servingTwice : State ℕ ℕ :=
  (State.init.after [.registryNew]).after
    [.new 10, .clone 0, .withParents 20 [(0, 1), (0, 2)], .toSerialized 0 0]

theorem toSerialized_of_run_servingTwice :
    (servingTwice.world.registries 0).getId servingTwice.world.heap 0 = some ⟨1, 1⟩ ∧
    ∃ ser w', servingTwice.world.toSerialized KeySource.reusing 1 0 = .ok (ser, w') ∧
      (w'.registries 0).getId w'.heap 1 = some ser.id ∧
      ∃ r t', (World.empty : World ℕ ℕ).fromSerialized AddrSource.lowest KeySource.reusing ser =
        .ok (r, t') ∧ ∃ f, Copies servingTwice.world.heap t'.heap
          (Reaches servingTwice.world.heap.allParents 1) f ∧ f 1 = r := by
  have hrun : Run AddrSource.lowest KeySource.reusing (Serializing 0)
      (State.init.after [.registryNew]) servingTwice := by
    refine run_after (by decide) fun op hop s => ?_
    simp only [List.mem_cons, List.not_mem_nil, or_false] at hop
    rcases hop with rfl | rfl | rfl | rfl
    · exact Or.inr fun a ha => ha
    · exact Or.inr fun a ha => ha
    · exact Or.inr fun a ha => ha
    · exact Or.inl ⟨0, rfl⟩
  obtain ⟨ser, w', hres, hid, -, -, -, hdec⟩ := toSerialized_of_run (n := 1)
    Relation.ReflTransGen.refl rfl hrun (by decide)
  obtain ⟨r, t', hr, f, hf, hroot, -⟩ := hdec AddrSource.lowest KeySource.reusing State.init
    Relation.ReflTransGen.refl
  exact ⟨by decide, ser, w', hres, hid, r, t', hr, f, hf, hroot⟩

end Relrc
