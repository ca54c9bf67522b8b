import Relrc.Codec.RoundTrip

/-!
# What else lives in the registry

`HistoryGraph::to_serialized` clones the shared registry, encodes **all** of the copy and only then
throws away the entries that do not belong to the graph. So other owners of the registry decide
whether the call returns: a dead entry, or an entry whose parent is unknown, makes it panic.

When it does return, its result does not depend on the others, up to the names of ancestors that
have no id in the registry (`toSerialized_again_iff_of_run`).
-/

namespace Relrc

open SlotStore Ancestry Fallible

variable {N E : Type} {A : AddrSource} {K : KeySource}
variable {w w' : World N E} {H H' : Multiset Ref} {G G' : Multiset RegRef} {s s' : State N E}

/-! ### Renaming ids -/

/-- Rename the parent ids. -/
def SerializedInnerData.rename (ρ : NodeId → NodeId) (sd : SerializedInnerData N E) :
    SerializedInnerData N E := ⟨sd.value, sd.incoming.map fun pe => (ρ pe.1, pe.2)⟩

/-- The id occurs in the file, as a key or as a parent. -/
def SerializedRegistry.Mentions (ser : SerializedRegistry N E) (k : NodeId) : Prop :=
  (∃ sd, ser.nodes.get k = some sd) ∨ ∃ k', k ∈ ser.parentIds k'

/-- `ser'` is `ser` with the ids renamed by `ρ`. -/
structure SerializedRegistry.Renames (ρ : NodeId → NodeId) (ser ser' : SerializedRegistry N E) :
    Prop where
  inj : ∀ k k', ser.Mentions k → ser.Mentions k' → ρ k = ρ k' → k = k'
  get_iff : ∀ k' sd', ser'.nodes.get k' = some sd' ↔
    ∃ k sd, ser.nodes.get k = some sd ∧ k' = ρ k ∧ sd' = sd.rename ρ

namespace HistoryGraph

variable {g : HistoryGraph} {reg reg' : Registry} {ser ser' : SerializedHistoryGraph N E}

/-! ### The same graph in a later state -/

/-- The traversal reads the ancestors of stored nodes only, and these have not changed. -/
theorem mem_visited_of_frame (hf : Frame w w') (hi : Inv w H G) (hi' : Inv w' H' G')
    (hg : g.Registered w) (hg' : g.Registered w') {a : Ref} :
    a ∈ g.visited w' ↔ a ∈ g.visited w := by
  rw [mem_visited, mem_visited]
  refine exists_congr fun n => and_congr_right fun hn => ?_
  have hlt : n < w.heap.size := hi.heap.alive_lt n (hg.alive hn)
  have hlevels : levels w'.heap.allParents (n + 1) [n] = levels w.heap.allParents (n + 1) [n] := by
    refine levels_congr fun x hx y hy => ?_
    obtain rfl := List.mem_singleton.mp hx
    have hy' := (hf.reaches_iff hi hi' hlt (hg'.alive hn)).mpr hy
    exact hf.allParents (lt_of_le_of_lt (hi.heap.le_of_reaches hy) hlt)
      (hi'.heap.alive_of_reaches (hg'.alive hn) hy')
  rw [hi'.mem_allAncestors_iff (hg'.alive hn), hi.mem_allAncestors_iff (hg.alive hn), hlevels]

/-- The ancestors of a graph are the same later on, while its nodes live. -/
theorem isAncestor_of_frame (hf : Frame w w') (hi : Inv w H G) (hi' : Inv w' H' G')
    (hlt : ∀ n, g.Stores n → n < w.heap.size) (hg' : ∀ n, g.Stores n → w'.heap.Alive n) {a : Ref} :
    g.IsAncestor w' a ↔ g.IsAncestor w a :=
  exists_congr fun n => and_congr_right fun hn => hf.reaches_iff hi hi' (hlt n hn) (hg' n hn)

/-- Ancestors of live nodes are live. -/
theorem IsAncestor.alive (hi : Inv w H G) (hg : ∀ n, g.Stores n → w.heap.Alive n) {a : Ref}
    (ha : g.IsAncestor w a) : w.heap.Alive a := by
  obtain ⟨n, hn, hna⟩ := ha
  exact hi.heap.alive_of_reaches (hg n hn) hna

/-- Only ancestors are visited. -/
theorem isAncestor_of_mem_visited (hi : Inv w H G) (hg : g.Registered w) {a : Ref}
    (ha : a ∈ g.visited w) : g.IsAncestor w a := by
  obtain ⟨n, hn, hna⟩ := mem_visited.mp ha
  exact ⟨n, hn, hi.reaches_of_mem_allAncestors (hg.alive hn) hna⟩

/-- If the graph can be encoded, every ancestor has an entry or is visited. -/
theorem Encodable.has_or_visited (he : g.Encodable w) (hi : Inv w H G) (hg : g.Registered w)
    {a : Ref} (ha : g.IsAncestor w a) : (w.registries g.registry).Has a ∨ a ∈ g.visited w := by
  obtain ⟨n, hn, hna⟩ := ha
  exact Reaches.mem_of_closed (fun x hx => (he x hx).2) (Or.inr (stores_mem_visited hi hg hn)) hna

/-- The entries of the registry are alive, and their parents have entries or are ancestors of the
graph's nodes. -/
def NoForeignGaps (g : HistoryGraph) (w : World N E) : Prop :=
  ∀ r, (w.registries g.registry).Has r → w.heap.Alive r ∧ ∀ p ∈ w.heap.allParents r,
    (w.registries g.registry).Has p ∨ g.IsAncestor w p

/-- Encoding again succeeds exactly when the other entries of the registry allow it. -/
theorem Encodable.again_iff (he : g.Encodable w) (hf : Frame w w') (hi : Inv w H G)
    (hi' : Inv w' H' G') (hg : g.Registered w) (hg' : g.Registered w')
    (hkeep : ∀ a k, g.IsAncestor w a → (w.registries g.registry).nodes.get k = some a →
      (w'.registries g.registry).nodes.get k = some a) : g.Encodable w' ↔ g.NoForeignGaps w' := by
  have hlt : ∀ n, g.Stores n → n < w.heap.size := fun n hn => hi.heap.alive_lt n (hg.alive hn)
  have hcover : ∀ a, g.IsAncestor w' a → (w'.registries g.registry).Has a ∨ a ∈ g.visited w' := by
    intro a ha
    have ha' := (isAncestor_of_frame hf hi hi' hlt fun _ => hg'.alive).mp ha
    rcases he.has_or_visited hi hg ha' with ⟨k, hk⟩ | hvis
    · exact Or.inl ⟨k, hkeep a k ha' hk⟩
    · exact Or.inr ((mem_visited_of_frame hf hi hi' hg hg').mpr hvis)
  constructor
  · intro he' r hr
    obtain ⟨halive, hparents⟩ := he' r (Or.inl hr)
    exact ⟨halive, fun p hp => (hparents p hp).imp_right (isAncestor_of_mem_visited hi' hg')⟩
  · rintro hno r (hr | hr)
    · obtain ⟨halive, hparents⟩ := hno r hr
      exact ⟨halive, fun p hp => (hparents p hp).elim Or.inl (hcover p)⟩
    · have hanc := isAncestor_of_mem_visited hi' hg' hr
      exact ⟨hanc.alive hi' fun _ => hg'.alive, fun p hp => hcover p (hanc.parent hp)⟩

/-! ### The same output -/

/-- Ids that occur in the file are ids of ancestors. -/
theorem Written.mentions (hw : Written w g reg ser) (hi : Inv w H G) (hg : g.Registered w)
    {k : NodeId} (hk : ser.registry.Mentions k) :
    ∃ a, reg.nodes.get k = some a ∧ g.IsAncestor w a := by
  rcases hk with ⟨sd, hsd⟩ | ⟨k', hk'⟩
  · obtain ⟨r, hr, hk, -⟩ := (hw.get_iff k sd).mp hsd
    exact ⟨r, hk, isAncestor_of_mem_visited hi hg hr⟩
  · obtain ⟨sd, hsd, pe, hpe, rfl⟩ := SerializedRegistry.exists_of_mem_parentIds hk'
    obtain ⟨r, hr, -, henc⟩ := (hw.get_iff k' sd).mp hsd
    obtain ⟨p, hp, hpk⟩ := henc.exists_parent hpe
    exact ⟨p, hpk, (isAncestor_of_mem_visited hi hg hr).parent hp⟩

/-- Two outputs for the same graph differ by a renaming, which keeps the ids that the registry had
in the first place. -/
theorem Written.renames (hw : Written w g reg ser) (hw' : Written w' g reg' ser') (hf : Frame w w')
    (hi : Inv w H G) (hi' : Inv w' H' G') (hg : g.Registered w) (hg' : g.Registered w')
    (he : g.Encodable w)
    (hkeep : ∀ a k, g.IsAncestor w a → (w.registries g.registry).nodes.get k = some a →
      (w'.registries g.registry).nodes.get k = some a) :
    ∃ ρ, ser.registry.Renames ρ ser'.registry ∧
      ∀ k a, (w.registries g.registry).nodes.get k = some a → g.IsAncestor w a → ρ k = k := by
  have hanc' : ∀ a, g.IsAncestor w a → w'.heap.Alive a := fun a ha =>
    ((isAncestor_of_frame hf hi hi' (fun n hn => hi.heap.alive_lt n (hg.alive hn))
      fun _ => hg'.alive).mpr ha).alive hi' fun _ => hg'.alive
  have hhas' : ∀ a, g.IsAncestor w a → reg'.Has a := by
    intro a ha
    refine (hw'.has_iff a).mpr ?_
    rcases he.has_or_visited hi hg ha with ⟨k, hk⟩ | hvis
    · exact Or.inl ⟨k, hkeep a k ha hk⟩
    · exact Or.inr ((mem_visited_of_frame hf hi hi' hg hg').mpr hvis)
  -- an id goes to the new id of its node
  obtain ⟨ρ, hρ⟩ : ∃ ρ : NodeId → NodeId, ∀ k a, g.IsAncestor w a → reg.nodes.get k = some a →
      reg'.nodes.get (ρ k) = some a := by
    refine ⟨fun k => ((reg.nodes.get k).bind (reg'.getId w'.heap)).getD k, fun k a ha hk => ?_⟩
    obtain ⟨k', hk'⟩ := hhas' a ha
    have hid : reg'.getId w'.heap a = some k' := hw'.faithful.inverse.ptr_of_node k' a hk'
    simp only [hk, Option.bind_some, hid, Option.getD_some]
    exact hk'
  have hinj' : ∀ k k' p, reg'.nodes.get k = some p → reg'.nodes.get k' = some p → k = k' :=
    fun k k' p => hw'.faithful.inverse.id_eq
  have hencodes : ∀ r sd, g.IsAncestor w r → Encodes reg.nodes.get w.heap r sd →
      Encodes reg'.nodes.get w'.heap r (sd.rename ρ) := by
    intro r sd hr henc
    have hlt : r < w.heap.size := hi.heap.alive_lt r (hr.alive hi fun _ => hg.alive)
    refine ⟨(hf.value r hlt (hanc' r hr)).trans henc.1, ?_⟩
    rw [hf.allIncoming r hlt (hanc' r hr), SerializedInnerData.rename, List.forall₂_map_right_iff]
    have hsource := (List.forall₂_and_left (p := fun e : InnerEdgeData E => g.IsAncestor w e.source)
      _ _).mpr ⟨fun e hmem => hr.parent (List.mem_map_of_mem hmem), henc.2⟩
    exact hsource.imp fun e pe h => ⟨hρ pe.1 e.source h.1 h.2.1, h.2.2⟩
  refine ⟨ρ, ⟨fun k k' hk hk' heq => ?_, fun k' sd' => ⟨fun hk' => ?_, ?_⟩⟩, fun k a hk ha => ?_⟩
  · obtain ⟨a, hka, ha⟩ := hw.mentions hi hg hk
    obtain ⟨b, hkb, hb⟩ := hw.mentions hi hg hk'
    have hab := hρ k a ha hka
    rw [heq, hρ k' b hb hkb] at hab
    obtain rfl := Option.some.inj hab
    exact hw.faithful.inverse.id_eq hka hkb
  · obtain ⟨r, hr, hrk, henc'⟩ := (hw'.get_iff k' sd').mp hk'
    have hvis := (mem_visited_of_frame hf hi hi' hg hg').mp hr
    obtain ⟨k, sd, hk, hsd, henc⟩ := hw.exists_key hi he hvis
    obtain ⟨a, hka, ha⟩ := hw.mentions hi hg (Or.inl ⟨sd, hsd⟩)
    obtain rfl := Option.some.inj (hk.symm.trans hka)
    exact ⟨k, sd, hsd, hinj' k' (ρ k) r hrk (hρ k r ha hk),
      henc'.unique (hencodes r sd ha henc) hinj'⟩
  · rintro ⟨k, sd, hsd, rfl, rfl⟩
    obtain ⟨r, hr, hk, henc⟩ := (hw.get_iff k sd).mp hsd
    obtain ⟨a, hka, ha⟩ := hw.mentions hi hg (Or.inl ⟨sd, hsd⟩)
    obtain rfl := Option.some.inj (hk.symm.trans hka)
    exact (hw'.get_iff _ _).mpr ⟨r, (mem_visited_of_frame hf hi hi' hg hg').mpr hr, hρ k r ha hk,
      hencodes r sd ha henc⟩
  · exact hinj' (ρ k) k a (hρ k a ha (hw.mono k a hk)) (hw'.mono k a (hkeep a k ha hk))

/-! ### Ids that still resolve -/

/-- `reg'` has no new entries under ids that `reg` has issued. -/
structure Extends (reg reg' : Registry) : Prop where
  issued : ∀ k, reg.nodes.Issued k → reg'.nodes.Issued k
  get_of_issued : ∀ k r, reg.nodes.Issued k → reg'.nodes.get k = some r → reg.nodes.get k = some r

namespace Extends

/-- Ids that resolve go on to do so when a node is added. -/
theorem addNode (he : Extends reg reg') (h : Heap N E) (r : Ref) :
    Extends reg (reg'.addNode K h r).2 := by
  refine ⟨fun k hk => Registry.issued_addNode _ _ _ _ (he.issued k hk), fun k x hk hx => ?_⟩
  rcases Registry.get_of_addNode _ _ _ _ hx with hx | ⟨-, hkey, hnone⟩
  · exact he.get_of_issued k x hk hx
  · rw [Registry.addNode_of_none K reg' h r hnone] at hkey
    rw [hkey] at hk
    exact absurd (he.issued _ hk) (reg'.nodes.not_issued_nextKey K)

theorem internAll (he : Extends reg reg') (h : Heap N E) (rs : List Ref) :
    Extends reg (Registry.internAll K h reg' rs).1 := by
  have hgen : ∀ acc : Registry × List NodeId, Extends reg acc.1 →
      Extends reg (rs.foldl (fun acc node => ((acc.1.getIdOrInsert K h node).2,
        acc.2 ++ [(acc.1.getIdOrInsert K h node).1])) acc).1 := by
    induction rs with
    | nil => exact fun acc hacc => hacc
    | cons r rs ih =>
      intro acc hacc
      refine ih _ ?_
      simp only [Registry.getIdOrInsert_eq]
      exact hacc.addNode h r
  exact hgen (reg', []) he

end Extends

/-- If the graph can be written, the ids that it stores resolve in its registry, to the nodes that
they were issued for. -/
theorem registered_of_toSerialized (ha : g.Assigns w)
    (halive : ∀ n, g.Stores n → w.heap.Alive n) (h : g.toSerialized K w = .ok ser) :
    g.Registered w := by
  obtain ⟨col, hcol, -⟩ := bind_eq_ok_iff.mp h
  have hloop := foldlM_partial (I := fun rest (acc : Registry × List NodeId) =>
      Extends (w.registries g.registry) acc.1 ∧ ∀ k ∈ g.allNodeIds,
        k ∈ rest ∨ ∃ x, (w.registries g.registry).nodes.get k = some x) hcol
    ⟨⟨fun _ hk => hk, fun _ _ _ hk => hk⟩, fun k hk => Or.inl hk⟩ ?_
  · intro id r hr
    rcases hloop.2 id (Slots.mem_keys.mpr ⟨r, hr⟩) with hnil | ⟨x, hx⟩
    · exact absurd hnil List.not_mem_nil
    · obtain rfl := (ha id r hr).eq x hx
      exact ⟨hx, halive x ⟨id, hr⟩⟩
  · rintro k rest acc acc' hk ⟨hext, hdone⟩ hstep
    obtain ⟨x, hx, hstep⟩ := bind_eq_ok_iff.mp hstep
    obtain rfl := pure_eq_ok_iff.mp hstep
    refine ⟨hext.internAll w.heap _, fun k' hk' => ?_⟩
    rcases hdone k' hk' with hmem | hx'
    · rcases List.mem_cons.mp hmem with rfl | hmem
      · obtain ⟨r, hr⟩ := Slots.mem_keys.mp hk'
        have hget := (Registry.get_eq_some_iff.mp (expect_eq_ok_iff.mp hx)).1
        exact Or.inr ⟨x, hext.get_of_issued k' x (ha k' r hr).issued hget⟩
      · exact Or.inl hmem
    · exact Or.inr hx'

end HistoryGraph

/-! ### Operations of other owners -/

/-- An operation other than its removal keeps the entry of a node that stays alive. -/
theorem entry_of_exec {op : Op N E} (hi : s.Inv) (hen : op.Enabled s) (h : exec A K s op = .ok s')
    {R : RegRef} {id : NodeId} {r : Ref} (hop : op ≠ .remove R id)
    (he : (s.world.registries R).nodes.get id = some r) (hr : s'.world.heap.Alive r)
    (hR : s'.world.RegAlive R) : (s'.world.registries R).nodes.get id = some r := by
  rcases hrem : op.isRemoval with _ | _
  · have hsteps : Steps A K NoRemoval s.config s'.config :=
      exec_steps hi hen (respects_noRemoval hrem) h
    exact Steps.entry hsteps hi (fun h => h) he hr hR
  · cases op with
    | remove R' id' =>
      obtain rfl := pure_eq_ok_iff.mp h
      by_cases hreg : R = R'
      · subst hreg
        have hne : id ≠ id' := fun heq => hop (by rw [heq])
        rw [World.registries_setRegistry_self, Registry.get_remove, if_neg hne]
        exact he
      · rw [World.registries_setRegistry_of_ne _ _ _ hreg]
        exact he
    | _ => cases hrem

/-- The operation does not take a node of the graph, or an ancestor of one, out of the graph's
registry. -/
def HistoryGraph.Spares (g : HistoryGraph) (s : State N E) (op : Op N E) : Prop :=
  ∀ id a, op = .remove g.registry id → (s.world.registries g.registry).nodes.get id = some a →
    ¬ g.IsAncestor s.world a

/-- Any operation but a direct call of `Registry::remove` spares a graph. -/
theorem HistoryGraph.spares_of_isRemoval (g : HistoryGraph) {op : Op N E}
    (h : op.isRemoval = false) : g.Spares s op := by
  rintro id a rfl
  cases h

/-- Such operations keep the entries of ancestors. -/
theorem Run.entry_of_spares {g : HistoryGraph} (h : Run A K g.Spares s s') (hi : s.Inv)
    (hlt : ∀ n, g.Stores n → n < s.world.heap.size) (hR : g.registry < s.world.nregs)
    (halive : ∀ n, g.Stores n → s'.world.heap.Alive n) (hR' : s'.world.RegAlive g.registry)
    {k : NodeId} {a : Ref} (ha : g.IsAncestor s.world a)
    (hk : (s.world.registries g.registry).nodes.get k = some a) :
    (s'.world.registries g.registry).nodes.get k = some a := by
  induction h with
  | refl => exact hk
  | @tail t t' hrun hstep ih =>
    have hit := Run.inv hrun hi
    have hf := Run.frame hrun hi
    have hrun' : Run A K g.Spares t t' := Relation.ReflTransGen.single hstep
    have hf' := Run.frame hrun' hit
    -- the graph's nodes are alive at the end, hence all the time
    have halivet : ∀ n, g.Stores n → t.world.heap.Alive n := fun n hn =>
      hf'.alive n (lt_of_lt_of_le (hlt n hn) hf.size_le) (halive n hn)
    have hkt := ih halivet (hf'.regAlive _ (lt_of_lt_of_le hR hf.nregs_le) hR')
    have hat := (HistoryGraph.isAncestor_of_frame hf hi hit hlt halivet).mpr ha
    have hat' := (HistoryGraph.isAncestor_of_frame (hf.trans hf') hi (Run.inv hrun' hit) hlt
      halive).mpr ha
    obtain ⟨op, hen, hspare, hexec⟩ := hstep
    exact entry_of_exec hit hen hexec (fun hop => hspare k a hop hkt hat) hkt
      (hat'.alive (Run.inv hrun' hit) halive) hR'

/-- **When serialization does not depend on what else lives in the registry.** Take a graph that
can be serialized, and any later state in which other owners have used its registry. Serializing it
again gives the same, up to the ids of ancestors without an entry, exactly when all entries of the
registry are alive and have parents that are registered or ancestors of the graph's nodes. -/
theorem toSerialized_again_iff_of_run {P : State N E → Op N E → Prop}
    (h : Run A K P State.init s) {i : GraphRef} {g : HistoryGraph} (hg : s.graph i = some g)
    {ser : SerializedHistoryGraph N E} (hser : g.toSerialized K s.world = .ok ser)
    (h' : Run A K g.Spares s s') (hg' : s'.graph i = some g) :
    (∃ ser', g.toSerialized K s'.world = .ok ser' ∧ ser'.nodes = ser.nodes ∧
      ∃ ρ, ser.registry.Renames ρ ser'.registry ∧ ∀ k a,
        (s.world.registries g.registry).nodes.get k = some a → g.IsAncestor s.world a → ρ k = k) ↔
      ∀ r, (s'.world.registries g.registry).Has r → s'.world.heap.Alive r ∧
        ∀ p ∈ s'.world.heap.allParents r,
          (s'.world.registries g.registry).Has p ∨ g.IsAncestor s'.world p := by
  have hi := Run.inv h State.inv_init
  have hi' := Run.inv h' hi
  have hf := Run.frame h' hi
  have hassigns : g.Assigns s.world :=
    graphProperty_assigns.run h (fun _ _ _ _ _ => trivial) i g hg
  have hreg : g.Registered s.world :=
    HistoryGraph.registered_of_toSerialized hassigns (fun _ => hi.alive_of_stores hg) hser
  -- an ancestor lives as long as the graph, and its entry was not removed
  have hkeep : ∀ a k, g.IsAncestor s.world a →
      (s.world.registries g.registry).nodes.get k = some a →
      (s'.world.registries g.registry).nodes.get k = some a := fun a k ha hk =>
    h'.entry_of_spares hi (fun n hn => hi.heap.alive_lt n (hi.alive_of_stores hg hn))
      (hi.reg_lt _ (hi.regAlive_of_graph hg)) (fun _ => hi'.alive_of_stores hg')
      (hi'.regAlive_of_graph hg') ha hk
  have hreg' : g.Registered s'.world := fun id r hr =>
    ⟨hkeep r id ⟨r, ⟨id, hr⟩, Reaches.refl r⟩ (hreg id r hr).1, hi'.alive_of_stores hg' ⟨id, hr⟩⟩
  have he := (HistoryGraph.toSerialized_ok_iff hi hreg).mp ⟨ser, hser⟩
  have hagain := he.again_iff hf hi hi' hreg hreg' hkeep
  constructor
  · rintro ⟨ser', hser', -⟩
    exact hagain.mp ((HistoryGraph.toSerialized_ok_iff hi' hreg').mp ⟨ser', hser'⟩)
  · intro hno
    obtain ⟨ser', hser'⟩ :=
      (HistoryGraph.toSerialized_ok_iff (K := K) hi' hreg').mpr (hagain.mpr hno)
    obtain ⟨reg, hw⟩ := HistoryGraph.written_of_toSerialized hi hreg hser
    obtain ⟨reg', hw'⟩ := HistoryGraph.written_of_toSerialized hi' hreg' hser'
    exact ⟨ser', hser', hw'.nodes.trans hw.nodes.symm,
      hw.renames hw' hf hi hi' hreg hreg' he hkeep⟩

/-- A graph with one node, whose parent is not registered. -/
def lowerNode : State ℕ ℕ :=
  State.init.after [.registryNew, .cloneRegistry 0, .new 10, .withParents 20 [(0, 1)],
    .graphNew [1] 0]

/-- A second graph over the registry, with a node and its parent. -/
def lowerNodeAndChain : State ℕ ℕ :=
  lowerNode.after [.new 30, .clone 2, .withParents 40 [(2, 5)], .graphNew [2, 3] 0]

theorem toSerialized_again_iff_of_run_lowerNodeAndChain :
    ∃ g ser, lowerNode.graph 0 = some g ∧ lowerNodeAndChain.graph 0 = some g ∧
      g.toSerialized KeySource.reusing lowerNode.world = .ok ser ∧
      ∃ ser', g.toSerialized KeySource.reusing lowerNodeAndChain.world = .ok ser' ∧
        ser'.nodes = ser.nodes ∧ ∃ ρ, ser.registry.Renames ρ ser'.registry ∧ ρ ⟨1, 1⟩ = ⟨1, 1⟩ := by
  have hrun : Run _ _ (fun _ _ => True) State.init lowerNode :=
    run_after (by decide) fun _ _ _ => trivial
  obtain ⟨g, hg⟩ : ∃ g, lowerNode.graph 0 = some g := Option.isSome_iff_exists.mp (by decide)
  have hrun' : Run _ _ g.Spares lowerNode lowerNodeAndChain :=
    run_after (by decide) fun op hop _ => g.spares_of_isRemoval (by revert op; decide)
  have hg' : lowerNodeAndChain.graph 0 = some g := hg
  have hok : (lowerNode.graph 0).map (fun g =>
    (g.toSerialized KeySource.reusing lowerNode.world).toOption.isSome) = some true := by decide
  have hstored : (lowerNode.graph 0).bind (fun g => g.nodes.get ⟨1, 1⟩) = some 1 := by decide
  have hregistry : (lowerNode.graph 0).map HistoryGraph.registry = some 0 := by decide
  rw [hg] at hok hstored hregistry
  obtain ⟨ser, hser⟩ := Option.isSome_iff_exists.mp (Option.some.inj hok)
  rw [toOption_eq_some_iff] at hser
  have hzero : g.IsAncestor lowerNodeAndChain.world 0 :=
    ⟨1, ⟨⟨1, 1⟩, hstored⟩, Reaches.head (by decide) (Reaches.refl 0)⟩
  obtain ⟨ser', hser', hnodes, ρ, hρ, hfix⟩ :=
    (toSerialized_again_iff_of_run hrun hg hser hrun' hg').mpr (by
      rw [Option.some.inj hregistry]
      rintro r ⟨k, hk⟩
      have hr : r ∈ (lowerNodeAndChain.world.registries 0).nodes.values :=
        Slots.mem_values.mpr ⟨k, hk⟩
      have hentries : ∀ r ∈ (lowerNodeAndChain.world.registries 0).nodes.values,
          lowerNodeAndChain.world.heap.Alive r ∧ ∀ p ∈ lowerNodeAndChain.world.heap.allParents r,
            (lowerNodeAndChain.world.registries 0).nodes.get ⟨2, 1⟩ = some p ∨ p = 0 := by decide
      refine ⟨(hentries r hr).1, fun p hp => ?_⟩
      rcases (hentries r hr).2 p hp with hp | rfl
      · exact Or.inl ⟨_, hp⟩
      · exact Or.inr hzero)
  refine ⟨g, ser, hg, hg', hser, ser', hser', hnodes, ρ, hρ, hfix ⟨1, 1⟩ 1 ?_ ?_⟩
  · rw [Option.some.inj hregistry]
    decide
  · exact ⟨1, ⟨⟨1, 1⟩, hstored⟩, Reaches.refl 1⟩

/-- A graph that contains one root. -/
def loneRoot : State ℕ ℕ :=
  State.init.after [.registryNew, .cloneRegistry 0, .new 10, .graphNew [0] 0]

/-- What another owner may do: add a node without its parent to a second graph, or leave a dead
entry behind. -/
def foreignOps : List (List (Op ℕ ℕ)) :=
  [[.new 20, .withParents 30 [(1, 1)], .graphNew [2] 0], [.new 20, .addNode 0 1, .drop (.node 1)]]

theorem not_toSerialized_again_loneRoot :
    Run AddrSource.lowest KeySource.reusing (fun _ _ => True) State.init loneRoot ∧
    ∃ g ser, loneRoot.graph 0 = some g ∧ g.toSerialized KeySource.reusing loneRoot.world = .ok ser ∧
      ∀ ops ∈ foreignOps,
        Run AddrSource.lowest KeySource.reusing g.Spares loneRoot (loneRoot.after ops) ∧
        (loneRoot.after ops).graph 0 = some g ∧
        ∀ ser', g.toSerialized KeySource.reusing (loneRoot.after ops).world ≠ .ok ser' := by
  have hrun : Run _ _ (fun _ _ => True) State.init loneRoot :=
    run_after (by decide) fun _ _ _ => trivial
  obtain ⟨g, hg⟩ : ∃ g, loneRoot.graph 0 = some g := Option.isSome_iff_exists.mp (by decide)
  have hok : (loneRoot.graph 0).map (fun g =>
    (g.toSerialized KeySource.reusing loneRoot.world).toOption.isSome) = some true := by decide
  rw [hg] at hok
  obtain ⟨ser, hser⟩ := Option.isSome_iff_exists.mp (Option.some.inj hok)
  rw [toOption_eq_some_iff] at hser
  refine ⟨hrun, g, ser, hg, hser, fun ops hops => ?_⟩
  have hpanic : ∀ ops ∈ foreignOps, (loneRoot.graph 0).map (fun g =>
      (g.toSerialized KeySource.reusing (loneRoot.after ops).world).toOption.isNone) =
        some true := by decide
  have hsame : (loneRoot.after ops).graph 0 = some g := by
    simp only [foreignOps, List.mem_cons, List.not_mem_nil, or_false] at hops
    rcases hops with rfl | rfl <;> exact hg
  have hall : ∀ ops ∈ foreignOps,
      (execAll AddrSource.lowest KeySource.reusing loneRoot ops).isSome ∧
        ∀ op ∈ ops, op.isRemoval = false := by decide
  obtain ⟨hexec, hops'⟩ := hall ops hops
  refine ⟨run_after hexec fun op hop _ => g.spares_of_isRemoval (hops' op hop), hsame,
    fun ser' hser' => ?_⟩
  have hnone := hpanic ops hops
  rw [hg, Option.map_some, hser'] at hnone
  cases hnone

end Relrc
