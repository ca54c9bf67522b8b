import Relrc.Codec.RoundTrip

/-!
# Round trips of graphs with a registry of their own

A graph made by `from_nodes` has a registry that nobody else writes to. Then every entry of the
registry is a node of the graph (`Owned`), and `to_serialized` fails only where the traversal of
ancestors is cut short.

`RelRc::all_ancestors` is written as an iterator that ends when it meets a pointer for the second
time, although ancestors that were not listed yet may still be waiting in its queue. So the round
trip works **exactly** when each ancestor is listed, from some node of the graph, before the level
order of that node's ancestor tree first repeats a node (`roundTrips_iff_of_run`). A node with the
parents `a, a, b` is a case where it does not.
-/

namespace Relrc

open SlotStore Ancestry Fallible

variable {N E : Type} {A : AddrSource} {K : KeySource} {P : State N E → Op N E → Prop}
variable {w w' : World N E} {H : Multiset Ref} {G : Multiset RegRef} {s s' t : State N E}

namespace HistoryGraph

variable {g g' : HistoryGraph}

/-! ### Sole owners -/

/-- The graph agrees with its registry, which has no other entries. -/
structure Owned (g : HistoryGraph) (w : World N E) : Prop where
  agrees : g.Agrees w
  stores : ∀ r, (w.registries g.registry).Has r → g.Stores r

/-- What a graph owns it goes on to own when it grows. -/
theorem Owned.grows (ho : g.Owned w) (hgrow : Grows w w' g g') : g'.Owned w' := by
  refine ⟨hgrow.agrees, fun r hr => ?_⟩
  rw [hgrow.registry] at hr
  rcases hgrow.has r hr with hold | hnew
  · obtain ⟨id, hid⟩ := ho.stores r hold
    exact ⟨id, hgrow.mono id r hid⟩
  · exact hnew

/-- A graph made by `from_nodes` owns its registry. -/
theorem owned_fromNodes {nodes : List Ref} (hi : Inv w ((nodes : Multiset Ref) + H) G) :
    (HistoryGraph.fromNodes K w nodes).2.Owned (HistoryGraph.fromNodes K w nodes).1 := by
  have halloc : Steps AddrSource.lowest K (fun _ => True) _ _ :=
    steps_allocRegistry_new w ((nodes : Multiset Ref) + H) G
  have hi' := Steps.inv halloc hi
  rw [← refs_empty_add w.nregs H] at hi'
  have hempty : (⟨Slots.empty, w.nregs⟩ : HistoryGraph).Owned (w.allocRegistry Registry.new) := by
    refine ⟨agrees_empty _, ?_⟩
    rintro r ⟨id, hid⟩
    simp [World.allocRegistry, Registry.new] at hid
  exact hempty.grows (grows_insertNodes hi' (Multiset.mem_cons_self _ _) hempty.agrees)

end HistoryGraph

/-- Writes to registries other than `R`. -/
def AwayFrom (R : RegRef) (a : Access) : Prop := a ≠ .remove R ∧ a ≠ .add R ∧ a ≠ .register R

/-- Only insertions into the graph `i` write to the registry `R`. -/
def OwnerOnly (i : GraphRef) (R : RegRef) (s : State N E) (op : Op N E) : Prop :=
  op.Changes i ∨ Respects (AwayFrom R) s op

/-- What is kept while the graph `i` is the only one that writes to `R`. -/
structure State.OwnedAt (s : State N E) (i : GraphRef) (R : RegRef) : Prop where
  lt : i < s.graphs.length
  regLt : R < s.world.nregs
  owned : ∀ g, s.graph i = some g → g.registry = R ∧ g.Owned s.world

/-- Operations that leave the registry to the graph keep it so. -/
theorem exec_ownedAt {op : Op N E} {i : GraphRef} {R : RegRef} (hi : s.Inv) (ho : s.OwnedAt i R)
    (hen : op.Enabled s) (hop : OwnerOnly i R s op) (h : exec A K s op = .ok s') :
    s'.OwnedAt i R := by
  have hsteps : Steps A K (fun _ => True) s.config s'.config :=
    exec_steps hi hen (fun _ _ => trivial) h
  have hregLt : R < s'.world.nregs := lt_of_lt_of_le ho.regLt (Steps.frame hsteps hi).nregs_le
  by_cases hch : op.Changes i
  · rcases exec_graphs hen h with ⟨-, hno⟩ | ⟨g, -, hmake⟩ | ⟨j, g, x, hj, hset, hturn⟩
    · exact absurd hch (hno i)
    · cases hmake <;> exact absurd hch fun h => h
    · obtain rfl : j = i := by cases hturn <;> exact hch
      refine ⟨by rw [hset, List.length_set]; exact ho.lt, hregLt, fun g' hg' => ?_⟩
      rw [State.graph_of_set hj hset, if_pos rfl] at hg'
      obtain ⟨hreg, hown⟩ := ho.owned g hj
      -- insertions let the graph grow
      have hgrow : HistoryGraph.Grows s.world s'.world g g' := by
        cases hturn with
        | insertNode node g'' hnode hins =>
          obtain rfl := Option.some.inj hg'
          obtain ⟨H, hheld⟩ := State.exists_held hj hnode
          rw [State.Inv, State.config, hheld, Multiset.add_cons] at hi
          have hgrow :=
            HistoryGraph.grows_insertNode (K := K) hi (State.registry_mem hj) hown.agrees
          rwa [hins] at hgrow
        | insertAncestors node id g'' hnode hins =>
          obtain rfl := Option.some.inj hg'
          obtain ⟨H, hheld⟩ := State.exists_held hj hnode
          rw [State.Inv, State.config, hheld] at hi
          exact HistoryGraph.grows_insertAncestors hi (State.registry_mem hj) hown.agrees hins
        | drop => cases hg'
      exact ⟨hgrow.registry.trans hreg, hown.grows hgrow⟩
  · -- the graph and its registry are left alone; entries can only disappear with their nodes
    obtain ⟨hgraph, hlt⟩ := exec_graph_eq ho.lt hen hch h
    have haway : Steps A K (AwayFrom R) s.config s'.config :=
      exec_steps hi hen (hop.resolve_left hch) h
    have hi' : s'.Inv := Steps.inv haway hi
    refine ⟨hlt, hregLt, fun g hg => ?_⟩
    obtain ⟨hreg, hown⟩ := ho.owned g (hgraph ▸ hg)
    refine ⟨hreg, hown.agrees.steps haway hi ?_ (fun r hr => hi'.alive_of_stores hg hr)
      (hi'.regAlive_of_graph hg), fun r hr => ?_⟩
    · rw [hreg]
      exact fun h => h.1 rfl
    · rw [hreg] at hr
      rcases Steps.has_cases haway hi ho.regLt (fun h => h.2.1 rfl) hr with hold | hno
      · exact hown.stores r (by rw [hreg]; exact hold)
      · exact absurd rfl hno.2.2

theorem Run.ownedAt {i : GraphRef} {R : RegRef} (h : Run A K (OwnerOnly i R) s s') (hi : s.Inv)
    (ho : s.OwnedAt i R) : s'.OwnedAt i R := by
  induction h with
  | refl => exact ho
  | tail hrun hstep ih =>
    obtain ⟨op, hen, hop, hexec⟩ := hstep
    exact exec_ownedAt (Run.inv hrun hi) ih hen hop hexec

/-- The new graph, which is the last one, owns its registry, which is the newest. -/
theorem exec_graphFromNodes_ownedAt {nodes : List Ref} (hi : s.Inv)
    (hen : Op.Enabled s (.graphFromNodes nodes))
    (h : exec A K s (.graphFromNodes nodes) = .ok s') :
    s'.OwnedAt s.graphs.length s.world.nregs := by
  have hsteps : Steps A K (fun _ => True) s.config s'.config :=
    exec_steps hi hen (fun _ _ => trivial) h
  have hi' : s'.Inv := Steps.inv hsteps hi
  obtain rfl := pure_eq_ok_iff.mp h
  have hgraph : ({ s with handles := s.handles - nodeHandles nodes }.addGraph
      (HistoryGraph.fromNodes K s.world nodes).1 (HistoryGraph.fromNodes K s.world nodes).2).graph
      s.graphs.length = some (HistoryGraph.fromNodes K s.world nodes).2 :=
    (State.graph_of_append (s := s) rfl).trans (if_pos rfl)
  rw [State.Inv, State.config, State.held_of_le hen] at hi
  have hfrom : Steps A K (fun _ => True) _ _ ∧
      (HistoryGraph.fromNodes K s.world nodes).2.registry = s.world.nregs :=
    steps_fromNodes hi trivial
  have hreg := hfrom.2
  refine ⟨by simp [State.addGraph], ?_, fun g hg => ?_⟩
  · rw [← hreg]
    exact hi'.reg_lt _ (hi'.regAlive_of_graph hgraph)
  · rw [hgraph] at hg
    obtain rfl := Option.some.inj hg
    exact ⟨hreg, HistoryGraph.owned_fromNodes hi⟩

/-! ### The exact condition -/

namespace HistoryGraph

variable {g : HistoryGraph}

/-- Every ancestor is listed, from some node of the graph, before the level order of that node's
ancestor tree first repeats a node. -/
def BeforeRepetition (g : HistoryGraph) (w : World N E) : Prop :=
  ∀ a, g.IsAncestor w a → ∃ n, g.Stores n ∧
    ∃ p, p <+: levels w.heap.allParents (n + 1) [n] ∧ p.Nodup ∧ a ∈ p

/-- All ancestors are visited just when they are listed before the first repetition. -/
theorem complete_iff (hi : Inv w H G) (hg : g.Registered w) :
    g.Complete w ↔ g.BeforeRepetition w := by
  refine forall₂_congr fun a _ => ?_
  rw [mem_visited]
  exact exists_congr fun n => and_congr_right fun hn => hi.mem_allAncestors_iff (hg.alive hn)

/-- With a registry of its own, a graph can be encoded exactly when all ancestors are visited. -/
theorem Owned.encodable_iff (ho : g.Owned w) (hi : Inv w H G) : g.Encodable w ↔ g.Complete w := by
  have hg : g.Registered w := ho.agrees.registered hi
  have hvis : ∀ r, (w.registries g.registry).Has r ∨ r ∈ g.visited w → r ∈ g.visited w :=
    fun r hr => hr.elim (fun h => stores_mem_visited hi hg (ho.stores r h)) fun h => h
  constructor
  · rintro he a ⟨n, hn, hna⟩
    refine Reaches.mem_of_closed (fun x hx p hp => ?_) (stores_mem_visited hi hg hn) hna
    exact hvis p ((he x (Or.inr hx)).2 p hp)
  · intro hfull r hr
    have hanc := (mem_visited_iff hi hg hfull).mp (hvis r hr)
    refine ⟨hi.alive_of_mem_visited (fun x hx => hg.alive hx) (hvis r hr), fun p hp => ?_⟩
    exact Or.inr (hfull p (hanc.parent hp))

/-- The graph survives the round trip: it can be encoded, the ids written are those of its nodes
and of ids given to their ancestors, and whichever program decodes the file gets a copy of the DAG
under the same ids. -/
def RoundTrips (K : KeySource) (w : World N E) (g : HistoryGraph) : Prop :=
  ∃ ser, g.toSerialized K w = .ok ser ∧
    (∃ ids : Ref → NodeId, (∀ k n, g.nodes.get k = some n → ids n = k) ∧
      (∀ a b, g.IsAncestor w a → g.IsAncestor w b → ids a = ids b → a = b) ∧
      ∀ k, (∃ sd, ser.registry.nodes.get k = some sd) ↔ ∃ a, g.IsAncestor w a ∧ ids a = k) ∧
    (∀ k sd, ser.registry.nodes.get k = some sd → ∀ pe ∈ sd.incoming,
      ∃ sp, ser.registry.nodes.get pe.1 = some sp) ∧
    ∀ (A' : AddrSource) (K' : KeySource) (t : State N E),
      Run A' K' (fun _ _ => True) State.init t →
      ∃ w' g', HistoryGraph.fromSerialized A' K' t.world ser = .ok (w', g') ∧
        (∀ k, (∃ n, g'.nodes.get k = some n) ↔ ∃ n, g.nodes.get k = some n) ∧
        ∃ f, Copies w.heap w'.heap (g.IsAncestor w) f ∧
          ∀ k n, g.nodes.get k = some n → g'.nodes.get k = some (f n)

/-- The ids given to the ancestors. -/
theorem Written.exists_ids {reg : Registry} {ser : SerializedHistoryGraph N E}
    (hw : Written w g reg ser) (hi : Inv w H G) (hg : g.Registered w) (he : g.Encodable w)
    (hfull : g.Complete w) : ∃ ids : Ref → NodeId, (∀ k n, g.nodes.get k = some n → ids n = k) ∧
      (∀ a b, g.IsAncestor w a → g.IsAncestor w b → ids a = ids b → a = b) ∧
      ∀ k, (∃ sd, ser.registry.nodes.get k = some sd) ↔ ∃ a, g.IsAncestor w a ∧ ids a = k := by
  obtain ⟨ids, hids⟩ : ∃ ids : Ref → NodeId, ∀ k a, reg.nodes.get k = some a → ids a = k := by
    refine ⟨fun a => (reg.getId w.heap a).getD ⟨0, 0⟩, fun k a hk => ?_⟩
    have hid : reg.getId w.heap a = some k := hw.faithful.inverse.ptr_of_node k a hk
    simp only [hid, Option.getD_some]
  have hentry : ∀ a, g.IsAncestor w a → reg.nodes.get (ids a) = some a := by
    intro a ha
    obtain ⟨k, -, hk, -⟩ := hw.exists_key hi he (hfull a ha)
    rw [hids k a hk, hk]
  refine ⟨ids, fun k n hn => hids k n (hw.mono k n (hg k n hn).1), fun a b ha hb hab => ?_,
    fun k => ?_⟩
  · have hka := hentry a ha
    rw [hab, hentry b hb] at hka
    exact (Option.some.inj hka).symm
  · rw [hw.mem_keys_iff hi he]
    constructor
    · rintro ⟨a, ha, hk⟩
      exact ⟨a, (mem_visited_iff hi hg hfull).mp ha, hids k a hk⟩
    · rintro ⟨a, ha, rfl⟩
      exact ⟨a, hfull a ha, hentry a ha⟩

/-- A graph that owns its registry gets through just when all ancestors come before a repetition. -/
theorem Owned.roundTrips_iff (ho : g.Owned w) (hi : Inv w H G) :
    g.RoundTrips K w ↔ g.BeforeRepetition w := by
  have hg : g.Registered w := ho.agrees.registered hi
  rw [← complete_iff hi hg, ← ho.encodable_iff hi]
  constructor
  · rintro ⟨ser, hser, -⟩
    exact (toSerialized_ok_iff hi hg).mp ⟨ser, hser⟩
  · intro he
    have hfull := (ho.encodable_iff hi).mp he
    obtain ⟨ser, hser⟩ := (toSerialized_ok_iff (K := K) hi hg).mpr he
    obtain ⟨reg, hw⟩ := written_of_toSerialized hi hg hser
    have hwf := hw.wellFormed hi hg he hfull
    refine ⟨ser, hser, hw.exists_ids hi hg he hfull, hwf.closed, fun A' K' t ht => ?_⟩
    have hit := Run.inv ht State.inv_init
    obtain ⟨w', g', nodes, hdec, hr, -⟩ := fromSerialized_ok (A := A') (K := K') hwf
      (fun k hk => hw.exists_of_mem_nodes hi hg he hk) hit
    obtain ⟨hsteps, -⟩ : Steps A' K' (fun _ => True) _ _ ∧ _ :=
      steps_graphFromSerialized hit hdec fun _ _ => trivial
    obtain ⟨f, hcopies, hstored, hback⟩ := hr.copies (Steps.inv hsteps hit) hw hi hg he hfull
    exact ⟨w', g', hdec, fun k => ⟨hback k, fun ⟨n, hn⟩ => ⟨f n, hstored k n hn⟩⟩, f, hcopies,
      hstored⟩

end HistoryGraph

/-- **When partial graphs survive the round trip.** A graph that was made by `from_nodes` and is
the only one to write to its registry does so exactly when the traversal of ancestors is not cut
short. -/
theorem roundTrips_iff_of_run (h : Run A K P State.init s) {nodes : List Ref}
    (hen : Op.Enabled s (.graphFromNodes nodes))
    (hnew : exec A K s (.graphFromNodes nodes) = .ok s')
    (hrun : Run A K (OwnerOnly s.graphs.length s.world.nregs) s' t) {g : HistoryGraph}
    (hg : t.graph s.graphs.length = some g) :
    g.RoundTrips K t.world ↔ g.BeforeRepetition t.world := by
  have hi := Run.inv h State.inv_init
  have hi' : s'.Inv := Run.inv (P := fun _ _ => True)
    (Relation.ReflTransGen.single ⟨_, hen, trivial, hnew⟩) hi
  have ho := Run.ownedAt hrun hi' (exec_graphFromNodes_ownedAt hi hen hnew)
  exact (ho.owned g hg).2.roundTrips_iff (Run.inv hrun hi')

/-- A diamond of which the graph is given the bottom node and one of the middle ones. -/
def diamond : State ℕ ℕ :=
  State.init.after [.new 10, .clone 0, .withParents 20 [(0, 1)], .withParents 21 [(0, 2)], .clone 1,
    .withParents 30 [(1, 3), (2, 4)]]

/-- The graph over the diamond. -/
def diamondGraph : State ℕ ℕ := (diamond.after [.graphFromNodes [3]]).after [.insertNode 0 1]

theorem roundTrips_iff_of_run_diamond :
    ∃ g, diamondGraph.graph 0 = some g ∧ g.allNodeIds = [⟨1, 1⟩, ⟨2, 1⟩] ∧
      g.RoundTrips KeySource.reusing diamondGraph.world := by
  have hrun : Run _ _ (fun _ _ => True) State.init diamond :=
    run_after (by decide) fun _ _ _ => trivial
  have hnew : exec AddrSource.lowest KeySource.reusing diamond (.graphFromNodes [3]) =
    .ok (diamond.after [.graphFromNodes [3]]) := rfl
  have hinsert : Run AddrSource.lowest KeySource.reusing (OwnerOnly 0 0)
      (diamond.after [.graphFromNodes [3]]) diamondGraph := by
    refine run_after (by decide) fun op hop _ => Or.inl ?_
    rw [List.mem_singleton.mp hop]
    rfl
  obtain ⟨g, hg⟩ : ∃ g, diamondGraph.graph 0 = some g :=
    Option.isSome_iff_exists.mp (by decide)
  have hi : diamondGraph.Inv := Run.inv hinsert (Run.inv (P := fun _ _ => True)
    (Relation.ReflTransGen.single ⟨_, by decide, trivial, hnew⟩) (Run.inv hrun State.inv_init))
  have hids : (diamondGraph.graph 0).map HistoryGraph.allNodeIds = some [⟨1, 1⟩, ⟨2, 1⟩] := by
    decide
  have hthree : (diamondGraph.graph 0).bind (fun g => g.nodes.get ⟨1, 1⟩) = some 3 := by decide
  rw [hg] at hids hthree
  refine ⟨g, hg, Option.some.inj hids,
    (roundTrips_iff_of_run hrun (by decide) hnew hinsert hg).mpr ?_⟩
  rintro a ⟨n, hn, hna⟩
  have ha : a < 4 := lt_of_le_of_lt (hi.heap.le_of_reaches hna)
    (hi.heap.alive_lt n (hi.alive_of_stores hg hn))
  have hmem : ∀ a < 4, a ∈ [3, 1, 2, 0] := by decide
  exact ⟨3, ⟨⟨1, 1⟩, hthree⟩, [3, 1, 2, 0], ⟨[0], by decide⟩, by decide, hmem a ha⟩

/-- A node whose first two parents are the same, and whose third is not. -/
def repeatedParent : State ℕ ℕ :=
  State.init.after [.new 10, .new 20, .clone 0, .withParents 30 [(0, 1), (0, 2), (1, 3)]]

theorem not_roundTrips_repeatedParent :
    Run AddrSource.lowest KeySource.reusing (fun _ _ => True) State.init repeatedParent ∧
    Op.Enabled repeatedParent (.graphFromNodes [2]) ∧
    ∃ s' g, exec AddrSource.lowest KeySource.reusing repeatedParent (.graphFromNodes [2]) = .ok s' ∧
      s'.graph 0 = some g ∧ ¬ g.RoundTrips KeySource.reusing s'.world := by
  have hrun : Run _ _ (fun _ _ => True) State.init repeatedParent :=
    run_after (by decide) fun _ _ _ => trivial
  set s' := repeatedParent.after [.graphFromNodes [2]] with hs'
  obtain ⟨g, hg⟩ : ∃ g, s'.graph 0 = some g := Option.isSome_iff_exists.mp (by decide)
  have hpanic : (s'.graph 0).map (fun g =>
    (g.toSerialized KeySource.reusing s'.world).toOption.isNone) = some true := by decide
  rw [hg] at hpanic
  refine ⟨hrun, by decide, s', g, rfl, hg, ?_⟩
  rintro ⟨ser, hser, -⟩
  rw [Option.map_some, hser] at hpanic
  cases hpanic

end Relrc
