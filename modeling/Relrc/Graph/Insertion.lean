import Relrc.Edges

/-!
# Graphs and their registry

A graph `Agrees` with its registry when every node it stores was registered there, by
`try_register_in`, under the id it is stored with. `insert_node` and everything built on it keep
the agreement, and so does every run without `Registry::remove`, since a graph keeps its nodes
alive.

In an agreeing graph no insertion displaces an entry: two keys of a secondary map can only clash
when they belong to the same slot of the registry, and a slot holds one node at a time.
-/

namespace Relrc

open SlotStore Ancestry Fallible

variable {N E : Type} {A : AddrSource} {K : KeySource} {ok : Access → Prop}
variable {w w' : World N E} {H : Multiset Ref} {G : Multiset RegRef} {X : Exempt}
variable {g g' : HistoryGraph}

namespace HistoryGraph

/-- The graph stores the node. -/
def Stores (g : HistoryGraph) (r : Ref) : Prop := ∃ id, g.nodes.get id = some r

/-- Every stored node is registered under the id it is stored with. -/
def Agrees (g : HistoryGraph) (w : World N E) : Prop :=
  ∀ id r, g.nodes.get id = some r → Tracked w g.registry id r

theorem mem_refs_iff {r : Ref} : r ∈ g.refs ↔ g.Stores r := Slots.mem_values

theorem not_stores_empty (R : RegRef) (r : Ref) : ¬ (⟨Slots.empty, R⟩ : HistoryGraph).Stores r := by
  rintro ⟨id, h⟩
  cases h

theorem agrees_empty (R : RegRef) : (⟨Slots.empty, R⟩ : HistoryGraph).Agrees w := by
  intro id r h
  cases h

namespace Agrees

/-- A run that keeps the nodes and the registry of the graph keeps the agreement. -/
theorem steps {c c' : Config N E} (ha : g.Agrees c.world) (h : Steps A K ok c c') (hi : c.Inv X)
    (hok : NoRemove ok g.registry) (hrefs : ∀ r, g.Stores r → c'.world.heap.Alive r)
    (hreg : c'.world.RegAlive g.registry) : g.Agrees c'.world := fun id r hr =>
  (Steps.tracked h hi hok (ha id r hr) hreg).1 (hrefs r ⟨id, hr⟩)

/-- A node is stored once. -/
theorem id_eq (ha : g.Agrees w) (hi : Inv w H G X) {id id' : NodeId} {r : Ref}
    (h : g.nodes.get id = some r) (h' : g.nodes.get id' = some r) : id = id' :=
  (hi.inverse g.registry).id_eq (ha id r h).entry (ha id' r h').entry

/-- `get_node_id` answers the id under which the node is stored. -/
theorem getNodeId_eq_some_iff (ha : g.Agrees w) (hi : Inv w H G X) {r : Ref} (hr : w.heap.Alive r)
    {id : NodeId} : g.getNodeId w r = some id ↔ g.nodes.get id = some r := by
  have hget : ∀ id, (w.registries g.registry).getId w.heap r = some id ↔
      (w.registries g.registry).nodes.get id = some r :=
    fun id => hi.getId_eq_some_iff (Inv.inUse_of_alive hr)
  rw [HistoryGraph.getNodeId]
  constructor
  · intro h
    split at h
    · rename_i id' hid'
      split_ifs at h with hc
      obtain rfl := Option.some.inj h
      obtain ⟨x, hx⟩ := Slots.contains_iff.mp hc
      have hentry := (ha id' x hx).entry
      rw [(hget id').mp hid'] at hentry
      rwa [Option.some.inj hentry]
    · cases h
  · intro h
    rw [(hget id).mpr (ha id r h).entry]
    simp only
    rw [if_pos (Slots.contains_iff.mpr ⟨r, h⟩)]

/-- A node without an id in the graph is not in the graph. -/
theorem getNodeId_eq_none_iff (ha : g.Agrees w) (hi : Inv w H G X) {r : Ref} (hr : w.heap.Alive r) :
    g.getNodeId w r = none ↔ ¬ g.Stores r := by
  rw [Option.eq_none_iff_forall_ne_some, HistoryGraph.Stores, not_exists]
  exact forall_congr' fun id => not_congr (ha.getNodeId_eq_some_iff hi hr)

/-- **`contains` is membership.** -/
theorem contains_iff (ha : g.Agrees w) (hi : Inv w H G X) {r : Ref} (hr : w.heap.Alive r) :
    g.contains w r = true ↔ g.Stores r := by
  have hcontains : g.contains w r = (g.getNodeId w r).isSome := by
    rw [HistoryGraph.contains, HistoryGraph.getNodeId]
    split
    · rename_i id hid
      rw [HistoryGraph.containsId]
      split_ifs with hc
      · exact hc
      · simpa using hc
    · rfl
  rw [hcontains, Option.isSome_iff_exists, HistoryGraph.Stores]
  exact exists_congr fun id => ha.getNodeId_eq_some_iff hi hr

/-- The slot of a node that is registered but not stored is vacant. -/
theorem vacant (ha : g.Agrees w) {id : NodeId} {r : Ref} (ht : Tracked w g.registry id r)
    (hr : ¬ g.Stores r) : g.nodes.slot id.idx = none := by
  refine Slots.vacant_of_forall fun k x hk hidx => hr ?_
  have hentry := (ha k x hk).entry
  obtain rfl := Slots.key_eq_of_idx_eq hentry ht.entry hidx
  rw [ht.entry] at hentry
  exact ⟨k, by rw [hk, Option.some.inj hentry]⟩

end Agrees

/-! ### Inserting one node -/

/-- Registering any node, in any registry, does no harm. -/
theorem agrees_tryRegisterIn (ha : g.Agrees w) (r : Ref) (R : RegRef) :
    g.Agrees (w.tryRegisterIn K r R).2 := fun id x hx =>
  ⟨World.slot_tryRegisterIn_of_some w r R (ha id x hx).slot,
    World.get_tryRegisterIn w r R (ha id x hx).entry⟩

/-- The three outcomes of `insert_node`. -/
theorem insertNode_cases (hi : Inv w H G X) (ha : g.Agrees w) {node : Ref}
    (hnode : w.heap.Alive node) (hR : w.RegAlive g.registry) :
    (∃ id, g.nodes.get id = some node ∧ g.insertNode K w node = (some id, w.drop node, g)) ∨
    (¬ g.Stores node ∧ (∃ R, w.heap.slot node = some R ∧ R ≠ g.registry) ∧
      g.insertNode K w node = (none, w.drop node, g)) ∨
    (¬ g.Stores node ∧ (w.heap.slot node = none ∨ w.heap.slot node = some g.registry) ∧
      ∃ id, (w.tryRegisterIn K node g.registry).1 = some id ∧
        Tracked (w.tryRegisterIn K node g.registry).2 g.registry id node ∧
        g.nodes.slot id.idx = none ∧
        g.insertNode K w node = (some id, (w.tryRegisterIn K node g.registry).2,
          { g with nodes := g.nodes.insert id node })) := by
  rcases hstored : g.getNodeId w node with _ | id
  · have hnot := (ha.getNodeId_eq_none_iff hi hnode).mp hstored
    rcases w.tryRegisterIn_cases (K := K) node g.registry with ⟨R, hslot, hne, heq⟩ | hreg
    · refine Or.inr (Or.inl ⟨hnot, ⟨R, hslot, hne⟩, ?_⟩)
      simp only [insertNode, hstored, heq]
    · obtain ⟨id, hid⟩ : ∃ id, (w.tryRegisterIn K node g.registry).1 = some id := by
        rcases hreg with ⟨-, heq⟩ | ⟨-, heq⟩ <;> exact ⟨_, by rw [heq]⟩
      have ht := tracked_tryRegisterIn hi hnode hR hid
      -- a key of the registry that is new to the graph is at a free slot of it
      have hvacant := (agrees_tryRegisterIn ha node g.registry).vacant ht hnot
      refine Or.inr (Or.inr ⟨hnot, ?_, id, hid, ht, hvacant, ?_⟩)
      · exact hreg.elim (fun h => Or.inr h.1) fun h => Or.inl h.1
      · have hpair : w.tryRegisterIn K node g.registry =
            (some id, (w.tryRegisterIn K node g.registry).2) := by rw [← hid]
        rw [insertNode, hstored]
        simp only
        rw [hpair]
        simp only [Slots.evicted_of_vacant hvacant, Option.toList_none]
        rfl
  · refine Or.inl ⟨id, (ha.getNodeId_eq_some_iff hi hnode).mp hstored, ?_⟩
    simp only [insertNode, hstored]

/-- The graph has grown: the entries it had are still there, it agrees with its registry, and
what is new in the registry is in the graph. -/
structure Grows (w w' : World N E) (g g' : HistoryGraph) : Prop where
  agrees : g'.Agrees w'
  mono : ∀ id r, g.nodes.get id = some r → g'.nodes.get id = some r
  registry : g'.registry = g.registry
  has : ∀ r, (w'.registries g.registry).Has r → (w.registries g.registry).Has r ∨ g'.Stores r

theorem Grows.trans {w'' : World N E} {g'' : HistoryGraph} (h : Grows w w' g g')
    (h' : Grows w' w'' g' g'') : Grows w w'' g g'' where
  agrees := h'.agrees
  mono id r hr := h'.mono id r (h.mono id r hr)
  registry := h'.registry.trans h.registry
  has r hr := by
    rw [← h.registry] at hr
    rcases h'.has r hr with hr | hr
    · rw [h.registry] at hr
      rcases h.has r hr with hr | ⟨id, hid⟩
      · exact Or.inl hr
      · exact Or.inr ⟨id, h'.mono id r hid⟩
    · exact Or.inr hr

theorem Agrees.grows (ha : g.Agrees w) : Grows w w g g :=
  ⟨ha, fun _ _ hr => hr, rfl, fun _ hr => Or.inl hr⟩

/-- Runs that write to no registry take entries away at most. -/
theorem Grows.steps {v : World N E} {c c' : Config N E} (hgrow : Grows v c.world g g')
    (h : Steps A K (fun _ => False) c c') (hi : c.Inv X)
    (hrefs : ∀ r, g'.Stores r → c'.world.heap.Alive r) (hg : g'.registry ∈ c.regs)
    (hreg : c'.world.RegAlive g'.registry) : Grows v c'.world g g' := by
  refine ⟨hgrow.agrees.steps h hi (fun h => h) hrefs hreg, hgrow.mono, hgrow.registry,
    fun r hr => ?_⟩
  have hlt := hi.reg_lt _ (hi.regAlive_of_mem hg)
  rw [hgrow.registry] at hlt
  exact hgrow.has r ((Steps.has_cases h hi hlt (fun h => h) hr).resolve_right fun h => h)

/-- Dropping another reference is no growth. -/
theorem Agrees.grows_drop (ha : g.Agrees w) {r : Ref} (hi : Inv w (r ::ₘ (g.refs + H)) G X)
    (hg : g.registry ∈ G) : Grows w (w.drop r) g g := by
  have hsteps : Steps AddrSource.lowest KeySource.reusing (fun _ => False)
      ⟨w, r ::ₘ (g.refs + H), G⟩ ⟨w.drop r, g.refs + H, G⟩ := steps_drop hi
  have hi' := Steps.inv hsteps hi
  exact ha.grows.steps hsteps hi (fun x hx => hi'.heap.alive_of_held
    (Multiset.mem_add.mpr (Or.inl (mem_refs_iff.mpr hx)))) hg (hi'.regAlive_of_mem hg)

/-- Inserting a node keeps those that are there, under their ids. -/
theorem grows_insertNode {node : Ref} (hi : Inv w (node ::ₘ (g.refs + H)) G X)
    (hg : g.registry ∈ G) (ha : g.Agrees w) :
    Grows w (g.insertNode K w node).2.1 g (g.insertNode K w node).2.2 := by
  have hnode : w.heap.Alive node := hi.heap.alive_of_held (Multiset.mem_cons_self _ _)
  rcases insertNode_cases (K := K) hi ha hnode (hi.regAlive_of_mem hg) with
    ⟨id, -, heq⟩ | ⟨-, -, heq⟩ | ⟨-, -, id, -, ht, hvacant, heq⟩
  · rw [heq]
    exact ha.grows_drop hi hg
  · rw [heq]
    exact ha.grows_drop hi hg
  · rw [heq]
    have ha' := agrees_tryRegisterIn (K := K) ha node g.registry
    refine ⟨fun k x hx => ?_, fun k x hx => ?_, rfl, fun x hx => ?_⟩
    · rw [Slots.get_insert_of_vacant hvacant] at hx
      split_ifs at hx with hk
      · obtain rfl := Option.some.inj hx
        rw [hk]
        exact ht
      · exact ha' k x hx
    · rw [Slots.get_insert_of_vacant hvacant]
      split_ifs with hk
      · rw [hk, Slots.get_eq_none_of_vacant hvacant] at hx
        cases hx
      · exact hx
    · obtain ⟨k, hk⟩ := hx
      rcases World.get_of_tryRegisterIn w node g.registry hk with hold | ⟨rfl, -⟩
      · exact Or.inl ⟨k, hold⟩
      · exact Or.inr ⟨id, by rw [Slots.get_insert_of_vacant hvacant, if_pos rfl]⟩

/-- Which nodes `insert_node` stores. -/
theorem stores_insertNode {node : Ref} (hi : Inv w (node ::ₘ (g.refs + H)) G X)
    (hg : g.registry ∈ G) (ha : g.Agrees w) {x : Ref} :
    (g.insertNode K w node).2.2.Stores x ↔
      g.Stores x ∨ x = node ∧ (g.insertNode K w node).1.isSome := by
  have hnode : w.heap.Alive node := hi.heap.alive_of_held (Multiset.mem_cons_self _ _)
  rcases insertNode_cases (K := K) hi ha hnode (hi.regAlive_of_mem hg) with
    ⟨id, hid, heq⟩ | ⟨-, -, heq⟩ | ⟨-, -, id, -, ht, hvacant, heq⟩
  · rw [heq]
    simp only [Option.isSome_some, and_true]
    exact ⟨Or.inl, fun h => h.elim (fun h => h) fun h => ⟨id, by rw [hid, h]⟩⟩
  · rw [heq]
    simp
  · rw [heq]
    simp only [Option.isSome_some, and_true]
    constructor
    · rintro ⟨k, hk⟩
      rw [Slots.get_insert_of_vacant hvacant] at hk
      split_ifs at hk with hkid
      · exact Or.inr (Option.some.inj hk).symm
      · exact Or.inl ⟨k, hk⟩
    · rintro (⟨k, hk⟩ | rfl)
      · refine ⟨k, ?_⟩
        rw [Slots.get_insert_of_vacant hvacant, if_neg, hk]
        rintro rfl
        rw [Slots.get_eq_none_of_vacant hvacant] at hk
        cases hk
      · exact ⟨id, by rw [Slots.get_insert_of_vacant hvacant, if_pos rfl]⟩

/-! ### Properties kept by insertions -/

/-- A property of graphs that insertions keep, and that runs keep for as long as the graph holds
its nodes and its registry. -/
structure Stable (K : KeySource) (ok : Access → Prop) (Q : World N E → HistoryGraph → Prop) :
    Prop where
  insertNode : ∀ {w H G X g node}, Inv w (node ::ₘ (g.refs + H)) G X → g.registry ∈ G → Q w g →
    Q (g.insertNode K w node).2.1 (g.insertNode K w node).2.2
  steps : ∀ {A : AddrSource} {X : Exempt} {c c' : Config N E} {g : HistoryGraph},
    Steps A K ok c c' → c.Inv X →
    (∀ r, g.Stores r → c'.world.heap.Alive r) → g.registry ∈ c.regs →
    c'.world.RegAlive g.registry → Q c.world g → Q c'.world g

namespace Stable

variable {Q : World N E → HistoryGraph → Prop}

/-- Runs that leave the graph and its registry reference alone. -/
theorem steps_of_held (hQ : Stable K ok Q) (h : Steps A K ok ⟨w, H, G⟩ ⟨w', g.refs + H', G⟩)
    (hi : Inv w H G X) (hg : g.registry ∈ G) (hq : Q w g) : Q w' g := by
  have hi' := Steps.inv h hi
  exact hQ.steps h hi (fun r hr => hi'.heap.alive_of_held
    (Multiset.mem_add.mpr (Or.inl (mem_refs_iff.mpr hr)))) hg (hi'.regAlive_of_mem hg) hq

/-- A property that one insertion keeps is kept by many. -/
theorem insertNodes (hQ : Stable K ok Q) {nodes : List Ref}
    (hi : Inv w ((nodes : Multiset Ref) + (g.refs + H)) G X) (hg : g.registry ∈ G) (hq : Q w g) :
    Q (g.insertNodes K w nodes).1 (g.insertNodes K w nodes).2 := by
  induction nodes generalizing w g with
  | nil => exact hq
  | cons node nodes ih =>
    rw [← Multiset.cons_coe, Multiset.cons_add, add_left_comm] at hi
    have hsteps : Steps AddrSource.lowest K (fun _ => True) _ _ := steps_insertNode hi hg trivial
    have hi' := Steps.inv hsteps hi
    rw [add_left_comm] at hi'
    have hq' := hQ.insertNode hi hg hq
    rw [← registry_insertNode (K := K) g w node] at hg
    exact ih hi' hg hq'

/-- It is kept by the insertion of a node with its ancestors. -/
theorem insertAncestors (hQ : Stable K ok Q) {node : Ref} {id : NodeId}
    (hi : Inv w (g.refs + (node ::ₘ H)) G X) (hg : g.registry ∈ G) (hq : Q w g)
    (h : g.insertAncestors K w node = .ok (id, w', g')) : Q w' g' := by
  -- along the way, keep the run for the memory invariant
  have hrule : GraphRun AddrSource.lowest K (fun _ => True) w (node ::ₘ H) G g w' H g' ∧
      Q w' g' := by
    have hkeep : ∀ w' H' g',
        GraphRun AddrSource.lowest K (fun _ => True) w (node ::ₘ H) G g w' H' g' →
        Inv w' (g'.refs + H') G X ∧ g'.registry ∈ G := fun w' H' g' hrun =>
      ⟨Steps.inv hrun.steps hi, hrun.registry ▸ hg⟩
    refine insertAncestorsAux_rule (v := w) (G := G) (X := X) (I := fun w' H' g' =>
      GraphRun AddrSource.lowest K (fun _ => True) w (node ::ₘ H) G g w' H' g' ∧ Q w' g')
      ?_ ?_ ?_ ?_ (node + 1) (hi.heap.alive_lt node (hi.heap.alive_of_held (by simp))) h
      ⟨⟨Relation.ReflTransGen.refl, rfl⟩, hq⟩
    · exact fun w' H' g' hI => ⟨(hkeep w' H' g' hI.1).1, Steps.frame hI.1.steps hi⟩
    · rintro w' H' g' r ⟨hrun, hq'⟩ hr
      obtain ⟨hi', hg'⟩ := hkeep w' _ g' hrun
      have hclone : Steps AddrSource.lowest K ok ⟨w', g'.refs + H', G⟩
          ⟨w'.clone r, g'.refs + (r ::ₘ H'), G⟩ := by
        rw [Multiset.add_cons]
        exact steps_clone hr
      exact ⟨hrun.clone hr, hQ.steps_of_held hclone hi' hg' hq'⟩
    · rintro w' H' g' r ⟨hrun, hq'⟩
      obtain ⟨hi', hg'⟩ := hkeep w' _ g' hrun
      rw [Multiset.add_cons] at hi'
      exact ⟨hrun.insertNode hi hg trivial, hQ.insertNode hi' hg' hq'⟩
    · rintro w' H' g' r ⟨hrun, hq'⟩
      obtain ⟨hi', hg'⟩ := hkeep w' _ g' hrun
      rw [Multiset.add_cons] at hi'
      exact ⟨hrun.drop hi, hQ.steps_of_held (A := AddrSource.lowest) (steps_drop hi') hi' hg' hq'⟩
  exact hrule.2

end Stable

theorem stable_grows (v : World N E) (g : HistoryGraph) :
    Stable K (fun _ => False) fun w g' => Grows v w g g' where
  insertNode hi hg hgrow := hgrow.trans (grows_insertNode hi hg hgrow.agrees)
  steps h hi hrefs hg hreg hgrow := hgrow.steps h hi hrefs hg hreg

theorem grows_insertNodes {nodes : List Ref}
    (hi : Inv w ((nodes : Multiset Ref) + (g.refs + H)) G X) (hg : g.registry ∈ G)
    (ha : g.Agrees w) : Grows w (g.insertNodes K w nodes).1 g (g.insertNodes K w nodes).2 :=
  (stable_grows w g).insertNodes hi hg ha.grows

/-- Ancestors are inserted beside what is there. -/
theorem grows_insertAncestors {node : Ref} {id : NodeId} (hi : Inv w (g.refs + (node ::ₘ H)) G X)
    (hg : g.registry ∈ G) (ha : g.Agrees w)
    (h : g.insertAncestors K w node = .ok (id, w', g')) : Grows w w' g g' :=
  (stable_grows w g).insertAncestors hi hg ha.grows h

/-! ### Insertions that cannot fail -/

/-- The node is not registered outside `R`. -/
def Registrable (w : World N E) (R : RegRef) (r : Ref) : Prop :=
  ∀ R', w.heap.slot r = some R' → R' = R

/-- Registering nodes in `R` does not get in the way of others being registered there. -/
theorem Registrable.steps {c c' : Config N E} {R : RegRef} {r : Ref}
    (hr : Registrable c.world R r) (h : Steps A K ok c c') (hi : c.Inv X)
    (hok : ∀ R', ok (.register R') → R' = R) : Registrable c'.world R r := by
  intro R' hslot
  rcases Steps.slot_cases h hi hslot with hold | hreg
  · exact hr R' hold
  · exact hok R' hreg

/-- A node is refused just when its cell names another registry. -/
theorem insertNode_isSome_iff (hi : Inv w H G X) (ha : g.Agrees w) {node : Ref}
    (hnode : w.heap.Alive node) (hR : w.RegAlive g.registry) :
    (g.insertNode K w node).1.isSome ↔ Registrable w g.registry node := by
  rcases insertNode_cases (K := K) hi ha hnode hR with
    ⟨id, hid, heq⟩ | ⟨-, ⟨R, hslot, hne⟩, heq⟩ | ⟨-, hslot, id, -, -, -, heq⟩
  · rw [heq]
    refine ⟨fun _ R' hR' => ?_, fun _ => rfl⟩
    rw [(ha id node hid).slot] at hR'
    exact (Option.some.inj hR').symm
  · rw [heq]
    refine ⟨fun h => (by cases h), fun h => absurd (h R hslot) hne⟩
  · rw [heq]
    refine ⟨fun _ R' hR' => ?_, fun _ => rfl⟩
    rcases hslot with hslot | hslot
    · rw [hslot] at hR'
      cases hR'
    · rw [hslot] at hR'
      exact (Option.some.inj hR').symm

/-- Registrations in `R` do not change whether a node that stays alive can be registered there. -/
theorem registrable_steps_iff {c c' : Config N E} {R : RegRef} {r : Ref}
    (h : Steps A K ok c c') (hi : c.Inv X) (hok : ∀ R', ok (.register R') → R' = R)
    (hr : c'.world.heap.Alive r) : Registrable c'.world R r ↔ Registrable c.world R r :=
  ⟨fun hreg R' hslot => hreg R' (Steps.slot_of_some h hi hslot hr), fun hreg => hreg.steps h hi hok⟩

/-- Inserting nodes in order stores those that are not registered elsewhere. -/
theorem stores_insertNodes {nodes : List Ref}
    (hi : Inv w ((nodes : Multiset Ref) + (g.refs + H)) G X) (hg : g.registry ∈ G)
    (ha : g.Agrees w) {x : Ref} : (g.insertNodes K w nodes).2.Stores x ↔
      g.Stores x ∨ x ∈ nodes ∧ Registrable w g.registry x := by
  induction nodes generalizing w g with
  | nil => simp [insertNodes]
  | cons node nodes ih =>
    rw [← Multiset.cons_coe, Multiset.cons_add, add_left_comm] at hi
    have hfirst := grows_insertNode (K := K) hi hg ha
    have hsteps : Steps AddrSource.lowest K (fun a => a = .register g.registry) _ _ :=
      steps_insertNode hi hg rfl
    have hi' := Steps.inv hsteps hi
    have hsome := insertNode_isSome_iff (K := K) hi ha
      (hi.heap.alive_of_held (Multiset.mem_cons_self _ _)) (hi.regAlive_of_mem hg)
    have hstores := stores_insertNode (K := K) hi hg ha (x := x)
    -- the remaining nodes are held, hence alive
    have hlater : x ∈ nodes → (Registrable (g.insertNode K w node).2.1
        (g.insertNode K w node).2.2.registry x ↔ Registrable w g.registry x) := by
      intro hx
      rw [hfirst.registry]
      exact registrable_steps_iff hsteps hi (fun R' hR' => Access.register.inj hR')
        (hi'.heap.alive_of_held (by simp [hx]))
    rw [add_left_comm] at hi'
    rw [← hfirst.registry] at hg
    have hrest := ih hi' hg hfirst.agrees
    have hunfold : g.insertNodes K w (node :: nodes) =
        (g.insertNode K w node).2.2.insertNodes K (g.insertNode K w node).2.1 nodes := rfl
    rw [hunfold, hrest, hstores, List.mem_cons, or_assoc, or_and_right]
    refine or_congr Iff.rfl (or_congr ?_ (and_congr_right hlater))
    exact and_congr_right fun hx => by rw [hx, hsome]

/-- Inserting a node sets no other registry cell. -/
theorem slot_of_insertNode {node x : Ref} {R : RegRef} (hi : Inv w (node ::ₘ (g.refs + H)) G X)
    (hg : g.registry ∈ G) (ha : g.Agrees w) (hx : x ≠ node)
    (hslot : (g.insertNode K w node).2.1.heap.slot x = some R) : w.heap.slot x = some R := by
  have hnode : w.heap.Alive node := hi.heap.alive_of_held (Multiset.mem_cons_self _ _)
  have hdrop : (w.drop node).heap.slot x = some R → w.heap.slot x = some R := by
    intro hslot
    have hsteps : Steps AddrSource.lowest KeySource.reusing (fun _ => False) _ _ := steps_drop hi
    exact (Steps.slot_cases hsteps hi hslot).resolve_right fun h => h
  rcases insertNode_cases (K := K) hi ha hnode (hi.regAlive_of_mem hg) with
    ⟨id, -, heq⟩ | ⟨-, -, heq⟩ | ⟨-, -, id, -, -, -, heq⟩ <;> rw [heq] at hslot
  · exact hdrop hslot
  · exact hdrop hslot
  · rwa [World.slot_tryRegisterIn_of_ne w node g.registry hx] at hslot

/-- Other nodes are registered nowhere new. -/
theorem slot_of_insertNodes {nodes : List Ref} {x : Ref} {R : RegRef}
    (hi : Inv w ((nodes : Multiset Ref) + (g.refs + H)) G X) (hg : g.registry ∈ G)
    (ha : g.Agrees w) (hx : x ∉ nodes)
    (hslot : (g.insertNodes K w nodes).1.heap.slot x = some R) : w.heap.slot x = some R := by
  induction nodes generalizing w g with
  | nil => exact hslot
  | cons node nodes ih =>
    rw [← Multiset.cons_coe, Multiset.cons_add, add_left_comm] at hi
    rw [List.mem_cons, not_or] at hx
    have hfirst := grows_insertNode (K := K) hi hg ha
    have hsteps : Steps AddrSource.lowest K (fun _ => True) _ _ := steps_insertNode hi hg trivial
    have hi' := Steps.inv hsteps hi
    rw [add_left_comm] at hi'
    refine slot_of_insertNode hi hg ha hx.1 (ih hi' ?_ hfirst.agrees hx.2 hslot)
    rw [hfirst.registry]
    exact hg

/-! ### Building a graph -/

/-- The graph `g` over `w'` was built from `nodes` over `w` and lost no node: it stores exactly
these nodes, each under one id, which is its id in the registry and the one it had there before. -/
structure BuiltFrom (w : World N E) (nodes : List Ref) (w' : World N E) (g : HistoryGraph) :
    Prop where
  stores_iff : ∀ r, g.Stores r ↔ r ∈ nodes
  id_unique : ∀ id id' r, g.nodes.get id = some r → g.nodes.get id' = some r → id = id'
  id_registry : ∀ id r, g.nodes.get id = some r →
    (w'.registries g.registry).getId w'.heap r = some id
  id_kept : ∀ r ∈ nodes, ∀ id, (w.registries g.registry).getId w.heap r = some id →
    g.nodes.get id = some r

/-- Only the registries before the call matter, beside the result. -/
theorem builtFrom_congr {v : World N E} {nodes : List Ref} (hheap : v.heap = w.heap)
    (hregs : v.registries = w.registries) : BuiltFrom v nodes w' g ↔ BuiltFrom w nodes w' g := by
  constructor
  · rintro ⟨hstores, hunique, hregistry, hkept⟩
    rw [hheap, hregs] at hkept
    exact ⟨hstores, hunique, hregistry, hkept⟩
  · rintro ⟨hstores, hunique, hregistry, hkept⟩
    rw [← hheap, ← hregs] at hkept
    exact ⟨hstores, hunique, hregistry, hkept⟩

/-- A new graph has those of the given nodes that can be registered. -/
theorem stores_new {nodes : List Ref} {R : RegRef} (hi : Inv w ((nodes : Multiset Ref) + H) G X)
    (hR : R ∈ G) {x : Ref} :
    (new K w nodes R).2.Stores x ↔ x ∈ nodes ∧ Registrable w R x := by
  rw [new, stores_insertNodes (H := H) (by rwa [refs_empty_add]) hR (agrees_empty R)]
  exact ⟨fun h => h.resolve_left (not_stores_empty R x), Or.inr⟩

/-- **`HistoryGraph::new` loses no node exactly when all of them can be registered.** -/
theorem builtFrom_new_iff {nodes : List Ref} {R : RegRef}
    (hi : Inv w ((nodes : Multiset Ref) + H) G X) (hR : R ∈ G) :
    BuiltFrom w nodes (new K w nodes R).1 (new K w nodes R).2 ↔
      ∀ r ∈ nodes, Registrable w R r := by
  constructor
  · intro hb r hr
    exact ((stores_new hi hR).mp ((hb.stores_iff r).mpr hr)).2
  · intro hfree
    obtain ⟨hsteps, hreg⟩ : Steps AddrSource.lowest K (fun a => a = .register R) _ _ ∧ _ :=
      steps_graphNew hi hR rfl
    have hi' := Steps.inv hsteps hi
    have hgrow : Grows w (new K w nodes R).1 ⟨Slots.empty, R⟩ (new K w nodes R).2 :=
      grows_insertNodes (H := H) (by rwa [refs_empty_add]) hR (agrees_empty R)
    have hstores : ∀ r, (new K w nodes R).2.Stores r ↔ r ∈ nodes := fun r =>
      (stores_new hi hR).trans (and_iff_left_of_imp (hfree r))
    refine ⟨hstores, fun id id' r => hgrow.agrees.id_eq hi', fun id r hid =>
      (hgrow.agrees id r hid).getId hi', fun r hr id hid => ?_⟩
    -- the old entry is still there, and a node has one entry
    obtain ⟨k, hk⟩ := (hstores r).mpr hr
    have hold : (w.registries R).nodes.get id = some r := by
      rw [hreg] at hid
      exact (hi.getId_eq_some_iff
        (Inv.inUse_of_alive (hi.heap.alive_of_held (by simp [hr])))).mp hid
    have ht := hgrow.agrees k r hk
    rw [hreg] at ht
    have hkept := Steps.entry hsteps hi (fun hrem => by cases hrem) hold (ht.alive hi')
      (ht.regAlive hi')
    rwa [(hi'.inverse R).id_eq hkept ht.entry]

end HistoryGraph

open HistoryGraph

variable {P : State N E → Op N E → Prop} {s : State N E}

/-- A cell names a registry that was created. -/
theorem Run.slot_lt (h : Run A K P State.init s) {r : Ref} {R : RegRef}
    (hslot : s.world.heap.slot r = some R) : R < s.world.nregs := by
  have hsteps : Steps A K (fun _ => True) State.init.config s.config :=
    Run.steps h State.inv_init fun _ _ _ _ _ => trivial
  exact Steps.slot_lt hsteps State.inv_init (fun _ _ hslot => by cases hslot) hslot

/-- **Building a graph loses no node exactly when every node of the list is unregistered or
registered in the given registry**, in every state of every run; `from_nodes` brings a registry of
its own, so there every node has to be unregistered. -/
theorem builtFrom_iff_of_run (h : Run A K P State.init s) {nodes : List Ref}
    (hnodes : nodeHandles nodes ≤ s.handles) :
    (∀ R ∈ s.regHandles,
      (BuiltFrom s.world nodes (new K s.world nodes R).1 (new K s.world nodes R).2 ↔
        ∀ r ∈ nodes, ∀ R', s.world.heap.slot r = some R' → R' = R)) ∧
    (BuiltFrom s.world nodes (fromNodes K s.world nodes).1 (fromNodes K s.world nodes).2 ↔
      ∀ r ∈ nodes, s.world.heap.slot r = none) := by
  have hi := Run.inv h State.inv_init
  obtain ⟨H, hheld⟩ : ∃ H, s.held = (nodes : Multiset Ref) + H := ⟨_, State.held_of_le hnodes⟩
  rw [State.Inv, Config.Inv, State.config, hheld] at hi
  refine ⟨fun R hR => builtFrom_new_iff hi (Multiset.mem_add.mpr (Or.inl hR)), ?_⟩
  have halloc : Steps A K (fun _ => False) _ _ :=
    steps_allocRegistry_new s.world ((nodes : Multiset Ref) + H) s.regs
  -- nothing refers to the registry that is about to be made
  have hfresh : (s.world.allocRegistry Registry.new).registries = s.world.registries := by
    have hdead : s.world.registries s.world.nregs = Registry.new :=
      hi.reg_dead _ fun hR => Nat.lt_irrefl _ (hi.reg_lt _ hR)
    exact Function.update_eq_self_iff.mpr hdead.symm
  have hcell : ∀ r, Registrable (s.world.allocRegistry Registry.new) s.world.nregs r ↔
      s.world.heap.slot r = none := by
    intro r
    refine ⟨fun hr => ?_, fun hr R' hslot => ?_⟩
    · by_contra hsome
      obtain ⟨R', hslot⟩ := Option.ne_none_iff_exists'.mp hsome
      exact absurd (Run.slot_lt h hslot) (by rw [hr R' hslot]; exact Nat.lt_irrefl _)
    · have hslot' : s.world.heap.slot r = some R' := hslot
      rw [hr] at hslot'
      cases hslot'
  rw [← builtFrom_congr (v := s.world.allocRegistry Registry.new) (w := s.world) rfl hfresh]
  refine (builtFrom_new_iff (Steps.inv halloc hi) (Multiset.mem_cons_self _ _)).trans ?_
  exact forall_congr' fun r => imp_congr_right fun _ => hcell r

/-- A node that is already in the given registry, a new one, and a repetition. -/
def halfRegistered : State ℕ ℕ :=
  State.init.after [.registryNew, .new 10, .clone 0, .new 20, .tryRegisterIn 0 0]

theorem builtFrom_iff_of_run_halfRegistered :
    let res := new KeySource.reusing halfRegistered.world [1, 0, 0] 0
    BuiltFrom halfRegistered.world [1, 0, 0] res.1 res.2 := by
  have hrun : Run _ _ (fun _ _ => True) State.init halfRegistered :=
    run_after (by decide) fun _ _ _ => trivial
  refine ((builtFrom_iff_of_run hrun (by decide)).1 0 (by decide)).mpr fun r hr R' hslot => ?_
  have hcells : ∀ r ∈ [1, 0, 0], halfRegistered.world.heap.slot r = none ∨
      halfRegistered.world.heap.slot r = some 0 := by decide
  rcases hcells r hr with hnone | hzero
  · rw [hnone] at hslot
    cases hslot
  · rw [hzero] at hslot
    exact (Option.some.inj hslot).symm

/-- A child and its parent, both of which are in a graph. -/
def childInGraph : State ℕ ℕ :=
  State.init.after [.new 10, .clone 0, .withParents 20 [(0, 1)], .clone 1, .graphFromNodes [0, 1]]

/-- A second graph built from the child is empty. -/
theorem not_builtFrom_childInGraph :
    let res := fromNodes KeySource.reusing childInGraph.world [1]
    Run AddrSource.lowest KeySource.reusing (fun _ _ => True) State.init childInGraph ∧
    nodeHandles [1] ≤ childInGraph.handles ∧ res.2.allNodeIds = [] ∧
    ¬ BuiltFrom childInGraph.world [1] res.1 res.2 := by
  intro res
  have hempty : res.2.allNodeIds = [] := by decide
  refine ⟨run_after (by decide) fun _ _ _ => trivial, by decide, hempty, fun hb => ?_⟩
  obtain ⟨id, hid⟩ := (hb.stores_iff 1).mpr List.mem_cons_self
  have hkey : id ∈ res.2.allNodeIds := Slots.mem_keys.mpr ⟨1, hid⟩
  rw [hempty] at hkey
  exact absurd hkey List.not_mem_nil

end Relrc
