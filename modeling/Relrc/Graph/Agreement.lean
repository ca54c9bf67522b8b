import Relrc.Graph.Insertion

/-!
# Graphs agree with their registries in every run

Everything a program does to a graph goes through `insert_node`, and in the meantime a graph keeps
its nodes and its registry alive. So a property of graphs that `insert_node` keeps, and that runs
keep under these conditions, holds of all graphs in every run (`GraphProperty.run`).

Two instances: without a direct `Registry::remove`, graphs agree with their registries; with it, an
id that a graph stores may stop resolving, but it never resolves to another node.
-/

namespace Relrc

open SlotStore Ancestry Fallible

variable {N E : Type} {A : AddrSource} {K : KeySource} {ok : Access → Prop}
variable {w w' : World N E} {H H' : Multiset Ref} {G : Multiset RegRef} {X : Exempt}
variable {s s' : State N E}

/-! ### Properties of graphs -/

/-- A property of graphs that empty graphs have, insertions keep, and runs keep for as long as the
graph holds its nodes and its registry. -/
structure GraphProperty (K : KeySource) (ok : Access → Prop)
    (Q : World N E → HistoryGraph → Prop) : Prop extends HistoryGraph.Stable K ok Q where
  empty : ∀ w R, Q w ⟨Slots.empty, R⟩

namespace GraphProperty

variable {Q : World N E → HistoryGraph → Prop} {g g' : HistoryGraph}

/-- What an empty graph has and an insertion keeps, a new graph has. -/
theorem new (hQ : GraphProperty K ok Q) {nodes : List Ref} {R : RegRef}
    (hi : Inv w ((nodes : Multiset Ref) + H) G X) (hR : R ∈ G) :
    Q (HistoryGraph.new K w nodes R).1 (HistoryGraph.new K w nodes R).2 := by
  rw [← HistoryGraph.refs_empty_add R H] at hi
  exact hQ.insertNodes hi hR (hQ.empty w R)

/-- So has a graph with a registry of its own. -/
theorem fromNodes (hQ : GraphProperty K ok Q) {nodes : List Ref}
    (hi : Inv w ((nodes : Multiset Ref) + H) G X) :
    Q (HistoryGraph.fromNodes K w nodes).1 (HistoryGraph.fromNodes K w nodes).2 := by
  have halloc : Steps AddrSource.lowest K (fun _ => True) _ _ :=
    steps_allocRegistry_new w ((nodes : Multiset Ref) + H) G
  exact hQ.new (Steps.inv halloc hi) (Multiset.mem_cons_self _ _)

/-- So has a decoded graph: its nodes are inserted one by one. -/
theorem fromSerialized (hQ : GraphProperty K ok Q) {ser : SerializedHistoryGraph N E}
    (hi : Inv w H G X) (h : HistoryGraph.fromSerialized A K w ser = .ok (w', g)) : Q w' g := by
  obtain ⟨R, nodes, w1, hreg, hres⟩ := HistoryGraph.of_fromSerialized h
  obtain ⟨hsteps, -⟩ : Steps A K (fun _ => True) ⟨w, H, G⟩
      ⟨w1, (nodes.values : Multiset Ref) + H, R ::ₘ G⟩ ∧ _ := steps_registryFromSerialized hi hreg
  have hi1 := Steps.inv hsteps hi
  have hdrop : Steps A K (fun _ => True) _ _ := HistoryGraph.steps_withoutOthers ser hi1
  have hnew := hQ.new (Steps.inv hdrop hi1) (Multiset.mem_cons_self R G)
  rw [hres] at hnew
  exact hnew

end GraphProperty

/-! ### The graphs of a program -/

namespace State

theorem graph_of_append {i : GraphRef} {g : HistoryGraph} (h : s'.graphs = s.graphs ++ [some g]) :
    s'.graph i = if i = s.graphs.length then some g else s.graph i := by
  rw [State.graph, State.graph, h]
  split_ifs with hi
  · rw [hi, List.getElem?_append_right le_rfl, Nat.sub_self]
    rfl
  · rcases Nat.lt_or_ge i s.graphs.length with hlt | hge
    · rw [List.getElem?_append_left hlt]
    · have hgt : s.graphs.length < i := lt_of_le_of_ne hge (Ne.symm hi)
      rw [List.getElem?_eq_none (by simpa using hgt), List.getElem?_eq_none hge]

theorem graph_of_set {i j : GraphRef} {g : HistoryGraph} {x : Option HistoryGraph}
    (hj : s.graph j = some g) (h : s'.graphs = s.graphs.set j x) :
    s'.graph i = if i = j then x else s.graph i := by
  have hlt : j < s.graphs.length := (List.getElem?_eq_some_iff.mp (getElem?_of_graph hj)).1
  rw [State.graph, State.graph, h]
  split_ifs with hij
  · rw [hij, List.getElem?_set_self hlt]
    rfl
  · rw [List.getElem?_set_ne (Ne.symm hij)]

/-- A program holds the nodes of its graphs. -/
theorem mem_held_of_stores {i : GraphRef} {g : HistoryGraph} (hg : s.graph i = some g) {r : Ref}
    (hr : g.Stores r) : r ∈ s.held := by
  obtain ⟨id, hid⟩ := hr
  exact State.mem_held_iff.mpr (Or.inr ⟨i, g, id, hg, hid⟩)

/-- The nodes of a graph are live: it holds them. -/
theorem Inv.alive_of_stores (hi : s.Inv) {i : GraphRef} {g : HistoryGraph}
    (hg : s.graph i = some g) {r : Ref} (hr : g.Stores r) : s.world.heap.Alive r :=
  hi.heap.alive_of_held (mem_held_of_stores hg hr)

/-- A program refers to the registries of its graphs. -/
theorem registry_mem {i : GraphRef} {g : HistoryGraph}
    (hg : s.graph i = some g) : g.registry ∈ s.regs := by
  obtain ⟨_, R, -, hR, -⟩ := State.exists_graph hg
  rw [State.regs, hR]
  exact Multiset.mem_add.mpr (Or.inr (Multiset.mem_cons_self _ _))

theorem Inv.regAlive_of_graph (hi : s.Inv) {i : GraphRef} {g : HistoryGraph}
    (hg : s.graph i = some g) : s.world.RegAlive g.registry :=
  hi.regAlive_of_mem (registry_mem hg)

end State

/-- The operation inserts into the graph or drops it. -/
def Op.Changes (i : GraphRef) : Op N E → Prop
  | .insertNode j _ | .insertAncestors j _ | .graphDrop j => j = i
  | _ => False

/-- How an operation makes a new graph `g`, with memory `w'` afterwards. -/
inductive Makes (A : AddrSource) (K : KeySource) (s : State N E) (w' : World N E)
    (g : HistoryGraph) : Op N E → Prop where
  | new (nodes R) (hen : Op.Enabled s (.graphNew nodes R))
      (h : HistoryGraph.new K s.world nodes R = (w', g)) : Makes A K s w' g (.graphNew nodes R)
  | fromNodes (nodes) (hen : Op.Enabled s (.graphFromNodes nodes))
      (h : HistoryGraph.fromNodes K s.world nodes = (w', g)) :
      Makes A K s w' g (.graphFromNodes nodes)
  | clone (i) (h : s.graph i = some g) : Makes A K s w' g (.graphClone i)
  | fromSerialized (ser) (h : HistoryGraph.fromSerialized A K s.world ser = .ok (w', g)) :
      Makes A K s w' g (.graphFromSerialized ser)

/-- How an operation turns the graph `g` at position `i` into another one, or drops it. -/
inductive Turns (K : KeySource) (s : State N E) (w' : World N E) (i : GraphRef)
    (g : HistoryGraph) : Option HistoryGraph → Op N E → Prop where
  | insertNode (node g') (hnode : .node node ∈ s.handles)
      (h : (g.insertNode K s.world node).2 = (w', g')) :
      Turns K s w' i g (some g') (.insertNode i node)
  | insertAncestors (node id g') (hnode : .node node ∈ s.handles)
      (h : g.insertAncestors K s.world node = .ok (id, w', g')) :
      Turns K s w' i g (some g') (.insertAncestors i node)
  | drop : Turns K s w' i g none (.graphDrop i)

/-- What an operation does to the graphs of a program. -/
theorem exec_graphs {op : Op N E} (hen : op.Enabled s) (h : exec A K s op = .ok s') :
    (s'.graphs = s.graphs ∧ ∀ i, ¬ op.Changes i) ∨
    (∃ g, s'.graphs = s.graphs ++ [some g] ∧ Makes A K s s'.world g op) ∨
    ∃ i g x, s.graph i = some g ∧ s'.graphs = s.graphs.set i x ∧ Turns K s s'.world i g x op := by
  cases op with
  | graphNew nodes R =>
    obtain rfl := pure_eq_ok_iff.mp h
    exact Or.inr (Or.inl ⟨_, rfl, .new nodes R hen rfl⟩)
  | graphFromNodes nodes =>
    obtain rfl := pure_eq_ok_iff.mp h
    exact Or.inr (Or.inl ⟨_, rfl, .fromNodes nodes hen rfl⟩)
  | graphFromSerialized ser =>
    obtain ⟨⟨w', g⟩, hres, h⟩ := bind_eq_ok_iff.mp h
    obtain rfl := pure_eq_ok_iff.mp h
    exact Or.inr (Or.inl ⟨g, rfl, .fromSerialized ser hres⟩)
  | graphClone i =>
    obtain ⟨g, hg⟩ := Option.isSome_iff_exists.mp hen
    simp only [exec, hg] at h
    obtain rfl := pure_eq_ok_iff.mp h
    exact Or.inr (Or.inl ⟨g, rfl, .clone i hg⟩)
  | graphDrop i =>
    obtain ⟨g, hg⟩ := Option.isSome_iff_exists.mp hen
    simp only [exec, hg] at h
    obtain rfl := pure_eq_ok_iff.mp h
    exact Or.inr (Or.inr ⟨i, g, none, hg, rfl, .drop⟩)
  | insertNode i node =>
    obtain ⟨g, hg⟩ := Option.isSome_iff_exists.mp hen.1
    simp only [exec, hg] at h
    obtain rfl := pure_eq_ok_iff.mp h
    exact Or.inr (Or.inr ⟨i, g, _, hg, rfl, .insertNode node _ hen.2 rfl⟩)
  | insertAncestors i node =>
    obtain ⟨g, hg⟩ := Option.isSome_iff_exists.mp hen.1
    simp only [exec, hg] at h
    obtain ⟨⟨id, w', g'⟩, hres, h⟩ := bind_eq_ok_iff.mp h
    obtain rfl := pure_eq_ok_iff.mp h
    exact Or.inr (Or.inr ⟨i, g, _, hg, rfl, .insertAncestors node id g' hen.2 hres⟩)
  | outgoingEdges i u =>
    obtain ⟨g, hg⟩ := Option.isSome_iff_exists.mp hen
    simp only [exec, hg] at h
    obtain rfl := pure_eq_ok_iff.mp h
    exact Or.inl ⟨rfl, fun _ h => h⟩
  | upgrade node =>
    simp only [exec] at h
    split at h <;> obtain rfl := pure_eq_ok_iff.mp h <;> exact Or.inl ⟨rfl, fun _ h => h⟩
  | registryFromSerialized ser | toSerialized node R | fromSerialized ser =>
    obtain ⟨res, -, h⟩ := bind_eq_ok_iff.mp h
    obtain rfl := pure_eq_ok_iff.mp h
    exact Or.inl ⟨rfl, fun _ h => h⟩
  | _ =>
    obtain rfl := pure_eq_ok_iff.mp h
    exact Or.inl ⟨rfl, fun _ h => h⟩

/-- An operation that neither inserts into a graph nor drops it leaves it as it is. -/
theorem exec_graph_eq {op : Op N E} {i : GraphRef} (hlt : i < s.graphs.length) (hen : op.Enabled s)
    (hop : ¬ op.Changes i) (h : exec A K s op = .ok s') :
    s'.graph i = s.graph i ∧ i < s'.graphs.length := by
  rcases exec_graphs hen h with ⟨hsame, -⟩ | ⟨g, hadd, -⟩ | ⟨j, g, x, hj, hset, hturn⟩
  · rw [State.graph, State.graph, hsame]
    exact ⟨rfl, hlt⟩
  · rw [State.graph_of_append hadd, if_neg (Nat.ne_of_lt hlt), hadd, List.length_append]
    exact ⟨rfl, Nat.lt_add_right _ hlt⟩
  · have hij : i ≠ j := by
      rintro rfl
      cases hturn <;> exact hop rfl
    rw [State.graph_of_set hj hset, if_neg hij, hset, List.length_set]
    exact ⟨rfl, hlt⟩

/-- An operation changes no other graph. -/
theorem Op.Changes.graph_eq {op : Op N E} {i j : GraphRef} (hop : op.Changes i) (hij : j ≠ i)
    (hen : op.Enabled s) (h : exec A K s op = .ok s') : s'.graph j = s.graph j := by
  rcases exec_graphs hen h with ⟨hsame, -⟩ | ⟨g, -, hmake⟩ | ⟨k, g, x, hk, hset, hturn⟩
  · rw [State.graph, State.graph, hsame]
  · cases hmake <;> exact absurd hop fun h => h
  · have hki : k = i := by cases hturn <;> exact hop
    rw [State.graph_of_set hk hset, if_neg (by rw [hki]; exact hij)]

/-- One operation keeps a property of all graphs. -/
theorem GraphProperty.exec {Q : World N E → HistoryGraph → Prop} (hQ : GraphProperty K ok Q)
    {op : Op N E} (hi : s.config.Inv X) (hall : ∀ i g, s.graph i = some g → Q s.world g)
    (hen : op.Enabled s) (hok : Respects ok s op) (h : exec A K s op = .ok s') :
    ∀ i g, s'.graph i = some g → Q s'.world g := by
  intro i g hg
  -- graphs that were there, at whichever position, keep their nodes and registries
  have hkeep : ∀ j, s.graph j = some g → Q s'.world g := by
    intro j hj
    have hsteps : Steps A K ok s.config s'.config := exec_steps hi hen hok h
    have hi' := Steps.inv hsteps hi
    exact hQ.steps hsteps hi (fun r hr => hi'.heap.alive_of_held (State.mem_held_of_stores hg hr))
      (State.registry_mem hj) (hi'.regAlive_of_mem (State.registry_mem hg)) (hall j g hj)
  have hold := hg
  rcases exec_graphs hen h with ⟨hsame, -⟩ | ⟨g', hadd, hmake⟩ | ⟨j, g', x, hj, hset, hturn⟩
  · rw [State.graph, hsame] at hold
    exact hkeep i hold
  · rw [State.graph_of_append hadd] at hold
    split_ifs at hold
    · obtain rfl := Option.some.inj hold
      rw [State.config] at hi
      cases hmake with
      | new nodes R hen hnew =>
        rw [State.held_of_le hen.1] at hi
        have hq := hQ.new hi (Multiset.mem_add.mpr (Or.inl hen.2))
        rwa [hnew] at hq
      | fromNodes nodes hen hnew =>
        rw [State.held_of_le hen] at hi
        have hq := hQ.fromNodes hi
        rwa [hnew] at hq
      | clone j hj => exact hkeep j hj
      | fromSerialized ser hres => exact hQ.fromSerialized hi hres
    · exact hkeep i hold
  · rw [State.graph_of_set hj hset] at hold
    split_ifs at hold
    · have hreg := State.registry_mem hj
      cases hturn with
      | insertNode node g'' hnode hins =>
        obtain rfl := Option.some.inj hold
        obtain ⟨H, hheld⟩ := State.exists_held hj hnode
        rw [State.config, hheld, Multiset.add_cons] at hi
        have hq := hQ.insertNode hi hreg (hall j g' hj)
        rwa [hins] at hq
      | insertAncestors node id g'' hnode hins =>
        obtain rfl := Option.some.inj hold
        obtain ⟨H, hheld⟩ := State.exists_held hj hnode
        rw [State.config, hheld] at hi
        exact hQ.insertAncestors hi hreg (hall j g' hj) hins
      | drop => cases hold
    · exact hkeep i hold

/-- **Such a property holds of all graphs in every state of every run.** -/
theorem GraphProperty.run {Q : World N E → HistoryGraph → Prop} (hQ : GraphProperty K ok Q)
    {P : State N E → Op N E → Prop} (h : Run A K P State.init s)
    (hP : ∀ s op, P s op → Respects ok s op) : ∀ i g, s.graph i = some g → Q s.world g := by
  induction h with
  | refl =>
    intro i g hg
    cases i <;> cases hg
  | tail hrun hstep ih =>
    obtain ⟨op, hen, hok, hexec⟩ := hstep
    exact hQ.exec (Run.inv hrun State.inv_init) ih hen (hP _ op hok) hexec

/-! ### Two instances -/

/-- To agree with its registry is such a property. -/
theorem graphProperty_agrees : GraphProperty K NoRemoval fun (w : World N E) g => g.Agrees w where
  empty _ R := HistoryGraph.agrees_empty R
  insertNode hi hg ha := (HistoryGraph.grows_insertNode hi hg ha).agrees
  steps h hi hrefs _ hreg ha := ha.steps h hi (fun hr => hr) hrefs hreg

theorem Run.agrees (h : Run A K (Respects NoRemoval) State.init s) :
    ∀ i g, s.graph i = some g → g.Agrees s.world :=
  graphProperty_agrees.run h fun _ _ h => h

/-- Every id that the graph stores was issued for the node it is stored with. -/
def HistoryGraph.Assigns (g : HistoryGraph) (w : World N E) : Prop :=
  ∀ id r, g.nodes.get id = some r → Assigned w g.registry id r

/-- An id that was issued for a node is never issued again. -/
theorem HistoryGraph.Assigns.steps {c c' : Config N E} {g : HistoryGraph} (ha : g.Assigns c.world)
    (h : Steps A K ok c c') (hi : c.Inv X) (hg : g.registry ∈ c.regs)
    (hreg : c'.world.RegAlive g.registry) : g.Assigns c'.world := fun id r hr =>
  Steps.assigned h hi (ha id r hr) (hi.reg_lt _ (hi.regAlive_of_mem hg)) hreg

/-- The id of a new node was issued for it. -/
theorem HistoryGraph.Assigns.insertNode {g : HistoryGraph} {node : Ref}
    (hi : Inv w (node ::ₘ (g.refs + H)) G X) (hg : g.registry ∈ G) (ha : g.Assigns w) :
    (g.insertNode K w node).2.2.Assigns (g.insertNode K w node).2.1 := by
  have hnode : w.heap.Alive node := hi.heap.alive_of_held (Multiset.mem_cons_self _ _)
  have hR : w.RegAlive g.registry := hi.regAlive_of_mem hg
  have hsteps : Steps AddrSource.lowest K (fun _ => True) _ _ := steps_insertNode hi hg trivial
  have hold := ha.steps hsteps hi hg ((Steps.inv hsteps hi).regAlive_of_mem hg)
  rcases hstored : g.getNodeId w node with _ | id
  · rcases hres : w.tryRegisterIn K node g.registry with ⟨_ | id, w1⟩
    · have heq : g.insertNode K w node = (none, w1.drop node, g) := by
        simp only [HistoryGraph.insertNode, hstored, hres]
      rw [heq] at hold ⊢
      exact hold
    · have heq : g.insertNode K w node = (some id, w1.dropAll (g.nodes.evicted id node).toList,
          { g with nodes := g.nodes.insert id node }) := by
        simp only [HistoryGraph.insertNode, hstored, hres]
      rw [heq] at hold ⊢
      intro k x hx
      rcases Slots.get_of_insert hx with ⟨rfl, rfl⟩ | hx
      · -- the key under which the registry has just entered the node
        have hentry : (w1.registries g.registry).nodes.get k = some x := by
          have ht : Tracked _ g.registry k x :=
            tracked_tryRegisterIn (K := K) hi hnode hR (by rw [hres])
          rw [hres] at ht
          exact ht.entry
        have hw1 : Assigned w1 g.registry k x :=
          ⟨(w1.registries g.registry).nodes.issued k x hentry, fun y hy =>
            Option.some.inj (hy.symm.trans hentry)⟩
        have hmicro : Micro AddrSource.lowest K (fun _ => True) ⟨w, x ::ₘ (g.refs + H), G⟩
            ⟨(w.tryRegisterIn K x g.registry).2, x ::ₘ (g.refs + H), G⟩ :=
          .register w _ G x g.registry hnode hR trivial
        rw [hres] at hmicro
        have hi1 : Inv w1 (x ::ₘ (g.refs + H)) G X := hmicro.inv hi
        rw [HistoryGraph.refs_insert g k] at hi1
        have hdrop : Steps AddrSource.lowest K (fun _ => True) _ _ := steps_dropAll hi1
        exact Steps.assigned hdrop hi1 hw1 (hi1.reg_lt _ (hi1.regAlive_of_mem hg))
          ((Steps.inv hdrop hi1).regAlive_of_mem hg)
      · exact hold k x hx
  · have heq : g.insertNode K w node = (some id, w.drop node, g) := by
      simp only [HistoryGraph.insertNode, hstored]
    rw [heq] at hold ⊢
    exact hold

/-- To store only issued ids is such a property, whatever is removed. -/
theorem graphProperty_assigns :
    GraphProperty K (fun _ => True) fun (w : World N E) g => g.Assigns w where
  empty _ R id r h := by cases h
  insertNode hi hg ha := HistoryGraph.Assigns.insertNode hi hg ha
  steps h hi _ hg hreg ha := ha.steps h hi hg hreg

/-! ### All runs -/

/-- **Graphs and registries agree in every run**, whatever the graphs share: stored ids are the
registry's ids, `contains` is membership, a node has one id in all graphs over one registry, and
inserting into or dropping one graph does not change what another one stores or answers. -/
theorem graphs_agree_of_run (h : Run A K (Respects NoRemoval) State.init s) :
    (∀ i g, s.graph i = some g →
      (∀ id r, g.nodes.get id = some r →
        (s.world.registries g.registry).getId s.world.heap r = some id ∧
        ∃ m, (s.world.registries g.registry).get s.world.heap id = some m ∧
          s.world.heap.ptrEq m r) ∧
      (∀ id id' r, g.nodes.get id = some r → g.nodes.get id' = some r → id = id') ∧
      ∀ n, s.world.heap.Alive n → (g.contains s.world n = true ↔ g.Stores n)) ∧
    (∀ i j g g', s.graph i = some g → s.graph j = some g' → g.registry = g'.registry →
      ∀ id id' r, g.nodes.get id = some r → g'.nodes.get id' = some r → id = id') ∧
    ∀ op s' i j, Op.Changes i op → j ≠ i → op.Enabled s → Respects NoRemoval s op →
      exec A K s op = .ok s' → s'.graph j = s.graph j ∧ ∀ g, s.graph j = some g →
        ∀ n, s.world.heap.Alive n → s'.world.heap.Alive n →
          g.getNodeId s'.world n = g.getNodeId s.world n := by
  have hi := Run.inv h State.inv_init
  have ha := Run.agrees h
  refine ⟨fun i g hg => ⟨fun id r hr => ?_, fun id id' r hr hr' => (ha i g hg).id_eq hi hr hr',
    fun n hn => (ha i g hg).contains_iff hi hn⟩, fun i j g g' hg hg' hreg id id' r hr hr' => ?_,
    fun op s' i j hop hij hen hok hexec => ?_⟩
  · have ht := ha i g hg id r hr
    exact ⟨ht.getId hi, r, Registry.get_eq_some_iff.mpr
      ⟨ht.entry, hi.alive_of_stores hg ⟨id, hr⟩⟩, beq_self_eq_true _⟩
  · have hentry := (ha j g' hg' id' r hr').entry
    rw [← hreg] at hentry
    exact (hi.inverse g.registry).id_eq (ha i g hg id r hr).entry hentry
  · have hi' : s'.Inv := Steps.inv (exec_steps hi hen hok hexec) hi
    have hgraph := Op.Changes.graph_eq hop hij hen hexec
    refine ⟨hgraph, fun g hg n hold hn => ?_⟩
    have ha' := graphProperty_agrees.exec hi ha hen hok hexec j g (hgraph.trans hg)
    refine Option.ext fun id => ?_
    rw [ha'.getNodeId_eq_some_iff hi' hn, (ha j g hg).getNodeId_eq_some_iff hi hold]

/-- Two graphs over one registry that share a node. -/
def sharedNode : State ℕ ℕ :=
  State.init.after [.registryNew, .cloneRegistry 0, .new 10, .clone 0, .graphNew [0] 0,
    .graphNew [0] 0]

theorem graphs_agree_of_run_sharedNode :
    (∀ g, sharedNode.graph 0 = some g →
      ∀ n, sharedNode.world.heap.Alive n → (g.contains sharedNode.world n = true ↔ g.Stores n)) ∧
    (sharedNode.graph 1).map HistoryGraph.allNodeIds = some [⟨1, 1⟩] ∧
    ∀ g g' id id', sharedNode.graph 0 = some g → sharedNode.graph 1 = some g' →
      g.registry = g'.registry → g.nodes.get id = some 0 → g'.nodes.get id' = some 0 →
        id = id' := by
  have hrun : Run _ _ (Respects NoRemoval) State.init sharedNode :=
    run_after (by decide) fun op hop _ => respects_noRemoval (by revert op; decide)
  obtain ⟨hone, htwo, -⟩ := graphs_agree_of_run hrun
  exact ⟨fun g hg => (hone 0 g hg).2.2, by decide, fun g g' id id' hg hg' hreg =>
    htwo 0 1 g g' hg hg' hreg id id' 0⟩

end Relrc
