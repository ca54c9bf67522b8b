import Relrc.Graph.Views

/-!
# Graphs of callers

A graph holds its nodes, so what a caller does with its own pointers and values leaves their
registry cells and entries alone: a property of graphs that a program keeps, a caller keeps as well
(`CallerGraphProperty.run`). In particular graphs agree with their registries, and their edge views
agree as long as edges are recorded at both ends (`views_agree_iff_of_callers`).

This is where copies of node data do harm. The copy of a child stores an edge that its parent does
not list, and the copy of a parent lists edges that come from the original: in a graph with the copy
and the other end, the edge is seen from one side only (`views_differ_copiedChild`,
`views_differ_copiedRoot`).
-/

namespace Relrc

open SlotStore Ancestry Fallible

variable {N E : Type} {A : AddrSource} {K : KeySource} {ok : Access → Prop} {X : Exempt}
variable {c c' : Caller N E} {o : CallerOp N E}

/-! ### Properties of the graphs of a caller -/

/-- A property of graphs that is also kept where no cell and no entry is written. -/
structure CallerGraphProperty (K : KeySource) (ok : Access → Prop)
    (Q : World N E → HistoryGraph → Prop) : Prop extends GraphProperty K ok Q where
  unregistering : ∀ {w w' : World N E} {H G X g}, Unregistering w w' → Inv w H G X →
    (∀ r, g.Stores r → w'.heap.Alive r) → Q w g → Q w' g

/-- Only the operations of a program change its graphs. -/
theorem Caller.graphs_of_exec (ho : ∀ op, o ≠ .op op) (h : c.exec A K o = .ok c') :
    c'.state.graphs = c.state.graphs := by
  cases o with
  | op op => exact absurd rfl (ho op)
  | dataDefault | rcClone | rcDrop | rcDowngrade | rcDropWeak | fromRc | fromRcWeak =>
    obtain rfl := pure_eq_ok_iff.mp h
    rfl
  | dataClone | dataDrop | dataOutgoing | dataOutgoingWeak | dataIncomingWeak | rcNew | rcUpgrade
  | edgeClone | edgeDrop =>
    simp only [exec] at h
    split at h <;> obtain rfl := pure_eq_ok_iff.mp h <;> rfl
  | edgeTarget p =>
    simp only [exec] at h
    split at h
    · split at h
      · obtain rfl := pure_eq_ok_iff.mp h
        rfl
      · cases h
    · obtain rfl := pure_eq_ok_iff.mp h
      rfl

/-- The nodes of a graph are alive. -/
theorem Caller.Good.alive_of_stores (hc : c.Good X) {i : GraphRef} {g : HistoryGraph}
    (hg : c.state.graph i = some g) (r : Ref) (hr : g.Stores r) : c.world.heap.Alive r := by
  refine hc.inv.heap.alive_of_held (Multiset.mem_add.mpr (Or.inl ?_))
  exact Multiset.mem_add.mpr (Or.inl (State.mem_held_of_stores hg hr))

namespace CallerGraphProperty

variable {Q : World N E → HistoryGraph → Prop}

/-- What an operation does to memory keeps the property of a graph whose nodes and registry stay. -/
theorem effect (hQ : CallerGraphProperty K ok Q) (h : Caller.Effect A K ok c c' o)
    (hi : c.config.Inv X) {g : HistoryGraph} (hlive : ∀ r, g.Stores r → c.world.heap.Alive r)
    (hrefs : ∀ r, g.Stores r → c'.world.heap.Alive r) (hg : g.registry ∈ c.state.regs)
    (hreg : c'.world.RegAlive g.registry) (hq : Q c.world g) : Q c'.world g := by
  cases h with
  | steps hX h => exact hQ.steps h hi hrefs hg hreg hq
  | @wraps k d H hd hheld hin hc' =>
    have hw : c'.world = c.world.allocData A d := congrArg Config.world hc'
    rw [hw] at hrefs ⊢
    exact hQ.unregistering (c.world.unregistering_allocData A d) hi hrefs hq
  | @frees r H hheld hlast h =>
    have hi' := hi
    rw [Caller.config_eq hheld] at hi'
    have hdec := hi'.decStrong
    rw [if_pos hlast] at hdec
    -- what lives in the end has lived since the node was freed
    refine hQ.steps h hdec hrefs hg hreg (hQ.unregistering (c.world.unregistering_decStrong r) hi
      (fun x hx => ?_) hq)
    have hlt : x < (c.world.heap.decStrong r).size :=
      (hi.heap.alive_lt x (hlive x hx)).trans_eq (Heap.size_decStrong _ _).symm
    exact (Steps.frame h hdec).alive x hlt (hrefs x hx)

/-- One operation of a caller keeps the property of all graphs. -/
theorem exec (hQ : CallerGraphProperty K ok Q) (hc : c.Good X)
    (hall : ∀ i g, c.state.graph i = some g → Q c.world g) (hen : o.Enabled c)
    (hok : c.Respects ok o) (h : c.exec A K o = .ok c') :
    ∀ i g, c'.state.graph i = some g → Q c'.world g := by
  by_cases ho : ∃ op, o = .op op
  · obtain ⟨op, rfl⟩ := ho
    simp only [Caller.exec] at h
    split at h
    · rename_i s' hs
      obtain rfl := pure_eq_ok_iff.mp h
      -- a program with more handles
      obtain ⟨hen', hs'⟩ := exec_addHandles hen.1 hs c.outside
      have hinv : (c.state.addHandles c.outside).config.Inv X := by
        rw [Caller.config_addHandles_outside]
        exact hc.inv
      have hkept := hQ.toGraphProperty.exec hinv hall hen' hok hs'
      exact hkept
    · cases h
  · intro i g hg'
    have hsame := Caller.graphs_of_exec (fun op hop => ho ⟨op, hop⟩) h
    have hg : c.state.graph i = some g := by rwa [State.graph, ← hsame]
    have hc' := hc.step hen h
    obtain ⟨heffect, -⟩ := hc.effect hen hok h
    exact hQ.effect heffect hc.inv (hc.alive_of_stores hg) (hc'.alive_of_stores hg')
      (State.registry_mem hg) (hc'.inv.regAlive_of_mem (State.registry_mem hg')) (hall i g hg)

/-- **A property of graphs holds in every run of a caller.** -/
theorem run (hQ : CallerGraphProperty K ok Q)
    (h : Caller.Run A K (fun c o => c.Respects ok o) Caller.init c) :
    ∀ i g, c.state.graph i = some g → Q c.world g := by
  induction h with
  | refl =>
    intro i g hg
    cases i <;> cases hg
  | tail hrun hstep ih =>
    obtain ⟨X, hc⟩ := Caller.Run.good hrun Caller.good_init
    obtain ⟨o, hen, hok, hexec⟩ := hstep
    exact hQ.exec hc ih hen hok hexec

end CallerGraphProperty

/-- To agree with the registry is a property of the graphs of callers. -/
theorem callerGraphProperty_agrees :
    CallerGraphProperty K NoRemoval fun (w : World N E) g => g.Agrees w where
  toGraphProperty := graphProperty_agrees
  unregistering h hi hlive ha id r hr := by
    have ht := ha id r hr
    exact ⟨(h.slot r (hi.heap.alive_lt r (ht.alive hi)) (hlive r ⟨id, hr⟩)).trans ht.slot,
      h.registries ▸ ht.entry⟩

/-- So is to store only issued ids. -/
theorem callerGraphProperty_assigns :
    CallerGraphProperty K (fun _ => True) fun (w : World N E) g => g.Assigns w where
  toGraphProperty := graphProperty_assigns
  unregistering h _ _ ha id r hr := by
    obtain ⟨hissued, heq⟩ := ha id r hr
    refine ⟨?_, ?_⟩ <;> rw [h.registries]
    · exact hissued
    · exact heq

/-- Every id that a graph stores was issued for its node, and is the one that the registry has for
it if nobody calls `Registry::remove`. -/
theorem Caller.Run.graph_ids {P : Caller N E → CallerOp N E → Prop}
    (h : Caller.Run A K P Caller.init c) {i : GraphRef} {g : HistoryGraph}
    (hg : c.state.graph i = some g) : g.Assigns c.world ∧
      ((∀ c o, P c o → c.Respects NoRemoval o) → ∀ id r, g.nodes.get id = some r →
        (c.world.registries g.registry).getId c.world.heap r = some id) := by
  refine ⟨?_, fun hP id r hr => ?_⟩
  · exact callerGraphProperty_assigns.run (h.mono fun c o _ => c.respects_true o) i g hg
  · obtain ⟨X, hc⟩ := h.good Caller.good_init
    exact (callerGraphProperty_agrees.run (h.mono hP) i g hg id r hr).getId hc.inv

/-! ### The edge views -/

namespace Caller

/-- The operation puts no value behind an `Rc` that stores an edge or lists a live node. -/
def WrapsBare (c : Caller N E) : CallerOp N E → Prop
  | .rcNew k => ∀ d ∈ c.datas[k]?,
      d.incoming = [] ∧ ∀ e ∈ d.outgoing, ¬ c.world.heap.Alive e.target
  | _ => True

theorem wrapsBare_rcNew_iff (c : Caller N E) (k : ℕ) :
    ((c.datas[k]?).all fun d => d.incoming.isEmpty &&
      d.outgoing.all fun e => !decide (c.world.heap.Alive e.target)) ↔ c.WrapsBare (.rcNew k) := by
  simp [WrapsBare, Option.all_eq_true]

instance (c : Caller N E) (o : CallerOp N E) : Decidable (c.WrapsBare o) :=
  match o with
  | .rcNew k => decidable_of_bool _ (c.wrapsBare_rcNew_iff k)
  | .op _ | .dataDefault _ | .dataClone _ | .dataDrop _ | .dataOutgoing _ | .dataOutgoingWeak _
  | .dataIncomingWeak _ _ | .rcClone _ | .rcDrop _ | .rcDowngrade _ | .rcUpgrade _ | .rcDropWeak _
  | .fromRc _ | .fromRcWeak _ | .edgeClone _ | .edgeDrop _ | .edgeTarget _ => isTrue trivial

/-- Such values are nodes like any other. -/
theorem exempt_eq_empty (h : c.WrapsBare o) : c.exempt ∅ o = ∅ := by
  cases o with
  | rcNew k =>
    rw [exempt]
    cases hd : c.datas[k]? with
    | none => rfl
    | some d =>
      obtain ⟨hin, hout⟩ := h d hd
      have hlists : ¬ ∃ e ∈ d.outgoing, c.world.heap.Alive e.target := by
        rintro ⟨e, he, halive⟩
        exact hout e he halive
      simp [Exempt.wrap, hin, hlists]
      rfl
  | _ => rfl

end Caller

/-- **When the edge views of a graph agree**: in every state of a caller that leaves
`Registry::remove` to the `Drop` hook, just when parents and children record the same edges among
its nodes. So they do for all graphs in runs in which no value that stores an edge or lists a live
node is put behind an `Rc`. -/
theorem views_agree_iff_of_callers
    (h : Caller.Run A K (fun c o => c.Respects NoRemoval o) Caller.init c) :
    (∀ i g, c.state.graph i = some g → (g.ViewsAgree c.world ↔ g.EdgesRecorded c.world)) ∧
    (Caller.Run A K (fun c o => c.Respects NoRemoval o ∧ c.WrapsBare o) Caller.init c →
      ∀ i g, c.state.graph i = some g → g.ViewsAgree c.world) := by
  have hagrees := callerGraphProperty_agrees.run h
  refine ⟨fun i g hg => ?_, fun hbare i g hg => ?_⟩
  · obtain ⟨X, hc⟩ := h.good Caller.good_init
    exact HistoryGraph.viewsAgree_iff hc.inv (hagrees i g hg) (hc.alive_of_stores hg)
  · obtain ⟨X, rfl, hc⟩ := hbare.good_of (Q := fun X => X = ∅)
      (fun c o X hP hX => hX ▸ Caller.exempt_eq_empty hP.2) rfl Caller.good_init
    have hlive := hc.alive_of_stores hg
    exact HistoryGraph.viewsAgree hc.inv (HistoryGraph.edgesRecorded hc.inv hlive)
      (hagrees i g hg) hlive

/-- A graph with a root, its child and a node that was made of fresh data. -/
def plainGraph : Caller ℕ ℕ :=
  Caller.after (fun c o => o.isRemoval = false ∧ c.WrapsBare o) [.op (.new 10), .op (.clone 0),
    .op (.withParents 20 [(0, 1)]), .dataDefault 5, .rcNew 0, .fromRc 2,
    .op (.graphFromNodes [0, 1, 2])]

/-- A node that was made of fresh data, in a graph with a root and its child. -/
theorem views_agree_iff_of_callers_plainGraph :
    ∃ g, plainGraph.state.graph 0 = some g ∧
      g.outgoingEdges plainGraph.world ⟨1, 1⟩ = [⟨⟨2, 1⟩, 0⟩] ∧
      g.ViewsAgree plainGraph.world ∧ g.EdgesRecorded plainGraph.world := by
  have hrun : Caller.Run AddrSource.lowest KeySource.reusing
      (fun c o => o.isRemoval = false ∧ c.WrapsBare o) Caller.init plainGraph :=
    Caller.run_after (by decide +kernel)
  obtain ⟨hiff, hbare⟩ := views_agree_iff_of_callers
    (hrun.mono fun c o h => Caller.respects_noRemoval h.1)
  have hviews := hbare (hrun.mono fun c o h => ⟨Caller.respects_noRemoval h.1, h.2⟩) 0 _ rfl
  exact ⟨_, rfl, by decide +kernel, hviews, (hiff 0 _ rfl).mp hviews⟩

/-- A graph with a root and a copy of its child. -/
def copiedChild : Caller ℕ ℕ :=
  Caller.after (fun _ o => o.isRemoval = false) [.op (.new 10), .op (.clone 0),
    .op (.withParents 20 [(0, 1)]), .dataClone (.node 1), .rcNew 0, .fromRc 2,
    .op (.graphFromNodes [0, 2])]

/-- A graph with a child and a copy of its parent. -/
def copiedRoot : Caller ℕ ℕ :=
  Caller.after (fun _ o => o.isRemoval = false) [.op (.new 10), .op (.clone 0),
    .op (.withParents 20 [(0, 1)]), .dataClone (.node 0), .rcNew 0, .fromRc 2,
    .op (.graphFromNodes [2, 1])]

/-- The edge of the copy is seen from its target only: no node has it among its outgoing edges. -/
theorem views_differ_copiedChild :
    Caller.Run AddrSource.lowest KeySource.reusing (fun c o => c.Respects NoRemoval o) Caller.init
      copiedChild ∧
    ∃ g, copiedChild.state.graph 0 = some g ∧
      g.containsEdge copiedChild.world ⟨⟨2, 1⟩, 0⟩ = true ∧
      g.source copiedChild.world ⟨⟨2, 1⟩, 0⟩ = some ⟨1, 1⟩ ∧
      g.incomingEdges copiedChild.world ⟨2, 1⟩ = [⟨⟨2, 1⟩, 0⟩] ∧
      g.edgeReferences copiedChild.world = [⟨⟨2, 1⟩, 0⟩] ∧
      (∀ u ∈ g.allNodeIds, g.outgoingEdges copiedChild.world u = [] ∧
        g.children copiedChild.world u = []) ∧
      ¬ g.ViewsAgree copiedChild.world := by
  have hrun : Caller.Run AddrSource.lowest KeySource.reusing (fun _ o => o.isRemoval = false)
      Caller.init copiedChild := Caller.run_after (by decide +kernel)
  refine ⟨hrun.mono fun c o h => Caller.respects_noRemoval h, _, rfl, by decide +kernel,
    by decide +kernel, by decide +kernel, by decide +kernel, by decide +kernel, fun hv => ?_⟩
  have hperm := hv.references_perm.length_eq
  revert hperm
  decide +kernel

/-- The copy has an outgoing edge that the graph does not contain. The value that was put behind the
`Rc` stores no edge. -/
theorem views_differ_copiedRoot :
    Caller.Run AddrSource.lowest KeySource.reusing (fun c o => c.Respects NoRemoval o) Caller.init
      copiedRoot ∧
    ∃ g, copiedRoot.state.graph 0 = some g ∧
      g.outgoingEdges copiedRoot.world ⟨1, 1⟩ = [⟨⟨2, 1⟩, 0⟩] ∧
      g.containsEdge copiedRoot.world ⟨⟨2, 1⟩, 0⟩ = false ∧ ¬ g.ViewsAgree copiedRoot.world := by
  have hrun : Caller.Run AddrSource.lowest KeySource.reusing (fun _ o => o.isRemoval = false)
      Caller.init copiedRoot := Caller.run_after (by decide +kernel)
  refine ⟨hrun.mono fun c o h => Caller.respects_noRemoval h, _, rfl, by decide +kernel,
    by decide +kernel, fun hv => ?_⟩
  have hperm := hv.references_perm.length_eq
  revert hperm
  decide +kernel

end Relrc
