import Relrc.Memory.Callers
import Relrc.Edges

/-!
# The owner of an edge

The target of an edge is documented to be its owner, so that `InnerEdgeData::target` never panics.
In a program that copies nothing it is (`Caller.owned_of_run`). But `InnerData` and `InnerEdgeData`
are `Clone`, and a copy of a node that has parents stores edges whose target is the original: the
copy is not among the children of its parents, and when the original dies before it, `target` panics
(`target_gone_orphanedCopy`).

A copy of a node **without** parents stores no edge, and so breaks nothing here. A copy of an edge,
in a value that is not a node, is good for as long as the caller keeps its target. There is no other
way to break the rule (`owned_iff_of_run`).
-/

namespace Relrc

open SlotStore Ancestry Fallible

variable {N E : Type} {A : AddrSource} {K : KeySource} {X : Exempt}

namespace Caller

/-- What is documented of edges: a target can be upgraded, and the target of a stored edge is the
node that stores it, which is a child of the source. -/
structure Owned (c : Caller N E) : Prop where
  held : ∀ e ∈ c.heldEdges, ∃ t, c.world.heap.edgeTarget e = some t
  stored : ∀ node index e, c.world.heap.Alive node → c.world.heap.incoming node index = some e →
    ∃ t, c.world.heap.edgeTarget e = some t ∧ c.world.heap.ptrEq t node = true ∧
      node ∈ (c.world.allChildren e.source).1

/-- The caller keeps the target of each edge among its values: it holds the target itself or a node
below it. -/
def Covered (c : Caller N E) : Prop :=
  ∀ e ∈ c.heldEdges, ∃ x ∈ c.held, Reaches c.world.heap.allParents x e.target

/-- The operation puts no value behind an `Rc` that stores edges. -/
def WrapsNoEdge (c : Caller N E) : CallerOp N E → Prop
  | .rcNew k => ∀ d ∈ c.datas[k]?, d.incoming = []
  | _ => True

/-- Whether a value stores an edge can be decided. -/
theorem wrapsNoEdge_rcNew_iff (c : Caller N E) (k : ℕ) :
    ((c.datas[k]?).all fun d => d.incoming.isEmpty) ↔ c.WrapsNoEdge (.rcNew k) := by
  simp [WrapsNoEdge, Option.all_eq_true]

instance (c : Caller N E) (o : CallerOp N E) : Decidable (c.WrapsNoEdge o) :=
  match o with
  | .rcNew k => decidable_of_bool _ (c.wrapsNoEdge_rcNew_iff k)
  | .op _ | .dataDefault _ | .dataClone _ | .dataDrop _ | .dataOutgoing _ | .dataOutgoingWeak _
  | .dataIncomingWeak _ _ | .rcClone _ | .rcDrop _ | .rcDowngrade _ | .rcUpgrade _ | .rcDropWeak _
  | .fromRc _ | .fromRcWeak _ | .edgeClone _ | .edgeDrop _ | .edgeTarget _ => isTrue trivial

/-- Where no value with edges is put behind an `Rc`, no node stores the edges of another. -/
theorem stores_exempt {c : Caller N E} {o : CallerOp N E} (h : c.WrapsNoEdge o) (X : Exempt) :
    (c.exempt X o).stores = X.stores := by
  cases o with
  | rcNew k =>
    rw [exempt]
    cases hd : c.datas[k]? with
    | none => rfl
    | some d => simp [Exempt.wrap, h d hd]
  | _ => rfl

end Caller

variable {c c' : Caller N E}

namespace Caller.Good

/-- **An edge is good exactly when its target is kept**, and stored edges are. -/
theorem owned_iff (hc : c.Good X) (hX : X.stores = ∅) : c.Owned ↔ c.Covered := by
  have hi := hc.inv
  have hheld : ∀ e : InnerEdgeData E, (∃ t, c.world.heap.edgeTarget e = some t) ↔
      ∃ x ∈ c.held, Reaches c.world.heap.allParents x e.target := by
    intro e
    rw [← hi.heap.alive_iff_reached, Heap.edgeTarget, Heap.upgrade]
    by_cases halive : c.world.heap.Alive e.target <;> simp [halive]
  refine ⟨fun ho e he => (hheld e).mp (ho.held e he), fun hcov => ⟨fun e he =>
    (hheld e).mpr (hcov e he), fun node index e hnode he => ?_⟩⟩
  have hmem : e ∈ c.world.heap.allIncoming node := List.mem_of_getElem? he
  have hnot : ∀ x, x ∉ X.stores := fun x => hX ▸ Set.notMem_empty x
  have htarget : e.target = node := hi.heap.target_eq node (hnot node) e hmem
  have hsource : c.world.heap.Alive e.source :=
    hi.heap.parent_alive (List.mem_map_of_mem hmem)
  refine ⟨node, ?_, by simp [Heap.ptrEq], ?_⟩
  · rw [Heap.edgeTarget, htarget]
    exact upgrade_eq_some_iff.mpr hnode
  · -- the edge is recorded with its source, and upgrades
    have hfrom : (⟨index, node⟩ : WeakEdge) ∈ c.world.heap.edgesFrom e.source := by
      refine Heap.mem_edgesFrom.mpr ⟨hi.heap.alive_lt node hnode, ?_⟩
      rw [Heap.allParents, List.getElem?_map]
      exact Option.map_eq_some_iff.mpr ⟨e, he, rfl⟩
    have hlisted := hi.heap.listed _ hsource _ hfrom (hnot node)
    refine List.mem_map.mpr ⟨⟨index, node⟩, List.mem_filterMap.mpr ⟨_, hlisted, ?_⟩, rfl⟩
    rw [Heap.upgradeEdge, upgrade_eq_some_iff.mpr hnode]
    rfl

/-- A value that stores an edge, once it is a node, is not the target of the edge. -/
theorem not_owned (hc : c.Good X) {k : ℕ} {d : InnerData N E} (hd : c.datas[k]? = some d)
    (hne : d.incoming ≠ []) (h : Caller.exec A K c (.rcNew k) = .ok c') : ¬ c'.Owned := by
  simp only [exec, hd] at h
  obtain rfl := pure_eq_ok_iff.mp h
  obtain ⟨e, rest, hin⟩ := List.exists_cons_of_ne_nil hne
  set heap := c.world.heap.alloc (c.world.nextAddr A) d with hheap
  have halive : 0 < heap.strong c.world.heap.size := by simp [hheap, Heap.alloc]
  have hincoming : heap.incoming c.world.heap.size 0 = some e := by
    simp [hheap, Heap.incoming, Heap.allIncoming, Heap.alloc, hin]
  intro ho
  obtain ⟨t, ht, hptr, -⟩ := ho.stored c.world.heap.size 0 e halive hincoming
  obtain rfl : t = e.target := by
    rw [Heap.edgeTarget, Heap.upgrade] at ht
    split_ifs at ht
    exact (Option.some.inj ht).symm
  -- the target had its address before the new node got one
  have huse : c.world.InUse e.target := hc.inUse_of_weakRef (p := .value k) hd
    (List.mem_append.mpr (Or.inl (List.mem_map_of_mem (by simp [hin]))))
  have hlt : e.target ≠ c.world.heap.size := Nat.ne_of_lt (hc.inv.inUse_lt _ huse)
  refine hc.inv.addr_ne_nextAddr (A := A) huse ?_
  have haddr : heap.addr e.target = heap.addr c.world.heap.size := beq_iff_eq.mp hptr
  simpa [hheap, Heap.alloc, hlt] using haddr

end Caller.Good

/-! ### Runs -/

/-- In a run that puts no edge behind an `Rc`, no node stores the edges of another. -/
theorem Caller.Run.good_of_wrapsNoEdge (h : Caller.Run A K Caller.WrapsNoEdge Caller.init c) :
    ∃ X, X.stores = ∅ ∧ c.Good X :=
  h.good_of (Q := fun X => X.stores = ∅) (fun _ _ X hP hX => (Caller.stores_exempt hP X).trans hX)
    rfl Caller.good_init

/-- As long as nothing is copied, the target of an edge is its owner. -/
theorem Caller.owned_of_run {P : State N E → Op N E → Prop} {s : State N E}
    (h : Relrc.Run A K P State.init s) : (⟨s, [], 0, 0, []⟩ : Caller N E).Owned := by
  obtain ⟨X, hX, hc⟩ := Caller.Run.good_of_wrapsNoEdge (Caller.run_of_run h fun _ _ _ => trivial)
  exact (hc.owned_iff hX).mpr fun e he => absurd he List.not_mem_nil

/-- **When the target of an edge is its owner**: in a run that puts no edge behind an `Rc`, just
when the caller keeps the targets of the edges that it has copied. Putting an edge behind an `Rc`
breaks it. -/
theorem owned_iff_of_run (h : Caller.Run A K Caller.WrapsNoEdge Caller.init c) :
    (c.Owned ↔ c.Covered) ∧
    ∀ o c', o.Enabled c → ¬ c.WrapsNoEdge o → c.exec A K o = .ok c' → ¬ c'.Owned := by
  obtain ⟨X, hX, hc⟩ := Caller.Run.good_of_wrapsNoEdge h
  refine ⟨hc.owned_iff hX, fun o c' hen hP hexec => ?_⟩
  cases o with
  | rcNew k =>
    obtain ⟨d, hd, hne⟩ : ∃ d ∈ c.datas[k]?, d.incoming ≠ [] := by
      simpa [Caller.WrapsNoEdge] using hP
    exact hc.not_owned hd hne hexec
  | _ => exact absurd trivial hP

/-- A root with a child and a copy of the root, which is a node as well; and copies of the edge
between them and of the child, which are values. -/
def copiedPair : Caller ℕ ℕ :=
  Caller.after Caller.WrapsNoEdge [.op (.new 10), .op (.clone 0), .op (.withParents 20 [(0, 1)]),
    .dataClone (.node 0), .rcNew 0, .fromRc 2, .edgeClone (.incoming (.node 1) 0),
    .dataClone (.node 1)]

theorem owned_iff_of_run_copiedPair :
    copiedPair.heldEdges.map InnerEdgeData.target = [1, 1] ∧ copiedPair.Owned ∧
    ∃ c', Caller.exec AddrSource.lowest KeySource.reusing copiedPair (.rcNew 0) = .ok c' ∧
      ¬ c'.Owned := by
  have hrun : Caller.Run AddrSource.lowest KeySource.reusing Caller.WrapsNoEdge Caller.init
      copiedPair := Caller.run_after (by decide +kernel)
  have htargets : copiedPair.heldEdges.map InnerEdgeData.target = [1, 1] := by decide +kernel
  have hheld : 1 ∈ copiedPair.held := by decide +kernel
  have hcovered : copiedPair.Covered := by
    intro e he
    have htarget : e.target ∈ [1, 1] := htargets ▸ List.mem_map_of_mem he
    have h1 : e.target = 1 := by simpa using htarget
    refine ⟨1, hheld, ?_⟩
    rw [h1]
    exact Reaches.refl 1
  have hsome : (copiedPair.datas[0]?).isSome := by decide +kernel
  obtain ⟨d, hd⟩ := Option.isSome_iff_exists.mp hsome
  obtain ⟨c', hc'⟩ : ∃ c', Caller.exec AddrSource.lowest KeySource.reusing copiedPair (.rcNew 0) =
      .ok c' := by
    simp only [Caller.exec, hd]
    exact ⟨_, rfl⟩
  obtain ⟨hiff, hwraps⟩ := owned_iff_of_run hrun
  exact ⟨htargets, hiff.mpr hcovered, c', hc',
    hwraps (.rcNew 0) c' (by decide +kernel) (by decide +kernel) hc'⟩

/-- A copy of a child that has become a node, after the child itself was dropped. -/
def orphanedCopy : Caller ℕ ℕ :=
  Caller.after (fun _ _ => True) [.op (.new 10), .op (.clone 0), .op (.withParents 20 [(0, 1)]),
    .dataClone (.node 1), .rcNew 0, .fromRc 2, .op (.drop (.node 1))]

/-- The copy is alive, but the target of the edge that it stores is not: `target` panics. -/
theorem target_gone_orphanedCopy :
    Caller.Run AddrSource.lowest KeySource.reusing (fun _ _ => True) Caller.init orphanedCopy ∧
    orphanedCopy.world.heap.Alive 2 ∧
    Caller.exec AddrSource.lowest KeySource.reusing orphanedCopy
      (.edgeTarget (.incoming (.node 2) 0)) = .error .targetGone ∧
    ¬ orphanedCopy.Owned := by
  have halive : orphanedCopy.world.heap.Alive 2 := by decide +kernel
  have hedge : (orphanedCopy.edgeAt (.incoming (.node 2) 0)).map
      orphanedCopy.world.heap.edgeTarget = some none := by decide +kernel
  obtain ⟨e, he, hgone⟩ := Option.map_eq_some_iff.mp hedge
  refine ⟨Caller.run_after (by decide +kernel), halive, ?_, fun ho => ?_⟩
  · simp only [Caller.exec, he, hgone]
    rfl
  · rw [Caller.edgeAt_node] at he
    obtain ⟨t, ht, -⟩ := ho.stored 2 0 e halive he
    rw [hgone] at ht
    cases ht

end Relrc
