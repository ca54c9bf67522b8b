import Relrc.Parametric.Codec
import Relrc.Memory.Program

/-!
# Programs with other values and other addresses

The same operations with other values, over an allocator that chooses other addresses, lead to a
state that differs in values and addresses only; and if one program panics, the other one panics in
the same place with the same message.
-/

namespace Relrc

open SlotStore Ancestry Lockstep

variable {N E M F : Type} {φ : N → M} {ψ : E → F} {A B : AddrSource} {K : KeySource}

/-! ### States with other values -/

/-- Apply functions to the values that a call passes to the library. -/
def Op.map (φ : N → M) (ψ : E → F) : Op N E → Op M F
  | .new value => .new (φ value)
  | .withParents value parents => .withParents (φ value) (parents.map (Prod.map id ψ))
  | .clone node => .clone node
  | .drop handle => .drop handle
  | .downgrade node => .downgrade node
  | .dropWeak node => .dropWeak node
  | .upgrade node => .upgrade node
  | .allOutgoing node => .allOutgoing node
  | .allChildren node => .allChildren node
  | .nOutgoing node => .nOutgoing node
  | .intoTarget e => .intoTarget e
  | .registryNew => .registryNew
  | .registryFromIter nodes => .registryFromIter nodes
  | .registryClone R => .registryClone R
  | .registryFromSerialized ser => .registryFromSerialized (ser.map φ ψ)
  | .cloneRegistry R => .cloneRegistry R
  | .dropRegistry R => .dropRegistry R
  | .addNode R node => .addNode R node
  | .getIdOrInsert R node => .getIdOrInsert R node
  | .remove R id => .remove R id
  | .freeNodeIds R => .freeNodeIds R
  | .tryRegisterIn node R => .tryRegisterIn node R
  | .graphNew nodes R => .graphNew nodes R
  | .graphFromNodes nodes => .graphFromNodes nodes
  | .graphClone g => .graphClone g
  | .graphDrop g => .graphDrop g
  | .insertNode g node => .insertNode g node
  | .insertAncestors g node => .insertAncestors g node
  | .outgoingEdges g u => .outgoingEdges g u
  | .graphFromSerialized ser => .graphFromSerialized (ser.map φ ψ)
  | .toSerialized node R => .toSerialized node R
  | .fromSerialized ser => .fromSerialized (ser.map φ ψ)

/-- The program state `s'` is `s` with other values, and perhaps at other addresses. -/
structure State.Image (φ : N → M) (ψ : E → F) (s : State N E) (s' : State M F) : Prop where
  world : World.Image φ ψ s.world s'.world
  handles : s'.handles = s.handles
  regHandles : s'.regHandles = s.regHandles
  graphs : s'.graphs = s.graphs

namespace State.Image

variable {s : State N E} {s' : State M F}

/-- The same operations can be called. -/
theorem enabled_iff (h : State.Image φ ψ s s') (op : Op N E) :
    (op.map φ ψ).Enabled s' ↔ op.Enabled s := by
  have hgraph : s'.graph = s.graph := by
    funext g
    rw [State.graph, State.graph, h.graphs]
  have halive := h.world.heap.alive_iff
  have hreg := h.world.regAlive_iff
  cases op with
  | withParents value parents =>
    rw [Op.map, Op.Enabled, Op.Enabled, h.handles, List.map_map]
    rfl
  | _ =>
    simp only [Op.map, Op.Enabled, h.handles, h.regHandles, h.world.weaks, halive, hreg, hgraph]

end State.Image

/-- The references of a state, with one graph singled out. -/
theorem State.exists_config {s : State N E} {g : GraphRef} {G : HistoryGraph}
    (hg : s.graph g = some G) :
    ∃ H R, s.held = G.refs + H ∧ s.regs = G.registry ::ₘ R := by
  obtain ⟨H, R, hH, hR, -⟩ := State.exists_graph hg
  refine ⟨s.handles.map Handle.target + H, s.regHandles + R, ?_, ?_⟩
  · rw [State.held, hH, add_left_comm]
  · rw [State.regs, hR, Multiset.add_cons]

/-! ### One operation -/

/-- **Each call does the same**, whatever the values and wherever nodes are allocated. -/
theorem exec_alike {s : State N E} {s' : State M F} {op : Op N E} (hi : s.Inv) (hi' : s'.Inv)
    (h : State.Image φ ψ s s') (hen : op.Enabled s) :
    Alike (State.Image φ ψ) (exec A K s op) (exec B K s' (op.map φ ψ)) := by
  obtain ⟨w', hs, rs, gs⟩ := s'
  obtain ⟨hw, hhandles, hregs, hgraphs⟩ := h
  simp only at hw hhandles hregs hgraphs
  subst hhandles hregs hgraphs
  have ht : Twins φ ψ s.world w' s.held s.regs := ⟨hw, hi, hi'⟩
  cases op with
  | new value =>
    refine Alike.pure ⟨hw.withParents A B value [], ?_, rfl, rfl⟩
    rw [hw.heap.size]
  | withParents value parents =>
    refine Alike.pure ⟨hw.withParents A B value parents, ?_, rfl, rfl⟩
    rw [hw.heap.size, List.map_map]
    rfl
  | clone node => exact Alike.pure ⟨hw.clone node, rfl, rfl, rfl⟩
  | drop handle =>
    rw [State.held, map_target_of_mem hen, Multiset.cons_add] at ht
    exact Alike.pure ⟨ht.drop.image, rfl, rfl, rfl⟩
  | downgrade node =>
    refine Alike.pure ⟨?_, rfl, rfl, rfl⟩
    rw [hw.weaks]
    exact hw.setWeaks _
  | dropWeak node =>
    refine Alike.pure ⟨?_, rfl, rfl, rfl⟩
    rw [hw.weaks]
    exact hw.setWeaks _
  | upgrade node =>
    simp only [Op.map, exec, hw.heap.upgrade]
    cases s.world.heap.upgrade node with
    | none => exact Alike.pure ⟨hw, rfl, rfl, rfl⟩
    | some r => exact Alike.pure ⟨hw.clone r, rfl, rfl, rfl⟩
  | allOutgoing node =>
    refine Alike.pure ⟨(ht.allOutgoing_snd node).image, ?_, rfl, rfl⟩
    rw [ht.allOutgoing_fst]
  | allChildren node =>
    refine Alike.pure ⟨(ht.allOutgoing_snd node).image, ?_, rfl, rfl⟩
    simp only [World.allChildren, ht.allOutgoing_fst]
  | nOutgoing node => exact Alike.pure ⟨(ht.nOutgoing_snd node).image, rfl, rfl, rfl⟩
  | intoTarget e => exact Alike.pure ⟨hw, rfl, rfl, rfl⟩
  | registryNew =>
    refine Alike.pure ⟨hw.allocRegistry rfl, rfl, ?_, rfl⟩
    rw [hw.nregs]
  | registryFromIter nodes =>
    refine Alike.pure ⟨hw.allocRegistry (ht.fromIter hen), rfl, ?_, rfl⟩
    rw [hw.nregs]
  | registryClone R =>
    refine Alike.pure ⟨hw.allocRegistry (hw.nodes R), rfl, ?_, rfl⟩
    rw [hw.nregs]
  | registryFromSerialized ser =>
    refine (ht.registryFromSerialized ser).bind ?_
    rintro ⟨R, nodes, v⟩ ⟨R', nodes', v'⟩ ⟨hR, hnodes, htv⟩
    simp only at hR hnodes htv ⊢
    subst hR hnodes
    exact Alike.pure ⟨htv.image, rfl, rfl, rfl⟩
  | cloneRegistry R => exact Alike.pure ⟨hw.cloneRegistry R, rfl, rfl, rfl⟩
  | dropRegistry R => exact Alike.pure ⟨hw.dropRegistry R, rfl, rfl, rfl⟩
  | addNode R node =>
    exact Alike.pure ⟨hw.setRegistry R (ht.addNode_registry R hen.2).2, rfl, rfl, rfl⟩
  | getIdOrInsert R node =>
    refine Alike.pure ⟨hw.setRegistry R ?_, rfl, rfl, rfl⟩
    rw [Registry.getIdOrInsert_eq, Registry.getIdOrInsert_eq]
    exact (ht.addNode_registry R hen.2).2
  | remove R id =>
    exact Alike.pure ⟨hw.setRegistry R (Twins.nodes_remove (hw.nodes R) _ _ id), rfl, rfl, rfl⟩
  | freeNodeIds R =>
    exact Alike.pure ⟨hw.setRegistry R (ht.freeNodeIds (hw.nodes R)).2, rfl, rfl, rfl⟩
  | tryRegisterIn node R =>
    exact Alike.pure ⟨(ht.tryRegisterIn hen.1 hen.2).2.image, rfl, rfl, rfl⟩
  | graphNew nodes R =>
    rw [State.held_of_le hen.1] at ht
    have hnew := ht.graphNew (K := K) (Multiset.mem_add.mpr (Or.inl hen.2))
    refine Alike.pure ⟨hnew.twins.image, rfl, rfl, ?_⟩
    rw [State.addGraph, State.addGraph, hnew.graph]
  | graphFromNodes nodes =>
    rw [State.held_of_le hen] at ht
    have hnew := ht.fromNodes (K := K)
    refine Alike.pure ⟨hnew.twins.image, rfl, rfl, ?_⟩
    rw [State.addGraph, State.addGraph, hnew.graph]
  | graphClone g =>
    obtain ⟨G, hg⟩ := Option.isSome_iff_exists.mp hen
    have hg' : (⟨w', s.handles, s.regHandles, s.graphs⟩ : State M F).graph g = some G := hg
    obtain ⟨H, R, hheld, hregs⟩ := State.exists_config hg
    rw [hheld, hregs] at ht
    simp only [Op.map, exec, hg, hg']
    exact Alike.pure ⟨ht.graphClone.image, rfl, rfl, rfl⟩
  | graphDrop g =>
    obtain ⟨G, hg⟩ := Option.isSome_iff_exists.mp hen
    have hg' : (⟨w', s.handles, s.regHandles, s.graphs⟩ : State M F).graph g = some G := hg
    obtain ⟨H, R, hheld, hregs⟩ := State.exists_config hg
    rw [hheld, hregs] at ht
    simp only [Op.map, exec, hg, hg']
    exact Alike.pure ⟨ht.graphDrop.image, rfl, rfl, rfl⟩
  | insertNode g node =>
    obtain ⟨G, hg⟩ := Option.isSome_iff_exists.mp hen.1
    have hg' : (⟨w', s.handles, s.regHandles, s.graphs⟩ : State M F).graph g = some G := hg
    obtain ⟨-, R, -, hregs⟩ := State.exists_config hg
    obtain ⟨H, hheld⟩ := State.exists_held hg hen.2
    rw [hheld, hregs] at ht
    simp only [Op.map, exec, hg, hg']
    obtain ⟨-, hins⟩ := (GraphTwins.start ht).insertNode (K := K) (Multiset.mem_cons_self _ R)
    refine Alike.pure ⟨hins.twins.image, rfl, rfl, ?_⟩
    exact congrArg (fun x => s.graphs.set g (some x)) hins.graph
  | insertAncestors g node =>
    obtain ⟨G, hg⟩ := Option.isSome_iff_exists.mp hen.1
    have hg' : (⟨w', s.handles, s.regHandles, s.graphs⟩ : State M F).graph g = some G := hg
    obtain ⟨-, R, -, hregs⟩ := State.exists_config hg
    obtain ⟨H, hheld⟩ := State.exists_held hg hen.2
    rw [hheld, hregs] at ht
    simp only [Op.map, exec, hg, hg']
    refine (ht.insertAncestors (K := K) (Multiset.mem_cons_self _ R)).bind fun _ _ hres => ?_
    refine Alike.pure ⟨hres.2.twins.image, rfl, rfl, ?_⟩
    exact congrArg (fun x => s.graphs.set g (some x)) hres.2.graph
  | outgoingEdges g u =>
    obtain ⟨G, hg⟩ := Option.isSome_iff_exists.mp hen
    have hg' : (⟨w', s.handles, s.regHandles, s.graphs⟩ : State M F).graph g = some G := hg
    simp only [Op.map, exec, hg, hg']
    exact Alike.pure ⟨(ht.afterOutgoingEdges G u).image, rfl, rfl, rfl⟩
  | graphFromSerialized ser =>
    refine (ht.graphFromSerialized ser).bind fun _ _ hres => ?_
    refine Alike.pure ⟨hres.2.image, rfl, rfl, ?_⟩
    rw [State.addGraph, State.addGraph, hres.1]
  | toSerialized node R =>
    refine (ht.toSerialized hen.1 hen.2).bind fun _ _ hres => ?_
    exact Alike.pure ⟨hres.2.image, rfl, rfl, rfl⟩
  | fromSerialized ser =>
    refine (ht.fromSerialized ser).bind fun _ _ hres => ?_
    refine Alike.pure ⟨hres.2.image, ?_, rfl, rfl⟩
    rw [hres.1]

/-! ### Runs -/

section Runs

variable {s : State N E} {s' : State M F}

/-- States that differ in values and addresses only have memories in step. -/
theorem State.Image.twins (h : State.Image φ ψ s s') (hi : s.Inv) (hi' : s'.Inv) :
    Twins φ ψ s.world s'.world s.held s.regs := by
  obtain ⟨w', hs, rs, gs⟩ := s'
  obtain ⟨hw, hhandles, hregs, hgraphs⟩ := h
  simp only at hw hhandles hregs hgraphs
  subst hhandles hregs hgraphs
  exact ⟨hw, hi, hi'⟩

theorem State.image_init : State.Image φ ψ (State.init : State N E) (State.init : State M F) :=
  ⟨⟨⟨rfl, rfl, fun _ => rfl⟩, fun _ => rfl, rfl, rfl, rfl⟩, rfl, rfl, rfl⟩

theorem inv_of_exec {s t : State N E} {op : Op N E} (hi : s.Inv) (hen : op.Enabled s)
    (h : exec A K s op = .ok t) : t.Inv := by
  have hsteps : Steps A K (fun _ => True) s.config t.config :=
    exec_steps hi hen (fun _ _ => trivial) h
  exact Steps.inv hsteps hi

end Runs

end Relrc
