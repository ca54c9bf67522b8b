import Relrc.Memory.Program
import Relrc.Model.Copies

/-!
# Handles that an operation does not touch

An operation consumes the handles it is called with. Handles that a program holds besides make no
difference to it (`exec_addHandles`), and no function of the library creates or drops a weak handle
of the program (`exec_weaks`).
-/

namespace Relrc

open SlotStore Fallible

variable {N E : Type} {A : AddrSource} {K : KeySource} {s s' : State N E}

/-! ### More handles -/

theorem State.config_addHandles (s : State N E) (Y : Multiset Handle) :
    (s.addHandles Y).config = ⟨s.world, Y.map Handle.target + s.held, s.regs⟩ := by
  rw [State.config, State.held, State.held, State.addHandles, Multiset.map_add, add_assoc]
  rfl

private theorem addHandles_cons (s : State N E) (Y : Multiset Handle) (w : World N E) (x : Handle) :
    ({ s.addHandles Y with world := w, handles := x ::ₘ (s.addHandles Y).handles } : State N E) =
      State.addHandles { s with world := w, handles := x ::ₘ s.handles } Y := by
  simp only [State.addHandles, Multiset.add_cons]

/-- **More handles make no difference**: they are there before and after. -/
theorem exec_addHandles {op : Op N E} (hen : op.Enabled s) (h : exec A K s op = .ok s')
    (Y : Multiset Handle) :
    op.Enabled (s.addHandles Y) ∧ exec A K (s.addHandles Y) op = .ok (s'.addHandles Y) := by
  have hle : s.handles ≤ Y + s.handles := Multiset.le_add_left _ _
  have hmem : ∀ x ∈ s.handles, x ∈ Y + s.handles ∧
      (Y + s.handles).erase x = Y + s.handles.erase x :=
    fun x hx => ⟨Multiset.mem_of_le hle hx, Multiset.erase_add_right_pos Y hx⟩
  have hsub : ∀ nodes, nodeHandles nodes ≤ s.handles → nodeHandles nodes ≤ Y + s.handles ∧
      Y + s.handles - nodeHandles nodes = Y + (s.handles - nodeHandles nodes) :=
    fun nodes hn => ⟨hn.trans hle, add_tsub_assoc_of_le hn Y⟩
  cases op with
  | new value =>
    obtain rfl := pure_eq_ok_iff.mp h
    exact ⟨hen, congrArg Except.ok (addHandles_cons s Y _ _)⟩
  | withParents value parents =>
    obtain rfl := pure_eq_ok_iff.mp h
    obtain ⟨hen', hrest⟩ := hsub _ hen
    refine ⟨hen', congrArg Except.ok ?_⟩
    simp only [State.addHandles, hrest, Multiset.add_cons]
  | clone node =>
    obtain rfl := pure_eq_ok_iff.mp h
    exact ⟨hen, congrArg Except.ok (addHandles_cons s Y _ _)⟩
  | drop handle =>
    obtain rfl := pure_eq_ok_iff.mp h
    obtain ⟨hen', hrest⟩ := hmem _ hen
    exact ⟨hen', congrArg Except.ok (by simp only [State.addHandles, hrest])⟩
  | upgrade node =>
    simp only [exec] at h
    split at h
    · rename_i r hr
      obtain rfl := pure_eq_ok_iff.mp h
      refine ⟨hen, ?_⟩
      simp only [exec, State.addHandles, hr, Multiset.add_cons]
      rfl
    · rename_i hr
      obtain rfl := pure_eq_ok_iff.mp h
      refine ⟨hen, ?_⟩
      simp only [exec, State.addHandles, hr]
      rfl
  | allOutgoing node =>
    obtain rfl := pure_eq_ok_iff.mp h
    exact ⟨hen, congrArg Except.ok (by simp only [State.addHandles, add_left_comm])⟩
  | allChildren node =>
    obtain rfl := pure_eq_ok_iff.mp h
    exact ⟨hen, congrArg Except.ok (by simp only [State.addHandles, add_left_comm])⟩
  | intoTarget e =>
    obtain rfl := pure_eq_ok_iff.mp h
    obtain ⟨hen', hrest⟩ := hmem _ hen
    exact ⟨hen', congrArg Except.ok (by simp only [State.addHandles, hrest, Multiset.add_cons])⟩
  | registryFromSerialized ser =>
    obtain ⟨res, hres, h⟩ := bind_eq_ok_iff.mp h
    obtain rfl := pure_eq_ok_iff.mp h
    refine ⟨hen, bind_eq_ok_iff.mpr ⟨res, hres, congrArg Except.ok ?_⟩⟩
    simp only [State.addHandles, add_left_comm]
  | graphNew nodes R =>
    obtain rfl := pure_eq_ok_iff.mp h
    obtain ⟨hen', hrest⟩ := hsub _ hen.1
    refine ⟨⟨hen', hen.2⟩, congrArg Except.ok ?_⟩
    simp only [State.addHandles, State.addGraph, hrest]
  | graphFromNodes nodes =>
    obtain rfl := pure_eq_ok_iff.mp h
    obtain ⟨hen', hrest⟩ := hsub _ hen
    refine ⟨hen', congrArg Except.ok ?_⟩
    simp only [State.addHandles, State.addGraph, hrest]
  | graphClone g =>
    obtain ⟨G, hg⟩ := Option.isSome_iff_exists.mp hen
    simp only [exec, hg] at h
    obtain rfl := pure_eq_ok_iff.mp h
    refine ⟨hen, ?_⟩
    have hg' : (s.addHandles Y).graph g = some G := hg
    simp only [exec, hg']
    rfl
  | graphDrop g =>
    obtain ⟨G, hg⟩ := Option.isSome_iff_exists.mp hen
    simp only [exec, hg] at h
    obtain rfl := pure_eq_ok_iff.mp h
    refine ⟨hen, ?_⟩
    have hg' : (s.addHandles Y).graph g = some G := hg
    simp only [exec, hg']
    rfl
  | insertNode g node =>
    obtain ⟨G, hg⟩ := Option.isSome_iff_exists.mp hen.1
    simp only [exec, hg] at h
    obtain rfl := pure_eq_ok_iff.mp h
    obtain ⟨hen', hrest⟩ := hmem _ hen.2
    refine ⟨⟨hen.1, hen'⟩, ?_⟩
    have hg' : (s.addHandles Y).graph g = some G := hg
    simp only [exec, hg']
    refine congrArg Except.ok ?_
    simp only [State.addHandles, State.setGraph, hrest]
  | insertAncestors g node =>
    obtain ⟨G, hg⟩ := Option.isSome_iff_exists.mp hen.1
    simp only [exec, hg] at h
    obtain ⟨res, hres, h⟩ := bind_eq_ok_iff.mp h
    obtain rfl := pure_eq_ok_iff.mp h
    obtain ⟨hen', hrest⟩ := hmem _ hen.2
    refine ⟨⟨hen.1, hen'⟩, ?_⟩
    have hg' : (s.addHandles Y).graph g = some G := hg
    simp only [exec, hg']
    refine bind_eq_ok_iff.mpr ⟨res, hres, congrArg Except.ok ?_⟩
    simp only [State.addHandles, State.setGraph, hrest]
  | outgoingEdges g u =>
    obtain ⟨G, hg⟩ := Option.isSome_iff_exists.mp hen
    simp only [exec, hg] at h
    obtain rfl := pure_eq_ok_iff.mp h
    refine ⟨hen, ?_⟩
    have hg' : (s.addHandles Y).graph g = some G := hg
    simp only [exec, hg']
    rfl
  | graphFromSerialized ser =>
    obtain ⟨res, hres, h⟩ := bind_eq_ok_iff.mp h
    obtain rfl := pure_eq_ok_iff.mp h
    exact ⟨hen, bind_eq_ok_iff.mpr ⟨res, hres, rfl⟩⟩
  | toSerialized node R =>
    obtain ⟨res, hres, h⟩ := bind_eq_ok_iff.mp h
    obtain rfl := pure_eq_ok_iff.mp h
    exact ⟨hen, bind_eq_ok_iff.mpr ⟨res, hres, rfl⟩⟩
  | fromSerialized ser =>
    obtain ⟨res, hres, h⟩ := bind_eq_ok_iff.mp h
    obtain rfl := pure_eq_ok_iff.mp h
    refine ⟨hen, bind_eq_ok_iff.mpr ⟨res, hres, congrArg Except.ok ?_⟩⟩
    exact addHandles_cons s Y _ _
  | _ =>
    obtain rfl := pure_eq_ok_iff.mp h
    exact ⟨hen, rfl⟩

/-! ### Weak handles -/

section Weaks

variable (w : World N E)

theorem World.weaks_drop (r : Ref) : (w.drop r).weaks = w.weaks := by
  suffices haux : ∀ n (w : World N E) r, (World.dropAux n w r).weaks = w.weaks from
    haux (r + 1) w r
  intro n
  induction n with
  | zero => exact fun _ _ => rfl
  | succ n ih =>
    intro w r
    rw [World.dropAux]
    refine List.foldlRecOn (motive := fun v : World N E => v.weaks = w.weaks)
      (w.releases r) _ (w.fields_release r).2.2.2.2 ?_
    exact fun v hv x _ => (ih v x).trans hv

theorem World.weaks_dropAll (rs : List Ref) : (w.dropAll rs).weaks = w.weaks :=
  List.foldlRecOn (motive := fun v : World N E => v.weaks = w.weaks) rs _ rfl
    fun v hv x _ => (v.weaks_drop x).trans hv

theorem World.weaks_tryRegisterIn (r : Ref) (R : RegRef) :
    (w.tryRegisterIn K r R).2.weaks = w.weaks := by
  rcases w.tryRegisterIn_cases (K := K) r R with ⟨_, _, _, h⟩ | ⟨_, h⟩ | ⟨_, h⟩ <;> rw [h] <;> rfl

theorem World.weaks_dropRegistry (R : RegRef) : (w.dropRegistry R).weaks = w.weaks := by
  rw [World.dropRegistry]
  split_ifs <;> rfl

namespace HistoryGraph

variable (g : HistoryGraph)

theorem weaks_insertNode (node : Ref) : (g.insertNode K w node).2.1.weaks = w.weaks := by
  rw [insertNode]
  split
  · exact w.weaks_drop node
  · have hreg := w.weaks_tryRegisterIn (K := K) node g.registry
    split
    · rename_i heq
      rw [heq] at hreg
      exact (World.weaks_drop _ _).trans hreg
    · rename_i heq
      rw [heq] at hreg
      exact (World.weaks_dropAll _ _).trans hreg

theorem weaks_new (nodes : List Ref) (R : RegRef) : (new K w nodes R).1.weaks = w.weaks :=
  List.foldlRecOn (motive := fun wg : World N E × HistoryGraph => wg.1.weaks = w.weaks) nodes _ rfl
    fun wg hwg x _ => (wg.2.weaks_insertNode wg.1 x).trans hwg

theorem weaks_drop : (g.drop w).weaks = w.weaks :=
  (World.weaks_dropRegistry _ _).trans (w.weaks_dropAll _)

variable {w g} {w' : World N E} {g' : HistoryGraph}

theorem weaks_insertAncestorsAux (n : ℕ) {node : Ref} {id : NodeId}
    (h : g.insertAncestorsAux K n w node = .ok (id, w', g')) : w'.weaks = w.weaks := by
  induction n generalizing w g w' g' node id with
  | zero => cases h
  | succ n ih =>
    rw [insertAncestorsAux] at h
    obtain ⟨⟨w1, g1⟩, hloop, h⟩ := bind_eq_ok_iff.mp h
    obtain ⟨x, -, h⟩ := bind_eq_ok_iff.mp h
    have hw : _ = w' := (Prod.mk.inj (Prod.mk.inj (pure_eq_ok_iff.mp h)).2).1
    have hw1 : w1.weaks = w.weaks := by
      refine foldlM_partial (I := fun _ (wg : World N E × HistoryGraph) => wg.1.weaks = w.weaks)
        hloop rfl fun parent rest wa wb _ hIa hstep => ?_
      split_ifs at hstep
      · obtain rfl := pure_eq_ok_iff.mp hstep
        exact hIa
      · obtain ⟨res, hrec, hstep⟩ := bind_eq_ok_iff.mp hstep
        obtain rfl := pure_eq_ok_iff.mp hstep
        exact (ih hrec).trans hIa
    rw [← hw, World.weaks_drop, weaks_insertNode]
    exact hw1

theorem weaks_afterOutgoingEdges (u : NodeId) : (g.afterOutgoingEdges w u).weaks = w.weaks := by
  rw [afterOutgoingEdges]
  split
  · exact World.weaks_dropAll _ _
  · rfl

end HistoryGraph

variable {w} {w' : World N E}

namespace Decoding

variable {d d' : Decoding N E} {nodeId : NodeId}

theorem weaks_create {ser : SerializedInnerData N E} (h : d.create A nodeId ser = .ok d') :
    d'.world.weaks = d.world.weaks := by
  rw [create] at h
  obtain ⟨parents, -, h⟩ := bind_eq_ok_iff.mp h
  obtain rfl := pure_eq_ok_iff.mp h
  exact World.weaks_dropAll _ _

theorem weaks_node (n : ℕ) (h : node A n d nodeId = .ok d') : d'.world.weaks = d.world.weaks := by
  induction n generalizing d d' nodeId with
  | zero => cases h
  | succ n ih =>
    rw [node] at h
    obtain ⟨ser, -, h⟩ := bind_eq_ok_iff.mp h
    obtain ⟨d1, hloop, h⟩ := bind_eq_ok_iff.mp h
    refine (weaks_create h).trans ?_
    refine foldlM_partial (I := fun _ (x : Decoding N E) => x.world.weaks = d.world.weaks) hloop rfl
      fun pe rest da db _ hIa hstep => ?_
    split_ifs at hstep
    · obtain rfl := pure_eq_ok_iff.mp hstep
      exact hIa
    · exact (ih hstep).trans hIa

theorem weaks_loop (n : ℕ) (h : loop A n d = .ok d') : d'.world.weaks = d.world.weaks := by
  induction n generalizing d with
  | zero => rw [pure_eq_ok_iff.mp h]
  | succ n ih =>
    rw [loop] at h
    split at h
    · rw [pure_eq_ok_iff.mp h]
    · obtain ⟨d1, hfirst, h⟩ := bind_eq_ok_iff.mp h
      exact (ih h).trans (weaks_node _ hfirst)

end Decoding

theorem weaks_registryFromSerialized {ser : SerializedRegistry N E} {R : RegRef}
    {nodes : Slots Ref} (h : Registry.fromSerialized A w ser = .ok (R, nodes, w')) :
    w'.weaks = w.weaks := by
  rw [Registry.fromSerialized] at h
  obtain ⟨⟨w1, nodes1⟩, hnodes, h⟩ := bind_eq_ok_iff.mp h
  obtain ⟨m, -, h⟩ := bind_eq_ok_iff.mp h
  have hw : _ = w' := (Prod.mk.inj (Prod.mk.inj (pure_eq_ok_iff.mp h)).2).2
  rw [deserializeNodes] at hnodes
  obtain ⟨d, hloop, hnodes⟩ := bind_eq_ok_iff.mp hnodes
  obtain rfl := (Prod.mk.inj (pure_eq_ok_iff.mp hnodes)).1
  rw [← hw]
  exact Decoding.weaks_loop _ hloop

theorem weaks_graphFromSerialized {ser : SerializedHistoryGraph N E} {g : HistoryGraph}
    (h : HistoryGraph.fromSerialized A K w ser = .ok (w', g)) : w'.weaks = w.weaks := by
  obtain ⟨R, nodes, w1, hreg, hnew⟩ := HistoryGraph.of_fromSerialized h
  have hw : _ = w' := congrArg Prod.fst hnew
  rw [← hw]
  exact ((HistoryGraph.weaks_new _ _ _).trans (World.weaks_dropAll _ _)).trans
    (weaks_registryFromSerialized hreg)

theorem weaks_fromSerialized {ser : SerializedRelRc N E} {node : Ref}
    (h : World.fromSerialized A K w ser = .ok (node, w')) : w'.weaks = w.weaks := by
  obtain ⟨w1, g, hgraph, -, rfl⟩ := World.of_fromSerialized h
  have hg : w1.weaks = w.weaks := weaks_graphFromSerialized hgraph
  exact (HistoryGraph.weaks_drop _ _).trans hg

theorem weaks_toSerialized {ser : SerializedRelRc N E} {node : Ref} {R : RegRef}
    (h : w.toSerialized K node R = .ok (ser, w')) : w'.weaks = w.weaks := by
  obtain ⟨w1, g, hins, -, rfl⟩ := World.of_toSerialized h
  have hg := HistoryGraph.weaks_insertAncestorsAux _ hins
  exact (HistoryGraph.weaks_drop _ _).trans hg

end Weaks

/-- The weak handles after an operation. -/
def Op.weaksAfter (ws : List Ref) : Op N E → List Ref
  | .downgrade node => node :: ws
  | .dropWeak node => ws.erase node
  | _ => ws

/-- **Weak handles come and go by `downgrade` and by dropping them.** -/
theorem exec_weaks {op : Op N E} (h : exec A K s op = .ok s') :
    s'.world.weaks = op.weaksAfter s.world.weaks := by
  cases op with
  | drop handle =>
    obtain rfl := pure_eq_ok_iff.mp h
    exact World.weaks_drop _ _
  | upgrade node =>
    simp only [exec] at h
    split at h <;> obtain rfl := pure_eq_ok_iff.mp h <;> rfl
  | nOutgoing node =>
    obtain rfl := pure_eq_ok_iff.mp h
    exact World.weaks_dropAll _ _
  | registryFromSerialized ser =>
    obtain ⟨res, hres, h⟩ := bind_eq_ok_iff.mp h
    obtain rfl := pure_eq_ok_iff.mp h
    exact weaks_registryFromSerialized hres
  | dropRegistry R =>
    obtain rfl := pure_eq_ok_iff.mp h
    exact World.weaks_dropRegistry _ _
  | tryRegisterIn node R =>
    obtain rfl := pure_eq_ok_iff.mp h
    exact World.weaks_tryRegisterIn _ _ _
  | graphNew nodes R =>
    obtain rfl := pure_eq_ok_iff.mp h
    exact HistoryGraph.weaks_new _ _ _
  | graphFromNodes nodes =>
    obtain rfl := pure_eq_ok_iff.mp h
    exact HistoryGraph.weaks_new _ _ _
  | graphClone g =>
    simp only [exec] at h
    split at h <;> obtain rfl := pure_eq_ok_iff.mp h <;> rfl
  | graphDrop g =>
    simp only [exec] at h
    split at h <;> obtain rfl := pure_eq_ok_iff.mp h
    · exact HistoryGraph.weaks_drop _ _
    · rfl
  | insertNode g node =>
    simp only [exec] at h
    split at h <;> obtain rfl := pure_eq_ok_iff.mp h
    · exact HistoryGraph.weaks_insertNode _ _ _
    · rfl
  | insertAncestors g node =>
    simp only [exec] at h
    split at h
    · obtain ⟨res, hres, h⟩ := bind_eq_ok_iff.mp h
      obtain rfl := pure_eq_ok_iff.mp h
      exact HistoryGraph.weaks_insertAncestorsAux _ hres
    · obtain rfl := pure_eq_ok_iff.mp h
      rfl
  | outgoingEdges g u =>
    simp only [exec] at h
    split at h <;> obtain rfl := pure_eq_ok_iff.mp h
    · exact HistoryGraph.weaks_afterOutgoingEdges _
    · rfl
  | graphFromSerialized ser =>
    obtain ⟨res, hres, h⟩ := bind_eq_ok_iff.mp h
    obtain rfl := pure_eq_ok_iff.mp h
    exact weaks_graphFromSerialized hres
  | toSerialized node R =>
    obtain ⟨res, hres, h⟩ := bind_eq_ok_iff.mp h
    obtain rfl := pure_eq_ok_iff.mp h
    exact weaks_toSerialized hres
  | fromSerialized ser =>
    obtain ⟨res, hres, h⟩ := bind_eq_ok_iff.mp h
    obtain rfl := pure_eq_ok_iff.mp h
    exact weaks_fromSerialized hres
  | _ =>
    obtain rfl := pure_eq_ok_iff.mp h
    rfl

end Relrc
