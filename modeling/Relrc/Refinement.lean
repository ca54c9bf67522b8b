import Relrc.Edges
import Relrc.Model.Allocation
import Relrc.Model.Ideal
import Relrc.Traversal

/-!
# The library refines the ideal library

`Refines c D` ties a memory, with the references that exist outside of it, to an ideal memory: the
same references, and the same values, parents, owners and ids of live nodes. What the ideal memory
knows of dead nodes has no counterpart.

Every elementary step of memory refines steps of the ideal memory (`Micro.refines`), so the whole
library does. Steps that neither create anything nor access registries change nothing but the
references (`Refines.quiet`); this covers the cascade of a drop with its hooks, the pruning of
outgoing edges, and `free_node_ids`.

A program and its ideal memory go side by side (`Beside`): each operation does to the ideal memory
what it means (`exec_refines`), and the program sees what the ideal memory shows (`Observes`).
-/

namespace Relrc

open SlotStore Ancestry Fallible

variable {N E : Type} {A : AddrSource} {K : KeySource} {ok : Access → Prop}

/-! ### What is never taken back -/

/-- The numbers of nodes and registries that were created. -/
def World.created (w : World N E) : ℕ × ℕ := (w.heap.size, w.nregs)

namespace World

variable (w : World N E)

theorem created_release (r : Ref) : (w.release r).created = w.created := by
  obtain ⟨hsize, -, -, hnregs, -⟩ := w.fields_release r
  exact Prod.ext hsize hnregs

theorem created_drop (r : Ref) : (w.drop r).created = w.created := by
  suffices haux : ∀ n (w : World N E) r, (World.dropAux n w r).created = w.created from
    haux (r + 1) w r
  intro n
  induction n with
  | zero => exact fun _ _ => rfl
  | succ n ih =>
    intro w r
    rw [World.dropAux]
    refine List.foldlRecOn (motive := fun v : World N E => v.created = w.created)
      (w.releases r) _ (w.created_release r) ?_
    exact fun v hv x _ => (ih v x).trans hv

theorem created_dropAll (rs : List Ref) : (w.dropAll rs).created = w.created :=
  List.foldlRecOn (motive := fun v : World N E => v.created = w.created) rs _ rfl
    fun v hv x _ => (v.created_drop x).trans hv

theorem created_dropRegistry (R : RegRef) : (w.dropRegistry R).created = w.created := by
  rw [World.dropRegistry]
  split_ifs <;> rfl

theorem created_allOutgoing (r : Ref) : (w.allOutgoing r).2.created = w.created := by
  rw [World.allOutgoing, Heap.allOutgoing, Heap.incStrongAll_eq]
  rfl

theorem created_nOutgoing (r : Ref) : (w.nOutgoing r).2.created = w.created :=
  (created_dropAll _ _).trans (w.created_allOutgoing r)

end World

/-! ### The refinement relation -/

/-- The memory realizes the ideal memory `D`. -/
structure Refines (c : Config N E) (D : Ideal N E) : Prop where
  size : c.world.heap.size = D.dag.size
  node : ∀ r, c.world.heap.Alive r → ∃ v, c.world.heap.value r = some v ∧
    D.dag.nodes[r]? = some (v, (c.world.heap.allIncoming r).map fun e => (e.source, e.value))
  owner : ∀ r, c.world.heap.Alive r → c.world.heap.slot r = D.owner r
  roots : D.roots = c.held
  nregs : c.world.nregs = D.nregs
  regs : D.regs = c.regs
  names : ∀ R, c.world.RegAlive R → ∀ r, c.world.heap.Alive r → ∀ id,
    (c.world.registries R).nodes.get id = some r ↔ (D.ids R).state id = .names r
  issued : ∀ R, c.world.RegAlive R → ∀ id, (D.ids R).state id ≠ .unused →
    (c.world.registries R).nodes.Issued id
  named : ∀ R r, (D.ids R).Has r → r < D.dag.size

namespace Refines

variable {c c' : Config N E} {D : Ideal N E}

theorem empty : Refines ⟨(World.empty : World N E), 0, 0⟩ Ideal.empty where
  size := rfl
  node r hr := absurd hr (Nat.lt_irrefl 0)
  owner r hr := absurd hr (Nat.lt_irrefl 0)
  roots := rfl
  nregs := rfl
  regs := rfl
  names R hR := absurd hR (Nat.lt_irrefl 0)
  issued R hR := absurd hR (Nat.lt_irrefl 0)
  named R r h := by
    obtain ⟨id, hid⟩ := h
    cases hid

/-! ### What the memory shows -/

section Views

variable (h : Refines c D) (hi : c.Inv)

include h

/-- A live node has the value it was created with. -/
theorem value {r : Ref} (hr : c.world.heap.Alive r) : c.world.heap.value r = D.dag.value r := by
  obtain ⟨v, hv, hnode⟩ := h.node r hr
  rw [hv, Dag.value, hnode, Option.map_some]

/-- It has the parents and edge values it was created with. -/
theorem incoming {r : Ref} (hr : c.world.heap.Alive r) :
    (c.world.heap.allIncoming r).map (fun e => (e.source, e.value)) = D.dag.incoming r := by
  obtain ⟨v, -, hnode⟩ := h.node r hr
  rw [Dag.incoming, hnode, Option.map_some, Option.getD_some]

theorem parents {r : Ref} (hr : c.world.heap.Alive r) :
    c.world.heap.allParents r = D.dag.parents r := by
  rw [Dag.parents, ← h.incoming hr, List.map_map, Heap.allParents]
  rfl

include hi

/-- **What is live in the memory is what the references reach.** -/
theorem live_iff {r : Ref} : D.Live r ↔ c.world.heap.Alive r := by
  rw [Ideal.Live, h.roots, hi.heap.alive_iff_reached]
  exact Dag.live_iff_of_agree (fun x hx => hi.heap.alive_of_held hx) (fun x hx => h.parents hx)
    fun x _ y hy => hi.heap.parent_alive hy

/-- A weak reference upgrades while the ideal node is live. -/
theorem upgrade (r : Ref) : c.world.heap.upgrade r = D.upgrade r := by
  simp only [Heap.upgrade, Ideal.upgrade, h.live_iff hi]

theorem mem_regs_iff {R : RegRef} : R ∈ D.regs ↔ c.world.RegAlive R := by
  rw [h.regs]
  exact ⟨hi.regAlive_of_mem, hi.mem_of_regAlive⟩

/-- The cell of a node names the owner, while it exists. -/
theorem registry {r : Ref} (hr : c.world.heap.Alive r) :
    c.world.registry r = D.registry r := by
  simp only [World.registry, Ideal.registry, h.owner r hr, h.mem_regs_iff hi]

/-- An id resolves to the node that it stands for, while that is live. -/
theorem get {R : RegRef} (hR : R ∈ D.regs) (id : NodeId) :
    (c.world.registries R).get c.world.heap id = D.get R id := by
  rw [h.mem_regs_iff hi] at hR
  refine Option.ext fun r => ?_
  simp only [Registry.get, Option.bind_eq_some_iff, Heap.upgrade, Ideal.get,
    Option.ite_none_right_eq_some, Option.some.injEq]
  constructor
  · rintro ⟨x, hx, hlive, rfl⟩
    rw [(h.names R hR x hlive id).mp hx]
    simp only [Ideal.upgrade, if_pos ((h.live_iff hi).mpr hlive)]
  · intro hget
    cases hid : (D.ids R).state id with
    | names x =>
      rw [hid] at hget
      simp only [Ideal.upgrade, Option.ite_none_right_eq_some, Option.some.injEq] at hget
      obtain ⟨hlive, rfl⟩ := hget
      have hx := (h.live_iff hi).mp hlive
      exact ⟨x, (h.names R hR x hx id).mpr hid, hx, rfl⟩
    | _ => simp [hid] at hget

/-- A lookup by address finds the id that stands for the node. -/
theorem getId {R : RegRef} (hR : R ∈ D.regs) {r : Ref} (hr : c.world.heap.Alive r) (id : NodeId) :
    (c.world.registries R).getId c.world.heap r = some id ↔ (D.ids R).state id = .names r := by
  rw [hi.getId_eq_some_iff (Or.inl hr), h.names R ((h.mem_regs_iff hi).mp hR) r hr]

omit hi in
theorem has_iff {R : RegRef} (hR : c.world.RegAlive R) {r : Ref} (hr : c.world.heap.Alive r) :
    (D.ids R).Has r ↔ (c.world.registries R).Has r :=
  exists_congr fun id => (h.names R hR r hr id).symm

/-- The pruned list is the list of edges to live children. -/
theorem outgoing {p : Ref} (hp : c.world.heap.Alive p) :
    (c.world.heap.allOutgoing p).1 = D.outgoing p := by
  rw [hi.heap.allOutgoing_fst hp, Heap.edgesFrom, Ideal.outgoing, Dag.outgoing, List.map_flatMap,
    List.map_flatMap, h.size, Dag.size]
  refine List.flatMap_congr fun x _ => ?_
  by_cases hx : c.world.heap.Alive x
  · have hlive : D.dag.Live D.roots x := (h.live_iff hi).mpr hx
    rw [if_pos hlive, Heap.edgesInto, Dag.edgesInto, h.parents hx, List.map_filterMap,
      List.map_filterMap]
    refine List.filterMap_congr fun qi _ => ?_
    split_ifs <;> rfl
  · have hnil : c.world.heap.edgesInto p x = [] :=
      Heap.edgesInto_eq_nil fun hmem => hx (hi.heap.alive_of_mem_parents hmem)
    have hdead : ¬ D.dag.Live D.roots x := fun hlive => hx ((h.live_iff hi).mp hlive)
    rw [if_neg hdead, hnil]
    rfl

/-- The listing depends on parents only. -/
theorem ancestors {r : Ref} (hr : c.world.heap.Alive r) :
    c.world.heap.allAncestors r = D.ancestors r := by
  have halive : ∀ x ∈ levels c.world.heap.allParents (r + 1) [r], c.world.heap.Alive x :=
    fun x hx => hi.heap.alive_of_reaches hr (hi.heap.mem_levels_iff.mp hx)
  have hkey : ∀ x y, c.world.heap.Alive x → c.world.heap.Alive y →
      (c.world.heap.asPtr x = c.world.heap.asPtr y ↔ id x = id y) := fun x y hx hy =>
    ⟨fun heq => hi.addr_inj x y (Or.inl hx) (Or.inl hy) heq, congrArg c.world.heap.asPtr⟩
  have hlevels : levels D.dag.parents (r + 1) [r] = levels c.world.heap.allParents (r + 1) [r] := by
    refine levels_congr fun x hx y hxy => (h.parents ?_).symm
    rw [List.mem_singleton.mp hx] at hxy
    exact hi.heap.alive_of_reaches hr hxy
  have hnil : ∀ x ∈ ([] : List Ref), c.world.heap.Alive x := fun x hx => by simp at hx
  rw [hi.allAncestors_eq hr, Ideal.ancestors, hlevels]
  exact takeFresh_congr hkey hnil halive

end Views

/-! ### Steps that create nothing and access no registry -/

/-- **Quiet steps change the references and nothing else.** -/
theorem quiet (h : Refines c D) (hi : c.Inv) (hs : Steps A K (fun _ => False) c c')
    (hcreated : c'.world.created = c.world.created) :
    Refines c' (D.withRefs c'.held c'.regs) := by
  obtain ⟨hsize, hnregs⟩ := Prod.mk.inj hcreated
  have hi' := Steps.inv hs hi
  have hframe := Steps.frame hs hi
  have hold : ∀ r, c'.world.heap.Alive r → r < c.world.heap.size ∧ c.world.heap.Alive r := by
    intro r hr
    have hlt := hsize ▸ hi'.heap.alive_lt r hr
    exact ⟨hlt, hframe.alive r hlt hr⟩
  have holdReg : ∀ R, c'.world.RegAlive R → R < c.world.nregs ∧ c.world.RegAlive R := by
    intro R hR
    have hlt := hnregs ▸ hi'.reg_lt R hR
    exact ⟨hlt, hframe.regAlive R hlt hR⟩
  refine ⟨hsize.trans h.size, fun r hr => ?_, fun r hr => ?_, rfl, hnregs.trans h.nregs, rfl,
    fun R hR r hr id => ?_, fun R hR id hid => ?_, h.named⟩
  · obtain ⟨hlt, hr'⟩ := hold r hr
    rw [hframe.value r hlt hr, hframe.allIncoming r hlt hr]
    exact h.node r hr'
  · obtain ⟨-, hr'⟩ := hold r hr
    refine Eq.trans (Option.ext fun R => ?_) (h.owner r hr')
    constructor
    · exact fun hslot => (Steps.slot_cases hs hi hslot).resolve_right fun hf => hf
    · exact fun hslot => Steps.slot_of_some hs hi hslot hr
  · obtain ⟨-, hr'⟩ := hold r hr
    obtain ⟨hRlt, hR'⟩ := holdReg R hR
    refine Iff.trans ⟨fun hid => ?_, fun hid => ?_⟩ (h.names R hR' r hr' id)
    · exact (Steps.entry_cases hs hi hRlt (fun hf => hf) hid).resolve_right fun hf => hf
    · exact Steps.entry hs hi (fun hf => hf) hid hr hR
  · obtain ⟨hRlt, hR'⟩ := holdReg R hR
    exact Steps.issued hs hi hRlt hR (h.issued R hR' id hid)

/-! ### Creation -/

theorem create {w : World N E} {H : Multiset Ref} {G : Multiset RegRef} {v : N}
    {ps : List (Ref × E)}
    (h : Refines ⟨w, ((ps.map Prod.fst : List Ref) : Multiset Ref) + H, G⟩ D)
    (hi : Inv w (((ps.map Prod.fst : List Ref) : Multiset Ref) + H) G) :
    ∃ hps, Refines ⟨w.withParents A v ps, w.heap.size ::ₘ H, G⟩ (D.create v ps hps) := by
  have hps : ∀ p ∈ ps, p.1 < D.dag.size := by
    intro p hp
    have hmem : p.1 ∈ ((ps.map Prod.fst : List Ref) : Multiset Ref) + H :=
      Multiset.mem_add.mpr (Or.inl (Multiset.mem_coe.mpr (List.mem_map_of_mem hp)))
    exact h.size ▸ hi.heap.alive_lt _ (hi.heap.alive_of_held hmem)
  have hsize : w.heap.size = D.dag.size := h.size
  -- a node other than the new one is an old one
  have hold : ∀ r, (w.withParents A v ps).heap.Alive r → r ≠ w.heap.size →
      r < D.dag.size ∧ w.heap.Alive r := by
    intro r hr hne
    have hr' : w.heap.Alive r := by
      simpa [World.withParents, Heap.Alive, Heap.strong_withParents, hne] using hr
    exact ⟨hsize ▸ hi.heap.alive_lt r hr', hr'⟩
  refine ⟨hps, ?_, fun r hr => ?_, fun r hr => ?_, ?_, h.nregs, h.regs, fun R hR r hr id => ?_,
    fun R hR id hid => h.issued R hR id hid, fun R r hr => ?_⟩
  · rw [World.withParents, World.heap_withHeap, Heap.size_withParents, hsize]
    exact (Dag.size_add v ps hps).symm
  · rw [World.withParents, World.heap_withHeap, Heap.value_withParents,
      Heap.allIncoming_withParents, D.dag_create]
    by_cases hne : r = w.heap.size
    · rw [if_pos hne, if_pos hne, hne, hsize, Dag.getElem?_add_self]
      exact ⟨v, rfl, by simp [Heap.edgesOf, Function.comp_def]⟩
    · obtain ⟨hlt, hr'⟩ := hold r hr hne
      rw [if_neg hne, if_neg hne, Dag.getElem?_add_of_lt hlt]
      exact h.node r hr'
  · rw [World.withParents, World.heap_withHeap, Heap.slot_withParents, D.owner_create]
    by_cases hne : r = w.heap.size
    · rw [if_pos hne, hne, hsize, Function.update_self]
    · rw [if_neg hne, h.owner r (hold r hr hne).2, Function.update_of_ne (hsize ▸ hne)]
  · rw [D.roots_create, h.roots, add_tsub_cancel_left, hsize]
  · by_cases hne : r = w.heap.size
    · -- the new node has no id yet
      constructor
      · intro hid
        exact absurd (hi.inUse_lt r (hi.inUse_of_entry hid)) (hne ▸ lt_irrefl _)
      · intro hid
        exact absurd (h.named R r ⟨id, hid⟩) (hne ▸ hsize ▸ lt_irrefl _)
    · exact h.names R hR r (hold r hr hne).2 id
  · rw [D.dag_create, Dag.size_add]
    exact Nat.lt_succ_of_lt (h.named R r hr)

/-! ### Registries -/

/-- New content for a registry. -/
theorem setRegistry (h : Refines c D) {R : RegRef} {reg : Registry} {I : Ids}
    (hnames : ∀ r, c.world.heap.Alive r → ∀ id,
      reg.nodes.get id = some r ↔ I.state id = .names r)
    (hissued : ∀ id, I.state id ≠ .unused → reg.nodes.Issued id)
    (hnamed : ∀ r, I.Has r → r < D.dag.size) :
    Refines ⟨c.world.setRegistry R reg, c.held, c.regs⟩ (D.setIds R I) := by
  refine ⟨h.size, h.node, h.owner, h.roots, h.nregs, h.regs, fun R' hR' r hr id => ?_,
    fun R' hR' id hid => ?_, fun R' r hr => ?_⟩
  · by_cases hRR : R' = R
    · subst hRR
      rw [World.registries_setRegistry_self, D.ids_setIds_self]
      exact hnames r hr id
    · rw [World.registries_setRegistry_of_ne _ _ _ hRR, D.ids_setIds_of_ne I hRR]
      exact h.names R' hR' r hr id
  · by_cases hRR : R' = R
    · subst hRR
      rw [D.ids_setIds_self] at hid
      rw [World.registries_setRegistry_self]
      exact hissued id hid
    · rw [D.ids_setIds_of_ne I hRR] at hid
      rw [World.registries_setRegistry_of_ne _ _ _ hRR]
      exact h.issued R' hR' id hid
  · by_cases hRR : R' = R
    · subst hRR
      rw [D.ids_setIds_self] at hr
      exact hnamed r hr
    · rw [D.ids_setIds_of_ne I hRR] at hr
      exact h.named R' r hr

/-- **`add_node` enters the node**, under the id it has or under a fresh one. -/
theorem enter (h : Refines c D) (hi : c.Inv) {R : RegRef} {r : Ref} (hr : c.world.heap.Alive r)
    (hR : c.world.RegAlive R) : ∃ D', Ideal.Enters R r D D' ∧
      Refines ⟨c.world.setRegistry R ((c.world.registries R).addNode K c.world.heap r).2,
        c.held, c.regs⟩ D' := by
  cases hid : (c.world.registries R).getId c.world.heap r with
  | some id =>
    have hentry := (hi.getId_eq_some_iff (Or.inl hr)).mp hid
    refine ⟨D, Or.inl ⟨⟨id, (h.names R hR r hr id).mp hentry⟩, rfl⟩, ?_⟩
    rw [Registry.addNode_of_some K _ _ _ hid, World.setRegistry, Function.update_eq_self]
    exact h
  | none =>
    have hnone := (hi.getId_eq_none_iff (Or.inl hr)).mp hid
    have hnew : ¬ (D.ids R).Has r := fun hhas => hnone ((h.has_iff hR hr).mp hhas)
    have hunused : (D.ids R).state ((c.world.registries R).nodes.nextKey K) = .unused := by
      by_contra hused
      exact SlotMap.not_issued_nextKey K _ (h.issued R hR _ hused)
    refine ⟨_, Or.inr ⟨hnew, _, hunused, rfl⟩, ?_⟩
    rw [Registry.addNode_of_none K _ _ _ hid]
    refine h.setRegistry (fun x hx id => ?_) (fun id hid => ?_) fun x hx => ?_
    · rw [SlotMap.get_insert, Ids.state_assign]
      split_ifs with hk
      · rw [Option.some_inj, IdState.names.injEq]
      · exact h.names R hR x hx id
    · rw [Ids.state_assign] at hid
      split_ifs at hid with hk
      · exact SlotMap.issued _ id r (by rw [SlotMap.get_insert, if_pos hk])
      · exact (h.issued R hR id hid).insert K r
    · obtain ⟨id, hid⟩ := hx
      rw [Ids.state_assign] at hid
      split_ifs at hid
      · cases hid
        exact h.size ▸ hi.heap.alive_lt r hr
      · exact h.named R x ⟨id, hid⟩

/-- **Registration** is refused to nodes with another owner, and enters the node otherwise. -/
theorem register (h : Refines c D) (hi : c.Inv) {R : RegRef} {r : Ref}
    (hr : c.world.heap.Alive r) (hR : c.world.RegAlive R) : ∃ D', Ideal.Registers r R D D' ∧
      Refines ⟨(c.world.tryRegisterIn K r R).2, c.held, c.regs⟩ D' := by
  have howner := h.owner r hr
  rcases c.world.tryRegisterIn_cases (K := K) r R with
    ⟨R', hslot, hRR, heq⟩ | ⟨hslot, heq⟩ | ⟨hslot, heq⟩
  · rw [hslot] at howner
    rw [heq]
    exact ⟨D, Or.inl ⟨⟨R', howner.symm, hRR⟩, rfl⟩, h⟩
  · rw [hslot] at howner
    rw [heq]
    obtain ⟨D', hD', h'⟩ := h.enter (K := K) hi hr hR
    refine ⟨D', Or.inr ⟨fun R' hR' => ?_, ?_⟩, h'⟩
    · rw [← howner] at hR'
      exact (Option.some.inj hR').symm
    · rw [Ideal.setOwner_eq_self howner.symm]
      exact hD'
  · rw [hslot] at howner
    rw [heq]
    have hset : Refines ⟨c.world.withHeap (c.world.heap.setSlot r (some R)), c.held, c.regs⟩
        (D.setOwner r R) := by
      refine ⟨h.size, fun x hx => ?_, fun x hx => ?_, h.roots, h.nregs, h.regs,
        fun R' hR' x hx => h.names R' hR' x hx, h.issued, h.named⟩
      · simp only [World.heap_withHeap, Heap.value_setSlot, Heap.allIncoming_setSlot]
        exact h.node x hx
      · rw [World.heap_withHeap, Heap.slot_setSlot, D.owner_setOwner, ← h.owner x hx]
        exact if_congr ⟨fun hxr => hxr.1, fun hxr => ⟨hxr, hi.heap.data_ne_none hx⟩⟩ rfl rfl
    obtain ⟨D', hD', h'⟩ := hset.enter (K := K) (hi.setSlot r (some R)) hr hR
    refine ⟨D', Or.inr ⟨fun R' hR' => ?_, hD'⟩, h'⟩
    rw [← howner] at hR'
    cases hR'

/-- `Registry::remove` strikes the id. -/
theorem strike (h : Refines c D) {R : RegRef} (hR : c.world.RegAlive R) (id : NodeId) :
    Refines ⟨c.world.setRegistry R ((c.world.registries R).remove c.world.heap id),
      c.held, c.regs⟩ (D.strike R id) := by
  refine h.setRegistry (fun r hr k => ?_) (fun k hk => ?_) fun r hr => ?_
  · rw [Registry.get_remove, Ids.state_strike_eq_names_iff, ← h.names R hR r hr k]
    split_ifs with hk <;> simp [hk]
  · exact Registry.issued_remove _ _ _ (h.issued R hR k (Ids.state_ne_unused_of_strike _ hk))
  · obtain ⟨k, hk⟩ := hr
    exact h.named R r ⟨k, ((Ids.state_strike_eq_names_iff _).mp hk).2⟩

/-- A registry with any content gets the ids of its live nodes. -/
theorem newRegistry (h : Refines c D) {reg : Registry} {I : Ids}
    (hnames : ∀ r, c.world.heap.Alive r → ∀ id, reg.nodes.get id = some r ↔ I.state id = .names r)
    (hissued : ∀ id, I.state id ≠ .unused → reg.nodes.Issued id)
    (hnamed : ∀ r, I.Has r → r < D.dag.size) :
    Refines ⟨c.world.allocRegistry reg, c.held, c.world.nregs ::ₘ c.regs⟩ (D.newRegistry I) := by
  have hself : (D.newRegistry I).ids c.world.nregs = I := h.nregs ▸ D.ids_setIds_self _ _
  have hne : ∀ R, R ≠ c.world.nregs → (D.newRegistry I).ids R = D.ids R := fun R hR =>
    D.ids_setIds_of_ne I (h.nregs ▸ hR)
  have hreg : (c.world.allocRegistry reg).registries c.world.nregs = reg :=
    Function.update_self _ _ _
  have hregne : ∀ R, R ≠ c.world.nregs →
      (c.world.allocRegistry reg).registries R = c.world.registries R :=
    fun R hR => Function.update_of_ne hR _ _
  have halive : ∀ R, R ≠ c.world.nregs → (c.world.allocRegistry reg).RegAlive R →
      c.world.RegAlive R := fun R hR h => by
    simpa [World.RegAlive, World.allocRegistry, hR] using h
  refine ⟨h.size, h.node, h.owner, h.roots, congrArg (· + 1) h.nregs, ?_,
    fun R hR r hr id => ?_, fun R hR id hid => ?_, fun R r hr => ?_⟩
  · rw [h.nregs, ← h.regs]
    rfl
  · by_cases hRR : R = c.world.nregs
    · rw [hRR, hself, hreg]
      exact hnames r hr id
    · rw [hne R hRR, hregne R hRR]
      exact h.names R (halive R hRR hR) r hr id
  · by_cases hRR : R = c.world.nregs
    · rw [hRR, hself] at hid
      rw [hRR, hreg]
      exact hissued id hid
    · rw [hne R hRR] at hid
      rw [hregne R hRR]
      exact h.issued R (halive R hRR hR) id hid
  · by_cases hRR : R = c.world.nregs
    · rw [hRR, hself] at hr
      exact hnamed r hr
    · rw [hne R hRR] at hr
      exact h.named R r hr

end Refines

/-! ### Elementary steps -/

namespace Ideal

variable {D : Ideal N E}

/-- More references keep more nodes live. -/
theorem Live.share {n : Ref} (h : D.Live n) (rs : Multiset Ref) : (D.share rs).Live n := by
  obtain ⟨x, hx, hxn⟩ := h
  exact ⟨x, Multiset.mem_add.mpr (Or.inr hx), hxn⟩

theorem steps_share {rs : List Ref} (h : ∀ r ∈ rs, D.Live r) :
    Steps ok D (D.share (rs : Multiset Ref)) := by
  induction rs with
  | nil =>
    rw [Ideal.share, Multiset.coe_nil, zero_add]
    exact Relation.ReflTransGen.refl
  | cons r rs ih =>
    obtain ⟨hr, hrs⟩ := List.forall_mem_cons.mp h
    refine (ih hrs).tail ?_
    have hstep : Step ok (D.share (rs : Multiset Ref)) _ := .share _ r (hr.share _)
    rwa [Ideal.share, Ideal.share, Ideal.withRefs, ← add_assoc, Multiset.singleton_add,
      Multiset.cons_coe] at hstep

end Ideal

/-- The ids of the entries of a registry. -/
def Registry.ids (reg : Registry) {addr : Ref → Addr} (hinv : reg.Inverse addr) : Ids where
  state id := match reg.nodes.get id with
    | some r => .names r
    | none => .unused
  inj a b n ha hb := by
    split at ha <;> cases ha
    split at hb <;> cases hb
    exact hinv.id_eq ‹_› ‹_›

/-- An id stands for the node in its entry. -/
theorem Registry.state_ids_eq_names_iff {reg : Registry} {addr : Ref → Addr}
    (hinv : reg.Inverse addr) {id : NodeId} {n : Ref} :
    (reg.ids hinv).state id = .names n ↔ reg.nodes.get id = some n := by
  simp only [Registry.ids]
  split <;> simp_all

/-- An id that was used was issued. -/
theorem Registry.issued_of_state_ids {reg : Registry} {addr : Ref → Addr}
    (hinv : reg.Inverse addr) {id : NodeId} (h : (reg.ids hinv).state id ≠ .unused) :
    reg.nodes.Issued id := by
  simp only [Registry.ids] at h
  split at h
  · exact reg.nodes.issued id _ ‹_›
  · exact absurd rfl h

/-- **Every elementary step refines steps of the ideal memory**, with the same accesses. -/
theorem Micro.refines {c c' : Config N E} {D : Ideal N E} (h : Micro A K ok c c') (hi : c.Inv)
    (hD : Refines c D) : ∃ D', Ideal.Steps ok D D' ∧ Refines c' D' := by
  have hself : D.withRefs c.held c.regs = D := by
    rw [← hD.roots, ← hD.regs, Ideal.withRefs_self]
  cases h with
  | alloc w H G v ps =>
    obtain ⟨hps, hcreate⟩ := hD.create (A := A) hi
    refine ⟨_, Relation.ReflTransGen.single (.create D v ps hps ?_), hcreate⟩
    rw [hD.roots]
    exact Multiset.le_add_right _ _
  | clone w H G r hr =>
    have hquiet := hD.quiet (A := A) (K := K) hi (.single (.clone w H G r hr)) rfl
    refine ⟨_, Relation.ReflTransGen.single (.share D r ((hD.live_iff hi).mpr hr)), ?_⟩
    rw [Ideal.share, hD.roots, hD.regs]
    exact hquiet
  | release w H G r =>
    have hquiet :=
      hD.quiet (A := A) (K := K) hi (.single (.release w H G r)) (w.created_release r)
    -- the references to the parents are there before the last reference to the node goes
    have hlive : ∀ x ∈ w.releases r, D.Live x := by
      intro x hx
      rw [World.releases] at hx
      split_ifs at hx
      · exact (hD.live_iff hi).mpr (hi.heap.parent_alive hx)
      · cases hx
    have hroots : (D.share (w.releases r : Multiset Ref)).roots =
        r ::ₘ (H + (w.releases r : Multiset Ref)) := by
      rw [Ideal.roots_share, hD.roots, Multiset.add_cons, add_comm]
    refine ⟨_, (Ideal.steps_share hlive).tail (.forget _ r ?_), ?_⟩
    · rw [hroots]
      exact Multiset.mem_cons_self _ _
    · rw [Ideal.forget, hroots, Multiset.sub_singleton, Multiset.erase_cons_head]
      rw [← hD.regs] at hquiet
      exact hquiet
  | prune w H G r =>
    have hquiet := hD.quiet (A := A) (K := K) hi (.single (.prune w H G r)) rfl
    exact ⟨D, Relation.ReflTransGen.refl, hself ▸ hquiet⟩
  | setWeaks w H G ws hws =>
    have hquiet := hD.quiet (A := A) (K := K) hi (.single (.setWeaks w H G ws hws)) rfl
    exact ⟨D, Relation.ReflTransGen.refl, hself ▸ hquiet⟩
  | register w H G r R hr hR hok =>
    obtain ⟨D', hD', h'⟩ := hD.register (K := K) hi hr hR
    exact ⟨D', Relation.ReflTransGen.single
      (.register r R ((hD.live_iff hi).mpr hr) ((hD.mem_regs_iff hi).mpr hR) hok hD'), h'⟩
  | addNode w H G r R hr hR hok =>
    obtain ⟨D', hD', h'⟩ := hD.enter (K := K) hi hr hR
    exact ⟨D', Relation.ReflTransGen.single
      (.enter R r ((hD.live_iff hi).mpr hr) ((hD.mem_regs_iff hi).mpr hR) hok hD'), h'⟩
  | remove w H G R id hR hok =>
    exact ⟨_, Relation.ReflTransGen.single (.strike D R id ((hD.mem_regs_iff hi).mpr hR) hok),
      hD.strike hR id⟩
  | freeNodeIds w H G R hR =>
    have hquiet := hD.quiet (A := A) (K := K) hi (.single (.freeNodeIds w H G R hR)) rfl
    exact ⟨D, Relation.ReflTransGen.refl, hself ▸ hquiet⟩
  | allocRegistry w H G reg hinv hin =>
    have hlt : ∀ n, (reg.ids hinv).Has n → n < D.dag.size := by
      rintro n ⟨id, hid⟩
      have hhas : reg.Has n := ⟨id, (Registry.state_ids_eq_names_iff hinv).mp hid⟩
      exact hD.size ▸ hi.inUse_lt n (hin n hhas)
    exact ⟨_, Relation.ReflTransGen.single (.newRegistry D (reg.ids hinv) hlt),
      hD.newRegistry (fun r _ id => (Registry.state_ids_eq_names_iff hinv).symm)
        (fun id hid => Registry.issued_of_state_ids hinv hid) hlt⟩
  | cloneRegistry w H G R hR =>
    have hquiet := hD.quiet (A := A) (K := K) hi (.single (.cloneRegistry w H G R hR)) rfl
    refine ⟨_, Relation.ReflTransGen.single (.shareRegistry D R ((hD.mem_regs_iff hi).mpr hR)), ?_⟩
    rw [hD.roots, hD.regs]
    exact hquiet
  | dropRegistry w H G R =>
    have hquiet :=
      hD.quiet (A := A) (K := K) hi (.single (.dropRegistry w H G R)) (w.created_dropRegistry R)
    have hR : R ∈ D.regs := hD.regs ▸ Multiset.mem_cons_self R G
    refine ⟨_, Relation.ReflTransGen.single (.forgetRegistry D R hR), ?_⟩
    rw [hD.roots, hD.regs, Multiset.erase_cons_head]
    exact hquiet

/-- **Elementary steps refine ideal steps**, one after the other. -/
theorem Steps.refines {c c' : Config N E} {D : Ideal N E} (h : Steps A K ok c c') (hi : c.Inv)
    (hD : Refines c D) : ∃ D', Ideal.Steps ok D D' ∧ Refines c' D' := by
  induction h with
  | refl => exact ⟨D, Relation.ReflTransGen.refl, hD⟩
  | tail hs hstep ih =>
    obtain ⟨D₁, hD₁, h₁⟩ := ih
    obtain ⟨D₂, hD₂, h₂⟩ := hstep.refines (Steps.inv hs hi) h₁
    exact ⟨D₂, hD₁.trans hD₂, h₂⟩

/-! ### Operations of a program -/

section Operations

variable {s s' : State N E} {D : Ideal N E}

/-- An operation that creates nothing and accesses no registry. -/
theorem Refines.quiet_op {op : Op N E} (hD : Refines s.config D) (hi : s.Inv) (hen : op.Enabled s)
    (hop : Respects (fun _ => False) s op) (h : exec A K s op = .ok s')
    (hcreated : s'.world.created = s.world.created) {roots : Multiset Ref} {regs : Multiset RegRef}
    (hroots : s'.held = roots) (hregs : s'.regs = regs) :
    Refines s'.config (D.withRefs roots regs) := by
  rw [← hroots, ← hregs]
  exact hD.quiet hi (exec_steps hi hen hop h) hcreated

/-- **Every operation does to the ideal memory what it means.** -/
theorem exec_refines {op : Op N E} (hi : s.Inv) (hD : Refines s.config D) (hen : op.Enabled s)
    (h : exec A K s op = .ok s') : ∃ D', op.Means s D D' ∧ Refines s'.config D' := by
  have hroots : D.roots = s.held := hD.roots
  have hregs : D.regs = s.regs := hD.regs
  cases op with
  | new v =>
    obtain rfl := pure_eq_ok_iff.mp h
    have hparents : ((([] : List (Ref × E)).map Prod.fst : List Ref) : Multiset Ref) + s.held =
        s.held := by simp
    have hD' : Refines ⟨s.world, ((([] : List (Ref × E)).map Prod.fst : List Ref) :
        Multiset Ref) + s.held, s.regs⟩ D := hparents.symm ▸ hD
    obtain ⟨hps, hcreate⟩ := hD'.create (A := A) (v := v) (hparents.symm ▸ hi)
    refine ⟨_, ⟨hps, rfl⟩, ?_⟩
    rw [State.config, State.held, Multiset.map_cons, Multiset.cons_add]
    exact hcreate
  | withParents v ps =>
    obtain rfl := pure_eq_ok_iff.mp h
    rw [State.Inv, State.config, State.held, map_target_of_le hen, add_assoc] at hi
    rw [State.config, State.held, map_target_of_le hen, add_assoc] at hD
    obtain ⟨hps, hcreate⟩ := hD.create (A := A) (v := v) hi
    refine ⟨_, ⟨hps, rfl⟩, ?_⟩
    rw [State.config, State.held, Multiset.map_cons, Multiset.cons_add]
    exact hcreate
  | clone n =>
    obtain rfl := pure_eq_ok_iff.mp h
    refine ⟨_, rfl, hD.quiet_op hi hen (fun _ ha => ha) h rfl ?_ hregs.symm⟩
    rw [hroots, State.held, State.held, Multiset.map_cons, Multiset.cons_add,
      Multiset.singleton_add, Handle.target]
  | drop x =>
    obtain rfl := pure_eq_ok_iff.mp h
    refine ⟨_, rfl, hD.quiet_op hi hen (fun _ ha => ha) h (s.world.created_drop _) ?_ hregs.symm⟩
    rw [hroots, State.held, State.held, map_target_of_mem hen, Multiset.cons_add,
      Multiset.sub_singleton, Multiset.erase_cons_head]
  | downgrade n =>
    obtain rfl := pure_eq_ok_iff.mp h
    exact ⟨D, rfl, hD.quiet_op hi hen (fun _ ha => ha) h rfl hroots.symm hregs.symm⟩
  | dropWeak n =>
    obtain rfl := pure_eq_ok_iff.mp h
    exact ⟨D, rfl, hD.quiet_op hi hen (fun _ ha => ha) h rfl hroots.symm hregs.symm⟩
  | upgrade n =>
    have hlive : D.Live n ↔ s.world.heap.Alive n := hD.live_iff hi
    refine ⟨_, rfl, ?_⟩
    have h' := h
    simp only [exec, Heap.upgrade] at h'
    by_cases hn : s.world.heap.Alive n
    · rw [if_pos hn] at h'
      obtain rfl := pure_eq_ok_iff.mp h'
      rw [if_pos (hlive.mpr hn)]
      refine hD.quiet_op hi hen (fun _ ha => ha) h rfl ?_ hregs.symm
      rw [hroots, State.held, State.held, Multiset.map_cons, Multiset.cons_add,
        Multiset.singleton_add, Handle.target]
    · rw [if_neg hn] at h'
      obtain rfl := pure_eq_ok_iff.mp h'
      rw [if_neg fun hl => hn (hlive.mp hl)]
      exact hD
  | allOutgoing n =>
    obtain rfl := pure_eq_ok_iff.mp h
    have hout : (s.world.allOutgoing n).1 = D.outgoing n := hD.outgoing hi hen
    refine ⟨_, rfl, hD.quiet_op hi hen (fun _ ha => ha) h (s.world.created_allOutgoing n) ?_
      hregs.symm⟩
    rw [hroots, ← hout, State.held, State.held, Multiset.map_add, add_assoc, Multiset.map_coe,
      List.map_map]
    rfl
  | allChildren n =>
    obtain rfl := pure_eq_ok_iff.mp h
    have hout : (s.world.allOutgoing n).1 = D.outgoing n := hD.outgoing hi hen
    refine ⟨_, rfl, hD.quiet_op hi hen (fun _ ha => ha) h (s.world.created_allOutgoing n) ?_
      hregs.symm⟩
    rw [hroots, ← hout, State.held, State.held, Multiset.map_add, add_assoc, map_target_nodeHandles]
    rfl
  | nOutgoing n =>
    obtain rfl := pure_eq_ok_iff.mp h
    exact ⟨D, rfl, hD.quiet_op hi hen (fun _ ha => ha) h (s.world.created_nOutgoing n) hroots.symm
      hregs.symm⟩
  | intoTarget e =>
    obtain rfl := pure_eq_ok_iff.mp h
    refine ⟨D, rfl, hD.quiet_op hi hen (fun _ ha => ha) h rfl ?_ hregs.symm⟩
    rw [hroots, State.held, State.held, Multiset.map_cons, map_target_of_mem hen]
    rfl
  | registryNew =>
    obtain rfl := pure_eq_ok_iff.mp h
    refine ⟨_, rfl, ?_⟩
    rw [State.config, State.regs, Multiset.cons_add]
    refine hD.newRegistry (fun r _ id => iff_of_false ?_ ?_) (fun id hid => absurd rfl hid) ?_
    · exact fun hid => Registry.not_has_new r ⟨id, hid⟩
    · intro hid
      cases hid
    · rintro r ⟨id, hid⟩
      cases hid
  | registryFromIter nodes =>
    obtain rfl := pure_eq_ok_iff.mp h
    have hinv : (Registry.fromIter K s.world.heap nodes).Inverse s.world.heap.addr :=
      Registry.Inverse.addNodes K _ Registry.Inverse.new nodes
    have hhas : ∀ n, ((Registry.fromIter K s.world.heap nodes).ids hinv).Has n ↔ n ∈ nodes := by
      intro n
      have hentries := Registry.has_addNodes K s.world.heap (S := s.world.heap.Alive) (x := n)
        (fun x y hx hy => hi.addr_inj x y (Or.inl hx) (Or.inl hy)) Registry.Inverse.new
        (fun x hx => absurd hx (Registry.not_has_new x)) hen
      refine Iff.trans (exists_congr fun id => Registry.state_ids_eq_names_iff hinv) ?_
      exact hentries.trans (or_iff_right (Registry.not_has_new n))
    refine ⟨_, ⟨_, hhas, rfl⟩, ?_⟩
    rw [State.config, State.regs, Multiset.cons_add]
    exact hD.newRegistry (fun r _ id => (Registry.state_ids_eq_names_iff hinv).symm)
      (fun id hid => Registry.issued_of_state_ids hinv hid)
      fun n hn => hD.size ▸ hi.heap.alive_lt n (hen n ((hhas n).mp hn))
  | registryClone R =>
    obtain rfl := pure_eq_ok_iff.mp h
    refine ⟨_, rfl, ?_⟩
    rw [State.config, State.regs, Multiset.cons_add]
    exact hD.newRegistry (hD.names R hen) (hD.issued R hen) (hD.named R)
  | cloneRegistry R =>
    obtain rfl := pure_eq_ok_iff.mp h
    refine ⟨_, rfl, hD.quiet_op hi hen (fun _ ha => ha) h rfl hroots.symm ?_⟩
    rw [hregs, State.regs, State.regs, Multiset.cons_add]
  | dropRegistry R =>
    obtain rfl := pure_eq_ok_iff.mp h
    refine ⟨_, rfl, hD.quiet_op hi hen (fun _ ha => ha) h (s.world.created_dropRegistry R)
      hroots.symm ?_⟩
    rw [hregs, State.regs, State.regs, Multiset.erase_add_left_pos _ hen]
  | addNode R n =>
    obtain rfl := pure_eq_ok_iff.mp h
    exact hD.enter hi hen.2 hen.1
  | getIdOrInsert R n =>
    obtain rfl := pure_eq_ok_iff.mp h
    rw [Registry.getIdOrInsert_eq]
    exact hD.enter hi hen.2 hen.1
  | remove R id =>
    obtain rfl := pure_eq_ok_iff.mp h
    exact ⟨_, rfl, hD.strike hen id⟩
  | freeNodeIds R =>
    obtain rfl := pure_eq_ok_iff.mp h
    exact ⟨D, rfl, hD.quiet_op hi hen (fun _ ha => ha) h rfl hroots.symm hregs.symm⟩
  | tryRegisterIn n R =>
    obtain rfl := pure_eq_ok_iff.mp h
    exact hD.register hi hen.1 hen.2
  | graphClone g =>
    obtain ⟨G, hg⟩ := Option.isSome_iff_exists.mp hen
    have h' := h
    simp only [exec, hg] at h'
    obtain rfl := pure_eq_ok_iff.mp h'
    have hcreated : (G.clone s.world).created = s.world.created := by
      rw [HistoryGraph.clone, Heap.incStrongAll_eq]
      rfl
    have hconfig := State.config_addGraph s (G.clone s.world) G
    refine ⟨_, ⟨G, hg, rfl⟩, hD.quiet_op hi hen (fun _ ha => ha) h hcreated ?_ ?_⟩
    · rw [hroots]
      exact congrArg Config.held hconfig
    · rw [hregs]
      exact congrArg Config.regs hconfig
  | graphDrop g =>
    obtain ⟨G, hg⟩ := Option.isSome_iff_exists.mp hen
    have h' := h
    simp only [exec, hg] at h'
    obtain rfl := pure_eq_ok_iff.mp h'
    have hcreated : (G.drop s.world).created = s.world.created :=
      (World.created_dropRegistry _ _).trans (s.world.created_dropAll _)
    obtain ⟨H, R, hH, hR, hset⟩ := State.exists_graph hg
    refine ⟨_, ⟨G, hg, rfl⟩, hD.quiet_op hi hen (fun _ ha => ha) h hcreated ?_ ?_⟩
    · rw [hroots, State.held, State.held, hH, State.setGraph, (hset none).1, State.graphRefs,
        zero_add, HistoryGraph.refs, add_left_comm, add_tsub_cancel_left]
    · rw [hregs, State.regs, State.regs, hR, State.setGraph, (hset none).2, State.graphRegs,
        zero_add, Multiset.add_cons, Multiset.erase_cons_head]
  | outgoingEdges g u =>
    obtain ⟨G, hg⟩ := Option.isSome_iff_exists.mp hen
    have h' := h
    simp only [exec, hg] at h'
    obtain rfl := pure_eq_ok_iff.mp h'
    have hcreated : (G.afterOutgoingEdges s.world u).created = s.world.created := by
      rw [HistoryGraph.afterOutgoingEdges]
      split
      · exact World.created_nOutgoing _ _
      · rfl
    exact ⟨D, rfl, hD.quiet_op hi hen (fun _ ha => ha) h hcreated hroots.symm hregs.symm⟩
  | _ => exact Steps.refines (exec_steps hi hen (fun _ ha => ha) h) hi hD

/-- What the program `s` sees is what the ideal memory shows. -/
structure Observes (s : State N E) (D : Ideal N E) : Prop where
  created : s.world.created = (D.dag.size, D.nregs)
  held : s.held = D.roots
  regAlive : ∀ R, s.world.RegAlive R ↔ R ∈ D.regs
  upgrade : ∀ r, s.world.heap.upgrade r = D.upgrade r
  value : ∀ r, D.Live r → s.world.heap.value r = D.dag.value r
  incoming : ∀ r, D.Live r →
    (s.world.heap.allIncoming r).map (fun e => (e.source, e.value)) = D.dag.incoming r
  outgoing : ∀ r, D.Live r → (s.world.allOutgoing r).1 = D.outgoing r
  ancestors : ∀ r, D.Live r → s.world.heap.allAncestors r = D.ancestors r
  registry : ∀ r, D.Live r → s.world.registry r = D.registry r
  get : ∀ R ∈ D.regs, ∀ id, (s.world.registries R).get s.world.heap id = D.get R id
  getId : ∀ R ∈ D.regs, ∀ r, D.Live r → ∀ id,
    (s.world.registries R).getId s.world.heap r = some id ↔ (D.ids R).state id = .names r

/-- A program sees what the ideal memory shows. -/
theorem Refines.observes (hD : Refines s.config D) (hi : s.Inv) : Observes s D where
  created := Prod.ext hD.size hD.nregs
  held := hD.roots.symm
  regAlive _ := (hD.mem_regs_iff hi).symm
  upgrade := hD.upgrade hi
  value _ hr := hD.value ((hD.live_iff hi).mp hr)
  incoming _ hr := hD.incoming ((hD.live_iff hi).mp hr)
  outgoing _ hr := hD.outgoing hi ((hD.live_iff hi).mp hr)
  ancestors _ hr := hD.ancestors hi ((hD.live_iff hi).mp hr)
  registry _ hr := hD.registry hi ((hD.live_iff hi).mp hr)
  get _ hR := hD.get hi hR
  getId _ hR _ hr := hD.getId hi hR ((hD.live_iff hi).mp hr)

end Operations

/-! ### Runs -/

/-- A step of a program and of an ideal memory beside it. -/
def Beside (A : AddrSource) (K : KeySource) (P : State N E → Op N E → Prop)
    (x y : State N E × Ideal N E) : Prop :=
  ∃ op : Op N E, op.Enabled x.1 ∧ P x.1 op ∧ exec A K x.1 op = .ok y.1 ∧ op.Means x.1 x.2 y.2 ∧
    Observes y.1 y.2

/-- **The library refines the ideal library.** Beside every run of a program goes a run of ideal
memory, in which each operation does what it means, and after every operation the program sees what
the ideal memory shows. -/
theorem refinement_of_run {P : State N E → Op N E → Prop} {s : State N E}
    (h : Run A K P State.init s) : ∃ D : Ideal N E,
    Relation.ReflTransGen (Beside A K P) (State.init, Ideal.empty) (s, D) ∧ Observes s D := by
  suffices hall : ∃ D : Ideal N E,
      Relation.ReflTransGen (Beside A K P) (State.init, Ideal.empty) (s, D) ∧ Refines s.config D by
    obtain ⟨D, hrun, hD⟩ := hall
    exact ⟨D, hrun, hD.observes (Run.inv h State.inv_init)⟩
  induction h with
  | refl => exact ⟨Ideal.empty, Relation.ReflTransGen.refl, Refines.empty⟩
  | @tail s s' hrun hstep ih =>
    obtain ⟨D, hbeside, hD⟩ := ih
    have hi : s.Inv := Run.inv hrun State.inv_init
    have hi' : s'.Inv := Run.inv (hrun.tail hstep) State.inv_init
    obtain ⟨op, hen, hP, hexec⟩ := hstep
    obtain ⟨D', hmeans, hD'⟩ := exec_refines hi hD hen hexec
    exact ⟨D', hbeside.tail ⟨op, hen, hP, hexec, hmeans, hD'.observes hi'⟩, hD'⟩

/-- A program and an ideal memory beside it, along a list of operations. -/
inductive Along (A : AddrSource) (K : KeySource) :
    List (Op N E) → State N E × Ideal N E → State N E × Ideal N E → Prop
  | nil (x : State N E × Ideal N E) : Along A K [] x x
  | cons {op : Op N E} {ops : List (Op N E)} {x y z : State N E × Ideal N E}
      (hexec : exec A K x.1 op = .ok y.1) (hmeans : op.Means x.1 x.2 y.2)
      (hobserves : Observes y.1 y.2) (h : Along A K ops y z) : Along A K (op :: ops) x z

theorem Refines.along {ops : List (Op N E)} {s s' : State N E} {D : Ideal N E} (hi : s.Inv)
    (hD : Refines s.config D) (h : execAll A K s ops = some s') :
    ∃ D', Along A K ops (s, D) (s', D') := by
  induction ops generalizing s D with
  | nil =>
    obtain rfl := Option.some.inj h
    exact ⟨D, .nil _⟩
  | cons op ops ih =>
    obtain ⟨hen, t, hexec, hlater⟩ := execAll_cons_eq_some.mp h
    have hstep : Step A K (fun _ _ => True) s t := ⟨op, hen, trivial, hexec⟩
    have hit : t.Inv := Run.inv (Relation.ReflTransGen.single hstep) hi
    obtain ⟨D₁, hmeans, hD₁⟩ := exec_refines hi hD hen hexec
    obtain ⟨D', hrest⟩ := ih hit hD₁ hlater
    exact ⟨D', .cons hexec hmeans (hD₁.observes hit) hrest⟩

/-- The operations of a program, one after the other, do to the ideal memory what they mean. -/
theorem along_of_execAll {ops : List (Op N E)} {s : State N E}
    (h : execAll A K State.init ops = some s) :
    ∃ D : Ideal N E, Along A K ops (State.init, Ideal.empty) (s, D) :=
  Refines.empty.along State.inv_init h

/-- A program that registers the child of a node and then drops both. -/
def droppedEdge : State ℕ ℕ :=
  State.init.after [.registryNew, .new 10, .clone 0, .withParents 20 [(0, 1)], .tryRegisterIn 1 0,
    .drop (.node 0), .drop (.node 1)]

/-- The cascade with its hook is one step of the ideal memory. -/
theorem refinement_of_run_droppedEdge : ∃ D : Ideal ℕ ℕ,
    Relation.ReflTransGen (Beside AddrSource.lowest KeySource.reusing fun _ _ => True)
      (State.init, Ideal.empty) (droppedEdge, D) ∧ Observes droppedEdge D := by
  have hrun : Run AddrSource.lowest KeySource.reusing (fun _ _ => True) State.init droppedEdge :=
    run_after (by decide +kernel) fun _ _ _ => trivial
  exact refinement_of_run hrun

end Relrc
