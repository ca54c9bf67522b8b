import Relrc.Registries

/-!
# Forward and backward edges

A node stores its incoming edges; outgoing edges are weak references that a parent collects when
children are created, never removes when they die, and prunes when they are read. Nevertheless
`all_outgoing` returns exactly the incoming edges of live nodes that start at the node, in the
order the children were created.

What a program observes does not depend on the pruning: two states that agree up to the
`outgoing` lists (`SameDag`) answer every node operation alike, so calls that only read outgoing
edges can be left out of a run.
-/

namespace Relrc

open SlotStore Ancestry Fallible

variable {N E : Type} {A : AddrSource} {K : KeySource} {P : State N E → Op N E → Prop}
variable {s s' t t' : State N E}

/-! ### What `all_outgoing` returns -/

/-- The strong edge that a weak edge upgrades to. -/
def WeakEdge.toEdge (e : WeakEdge) : Edge := ⟨e.index, e.target⟩

/-- Creation order of the target, then position among its incoming edges. -/
def Edge.Before (a b : Edge) : Prop :=
  a.target < b.target ∨ a.target = b.target ∧ a.index < b.index

theorem filterMap_upgradeEdge (h : Heap N E) (l : List WeakEdge) :
    l.filterMap h.upgradeEdge = (l.filter fun e => h.Alive e.target).map WeakEdge.toEdge := by
  induction l with
  | nil => rfl
  | cons e l ih =>
    by_cases he : h.Alive e.target
    · have hup : h.upgradeEdge e = some e.toEdge := by
        rw [Heap.upgradeEdge, upgrade_eq_some_iff.mpr he]
        rfl
      rw [List.filterMap_cons_some hup, List.filter_cons_of_pos (by simpa using he), List.map_cons,
        ih]
    · have hup : h.upgradeEdge e = none := by
        rw [Heap.upgradeEdge, Heap.upgrade, if_neg he]
        rfl
      rw [List.filterMap_cons_none hup, List.filter_cons_of_neg (by simpa using he), ih]

/-- What `all_outgoing` returns are the listed edges whose targets are alive. -/
theorem Heap.mem_allOutgoing_fst {h : Heap N E} {p : Ref} {e : Edge} : e ∈ (h.allOutgoing p).1 ↔
    h.Alive e.target ∧ (⟨e.index, e.target⟩ : WeakEdge) ∈ h.allOutgoingWeak p := by
  rw [Heap.allOutgoing, filterMap_upgradeEdge, List.mem_map]
  simp only [List.mem_filter, decide_eq_true_eq]
  constructor
  · rintro ⟨x, ⟨hx, halive⟩, rfl⟩
    exact ⟨halive, hx⟩
  · rintro ⟨halive, hx⟩
    exact ⟨⟨e.index, e.target⟩, ⟨hx, halive⟩, rfl⟩

/-- `all_outgoing` returns the edges into live children, as the specification lists them. -/
theorem HeapInv.allOutgoing_fst {h : Heap N E} {held : Multiset Ref} (hi : HeapInv h held) {p : Ref}
    (hp : h.Alive p) : (h.allOutgoing p).1 = (h.edgesFrom p).map WeakEdge.toEdge := by
  rw [← hi.outgoing p (Set.notMem_empty p) hp]
  exact filterMap_upgradeEdge h _

/-- An edge is listed just when it is the incoming edge of a live child. -/
theorem HeapInv.mem_allOutgoing {h : Heap N E} {held : Multiset Ref} (hi : HeapInv h held)
    {p : Ref} (hp : h.Alive p) {e : Edge} :
    e ∈ (h.allOutgoing p).1 ↔
      h.Alive e.target ∧ ∃ d, h.incoming e.target e.index = some d ∧ d.source = p := by
  rw [hi.allOutgoing_fst hp, List.mem_map]
  have hparent : ∀ c i, (h.allParents c)[i]? = some p ↔
      ∃ d, h.incoming c i = some d ∧ d.source = p := by
    intro c i
    rw [Heap.allParents, List.getElem?_map, Option.map_eq_some_iff]
    rfl
  constructor
  · rintro ⟨x, hx, rfl⟩
    obtain ⟨-, hx⟩ := Heap.mem_edgesFrom.mp hx
    exact ⟨hi.alive_of_mem_parents (List.mem_of_getElem? hx), (hparent _ _).mp hx⟩
  · rintro ⟨halive, hd⟩
    exact ⟨⟨e.index, e.target⟩,
      Heap.mem_edgesFrom.mpr ⟨hi.alive_lt _ halive, (hparent _ _).mpr hd⟩, rfl⟩

/-- They come in the order in which they were created. -/
theorem HeapInv.allOutgoing_pairwise {h : Heap N E} {held : Multiset Ref} (hi : HeapInv h held)
    {p : Ref} (hp : h.Alive p) : (h.allOutgoing p).1.Pairwise Edge.Before := by
  rw [hi.allOutgoing_fst hp]
  exact List.pairwise_map.mpr ((Heap.edgesFrom_pairwise p).imp fun hab => hab)

theorem Edge.Before.ne {a b : Edge} (h : a.Before b) : a ≠ b := by
  rintro rfl
  rcases h with h | ⟨-, h⟩ <;> exact Nat.lt_irrefl _ h

/-- Reading outgoing edges changes no node. -/
theorem Heap.sameNodes_allOutgoing (h : Heap N E) (p : Ref) :
    Heap.SameNodes h (h.allOutgoing p).2 :=
  (h.sameNodes_modifyOutgoing p _).trans (Heap.sameNodes_incStrongAll _ _)

/-- Each edge that is returned holds its target. -/
theorem Heap.strong_allOutgoing (h : Heap N E) (p x : Ref) : (h.allOutgoing p).2.strong x =
    h.strong x + ((h.allOutgoing p).1.map Edge.target).count x := by
  rw [Heap.allOutgoing, Heap.incStrongAll_eq]
  rfl

/-! ### Clones that are dropped again -/

/-- Dropping a reference that is not the last. -/
theorem World.drop_of_lt {w : World N E} {r : Ref} (h : 1 < w.heap.strong r) :
    w.drop r = w.withHeap
      { w.heap with strong := Function.update w.heap.strong r (w.heap.strong r - 1) } := by
  have hreleases : w.releases r = [] := if_neg (Nat.not_le_of_lt h)
  have hhook : w.dropHook r = w := if_pos h
  rw [World.drop, World.dropAux, hreleases, List.foldl_nil, World.release, hhook,
    Heap.decStrong_of_lt h]

/-- Clones that are dropped again leave no trace. -/
theorem World.dropAll_incStrongAll {w : World N E} {rs : List Ref}
    (h : ∀ r ∈ rs, w.heap.Alive r) :
    (w.withHeap (w.heap.incStrongAll rs)).dropAll rs = w := by
  induction rs with
  | nil => rfl
  | cons r rs ih =>
    have hr : 0 < w.heap.strong r := h r List.mem_cons_self
    have hdrop : (w.withHeap (w.heap.incStrongAll (r :: rs))).drop r =
        w.withHeap (w.heap.incStrongAll rs) := by
      rw [World.drop_of_lt]
      · rw [Heap.incStrongAll_eq, Heap.incStrongAll_eq]
        simp only [World.withHeap]
        congr 2
        funext x
        by_cases hx : x = r
        · subst hx
          simp only [Function.update_self, List.count_cons_self]
          omega
        · simp only [Function.update_of_ne hx, List.count_cons_of_ne (Ne.symm hx)]
      · rw [World.heap_withHeap, Heap.incStrongAll_eq]
        simp only [List.count_cons_self]
        omega
    rw [World.dropAll, List.foldl_cons, hdrop]
    exact ih fun x hx => h x (List.mem_cons_of_mem _ hx)

/-- `n_outgoing` prunes, and that is all it does. -/
theorem World.nOutgoing_snd (w : World N E) (p : Ref) : (w.nOutgoing p).2 =
    w.withHeap (w.heap.modifyOutgoing p fun out =>
      out.filter fun e => (w.heap.upgradeEdge e).isSome) := by
  refine World.dropAll_incStrongAll (w := w.withHeap _) fun r hr => ?_
  obtain ⟨e, he, rfl⟩ := List.mem_map.mp hr
  have halive : w.heap.Alive e.target := alive_of_mem_allOutgoing (h := w.heap) (r := p) he
  exact halive

/-! ### Runs up to `outgoing` lists -/

/-- Two memories hold the same nodes, with the same edges and counts. -/
structure World.SameDag (w w' : World N E) : Prop where
  size : w'.heap.size = w.heap.size
  strong : w'.heap.strong = w.heap.strong
  value : w'.heap.value = w.heap.value
  allIncoming : w'.heap.allIncoming = w.heap.allIncoming
  weaks : w'.weaks = w.weaks

namespace World.SameDag

variable {w w' w'' : World N E}

theorem refl : SameDag w w := ⟨rfl, rfl, rfl, rfl, rfl⟩

theorem symm (h : SameDag w w') : SameDag w' w :=
  ⟨h.size.symm, h.strong.symm, h.value.symm, h.allIncoming.symm, h.weaks.symm⟩

theorem trans (h : SameDag w w') (h' : SameDag w' w'') : SameDag w w'' :=
  ⟨h'.size.trans h.size, h'.strong.trans h.strong, h'.value.trans h.value,
    h'.allIncoming.trans h.allIncoming, h'.weaks.trans h.weaks⟩

/-- The same nodes are live. -/
theorem alive_iff (h : SameDag w w') (r : Ref) : w'.heap.Alive r ↔ w.heap.Alive r := by
  rw [Heap.Alive, Heap.Alive, h.strong]

theorem allParents (h : SameDag w w') : w'.heap.allParents = w.heap.allParents := by
  funext r
  rw [Heap.allParents, Heap.allParents, h.allIncoming]

/-- Outgoing edges are determined by incoming ones. -/
theorem allOutgoing_fst {held held' : Multiset Ref} (h : SameDag w w') (hi : HeapInv w.heap held)
    (hi' : HeapInv w'.heap held') {p : Ref} (hp : w.heap.Alive p) :
    (w'.allOutgoing p).1 = (w.allOutgoing p).1 := by
  have hsame := hi'.allOutgoing_fst ((h.alive_iff p).mpr hp)
  rw [Heap.edgesFrom_congr h.size h.allParents, ← hi.allOutgoing_fst hp] at hsame
  exact hsame

theorem release (h : SameDag w w') (r : Ref) : SameDag (w.release r) (w'.release r) := by
  obtain ⟨hsize, -, -, -, hweaks⟩ := w.fields_release r
  obtain ⟨hsize', -, -, -, hweaks'⟩ := w'.fields_release r
  refine ⟨by rw [hsize, hsize', h.size], ?_, ?_, ?_, by rw [hweaks, hweaks', h.weaks]⟩
  · funext x
    rw [w.strong_release, w'.strong_release, h.strong]
  · funext x
    have hx := congrFun h.value x
    rw [Heap.value, Heap.value] at hx ⊢
    rw [w.data_release, w'.data_release, h.strong]
    split_ifs
    · rfl
    · exact hx
  · funext x
    have hx := congrFun h.allIncoming x
    rw [Heap.allIncoming, Heap.allIncoming] at hx ⊢
    rw [w.data_release, w'.data_release, h.strong]
    split_ifs
    · rfl
    · exact hx

theorem dropAux (n : ℕ) (h : SameDag w w') (r : Ref) :
    SameDag (World.dropAux n w r) (World.dropAux n w' r) := by
  induction n generalizing w w' r with
  | zero => exact h
  | succ n ih =>
    have hreleases : w'.releases r = w.releases r := by
      rw [World.releases, World.releases, h.strong, h.allParents]
    rw [World.dropAux, World.dropAux, hreleases]
    -- the cascade visits the same references in the same order
    have hcascade : ∀ (ps : List Ref) (v v' : World N E), SameDag v v' →
        SameDag (ps.foldl (World.dropAux n) v) (ps.foldl (World.dropAux n) v') := by
      intro ps
      induction ps with
      | nil => exact fun v v' hv => hv
      | cons p ps ihps => exact fun v v' hv => ihps _ _ (ih hv p)
    exact hcascade _ _ _ (h.release r)

theorem drop (h : SameDag w w') (r : Ref) : SameDag (w.drop r) (w'.drop r) := h.dropAux (r + 1) r

theorem withParents (h : SameDag w w') (v : N) (ps : List (Ref × E)) :
    SameDag (w.withParents A v ps) (w'.withParents A v ps) := by
  refine ⟨?_, ?_, ?_, ?_, h.weaks⟩ <;> simp only [World.withParents, World.heap_withHeap]
  · rw [Heap.size_withParents, Heap.size_withParents, h.size]
  · rw [Heap.strong_withParents, Heap.strong_withParents, h.strong, h.size]
  · funext x
    rw [Heap.value_withParents, Heap.value_withParents, h.value, h.size]
  · funext x
    rw [Heap.allIncoming_withParents, Heap.allIncoming_withParents, h.allIncoming, h.size]

theorem clone (h : SameDag w w') (r : Ref) : SameDag (w.clone r) (w'.clone r) := by
  refine ⟨h.size, ?_, h.value, h.allIncoming, h.weaks⟩
  simp only [World.clone, World.heap_withHeap, Heap.strong_incStrong, h.strong]

theorem setWeaks (h : SameDag w w') (ws : List Ref) :
    SameDag { w with weaks := ws } { w' with weaks := ws } :=
  ⟨h.size, h.strong, h.value, h.allIncoming, rfl⟩

/-- The prune is not seen. -/
theorem nOutgoing (w : World N E) (p : Ref) : SameDag w (w.nOutgoing p).2 := by
  rw [World.nOutgoing_snd]
  have hsame := w.heap.sameNodes_modifyOutgoing p fun out =>
    out.filter fun e => (w.heap.upgradeEdge e).isSome
  exact ⟨rfl, rfl, funext hsame.value, funext hsame.allIncoming, rfl⟩

theorem allOutgoing {held held' : Multiset Ref} (h : SameDag w w') (hi : HeapInv w.heap held)
    (hi' : HeapInv w'.heap held') {p : Ref} (hp : w.heap.Alive p) :
    SameDag (w.allOutgoing p).2 (w'.allOutgoing p).2 := by
  have hfst : (w'.heap.allOutgoing p).1 = (w.heap.allOutgoing p).1 := h.allOutgoing_fst hi hi' hp
  have hsame := w.heap.sameNodes_allOutgoing p
  have hsame' := w'.heap.sameNodes_allOutgoing p
  refine ⟨?_, ?_, ?_, ?_, h.weaks⟩ <;> simp only [World.allOutgoing, World.heap_withHeap]
  · rw [Heap.allOutgoing, Heap.allOutgoing, Heap.incStrongAll_eq, Heap.incStrongAll_eq]
    exact h.size
  · funext x
    rw [Heap.strong_allOutgoing, Heap.strong_allOutgoing, hfst, h.strong]
  · funext x
    rw [hsame.value, hsame'.value, h.value]
  · funext x
    rw [hsame.allIncoming, hsame'.allIncoming, h.allIncoming]

end World.SameDag

/-- Two states agree up to `outgoing` lists and addresses. -/
structure State.SameDag (s t : State N E) : Prop where
  world : World.SameDag s.world t.world
  handles : t.handles = s.handles

/-- The operations on nodes and edges. -/
def Op.isNodeOp : Op N E → Bool
  | .new _ | .withParents _ _ | .clone _ | .drop _ | .downgrade _ | .dropWeak _ | .upgrade _
  | .allOutgoing _ | .allChildren _ | .nOutgoing _ | .intoTarget _ => true
  | _ => false

/-- The operation reads outgoing edges and drops the result. -/
def Op.isProbe : Op N E → Bool
  | .nOutgoing _ => true
  | _ => false

/-- **Node operations do not see the difference.** -/
theorem exec_sameDag {op : Op N E} (hop : op.isNodeOp) (h : State.SameDag s t) (hi : s.Inv)
    (hit : t.Inv) (hen : op.Enabled s) (hexec : exec A K s op = .ok s') :
    op.Enabled t ∧ ∃ t', exec A K t op = .ok t' ∧ State.SameDag s' t' := by
  obtain ⟨hw, hh⟩ := h
  cases op with
  | new value =>
    obtain rfl := pure_eq_ok_iff.mp hexec
    exact ⟨trivial, _, rfl, hw.withParents value [], by simp only [hw.size, hh]⟩
  | withParents value parents =>
    obtain rfl := pure_eq_ok_iff.mp hexec
    exact ⟨by rwa [Op.Enabled, hh], _, rfl, hw.withParents value parents, by
      simp only [hw.size, hh]⟩
  | clone node =>
    obtain rfl := pure_eq_ok_iff.mp hexec
    exact ⟨(hw.alive_iff node).mpr hen, _, rfl, hw.clone node, by simp only [hh]⟩
  | drop handle =>
    obtain rfl := pure_eq_ok_iff.mp hexec
    exact ⟨by rwa [Op.Enabled, hh], _, rfl, hw.drop handle.target, by simp only [hh]⟩
  | downgrade node =>
    obtain rfl := pure_eq_ok_iff.mp hexec
    refine ⟨(hw.alive_iff node).mpr hen, _, rfl, ?_, hh⟩
    rw [hw.weaks]
    exact hw.setWeaks _
  | dropWeak node =>
    obtain rfl := pure_eq_ok_iff.mp hexec
    refine ⟨by rwa [Op.Enabled, hw.weaks], _, rfl, ?_, hh⟩
    rw [hw.weaks]
    exact hw.setWeaks _
  | upgrade node =>
    refine ⟨by rwa [Op.Enabled, hw.weaks], ?_⟩
    have hup : t.world.heap.upgrade node = s.world.heap.upgrade node := by
      rw [Heap.upgrade, Heap.upgrade, if_congr (hw.alive_iff node) rfl rfl]
    simp only [exec] at hexec ⊢
    rw [hup]
    split at hexec
    · obtain rfl := pure_eq_ok_iff.mp hexec
      exact ⟨_, rfl, hw.clone _, by simp only [hh]⟩
    · obtain rfl := pure_eq_ok_iff.mp hexec
      exact ⟨_, rfl, hw, hh⟩
  | allOutgoing node =>
    obtain rfl := pure_eq_ok_iff.mp hexec
    exact ⟨(hw.alive_iff node).mpr hen, _, rfl, hw.allOutgoing hi.heap hit.heap hen, by
      simp only [hw.allOutgoing_fst hi.heap hit.heap hen, hh]⟩
  | allChildren node =>
    obtain rfl := pure_eq_ok_iff.mp hexec
    exact ⟨(hw.alive_iff node).mpr hen, _, rfl, hw.allOutgoing hi.heap hit.heap hen, by
      simp only [World.allChildren, hw.allOutgoing_fst hi.heap hit.heap hen, hh]⟩
  | nOutgoing node =>
    obtain rfl := pure_eq_ok_iff.mp hexec
    refine ⟨(hw.alive_iff node).mpr hen, _, rfl, ?_, hh⟩
    exact (World.SameDag.nOutgoing s.world node).symm.trans
      (hw.trans (World.SameDag.nOutgoing t.world node))
  | intoTarget e =>
    obtain rfl := pure_eq_ok_iff.mp hexec
    exact ⟨by rwa [Op.Enabled, hh], _, rfl, hw, by simp only [hh]⟩
  | _ => cases hop

/-- A run without its probes ends in the same nodes, edges and handles. -/
theorem execAll_filter_probe {ops : List (Op N E)} (hops : ∀ op ∈ ops, op.isNodeOp)
    (h : State.SameDag s t) (hi : s.Inv) (hit : t.Inv) (hexec : execAll A K s ops = some s') :
    ∃ t', execAll A K t (ops.filter fun op => !op.isProbe) = some t' ∧ State.SameDag s' t' := by
  induction ops generalizing s t with
  | nil =>
    obtain rfl := Option.some.inj hexec
    exact ⟨t, rfl, h⟩
  | cons op ops ih =>
    obtain ⟨hen, s1, hs1, hexec⟩ := execAll_cons_eq_some.mp hexec
    have hi1 : s1.Inv := Run.inv (P := fun _ _ => True)
      (Relation.ReflTransGen.single ⟨op, hen, trivial, hs1⟩) hi
    have hrest := fun op hop => hops op (List.mem_cons_of_mem _ hop)
    by_cases hprobe : op.isProbe
    · -- a probe is left out
      rw [List.filter_cons_of_neg (by simpa using hprobe)]
      refine ih hrest ?_ hi1 hit hexec
      cases op with
      | nOutgoing node =>
        obtain rfl := pure_eq_ok_iff.mp hs1
        exact ⟨(World.SameDag.nOutgoing s.world node).symm.trans h.world, h.handles⟩
      | _ => cases hprobe
    · rw [List.filter_cons_of_pos (by simpa using hprobe)]
      obtain ⟨hent, t1, ht1, hsame⟩ :=
        exec_sameDag (hops op List.mem_cons_self) h hi hit hen hs1
      have hit1 : t1.Inv := Run.inv (P := fun _ _ => True)
        (Relation.ReflTransGen.single ⟨op, hent, trivial, ht1⟩) hit
      obtain ⟨t', ht', hsame'⟩ := ih hrest hsame hi1 hit1 hexec
      exact ⟨t', execAll_cons_eq_some.mpr ⟨hent, t1, ht1, ht'⟩, hsame'⟩

/-! ### All runs -/

/-- The answer of `all_outgoing` at a live node `p` is right: one edge for each incoming edge of a
live node that starts at `p`, in order, and each edge can be followed. -/
structure OutgoingCorrect (w : World N E) (p : Ref) : Prop where
  mem_iff : ∀ e, e ∈ (w.allOutgoing p).1 ↔ w.heap.Alive e.target ∧
    ∃ d, w.heap.incoming e.target e.index = some d ∧ w.heap.ptrEq d.source p
  nodup : (w.allOutgoing p).1.Nodup
  order : (w.allOutgoing p).1.Pairwise Edge.Before
  deref : ∀ e ∈ (w.allOutgoing p).1, ∃ d, (w.allOutgoing p).2.heap.derefEdge e = some d ∧
    w.heap.incoming e.target e.index = some d ∧ (w.allOutgoing p).2.heap.ptrEq d.source p ∧
    (w.allOutgoing p).2.heap.edgeTarget d = some e.target
  children : (w.allChildren p).1 = (w.allOutgoing p).1.map Edge.target
  count : (w.nOutgoing p).1 = (w.allOutgoing p).1.length

/-- Live nodes are told apart by their addresses. -/
theorem Inv.ptrEq_iff {w : World N E} {held : Multiset Ref} {regs : Multiset RegRef}
    (hi : Inv w held regs) {r x : Ref} (hr : w.heap.Alive r) (hx : w.heap.Alive x) :
    w.heap.ptrEq r x = true ↔ r = x := by
  rw [Heap.ptrEq, beq_iff_eq]
  exact ⟨hi.addr_inj r x (inUse_of_alive hr) (inUse_of_alive hx), fun h => by rw [h]⟩

/-- In every state of a program, outgoing edges are what they should be. -/
theorem State.Inv.outgoingCorrect (hi : s.Inv) {p : Ref} (hp : s.world.heap.Alive p) :
    OutgoingCorrect s.world p := by
  have hmem : ∀ e, e ∈ (s.world.allOutgoing p).1 ↔ s.world.heap.Alive e.target ∧
      ∃ d, s.world.heap.incoming e.target e.index = some d ∧ d.source = p :=
    fun e => hi.heap.mem_allOutgoing hp
  have hsource : ∀ c i d, s.world.heap.incoming c i = some d → s.world.heap.Alive d.source := by
    intro c i d hd
    exact hi.heap.parent_alive (c := c) (List.mem_map_of_mem (List.mem_of_getElem? hd))
  refine ⟨fun e => ?_, ?_, hi.heap.allOutgoing_pairwise hp, fun e he => ?_, rfl, rfl⟩
  · refine (hmem e).trans
      (and_congr_right fun _ => exists_congr fun d => and_congr_right fun hd => ?_)
    exact (hi.ptrEq_iff (hsource _ _ d hd) hp).symm
  · exact (hi.heap.allOutgoing_pairwise hp).imp Edge.Before.ne
  · obtain ⟨halive, d, hd, rfl⟩ := (hmem e).mp he
    have hsame := s.world.heap.sameNodes_allOutgoing d.source
    refine ⟨d, ?_, hd, beq_self_eq_true _, ?_⟩
    · rw [Heap.derefEdge, Heap.incoming, World.allOutgoing, World.heap_withHeap,
        hsame.allIncoming]
      exact hd
    · rw [Heap.edgeTarget, hi.heap.target_eq _ (Set.notMem_empty _) d (List.mem_of_getElem? hd),
        upgrade_eq_some_iff, Heap.Alive, World.allOutgoing, World.heap_withHeap,
        Heap.strong_allOutgoing]
      exact Nat.add_pos_left halive _

/-- **Forward and backward edges agree in every run**, and calls of `all_outgoing` whose edges are
dropped again change no later answer: they can be left out, put in or repeated anywhere. -/
theorem outgoing_edges_of_run {ops : List (Op N E)} (hops : ∀ op ∈ ops, op.isNodeOp)
    (h : execAll A K State.init ops = some s) :
    (∀ p, s.world.heap.Alive p → OutgoingCorrect s.world p) ∧
    (∃ t, execAll A K State.init (ops.filter fun op => !op.isProbe) = some t) ∧
    ∀ ops' s', (ops'.filter fun op => !op.isProbe) = ops.filter (fun op => !op.isProbe) →
      execAll A K State.init ops' = some s' →
      s'.handles = s.handles ∧ ∀ p, (s'.world.heap.Alive p ↔ s.world.heap.Alive p) ∧
        (s.world.heap.Alive p → (s'.world.allOutgoing p).1 = (s.world.allOutgoing p).1) := by
  have hinv : ∀ ops s, execAll A K State.init ops = some s → (s : State N E).Inv := fun ops s h =>
    Run.inv (run_of_execAll (P := fun _ _ => True) h fun _ _ _ => trivial) State.inv_init
  have hi := hinv ops s h
  have hsame : State.SameDag (State.init : State N E) State.init := ⟨World.SameDag.refl, rfl⟩
  obtain ⟨t, ht, hst⟩ := execAll_filter_probe hops hsame State.inv_init State.inv_init h
  refine ⟨fun p hp => hi.outgoingCorrect hp, ⟨t, ht⟩, fun ops' s' hfilter h' => ?_⟩
  -- the other sequence has the same operations besides probes
  have hops' : ∀ op ∈ ops', op.isNodeOp := by
    intro op hop
    by_cases hprobe : op.isProbe
    · cases op with
      | nOutgoing node => rfl
      | _ => cases hprobe
    · have hmem : op ∈ ops'.filter fun op => !op.isProbe :=
        List.mem_filter.mpr ⟨hop, by simpa using hprobe⟩
      rw [hfilter] at hmem
      exact hops op (List.mem_of_mem_filter hmem)
  obtain ⟨t', ht', hst'⟩ := execAll_filter_probe hops' hsame State.inv_init State.inv_init h'
  rw [hfilter, ht] at ht'
  obtain rfl := Option.some.inj ht'
  have hdag := hst.world.trans hst'.world.symm
  exact ⟨hst'.handles.symm.trans hst.handles, fun p => ⟨hdag.alive_iff p, fun hp =>
    hdag.allOutgoing_fst hi.heap (hinv ops' s' h').heap hp⟩⟩

/-- A child that dies, a second child with two edges, and a probe between them. -/
def prunedParent : List (Op ℕ ℕ) :=
  [.new 10, .clone 0, .withParents 20 [(0, 1)], .clone 0, .clone 0, .drop (.node 1), .nOutgoing 0,
    .withParents 30 [(0, 2), (0, 3)]]

theorem outgoing_edges_of_run_prunedParent :
    ((State.init.after prunedParent).world.allOutgoing 0).1 = [⟨0, 2⟩, ⟨1, 2⟩] ∧
    ((State.init.after prunedParent).world.allOutgoing 0).1.Nodup ∧
    ∃ t, execAll AddrSource.lowest KeySource.reusing State.init
      (prunedParent.filter fun op => !op.isProbe) = some t := by
  have hex : execAll AddrSource.lowest KeySource.reusing State.init prunedParent =
      some (State.init.after prunedParent) := rfl
  obtain ⟨hcorrect, hleft, -⟩ := outgoing_edges_of_run (by decide) hex
  exact ⟨by decide, (hcorrect 0 (by decide)).nodup, hleft⟩

end Relrc
