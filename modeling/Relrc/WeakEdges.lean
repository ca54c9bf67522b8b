import Relrc.Edges
import Relrc.Model.Allocation

/-!
# Weak edges over a run

A `WeakEdge` is a position in the incoming edges of a weakly referenced node. Programs obtain weak
edges from the child (`all_incoming_weak`) and from the parent (`all_outgoing_weak`) and may keep
them while nodes come and go, `outgoing` lists are pruned, and addresses are reused.

They are stable names of edges all the same (`weak_edges_of_run`): while its target lives, a weak
edge upgrades to the edge it named when it was read. Positions in an `outgoing` list may change, as
the source says, but their order does not: a list is only ever pruned of edges that are gone
and extended by edges to new nodes (`Steps.outgoing`).
-/

namespace Relrc

open SlotStore Ancestry

/-! ### Lists that are pruned and extended -/

section PrunedAppend

variable {α : Type*} {keep keep' new new' : α → Prop} {l l' l'' : List α}

/-- `l'` is `l` without some elements, none of which is in `keep`, followed by elements in `new`. -/
def PrunedAppend (keep new : α → Prop) (l l' : List α) : Prop :=
  ∃ kept added, l' = kept ++ added ∧ kept.Sublist l ∧ (∀ x ∈ l, keep x → x ∈ kept) ∧
    ∀ x ∈ added, new x

namespace PrunedAppend

theorem refl : PrunedAppend keep new l l :=
  ⟨l, [], (List.append_nil l).symm, List.Sublist.refl l, fun _ hx _ => hx,
    fun _ hx => absurd hx List.not_mem_nil⟩

theorem append (h : ∀ x ∈ l', new x) : PrunedAppend keep new l (l ++ l') :=
  ⟨l, l', rfl, List.Sublist.refl l, fun _ hx _ => hx, h⟩

theorem filter {p : α → Bool} (h : ∀ x ∈ l, keep x → p x) :
    PrunedAppend keep new l (l.filter p) :=
  ⟨l.filter p, [], (List.append_nil _).symm, List.filter_sublist,
    fun x hx hk => List.mem_filter.mpr ⟨hx, h x hx hk⟩, fun _ hx => absurd hx List.not_mem_nil⟩

/-- What is kept to the end was kept all along, and is told from what was added on the way. -/
theorem trans (h : PrunedAppend keep new l l') (h' : PrunedAppend keep' new' l' l'')
    (hkeep : ∀ x ∈ l, keep' x → keep x) (hold : ∀ x ∈ l, ¬ new x) (hnew : ∀ x, new' x → new x) :
    PrunedAppend keep' new l l'' := by
  obtain ⟨kept, added, rfl, hsub, hkept, hadded⟩ := h
  obtain ⟨kept', added', rfl, hsub', hkept', hadded'⟩ := h'
  obtain ⟨first, second, rfl, hfirst, hsecond⟩ := List.sublist_append_iff.mp hsub'
  refine ⟨first, second ++ added', List.append_assoc _ _ _, hfirst.trans hsub, fun x hx hk => ?_,
    fun x hx => ?_⟩
  · have hmem : x ∈ first ++ second :=
      hkept' x (List.mem_append_left _ (hkept x hx (hkeep x hx hk))) hk
    refine (List.mem_append.mp hmem).resolve_right fun hx' => ?_
    exact hold x hx (hadded x (hsecond.subset hx'))
  · rcases List.mem_append.mp hx with hx | hx
    · exact hadded x (hsecond.subset hx)
    · exact hnew x (hadded' x hx)

end PrunedAppend

end PrunedAppend

/-! ### Outgoing lists -/

variable {N E : Type} {A : AddrSource} {K : KeySource} {ok : Access → Prop}
variable {P : State N E → Op N E → Prop} {c c' : Config N E} {s t : State N E}

theorem upgradeEdge_eq_some_iff {h : Heap N E} {e : WeakEdge} {edge : Edge} :
    h.upgradeEdge e = some edge ↔ h.Alive e.target ∧ edge = e.toEdge := by
  rw [Heap.upgradeEdge, Heap.upgrade]
  split_ifs with halive
  · exact ⟨fun heq => ⟨halive, (Option.some.inj heq).symm⟩, fun heq => congrArg some heq.2.symm⟩
  · refine ⟨fun heq => ?_, fun heq => absurd heq.1 halive⟩
    cases heq

/-- What becomes of the `outgoing` list of `p`: edges whose target has died may be gone, and edges
to nodes that were created since were appended. -/
def OutgoingKept (h h' : Heap N E) (p : Ref) : Prop :=
  PrunedAppend (fun e => h'.Alive e.target) (fun e => h.size ≤ e.target)
    (h.allOutgoingWeak p) (h'.allOutgoingWeak p)

theorem OutgoingKept.of_eq {h h' : Heap N E} {p : Ref}
    (heq : h'.allOutgoingWeak p = h.allOutgoingWeak p) : OutgoingKept h h' p := by
  rw [OutgoingKept, heq]
  exact PrunedAppend.refl

/-- An elementary step prunes or extends a list. -/
theorem Micro.outgoing (h : Micro A K ok c c') (hi : c.Inv) {p : Ref}
    (hlt : p < c.world.heap.size) (hp : c'.world.heap.Alive p) :
    OutgoingKept c.world.heap c'.world.heap p := by
  have hold : c.world.heap.Alive p := (h.frame hi).alive p hlt hp
  have hdata : c.world.heap.data p ≠ none := hi.heap.data_ne_none hold
  cases h with
  | alloc w H G v ps =>
    rw [OutgoingKept, World.withParents, World.heap_withHeap,
      Heap.allOutgoingWeak_withParents _ _ _ _ hdata (Nat.ne_of_lt hlt)]
    refine PrunedAppend.append fun e he => ?_
    rw [Heap.pushedTo_edgesOf (w.nextAddr A) v] at he
    exact (Heap.mem_edgesInto.mp he).1.ge
  | release w H G r =>
    refine OutgoingKept.of_eq ?_
    have hlive : ¬ (p = r ∧ w.heap.strong r ≤ 1) := by
      rintro ⟨rfl, hs⟩
      rw [Heap.Alive, w.strong_release, if_pos rfl] at hp
      omega
    rw [Heap.allOutgoingWeak, w.data_release, if_neg hlive, Heap.allOutgoingWeak]
  | prune w H G r =>
    rw [OutgoingKept, World.heap_withHeap, Heap.allOutgoingWeak_modifyOutgoing _ _ _ _ hdata]
    split_ifs
    · refine PrunedAppend.filter fun e _ he => ?_
      exact Option.isSome_iff_exists.mpr ⟨_, upgradeEdge_eq_some_iff.mpr ⟨he, rfl⟩⟩
    · exact PrunedAppend.refl
  | register w H G r R hr hR hok =>
    refine OutgoingKept.of_eq ?_
    rcases w.tryRegisterIn_cases (K := K) r R with ⟨_, _, _, heq⟩ | ⟨_, heq⟩ | ⟨_, heq⟩ <;> rw [heq]
    · rfl
    · rw [World.heap_setRegistry, World.heap_withHeap, Heap.allOutgoingWeak_setSlot]
  | dropRegistry w H G R =>
    refine OutgoingKept.of_eq ?_
    rw [World.dropRegistry]
    split_ifs <;> rfl
  | clone w H G r hr => exact OutgoingKept.of_eq rfl
  | setWeaks w H G ws hws => exact OutgoingKept.of_eq rfl
  | addNode w H G r R hr hR hok => exact OutgoingKept.of_eq rfl
  | remove w H G R id hR hok => exact OutgoingKept.of_eq rfl
  | freeNodeIds w H G R hR => exact OutgoingKept.of_eq rfl
  | allocRegistry w H G reg hinv hin => exact OutgoingKept.of_eq rfl
  | cloneRegistry w H G R hR => exact OutgoingKept.of_eq rfl

/-- **An `outgoing` list is only ever pruned and extended.** -/
theorem Steps.outgoing (h : Steps A K ok c c') (hi : c.Inv) {p : Ref}
    (hlt : p < c.world.heap.size) (hp : c'.world.heap.Alive p) :
    OutgoingKept c.world.heap c'.world.heap p := by
  induction h with
  | refl => exact OutgoingKept.of_eq rfl
  | tail hsteps hstep ih =>
    have hib := Steps.inv hsteps hi
    have hframe := Steps.frame hsteps hi
    have hframe' := hstep.frame hib
    have hltb := lt_of_lt_of_le hlt hframe.size_le
    refine (ih (hframe'.alive p hltb hp)).trans (hstep.outgoing hib hltb hp)
      (fun e he halive => ?_) (fun e he => ?_) fun e he => hframe.size_le.trans he
    · exact hframe'.alive _ (lt_of_lt_of_le (hi.heap.outgoing_lt p e he) hframe.size_le) halive
    · exact Nat.not_le_of_lt (hi.heap.outgoing_lt p e he)

/-! ### Weak edges that a program keeps -/

/-- Some node lists the weak edge, as an incoming or as an outgoing edge. -/
def Heap.Lists (h : Heap N E) (e : WeakEdge) : Prop :=
  ∃ r, e ∈ h.allIncomingWeak r ∨ e ∈ h.allOutgoingWeak r

/-- Weak incoming edges stand for the stored edges. -/
theorem Heap.mem_allIncomingWeak {h : Heap N E} {r : Ref} {e : WeakEdge} :
    e ∈ h.allIncomingWeak r ↔ ∃ d, h.incoming r e.index = some d ∧ d.target = e.target := by
  rw [Heap.allIncomingWeak, List.mem_map]
  constructor
  · rintro ⟨⟨d, i⟩, hd, rfl⟩
    exact ⟨d, List.mem_zipIdx_iff_getElem?.mp hd, rfl⟩
  · rintro ⟨d, hd, htarget⟩
    exact ⟨(d, e.index), List.mem_zipIdx_iff_getElem?.mpr hd, by rw [htarget]⟩

theorem Heap.getElem?_allIncomingWeak (h : Heap N E) (r : Ref) (i : ℕ) :
    (h.allIncomingWeak r)[i]? = h.incomingWeak r i := by
  rw [Heap.allIncomingWeak, Heap.incomingWeak, List.getElem?_map, List.getElem?_zipIdx,
    Option.map_map, Nat.zero_add]
  rfl

section Listed

variable {h : Heap N E} {held : Multiset Ref}

/-- An outgoing edge whose target lives is an incoming edge of its target. -/
theorem HeapInv.incoming_of_outgoing (hi : HeapInv h held) {p : Ref} {e : WeakEdge}
    (he : e ∈ h.allOutgoingWeak p) (halive : h.Alive e.target) :
    ∃ d, h.incoming e.target e.index = some d ∧ d.source = p := by
  have hp : h.Alive p := hi.alive_of_data (Heap.data_ne_none_of_mem_outgoing he)
  have hmem : e ∈ (h.allOutgoingWeak p).filter fun e => h.Alive e.target :=
    List.mem_filter.mpr ⟨he, decide_eq_true halive⟩
  rw [hi.outgoing p (Set.notMem_empty p) hp] at hmem
  have hparent := (Heap.mem_edgesFrom.mp hmem).2
  rwa [Heap.allParents, List.getElem?_map, Option.map_eq_some_iff] at hparent

/-- A listed edge to a live child is one of its incoming edges. -/
theorem HeapInv.incoming_of_lists (hi : HeapInv h held) {e : WeakEdge} (he : h.Lists e)
    (halive : h.Alive e.target) : ∃ d, h.incoming e.target e.index = some d := by
  obtain ⟨r, he | he⟩ := he
  · obtain ⟨d, hd, htarget⟩ := Heap.mem_allIncomingWeak.mp he
    rw [hi.target_eq r (Set.notMem_empty r) d (List.mem_of_getElem? hd)] at htarget
    exact ⟨d, htarget ▸ hd⟩
  · obtain ⟨d, hd, -⟩ := hi.incoming_of_outgoing he halive
    exact ⟨d, hd⟩

theorem HeapInv.target_lt_of_lists (hi : HeapInv h held) {e : WeakEdge} (he : h.Lists e) :
    e.target < h.size := by
  obtain ⟨r, he | he⟩ := he
  · obtain ⟨d, hd, htarget⟩ := Heap.mem_allIncomingWeak.mp he
    have hmem := List.mem_of_getElem? hd
    rw [← htarget, hi.target_eq r (Set.notMem_empty r) d hmem]
    exact hi.alive_lt r (hi.alive_of_mem_parents (List.mem_map_of_mem hmem))
  · exact hi.outgoing_lt r e he

/-- Weak edges that are listed keep the address of their target in use. -/
theorem Inv.inUse_of_lists {w : World N E} {regs : Multiset RegRef} (hi : Inv w held regs)
    {e : WeakEdge} (he : w.heap.Lists e) : w.InUse e.target := by
  obtain ⟨r, he | he⟩ := he
  · obtain ⟨d, hd, htarget⟩ := Heap.mem_allIncomingWeak.mp he
    have hmem := List.mem_of_getElem? hd
    rw [← htarget, hi.heap.target_eq r (Set.notMem_empty r) d hmem]
    exact Inv.inUse_of_alive (hi.heap.alive_of_mem_parents (List.mem_map_of_mem hmem))
  · exact hi.inUse_of_outgoing he

end Listed

/-- The edge `edge` with data `d` that the weak edge `e` names in `h'` is the one it named in `h`,
and both of its ends list it. -/
structure StillNames (h h' : Heap N E) (e : WeakEdge) (edge : Edge) (d : InnerEdgeData E) :
    Prop where
  edge_eq : edge = e.toEdge
  before : h.derefEdge edge = some d
  deref : h'.derefEdge edge = some d
  target : h'.edgeTarget d = some e.target
  source : h'.Alive d.source
  incoming : e ∈ h'.allIncomingWeak e.target
  outgoing : e ∈ h'.allOutgoingWeak d.source
  lister : ∀ p, e ∈ h.allOutgoingWeak p → d.source = p

/-- A weak edge that still upgrades names the edge it named before. -/
theorem StillNames.of_frame {w w' : World N E} {H H' : Multiset Ref} {G G' : Multiset RegRef}
    (hi : Inv w H G) (hi' : Inv w' H' G') (hf : Frame w w') {e : WeakEdge} {edge : Edge}
    (he : w.heap.Lists e) (hup : w'.heap.upgradeEdge e = some edge) :
    ∃ d, StillNames w.heap w'.heap e edge d := by
  obtain ⟨halive', rfl⟩ := upgradeEdge_eq_some_iff.mp hup
  have hlt := hi.heap.target_lt_of_lists he
  have halive := hf.alive e.target hlt halive'
  obtain ⟨d, hd⟩ := hi.heap.incoming_of_lists he halive
  have hd' : w'.heap.incoming e.target e.index = some d := by
    rw [Heap.incoming, hf.allIncoming e.target hlt halive']
    exact hd
  have hmem := List.mem_of_getElem? hd'
  have htarget : d.target = e.target := hi'.heap.target_eq e.target (Set.notMem_empty _) d hmem
  have hsource : w'.heap.Alive d.source := hi'.heap.parent_alive (List.mem_map_of_mem hmem)
  have hparent : (w'.heap.allParents e.target)[e.index]? = some d.source := by
    rw [Heap.allParents, List.getElem?_map]
    exact Option.map_eq_some_iff.mpr ⟨d, hd', rfl⟩
  refine ⟨d, rfl, hd, hd', ?_, hsource, ?_, ?_, fun p hp => ?_⟩
  · rw [Heap.edgeTarget, htarget]
    exact upgrade_eq_some_iff.mpr halive'
  · exact Heap.mem_allIncomingWeak.mpr ⟨d, hd', htarget⟩
  · exact hi'.heap.listed d.source hsource e
      (Heap.mem_edgesFrom.mpr ⟨hi'.heap.alive_lt _ halive', hparent⟩) (Set.notMem_empty _)
  · obtain ⟨d', hd'', rfl⟩ := hi.heap.incoming_of_outgoing hp halive
    exact congrArg InnerEdgeData.source (Option.some.inj (hd.symm.trans hd''))

/-- Weak edges to nodes in use are told apart by address and position. -/
theorem Inv.weakEdgePtrEq_iff {w : World N E} {H : Multiset Ref} {G : Multiset RegRef}
    (hi : Inv w H G) {e e' : WeakEdge} (he : w.InUse e.target) (he' : w.InUse e'.target) :
    w.heap.weakEdgePtrEq e e' = true ↔ e = e' := by
  rw [Heap.weakEdgePtrEq, Bool.and_eq_true, beq_iff_eq, Heap.ptrEq, beq_iff_eq]
  constructor
  · rintro ⟨hindex, haddr⟩
    have htarget := hi.addr_inj e.target e'.target he he' haddr
    cases e
    cases e'
    exact congrArg₂ WeakEdge.mk hindex htarget
  · rintro rfl
    exact ⟨rfl, rfl⟩

/-- **Weak edges are stable names.** Between two states of a run, the incoming weak edges of a node
stay, and its outgoing ones are pruned and extended. A weak edge that was listed before upgrades to
the edge it named then, or not at all, and never again once it failed to. Weak edges whose targets
are in use, which those that are listed are, are told apart by `ptr_eq`. -/
theorem weak_edges_of_run (h₀ : Run A K P State.init s) (h : Run A K P s t) :
    (∀ p, p < s.world.heap.size → t.world.heap.Alive p →
      (∀ i, t.world.heap.incomingWeak p i = (s.world.heap.allIncomingWeak p)[i]?) ∧
      OutgoingKept s.world.heap t.world.heap p) ∧
    (∀ e edge, s.world.heap.Lists e → t.world.heap.upgradeEdge e = some edge →
      ∃ d, StillNames s.world.heap t.world.heap e edge d) ∧
    (∀ e, s.world.heap.Lists e → s.world.heap.upgradeEdge e = none →
      t.world.heap.upgradeEdge e = none) ∧
    (∀ e, t.world.heap.Lists e → t.world.InUse e.target) ∧
    ∀ e e', t.world.InUse e.target → t.world.InUse e'.target →
      (t.world.heap.weakEdgePtrEq e e' = true ↔ e = e') := by
  have hi : s.Inv := Run.inv h₀ State.inv_init
  have hi' : t.Inv := Run.inv h hi
  have hf : Frame s.world t.world := Run.frame h hi
  have hsteps : Steps A K (fun _ => True) s.config t.config :=
    Run.steps h hi fun _ _ _ _ _ => trivial
  refine ⟨fun p hlt hp => ⟨fun i => ?_, Steps.outgoing hsteps hi hlt hp⟩,
    fun e edge he hup => StillNames.of_frame hi hi' hf he hup, fun e he hgone => ?_,
    fun e he => hi'.inUse_of_lists he, fun e e' he he' => hi'.weakEdgePtrEq_iff he he'⟩
  · rw [Heap.getElem?_allIncomingWeak, Heap.incomingWeak, Heap.incomingWeak, Heap.incoming,
      Heap.incoming, hf.allIncoming p hlt hp]
  · refine Option.eq_none_iff_forall_ne_some.mpr fun edge hup => ?_
    have hlt := hi.heap.target_lt_of_lists he
    have halive := hf.alive e.target hlt (upgradeEdge_eq_some_iff.mp hup).1
    exact Option.ne_none_iff_exists'.mpr ⟨_, upgradeEdge_eq_some_iff.mpr ⟨halive, rfl⟩⟩ hgone

/-- A node with two children. -/
def twoChildren : List (Op ℕ ℕ) :=
  [.new 10, .clone 0, .clone 0, .withParents 20 [(0, 1)], .withParents 30 [(0, 2)]]

/-- The first child dies, its edge is pruned, and a third child takes its address. -/
def replacedChild : List (Op ℕ ℕ) :=
  [.drop (.node 1), .nOutgoing 0, .clone 0, .withParents 40 [(0, 3)]]

theorem weak_edges_of_run_replacedChild :
    let s := State.init.after twoChildren
    let t := s.after replacedChild
    t.world.heap.asPtr 3 = s.world.heap.asPtr 1 ∧
    OutgoingKept s.world.heap t.world.heap 0 ∧
    (∃ d, StillNames s.world.heap t.world.heap ⟨0, 2⟩ ⟨0, 2⟩ d) ∧
    t.world.heap.weakEdgePtrEq ⟨0, 2⟩ ⟨0, 3⟩ = false := by
  intro s t
  have h₀ : Run AddrSource.lowest KeySource.reusing (fun _ _ => True) State.init s :=
    run_after (by decide) fun _ _ _ => trivial
  have h : Run AddrSource.lowest KeySource.reusing (fun _ _ => True) s t :=
    run_after (by decide) fun _ _ _ => trivial
  obtain ⟨hlists, hnames, -, -, hptr⟩ := weak_edges_of_run h₀ h
  refine ⟨by decide, (hlists 0 (by decide) (by decide)).2,
    hnames ⟨0, 2⟩ ⟨0, 2⟩ ⟨0, Or.inr (by decide)⟩ (by decide), ?_⟩
  exact Bool.eq_false_iff.mpr fun heq =>
    absurd ((hptr ⟨0, 2⟩ ⟨0, 3⟩ (by decide) (by decide)).mp heq) (by decide)

end Relrc
