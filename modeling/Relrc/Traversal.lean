import Relrc.Edges

/-!
# Listing ancestors

`RelRc::all_ancestors` is a breadth-first iterator with a set of seen pointers. Popping a pointer
seen before makes it answer `None`, which ends every consumer, although the queue may still hold
nodes that were never listed. What is listed is therefore the part of the level order of the
ancestor tree before its first repetition (`allAncestors_eq`, `mem_allAncestors_iff`), and the
listing is complete exactly when no ancestor waits behind that repetition.
-/

namespace Relrc

open SlotStore Ancestry

variable {N E : Type} {A : AddrSource} {K : KeySource} {P : State N E → Op N E → Prop}
variable {s : State N E} {w : World N E} {H : Multiset Ref} {G : Multiset RegRef}

theorem HeapInv.rank_lt {h : Heap N E} {held : Multiset Ref} (hi : HeapInv h held) :
    ∀ x, ∀ y ∈ h.allParents x, id y < id x := hi.parent_lt

/-- All ancestors are in the levels of the unfolded tree. -/
theorem HeapInv.mem_levels_iff {h : Heap N E} {held : Multiset Ref} (hi : HeapInv h held)
    {n a : Ref} : a ∈ levels h.allParents (n + 1) [n] ↔ Reaches h.allParents n a := by
  rw [Ancestry.mem_levels_iff hi.rank_lt]
  · simp
  · simp

/-- The traversal is the repetition-free part of the level order, up to addresses. -/
theorem Inv.allAncestors_eq (hi : Inv w H G) {n : Ref} (hn : w.heap.Alive n) :
    w.heap.allAncestors n =
      takeFresh w.heap.asPtr [] (levels w.heap.allParents (n + 1) [n]) := by
  refine queueWalk_eq_takeFresh w.heap.asPtr (U := (List.range w.heap.size).map w.heap.asPtr)
    hi.heap.rank_lt ?_ ?_ List.nodup_nil (List.nil_subset _) (by simp)
  · intro x hx
    obtain rfl := List.mem_singleton.mp hx
    exact ⟨Nat.lt_succ_self x, List.mem_map_of_mem (List.mem_range.mpr (hi.heap.alive_lt x hn))⟩
  · intro x _ y hy
    exact List.mem_map_of_mem (List.mem_range.mpr (hi.heap.alive_lt y (hi.heap.parent_alive hy)))

/-- Ancestors are alive, so their addresses differ exactly when they do. -/
theorem Inv.nodup_map_asPtr_iff (hi : Inv w H G) {n : Ref} (hn : w.heap.Alive n) {p : List Ref}
    (hp : p <+: levels w.heap.allParents (n + 1) [n]) : (p.map w.heap.asPtr).Nodup ↔ p.Nodup := by
  have halive : ∀ x ∈ p, w.heap.Alive x := fun x hx =>
    hi.heap.alive_of_reaches hn (hi.heap.mem_levels_iff.mp (hp.subset hx))
  refine ⟨List.Nodup.of_map _, fun hnd => List.Nodup.map_on (fun x hx y hy hxy => ?_) hnd⟩
  exact hi.addr_inj x y (Or.inl (halive x hx)) (Or.inl (halive y hy)) hxy

/-- `all_ancestors` lists a prefix of the levels. -/
theorem Inv.allAncestors_prefix (hi : Inv w H G) {n : Ref} (hn : w.heap.Alive n) :
    w.heap.allAncestors n <+: levels w.heap.allParents (n + 1) [n] := by
  rw [hi.allAncestors_eq hn]
  exact takeFresh_prefix _ _ _

theorem Inv.allAncestors_nodup (hi : Inv w H G) {n : Ref} (hn : w.heap.Alive n) :
    (w.heap.allAncestors n).Nodup := by
  rw [← hi.nodup_map_asPtr_iff hn (hi.allAncestors_prefix hn), hi.allAncestors_eq hn]
  exact (takeFresh_nodup _ _ _).1

/-- The traversal visits what the level order of the ancestor tree lists before its first
repetition. -/
theorem Inv.mem_allAncestors_iff (hi : Inv w H G) {n a : Ref} (hn : w.heap.Alive n) :
    a ∈ w.heap.allAncestors n ↔
      ∃ p, p <+: levels w.heap.allParents (n + 1) [n] ∧ p.Nodup ∧ a ∈ p := by
  rw [hi.allAncestors_eq hn, mem_takeFresh_iff]
  refine exists_congr fun p => and_congr_right fun hp => and_congr_left fun _ => ?_
  exact hi.nodup_map_asPtr_iff hn hp

theorem Inv.reaches_of_mem_allAncestors (hi : Inv w H G) {n a : Ref} (hn : w.heap.Alive n)
    (ha : a ∈ w.heap.allAncestors n) : Reaches w.heap.allParents n a :=
  hi.heap.mem_levels_iff.mp ((hi.allAncestors_prefix hn).subset ha)

/-- The node itself comes first. -/
theorem Inv.exists_allAncestors_eq_cons (hi : Inv w H G) {n : Ref} (hn : w.heap.Alive n) :
    ∃ rest, w.heap.allAncestors n = n :: rest := by
  rw [hi.allAncestors_eq hn, levels, List.singleton_append, takeFresh, if_neg List.not_mem_nil]
  exact ⟨_, rfl⟩

/-- The node itself is listed first. -/
theorem Inv.self_mem_allAncestors (hi : Inv w H G) {n : Ref} (hn : w.heap.Alive n) :
    n ∈ w.heap.allAncestors n := by
  obtain ⟨rest, hrest⟩ := hi.exists_allAncestors_eq_cons hn
  rw [hrest]
  exact List.mem_cons_self

/-! ### Complete listings -/

/-- Consuming `n.all_ancestors()` yields `n` first and then every proper ancestor exactly once. -/
def Heap.ListsAncestors (h : Heap N E) (n : Ref) : Prop :=
  ∃ rest, h.allAncestors n = n :: rest ∧ rest.Nodup ∧
    ∀ a, a ∈ rest ↔ Relation.TransGen (fun x y => y ∈ h.allParents x) n a

/-- Every ancestor of `n` occurs in the level order of its ancestor tree before that listing first
repeats a node. -/
def Heap.ListedBeforeRepeat (h : Heap N E) (n : Ref) : Prop :=
  ∃ p, p <+: levels h.allParents (n + 1) [n] ∧ p.Nodup ∧ ∀ a, Reaches h.allParents n a → a ∈ p

/-- **`all_ancestors` is complete exactly when the level order of the ancestor tree repeats no node
before it has listed them all**, for every live node in every state of every run. -/
theorem listsAncestors_iff_of_run (hrun : Run A K P State.init s) {n : Ref}
    (hn : s.world.heap.Alive n) :
    s.world.heap.ListsAncestors n ↔ s.world.heap.ListedBeforeRepeat n := by
  have hi := Run.inv hrun State.inv_init
  have hproper : ∀ a, Reaches s.world.heap.allParents n a ↔
      a = n ∨ Relation.TransGen (fun x y => y ∈ s.world.heap.allParents x) n a :=
    fun a => Relation.reflTransGen_iff_eq_or_transGen
  obtain ⟨rest, hrest⟩ := hi.exists_allAncestors_eq_cons hn
  have hnodup := hi.allAncestors_nodup hn
  constructor
  · rintro ⟨rest', hlist, -, hmem⟩
    refine ⟨_, hi.allAncestors_prefix hn, hnodup, fun a ha => ?_⟩
    rw [hlist, List.mem_cons]
    exact ((hproper a).mp ha).imp_right (hmem a).mpr
  · rintro ⟨p, hp, hpnodup, hall⟩
    -- what is found before the first repetition is in the list
    have hlisted : ∀ a, Reaches s.world.heap.allParents n a → a ∈ n :: rest := by
      intro a ha
      rw [← hrest]
      exact (hi.mem_allAncestors_iff hn).mpr ⟨p, hp, hpnodup, hall a ha⟩
    rw [hrest, List.nodup_cons] at hnodup
    refine ⟨rest, hrest, hnodup.2, fun a => ⟨fun ha => ?_, fun ha => ?_⟩⟩
    · have hreach : Reaches s.world.heap.allParents n a := by
        refine hi.reaches_of_mem_allAncestors hn ?_
        rw [hrest]
        exact List.mem_cons_of_mem _ ha
      refine ((hproper a).mp hreach).resolve_left ?_
      rintro rfl
      exact hnodup.1 ha
    · refine (List.mem_cons.mp (hlisted a ((hproper a).mpr (Or.inr ha)))).resolve_left ?_
      rintro rfl
      exact hi.heap.acyclic a ha

/-- A diamond whose shared ancestor is a root. -/
def rootDiamond : State ℕ ℕ :=
  State.init.after [.new 0, .clone 0, .withParents 1 [(0, 1)], .withParents 2 [(0, 2)],
    .withParents 3 [(1, 3), (2, 4)]]

/-- The repetition is the last element of the level order, so nothing is missed. -/
theorem listsAncestors_iff_of_run_rootDiamond : rootDiamond.world.heap.ListsAncestors 3 := by
  have hrun : Run _ _ (fun _ _ => True) State.init rootDiamond :=
    run_after (by decide) fun _ _ _ => trivial
  refine (listsAncestors_iff_of_run hrun (by decide)).mpr
    ⟨[3, 1, 2, 0], ⟨[0], by decide⟩, by decide, fun a ha => ?_⟩
  have hlevel := (Run.inv hrun State.inv_init).heap.mem_levels_iff.mpr ha
  have hlist : levels rootDiamond.world.heap.allParents 4 [3] = [3, 1, 2, 0, 0] := by decide
  rw [hlist] at hlevel
  simpa using hlevel

/-- A diamond whose shared ancestor has a parent of its own. -/
def deepDiamond : State ℕ ℕ :=
  State.init.after [.new 0, .withParents 1 [(0, 1)], .clone 1, .withParents 2 [(1, 2)],
    .withParents 3 [(1, 3)], .withParents 4 [(2, 4), (3, 5)]]

/-- The shared ancestor is popped a second time before its parent is reached. -/
theorem not_listsAncestors_deepDiamond : deepDiamond.world.heap.Alive 4 ∧
    Run AddrSource.lowest KeySource.reusing (fun _ _ => True) State.init deepDiamond ∧
    Reaches deepDiamond.world.heap.allParents 4 0 ∧
    deepDiamond.world.heap.allAncestors 4 = [4, 2, 3, 1] ∧
    ¬ deepDiamond.world.heap.ListsAncestors 4 := by
  have hlist : deepDiamond.world.heap.allAncestors 4 = [4, 2, 3, 1] := by decide
  have hanc : Relation.TransGen (fun x y => y ∈ deepDiamond.world.heap.allParents x) 4 0 :=
    ((Relation.TransGen.single (b := 2) (by decide)).tail (c := 1) (by decide)).tail (by decide)
  refine ⟨by decide, run_after (by decide) fun _ _ _ => trivial, hanc.to_reflTransGen, hlist, ?_⟩
  rintro ⟨rest, hrest, -, hmem⟩
  have hmissing := (hmem 0).mpr hanc
  rw [hlist] at hrest
  obtain rfl := (List.cons.inj hrest).2
  exact absurd hmissing (by decide)

end Relrc
