import Relrc.Lib.Ownership
import Relrc.Memory.HeapFacts

/-!
# The heap invariant

`HeapInv h held` ties a heap to the multiset `held` of strong references that live outside of it.

* Counts are exact (`Ownership.Counted`): outside references plus incoming-edge slots of live
  nodes, with multiplicity.
* Parents are older than their children, and an edge's target is the node that stores it.
* The live part of every `outgoing` list is `edgesFrom`; what else it holds is dead.

The last two points are relative to an `Exempt` pair of sets: the nodes that store edges of another
node, and the nodes whose list is not that of their own edges. Both are empty but for programs that
put a copy of node data behind an `Rc`.

Each elementary heap operation keeps it. Liveness as reachability and the absence of cycles follow
from the invariant alone.
-/

namespace Relrc

open Ancestry Ownership

variable {N E : Type}

/-- The nodes that a program has made of copies, and those whose edges were copied. -/
structure Exempt where
  /-- Nodes whose list of outgoing edges may not be that of the edges that start at them. -/
  lists : Set Ref
  /-- Nodes whose incoming edges may have another target. -/
  stores : Set Ref

instance : EmptyCollection Exempt := ⟨⟨∅, ∅⟩⟩

@[simp] theorem Exempt.lists_empty : (∅ : Exempt).lists = ∅ := rfl

@[simp] theorem Exempt.stores_empty : (∅ : Exempt).stores = ∅ := rfl

/-- The exemptions once the value `d` has become a node of `h`. If it stores edges, it is not their
target, and their sources do not list them; if it lists a live node, it lists edges of another. -/
def Exempt.wrap (X : Exempt) (h : Heap N E) (d : InnerData N E) : Exempt where
  lists := X.lists ∪ {p | p ∈ d.incoming.map InnerEdgeData.source ∨
    p = h.size ∧ ∃ e ∈ d.outgoing, h.Alive e.target}
  stores := X.stores ∪ {c | c = h.size ∧ d.incoming ≠ []}

/-- The invariant of the node heap, relative to the strong references held outside of it, and but
for the nodes of `X`. -/
structure HeapInv (h : Heap N E) (held : Multiset Ref) (X : Exempt := ∅) : Prop where
  counted : Counted (Finset.range h.size) h.allParents h.strong held
  data_iff : ∀ r, h.data r = none ↔ h.strong r = 0
  alive_lt : ∀ r, h.Alive r → r < h.size
  parent_lt : ∀ c, ∀ p ∈ h.allParents c, p < c
  target_eq : ∀ c, c ∉ X.stores → ∀ e ∈ h.allIncoming c, e.target = c
  outgoing : ∀ p, p ∉ X.lists → h.Alive p →
    (h.allOutgoingWeak p).filter (fun e => h.Alive e.target) = h.edgesFrom p
  listed : ∀ p, h.Alive p → ∀ e ∈ h.edgesFrom p, e.target ∉ X.stores → e ∈ h.allOutgoingWeak p
  outgoing_lt : ∀ p, ∀ e ∈ h.allOutgoingWeak p, e.target < h.size

namespace HeapInv

variable {h : Heap N E} {held : Multiset Ref} {X : Exempt}

/-! ### Consequences -/

theorem data_ne_none (hi : HeapInv h held X) {r : Ref} (hr : h.Alive r) : h.data r ≠ none :=
  fun hn => Nat.ne_of_gt hr ((hi.data_iff r).mp hn)

theorem alive_of_data (hi : HeapInv h held X) {r : Ref} (hr : h.data r ≠ none) : h.Alive r :=
  Nat.pos_of_ne_zero fun h0 => hr ((hi.data_iff r).mpr h0)

theorem alive_of_mem_parents (hi : HeapInv h held X) {c p : Ref} (hp : p ∈ h.allParents c) :
    h.Alive c :=
  hi.alive_of_data fun hn => by simp [Heap.allParents_of_data_none hn] at hp

/-- The target of an edge is live. -/
theorem alive_of_mem_edgesFrom (hi : HeapInv h held X) {p : Ref} {e : WeakEdge}
    (he : e ∈ h.edgesFrom p) : h.Alive e.target :=
  hi.alive_of_mem_parents (List.mem_of_getElem? (Heap.mem_edgesFrom.mp he).2)

/-- A parent of a node is live. -/
theorem parent_alive (hi : HeapInv h held X) {c p : Ref} (hp : p ∈ h.allParents c) : h.Alive p :=
  hi.counted.pos_of_owned hp

theorem alive_of_held (hi : HeapInv h held X) {r : Ref} (hr : r ∈ held) : h.Alive r :=
  hi.counted.pos_of_mem_held hr

/-- **There are no cycles**: parents are older. -/
theorem acyclic (hi : HeapInv h held X) : Acyclic h.allParents :=
  @acyclic_of_rank _ _ id hi.parent_lt

theorem alive_of_reaches (hi : HeapInv h held X) {r s : Ref} (hr : h.Alive r)
    (hs : Reaches h.allParents r s) : h.Alive s :=
  Reaches.mem_of_closed (fun _ _ _ hp => hi.parent_alive hp) hr hs

theorem le_of_reaches (hi : HeapInv h held X) {r s : Ref} (hs : Reaches h.allParents r s) : s ≤ r :=
  @rank_le_of_reaches _ _ id hi.parent_lt _ _ hs

/-- Chains of children are finite: they ascend in the order of creation. -/
theorem wellFounded_owner (hi : HeapInv h held X) :
    WellFounded fun c p => p ∈ h.allParents c := by
  refine Subrelation.wf (r := InvImage (· < ·) fun r => h.size - r) ?_
    (InvImage.wf _ wellFounded_lt)
  intro c p hp
  have hlt := hi.parent_lt c p hp
  have hsize := hi.alive_lt c (hi.alive_of_mem_parents hp)
  exact Nat.sub_lt_sub_left (hlt.trans hsize) hlt

/-- **Liveness is reachability** from outside references along incoming edges. -/
theorem alive_iff_reached (hi : HeapInv h held X) {r : Ref} :
    h.Alive r ↔ ∃ x ∈ held, Reaches h.allParents x r :=
  hi.counted.pos_iff hi.wellFounded_owner

/-! ### Preservation -/

theorem empty : HeapInv (Heap.empty : Heap N E) 0 X where
  counted := ⟨fun _ => by simp [Heap.empty], fun _ _ => rfl, fun _ _ => rfl⟩
  data_iff _ := by simp [Heap.empty]
  alive_lt r hr := absurd hr (Nat.lt_irrefl 0)
  parent_lt c p hp := by simp [Heap.allParents, Heap.allIncoming, Heap.empty] at hp
  target_eq c _ e he := by simp [Heap.allIncoming, Heap.empty] at he
  outgoing p _ hp := absurd hp (Nat.lt_irrefl 0)
  listed p hp := absurd hp (Nat.lt_irrefl 0)
  outgoing_lt p e he := by simp [Heap.allOutgoingWeak, Heap.empty] at he

theorem setSlot (hi : HeapInv h held X) (r : Ref) (R : Option RegRef) :
    HeapInv (h.setSlot r R) held X where
  counted := by simpa using hi.counted
  data_iff x := by
    rw [Heap.data_setSlot_eq_none_iff]
    exact hi.data_iff x
  alive_lt := hi.alive_lt
  parent_lt := by simpa using hi.parent_lt
  target_eq := by simpa using hi.target_eq
  outgoing p hpX hp := by
    rw [Heap.allOutgoingWeak_setSlot,
      Heap.edgesFrom_congr (Heap.size_setSlot h r R) (Heap.allParents_setSlot h r R)]
    exact hi.outgoing p hpX hp
  listed p hp := by
    rw [Heap.allOutgoingWeak_setSlot,
      Heap.edgesFrom_congr (Heap.size_setSlot h r R) (Heap.allParents_setSlot h r R)]
    exact hi.listed p hp
  outgoing_lt := by simpa using hi.outgoing_lt

theorem incStrong (hi : HeapInv h held X) {r : Ref} (hr : h.Alive r) :
    HeapInv (h.incStrong r) (r ::ₘ held) X := by
  have halive : ∀ x, (h.incStrong r).Alive x ↔ h.Alive x := by
    intro x
    by_cases hx : x = r
    · subst hx
      simp only [Heap.Alive, Heap.strong_incStrong, Function.update_self] at hr ⊢
      omega
    · simp [Heap.Alive, Heap.strong_incStrong, hx]
  refine ⟨hi.counted.clone hr, fun x => ?_, fun x hx => hi.alive_lt x ((halive x).mp hx),
    hi.parent_lt, hi.target_eq, fun p hpX hp => ?_, fun p hp => ?_, hi.outgoing_lt⟩
  · have h1 := hi.data_iff x
    have h2 := halive x
    simp only [Heap.Alive] at h2
    rw [Heap.data_incStrong, h1]
    omega
  · have hout := hi.outgoing p hpX ((halive p).mp hp)
    rw [Heap.edgesFrom_congr (Heap.size_incStrong h r) (Heap.sameNodes_incStrong h r).allParents]
    simpa only [halive, Heap.allOutgoingWeak_incStrong] using hout
  · rw [Heap.edgesFrom_congr (Heap.size_incStrong h r) (Heap.sameNodes_incStrong h r).allParents]
    exact hi.listed p ((halive p).mp hp)

/-- The live part of an `outgoing` list is all that its pruning keeps. -/
theorem prune (hi : HeapInv h held X) (r : Ref) :
    HeapInv (h.modifyOutgoing r fun out => out.filter fun e => (h.upgradeEdge e).isSome)
      held X := by
  have hsame := Heap.sameNodes_modifyOutgoing h r
    fun out => out.filter fun e => (h.upgradeEdge e).isSome
  have hup : ∀ e : WeakEdge, (h.upgradeEdge e).isSome = decide (h.Alive e.target) := by
    intro e
    by_cases he : h.Alive e.target <;> simp [Heap.upgradeEdge, Heap.upgrade, he]
  have hout : ∀ x, h.data x ≠ none → ∀ e ∈ (h.modifyOutgoing r fun out => out.filter fun e =>
      (h.upgradeEdge e).isSome).allOutgoingWeak x, e ∈ h.allOutgoingWeak x := by
    intro x hx e he
    rw [Heap.allOutgoingWeak_modifyOutgoing _ _ _ _ hx] at he
    split_ifs at he
    · exact List.mem_of_mem_filter he
    · exact he
  have hfrom := Heap.edgesFrom_congr (Heap.size_modifyOutgoing h r
    fun out => out.filter fun e => (h.upgradeEdge e).isSome) hsame.allParents
  refine ⟨by rw [hsame.allParents]; exact hi.counted, fun x => ?_, hi.alive_lt,
    by rw [hsame.allParents]; exact hi.parent_lt, fun c hcX e he => ?_, fun p hpX hp => ?_,
    fun p hp e he heX => ?_, fun p e he => ?_⟩
  · rw [hsame.data_eq_none_iff]
    exact hi.data_iff x
  · rw [hsame.allIncoming] at he
    exact hi.target_eq c hcX e he
  · rw [hfrom, ← hi.outgoing p hpX hp, Heap.allOutgoingWeak_modifyOutgoing _ _ _ _
      (hi.data_ne_none hp)]
    split_ifs
    · rw [List.filter_filter]
      refine List.filter_congr fun e _ => ?_
      rw [hup]
      exact Bool.and_self _
    · rfl
  · -- an edge that starts at a node has a live target, so it is not removed
    rw [hfrom] at he
    rw [Heap.allOutgoingWeak_modifyOutgoing _ _ _ _ (hi.data_ne_none hp)]
    split_ifs
    · refine List.mem_filter.mpr ⟨hi.listed p hp e he heX, ?_⟩
      rw [hup]
      exact decide_eq_true (hi.alive_of_mem_edgesFrom he)
    · exact hi.listed p hp e he heX
  · by_cases hd : h.data p = none
    · rw [Heap.allOutgoingWeak_of_data_none ((hsame.data_eq_none_iff p).mpr hd)] at he
      exact absurd he List.not_mem_nil
    · exact hi.outgoing_lt p e (hout p hd e he)

/-! A reference is given up. -/

/-- One reference less, and not the last one. -/
private theorem decStrong_shared {r : Ref} (hi : HeapInv h (r ::ₘ held) X) (hr : 1 < h.strong r) :
    HeapInv (h.decStrong r) held X := by
  have halive : ∀ x, 0 < (Function.update h.strong r (h.strong r - 1)) x ↔ h.Alive x := by
    intro x
    by_cases hx : x = r
    · subst hx
      simp only [Heap.Alive, Function.update_self]
      omega
    · simp [Heap.Alive, hx]
  rw [Heap.decStrong_of_lt hr]
  refine ⟨hi.counted.release_shared hr, fun x => ?_, fun x hx => hi.alive_lt x ((halive x).mp hx),
    hi.parent_lt, hi.target_eq, fun p hpX hp => ?_, fun p hp => hi.listed p ((halive p).mp hp),
    hi.outgoing_lt⟩
  · have h1 := hi.data_iff x
    have h2 := halive x
    change h.data x = none ↔ Function.update h.strong r (h.strong r - 1) x = 0
    simp only [Heap.Alive] at h2
    rw [h1]
    omega
  · have hout := hi.outgoing p hpX ((halive p).mp hp)
    simp only [Heap.Alive, halive] at hout ⊢
    exact hout

private theorem edgesFrom_freed {h' : Heap N E} {r : Ref} (hsize : h'.size = h.size)
    (hpar : h'.allParents = Function.update h.allParents r []) (p : Ref) :
    h'.edgesFrom p = (h.edgesFrom p).filter fun e => e.target ≠ r := by
  rw [Heap.edgesFrom, Heap.edgesFrom, hsize, List.filter_flatMap]
  refine List.flatMap_congr fun c _ => ?_
  by_cases hc : c = r
  · have hnil : h'.edgesInto p c = [] := Heap.edgesInto_eq_nil (by simp [hpar, hc])
    rw [hnil, eq_comm, List.filter_eq_nil_iff]
    intro e he
    simp [(Heap.mem_edgesInto.mp he).1, hc]
  · have hsame : h'.edgesInto p c = h.edgesInto p c := by
      simp [Heap.edgesInto, hpar, hc]
    rw [hsame, eq_comm, List.filter_eq_self]
    intro e he
    simp [(Heap.mem_edgesInto.mp he).1, hc]

/-- The last reference goes, and the references to the parents are left. -/
private theorem decStrong_last {r : Ref} (hi : HeapInv h (r ::ₘ held) X) (hr : h.strong r ≤ 1) :
    HeapInv (h.decStrong r) (held + (h.allParents r : Multiset Ref)) X := by
  have hpar : (h.decStrong r).allParents = Function.update h.allParents r [] := by
    funext x
    by_cases hx : x = r
    · subst hx
      rw [Function.update_self]
      exact Heap.allParents_of_data_none (by simp [Heap.data_decStrong, hr])
    · simp [Heap.allParents, Heap.allIncoming, Heap.data_decStrong, hx]
  have hstrong : (h.decStrong r).strong = Function.update h.strong r 0 := by
    rw [Heap.decStrong_of_le hr]
  have halive : ∀ x, (h.decStrong r).Alive x ↔ x ≠ r ∧ h.Alive x := by
    intro x
    by_cases hx : x = r
    · simp [Heap.Alive, hstrong, hx]
    · simp [Heap.Alive, hstrong, hx]
  have hweak : ∀ p, p ≠ r → (h.decStrong r).allOutgoingWeak p = h.allOutgoingWeak p := by
    intro p hne
    simp [Heap.allOutgoingWeak, Heap.data_decStrong, hne]
  have hsub : ∀ c, ∀ p ∈ (h.decStrong r).allParents c, p ∈ h.allParents c := by
    intro c p hp
    rw [hpar] at hp
    by_cases hc : c = r
    · simp [hc] at hp
    · simpa [hc] using hp
  refine ⟨?_, fun x => ?_, fun x hx => ?_, fun c p hp => hi.parent_lt c p (hsub c p hp),
    fun c hcX e he => ?_, fun p hpX hp => ?_, fun p hp e he heX => ?_, fun p e he => ?_⟩
  · rw [Heap.size_decStrong, hpar, hstrong]
    exact hi.counted.release_last hr
  · rw [Heap.data_decStrong, hstrong]
    by_cases hx : x = r
    · simp [hx, hr]
    · simpa [hx] using hi.data_iff x
  · rw [Heap.size_decStrong]
    exact hi.alive_lt x ((halive x).mp hx).2
  · by_cases hc : c = r
    · rw [Heap.allIncoming_of_data_none (by simp [Heap.data_decStrong, hc, hr])] at he
      exact absurd he List.not_mem_nil
    · refine hi.target_eq c hcX e ?_
      simpa [Heap.allIncoming, Heap.data_decStrong, hc] using he
  · obtain ⟨hne, hp⟩ := (halive p).mp hp
    rw [hweak p hne, edgesFrom_freed (Heap.size_decStrong h r) hpar, ← hi.outgoing p hpX hp,
      List.filter_filter]
    refine List.filter_congr fun e _ => ?_
    simp [halive]
  · obtain ⟨hne, hp⟩ := (halive p).mp hp
    rw [edgesFrom_freed (Heap.size_decStrong h r) hpar] at he
    rw [hweak p hne]
    exact hi.listed p hp e (List.mem_of_mem_filter he) heX
  · rw [Heap.size_decStrong]
    by_cases hpr : p = r
    · rw [Heap.allOutgoingWeak_of_data_none (by simp [Heap.data_decStrong, hpr, hr])] at he
      exact absurd he List.not_mem_nil
    · refine hi.outgoing_lt p e ?_
      simpa [Heap.allOutgoingWeak, Heap.data_decStrong, hpr] using he

/-- Giving up a reference turns the incoming edges of a node it frees into references that are
yet to be given up. -/
theorem decStrong {r : Ref} (hi : HeapInv h (r ::ₘ held) X) : HeapInv (h.decStrong r)
    (held + ((if h.strong r ≤ 1 then h.allParents r else [] : List Ref) : Multiset Ref)) X := by
  split_ifs with hr
  · exact hi.decStrong_last hr
  · simpa using hi.decStrong_shared (by omega)

private theorem edgesFrom_withParents (a : Addr) (v : N) (ps : List (Ref × E)) (p : Ref) :
    (h.withParents a v ps).edgesFrom p =
      h.edgesFrom p ++ (h.withParents a v ps).edgesInto p h.size := by
  rw [Heap.edgesFrom, Heap.size_withParents, List.range_succ, List.flatMap_append,
    List.flatMap_singleton, Heap.edgesFrom]
  refine congrArg (· ++ _) (List.flatMap_congr fun c hc => ?_)
  exact Heap.edgesInto_withParents_of_lt a v ps (List.mem_range.mp hc)

/-- Nothing starts at the youngest node or at one still to come: every parent is older than its
child. -/
theorem edgesFrom_eq_nil (hi : HeapInv h held X) {p : Ref} (hp : h.size ≤ p + 1) :
    h.edgesFrom p = [] := by
  refine List.eq_nil_iff_forall_not_mem.mpr fun e he => ?_
  obtain ⟨hte, hpe⟩ := Heap.mem_edgesFrom.mp he
  have hlt := hi.parent_lt _ _ (List.mem_of_getElem? hpe)
  exact Nat.lt_irrefl _ (Nat.lt_of_lt_of_le hte (hp.trans hlt))

/-- The lists of the parents have the edges into live children, the new node included. -/
private theorem outgoing_withParents (a : Addr) (v : N) (ps : List (Ref × E))
    (hi : HeapInv h held X)
    (halive : ∀ x, (h.withParents a v ps).Alive x ↔ x = h.size ∨ h.Alive x) {p : Ref}
    (hpX : p ∉ X.lists) (hp : (h.withParents a v ps).Alive p) :
    ((h.withParents a v ps).allOutgoingWeak p).filter
      (fun e => (h.withParents a v ps).Alive e.target) = (h.withParents a v ps).edgesFrom p := by
  have hnew : ((h.withParents a v ps).edgesInto p h.size).filter
      (fun e => (h.withParents a v ps).Alive e.target) =
        (h.withParents a v ps).edgesInto p h.size := by
    refine List.filter_eq_self.mpr fun e he => ?_
    rw [(Heap.mem_edgesInto.mp he).1]
    exact decide_eq_true ((halive _).mpr (Or.inl rfl))
  rw [edgesFrom_withParents]
  by_cases hps : p = h.size
  · subst hps
    rw [Heap.allOutgoingWeak_withParents_self, Heap.pushedTo_edgesOf a v, hnew,
      hi.edgesFrom_eq_nil (Nat.le_succ _), List.nil_append]
  · have hpold : h.Alive p := ((halive p).mp hp).resolve_left hps
    rw [Heap.allOutgoingWeak_withParents h a v ps (hi.data_ne_none hpold) hps, List.filter_append,
      Heap.pushedTo_edgesOf a v, hnew, ← hi.outgoing p hpX hpold]
    refine congrArg (· ++ _) (List.filter_congr fun e he => ?_)
    have hne : e.target ≠ h.size := Nat.ne_of_lt (hi.outgoing_lt p e he)
    simp [halive, hne]

private theorem listed_withParents (a : Addr) (v : N) (ps : List (Ref × E))
    (hi : HeapInv h held X)
    (halive : ∀ x, (h.withParents a v ps).Alive x ↔ x = h.size ∨ h.Alive x) {p : Ref}
    (hp : (h.withParents a v ps).Alive p) {e : WeakEdge}
    (he : e ∈ (h.withParents a v ps).edgesFrom p) (heX : e.target ∉ X.stores) :
    e ∈ (h.withParents a v ps).allOutgoingWeak p := by
  rw [edgesFrom_withParents] at he
  by_cases hps : p = h.size
  · subst hps
    rw [hi.edgesFrom_eq_nil (Nat.le_succ _), List.nil_append] at he
    rwa [Heap.allOutgoingWeak_withParents_self, Heap.pushedTo_edgesOf a v]
  · have hpold : h.Alive p := ((halive p).mp hp).resolve_left hps
    rw [Heap.allOutgoingWeak_withParents h a v ps (hi.data_ne_none hpold) hps,
      Heap.pushedTo_edgesOf a v]
    exact List.mem_append.mpr ((List.mem_append.mp he).imp_left fun he =>
      hi.listed p hpold e he heX)

/-- A new node swallows the references to its parents. -/
theorem withParents (a : Addr) (v : N) (ps : List (Ref × E))
    (hi : HeapInv h (((ps.map Prod.fst : List Ref) : Multiset Ref) + held) X) :
    HeapInv (h.withParents a v ps) (h.size ::ₘ held) X := by
  have hdead : h.strong h.size = 0 := by
    by_contra h0
    exact Nat.lt_irrefl _ (hi.alive_lt h.size (Nat.pos_of_ne_zero h0))
  -- the parents are held, so they are older than the new node
  have hlt : ∀ pe ∈ ps, pe.1 < h.size := by
    intro pe hpe
    refine hi.alive_lt _ (hi.alive_of_held ?_)
    exact Multiset.mem_add.mpr (Or.inl (Multiset.mem_coe.mpr (List.mem_map_of_mem hpe)))
  have halive : ∀ x, (h.withParents a v ps).Alive x ↔ x = h.size ∨ h.Alive x := by
    intro x
    by_cases hx : x = h.size
    · simp [Heap.Alive, Heap.strong_withParents, hx]
    · simp [Heap.Alive, Heap.strong_withParents, hx]
  refine ⟨?_, fun x => ?_, fun x hx => ?_, fun c p hp => ?_, fun c hcX e he => ?_,
    fun p hpX hp => hi.outgoing_withParents a v ps halive hpX hp,
    fun p hp e he heX => hi.listed_withParents a v ps halive hp he heX, fun p e he => ?_⟩
  · rw [Heap.size_withParents, Heap.allParents_withParents, Heap.strong_withParents,
      Finset.range_add_one]
    exact hi.counted.alloc (by simp) hdead
  · rw [Heap.data_withParents_eq_none_iff, Heap.strong_withParents, hi.data_iff]
    by_cases hx : x = h.size <;> simp [hx]
  · rw [Heap.size_withParents]
    rcases (halive x).mp hx with rfl | hx
    · exact Nat.lt_succ_self _
    · exact (hi.alive_lt x hx).trans (Nat.lt_succ_self _)
  · rw [Heap.allParents_withParents] at hp
    by_cases hc : c = h.size
    · subst hc
      rw [Function.update_self] at hp
      obtain ⟨pe, hpe, rfl⟩ := List.mem_map.mp hp
      exact hlt pe hpe
    · rw [Function.update_of_ne hc] at hp
      exact hi.parent_lt c p hp
  · rw [Heap.allIncoming_withParents] at he
    split_ifs at he with hc
    · obtain ⟨pe, -, rfl⟩ := List.mem_map.mp he
      exact hc.symm
    · exact hi.target_eq c hcX e he
  · rw [Heap.size_withParents]
    by_cases hd : (h.withParents a v ps).data p = none
    · rw [Heap.allOutgoingWeak_of_data_none hd] at he
      exact absurd he List.not_mem_nil
    · rw [Heap.data_withParents_eq_none_iff] at hd
      -- what is new in a list is an edge into the new node
      have hpushed : e ∈ Heap.pushedTo p (Heap.edgesOf h.size ps).zipIdx → e.target = h.size := by
        intro he
        rw [Heap.pushedTo_edgesOf a v] at he
        exact (Heap.mem_edgesInto.mp he).1
      by_cases hp : p = h.size
      · subst hp
        rw [Heap.allOutgoingWeak_withParents_self] at he
        rw [hpushed he]
        exact Nat.lt_succ_self _
      · have hdp : h.data p ≠ none := fun hn => hd ⟨hp, hn⟩
        rw [Heap.allOutgoingWeak_withParents h a v ps hdp hp] at he
        rcases List.mem_append.mp he with he | he
        · exact (hi.outgoing_lt p e he).trans (Nat.lt_succ_self _)
        · rw [hpushed he]
          exact Nat.lt_succ_self _

/-- A value becomes a node, at the price of the exemptions. -/
theorem alloc (a : Addr) {d : InnerData N E}
    (hi : HeapInv h ((d.incoming.map InnerEdgeData.source : List Ref) + held) X)
    (hout : ∀ e ∈ d.outgoing, e.target < h.size) :
    HeapInv (h.alloc a d) (h.size ::ₘ held) (X.wrap h d) := by
  have hdead : h.strong h.size = 0 := by
    by_contra h0
    exact Nat.lt_irrefl _ (hi.alive_lt h.size (Nat.pos_of_ne_zero h0))
  have hlt : ∀ p ∈ d.incoming.map InnerEdgeData.source, p < h.size := fun p hp =>
    hi.alive_lt p (hi.alive_of_held (Multiset.mem_add.mpr (Or.inl hp)))
  have halive : ∀ x, (h.alloc a d).Alive x ↔ x = h.size ∨ h.Alive x := by
    intro x
    by_cases hx : x = h.size <;> simp [Heap.Alive, Heap.strong_alloc, hx]
  have hpar : (h.alloc a d).allParents =
      Function.update h.allParents h.size (d.incoming.map InnerEdgeData.source) := by
    funext x
    by_cases hx : x = h.size <;> simp [Heap.allParents, Heap.allIncoming_alloc, hx]
  have hfrom : ∀ p,
      (h.alloc a d).edgesFrom p = h.edgesFrom p ++ (h.alloc a d).edgesInto p h.size := by
    intro p
    rw [Heap.edgesFrom, Heap.edgesFrom, Heap.size_alloc, List.range_succ, List.flatMap_append,
      List.flatMap_singleton]
    refine congrArg (· ++ _) (List.flatMap_congr fun c hc => ?_)
    simp [Heap.edgesInto, hpar, Nat.ne_of_lt (List.mem_range.mp hc)]
  have hnew : (h.alloc a d).edgesFrom h.size = [] := by
    rw [hfrom, hi.edgesFrom_eq_nil (Nat.le_succ _), List.nil_append]
    refine Heap.edgesInto_eq_nil fun hmem => ?_
    rw [hpar, Function.update_self] at hmem
    exact Nat.lt_irrefl _ (hlt _ hmem)
  refine ⟨?_, fun x => ?_, fun x hx => ?_, fun c p hp => ?_, fun c hcX e he => ?_,
    fun p hpX hp => ?_, fun p hp e he heX => ?_, fun p e he => ?_⟩
  · rw [Heap.size_alloc, hpar, Heap.strong_alloc, Finset.range_add_one]
    exact hi.counted.alloc (by simp) hdead
  · rw [Heap.data_alloc, Heap.strong_alloc]
    by_cases hx : x = h.size <;> simp [hx, hi.data_iff]
  · rw [Heap.size_alloc]
    rcases (halive x).mp hx with rfl | hx
    · exact Nat.lt_succ_self _
    · exact (hi.alive_lt x hx).trans (Nat.lt_succ_self _)
  · rw [hpar] at hp
    by_cases hc : c = h.size
    · subst hc
      rw [Function.update_self] at hp
      exact hlt p hp
    · rw [Function.update_of_ne hc] at hp
      exact hi.parent_lt c p hp
  · rw [Heap.allIncoming_alloc] at he
    split_ifs at he with hc
    · -- only a value without edges is not exempt
      exact absurd (Or.inr ⟨hc, List.ne_nil_of_mem he⟩) hcX
    · exact hi.target_eq c (fun hmem => hcX (Or.inl hmem)) e he
  · rw [Heap.allOutgoingWeak_alloc]
    by_cases hps : p = h.size
    · subst hps
      rw [if_pos rfl, hnew, List.filter_eq_nil_iff]
      intro e he hlive
      have hne : e.target ≠ h.size := Nat.ne_of_lt (hout e he)
      have hlive' : h.Alive e.target := ((halive _).mp (of_decide_eq_true hlive)).resolve_left hne
      exact hpX (Or.inr (Or.inr ⟨rfl, e, he, hlive'⟩))
    · have hnil : (h.alloc a d).edgesInto p h.size = [] := Heap.edgesInto_eq_nil fun hmem => by
        rw [hpar, Function.update_self] at hmem
        exact hpX (Or.inr (Or.inl hmem))
      rw [if_neg hps, hfrom, hnil, List.append_nil,
        ← hi.outgoing p (fun hmem => hpX (Or.inl hmem)) (((halive p).mp hp).resolve_left hps)]
      refine List.filter_congr fun e he => ?_
      have hne : e.target ≠ h.size := Nat.ne_of_lt (hi.outgoing_lt p e he)
      simp [halive, hne]
  · by_cases hps : p = h.size
    · subst hps
      rw [hnew] at he
      exact absurd he List.not_mem_nil
    · rw [Heap.allOutgoingWeak_alloc, if_neg hps]
      rw [hfrom] at he
      rcases List.mem_append.mp he with he | he
      · exact hi.listed p (((halive p).mp hp).resolve_left hps) e he fun hmem => heX (Or.inl hmem)
      · -- an edge into the new node comes from a value that stores edges
        obtain ⟨htarget, hmem⟩ := Heap.mem_edgesInto.mp he
        refine absurd (Or.inr ⟨htarget, fun hnil => ?_⟩) heX
        rw [hpar, Function.update_self, hnil] at hmem
        simp at hmem
  · rw [Heap.size_alloc]
    rw [Heap.allOutgoingWeak_alloc] at he
    split_ifs at he
    · exact (hout e he).trans (Nat.lt_succ_self _)
    · exact (hi.outgoing_lt p e he).trans (Nat.lt_succ_self _)

end HeapInv

end Relrc
