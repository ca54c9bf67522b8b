import Relrc.Model.Node

/-!
# What the heap operations read back

How `value`, `allIncoming`, `allOutgoingWeak` and `slot` see each write to the heap. Values and
incoming edges are immutable: only `alloc` introduces them and only the last `decStrong` removes
them. `edgesFrom` is the specification of `all_outgoing`: the incoming edges of live nodes that
start at a given node, in order of creation of the child and of position within it.
-/

namespace Relrc

namespace Heap

variable {N E : Type} (h : Heap N E)

/-- A node has data exactly if it has a value. -/
theorem value_eq_none_iff {h : Heap N E} {r : Ref} : h.value r = none ↔ h.data r = none := by
  simp [value]

theorem allIncoming_of_data_none {h : Heap N E} {r : Ref} (hd : h.data r = none) :
    h.allIncoming r = [] := by
  simp [allIncoming, hd]

theorem allOutgoingWeak_of_data_none {h : Heap N E} {r : Ref} (hd : h.data r = none) :
    h.allOutgoingWeak r = [] := by
  simp [allOutgoingWeak, hd]

theorem slot_of_data_none {h : Heap N E} {r : Ref} (hd : h.data r = none) : h.slot r = none := by
  simp [slot, hd]

/-- A freed node has no parents. -/
theorem allParents_of_data_none {h : Heap N E} {r : Ref} (hd : h.data r = none) :
    h.allParents r = [] := by
  simp [allParents, allIncoming_of_data_none hd]

/-- Two heaps hold the same nodes: same values, incoming edges and registry cells. -/
structure SameNodes (h h' : Heap N E) : Prop where
  value : ∀ r, h'.value r = h.value r
  allIncoming : ∀ r, h'.allIncoming r = h.allIncoming r
  slot : ∀ r, h'.slot r = h.slot r

namespace SameNodes

theorem refl : SameNodes h h := ⟨fun _ => rfl, fun _ => rfl, fun _ => rfl⟩

variable {h} {h' h'' : Heap N E}

theorem trans (a : SameNodes h h') (b : SameNodes h' h'') : SameNodes h h'' :=
  ⟨fun r => (b.value r).trans (a.value r), fun r => (b.allIncoming r).trans (a.allIncoming r),
    fun r => (b.slot r).trans (a.slot r)⟩

/-- The same nodes have the same parents. -/
theorem allParents (a : SameNodes h h') : h'.allParents = h.allParents :=
  funext fun r => by rw [Heap.allParents, a.allIncoming, Heap.allParents]

theorem data_eq_none_iff (a : SameNodes h h') (r : Ref) : h'.data r = none ↔ h.data r = none := by
  rw [← value_eq_none_iff, a.value, value_eq_none_iff]

end SameNodes

/-! ### The `outgoing` cell -/

/-- Values and incoming edges are apart from the `outgoing` cell. -/
theorem sameNodes_modifyOutgoing (r : Ref) (f : List WeakEdge → List WeakEdge) :
    SameNodes h (h.modifyOutgoing r f) := by
  refine ⟨fun x => ?_, fun x => ?_, fun x => ?_⟩ <;>
    by_cases hx : x = r <;> cases hd : h.data x <;>
    simp_all [value, allIncoming, slot, modifyOutgoing, data_modify]

/-- The list of one node is edited. -/
theorem allOutgoingWeak_modifyOutgoing (r : Ref) (f : List WeakEdge → List WeakEdge) (x : Ref)
    (hx : h.data x ≠ none) : (h.modifyOutgoing r f).allOutgoingWeak x =
      if x = r then f (h.allOutgoingWeak x) else h.allOutgoingWeak x := by
  obtain ⟨d, hd⟩ := Option.ne_none_iff_exists'.mp hx
  by_cases hxr : x = r
  · subst hxr
    simp [modifyOutgoing, allOutgoingWeak, data_modify, hd]
  · simp [modifyOutgoing, allOutgoingWeak, data_modify, hxr]

/-! ### The `registry` cell -/

theorem value_setSlot (r : Ref) (R : Option RegRef) (x : Ref) :
    (h.setSlot r R).value x = h.value x := by
  by_cases hx : x = r <;> cases hd : h.data x <;> simp_all [value, setSlot, data_modify]

@[simp] theorem allIncoming_setSlot (r : Ref) (R : Option RegRef) :
    (h.setSlot r R).allIncoming = h.allIncoming := by
  funext x
  by_cases hx : x = r <;> cases hd : h.data x <;> simp_all [allIncoming, setSlot, data_modify]

@[simp] theorem allParents_setSlot (r : Ref) (R : Option RegRef) :
    (h.setSlot r R).allParents = h.allParents := by
  funext x
  simp [allParents]

@[simp] theorem allOutgoingWeak_setSlot (r : Ref) (R : Option RegRef) :
    (h.setSlot r R).allOutgoingWeak = h.allOutgoingWeak := by
  funext x
  by_cases hx : x = r <;> cases hd : h.data x <;>
    simp_all [allOutgoingWeak, setSlot, data_modify]

/-- The cell of one node is written, unless it has been freed. -/
theorem slot_setSlot (r : Ref) (R : Option RegRef) (x : Ref) :
    (h.setSlot r R).slot x = if x = r ∧ h.data x ≠ none then R else h.slot x := by
  by_cases hx : x = r <;> cases hd : h.data x <;> simp_all [slot, setSlot, data_modify]

theorem data_setSlot_eq_none_iff (r : Ref) (R : Option RegRef) (x : Ref) :
    (h.setSlot r R).data x = none ↔ h.data x = none := by
  rw [← value_eq_none_iff, value_setSlot, value_eq_none_iff]

/-! ### Counts -/

/-- A count is no data. -/
theorem sameNodes_incStrong (r : Ref) : SameNodes h (h.incStrong r) :=
  ⟨fun _ => rfl, fun _ => rfl, fun _ => rfl⟩

@[simp] theorem allOutgoingWeak_incStrong (r : Ref) :
    (h.incStrong r).allOutgoingWeak = h.allOutgoingWeak := rfl

theorem strong_incStrong (r : Ref) :
    (h.incStrong r).strong = Function.update h.strong r (h.strong r + 1) := rfl

/-- Each node is counted as often as it occurs. -/
theorem incStrongAll_eq (rs : List Ref) :
    h.incStrongAll rs = { h with strong := fun x => h.strong x + rs.count x } := by
  induction rs generalizing h with
  | nil => simp [incStrongAll]
  | cons r rs ih =>
    have hfold : h.incStrongAll (r :: rs) = (h.incStrong r).incStrongAll rs := rfl
    rw [hfold, ih, incStrong]
    congr 1
    funext x
    by_cases hx : x = r
    · subst hx
      simp only [Function.update_self, List.count_cons_self]
      omega
    · simp only [Function.update_of_ne hx, List.count_cons_of_ne (Ne.symm hx)]

theorem sameNodes_incStrongAll (rs : List Ref) : SameNodes h (h.incStrongAll rs) := by
  rw [incStrongAll_eq]
  exact ⟨fun _ => rfl, fun _ => rfl, fun _ => rfl⟩

/-- The last reference frees the data. -/
theorem decStrong_of_le {h : Heap N E} {r : Ref} (hr : h.strong r ≤ 1) : h.decStrong r =
    { h with strong := Function.update h.strong r 0, data := Function.update h.data r none } := by
  rw [decStrong, if_pos hr]

/-- Any other one leaves it alone. -/
theorem decStrong_of_lt {h : Heap N E} {r : Ref} (hr : 1 < h.strong r) : h.decStrong r =
    { h with strong := Function.update h.strong r (h.strong r - 1) } := by
  rw [decStrong, if_neg (by omega)]

/-- Either way the count goes down by one, if it can. -/
theorem strong_decStrong (r x : Ref) :
    (h.decStrong r).strong x = if x = r then h.strong r - 1 else h.strong x := by
  rcases Nat.lt_or_ge 1 (h.strong r) with hr | hr
  · rw [decStrong_of_lt hr]
    exact Function.update_apply _ _ _ _
  · rw [decStrong_of_le hr, Nat.sub_eq_zero_of_le hr]
    exact Function.update_apply _ _ _ _

theorem strong_decStrong_le (r x : Ref) : (h.decStrong r).strong x ≤ h.strong x := by
  rw [strong_decStrong]
  split_ifs with hx
  · subst hx
    exact Nat.sub_le _ _
  · exact le_rfl

/-- Giving up a reference leaves the data of a node alone, or frees the node. -/
theorem data_decStrong (r x : Ref) : (h.decStrong r).data x =
    if x = r ∧ h.strong r ≤ 1 then none else h.data x := by
  rcases Nat.lt_or_ge 1 (h.strong r) with hr | hr
  · rw [decStrong_of_lt hr, if_neg (by omega)]
  · rw [decStrong_of_le hr]
    by_cases hx : x = r <;> simp [hx, hr]

/-! ### Allocation -/

theorem data_alloc (a : Addr) (d : InnerData N E) (x : Ref) :
    (h.alloc a d).data x = if x = h.size then some d else h.data x := by
  by_cases hx : x = h.size <;> simp [alloc, hx]

@[simp] theorem size_alloc (a : Addr) (d : InnerData N E) : (h.alloc a d).size = h.size + 1 := rfl

/-- A new node has one reference. -/
theorem strong_alloc (a : Addr) (d : InnerData N E) :
    (h.alloc a d).strong = Function.update h.strong h.size 1 := rfl

theorem value_alloc (a : Addr) (d : InnerData N E) (x : Ref) :
    (h.alloc a d).value x = if x = h.size then some d.value else h.value x := by
  by_cases hx : x = h.size <;> simp [value, data_alloc, hx]

theorem allIncoming_alloc (a : Addr) (d : InnerData N E) (x : Ref) :
    (h.alloc a d).allIncoming x = if x = h.size then d.incoming else h.allIncoming x := by
  by_cases hx : x = h.size <;> simp [allIncoming, data_alloc, hx]

theorem slot_alloc (a : Addr) (d : InnerData N E) (x : Ref) :
    (h.alloc a d).slot x = if x = h.size then d.registry else h.slot x := by
  by_cases hx : x = h.size <;> simp [slot, data_alloc, hx]

theorem allOutgoingWeak_alloc (a : Addr) (d : InnerData N E) (x : Ref) :
    (h.alloc a d).allOutgoingWeak x = if x = h.size then d.outgoing else h.allOutgoingWeak x := by
  by_cases hx : x = h.size <;> simp [allOutgoingWeak, data_alloc, hx]

/-! ### Registering outgoing edges -/

/-- The weak edges that `register_outgoing_edges` pushes to `p`. -/
def pushedTo (p : Ref) (l : List (InnerEdgeData E × ℕ)) : List WeakEdge :=
  l.filterMap fun ei => if ei.1.source = p then some (ei.1.downgrade ei.2) else none

/-- The loop of `register_outgoing_edges` from any position on. -/
def pushEdges (h : Heap N E) (l : List (InnerEdgeData E × ℕ)) : Heap N E :=
  l.foldl (fun h ei => h.modifyOutgoing ei.1.source fun out => out ++ [ei.1.downgrade ei.2]) h

/-- Edges are pushed with their positions. -/
theorem registerOutgoingEdges_eq (incoming : List (InnerEdgeData E)) :
    h.registerOutgoingEdges incoming = h.pushEdges incoming.zipIdx := rfl

/-- Pushing edges changes `outgoing` lists only. -/
theorem sameNodes_pushEdges (l : List (InnerEdgeData E × ℕ)) : SameNodes h (h.pushEdges l) := by
  induction l generalizing h with
  | nil => exact SameNodes.refl h
  | cons ei l ih => exact (sameNodes_modifyOutgoing h _ _).trans (ih _)

theorem fields_pushEdges (l : List (InnerEdgeData E × ℕ)) : (h.pushEdges l).size = h.size ∧
    (h.pushEdges l).addr = h.addr ∧ (h.pushEdges l).strong = h.strong := by
  induction l generalizing h with
  | nil => exact ⟨rfl, rfl, rfl⟩
  | cons ei l ih => exact ih _

/-- Each parent gets the edges that come from it, in order, at the end of its list. -/
theorem allOutgoingWeak_pushEdges (l : List (InnerEdgeData E × ℕ)) {p : Ref}
    (hp : h.data p ≠ none) :
    (h.pushEdges l).allOutgoingWeak p = h.allOutgoingWeak p ++ pushedTo p l := by
  induction l generalizing h with
  | nil => simp [pushEdges, pushedTo]
  | cons ei l ih =>
    have hdata := (sameNodes_modifyOutgoing h ei.1.source
      fun out => out ++ [ei.1.downgrade ei.2]).data_eq_none_iff p
    have hstep := ih (h.modifyOutgoing ei.1.source fun out => out ++ [ei.1.downgrade ei.2])
      (fun hn => hp (hdata.mp hn))
    rw [pushEdges, List.foldl_cons, ← pushEdges, hstep, allOutgoingWeak_modifyOutgoing _ _ _ _ hp]
    by_cases hs : p = ei.1.source
    · subst hs
      simp [pushedTo]
    · simp [pushedTo, hs, Ne.symm hs]

/-! ### New nodes -/

section WithParents

variable (a : Addr) (v : N) (ps : List (Ref × E))

theorem size_withParents : (h.withParents a v ps).size = h.size + 1 :=
  (fields_pushEdges _ _).1

theorem addr_withParents : (h.withParents a v ps).addr = Function.update h.addr h.size a :=
  (fields_pushEdges _ _).2.1

theorem strong_withParents : (h.withParents a v ps).strong = Function.update h.strong h.size 1 :=
  (fields_pushEdges _ _).2.2

/-- But for the `outgoing` lists, a node with parents is an allocation. -/
theorem sameNodes_withParents : SameNodes
    (h.alloc a (InnerData.withIncoming v (edgesOf h.size ps))) (h.withParents a v ps) :=
  sameNodes_pushEdges _ _

theorem value_withParents (x : Ref) :
    (h.withParents a v ps).value x = if x = h.size then some v else h.value x := by
  rw [(sameNodes_withParents h a v ps).value, value_alloc]
  rfl

theorem allIncoming_withParents (x : Ref) : (h.withParents a v ps).allIncoming x =
    if x = h.size then edgesOf h.size ps else h.allIncoming x := by
  rw [(sameNodes_withParents h a v ps).allIncoming, allIncoming_alloc]
  rfl

theorem slot_withParents (x : Ref) :
    (h.withParents a v ps).slot x = if x = h.size then none else h.slot x := by
  rw [(sameNodes_withParents h a v ps).slot, slot_alloc]
  rfl

/-- The sources of the new edges are the given parents. -/
theorem map_source_edgesOf (node : Ref) :
    (edgesOf node ps).map InnerEdgeData.source = ps.map Prod.fst := by
  simp [edgesOf]

/-- The new node has the given parents, and nobody else's change. -/
theorem allParents_withParents : (h.withParents a v ps).allParents =
    Function.update h.allParents h.size (ps.map Prod.fst) := by
  funext x
  rw [allParents, allIncoming_withParents]
  by_cases hx : x = h.size
  · subst hx
    simp [map_source_edgesOf]
  · simp [hx, allParents]

theorem data_withParents_eq_none_iff (x : Ref) :
    (h.withParents a v ps).data x = none ↔ x ≠ h.size ∧ h.data x = none := by
  rw [(sameNodes_withParents h a v ps).data_eq_none_iff, data_alloc]
  by_cases hx : x = h.size <;> simp [hx]

/-- The parents list the new edges after the old ones. -/
theorem allOutgoingWeak_withParents {p : Ref} (hp : h.data p ≠ none) (hne : p ≠ h.size) :
    (h.withParents a v ps).allOutgoingWeak p =
      h.allOutgoingWeak p ++ pushedTo p (edgesOf h.size ps).zipIdx := by
  rw [withParents, registerOutgoingEdges_eq, allOutgoingWeak_pushEdges, allOutgoingWeak_alloc,
    if_neg hne]
  rw [data_alloc, if_neg hne]
  exact hp

theorem allOutgoingWeak_withParents_self :
    (h.withParents a v ps).allOutgoingWeak h.size =
      pushedTo h.size (edgesOf h.size ps).zipIdx := by
  rw [withParents, registerOutgoingEdges_eq, allOutgoingWeak_pushEdges, allOutgoingWeak_alloc,
    if_pos rfl]
  · rfl
  · simp [data_alloc]

end WithParents

/-! ### The specification of `all_outgoing` -/

/-- The incoming edges of `c` that start at `p`, as weak edges. -/
def edgesInto (p c : Ref) : List WeakEdge :=
  (h.allParents c).zipIdx.filterMap fun qi => if qi.1 = p then some ⟨qi.2, c⟩ else none

/-- All incoming edges of nodes that start at `p`: by birth of the child, then by position. -/
def edgesFrom (p : Ref) : List WeakEdge := (List.range h.size).flatMap (h.edgesInto p)

variable {h}

/-- The edges out of a node depend on the parents of the others only. -/
theorem edgesFrom_congr {h' : Heap N E} (hsize : h'.size = h.size)
    (hpar : h'.allParents = h.allParents) : h'.edgesFrom = h.edgesFrom := by
  funext p
  rw [edgesFrom, edgesFrom, hsize]
  refine List.flatMap_congr fun c _ => ?_
  rw [edgesInto, edgesInto, hpar]

/-- An edge from `p` into `c` is a position of `p` among the parents of `c`. -/
theorem mem_edgesInto {p c : Ref} {e : WeakEdge} :
    e ∈ h.edgesInto p c ↔ e.target = c ∧ (h.allParents c)[e.index]? = some p := by
  simp only [edgesInto, List.mem_filterMap, Option.ite_none_right_eq_some, Option.some.injEq,
    Prod.exists]
  constructor
  · rintro ⟨q, i, hqi, rfl, rfl⟩
    exact ⟨rfl, List.mem_zipIdx_iff_getElem?.mp hqi⟩
  · rintro ⟨rfl, hi⟩
    exact ⟨p, e.index, List.mem_zipIdx_iff_getElem?.mpr hi, rfl, rfl⟩

/-- There is none if `p` is no parent. -/
theorem edgesInto_eq_nil {p c : Ref} (hp : p ∉ h.allParents c) : h.edgesInto p c = [] := by
  refine List.eq_nil_iff_forall_not_mem.mpr fun e he => hp ?_
  exact List.mem_of_getElem? (mem_edgesInto.mp he).2

/-- An edge out of `p` is one into some node. -/
theorem mem_edgesFrom {p : Ref} {e : WeakEdge} :
    e ∈ h.edgesFrom p ↔ e.target < h.size ∧ (h.allParents e.target)[e.index]? = some p := by
  simp only [edgesFrom, List.mem_flatMap, List.mem_range, mem_edgesInto]
  constructor
  · rintro ⟨c, hc, rfl, hp⟩
    exact ⟨hc, hp⟩
  · rintro ⟨hc, hp⟩
    exact ⟨e.target, hc, rfl, hp⟩

/-- Creation order of the child, then position. -/
def WeakEdge.Before (a b : WeakEdge) : Prop :=
  a.target < b.target ∨ a.target = b.target ∧ a.index < b.index

/-- They come in the order of their targets, and then of their positions. -/
theorem edgesFrom_pairwise (p : Ref) : (h.edgesFrom p).Pairwise WeakEdge.Before := by
  rw [edgesFrom, List.pairwise_flatMap]
  refine ⟨fun c _ => ?_, ?_⟩
  · rw [edgesInto, List.pairwise_filterMap]
    have hidx : (h.allParents c).zipIdx.Pairwise fun a b => a.2 < b.2 := by
      have hmap : ((h.allParents c).zipIdx.map Prod.snd).Pairwise (· < ·) := by
        rw [List.zipIdx_map_snd, List.range'_eq_map_range]
        simpa using List.pairwise_lt_range
      exact List.pairwise_map.mp hmap
    refine hidx.imp fun {a b} hab e he f hf => ?_
    simp only [Option.ite_none_right_eq_some, Option.some.injEq] at he hf
    obtain ⟨-, rfl⟩ := he
    obtain ⟨-, rfl⟩ := hf
    exact Or.inr ⟨rfl, hab⟩
  · refine List.pairwise_lt_range.imp fun {c d} hcd e he f hf => Or.inl ?_
    rw [(mem_edgesInto.mp he).1, (mem_edgesInto.mp hf).1]
    exact hcd

/-- A new node is no reason for edges between older ones. -/
theorem edgesInto_withParents_of_lt (a : Addr) (v : N) (ps : List (Ref × E)) {p c : Ref}
    (hc : c < h.size) : (h.withParents a v ps).edgesInto p c = h.edgesInto p c := by
  rw [edgesInto, edgesInto, allParents_withParents, Function.update_of_ne (Nat.ne_of_lt hc)]

/-- What `with_parents` pushes is the specification's contribution of the new node. -/
theorem pushedTo_edgesOf (a : Addr) (v : N) (ps : List (Ref × E)) (p : Ref) :
    pushedTo p (edgesOf h.size ps).zipIdx = (h.withParents a v ps).edgesInto p h.size := by
  have hparents : (h.withParents a v ps).allParents h.size = ps.map Prod.fst := by
    rw [allParents_withParents, Function.update_self]
  rw [pushedTo, edgesInto, hparents, edgesOf, List.zipIdx_map, List.zipIdx_map,
    List.filterMap_map, List.filterMap_map]
  rfl

theorem data_ne_none_of_mem_outgoing {x : Ref} {e : WeakEdge} (he : e ∈ h.allOutgoingWeak x) :
    h.data x ≠ none := fun hn => by simp [allOutgoingWeak_of_data_none hn] at he

/-- Weak edges to other nodes than the new one were there before. -/
theorem mem_outgoing_of_withParents {a : Addr} {v : N} {ps : List (Ref × E)} {p : Ref}
    {e : WeakEdge} (he : e ∈ (h.withParents a v ps).allOutgoingWeak p) (hne : e.target ≠ h.size) :
    e ∈ h.allOutgoingWeak p := by
  have hpushed : e ∉ pushedTo p (edgesOf h.size ps).zipIdx := by
    intro hmem
    rw [pushedTo_edgesOf a v] at hmem
    exact hne (mem_edgesInto.mp hmem).1
  by_cases hp : p = h.size
  · subst hp
    rw [allOutgoingWeak_withParents_self] at he
    exact absurd he hpushed
  · have hd := data_ne_none_of_mem_outgoing he
    rw [Ne, data_withParents_eq_none_iff, not_and] at hd
    rw [allOutgoingWeak_withParents h a v ps (hd hp) hp, List.mem_append] at he
    exact he.resolve_right hpushed

end Heap

end Relrc
