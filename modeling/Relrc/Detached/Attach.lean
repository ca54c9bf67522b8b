import Relrc.Detached.Records
import Relrc.Memory.Program
import Relrc.Model.Allocation

/-!
# Attaching

`attaches_to` compares the parents in the records with the given objects and says nothing about
order, while `attach` needs every parent to be created before its children. The traversal behind
`attach` marks objects when it pushes them, so it does **not** always come to them in post-order: an
object with parents `[a, b]`, of which `b` has the parent `a`, makes it create `b` before `a`.

Given `attaches_to`, attaching succeeds if and only if the object is among the given ones, or it is
not in the cut and every way to an ancestor is clear in the sense of `PostOrder.ClearAt`
(`attaches_iff_of_run`). It then creates each missing object once, after its missing parents.
-/

namespace Relrc

open Std (ExtTreeMap)
open SlotStore OrderedMap Ancestry Fallible PostOrder

variable {N E H : Type} [LinearOrder H] {A : AddrSource} {K : KeySource} {ok : Access → Prop}

/-! ### Creating objects -/

section Create

variable {d : Detached N E H} {m : ExtTreeMap H Ref}

/-- `attaches_to` looks at each parent of each record. -/
theorem Detached.attachesTo_iff : d.attachesTo m = true ↔
    ∀ (k : H) data, d.allData[k]? = some data → ∀ p ∈ data.parents, p ∈ d.allData ∨ p ∈ m := by
  simp only [Detached.attachesTo, Detached.requiredHashes, List.all_eq_true, List.mem_eraseDups,
    List.mem_filter, List.mem_flatMap, mem_valuesOf, not_contains_iff, ExtTreeMap.contains_iff_mem]
  constructor
  · intro hall k data hk p hp
    by_contra hnot
    rw [not_or] at hnot
    exact hnot.2 (hall p ⟨⟨data, ⟨k, hk⟩, hp⟩, hnot.1⟩)
  · rintro hall p ⟨⟨data, ⟨k, hk⟩, hp⟩, hnot⟩
    exact (hall k data hk p hp).resolve_left hnot

theorem unwrap_eq_ok_iff {α : Type} {panic : AttachPanic} {x : Option α} {a : α} :
    unwrap panic x = .ok a ↔ x = some a := by
  cases x with
  | none => simp [unwrap]
  | some b => simp [unwrap]

/-- Where the parent `p` of the `i`-th new object is: it is given, or it is an earlier new
object. -/
def Placed (m : ExtTreeMap H Ref) (first : Ref) (order : List H) (i : ℕ) (p : H) (r : Ref) : Prop :=
  m[p]? = some r ∨ ∃ j < i, order[j]? = some p ∧ r = first + j

/-- The objects `done` have been created, in this order, from `w.heap.size` on. -/
structure Built (A : AddrSource) (K : KeySource) (ok : Access → Prop) (d : Detached N E H)
    (m : ExtTreeMap H Ref) (w : World N E) (held : Multiset Ref) (G : Multiset RegRef)
    (done : List H) (st : World N E × ExtTreeMap H Ref) : Prop where
  steps : Steps A K ok ⟨w, held, G⟩ ⟨st.1, (valuesOf st.2 : Multiset Ref) + held, G⟩
  size : st.1.heap.size = w.heap.size + done.length
  get : ∀ (k : H) r, st.2[k]? = some r ↔ ∃ i, done[i]? = some k ∧ r = w.heap.size + i
  node : ∀ i (k : H), done[i]? = some k → ∃ data, d.allData[k]? = some data ∧
    st.1.heap.value (w.heap.size + i) = some data.value ∧
    List.Forall₂ (fun pe e => e.value = pe.2 ∧ Placed m w.heap.size done i pe.1 e.source)
      data.incoming (st.1.heap.allIncoming (w.heap.size + i))

theorem getElem?_snoc {α : Type} {l : List α} {a b : α} {i : ℕ} :
    (l ++ [a])[i]? = some b ↔ l[i]? = some b ∨ i = l.length ∧ a = b := by
  rw [List.getElem?_append]
  split_ifs with hlt
  · have hne : i ≠ l.length := Nat.ne_of_lt hlt
    simp [hne]
  · rw [List.getElem?_eq_none (Nat.le_of_not_lt hlt), List.getElem?_singleton]
    split_ifs with hzero
    · have heq : i = l.length := by omega
      simp [heq]
    · have hne : i ≠ l.length := by omega
      simp [hne]

/-- Where a parent is found does not change when more objects are created. -/
theorem Placed.append {first : Ref} {done : List H} {i : ℕ} {p k : H} {r : Ref}
    (h : Placed m first done i p r) : Placed m first (done ++ [k]) i p r := by
  refine h.imp_right fun hnew => ?_
  obtain ⟨j, hj, hget, hr⟩ := hnew
  exact ⟨j, hj, getElem?_snoc.mpr (Or.inl hget), hr⟩

/-- Either every parent is found, or the call panics. -/
theorem attachParents_cases (new : ExtTreeMap H Ref) (incoming : List (H × E)) :
    (∃ ps, attachParents m new incoming = .ok ps ∧ List.Forall₂
      (fun pe p => p.2 = pe.2 ∧ (new[pe.1]? = some p.1 ∨ m[pe.1]? = some p.1)) incoming ps) ∨
    attachParents m new incoming = .error .missingParent ∧
      ∃ p ∈ incoming.map Prod.fst, p ∉ new ∧ p ∉ m := by
  induction incoming with
  | nil => exact Or.inl ⟨[], rfl, List.Forall₂.nil⟩
  | cons pe incoming ih =>
    rw [attachParents, List.mapM_cons]
    cases hfound : (new[pe.1]?).or m[pe.1]? with
    | none =>
      obtain ⟨hnew, hm⟩ := Option.or_eq_none_iff.mp hfound
      refine Or.inr ⟨rfl, pe.1, List.mem_cons_self, ?_, ?_⟩
      · rw [mem_iff_exists, hnew]
        simp
      · rw [mem_iff_exists, hm]
        simp
    | some r =>
      have hplace : new[pe.1]? = some r ∨ m[pe.1]? = some r :=
        (Option.or_eq_some_iff.mp hfound).imp_right And.right
      rcases ih with ⟨ps, hps, hall⟩ | ⟨hfail, p, hp, hnot⟩
      · refine Or.inl ⟨(r, pe.2) :: ps, ?_, List.Forall₂.cons ⟨rfl, hplace⟩ hall⟩
        exact bind_eq_ok_iff.mpr ⟨(r, pe.2), rfl, bind_eq_ok_iff.mpr ⟨ps, hps, rfl⟩⟩
      · exact Or.inr ⟨(bind_of_ok (a := (r, pe.2)) rfl).trans (bind_of_error hfail), p,
          List.mem_cons_of_mem _ hp, hnot⟩

section Step

variable {w : World N E} {held : Multiset Ref} {G : Multiset RegRef} {done : List H}
variable {st : World N E × ExtTreeMap H Ref}

/-- Created are the objects that have been done. -/
theorem Built.mem_iff (hb : Built A K ok d m w held G done st) {k : H} : k ∈ st.2 ↔ k ∈ done := by
  rw [mem_iff_exists, List.mem_iff_getElem?]
  simp only [hb.get]
  exact ⟨fun ⟨_, i, hi, _⟩ => ⟨i, hi⟩, fun ⟨i, hi⟩ => ⟨_, i, hi, rfl⟩⟩

/-- They are the newest nodes, in the order in which they were done. -/
theorem Built.lt_size (hb : Built A K ok d m w held G done st) {i : ℕ} {k : H}
    (hget : done[i]? = some k) : w.heap.size + i < st.1.heap.size := by
  rw [hb.size]
  exact Nat.add_lt_add_left (List.getElem?_eq_some_iff.mp hget).1 _

theorem Built.inv (hb : Built A K ok d m w held G done st) (hi : Inv w held G) :
    Inv st.1 ((valuesOf st.2 : Multiset Ref) + held) G := Steps.inv hb.steps hi

/-- What is looked up is alive. -/
theorem Built.alive (hb : Built A K ok d m w held G done st) (hi : Inv w held G)
    (hm : ∀ (p : H) r, m[p]? = some r → r ∈ held) {p : H} {r : Ref}
    (hr : st.2[p]? = some r ∨ m[p]? = some r) : st.1.heap.Alive r := by
  refine (hb.inv hi).heap.alive_of_held (Multiset.mem_add.mpr ?_)
  exact hr.imp (fun hr => mem_valuesOf.mpr ⟨p, hr⟩) (hm p r)

/-- One more object has been created. -/
theorem Built.snoc (hb : Built A K ok d m w held G done st) (hi : Inv w held G) {k : H}
    (hk : k ∉ done) {data : DetachedInnerData N E H} (hdata : d.allData[k]? = some data)
    {w' : World N E} (hsize : w'.heap.size = st.1.heap.size + 1)
    (hsteps : Steps A K ok ⟨st.1, (valuesOf st.2 : Multiset Ref) + held, G⟩
      ⟨w', (valuesOf (st.2.insert k st.1.heap.size) : Multiset Ref) + held, G⟩)
    (hvalue : w'.heap.value st.1.heap.size = some data.value)
    (hedges : List.Forall₂ (fun pe e => e.value = pe.2 ∧
      (st.2[pe.1]? = some e.source ∨ m[pe.1]? = some e.source)) data.incoming
        (w'.heap.allIncoming st.1.heap.size)) :
    Built A K ok d m w held G (done ++ [k]) (w', st.2.insert k st.1.heap.size) := by
  have hi1 := hb.inv hi
  have hi2 := Steps.inv hsteps hi1
  have hframe := Steps.frame hsteps hi1
  refine ⟨hb.steps.trans hsteps, ?_, fun k' r => ?_, fun i k' hget => ?_⟩
  · rw [hsize, hb.size, List.length_append, List.length_singleton, add_assoc]
  · simp only [getElem?_insert_eq, getElem?_snoc, or_and_right, exists_or, ← hb.get]
    split_ifs with heq
    · subst heq
      have hnone : st.2[k']? ≠ some r := fun h => hk (hb.mem_iff.mp (mem_iff_exists.mpr ⟨r, h⟩))
      simp only [hnone, false_or, and_true, exists_eq_left, Option.some.injEq, hb.size]
      exact eq_comm
    · simp [Ne.symm heq]
  · rcases getElem?_snoc.mp hget with hget | ⟨rfl, rfl⟩
    · -- an object that was created before is held, so it has kept its edges
      obtain ⟨data', hdata', hvalue', hedges'⟩ := hb.node i k' hget
      have hnode : st.2[k']? = some (w.heap.size + i) := (hb.get k' _).mpr ⟨i, hget, rfl⟩
      have hne : k' ≠ k := fun heq => hk (heq ▸ List.mem_of_getElem? hget)
      have halive : w'.heap.Alive (w.heap.size + i) := by
        refine hi2.heap.alive_of_held (Multiset.mem_add.mpr (Or.inl (mem_valuesOf.mpr ⟨k', ?_⟩)))
        rw [getElem?_insert_eq, if_neg hne, hnode]
      have hold := hb.lt_size hget
      rw [hframe.value _ hold halive, hframe.allIncoming _ hold halive]
      exact ⟨data', hdata', hvalue', hedges'.imp fun _ _ h => ⟨h.1, h.2.append⟩⟩
    · rw [← hb.size]
      refine ⟨data, hdata, hvalue, hedges.imp fun pe e h => ⟨h.1, ?_⟩⟩
      refine h.2.symm.imp_right fun hnew => ?_
      obtain ⟨j, hget, hr⟩ := (hb.get _ _).mp hnew
      exact ⟨j, (List.getElem?_eq_some_iff.mp hget).1, getElem?_snoc.mpr (Or.inl hget), hr⟩

/-- **Creating an object** succeeds if its parents are given or created, and panics otherwise. -/
theorem Built.create (hb : Built A K ok d m w held G done st) (hi : Inv w held G)
    (hm : ∀ (p : H) r, m[p]? = some r → r ∈ held) {k : H} (hk : k ∉ done)
    {data : DetachedInnerData N E H} (hdata : d.allData[k]? = some data) :
    ((∀ p ∈ data.parents, p ∈ m ∨ p ∈ done) ∧ ∃ st', attachNode A d m st k = .ok st' ∧
      Built A K ok d m w held G (done ++ [k]) st') ∨
    (¬ ∀ p ∈ data.parents, p ∈ m ∨ p ∈ done) ∧
      attachNode A d m st k = .error .missingParent := by
  have hrecord : unwrap .unknownObject d.allData[k]? = .ok data := unwrap_eq_ok_iff.mpr hdata
  rcases attachParents_cases (m := m) st.2 data.incoming with
    ⟨ps, hps, hall⟩ | ⟨hfail, p, hp, hnew, hgiven⟩
  · refine Or.inl ⟨fun p hp => ?_, ?_⟩
    · obtain ⟨pe, hpe, rfl⟩ := List.mem_map.mp hp
      obtain ⟨p, -, -, hplace⟩ := exists_of_forall₂ hall hpe
      rw [← hb.mem_iff, mem_iff_exists, mem_iff_exists]
      exact hplace.symm.imp (fun h => ⟨_, h⟩) fun h => ⟨_, h⟩
    · have hnone : st.2[k]? = none := by
        rw [← Option.not_isSome_iff_eq_none, ExtTreeMap.isSome_getElem?_iff_mem, hb.mem_iff]
        exact hk
      set w1 := st.1.withHeap (st.1.heap.incStrongAll (ps.map Prod.fst)) with hw1
      have hsize1 : w1.heap.size = st.1.heap.size := by
        rw [hw1, World.heap_withHeap, Heap.incStrongAll_eq]
      have hres : attachNode A d m st k =
          .ok (w1.withParents A data.value ps, st.2.insert k w1.heap.size) := by
        refine bind_eq_ok_iff.mpr ⟨data, hrecord, bind_eq_ok_iff.mpr ⟨ps, hps, ?_⟩⟩
        rw [hnone]
        rfl
      -- the parents are cloned into the edges of the new object
      have hclone : Steps A K ok ⟨st.1, (valuesOf st.2 : Multiset Ref) + held, G⟩
          ⟨w1, ((ps.map Prod.fst : List Ref) : Multiset Ref) +
            ((valuesOf st.2 : Multiset Ref) + held), G⟩ := by
        refine steps_incStrongAll fun r hr => ?_
        obtain ⟨p, hp, rfl⟩ := List.mem_map.mp hr
        obtain ⟨pe, -, -, hplace⟩ := exists_of_forall₂ hall.flip hp
        exact hb.alive hi hm hplace
      have hvalues : (valuesOf (st.2.insert k w1.heap.size) : Multiset Ref) =
          w1.heap.size ::ₘ (valuesOf st.2 : Multiset Ref) := by
        rw [← valuesOf_insert, hnone]
        simp
      have halloc : Steps A K ok ⟨w1, ((ps.map Prod.fst : List Ref) : Multiset Ref) +
          ((valuesOf st.2 : Multiset Ref) + held), G⟩ ⟨w1.withParents A data.value ps,
          (valuesOf (st.2.insert k w1.heap.size) : Multiset Ref) + held, G⟩ := by
        rw [hvalues, Multiset.cons_add]
        exact Relation.ReflTransGen.single (.alloc w1 _ G data.value ps)
      refine ⟨_, hres, ?_⟩
      rw [hsize1] at halloc ⊢
      refine hb.snoc hi hk hdata ?_ (hclone.trans halloc) ?_ ?_
      · rw [World.withParents, World.heap_withHeap, Heap.size_withParents, hsize1]
      · rw [World.withParents, World.heap_withHeap, Heap.value_withParents, if_pos hsize1.symm]
      · rw [World.withParents, World.heap_withHeap, Heap.allIncoming_withParents,
          if_pos hsize1.symm, Heap.edgesOf, List.forall₂_map_right_iff]
        exact hall
  · refine Or.inr ⟨fun hall => ?_, (bind_of_ok hrecord).trans (bind_of_error hfail)⟩
    rcases hall p hp with h | h
    · exact hgiven h
    · exact hnew (hb.mem_iff.mpr h)

/-- The loop over the exits succeeds if they are in order, and panics otherwise. -/
theorem Built.createAll (hi : Inv w held G) (hm : ∀ (p : H) r, m[p]? = some r → r ∈ held)
    {next : H → List H} {out : List H} (hb : Built A K ok d m w held G done st)
    (hnodup : (done ++ out).Nodup)
    (hnext : ∀ k ∈ out, ∃ data, d.allData[k]? = some data ∧
      data.parents.filter (fun p => !m.contains p) = next k) :
    (Ordered next {x | x ∈ done} out ∧ ∃ st', out.foldlM (attachNode A d m) st = .ok st' ∧
      Built A K ok d m w held G (done ++ out) st') ∨
    ¬ Ordered next {x | x ∈ done} out ∧
      out.foldlM (attachNode A d m) st = .error .missingParent := by
  induction out generalizing done st with
  | nil => exact Or.inl ⟨trivial, st, rfl, by rwa [List.append_nil]⟩
  | cons k out ih =>
    obtain ⟨data, hdata, hfilter⟩ := hnext k List.mem_cons_self
    -- the parents that are not given have to be created before `k`
    have hparents : (∀ p ∈ data.parents, p ∈ m ∨ p ∈ done) ↔
        ∀ u ∈ next k, u ∈ {x | x ∈ done} := by
      rw [← hfilter]
      simp only [List.mem_filter, not_contains_iff, and_imp]
      exact forall₂_congr fun p _ => or_iff_not_imp_left
    have hk : k ∉ done := fun hmem =>
      (List.nodup_append.mp hnodup).2.2 k hmem k List.mem_cons_self rfl
    have hset : {x | x ∈ done ++ [k]} = insert k {x | x ∈ done} := by
      ext x
      simp [or_comm]
    have happ : done ++ k :: out = (done ++ [k]) ++ out := List.append_cons _ _ _
    rw [happ] at hnodup ⊢
    rw [List.foldlM_cons, Ordered, ← hparents, ← hset]
    rcases hb.create hi hm hk hdata with ⟨hall, st', hres, hb'⟩ | ⟨hnot, hres⟩
    · rw [bind_of_ok hres, and_iff_right hall]
      exact ih hb' hnodup fun k' hk' => hnext k' (List.mem_cons_of_mem _ hk')
    · exact Or.inr ⟨fun h => hnot h.1, bind_of_error hres⟩

/-- Nothing has been created yet. -/
theorem Built.start (w : World N E) (held : Multiset Ref) (G : Multiset RegRef) :
    Built A K ok d m w held G [] (w, ∅) where
  steps := by
    rw [valuesOf_empty, Multiset.coe_nil, zero_add]
  size := rfl
  get k r := by simp
  node i k h := by simp at h

/-- The new objects outlive the map in which they were collected, since the last one needs them. -/
theorem Built.alive_of_steps {w' : World N E} {H₀ : Multiset Ref}
    (hb : Built A K ok d m w held G done st)
    (hi : Inv w held G) {next : H → List H}
    (hnext : ∀ k data, d.allData[k]? = some data → ∀ p ∈ next k, p ∈ data.parents ∧ p ∉ m)
    {r : Ref} (hr : st.2[d.current]? = some r)
    (hsteps : Steps A K ok ⟨st.1, (valuesOf st.2 : Multiset Ref) + held, G⟩ ⟨w', r ::ₘ H₀, G⟩)
    {k : H} (hk : Reaches next d.current k) {i : ℕ} (hget : done[i]? = some k) :
    w'.heap.Alive (w.heap.size + i) := by
  have hi1 := hb.inv hi
  have hi2 := Steps.inv hsteps hi1
  have hframe := Steps.frame hsteps hi1
  -- the object is found in the map under its hash, and alive
  have halive : ∃ x, st.2[k]? = some x ∧ w'.heap.Alive x := by
    clear hget
    induction hk with
    | refl => exact ⟨r, hr, hi2.heap.alive_of_held (Multiset.mem_cons_self r H₀)⟩
    | @tail k p _ hp ih =>
      obtain ⟨x, hx, hxalive⟩ := ih
      obtain ⟨i, hget, rfl⟩ := (hb.get k x).mp hx
      obtain ⟨data, hdata, -, hedges⟩ := hb.node i k hget
      obtain ⟨hparent, hpm⟩ := hnext k data hdata p hp
      obtain ⟨pe, hpe, rfl⟩ := List.mem_map.mp hparent
      obtain ⟨e, he, -, hplace⟩ := exists_of_forall₂ hedges hpe
      obtain ⟨j, -, hj, hsource⟩ := hplace.resolve_left fun h =>
        hpm (mem_iff_exists.mpr ⟨_, h⟩)
      have hold := hb.lt_size hget
      rw [← hframe.allIncoming _ hold hxalive] at he
      have hparent' : e.source ∈ w'.heap.allParents (w.heap.size + i) := List.mem_map_of_mem he
      exact ⟨e.source, (hb.get _ _).mpr ⟨j, hj, hsource⟩, hi2.heap.parent_alive hparent'⟩
  obtain ⟨x, hx, hxalive⟩ := halive
  have hsame := (hb.get k _).mpr ⟨i, hget, rfl⟩
  rw [hx] at hsame
  exact Option.some.inj hsame ▸ hxalive

/-- The handles that are left are dropped: those to the new objects but the last, and the given
ones. -/
theorem steps_attach_end {H₀ : Multiset Ref} {r : Ref} (hi : Inv w ((valuesOf st.2 : Multiset Ref) +
      ((valuesOf m : Multiset Ref) + H₀)) G) (hr : st.2[d.current]? = some r) :
    Steps A K ok ⟨w, (valuesOf st.2 : Multiset Ref) + ((valuesOf m : Multiset Ref) + H₀), G⟩
      ⟨(w.dropAll (valuesOf (st.2.erase d.current))).dropAll (valuesOf m), r ::ₘ H₀, G⟩ := by
  have hsplit : (valuesOf st.2 : Multiset Ref) + ((valuesOf m : Multiset Ref) + H₀) =
      (valuesOf (st.2.erase d.current) : Multiset Ref) +
        ((valuesOf m : Multiset Ref) + (r ::ₘ H₀)) := by
    rw [valuesOf_erase st.2 d.current, hr, Option.toList_some, Multiset.coe_singleton,
      Multiset.singleton_add, Multiset.cons_add, Multiset.add_cons, Multiset.add_cons]
  rw [hsplit] at hi ⊢
  have hfirst : Steps A K ok ⟨w, _, G⟩ ⟨w.dropAll (valuesOf (st.2.erase d.current)), _, G⟩ :=
    steps_dropAll hi
  exact hfirst.trans (steps_dropAll (Steps.inv hfirst hi))

/-- **The rebuilt objects**: the traversal ends, and it has created every object that is reached, in
order, if and only if every way is clear. -/
theorem attachAll_cases (A : AddrSource) (K : KeySource) (ok : Access → Prop)
    (hi : Inv w held G) (hm : ∀ (p : H) r, m[p]? = some r → r ∈ held)
    {next : H → List H} {rank : H → ℕ} (hrank : ∀ x, ∀ y ∈ next x, rank y < rank x)
    (hnext : ∀ k, Reaches next d.current k → ∃ data, d.allData[k]? = some data ∧
      data.parents.filter (fun p => !m.contains p) = next k) :
    ((∀ u, ClearAt next u d.current) ∧ ∃ order st, attachAll A d m w = .ok st ∧
      Built A K ok d m w held G order st ∧ order.Nodup ∧
        ∀ k, k ∈ order ↔ Reaches next d.current k) ∨
    (¬ ∀ u, ClearAt next u d.current) ∧ attachAll A d m w = .error .missingParent := by
  have hac := acyclic_of_rank hrank
  obtain ⟨S, order, hwalk⟩ := Walks.exists hrank ∅ [d.current]
  have hreach : ∀ k ∈ order, Reaches next d.current k := by
    intro k hk
    obtain ⟨v, hv, hvk⟩ := hwalk.reaches hk
    exact List.mem_singleton.mp hv ▸ hvk
  have hnodup := hwalk.nodup_of_root hac
  -- each exit has a record of its own, so the fuel suffices
  have hlen : order.length ≤ d.allData.size := by
    rw [← ExtTreeMap.length_keys]
    refine (List.subperm_of_subset hnodup fun k hk => ?_).length_le
    obtain ⟨data, hdata, -⟩ := hnext k (hreach k hk)
    exact ExtTreeMap.mem_keys.mpr (mem_iff_exists.mpr ⟨data, hdata⟩)
  have hloop : attachAll A d m w = order.foldlM (attachNode A d m) (w, ∅) := by
    refine hwalk.loop_eq_foldlM (fun k hk => ?_) (by omega) (w, ∅)
    obtain ⟨data, hdata, hfilter⟩ := hnext k (hreach k hk)
    exact ⟨data.parents, bind_of_ok (unwrap_eq_ok_iff.mpr hdata), hfilter⟩
  have hstart : Built A K ok d m w held G [] (w, ∅) := Built.start w held G
  have hordered := hwalk.ordered_iff hac
  rcases hstart.createAll hi hm hnodup fun k hk => hnext k (hreach k hk) with
    ⟨hout, st, hst, hb⟩ | ⟨hout, hst⟩
  · have hout' : Ordered next ∅ order := by simpa using hout
    exact Or.inl ⟨hordered.mp hout', order, st, hloop.trans hst, hb, hnodup,
      fun k => hwalk.mem_out_iff hout'⟩
  · have hout' : ¬ Ordered next ∅ order := by simpa using hout
    exact Or.inr ⟨fun h => hout' (hordered.mpr h), hloop.trans hst⟩

end Step

end Create

variable [Inhabited H] {hash : N → List (H × E) → H}

/-! ### The given objects -/

section Given

variable {h : Heap N E} {attachTo : List Ref}

theorem attachMap_foldl (l : List Ref) (m : ExtTreeMap H Ref) (out : List Ref) :
    let res := l.foldl (fun acc n => let nodeId := h.hashId hash n
      (acc.1.insert nodeId n, acc.2 ++ (acc.1[nodeId]?).toList)) (m, out)
    (∀ k : H, k ∈ res.1 ↔ k ∈ m ∨ ∃ n ∈ l, h.hashId hash n = k) ∧
    (res.2 : Multiset Ref) + (valuesOf res.1 : Multiset Ref) =
      (out : Multiset Ref) + (valuesOf m : Multiset Ref) + (l : Multiset Ref) := by
  induction l generalizing m out with
  | nil => simp
  | cons n l ih =>
    obtain ⟨hmem, hbal⟩ := ih (m.insert (h.hashId hash n) n)
      (out ++ (m[h.hashId hash n]?).toList)
    refine ⟨fun k => ?_, ?_⟩
    · refine (hmem k).trans ?_
      simp [ExtTreeMap.mem_insert, or_assoc, or_left_comm]
    · refine hbal.trans ?_
      rw [← Multiset.coe_add, add_assoc (out : Multiset Ref), valuesOf_insert, Multiset.add_cons,
        Multiset.cons_add, ← Multiset.cons_coe, Multiset.add_cons]

/-- The map of given objects has their hashes. -/
theorem mem_attachMap {k : H} :
    k ∈ (attachMap hash h attachTo).1 ↔ k ∈ attachTo.map (h.hashId hash) := by
  rw [attachMap, (attachMap_foldl attachTo ∅ []).1, List.mem_map]
  simp

/-- Every handle ends up in the map or is displaced. -/
theorem attachMap_balance (hash : N → List (H × E) → H) (h : Heap N E) (attachTo : List Ref) :
    ((attachMap hash h attachTo).2 : Multiset Ref) +
      (valuesOf (attachMap hash h attachTo).1 : Multiset Ref) = (attachTo : Multiset Ref) := by
  rw [attachMap, (attachMap_foldl attachTo ∅ []).2]
  simp

end Given

/-! ### Records and parents -/

section Records

variable {h : Heap N E} {held : Multiset Ref} {detachFrom : Finset H} {obj : Ref}
variable {d : Detached N E H} {m : ExtTreeMap H Ref}

/-- The parents of an object that are not given, by hash. -/
def missingParents (hash : N → List (H × E) → H) (h : Heap N E) (m : ExtTreeMap H Ref) (k : H) :
    List H := (h.parentHashes hash k).filter fun p => !m.contains p

/-- Missing parents are older nodes, so the traversal of a record of live nodes ends. -/
theorem missingParents_lt (hi : HeapInv h held) (k : H) : ∀ p ∈ missingParents hash h m k,
    (h.findHash hash p).getD 0 < (h.findHash hash k).getD 0 := fun p hp =>
  hi.parentHashes_lt k p (List.mem_of_mem_filter hp)

/-- The records list the parents that the heap has. -/
theorem Records.parents_filter (hr : Records hash h detachFrom obj d) (hi : HeapInv h held)
    (hfree : h.CollisionFree hash) {k : H} {data : DetachedInnerData N E H}
    (hk : d.allData[k]? = some data) :
    data.parents.filter (fun p => !m.contains p) = missingParents hash h m k := by
  obtain ⟨-, r, halive, rfl, -, hedges⟩ := hr.sound k data hk
  rw [missingParents, hi.parentHashes_eq hfree halive, DetachedInnerData.parents, hedges]

/-- If `attaches_to` holds, all that is missing is recorded. -/
theorem Records.recorded (hr : Records hash h detachFrom obj d) (hi : HeapInv h held)
    (hfree : h.CollisionFree hash) (hto : d.attachesTo m = true) (hcurrent : d.current ∉ detachFrom)
    {k : H} (hk : Reaches (missingParents hash h m) d.current k) : k ∈ d.allData := by
  refine Reaches.mem_of_closed (S := fun k => k ∈ d.allData) (fun x hx p hp => ?_)
    (hr.root.resolve_left hcurrent) hk
  obtain ⟨data, hdata⟩ := mem_iff_exists.mp hx
  rw [← hr.parents_filter hi hfree hdata] at hp
  obtain ⟨hp, hnot⟩ := List.mem_filter.mp hp
  exact (Detached.attachesTo_iff.mp hto x data hdata p hp).resolve_right (not_contains_iff.mp hnot)

end Records

/-! ### The whole call -/

/-- The node `r` has been attached: the objects `order`, those that are missing, have been created
once each, in this order, each from its record and after its missing parents. -/
structure Attached (hash : N → List (H × E) → H) (obj : Ref) (d : Detached N E H)
    (m : ExtTreeMap H Ref) (w w' : World N E) (r : Ref) (order : List H) : Prop where
  nodup : order.Nodup
  mem_iff : ∀ k, k ∈ order ↔ w.heap.hashId hash obj ∉ m ∧
    Reaches (missingParents hash w.heap m) (w.heap.hashId hash obj) k
  size : w'.heap.size = w.heap.size + order.length
  node : ∀ i (k : H), order[i]? = some k → ∃ data, d.allData[k]? = some data ∧
    w'.heap.value (w.heap.size + i) = some data.value ∧
    List.Forall₂ (fun pe e => e.value = pe.2 ∧ Placed m w.heap.size order i pe.1 e.source)
      data.incoming (w'.heap.allIncoming (w.heap.size + i))
  result : m[w.heap.hashId hash obj]? = some r ∨
    ∃ i, order[i]? = some (w.heap.hashId hash obj) ∧ r = w.heap.size + i

/-- The object is given, or it is not cut off and every way to a missing ancestor is clear. -/
def Rebuildable (hash : N → List (H × E) → H) (h : Heap N E) (obj : Ref) (detachFrom : Finset H)
    (m : ExtTreeMap H Ref) : Prop :=
  h.hashId hash obj ∈ m ∨ h.hashId hash obj ∉ detachFrom ∧
    ∀ u, ClearAt (missingParents hash h m) u (h.hashId hash obj)

section Call

variable {w w' : World N E} {H₀ : Multiset Ref} {G : Multiset RegRef} {d : Detached N E H}
variable {m : ExtTreeMap H Ref} {order : List H} {st : World N E × ExtTreeMap H Ref}

/-- When all objects have been created, what is left is to return the last one. -/
theorem attached_of_built {w0 : World N E} {obj : Ref}
    (hb : Built A K ok d m w0 ((valuesOf m : Multiset Ref) + H₀) G order st)
    (hi : Inv w0 ((valuesOf m : Multiset Ref) + H₀) G) (hsize : w0.heap.size = w.heap.size)
    (hcurrent : d.current = w.heap.hashId hash obj)
    (hparents : ∀ (k : H) data, d.allData[k]? = some data →
      data.parents.filter (fun p => !m.contains p) = missingParents hash w.heap m k)
    (hnot : d.current ∉ m) (hnodup : order.Nodup)
    (hmem : ∀ k, k ∈ order ↔ Reaches (missingParents hash w.heap m) d.current k) :
    ∃ r, st.2[d.current]? = some r ∧
      Steps A K ok ⟨st.1, (valuesOf st.2 : Multiset Ref) + ((valuesOf m : Multiset Ref) + H₀), G⟩
        ⟨(st.1.dropAll (valuesOf (st.2.erase d.current))).dropAll (valuesOf m), r ::ₘ H₀, G⟩ ∧
      Attached hash obj d m w
        ((st.1.dropAll (valuesOf (st.2.erase d.current))).dropAll (valuesOf m)) r order := by
  obtain ⟨i, hget⟩ := List.mem_iff_getElem?.mp ((hmem d.current).mpr (Reaches.refl _))
  have hfound := (hb.get d.current _).mpr ⟨i, hget, rfl⟩
  have hi1 := hb.inv hi
  have hend : Steps A K ok ⟨st.1, _, G⟩ _ := steps_attach_end hi1 hfound
  have hframe := Steps.frame hend hi1
  refine ⟨_, hfound, hend, hnodup, fun k => ?_, ?_, fun j k hj => ?_,
    Or.inr ⟨i, hcurrent ▸ hget, by rw [hsize]⟩⟩
  · rw [hmem, ← hcurrent, and_iff_right hnot]
  · rw [World.size_dropAll, World.size_dropAll, hb.size, hsize]
  · obtain ⟨data, hdata, hvalue, hedges⟩ := hb.node j k hj
    have hmissing : ∀ (k : H) data, d.allData[k]? = some data →
        ∀ p ∈ missingParents hash w.heap m k, p ∈ data.parents ∧ p ∉ m := by
      intro k data hdata p hp
      rw [← hparents k data hdata] at hp
      obtain ⟨hp, hpm⟩ := List.mem_filter.mp hp
      exact ⟨hp, not_contains_iff.mp hpm⟩
    -- the result keeps its missing ancestors alive through the drops at the end
    have halive := hb.alive_of_steps hi hmissing hfound hend
      ((hmem k).mp (List.mem_of_getElem? hj)) hj
    have hold := hb.lt_size hj
    rw [← hframe.value _ hold halive] at hvalue
    rw [← hframe.allIncoming _ hold halive] at hedges
    rw [hsize] at hvalue hedges
    exact ⟨data, hdata, hvalue, hedges⟩

section Outcomes

variable {attachTo : List Ref} {detachFrom : Finset H} {obj : Ref}

/-- The displaced objects are dropped first. -/
theorem steps_displaced (hash : N → List (H × E) → H) (A : AddrSource) (K : KeySource)
    (ok : Access → Prop) (hi : Inv w ((attachTo : Multiset Ref) + H₀) G) :
    Steps A K ok ⟨w, (attachTo : Multiset Ref) + H₀, G⟩
      ⟨w.dropAll (attachMap hash w.heap attachTo).2,
        (valuesOf (attachMap hash w.heap attachTo).1 : Multiset Ref) + H₀, G⟩ := by
  rw [← attachMap_balance hash w.heap attachTo, add_assoc] at hi ⊢
  exact steps_dropAll hi

/-- An object that is given is returned. -/
theorem attach_of_given (A : AddrSource) (K : KeySource) (ok : Access → Prop) {r : Ref}
    (hi : Inv w ((attachTo : Multiset Ref) + H₀) G) (hcurrent : d.current = w.heap.hashId hash obj)
    (hr : (attachMap hash w.heap attachTo).1[d.current]? = some r) :
    ∃ w', w.attach A hash d attachTo = .ok (r, w') ∧
      Steps A K ok ⟨w, (attachTo : Multiset Ref) + H₀, G⟩ ⟨w', r ::ₘ H₀, G⟩ ∧
      Attached hash obj d (attachMap hash w.heap attachTo).1 w w' r [] := by
  have hdisplaced := steps_displaced hash A K ok hi
  have hi0 := Steps.inv hdisplaced hi
  have hsize0 := w.size_dropAll (attachMap hash w.heap attachTo).2
  rw [World.attach, hr]
  generalize (attachMap hash w.heap attachTo).1 = m at *
  generalize w.dropAll (attachMap hash w.heap attachTo).2 = w0 at *
  have hmem : d.current ∈ m := mem_iff_exists.mpr ⟨r, hr⟩
  have hheld : r ∈ (valuesOf m : Multiset Ref) + H₀ :=
    Multiset.mem_add.mpr (Or.inl (mem_valuesOf.mpr ⟨d.current, hr⟩))
  have hclone : Steps A K ok ⟨w0, (valuesOf m : Multiset Ref) + H₀, G⟩
      ⟨w0.clone r, (valuesOf m : Multiset Ref) + (r ::ₘ H₀), G⟩ := by
    rw [Multiset.add_cons]
    exact steps_clone (hi0.heap.alive_of_held hheld)
  have hdrop : Steps A K ok _ ⟨(w0.clone r).dropAll (valuesOf m), r ::ₘ H₀, G⟩ :=
    steps_dropAll (Steps.inv hclone hi0)
  refine ⟨_, rfl, (hdisplaced.trans hclone).trans hdrop, List.nodup_nil, fun k => ?_, ?_,
    fun i k h => by simp at h, Or.inl (hcurrent ▸ hr)⟩
  · simp [← hcurrent, hmem]
  · rw [World.size_dropAll]
    exact hsize0

/-- An object that is not given is rebuilt if every way to a missing ancestor is clear, provided
that all that is missing is recorded. -/
theorem attach_of_recorded (A : AddrSource) (K : KeySource) (ok : Access → Prop)
    (hi : Inv w ((attachTo : Multiset Ref) + H₀) G) (hfree : w.heap.CollisionFree hash)
    (hr : Records hash w.heap detachFrom obj d)
    (hnot : d.current ∉ (attachMap hash w.heap attachTo).1)
    (hrecorded : ∀ k, Reaches (missingParents hash w.heap (attachMap hash w.heap attachTo).1)
      d.current k → k ∈ d.allData) :
    ((∀ u, ClearAt (missingParents hash w.heap (attachMap hash w.heap attachTo).1) u d.current) ∧
      ∃ r w' order, w.attach A hash d attachTo = .ok (r, w') ∧
        Steps A K ok ⟨w, (attachTo : Multiset Ref) + H₀, G⟩ ⟨w', r ::ₘ H₀, G⟩ ∧
        Attached hash obj d (attachMap hash w.heap attachTo).1 w w' r order) ∨
    (¬ ∀ u, ClearAt (missingParents hash w.heap (attachMap hash w.heap attachTo).1) u d.current) ∧
      ∃ e, w.attach A hash d attachTo = .error e := by
  have hdisplaced := steps_displaced hash A K ok hi
  have hi0 := Steps.inv hdisplaced hi
  have hsize0 := w.size_dropAll (attachMap hash w.heap attachTo).2
  have hnone : (attachMap hash w.heap attachTo).1[d.current]? = none := by
    rw [← Option.not_isSome_iff_eq_none, ExtTreeMap.isSome_getElem?_iff_mem]
    exact hnot
  rw [World.attach, hnone]
  generalize (attachMap hash w.heap attachTo).1 = m at *
  generalize w.dropAll (attachMap hash w.heap attachTo).2 = w0 at *
  have hm : ∀ (p : H) r, m[p]? = some r → r ∈ (valuesOf m : Multiset Ref) + H₀ := fun p r hp =>
    Multiset.mem_add.mpr (Or.inl (mem_valuesOf.mpr ⟨p, hp⟩))
  have hnext : ∀ k, Reaches (missingParents hash w.heap m) d.current k →
      ∃ data, d.allData[k]? = some data ∧
        data.parents.filter (fun p => !m.contains p) = missingParents hash w.heap m k := by
    intro k hk
    obtain ⟨data, hdata⟩ := mem_iff_exists.mp (hrecorded k hk)
    exact ⟨data, hdata, hr.parents_filter hi.heap hfree hdata⟩
  rcases attachAll_cases A K ok hi0 hm (missingParents_lt hi.heap) hnext with
    ⟨hclear, order, st, hst, hb, hnodup, hmem⟩ | ⟨hclear, hfail⟩
  · obtain ⟨r, hfound, hend, hatt⟩ := attached_of_built hb hi0 hsize0 hr.current
      (fun k data hdata => hr.parents_filter hi.heap hfree hdata) hnot hnodup hmem
    exact Or.inl ⟨hclear, r, _, order,
      (bind_of_ok hst).trans (bind_of_ok (unwrap_eq_ok_iff.mpr hfound)),
      (hdisplaced.trans hb.steps).trans hend, hatt⟩
  · exact Or.inr ⟨hclear, .missingParent, bind_of_error hfail⟩

/-- **The two outcomes of `attach`**, for an object that was detached from the same memory and that
`attaches_to` accepts. -/
theorem attach_cases (A : AddrSource) (K : KeySource) (ok : Access → Prop)
    (hi : Inv w ((attachTo : Multiset Ref) + H₀) G) (hfree : w.heap.CollisionFree hash)
    (hr : Records hash w.heap detachFrom obj d)
    (hto : d.attachesTo (attachMap hash w.heap attachTo).1 = true) :
    (Rebuildable hash w.heap obj detachFrom (attachMap hash w.heap attachTo).1 ∧
      ∃ r w' order, w.attach A hash d attachTo = .ok (r, w') ∧
        Steps A K ok ⟨w, (attachTo : Multiset Ref) + H₀, G⟩ ⟨w', r ::ₘ H₀, G⟩ ∧
        Attached hash obj d (attachMap hash w.heap attachTo).1 w w' r order) ∨
    ¬ Rebuildable hash w.heap obj detachFrom (attachMap hash w.heap attachTo).1 ∧
      ∃ e, w.attach A hash d attachTo = .error e := by
  rw [Rebuildable, ← hr.current]
  by_cases hgiven : d.current ∈ (attachMap hash w.heap attachTo).1
  · obtain ⟨r, hfound⟩ := mem_iff_exists.mp hgiven
    obtain ⟨w', hres, hsteps, hatt⟩ := attach_of_given A K ok hi hr.current hfound
    exact Or.inl ⟨Or.inl hgiven, r, w', [], hres, hsteps, hatt⟩
  rw [or_iff_right hgiven]
  by_cases hcut : d.current ∈ detachFrom
  · -- the object is cut off, so it has no record
    have hnone : d.allData[d.current]? = none :=
      Option.eq_none_iff_forall_ne_some.mpr fun data hdata => (hr.sound _ data hdata).1 hcut
    have hfail : attachSuccessors d d.current = .error .unknownObject := by
      rw [attachSuccessors, hnone]
      rfl
    have hmissing : (attachMap hash w.heap attachTo).1[d.current]? = none := by
      rw [← Option.not_isSome_iff_eq_none, ExtTreeMap.isSome_getElem?_iff_mem]
      exact hgiven
    refine Or.inr ⟨fun h => h.1 hcut, .unknownObject, ?_⟩
    rw [World.attach, hmissing]
    exact bind_of_error (bind_of_error hfail)
  · rw [and_iff_right hcut]
    exact attach_of_recorded A K ok hi hfree hr hgiven fun k hk =>
      hr.recorded hi.heap hfree hto hcut hk

end Outcomes

end Call

/-! ### The result -/

/-- `attach` returns a node, with the missing objects created in order. -/
def Attaches (A : AddrSource) (hash : N → List (H × E) → H) (w : World N E) (obj : Ref)
    (d : Detached N E H) (attachTo : List Ref) : Prop :=
  ∃ r w' order, w.attach A hash d attachTo = .ok (r, w') ∧
    Attached hash obj d (attachMap hash w.heap attachTo).1 w w' r order

variable {P : State N E → Op N E → Prop} {s : State N E}

/-- **Attaching what `attaches_to` accepts** succeeds if and only if the object is rebuildable, in
every state of every run. -/
theorem attaches_iff_of_run (h : Run A K P State.init s)
    (hfree : s.world.heap.CollisionFree hash) {obj : Ref} (hobj : s.world.heap.Alive obj)
    (detachFrom : Finset H) {attachTo : List Ref} (hto : nodeHandles attachTo ≤ s.handles) :
    ∃ d, s.world.heap.detach hash detachFrom obj = some d ∧
      (d.attachesTo (attachMap hash s.world.heap attachTo).1 = true →
        (Attaches A hash s.world obj d attachTo ↔
          Rebuildable hash s.world.heap obj detachFrom
            (attachMap hash s.world.heap attachTo).1)) := by
  have hi : Inv s.world s.held s.regs := Run.inv h State.inv_init
  obtain ⟨d, hd, hr⟩ := hi.heap.detach_records hash hobj detachFrom
  refine ⟨d, hd, fun hattaches => ?_⟩
  rw [State.held_of_le hto] at hi
  rcases attach_cases A K (fun _ => True) hi hfree hr hattaches with
    ⟨hcond, r, w', order, hres, -, hatt⟩ | ⟨hcond, e, hfail⟩
  · exact iff_of_true ⟨r, w', order, hres, hatt⟩ hcond
  · refine iff_of_false ?_ hcond
    rintro ⟨r, w', order, hres, -⟩
    rw [hfail] at hres
    cases hres

/-- A hash without collisions. -/
def pairHash (value : ℕ) (incoming : List (ℕ × ℕ)) : ℕ := Encodable.encode (value, incoming)

/-- The pairing of numbers is a hash without collisions. -/
theorem pairHash_collisionFree {h : Heap ℕ ℕ} {held : Multiset Ref} (hi : HeapInv h held) :
    h.CollisionFree pairHash :=
  hi.collisionFree fun _ _ _ _ heq => Prod.mk.inj (Encodable.encode_injective heq)

/-- A diamond, and a second copy of its root and its left side. -/
def twoDiamonds : State ℕ ℕ :=
  State.init.after [.new 1, .clone 0, .withParents 2 [(0, 1)], .withParents 3 [(0, 2)],
    .withParents 4 [(1, 1), (2, 2)], .new 1, .clone 4, .withParents 2 [(4, 1)]]

/-- The right side and the bottom are rebuilt on the copy of the rest. -/
theorem attaches_iff_of_run_twoDiamonds :
    ∃ d, twoDiamonds.world.heap.detach pairHash {2, 3251} 3 = some d ∧
      Attaches AddrSource.lowest pairHash twoDiamonds.world 3 d [4, 5] := by
  have hrun : Run _ _ (fun _ _ => True) State.init twoDiamonds :=
    run_after (by decide +kernel) fun _ _ _ => trivial
  have hi : Inv twoDiamonds.world twoDiamonds.held twoDiamonds.regs := Run.inv hrun State.inv_init
  have hobj : twoDiamonds.world.heap.Alive 3 := by decide +kernel
  have hhandles : nodeHandles [4, 5] ≤ twoDiamonds.handles := by decide +kernel
  obtain ⟨d, hd, hiff⟩ :=
    attaches_iff_of_run hrun (pairHash_collisionFree hi.heap) hobj {2, 3251} hhandles
  have hto : (twoDiamonds.world.heap.detach pairHash {2, 3251} 3).map (fun d =>
      d.attachesTo (attachMap pairHash twoDiamonds.world.heap [4, 5]).1) = some true := by
    decide +kernel
  rw [hd] at hto
  refine ⟨d, hd, (hiff (Option.some.inj hto)).mpr (Or.inr ⟨by decide +kernel, fun u => ?_⟩)⟩
  have hone : ∀ r < twoDiamonds.world.heap.size,
      (((twoDiamonds.world.heap.allParents r).map (twoDiamonds.world.heap.hashId pairHash)).filter
        fun p => !(attachMap pairHash twoDiamonds.world.heap [4, 5]).1.contains p).length ≤ 1 := by
    decide +kernel
  refine clearAt_of_length_le (fun k => ?_) u _
  rw [missingParents, Heap.parentHashes]
  split
  · rename_i r hfind
    exact hone r (Heap.findHash_eq_some_iff.mp hfind).2.2.1
  · exact Nat.zero_le 1

/-- An object whose first parent is also the parent of the second. -/
def forwardEdge : State ℕ ℕ :=
  State.init.after [.new 1, .clone 0, .withParents 2 [(0, 1)], .withParents 3 [(0, 2), (1, 3)]]

/-- `attaches_to` accepts the object, and `attach` panics. -/
theorem not_attaches_forwardEdge :
    Run AddrSource.lowest KeySource.reusing (fun _ _ => True) State.init forwardEdge ∧
    forwardEdge.world.heap.Alive 2 ∧ forwardEdge.world.heap.CollisionFree pairHash ∧
    ∃ d, forwardEdge.world.heap.detach pairHash ∅ 2 = some d ∧
      d.attachesTo (attachMap pairHash forwardEdge.world.heap []).1 = true ∧
      ¬ Attaches AddrSource.lowest pairHash forwardEdge.world 2 d [] := by
  have hrun : Run AddrSource.lowest KeySource.reusing (fun _ _ => True) State.init forwardEdge :=
    run_after (by decide +kernel) fun _ _ _ => trivial
  have hi : Inv forwardEdge.world forwardEdge.held forwardEdge.regs := Run.inv hrun State.inv_init
  have hcall : (forwardEdge.world.heap.detach pairHash ∅ 2).map (fun d =>
      (d.attachesTo (attachMap pairHash forwardEdge.world.heap []).1,
        (forwardEdge.world.attach AddrSource.lowest pairHash d []).toOption.isSome)) =
      some (true, false) := by decide +kernel
  obtain ⟨d, hd, hpair⟩ := Option.map_eq_some_iff.mp hcall
  obtain ⟨hto, hfail⟩ := Prod.mk.inj hpair
  refine ⟨hrun, by decide +kernel, pairHash_collisionFree hi.heap, d, hd, hto, ?_⟩
  rintro ⟨r, w', order, hres, -⟩
  rw [hres] at hfail
  cases hfail

end Relrc
