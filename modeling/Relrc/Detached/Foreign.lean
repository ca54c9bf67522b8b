import Relrc.Detached.RoundTrip
import Relrc.Detached.Transfer

/-!
# Attaching records from elsewhere

A detached object comes from another process or from a file, so nothing is known of its records:
they may lack parents, describe a cycle, or hold objects that are not needed. `attach` **ends** on
all of them. It returns if and only if the object is among the given ones, or everything that is
reached from it past the given ones is recorded, reaches no cycle, and every way is clear
(`attach_any_of_run`). What it then returns was assembled from the records, each object once.
-/

namespace Relrc

open Std (ExtTreeMap)
open SlotStore OrderedMap Ancestry Fallible PostOrder

variable {N E H : Type} [LinearOrder H] {A : AddrSource} {K : KeySource} {ok : Access → Prop}

/-! ### Any records -/

section Any

variable {d : Detached N E H} {m : ExtTreeMap H Ref} {st : World N E × ExtTreeMap H Ref}

/-- The object is given; or what is missing is recorded, has no cycle, and lies on clear ways. -/
def Detached.Attachable (d : Detached N E H) (m : ExtTreeMap H Ref) : Prop :=
  d.current ∈ m ∨
    (∀ k, Reaches (d.missing m) d.current k → k ∈ d.allData ∧
      ¬ Relation.TransGen (fun x y => y ∈ d.missing m x) k k) ∧
    ∀ u, ClearAt (d.missing m) u d.current

/-- Missing are the parents that are not given. -/
theorem Detached.missing_eq {k : H} {data : DetachedInnerData N E H}
    (hk : d.allData[k]? = some data) :
    d.missing m k = data.parents.filter fun p => !m.contains p := by
  rw [Detached.missing, hk]

/-- Creating an object depends on its parents only. -/
theorem attachNode_cases (A : AddrSource) (m : ExtTreeMap H Ref)
    (st : World N E × ExtTreeMap H Ref) {k : H} {data : DetachedInnerData N E H}
    (hk : d.allData[k]? = some data) :
    ((∀ p ∈ d.missing m k, p ∈ st.2) ∧
      ∃ w' r, attachNode A d m st k = .ok (w', st.2.insert k r)) ∨
    (¬ ∀ p ∈ d.missing m k, p ∈ st.2) ∧ attachNode A d m st k = .error .missingParent := by
  have hrecord : unwrap .unknownObject d.allData[k]? = .ok data := unwrap_eq_ok_iff.mpr hk
  rw [Detached.missing_eq hk]
  rcases attachParents_cases (m := m) st.2 data.incoming with
    ⟨ps, hps, hall⟩ | ⟨hfail, p, hp, hnew, hgiven⟩
  · refine Or.inl ⟨fun p hp => ?_, _, _, (bind_of_ok hrecord).trans (bind_of_ok hps)⟩
    obtain ⟨hp, hpm⟩ := List.mem_filter.mp hp
    obtain ⟨pe, hpe, rfl⟩ := List.mem_map.mp hp
    obtain ⟨r, -, -, hplace⟩ := exists_of_forall₂ hall hpe
    refine mem_iff_exists.mpr ⟨_, hplace.resolve_right fun h => ?_⟩
    exact not_contains_iff.mp hpm (mem_iff_exists.mpr ⟨_, h⟩)
  · refine Or.inr ⟨fun hall => ?_, (bind_of_ok hrecord).trans (bind_of_error hfail)⟩
    exact hnew (hall p (List.mem_filter.mpr ⟨hp, not_contains_iff.mpr hgiven⟩))

/-- Creating a list of objects, with repetitions perhaps, succeeds if parents come first. -/
theorem attachNodes_cases (A : AddrSource) (st : World N E × ExtTreeMap H Ref)
    {next : H → List H} {out : List H}
    (hout : ∀ k ∈ out, k ∈ d.allData ∧ next k = d.missing m k) :
    (Ordered next {x | x ∈ st.2} out ∧ ∃ st', out.foldlM (attachNode A d m) st = .ok st') ∨
    ¬ Ordered next {x | x ∈ st.2} out ∧
      out.foldlM (attachNode A d m) st = .error .missingParent := by
  induction out generalizing st with
  | nil => exact Or.inl ⟨trivial, st, rfl⟩
  | cons k out ih =>
    obtain ⟨hk, hnext⟩ := hout k List.mem_cons_self
    obtain ⟨data, hdata⟩ := mem_iff_exists.mp hk
    rw [List.foldlM_cons, Ordered, hnext]
    rcases attachNode_cases A m st hdata with ⟨hall, w', r, hres⟩ | ⟨hnot, hres⟩
    · have hset : insert k {x | x ∈ st.2} = {x | x ∈ st.2.insert k r} := by
        ext x
        change x = k ∨ x ∈ st.2 ↔ x ∈ st.2.insert k r
        rw [ExtTreeMap.mem_insert, Std.LawfulEqCmp.compare_eq_iff_eq, eq_comm]
      have hparents : ∀ u ∈ d.missing m k, u ∈ {x | x ∈ st.2} := hall
      rw [bind_of_ok hres, and_iff_right hparents, hset]
      exact ih (w', _) fun x hx => hout x (List.mem_cons_of_mem _ hx)
    · exact Or.inr ⟨fun h => hnot h.1, bind_of_error hres⟩

/-! ### Termination -/

theorem attachNode_ne_endless (A : AddrSource) (st : World N E × ExtTreeMap H Ref) (k : H) :
    attachNode A d m st k ≠ .error .endless := by
  cases hk : d.allData[k]? with
  | none =>
    rw [attachNode, hk]
    exact nofun
  | some data =>
    rcases attachNode_cases A m st hk with ⟨-, w', r, hres⟩ | ⟨-, hres⟩ <;>
      rw [hres] <;> exact nofun

/-- Only the traversal could run for ever. -/
theorem attachSuccessors_ne_endless (k : H) : attachSuccessors d k ≠ .error .endless := by
  intro hres
  rw [attachSuccessors] at hres
  cases hk : d.allData[k]? with
  | some data =>
    rw [hk] at hres
    cases hres
  | none =>
    rw [hk] at hres
    cases hres

/-- An object that is expanded has a record, and leads to what it misses. -/
theorem mem_of_attachSuccessors {k : H} {us : List H} (h : attachSuccessors d k = .ok us) :
    k ∈ d.allData ∧ us.filter (fun p => !m.contains p) = d.missing m k := by
  obtain ⟨data, hdata, hus⟩ := bind_eq_ok_iff.mp h
  have hk := unwrap_eq_ok_iff.mp hdata
  cases hus
  exact ⟨mem_iff_exists.mpr ⟨data, hk⟩, (Detached.missing_eq hk).symm⟩

/-- **The traversal ends**, whatever the records. -/
theorem attachAll_ne_endless (A : AddrSource) (d : Detached N E H) (m : ExtTreeMap H Ref)
    (w : World N E) : attachAll A d m w ≠ .error .endless := by
  refine postOrderForEach_ne_endless (U := d.allData.keys.toFinset) (attachNode_ne_endless A)
    attachSuccessors_ne_endless (fun v us hus => ?_) ?_
  · exact List.mem_toFinset.mpr (ExtTreeMap.mem_keys.mpr (mem_of_attachSuccessors (m := m) hus).1)
  · have hcard : (d.allData.keys.toFinset \ ∅).card ≤ d.allData.size := by
      rw [Finset.sdiff_empty, ← ExtTreeMap.length_keys]
      exact List.toFinset_card_le _
    have henter : ([DfsEvent.dfsEnter d.current].map
        (DfsEvent.steps d.allData.keys.toFinset)).sum ≤ 2 := by
      rw [List.map_singleton, List.sum_singleton, DfsEvent.steps]
      split_ifs <;> omega
    rw [stepsLeft]
    omega

/-! ### The traversal -/

/-- If something is reached that is not recorded, the traversal panics. -/
theorem attachAll_of_unrecorded (A : AddrSource) {w : World N E} {k : H}
    (hk : Reaches (d.missing m) d.current k) (hnot : k ∉ d.allData) :
    ∃ e, attachAll A d m w = .error e := by
  cases hall : attachAll A d m w with
  | error e => exact ⟨e, rfl⟩
  | ok st =>
    obtain ⟨T, hroot, hT⟩ := exists_entered hall
    have hmem : k ∈ T := by
      refine Reaches.mem_of_closed (S := fun x => x ∈ T) (fun x hx p hp => ?_)
        (hroot _ (List.mem_singleton_self _)) hk
      obtain ⟨us, hus, hnext⟩ := hT x hx
      rw [← (mem_of_attachSuccessors (m := m) hus).2] at hp
      exact (hnext p hp).resolve_right (Finset.notMem_empty p)
    obtain ⟨us, hus, -⟩ := hT k hmem
    exact absurd (mem_of_attachSuccessors (m := m) hus).1 hnot

/-- Otherwise it is a walk that creates an object at each exit. -/
theorem attachAll_eq_foldlM (A : AddrSource) (w : World N E)
    (hrecorded : ∀ k, Reaches (d.missing m) d.current k → k ∈ d.allData) :
    ∃ S out, Walks (reached (d.missing m) d.current) ∅ [d.current] S out ∧
      (∀ k ∈ out, k ∈ d.allData ∧ reached (d.missing m) d.current k = d.missing m k) ∧
      attachAll A d m w = out.foldlM (attachNode A d m) (w, ∅) := by
  have hkeys : ∀ k, k ∈ d.allData.keys.toFinset ↔ k ∈ d.allData := fun k => by
    rw [List.mem_toFinset, ExtTreeMap.mem_keys]
  have hclosed : ∀ x ∈ d.allData.keys.toFinset, ∀ u ∈ reached (d.missing m) d.current x,
      u ∈ d.allData.keys.toFinset := by
    intro x _ u hu
    obtain ⟨hx, hu⟩ := mem_reached.mp hu
    exact (hkeys u).mpr (hrecorded u (hx.tail hu))
  have hroot : ∀ v ∈ [d.current], v ∈ d.allData.keys.toFinset := fun v hv =>
    List.mem_singleton.mp hv ▸ (hkeys _).mpr (hrecorded _ (Reaches.refl _))
  obtain ⟨S, out, hwalk⟩ := Walks.exists_of_finite hclosed hroot ∅
  have hout : ∀ k ∈ out, Reaches (d.missing m) d.current k := by
    intro k hk
    obtain ⟨v, hv, hvk⟩ := hwalk.reaches hk
    obtain rfl := List.mem_singleton.mp hv
    exact (reaches_reached (Reaches.refl _)).mp hvk
  -- all exits but one are those of marked objects
  have hlen : out.length ≤ d.allData.size + 1 := by
    have hsum := hwalk.length_out_add
    have hle := Finset.card_le_card (hwalk.visited_subset hclosed hroot (Finset.empty_subset _))
    have hcard := List.toFinset_card_le d.allData.keys
    rw [ExtTreeMap.length_keys] at hcard
    rw [Finset.card_empty, List.length_singleton] at hsum
    omega
  refine ⟨S, out, hwalk, fun k hk => ⟨hrecorded k (hout k hk), reached_eq (hout k hk)⟩, ?_⟩
  refine hwalk.loop_eq_foldlM (fun k hk => ?_) (by omega) (w, ∅)
  obtain ⟨data, hdata⟩ := mem_iff_exists.mp (hrecorded k (hout k hk))
  refine ⟨data.parents, bind_of_ok (unwrap_eq_ok_iff.mpr hdata), ?_⟩
  rw [reached_eq (hout k hk), Detached.missing_eq hdata]

end Any

/-! ### The result -/

/-- The node `r` was assembled from records: the objects `order`, those that are missing, have been
created once each, in this order, each from its record and after its missing parents. -/
structure Assembled (d : Detached N E H) (m : ExtTreeMap H Ref) (w w' : World N E) (r : Ref)
    (order : List H) : Prop where
  nodup : order.Nodup
  mem_iff : ∀ k, k ∈ order ↔ d.current ∉ m ∧ Reaches (d.missing m) d.current k
  size : w'.heap.size = w.heap.size + order.length
  node : ∀ i (k : H), order[i]? = some k → ∃ data, d.allData[k]? = some data ∧
    w'.heap.value (w.heap.size + i) = some data.value ∧
    List.Forall₂ (fun pe e => e.value = pe.2 ∧ Placed m w.heap.size order i pe.1 e.source)
      data.incoming (w'.heap.allIncoming (w.heap.size + i))
  result : m[d.current]? = some r ∨ ∃ i, order[i]? = some d.current ∧ r = w.heap.size + i

section Call

variable {w w' : World N E} {H₀ : Multiset Ref} {G : Multiset RegRef} {d : Detached N E H}
variable {m : ExtTreeMap H Ref} {order : List H} {st : World N E × ExtTreeMap H Ref}

/-- When all objects have been created, what is left is to return the last one. -/
theorem assembled_of_built {w0 : World N E}
    (hb : Built A K ok d m w0 ((valuesOf m : Multiset Ref) + H₀) G order st)
    (hi : Inv w0 ((valuesOf m : Multiset Ref) + H₀) G) (hsize : w0.heap.size = w.heap.size)
    (hnot : d.current ∉ m) (hnodup : order.Nodup)
    (hmem : ∀ k, k ∈ order ↔ Reaches (d.missing m) d.current k) :
    ∃ r, st.2[d.current]? = some r ∧
      Steps A K ok ⟨st.1, (valuesOf st.2 : Multiset Ref) + ((valuesOf m : Multiset Ref) + H₀), G⟩
        ⟨(st.1.dropAll (valuesOf (st.2.erase d.current))).dropAll (valuesOf m), r ::ₘ H₀, G⟩ ∧
      Assembled d m w
        ((st.1.dropAll (valuesOf (st.2.erase d.current))).dropAll (valuesOf m)) r order := by
  obtain ⟨i, hget⟩ := List.mem_iff_getElem?.mp ((hmem d.current).mpr (Reaches.refl _))
  have hfound := (hb.get d.current _).mpr ⟨i, hget, rfl⟩
  have hi1 := hb.inv hi
  have hend : Steps A K ok ⟨st.1, _, G⟩ _ := steps_attach_end hi1 hfound
  have hframe := Steps.frame hend hi1
  have hmissing : ∀ (k : H) data, d.allData[k]? = some data →
      ∀ p ∈ d.missing m k, p ∈ data.parents ∧ p ∉ m := by
    intro k data hdata p hp
    rw [Detached.missing_eq hdata] at hp
    obtain ⟨hp, hpm⟩ := List.mem_filter.mp hp
    exact ⟨hp, not_contains_iff.mp hpm⟩
  refine ⟨_, hfound, hend, hnodup, fun k => ?_, ?_, fun j k hj => ?_,
    Or.inr ⟨i, hget, by rw [hsize]⟩⟩
  · rw [hmem, and_iff_right hnot]
  · rw [World.size_dropAll, World.size_dropAll, hb.size, hsize]
  · obtain ⟨data, hdata, hvalue, hedges⟩ := hb.node j k hj
    -- the result keeps its missing ancestors alive through the drops at the end
    have halive := hb.alive_of_steps hi hmissing hfound hend
      ((hmem k).mp (List.mem_of_getElem? hj)) hj
    have hold := hb.lt_size hj
    rw [← hframe.value _ hold halive] at hvalue
    rw [← hframe.allIncoming _ hold halive] at hedges
    rw [hsize] at hvalue hedges
    exact ⟨data, hdata, hvalue, hedges⟩

/-- The traversal creates what is missing if and only if the records allow it. -/
theorem attachAll_any (A : AddrSource) (K : KeySource) (ok : Access → Prop) {held : Multiset Ref}
    (hi : Inv w held G) (hm : ∀ (p : H) r, m[p]? = some r → r ∈ held) (hnot : d.current ∉ m) :
    (d.Attachable m ∧ ∃ order st, attachAll A d m w = .ok st ∧
      Built A K ok d m w held G order st ∧ order.Nodup ∧
        ∀ k, k ∈ order ↔ Reaches (d.missing m) d.current k) ∨
    ¬ d.Attachable m ∧ ∃ e, attachAll A d m w = .error e := by
  rw [Detached.Attachable, or_iff_right hnot]
  by_cases hrecorded : ∀ k, Reaches (d.missing m) d.current k → k ∈ d.allData
  · obtain ⟨S, order, hwalk, horder, hall⟩ := attachAll_eq_foldlM A w hrecorded
    have hiff := hwalk.ordered_reached_iff
    rcases attachNodes_cases A (w, ∅) horder with ⟨hout, st, hst⟩ | ⟨hout, hfail⟩
    · have hout' : Ordered (reached (d.missing m) d.current) ∅ order := by simpa using hout
      obtain ⟨hcycles, hclear⟩ := hiff.mp hout'
      have hnodup := hwalk.nodup_of_root (acyclic_reached_iff.mpr hcycles)
      have hstart : Built A K ok d m w held G [] (w, ∅) := Built.start w held G
      have hnext : ∀ k ∈ order, ∃ data, d.allData[k]? = some data ∧
          data.parents.filter (fun p => !m.contains p) = reached (d.missing m) d.current k := by
        intro k hk
        obtain ⟨hmem, heq⟩ := horder k hk
        obtain ⟨data, hdata⟩ := mem_iff_exists.mp hmem
        exact ⟨data, hdata, by rw [heq, Detached.missing_eq hdata]⟩
      rcases hstart.createAll hi hm hnodup hnext with ⟨-, st', hst', hb⟩ | ⟨hno, -⟩
      · refine Or.inl ⟨⟨fun k hk => ⟨hrecorded k hk, hcycles k hk⟩, hclear⟩, order, st',
          hall.trans hst', hb, hnodup, fun k => ?_⟩
        rw [hwalk.mem_out_iff hout', reaches_reached (Reaches.refl _)]
      · exact absurd (by simpa using hout') hno
    · refine Or.inr ⟨fun h => hout ?_, _, hall.trans hfail⟩
      have hout' := hiff.mpr ⟨fun k hk => (h.1 k hk).2, h.2⟩
      simpa using hout'
  · obtain ⟨k, hk⟩ := not_forall.mp hrecorded
    obtain ⟨hreach, hnone⟩ := Classical.not_imp.mp hk
    obtain ⟨e, hfail⟩ := attachAll_of_unrecorded A (w := w) hreach hnone
    exact Or.inr ⟨fun h => hnone (h.1 k hreach).1, e, hfail⟩

variable [Inhabited H] {attachTo : List Ref}

/-- **The two outcomes of `attach`** on any records. -/
theorem attach_any_cases (hash : N → List (H × E) → H) (A : AddrSource) (K : KeySource)
    (ok : Access → Prop) (hi : Inv w ((attachTo : Multiset Ref) + H₀) G) (d : Detached N E H) :
    (d.Attachable (attachMap hash w.heap attachTo).1 ∧
      ∃ r w' order, w.attach A hash d attachTo = .ok (r, w') ∧
        Steps A K ok ⟨w, (attachTo : Multiset Ref) + H₀, G⟩ ⟨w', r ::ₘ H₀, G⟩ ∧
        Assembled d (attachMap hash w.heap attachTo).1 w w' r order) ∨
    ¬ d.Attachable (attachMap hash w.heap attachTo).1 ∧
      ∃ e, w.attach A hash d attachTo = .error e ∧ e ≠ .endless := by
  by_cases hgiven : d.current ∈ (attachMap hash w.heap attachTo).1
  · obtain ⟨r, hr⟩ := mem_iff_exists.mp hgiven
    have hkey := (attachMap_getElem? hr).2
    obtain ⟨w', hres, hsteps, hatt⟩ := attach_of_given A K ok hi hkey.symm hr
    exact Or.inl ⟨Or.inl hgiven, r, w', [], hres, hsteps, List.nodup_nil,
      fun k => by simp [hgiven], hatt.size, fun i k h => by simp at h, Or.inl hr⟩
  have hdisplaced := steps_displaced hash A K ok hi
  have hi0 := Steps.inv hdisplaced hi
  have hsize0 := w.size_dropAll (attachMap hash w.heap attachTo).2
  have hnone : (attachMap hash w.heap attachTo).1[d.current]? = none := by
    rw [← Option.not_isSome_iff_eq_none, ExtTreeMap.isSome_getElem?_iff_mem]
    exact hgiven
  rw [World.attach, hnone]
  generalize (attachMap hash w.heap attachTo).1 = m at *
  generalize w.dropAll (attachMap hash w.heap attachTo).2 = w0 at *
  have hm : ∀ (p : H) r, m[p]? = some r → r ∈ (valuesOf m : Multiset Ref) + H₀ := fun p r hp =>
    Multiset.mem_add.mpr (Or.inl (mem_valuesOf.mpr ⟨p, hp⟩))
  rcases attachAll_any A K ok hi0 hm hgiven with
    ⟨hcond, order, st, hst, hb, hnodup, hmem⟩ | ⟨hcond, e, hfail⟩
  · obtain ⟨r, hfound, hend, hatt⟩ := assembled_of_built hb hi0 hsize0 hgiven hnodup hmem
    exact Or.inl ⟨hcond, r, _, order,
      (bind_of_ok hst).trans (bind_of_ok (unwrap_eq_ok_iff.mpr hfound)),
      (hdisplaced.trans hb.steps).trans hend, hatt⟩
  · refine Or.inr ⟨hcond, e, bind_of_error hfail, ?_⟩
    rintro rfl
    exact attachAll_ne_endless A d m w0 hfail

end Call

variable [Inhabited H] {P : State N E → Op N E → Prop} {s : State N E}

/-- **Attaching whatever has been received**, in every state of every run: `attach` never runs on
without end; it returns if and only if the object is given, or what is missing is recorded, without
cycles and on clear ways. The node was then assembled from the records, and the memory is that of a
program that owns it in place of the given handles. -/
theorem attach_any_of_run (h : Run A K P State.init s) (hash : N → List (H × E) → H)
    {attachTo : List Ref} (hto : nodeHandles attachTo ≤ s.handles) (d : Detached N E H) :
    ((∃ res, s.world.attach A hash d attachTo = .ok res) ↔
      d.Attachable (attachMap hash s.world.heap attachTo).1) ∧
    s.world.attach A hash d attachTo ≠ .error .endless ∧
    ∀ r w', s.world.attach A hash d attachTo = .ok (r, w') →
      (∃ order, Assembled d (attachMap hash s.world.heap attachTo).1 s.world w' r order) ∧
      ({ s with
        world := w'
        handles := .node r ::ₘ (s.handles - nodeHandles attachTo) } : State N E).Inv := by
  have hi : Inv s.world s.held s.regs := Run.inv h State.inv_init
  rw [State.held_of_le hto] at hi
  rcases attach_any_cases hash A K (fun _ => True) hi d with
    ⟨hcond, r, w', order, hres, hsteps, hatt⟩ | ⟨hcond, e, hfail, hne⟩
  · refine ⟨iff_of_true ⟨_, hres⟩ hcond, by rw [hres]; exact nofun, fun r₁ w₁ hres₁ => ?_⟩
    obtain ⟨rfl, rfl⟩ := Prod.mk.inj (Except.ok.inj (hres₁.symm.trans hres))
    refine ⟨⟨order, hatt⟩, ?_⟩
    have hi' := Steps.inv hsteps hi
    rw [State.Inv, State.config, State.held, Multiset.map_cons, Multiset.cons_add]
    exact hi'
  · refine ⟨iff_of_false ?_ hcond, ?_, fun r w' hres => ?_⟩
    · rintro ⟨res, hres⟩
      rw [hfail] at hres
      cases hres
    · rw [hfail]
      exact fun h => hne (Except.error.inj h)
    · rw [hfail] at hres
      cases hres

/-- Records of two objects that are each other's parents. -/
def cyclicRecords : Detached ℕ ℕ ℕ :=
  ⟨7, ((∅ : ExtTreeMap ℕ (DetachedInnerData ℕ ℕ ℕ)).insert 7 ⟨1, [(8, 1)]⟩).insert 8
    ⟨2, [(7, 2)]⟩⟩

/-- `attach` panics on them, although all parents are recorded. -/
theorem attach_any_of_run_cyclicRecords :
    cyclicRecords.attachesTo (attachMap pairHash twoDiamonds.world.heap [4, 5]).1 = true ∧
    (¬ ∃ res, twoDiamonds.world.attach AddrSource.lowest pairHash cyclicRecords [4, 5] =
      .ok res) ∧
    twoDiamonds.world.attach AddrSource.lowest pairHash cyclicRecords [4, 5] ≠
      .error .endless := by
  have hrun : Run _ KeySource.reusing (fun _ _ => True) State.init twoDiamonds :=
    run_after (by decide +kernel) fun _ _ _ => trivial
  have hhandles : nodeHandles [4, 5] ≤ twoDiamonds.handles := by decide +kernel
  obtain ⟨hiff, hends, -⟩ := attach_any_of_run hrun pairHash hhandles cyclicRecords
  refine ⟨by decide +kernel, fun hres => ?_, hends⟩
  have hup : 8 ∈ cyclicRecords.missing (attachMap pairHash twoDiamonds.world.heap [4, 5]).1 7 := by
    decide +kernel
  have hdown : 7 ∈ cyclicRecords.missing (attachMap pairHash twoDiamonds.world.heap [4, 5]).1 8 :=
    by decide +kernel
  have hnot : 7 ∉ (attachMap pairHash twoDiamonds.world.heap [4, 5]).1 := by decide +kernel
  rcases hiff.mp hres with hgiven | ⟨hall, -⟩
  · exact hnot hgiven
  · exact (hall 7 (Reaches.refl 7)).2 ((Relation.TransGen.single hup).tail hdown)

end Relrc
