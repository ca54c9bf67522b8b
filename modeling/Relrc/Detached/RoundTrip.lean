import Relrc.Detached.Cuts

/-!
# Detaching and attaching again

An object that is detached and attached again is rebuilt from the records and the given objects. The
new objects have the hashes under which they are recorded, so that the result has the hash of the
object it was made from, and detaching it gives the **same** detached object
(`attach_detach_of_run`).

What is given is not copied: on every path from the result, up to the first object that is given,
the nodes are new, one for each hash, and the object at which the path ends is the given one
(`Attached.upTo`).
-/

namespace Relrc

open Std (ExtTreeMap)
open SlotStore OrderedMap Ancestry Fallible PostOrder

variable {N E H : Type}

/-! ### Hashes in two memories -/

section Hashes

variable [Inhabited H] {hash : N → List (H × E) → H}

/-- Live nodes with the same hash, one in each heap, have the same value and edges. -/
def Heap.Agree (hash : N → List (H × E) → H) (h h' : Heap N E) : Prop :=
  ∀ a b, h.Alive a → h'.Alive b → h.hashId hash a = h'.hashId hash b →
    h.value a = h'.value b ∧ h.edgeHashes hash a = h'.edgeHashes hash b

theorem Heap.Agree.symm {h h' : Heap N E} (hagree : h.Agree hash h') : h'.Agree hash h :=
  fun a b ha hb heq => (hagree b a hb ha heq.symm).imp Eq.symm Eq.symm

variable {w w' : World N E} {held held' : Multiset Ref}

/-- Edges have the same hashes as long as the parents have. -/
theorem Frame.edgeHashes_of_parents (hf : Frame w w') {r : Ref} (hlt : r < w.heap.size)
    (hr : w'.heap.Alive r)
    (hparents : ∀ p ∈ w'.heap.allParents r, w'.heap.hashId hash p = w.heap.hashId hash p) :
    w'.heap.edgeHashes hash r = w.heap.edgeHashes hash r := by
  rw [Heap.edgeHashes, Heap.edgeHashes, ← hf.allIncoming r hlt hr]
  refine List.map_congr_left fun e he => ?_
  rw [hparents e.source (List.mem_map_of_mem he)]

/-- The hash of a node does not change while it lives. -/
theorem Frame.hashId (hf : Frame w w') (hi : HeapInv w.heap held) (hi' : HeapInv w'.heap held') :
    ∀ r : ℕ, r < w.heap.size → w'.heap.Alive r → w'.heap.hashId hash r = w.heap.hashId hash r := by
  intro r
  induction r using Nat.strong_induction_on with
  | _ r ih =>
    intro hlt hr
    have hparents : ∀ p ∈ w'.heap.allParents r,
        w'.heap.hashId hash p = w.heap.hashId hash p := by
      intro p hp
      have hlt' := hi'.parent_lt r p hp
      exact ih p hlt' (lt_trans hlt' hlt) (hi'.parent_alive hp)
    obtain ⟨value, hvalue⟩ := hi'.exists_value hr
    have hold : w.heap.value r = some value := (hf.value r hlt hr).symm.trans hvalue
    rw [hi'.hashId_eq hvalue, hi.hashId_eq hold, hf.edgeHashes_of_parents hlt hr hparents]

/-- Live nodes keep the hashes of their edges. -/
theorem Frame.edgeHashes (hf : Frame w w') (hi : HeapInv w.heap held) (hi' : HeapInv w'.heap held')
    {r : Ref} (hlt : r < w.heap.size) (hr : w'.heap.Alive r) :
    w'.heap.edgeHashes hash r = w.heap.edgeHashes hash r := by
  refine hf.edgeHashes_of_parents hlt hr fun p hp => ?_
  exact hf.hashId hi hi' p (lt_trans (hi'.parent_lt r p hp) hlt) (hi'.parent_alive hp)

variable {h h' : Heap N E} {detachFrom : Finset H} {obj obj' : Ref}

/-- Paths past the cut are the same by hash. -/
theorem Uncut.exists_of_agree (hi : HeapInv h held) (hi' : HeapInv h' held')
    (hagree : h.Agree hash h') (hobj : h.Alive obj) (hobj' : h'.Alive obj')
    (heq : h.hashId hash obj = h'.hashId hash obj') {r : Ref} (hr : Uncut hash h detachFrom obj r) :
    ∃ r', Uncut hash h' detachFrom obj' r' ∧ h.hashId hash r = h'.hashId hash r' := by
  induction hr with
  | root hout => exact ⟨obj', .root (heq ▸ hout), heq⟩
  | @parent r p hu hp hout ih =>
    obtain ⟨r', hu', heq'⟩ := ih
    have hedges := (hagree r r' (hu.alive hi hobj) (hu'.alive hi' hobj') heq').2
    have hmem : h.hashId hash p ∈ (h'.allParents r').map (h'.hashId hash) := by
      rw [← Heap.map_fst_edgeHashes, ← hedges, Heap.map_fst_edgeHashes]
      exact List.mem_map_of_mem hp
    obtain ⟨p', hp', hkey⟩ := List.mem_map.mp hmem
    exact ⟨p', hu'.parent hp' (hkey ▸ hout), hkey.symm⟩

end Hashes

variable [LinearOrder H] [Inhabited H] {hash : N → List (H × E) → H}

/-! ### Detached objects in two memories -/

section Detach

variable {h h' : Heap N E} {held held' : Multiset Ref} {detachFrom : Finset H} {obj obj' : Ref}

/-- The records of one object are records of the other. -/
theorem Exact.record_of_agree {d d' : Detached N E H} (hd : Exact hash h detachFrom obj d)
    (hd' : Exact hash h' detachFrom obj' d') (hi : HeapInv h held) (hi' : HeapInv h' held')
    (hagree : h.Agree hash h') (hobj : h.Alive obj) (hobj' : h'.Alive obj')
    (heq : h.hashId hash obj = h'.hashId hash obj') {k : H} {data : DetachedInnerData N E H}
    (hk : d.allData[k]? = some data) : d'.allData[k]? = some data := by
  obtain ⟨r, hu, rfl, hvalue, hedges⟩ := (hd.record_iff k data).mp hk
  obtain ⟨r', hu', hkey⟩ := hu.exists_of_agree hi hi' hagree hobj hobj' heq
  obtain ⟨hv, he⟩ := hagree r r' (hu.alive hi hobj) (hu'.alive hi' hobj') hkey
  exact (hd'.record_iff _ data).mpr ⟨r', hu', hkey.symm, hv ▸ hvalue, hedges.trans he⟩

/-- **Objects with the same hash** are detached alike. -/
theorem Exact.eq_of_agree {d d' : Detached N E H} (hd : Exact hash h detachFrom obj d)
    (hd' : Exact hash h' detachFrom obj' d') (hi : HeapInv h held) (hi' : HeapInv h' held')
    (hagree : h.Agree hash h') (hobj : h.Alive obj) (hobj' : h'.Alive obj')
    (heq : h.hashId hash obj = h'.hashId hash obj') : d = d' := by
  have hcurrent : d.current = d'.current := hd.current.trans (heq.trans hd'.current.symm)
  have hdata : d.allData = d'.allData := by
    refine ExtTreeMap.ext_getElem? fun k => Option.ext fun data => ⟨?_, ?_⟩
    · exact hd.record_of_agree hd' hi hi' hagree hobj hobj' heq
    · exact hd'.record_of_agree hd hi' hi hagree.symm hobj' hobj heq.symm
  cases d
  cases d'
  simp only at hcurrent hdata
  rw [hcurrent, hdata]

end Detach

/-! ### The given objects -/

theorem attachMap_getElem?_foldl {h : Heap N E} (l : List Ref) (m : ExtTreeMap H Ref)
    (out : List Ref) {k : H} {x : Ref}
    (hx : (l.foldl (fun acc n => let nodeId := h.hashId hash n
      (acc.1.insert nodeId n, acc.2 ++ (acc.1[nodeId]?).toList)) (m, out)).1[k]? = some x) :
    m[k]? = some x ∨ x ∈ l ∧ h.hashId hash x = k := by
  induction l generalizing m out with
  | nil => exact Or.inl hx
  | cons n l ih =>
    rcases ih _ _ hx with hx | ⟨hmem, hkey⟩
    · rw [getElem?_insert_eq] at hx
      split_ifs at hx with heq
      · obtain rfl := Option.some.inj hx
        exact Or.inr ⟨List.mem_cons_self, heq.symm⟩
      · exact Or.inl hx
    · exact Or.inr ⟨List.mem_cons_of_mem _ hmem, hkey⟩

/-- What is found under a hash is a given object with this hash. -/
theorem attachMap_getElem? {h : Heap N E} {attachTo : List Ref} {k : H} {x : Ref}
    (hx : (attachMap hash h attachTo).1[k]? = some x) : x ∈ attachTo ∧ h.hashId hash x = k :=
  (attachMap_getElem?_foldl attachTo ∅ [] hx).resolve_left (by simp)

/-! ### What was rebuilt -/

/-- The node is reached from `r` along parent edges by a path on which every earlier node has a hash
outside of `stop`. -/
inductive UpTo (hash : N → List (H × E) → H) (h : Heap N E) (stop : List H) (r : Ref) : Ref → Prop
  | root : UpTo hash h stop r r
  | parent {x p : Ref} (hx : UpTo hash h stop r x) (hout : h.hashId hash x ∉ stop)
      (hp : p ∈ h.allParents x) : UpTo hash h stop r p

section Reattached

variable {w w' : World N E} {held held' : Multiset Ref} {d : Detached N E H} {m : ExtTreeMap H Ref}
variable {obj r : Ref} {order : List H} {detachFrom : Finset H}

/-- The two memories before and after `attach`. -/
structure Reattached (hash : N → List (H × E) → H) (w w' : World N E) (held held' : Multiset Ref)
    (detachFrom : Finset H) (obj : Ref) (d : Detached N E H) (m : ExtTreeMap H Ref) (r : Ref)
    (order : List H) : Prop where
  before : HeapInv w.heap held
  after : HeapInv w'.heap held'
  frame : Frame w w'
  records : Records hash w.heap detachFrom obj d
  given : ∀ (k : H) x, m[k]? = some x → w.heap.Alive x ∧ w.heap.hashId hash x = k
  alive : w'.heap.Alive r
  attached : Attached hash obj d m w w' r order

namespace Reattached

variable (hb : Reattached hash w w' held held' detachFrom obj d m r order)

include hb

/-- Given objects keep their hashes. -/
theorem hashId_given {k : H} {x : Ref} (hx : m[k]? = some x) (halive : w'.heap.Alive x) :
    w'.heap.hashId hash x = k := by
  obtain ⟨hold, hkey⟩ := hb.given k x hx
  rw [hb.frame.hashId hb.before hb.after x (hb.before.alive_lt x hold) halive, hkey]

/-- The new objects are alive, and their parents are where the records say. -/
theorem alive_new {i : ℕ} {k : H} (hget : order[i]? = some k) :
    w'.heap.Alive (w.heap.size + i) := by
  obtain ⟨data, -, hvalue, -⟩ := hb.attached.node i k hget
  refine hb.after.alive_of_data fun hnone => ?_
  rw [Heap.value, hnone] at hvalue
  cases hvalue

/-- **A new object** has the hash under which it is recorded, and the edges of the record. -/
theorem hashId_new (i : ℕ) : ∀ k data, order[i]? = some k → d.allData[k]? = some data →
    w'.heap.hashId hash (w.heap.size + i) = k ∧
      w'.heap.edgeHashes hash (w.heap.size + i) = data.incoming := by
  induction i using Nat.strong_induction_on with
  | _ i ih =>
    intro k data hget hdata
    obtain ⟨data', hdata', hvalue, hedges⟩ := hb.attached.node i k hget
    obtain rfl : data' = data := Option.some.inj (hdata'.symm.trans hdata)
    -- a parent is given, with its hash as the key, or was created before
    have hedge : ∀ e pe, e ∈ w'.heap.allIncoming (w.heap.size + i) ∧ e.value = (pe : H × E).2 ∧
        Placed m w.heap.size order i pe.1 e.source →
          (w'.heap.hashId hash e.source, e.value) = pe := by
      rintro e pe ⟨he, hval, hplace | ⟨j, hj, hplace, hsource⟩⟩
      · exact Prod.ext
          (hb.hashId_given hplace (hb.after.parent_alive (List.mem_map_of_mem he))) hval
      · obtain ⟨dataj, hdataj, -⟩ := hb.attached.node j pe.1 hplace
        refine Prod.ext ?_ hval
        rw [hsource]
        exact (ih j hj pe.1 dataj hplace hdataj).1
    have hincoming : w'.heap.edgeHashes hash (w.heap.size + i) = data'.incoming := by
      have hmem : ∀ e ∈ w'.heap.allIncoming (w.heap.size + i),
          e ∈ w'.heap.allIncoming (w.heap.size + i) := fun _ he => he
      have hall := (List.forall₂_and_left _ _).mpr ⟨hmem, hedges.flip⟩
      have hmap : List.Forall₂ Eq (w'.heap.edgeHashes hash (w.heap.size + i)) data'.incoming :=
        List.forall₂_map_left_iff.mpr (hall.imp hedge)
      rwa [List.forall₂_eq_eq_eq] at hmap
    refine ⟨?_, hincoming⟩
    -- the record was made of an object with this hash, the same value and the same edges
    obtain ⟨-, r', -, hkey, hvalue', hedges'⟩ := hb.records.sound k data' hdata
    have hold : w.heap.hashId hash r' = hash data'.value (w.heap.edgeHashes hash r') :=
      hb.before.hashId_eq hvalue'
    rw [hb.after.hashId_eq hvalue, hincoming, hedges', ← hold, hkey]

/-- A rebuilt object has the hash under which it was recorded. -/
theorem hashId_of_get {i : ℕ} {k : H} (hget : order[i]? = some k) :
    w'.heap.hashId hash (w.heap.size + i) = k := by
  obtain ⟨data, hdata, -⟩ := hb.attached.node i k hget
  exact (hb.hashId_new i k data hget hdata).1

/-- What was created is one of the rebuilt objects. -/
theorem exists_get {x : Ref} (hnew : w.heap.size ≤ x) (hlt : x < w'.heap.size) :
    ∃ i k, order[i]? = some k ∧ x = w.heap.size + i := by
  obtain ⟨i, rfl⟩ := Nat.exists_eq_add_of_le hnew
  rw [hb.attached.size] at hlt
  exact ⟨i, _, List.getElem?_eq_getElem (Nat.lt_of_add_lt_add_left hlt), rfl⟩

/-- New objects with the same hash are the same. -/
theorem eq_of_hashId {x y : Ref} (hx : w.heap.size ≤ x) (hx' : x < w'.heap.size)
    (hy : w.heap.size ≤ y) (hy' : y < w'.heap.size)
    (heq : w'.heap.hashId hash y = w'.heap.hashId hash x) : y = x := by
  obtain ⟨i, k, hget, rfl⟩ := hb.exists_get hx hx'
  obtain ⟨j, k', hget', rfl⟩ := hb.exists_get hy hy'
  rw [hb.hashId_of_get hget, hb.hashId_of_get hget'] at heq
  subst heq
  have hlt := (List.getElem?_eq_some_iff.mp hget').1
  rw [(List.getElem?_inj hlt hb.attached.nodup).mp (hget'.trans hget.symm)]

/-- Every node has a twin before the call, with the same hash, value and edges. -/
theorem exists_twin {x : Ref} (hx : w'.heap.Alive x) :
    ∃ y, w.heap.Alive y ∧ w'.heap.hashId hash x = w.heap.hashId hash y ∧
      w'.heap.value x = w.heap.value y ∧
        w'.heap.edgeHashes hash x = w.heap.edgeHashes hash y := by
  by_cases hlt : x < w.heap.size
  · exact ⟨x, hb.frame.alive x hlt hx, hb.frame.hashId hb.before hb.after x hlt hx,
      hb.frame.value x hlt hx, hb.frame.edgeHashes hb.before hb.after hlt hx⟩
  · obtain ⟨i, k, hget, rfl⟩ := hb.exists_get (Nat.le_of_not_lt hlt) (hb.after.alive_lt x hx)
    obtain ⟨data, hdata, hvalue, -⟩ := hb.attached.node i k hget
    obtain ⟨hkey, hedges⟩ := hb.hashId_new i k data hget hdata
    obtain ⟨-, r', halive, hkey', hvalue', hedges'⟩ := hb.records.sound k data hdata
    exact ⟨r', halive, hkey.trans hkey'.symm, hvalue.trans hvalue'.symm, hedges.trans hedges'⟩

/-- Collisions are excluded across the call, and after it. -/
theorem agree (hfree : w.heap.CollisionFree hash) : w.heap.Agree hash w'.heap := by
  intro a b ha hb' heq
  obtain ⟨y, hy, hkey, hvalue, hedges⟩ := hb.exists_twin hb'
  obtain ⟨hv, he⟩ := hfree a y ha hy (heq.trans hkey)
  exact ⟨hv.trans hvalue.symm, he.trans hedges.symm⟩

/-- Rebuilt objects bring no collisions. -/
theorem collisionFree (hfree : w.heap.CollisionFree hash) : w'.heap.CollisionFree hash := by
  intro a b ha hb' heq
  obtain ⟨y, hy, hkey, hvalue, hedges⟩ := hb.exists_twin ha
  obtain ⟨hv, he⟩ := hb.agree hfree y b hy hb' (hkey.symm.trans heq)
  exact ⟨hvalue.trans hv, hedges.trans he⟩

/-- The result is the given object, or a new one. -/
theorem hashId_result : w'.heap.hashId hash r = w.heap.hashId hash obj := by
  rcases hb.attached.result with hr | ⟨i, hget, rfl⟩
  · exact hb.hashId_given hr hb.alive
  · exact hb.hashId_of_get hget

/-- **What is reached from the result** before an object is given: the new objects, and the given
ones at which the paths end. -/
theorem upTo {stop : List H} (hstop : ∀ k ∈ m, k ∈ stop) {x : Ref}
    (hx : UpTo hash w'.heap stop r x) : m[w'.heap.hashId hash x]? = some x ∨
      ∃ i, order[i]? = some (w'.heap.hashId hash x) ∧ x = w.heap.size + i := by
  induction hx with
  | root =>
    rw [hb.hashId_result]
    exact hb.attached.result
  | @parent x p hx hout hp ih =>
    obtain ⟨i, hget, rfl⟩ := ih.resolve_left fun hgiven =>
      hout (hstop _ (mem_iff_exists.mpr ⟨_, hgiven⟩))
    obtain ⟨data, -, -, hedges⟩ := hb.attached.node i _ hget
    obtain ⟨e, he, rfl⟩ := List.mem_map.mp hp
    obtain ⟨pe, -, -, hplace⟩ := exists_of_forall₂ hedges.flip he
    rcases hplace with hgiven | ⟨j, -, hget', hsource⟩
    · rw [hb.hashId_given hgiven (hb.after.parent_alive hp)]
      exact Or.inl hgiven
    · rw [hsource, hb.hashId_of_get hget']
      exact Or.inr ⟨j, hget', rfl⟩

/-- New objects are not given. -/
theorem notMem_of_get {i : ℕ} {k : H} (hget : order[i]? = some k) : k ∉ m := by
  obtain ⟨hobj, hreach⟩ := (hb.attached.mem_iff k).mp (List.mem_of_getElem? hget)
  cases hreach with
  | refl => exact hobj
  | tail _ hk => exact not_contains_iff.mp (List.mem_filter.mp hk).2

end Reattached

end Reattached

/-! ### The result -/

/-- **An attached object**: what `attach` returns was rebuilt, whether `attaches_to` accepts or
not. -/
theorem attach_ok (A : AddrSource) (K : KeySource) (ok : Access → Prop) {w w' : World N E}
    {H₀ : Multiset Ref} {G : Multiset RegRef} {d : Detached N E H} {attachTo : List Ref}
    {detachFrom : Finset H} {obj r : Ref} (hi : Inv w ((attachTo : Multiset Ref) + H₀) G)
    (hfree : w.heap.CollisionFree hash) (hr : Records hash w.heap detachFrom obj d)
    (hres : w.attach A hash d attachTo = .ok (r, w')) :
    ∃ order, Steps A K ok ⟨w, (attachTo : Multiset Ref) + H₀, G⟩ ⟨w', r ::ₘ H₀, G⟩ ∧
      Attached hash obj d (attachMap hash w.heap attachTo).1 w w' r order := by
  cases hgiven : (attachMap hash w.heap attachTo).1[d.current]? with
  | some r' =>
    obtain ⟨w'', hres', hsteps, hatt⟩ := attach_of_given A K ok hi hr.current hgiven
    cases hres.symm.trans hres'
    exact ⟨[], hsteps, hatt⟩
  | none =>
    have hnot : d.current ∉ (attachMap hash w.heap attachTo).1 := by
      rw [mem_iff_exists, hgiven]
      simp
    have hall := hres
    rw [World.attach, hgiven] at hall
    obtain ⟨st, hst, -⟩ := bind_eq_ok_iff.mp hall
    -- since the traversal has come to an end, whatever is missing is recorded
    obtain ⟨T, hroot, hT⟩ := exists_entered hst
    have hrecorded : ∀ k, Reaches (missingParents hash w.heap (attachMap hash w.heap attachTo).1)
        d.current k → k ∈ T := by
      intro k hk
      refine Reaches.mem_of_closed (S := T) (fun x hx p hp => ?_)
        (hroot _ (List.mem_singleton_self _)) hk
      obtain ⟨us, hus, hnext⟩ := hT x hx
      obtain ⟨data, hdata, hparents⟩ := bind_eq_ok_iff.mp hus
      rw [← hr.parents_filter hi.heap hfree (unwrap_eq_ok_iff.mp hdata)] at hp
      cases hparents
      exact (hnext p hp).resolve_right (Finset.notMem_empty p)
    have hmem : ∀ k ∈ T, k ∈ d.allData := by
      intro k hk
      obtain ⟨us, hus, -⟩ := hT k hk
      obtain ⟨data, hdata, -⟩ := bind_eq_ok_iff.mp hus
      exact mem_iff_exists.mpr ⟨data, unwrap_eq_ok_iff.mp hdata⟩
    rcases attach_of_recorded A K ok hi hfree hr hnot fun k hk => hmem k (hrecorded k hk) with
      ⟨-, r', w'', order, hres', hsteps, hatt⟩ | ⟨-, e, hfail⟩
    · cases hres.symm.trans hres'
      exact ⟨order, hsteps, hatt⟩
    · rw [hfail] at hres
      cases hres

variable {A : AddrSource} {K : KeySource} {P : State N E → Op N E → Prop} {s : State N E}

/-- **Detaching and attaching again**, in every state of every run, wherever `attach` returns: the
result has the hash of the object, it is detached to the same records, and it is made of the given
objects and of new ones, of which there is one for each hash. -/
theorem attach_detach_of_run (hrun : Run A K P State.init s)
    (hfree : s.world.heap.CollisionFree hash) {obj : Ref} (hobj : s.world.heap.Alive obj)
    {detachFrom : Finset H} {attachTo : List Ref} (hto : nodeHandles attachTo ≤ s.handles)
    {d : Detached N E H} (hd : s.world.heap.detach hash detachFrom obj = some d) {r : Ref}
    {w' : World N E} (hres : s.world.attach A hash d attachTo = .ok (r, w')) :
    w'.heap.hashId hash r = s.world.heap.hashId hash obj ∧
    w'.heap.detach hash detachFrom r = some d ∧
    ∀ x, UpTo hash w'.heap (attachTo.map (s.world.heap.hashId hash)) r x →
      (w'.heap.hashId hash x ∈ attachTo.map (s.world.heap.hashId hash) → x ∈ attachTo) ∧
      (w'.heap.hashId hash x ∉ attachTo.map (s.world.heap.hashId hash) →
        s.world.heap.size ≤ x ∧ x < w'.heap.size ∧
          ∀ y, s.world.heap.size ≤ y → y < w'.heap.size →
            w'.heap.hashId hash y = w'.heap.hashId hash x → y = x) := by
  have hi : Inv s.world s.held s.regs := Run.inv hrun State.inv_init
  obtain ⟨d₀, hd₀, hr⟩ := hi.heap.detach_records hash hobj detachFrom
  obtain ⟨d₁, hd₁, hexact⟩ := hi.heap.detach_exact hfree hobj detachFrom
  obtain rfl : d₀ = d := Option.some.inj (hd₀.symm.trans hd)
  obtain rfl : d₁ = d₀ := Option.some.inj (hd₁.symm.trans hd)
  rw [State.held_of_le hto] at hi
  obtain ⟨order, hsteps, hatt⟩ := attach_ok A K (fun _ => True) hi hfree hr hres
  have hi' := Steps.inv hsteps hi
  -- all that relates the two memories
  have hb : Reattached hash s.world w' _ _ detachFrom obj d₁
      (attachMap hash s.world.heap attachTo).1 r order := {
    before := hi.heap
    after := hi'.heap
    frame := Steps.frame hsteps hi
    records := hr
    given := fun k x hx => by
      obtain ⟨hmem, hkey⟩ := attachMap_getElem? hx
      exact ⟨hi.heap.alive_of_held (Multiset.mem_add.mpr (Or.inl hmem)), hkey⟩
    alive := hi'.heap.alive_of_held (Multiset.mem_cons_self r _)
    attached := hatt }
  have hkey := hb.hashId_result
  refine ⟨hkey, ?_, fun x hx => ?_⟩
  · obtain ⟨d', hd', hexact'⟩ :=
      hi'.heap.detach_exact (hb.collisionFree hfree) hb.alive detachFrom
    rw [hd', hexact.eq_of_agree hexact' hi.heap hi'.heap (hb.agree hfree) hobj hb.alive hkey.symm]
  · rcases hb.upTo (fun k hk => mem_attachMap.mp hk) hx with hgiven | ⟨i, hget, rfl⟩
    · refine ⟨fun _ => (attachMap_getElem? hgiven).1, fun hnot => ?_⟩
      exact absurd (mem_attachMap.mp (mem_iff_exists.mpr ⟨_, hgiven⟩)) hnot
    · have hlt : s.world.heap.size + i < w'.heap.size := hi'.heap.alive_lt _ (hb.alive_new hget)
      have hle : s.world.heap.size ≤ s.world.heap.size + i := Nat.le_add_right _ _
      refine ⟨fun hmem => absurd (mem_attachMap.mpr hmem) (hb.notMem_of_get hget),
        fun _ => ⟨hle, hlt, fun y hy hy' heq => ?_⟩⟩
      exact hb.eq_of_hashId hle hlt hy hy' heq

/-- The bottom of the diamond, rebuilt on the copy of the root and the left side. -/
theorem attach_detach_of_run_twoDiamonds :
    ∃ d r w', twoDiamonds.world.heap.detach pairHash {2, 3251} 3 = some d ∧
      twoDiamonds.world.attach AddrSource.lowest pairHash d [4, 5] = .ok (r, w') ∧
      w'.heap.hashId pairHash r = twoDiamonds.world.heap.hashId pairHash 3 ∧
      w'.heap.detach pairHash {2, 3251} r = some d := by
  have hrun : Run _ _ (fun _ _ => True) State.init twoDiamonds :=
    run_after (by decide +kernel) fun _ _ _ => trivial
  have hi : Inv twoDiamonds.world twoDiamonds.held twoDiamonds.regs := Run.inv hrun State.inv_init
  have hobj : twoDiamonds.world.heap.Alive 3 := by decide +kernel
  have hhandles : nodeHandles [4, 5] ≤ twoDiamonds.handles := by decide +kernel
  have hcall : ((twoDiamonds.world.heap.detach pairHash {2, 3251} 3).bind fun d =>
      (twoDiamonds.world.attach AddrSource.lowest pairHash d [4, 5]).toOption).isSome := by
    decide +kernel
  obtain ⟨res, hres⟩ := Option.isSome_iff_exists.mp hcall
  obtain ⟨d, hd, hres⟩ := Option.bind_eq_some_iff.mp hres
  obtain ⟨r, w'⟩ := res
  have hok : twoDiamonds.world.attach AddrSource.lowest pairHash d [4, 5] = .ok (r, w') := by
    cases hattach : twoDiamonds.world.attach AddrSource.lowest pairHash d [4, 5] with
    | error e =>
      rw [hattach] at hres
      cases hres
    | ok p =>
      rw [hattach] at hres
      cases hres
      rfl
  obtain ⟨hkey, hdetach, -⟩ :=
    attach_detach_of_run hrun (pairHash_collisionFree hi.heap) hobj hhandles hd hok
  exact ⟨d, r, w', hd, hok, hkey, hdetach⟩

end Relrc
