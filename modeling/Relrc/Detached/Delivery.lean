import Relrc.Detached.Foreign

/-!
# Delivery

What the receiver of a transfer ends up with. The records that have arrived are those that
`detach` would have made, had the sender known what the receiver has. `attach` then succeeds if and
only if it would succeed at the sender (`Rebuildable`), and the node that it returns stands for the
object that was sent: it has the same hash and is detached alike from **every** set of hashes
(`delivery_of_run`).

The two memories are those of two programs. A record carries its own proof: its hash is that of its
value and edges (`Detached.Certified`), so an object that is assembled from records has the hash
under which it was recorded, whatever memory it is assembled in.
-/

namespace Relrc

open Std (ExtTreeMap)
open SlotStore OrderedMap Ancestry Fallible PostOrder

variable {N E H : Type} [LinearOrder H] [Inhabited H] {hash : N → List (H × E) → H}

/-! ### Certified records -/

/-- Each record stands under the hash of its value and edges. -/
def Detached.Certified (hash : N → List (H × E) → H) (d : Detached N E H) : Prop :=
  ∀ (k : H) data, d.allData[k]? = some data → hash data.value data.incoming = k

/-- The hashes in a record of live nodes are those that the record itself gives. -/
theorem Records.certified {h : Heap N E} {held : Multiset Ref} {detachFrom : Finset H} {obj : Ref}
    {d : Detached N E H} (hr : Records hash h detachFrom obj d) (hi : HeapInv h held) :
    d.Certified hash := by
  intro k data hk
  obtain ⟨-, r, -, hkey, hvalue, hedges⟩ := hr.sound k data hk
  have hown : h.hashId hash r = hash data.value (h.edgeHashes hash r) := hi.hashId_eq hvalue
  rw [hedges, ← hown, hkey]

/-! ### What was assembled -/

section Assembling

variable {w w' : World N E} {held held' : Multiset Ref} {d : Detached N E H} {m : ExtTreeMap H Ref}
variable {r : Ref} {order : List H}

/-- The two memories before and after certified records were assembled. -/
structure Assembling (hash : N → List (H × E) → H) (w w' : World N E) (held held' : Multiset Ref)
    (d : Detached N E H) (m : ExtTreeMap H Ref) (r : Ref) (order : List H) : Prop where
  before : HeapInv w.heap held
  after : HeapInv w'.heap held'
  frame : Frame w w'
  certified : d.Certified hash
  given : ∀ (k : H) x, m[k]? = some x → w.heap.Alive x ∧ w.heap.hashId hash x = k
  alive : w'.heap.Alive r
  assembled : Assembled d m w w' r order

namespace Assembling

variable (hb : Assembling hash w w' held held' d m r order)

include hb

/-- Given objects keep their hashes. -/
theorem hashId_given {k : H} {x : Ref} (hx : m[k]? = some x) (halive : w'.heap.Alive x) :
    w'.heap.hashId hash x = k := by
  obtain ⟨hold, hkey⟩ := hb.given k x hx
  rw [hb.frame.hashId hb.before hb.after x (hb.before.alive_lt x hold) halive, hkey]

/-- **An assembled object** has the hash under which it is recorded, and the edges of the record. -/
theorem hashId_new (i : ℕ) : ∀ k data, order[i]? = some k → d.allData[k]? = some data →
    w'.heap.hashId hash (w.heap.size + i) = k ∧
      w'.heap.value (w.heap.size + i) = some data.value ∧
      w'.heap.edgeHashes hash (w.heap.size + i) = data.incoming := by
  induction i using Nat.strong_induction_on with
  | _ i ih =>
    intro k data hget hdata
    obtain ⟨data', hdata', hvalue, hedges⟩ := hb.assembled.node i k hget
    obtain rfl : data' = data := Option.some.inj (hdata'.symm.trans hdata)
    -- a parent is given, with its hash as the key, or was created before
    have hedge : ∀ e pe, e ∈ w'.heap.allIncoming (w.heap.size + i) ∧ e.value = (pe : H × E).2 ∧
        Placed m w.heap.size order i pe.1 e.source →
          (w'.heap.hashId hash e.source, e.value) = pe := by
      rintro e pe ⟨he, hval, hplace | ⟨j, hj, hplace, hsource⟩⟩
      · have halive : w'.heap.Alive e.source := hb.after.parent_alive (List.mem_map_of_mem he)
        exact Prod.ext (hb.hashId_given hplace halive) hval
      · obtain ⟨dataj, hdataj, -⟩ := hb.assembled.node j pe.1 hplace
        refine Prod.ext ?_ hval
        rw [hsource]
        exact (ih j hj pe.1 dataj hplace hdataj).1
    have hincoming : w'.heap.edgeHashes hash (w.heap.size + i) = data'.incoming := by
      have hmem : ∀ e ∈ w'.heap.allIncoming (w.heap.size + i),
          e ∈ w'.heap.allIncoming (w.heap.size + i) := fun _ he => he
      have hall := (List.forall₂_and_left _ _).mpr ⟨hmem, hedges.flip⟩
      have hmap : List.Forall₂ Eq (w'.heap.edgeHashes hash (w.heap.size + i)) data'.incoming :=
        List.forall₂_map_left_iff.mpr (hall.imp hedge)
      rwa [List.forall₂_eq_eq_eq] at hmap
    refine ⟨?_, hvalue, hincoming⟩
    rw [hb.after.hashId_eq hvalue, hincoming, hb.certified k data' hdata]

/-- A created object has the hash under which it was recorded. -/
theorem hashId_of_get {i : ℕ} {k : H} (hget : order[i]? = some k) :
    w'.heap.hashId hash (w.heap.size + i) = k := by
  obtain ⟨data, hdata, -⟩ := hb.assembled.node i k hget
  exact (hb.hashId_new i k data hget hdata).1

/-- The result has the hash that was asked for. -/
theorem hashId_result : w'.heap.hashId hash r = d.current := by
  rcases hb.assembled.result with hr | ⟨i, hget, rfl⟩
  · exact hb.hashId_given hr hb.alive
  · exact hb.hashId_of_get hget

/-- A node has been there before, unchanged, or was made from the record of its hash. -/
theorem old_or_recorded {x : Ref} (hx : w'.heap.Alive x) :
    (w.heap.Alive x ∧ w'.heap.hashId hash x = w.heap.hashId hash x ∧
      w'.heap.value x = w.heap.value x ∧
      w'.heap.edgeHashes hash x = w.heap.edgeHashes hash x) ∨
    ∃ data, d.allData[w'.heap.hashId hash x]? = some data ∧ w'.heap.value x = some data.value ∧
      w'.heap.edgeHashes hash x = data.incoming := by
  by_cases hlt : x < w.heap.size
  · exact Or.inl ⟨hb.frame.alive x hlt hx, hb.frame.hashId hb.before hb.after x hlt hx,
      hb.frame.value x hlt hx, hb.frame.edgeHashes hb.before hb.after hlt hx⟩
  · obtain ⟨i, rfl⟩ := Nat.exists_eq_add_of_le (Nat.le_of_not_lt hlt)
    have hsize := hb.after.alive_lt _ hx
    rw [hb.assembled.size] at hsize
    have hget := List.getElem?_eq_getElem (Nat.lt_of_add_lt_add_left hsize)
    obtain ⟨data, hdata, -⟩ := hb.assembled.node i _ hget
    obtain ⟨hkey, hvalue, hedges⟩ := hb.hashId_new i _ data hget hdata
    exact Or.inr ⟨data, hkey.symm ▸ hdata, hvalue, hedges⟩

variable {h : Heap N E} {held₀ : Multiset Ref} {obj : Ref} {d₀ : Detached N E H}

/-- A node has a twin with the same hash, value and edges, in the receiver's memory before, or in
the memory that the records come from. -/
theorem exists_twin (hr : Records hash h ∅ obj d₀)
    (hsub : ∀ (k : H) data, d.allData[k]? = some data → d₀.allData[k]? = some data) {x : Ref}
    (hx : w'.heap.Alive x) :
    (∃ y, w.heap.Alive y ∧ w'.heap.hashId hash x = w.heap.hashId hash y ∧
      w'.heap.value x = w.heap.value y ∧ w'.heap.edgeHashes hash x = w.heap.edgeHashes hash y) ∨
    ∃ y, h.Alive y ∧ w'.heap.hashId hash x = h.hashId hash y ∧
      w'.heap.value x = h.value y ∧ w'.heap.edgeHashes hash x = h.edgeHashes hash y := by
  rcases hb.old_or_recorded hx with hold | ⟨data, hdata, hvalue, hedges⟩
  · exact Or.inl ⟨x, hold⟩
  · obtain ⟨-, y, hy, hkey, hvalue', hedges'⟩ := hr.sound _ data (hsub _ data hdata)
    exact Or.inr ⟨y, hy, hkey.symm, hvalue.trans hvalue'.symm, hedges.trans hedges'⟩

/-- The sender's nodes agree with those of the receiver after assembling. -/
theorem agree (hr : Records hash h ∅ obj d₀)
    (hsub : ∀ (k : H) data, d.allData[k]? = some data → d₀.allData[k]? = some data)
    (hfree : h.CollisionFree hash) (hagree : h.Agree hash w.heap) : h.Agree hash w'.heap := by
  intro a b ha hb' heq
  rcases hb.exists_twin hr hsub hb' with
    ⟨y, hy, hkey, hvalue, hedges⟩ | ⟨y, hy, hkey, hvalue, hedges⟩
  · obtain ⟨hv, he⟩ := hagree a y ha hy (heq.trans hkey)
    exact ⟨hv.trans hvalue.symm, he.trans hedges.symm⟩
  · obtain ⟨hv, he⟩ := hfree a y ha hy (heq.trans hkey)
    exact ⟨hv.trans hvalue.symm, he.trans hedges.symm⟩

/-- The receiver's nodes before agree with those after. -/
theorem agree_before (hr : Records hash h ∅ obj d₀)
    (hsub : ∀ (k : H) data, d.allData[k]? = some data → d₀.allData[k]? = some data)
    (hfree' : w.heap.CollisionFree hash) (hagree : h.Agree hash w.heap) :
    w.heap.Agree hash w'.heap := by
  intro a b ha hb' heq
  rcases hb.exists_twin hr hsub hb' with
    ⟨y, hy, hkey, hvalue, hedges⟩ | ⟨y, hy, hkey, hvalue, hedges⟩
  · obtain ⟨hv, he⟩ := hfree' a y ha hy (heq.trans hkey)
    exact ⟨hv.trans hvalue.symm, he.trans hedges.symm⟩
  · obtain ⟨hv, he⟩ := hagree.symm a y ha hy (heq.trans hkey)
    exact ⟨hv.trans hvalue.symm, he.trans hedges.symm⟩

/-- The assembled objects bring no collisions. -/
theorem collisionFree (hr : Records hash h ∅ obj d₀)
    (hsub : ∀ (k : H) data, d.allData[k]? = some data → d₀.allData[k]? = some data)
    (hfree : h.CollisionFree hash) (hfree' : w.heap.CollisionFree hash)
    (hagree : h.Agree hash w.heap) : w'.heap.CollisionFree hash := by
  intro a b ha hb' heq
  rcases hb.exists_twin hr hsub ha with
    ⟨y, hy, hkey, hvalue, hedges⟩ | ⟨y, hy, hkey, hvalue, hedges⟩
  · obtain ⟨hv, he⟩ := hb.agree_before hr hsub hfree' hagree y b hy hb' (hkey.symm.trans heq)
    exact ⟨hvalue.trans hv, hedges.trans he⟩
  · obtain ⟨hv, he⟩ := hb.agree hr hsub hfree hagree y b hy hb' (hkey.symm.trans heq)
    exact ⟨hvalue.trans hv, hedges.trans he⟩

end Assembling

end Assembling

/-! ### What was transferred -/

/-- The receiver has the sender's records of the object and of every parent of one of them that is
not given. -/
structure Delivered (d : Detached N E H) (m : ExtTreeMap H Ref) (det : Detached N E H) : Prop where
  current : det.current = d.current
  mem_iff : ∀ k, k ∈ det.allData ↔ Reaches (d.missing m) d.current k
  record : ∀ k ∈ det.allData, det.allData[k]? = d.allData[k]?
  attachesTo : det.attachesTo m = true

section Transferring

variable {h : Heap N E} {held : Multiset Ref} {obj : Ref} {d det : Detached N E H}
variable {m : ExtTreeMap H Ref} {x : Exchange N E H}

omit [Inhabited H] in
/-- At the end of a transfer the object has been delivered. -/
theorem Exchange.Transferred.delivered (ht : Exchange.Transferred d m x det) : Delivered d m det :=
  ⟨ht.current, ht.mem_iff, ht.record, ht.attachesTo⟩

/-- Nothing is cut off at the sender, so its records have the parents that its heap has. -/
theorem Records.missing_eq (hr : Records hash h ∅ obj d) (hi : HeapInv h held)
    (hfree : h.CollisionFree hash) {k : H} (hk : k ∈ d.allData) :
    d.missing m k = missingParents hash h m k := by
  obtain ⟨data, hdata⟩ := mem_iff_exists.mp hk
  rw [Detached.missing_eq hdata, hr.parents_filter hi hfree hdata]

namespace Delivered

omit [Inhabited H] in
/-- Nothing was made up on the way. -/
theorem record_of (ht : Delivered d m det) {k : H} {data : DetachedInnerData N E H}
    (hk : det.allData[k]? = some data) : d.allData[k]? = some data := by
  rw [← ht.record k (mem_iff_exists.mpr ⟨data, hk⟩), hk]

omit [Inhabited H] in
/-- The receiver misses what the sender would miss in its place. -/
theorem missing_eq (ht : Delivered d m det) {k : H} (hk : k ∈ det.allData) :
    det.missing m k = d.missing m k := by
  rw [Detached.missing, Detached.missing, ht.record k hk]

/-- What is missing for the receiver is what is missing at the sender. -/
theorem reached_eq (ht : Delivered d m det) (hr : Records hash h ∅ obj d)
    (hi : HeapInv h held) (hfree : h.CollisionFree hash) :
    (∀ k, Reaches (missingParents hash h m) d.current k → k ∈ det.allData) ∧
      reached (det.missing m) d.current = reached (missingParents hash h m) d.current := by
  have hroot : d.current ∈ det.allData := (ht.mem_iff _).mpr (Reaches.refl _)
  have hparents : ∀ k ∈ det.allData, det.missing m k = missingParents hash h m k ∧
      d.missing m k = missingParents hash h m k := by
    intro k hk
    obtain ⟨data, hdata⟩ := mem_iff_exists.mp hk
    have heq : d.missing m k = missingParents hash h m k :=
      hr.missing_eq hi hfree (mem_iff_exists.mpr ⟨data, ht.record_of hdata⟩)
    exact ⟨(ht.missing_eq hk).trans heq, heq⟩
  have hmem : ∀ k, Reaches (missingParents hash h m) d.current k → k ∈ det.allData := by
    intro k hk
    refine Reaches.mem_of_closed (S := fun k => k ∈ det.allData) (fun y hy p hp => ?_) hroot hk
    rw [← (hparents y hy).2] at hp
    exact (ht.mem_iff p).mpr (((ht.mem_iff y).mp hy).tail hp)
  exact ⟨hmem, reached_congr fun k hk => (hparents k (hmem k hk)).1⟩

/-- **Attaching what was transferred** is possible if and only if it would be at the sender. -/
theorem attachable_iff (ht : Delivered d m det) (hr : Records hash h ∅ obj d)
    (hi : HeapInv h held) (hfree : h.CollisionFree hash) :
    det.Attachable m ↔ Rebuildable hash h obj ∅ m := by
  obtain ⟨hmem, hreached⟩ := ht.reached_eq hr hi hfree
  have hclear : (∀ u, ClearAt (det.missing m) u d.current) ↔
      ∀ u, ClearAt (missingParents hash h m) u d.current := by
    refine forall_congr' fun u => ?_
    rw [← clearAt_reached, hreached, clearAt_reached]
  have hcycles : ∀ k, Reaches (det.missing m) d.current k → k ∈ det.allData ∧
      ¬ Relation.TransGen (fun x y => y ∈ det.missing m x) k k := by
    have hac : Acyclic (reached (det.missing m) d.current) := by
      rw [hreached, acyclic_reached_iff]
      exact fun k _ => acyclic_of_rank (missingParents_lt hi) k
    intro k hk
    refine ⟨hmem k ?_, acyclic_reached_iff.mp hac k hk⟩
    rw [← reaches_reached (Reaches.refl _), ← hreached]
    exact (reaches_reached (Reaches.refl _)).mpr hk
  rw [Detached.Attachable, Rebuildable, ht.current, ← hr.current, hclear,
    and_iff_right (Finset.notMem_empty _)]
  exact or_congr_right (and_iff_right (by simpa using hcycles))

end Delivered

/-- What is missing is what is not cut off, if the given objects are the cut. -/
theorem Records.reaches_missing_iff (hr : Records hash h ∅ obj d) (hi : HeapInv h held)
    (hfree : h.CollisionFree hash) (hobj : h.Alive obj) (hroot : d.current ∉ m) {k : H} :
    Reaches (d.missing m) d.current k ↔
      ∃ r, Uncut hash h m.keys.toFinset obj r ∧ h.hashId hash r = k := by
  have hcut : ∀ k, k ∈ m.keys.toFinset ↔ k ∈ m := fun k => by
    rw [List.mem_toFinset, ExtTreeMap.mem_keys]
  have hcomplete := hr.complete
  constructor
  · intro hk
    induction hk with
    | refl => exact ⟨obj, .root (by rw [hcut, ← hr.current]; exact hroot), hr.current.symm⟩
    | @tail k p _ hp ih =>
      obtain ⟨r, hu, rfl⟩ := ih
      obtain ⟨data, hdata, hparent, hpm⟩ := (d.mem_missing m).mp hp
      obtain ⟨-, r', hr', hkey, -, hedges⟩ := hr.sound _ data hdata
      rw [DetachedInnerData.parents, hedges, (hfree r' r hr' (hu.alive hi hobj) hkey).2,
        Heap.map_fst_edgeHashes] at hparent
      obtain ⟨q, hq, rfl⟩ := List.mem_map.mp hparent
      exact ⟨q, hu.parent hq (by rwa [hcut]), rfl⟩
  · rintro ⟨r, hu, rfl⟩
    have hall : h.hashId hash r ∈ d.allData ∧
        Reaches (d.missing m) d.current (h.hashId hash r) := by
      induction hu with
      | root _ => exact ⟨hr.current ▸ hcomplete.root, hr.current ▸ Reaches.refl _⟩
      | @parent r p hu hp hout ih =>
        obtain ⟨data, hdata⟩ := mem_iff_exists.mp ih.1
        obtain ⟨-, r', hr', hkey, -, hedges⟩ := hr.sound _ data hdata
        have hparent : h.hashId hash p ∈ data.parents := by
          rw [DetachedInnerData.parents, hedges, (hfree r' r hr' (hu.alive hi hobj) hkey).2,
            Heap.map_fst_edgeHashes]
          exact List.mem_map_of_mem hp
        rw [hcut] at hout
        exact ⟨hcomplete.closed _ data hdata _ hparent,
          ih.2.tail ((d.mem_missing m).mpr ⟨data, hdata, hparent, hout⟩)⟩
    exact hall.2

/-- **The protocol sends what `detach` would have recorded**, had it been told what the receiver
has. -/
theorem Delivered.detach_eq (ht : Delivered d m det) (hr : Records hash h ∅ obj d)
    (hi : HeapInv h held) (hfree : h.CollisionFree hash) (hobj : h.Alive obj)
    (hroot : d.current ∉ m) : h.detach hash m.keys.toFinset obj = some det := by
  obtain ⟨d', hd', hexact⟩ := hi.detach_exact hfree hobj m.keys.toFinset
  have hcurrent : d'.current = det.current := by rw [hexact.current, ht.current, hr.current]
  have hdata : d'.allData = det.allData := by
    refine ExtTreeMap.ext_getElem? fun k => Option.ext fun data => ?_
    rw [hexact.record_iff]
    constructor
    · rintro ⟨r, hu, rfl, hvalue, hedges⟩
      have hmem : h.hashId hash r ∈ det.allData :=
        (ht.mem_iff _).mpr ((hr.reaches_missing_iff hi hfree hobj hroot).mpr ⟨r, hu, rfl⟩)
      obtain ⟨data', hdata'⟩ := mem_iff_exists.mp hmem
      obtain ⟨-, r', hr', hkey, hvalue', hedges'⟩ := hr.sound _ data' (ht.record_of hdata')
      obtain ⟨hv, he⟩ := hfree r' r hr' (hu.alive hi hobj) hkey
      have hval : data'.value = data.value :=
        Option.some.inj (hvalue'.symm.trans (hv.trans hvalue))
      have hinc : data'.incoming = data.incoming := hedges'.trans (he.trans hedges.symm)
      cases data'
      cases data
      simp only at hval hinc
      rw [hdata', hval, hinc]
    · intro hk
      have hreach := (ht.mem_iff k).mp (mem_iff_exists.mpr ⟨data, hk⟩)
      obtain ⟨r, hu, hkey⟩ := (hr.reaches_missing_iff hi hfree hobj hroot).mp hreach
      obtain ⟨-, r', hr', hkey', hvalue', hedges'⟩ := hr.sound _ data (ht.record_of hk)
      obtain ⟨hv, he⟩ := hfree r r' (hu.alive hi hobj) hr' (hkey.trans hkey'.symm)
      exact ⟨r, hu, hkey, hv.trans hvalue', hedges'.trans he.symm⟩
  rw [hd']
  cases d'
  cases det
  simp only at hcurrent hdata
  rw [hcurrent, hdata]

end Transferring

/-! ### The end of the call -/

section Receiving

variable {A : AddrSource} {K : KeySource} {ok : Access → Prop} {w w' w'' : World N E}
variable {held H₀ : Multiset Ref} {G : Multiset RegRef} {d : Detached N E H}
variable {m : ExtTreeMap H Ref} {r : Ref} {order : List H} {attachTo : List Ref}

/-- What a map by hash has as values is given again. -/
theorem attachMap_valuesOf {h : Heap N E}
    (hkey : ∀ (k : H) x, m[k]? = some x → h.hashId hash x = k) :
    attachMap hash h (valuesOf m) = (m, []) := by
  have hfst : (attachMap hash h (valuesOf m)).1 = m := by
    refine ExtTreeMap.ext_getElem? fun k => ?_
    have hmem : k ∈ (attachMap hash h (valuesOf m)).1 ↔ k ∈ m := by
      rw [mem_attachMap, List.mem_map, mem_iff_exists]
      simp only [mem_valuesOf]
      constructor
      · rintro ⟨x, ⟨k', hx⟩, rfl⟩
        exact ⟨x, hkey k' x hx ▸ hx⟩
      · rintro ⟨x, hx⟩
        exact ⟨x, ⟨k, hx⟩, hkey k x hx⟩
    cases hk : (attachMap hash h (valuesOf m)).1[k]? with
    | some x =>
      obtain ⟨hx, rfl⟩ := attachMap_getElem? hk
      obtain ⟨k', hx⟩ := mem_valuesOf.mp hx
      rw [hkey k' x hx, hx]
    | none =>
      symm
      rw [← Option.not_isSome_iff_eq_none, ExtTreeMap.isSome_getElem?_iff_mem, ← hmem,
        ← ExtTreeMap.isSome_getElem?_iff_mem, hk]
      simp
  have hsnd := attachMap_balance hash h (valuesOf m)
  rw [hfst] at hsnd
  exact Prod.ext hfst (Multiset.coe_eq_zero _ |>.mp (add_eq_right.mp hsnd))

omit [Inhabited H] in
/-- What the result needs is still alive after other references are dropped. -/
theorem Assembled.alive_of_frame (h : Assembled d m w w'' r order) (hi : HeapInv w'.heap held)
    (hf : Frame w'' w') (hr : w'.heap.Alive r) {i : ℕ} {k : H} (hget : order[i]? = some k) :
    w'.heap.Alive (w.heap.size + i) := by
  obtain ⟨hnot, hk⟩ := (h.mem_iff k).mp (List.mem_of_getElem? hget)
  have hold : ∀ {j : ℕ} {k : H}, order[j]? = some k → w.heap.size + j < w''.heap.size := by
    intro j k hj
    rw [h.size]
    exact Nat.add_lt_add_left (List.getElem?_eq_some_iff.mp hj).1 _
  have halive : ∃ j, order[j]? = some k ∧ w'.heap.Alive (w.heap.size + j) := by
    clear hget
    induction hk with
    | refl =>
      rcases h.result with hgiven | ⟨j, hj, rfl⟩
      · exact absurd (mem_iff_exists.mpr ⟨r, hgiven⟩) hnot
      · exact ⟨j, hj, hr⟩
    | @tail k p _ hp ih =>
      obtain ⟨j, hj, halive⟩ := ih
      obtain ⟨data, hdata, -, hedges⟩ := h.node j k hj
      rw [Detached.missing_eq hdata] at hp
      obtain ⟨hparent, hpm⟩ := List.mem_filter.mp hp
      obtain ⟨pe, hpe, rfl⟩ := List.mem_map.mp hparent
      obtain ⟨e, he, -, hplace⟩ := exists_of_forall₂ hedges hpe
      obtain ⟨l, -, hl, hsource⟩ := hplace.resolve_left fun hgiven =>
        not_contains_iff.mp hpm (mem_iff_exists.mpr ⟨_, hgiven⟩)
      rw [← hf.allIncoming _ (hold hj) halive] at he
      have hmem : e.source ∈ w'.heap.allParents (w.heap.size + j) := List.mem_map_of_mem he
      exact ⟨l, hl, hsource ▸ hi.parent_alive hmem⟩
  obtain ⟨j, hj, halive⟩ := halive
  have hlt := (List.getElem?_eq_some_iff.mp hget).1
  rwa [(List.getElem?_inj hlt h.nodup).mp (hget.trans hj.symm)]

omit [Inhabited H] in
/-- What was assembled stays, when other nodes are dropped. -/
theorem Assembled.of_frame (h : Assembled d m w w'' r order) (hi : HeapInv w'.heap held)
    (hf : Frame w'' w') (hsize : w'.heap.size = w''.heap.size) (hr : w'.heap.Alive r) :
    Assembled d m w w' r order where
  nodup := h.nodup
  mem_iff := h.mem_iff
  size := hsize.trans h.size
  node i k hget := by
    obtain ⟨data, hdata, hvalue, hedges⟩ := h.node i k hget
    have halive := h.alive_of_frame hi hf hr hget
    have hlt : w.heap.size + i < w''.heap.size := hsize ▸ hi.alive_lt _ halive
    rw [← hf.value _ hlt halive] at hvalue
    rw [← hf.allIncoming _ hlt halive] at hedges
    exact ⟨data, hdata, hvalue, hedges⟩
  result := h.result

/-- **The two outcomes** of attaching what was received to the objects given at the beginning. -/
theorem attachReceived_cases (hash : N → List (H × E) → H) (A : AddrSource) (K : KeySource)
    (ok : Access → Prop) (hi : Inv w ((attachTo : Multiset Ref) + H₀) G) (d : Detached N E H) :
    (d.Attachable (attachMap hash w.heap attachTo).1 ∧
      ∃ r w' order, (w.dropAll (attachMap hash w.heap attachTo).2).attachReceived A hash d
          (attachMap hash w.heap attachTo).1 = .ok (r, w') ∧
        Steps A K ok ⟨w, (attachTo : Multiset Ref) + H₀, G⟩ ⟨w', r ::ₘ H₀, G⟩ ∧
        Assembled d (attachMap hash w.heap attachTo).1 w w' r order) ∨
    ¬ d.Attachable (attachMap hash w.heap attachTo).1 ∧
      ∃ e, (w.dropAll (attachMap hash w.heap attachTo).2).attachReceived A hash d
          (attachMap hash w.heap attachTo).1 = .error e := by
  have hdisplaced := steps_displaced hash A K ok hi
  have hi0 := Steps.inv hdisplaced hi
  have hf0 := Steps.frame hdisplaced hi
  have hsize0 := w.size_dropAll (attachMap hash w.heap attachTo).2
  have hgiven : ∀ (k : H) x, (attachMap hash w.heap attachTo).1[k]? = some x →
      w.heap.Alive x ∧ w.heap.hashId hash x = k := by
    intro k x hx
    obtain ⟨hmem, hkey⟩ := attachMap_getElem? hx
    exact ⟨hi.heap.alive_of_held (Multiset.mem_add.mpr (Or.inl hmem)), hkey⟩
  generalize (attachMap hash w.heap attachTo).1 = m at *
  generalize w.dropAll (attachMap hash w.heap attachTo).2 = w0 at *
  set w1 := w0.withHeap (w0.heap.incStrongAll (valuesOf m)) with hw1
  have halive0 : ∀ x ∈ valuesOf m, w0.heap.Alive x := fun x hx =>
    hi0.heap.alive_of_held (Multiset.mem_add.mpr (Or.inl hx))
  have hclone : Steps A K ok ⟨w0, (valuesOf m : Multiset Ref) + H₀, G⟩
      ⟨w1, (valuesOf m : Multiset Ref) + ((valuesOf m : Multiset Ref) + H₀), G⟩ :=
    steps_incStrongAll halive0
  have hi1 := Steps.inv hclone hi0
  have hf1 := hf0.trans (Steps.frame hclone hi0)
  have hsize1 : w1.heap.size = w.heap.size := by
    rw [hw1, World.heap_withHeap, Heap.incStrongAll_eq]
    exact hsize0
  -- the given objects have kept their hashes
  have hkey : ∀ (k : H) x, m[k]? = some x → w1.heap.hashId hash x = k := by
    intro k x hx
    obtain ⟨hold, hxk⟩ := hgiven k x hx
    have halive1 : w1.heap.Alive x := hi1.heap.alive_of_held
      (Multiset.mem_add.mpr (Or.inl (mem_valuesOf.mpr ⟨k, hx⟩)))
    rw [hf1.hashId hi.heap hi1.heap x (hi.heap.alive_lt x hold) halive1, hxk]
  have hmap := attachMap_valuesOf hkey
  rcases attach_any_cases hash A K ok hi1 d with
    ⟨hcond, r, w'', order, hres, hsteps, hatt⟩ | ⟨hcond, e, hfail, -⟩
  · rw [hmap] at hcond hatt
    have hi2 := Steps.inv hsteps hi1
    rw [← Multiset.add_cons] at hsteps hi2
    have hdrop : Steps A K ok _ ⟨w''.dropAll (valuesOf m), r ::ₘ H₀, G⟩ := steps_dropAll hi2
    have hi3 := Steps.inv hdrop hi2
    have hsize : (w''.dropAll (valuesOf m)).heap.size = w''.heap.size := World.size_dropAll _ _
    have hall := hatt.of_frame hi3.heap (Steps.frame hdrop hi2) hsize
      (hi3.heap.alive_of_held (Multiset.mem_cons_self r H₀))
    obtain ⟨hnodup, hmem, hsz, hnode, hresult⟩ := hall
    rw [hsize1] at hsz hnode hresult
    exact Or.inl ⟨hcond, r, _, order, bind_of_ok hres,
      ((hdisplaced.trans hclone).trans hsteps).trans hdrop, hnodup, hmem, hsz, hnode, hresult⟩
  · rw [hmap] at hcond
    exact Or.inr ⟨hcond, e, bind_of_error hfail⟩

end Receiving

/-! ### Delivery -/

variable {A B : AddrSource} {K L : KeySource} {P Q : State N E → Op N E → Prop}
variable {s t : State N E}

/-- **Attaching what was delivered**: it succeeds if and only if it would at the sender, and then
the result stands for the object that was sent. -/
theorem Delivered.attachReceived {obj : Ref} {attachTo : List Ref} {d det : Detached N E H}
    (ht : Delivered d (attachMap hash t.world.heap attachTo).1 det)
    (hr : Records hash s.world.heap ∅ obj d) (hi : s.Inv) (hi' : t.Inv)
    (hfree : s.world.heap.CollisionFree hash) (hfree' : t.world.heap.CollisionFree hash)
    (hagree : s.world.heap.Agree hash t.world.heap) (hobj : s.world.heap.Alive obj)
    (hto : nodeHandles attachTo ≤ t.handles) :
    ((∃ res, (t.world.dropAll (attachMap hash t.world.heap attachTo).2).attachReceived B hash det
        (attachMap hash t.world.heap attachTo).1 = .ok res) ↔
      Rebuildable hash s.world.heap obj ∅ (attachMap hash t.world.heap attachTo).1) ∧
    ∀ r w', (t.world.dropAll (attachMap hash t.world.heap attachTo).2).attachReceived B hash det
        (attachMap hash t.world.heap attachTo).1 = .ok (r, w') →
      w'.heap.hashId hash r = s.world.heap.hashId hash obj ∧
      (∀ cut, w'.heap.detach hash cut r = s.world.heap.detach hash cut obj) ∧
      ({ t with
        world := w'
        handles := .node r ::ₘ (t.handles - nodeHandles attachTo) } : State N E).Inv := by
  have hiff := ht.attachable_iff hr hi.heap hfree
  have hheld : Inv t.world t.held t.regs := hi'
  rw [State.held_of_le hto] at hheld
  rcases attachReceived_cases hash B KeySource.reusing (fun _ => True) hheld det with
    ⟨hcond, r, w', order, hres, hsteps, hatt⟩ | ⟨hcond, e, hfail⟩
  · refine ⟨iff_of_true ⟨_, hres⟩ (hiff.mp hcond), fun r₁ w₁ hres₁ => ?_⟩
    obtain ⟨rfl, rfl⟩ := Prod.mk.inj (Except.ok.inj (hres₁.symm.trans hres))
    have hi₁ := Steps.inv hsteps hheld
    -- all that relates the receiver's memory before and after
    have hb : Assembling hash t.world w₁ _ _ det (attachMap hash t.world.heap attachTo).1 r₁
        order := {
      before := hheld.heap
      after := hi₁.heap
      frame := Steps.frame hsteps hheld
      certified := fun k data hk => hr.certified hi.heap k data (ht.record_of hk)
      given := fun k y hy => by
        obtain ⟨hmem, hkey⟩ := attachMap_getElem? hy
        exact ⟨hheld.heap.alive_of_held (Multiset.mem_add.mpr (Or.inl hmem)), hkey⟩
      alive := hi₁.heap.alive_of_held (Multiset.mem_cons_self r₁ _)
      assembled := hatt }
    have hkey : w₁.heap.hashId hash r₁ = s.world.heap.hashId hash obj := by
      rw [hb.hashId_result, ht.current, hr.current]
    have hsub : ∀ (k : H) data, det.allData[k]? = some data → d.allData[k]? = some data :=
      fun k data hk => ht.record_of hk
    refine ⟨hkey, fun cut => ?_, ?_⟩
    · obtain ⟨d₀, hd₀, hexact⟩ := hi.heap.detach_exact hfree hobj cut
      obtain ⟨d₁, hd₁, hexact'⟩ :=
        hi₁.heap.detach_exact (hb.collisionFree hr hsub hfree hfree' hagree) hb.alive cut
      rw [hd₀, hd₁, hexact.eq_of_agree hexact' hi.heap hi₁.heap (hb.agree hr hsub hfree hagree) hobj
        hb.alive hkey.symm]
    · rw [State.Inv, State.config, State.held, Multiset.map_cons, Multiset.cons_add]
      exact hi₁
  · refine ⟨iff_of_false ?_ fun hcond' => hcond (hiff.mpr hcond'), fun r w' hres => ?_⟩
    · rintro ⟨res, hres⟩
      rw [hfail] at hres
      cases hres
    · rw [hfail] at hres
      cases hres

omit [LinearOrder H] in
/-- An injective hash has no collisions between two memories. -/
theorem HeapInv.agree {h h' : Heap N E} {held held' : Multiset Ref} (hi : HeapInv h held)
    (hi' : HeapInv h' held')
    (hinj : ∀ v l v' l', hash v l = hash v' l' → v = v' ∧ l = l') : h.Agree hash h' := by
  intro a b ha hb heq
  obtain ⟨v, hv⟩ := hi.exists_value ha
  obtain ⟨v', hv'⟩ := hi'.exists_value hb
  rw [hi.hashId_eq hv, hi'.hashId_eq hv'] at heq
  obtain ⟨rfl, hedges⟩ := hinj _ _ _ _ heq
  exact ⟨hv.trans hv'.symm, hedges⟩

/-- A program that has the left side of a diamond. -/
def leftSide : State ℕ ℕ :=
  State.init.after [.new 1, .withParents 2 [(0, 1)]]

end Relrc
