import Relrc.Detached.Attach

/-!
# Where an object is cut off

`ancestors_upto` works by hash: a node whose hash is recorded already is not looked at again, even
if it is another node, or the same one reached by another path. Nevertheless the records are
**exactly** those of the nodes that are reached from the object past no node of the cut
(`Uncut`, `HeapInv.detach_exact`): nodes with the same hash have the same parents by hash.

The hashes that `required_hashes` lists are those of the cut at which the paths end, so that
`attaches_to` asks for these and no others (`detach_of_run`).
-/

namespace Relrc

open Std (ExtTreeMap)
open SlotStore OrderedMap

variable {N E H : Type}

/-! ### Paths past the cut -/

section Paths

variable [Inhabited H] {hash : N → List (H × E) → H} {h : Heap N E} {held : Multiset Ref}
variable {detachFrom : Finset H} {obj : Ref}

/-- The node is reached from `obj` along parent edges by a path on which no node, first and last
included, has its hash in the cut. -/
inductive Uncut (hash : N → List (H × E) → H) (h : Heap N E) (detachFrom : Finset H) (obj : Ref) :
    Ref → Prop
  | root (hobj : h.hashId hash obj ∉ detachFrom) : Uncut hash h detachFrom obj obj
  | parent {r p : Ref} (hr : Uncut hash h detachFrom obj r) (hp : p ∈ h.allParents r)
      (hout : h.hashId hash p ∉ detachFrom) : Uncut hash h detachFrom obj p

/-- A path past the cut ends outside the cut. -/
theorem Uncut.notMem {r : Ref} (hr : Uncut hash h detachFrom obj r) :
    h.hashId hash r ∉ detachFrom := by
  cases hr with
  | root hobj => exact hobj
  | parent _ _ hout => exact hout

/-- Ancestors that are reached past the cut are live. -/
theorem Uncut.alive (hi : HeapInv h held) (hobj : h.Alive obj) {r : Ref}
    (hr : Uncut hash h detachFrom obj r) : h.Alive r := by
  cases hr with
  | root _ => exact hobj
  | parent _ hp _ => exact hi.parent_alive hp

end Paths

variable [LinearOrder H]

/-! ### Required objects -/

/-- `attaches_to` tells whether all required objects are there. -/
theorem Detached.attachesTo_iff_required {d : Detached N E H} {m : ExtTreeMap H Ref} :
    d.attachesTo m = true ↔ ∀ k ∈ d.requiredHashes, k ∈ m := by
  rw [Detached.attachesTo, List.all_eq_true]
  simp only [ExtTreeMap.contains_iff_mem]

theorem nodup_eraseDups {α : Type} [DecidableEq α] (l : List α) : l.eraseDups.Nodup := by
  induction hn : l.length using Nat.strong_induction_on generalizing l with
  | _ n ih =>
    cases l with
    | nil => exact List.nodup_nil
    | cons a l =>
      rw [List.length_cons] at hn
      rw [List.eraseDups_cons, List.nodup_cons, List.mem_eraseDups]
      have hlen := List.length_filter_le (fun b => !b == a) l
      exact ⟨by simp, ih _ (by omega) _ rfl⟩

variable [Inhabited H] {hash : N → List (H × E) → H} {h : Heap N E} {held : Multiset Ref}
variable {detachFrom : Finset H} {obj : Ref}

/-! ### The worklist -/

/-- What the worklist records is reached past no node of the cut. -/
theorem ancestorsUptoAux_uncut {n : ℕ} {stack : List Ref} {allNodes m : ExtTreeMap H Ref}
    (hstack : ∀ x ∈ stack, h.hashId hash x ∉ detachFrom → Uncut hash h detachFrom obj x)
    (hentry : ∀ (k : H) x, allNodes[k]? = some x →
      Uncut hash h detachFrom obj x ∧ h.hashId hash x = k)
    (hm : ancestorsUptoAux hash h detachFrom n stack allNodes = some m) :
    ∀ (k : H) x, m[k]? = some x → Uncut hash h detachFrom obj x ∧ h.hashId hash x = k := by
  induction n generalizing stack allNodes with
  | zero =>
    cases stack with
    | nil =>
      obtain rfl := Option.some.inj hm
      exact hentry
    | cons node stack => cases hm
  | succ n ih =>
    cases stack with
    | nil =>
      obtain rfl := Option.some.inj hm
      exact hentry
    | cons node stack =>
      have hrest : ∀ x ∈ stack, h.hashId hash x ∉ detachFrom → Uncut hash h detachFrom obj x :=
        fun x hx => hstack x (List.mem_cons_of_mem _ hx)
      rw [ancestorsUptoAux] at hm
      split_ifs at hm with hnew
      · -- the node is recorded, and its parents go onto the stack
        have hnode : Uncut hash h detachFrom obj node := hstack node List.mem_cons_self hnew.2
        refine ih (fun x hx hout => ?_) (fun k x hx => ?_) hm
        · rcases List.mem_append.mp hx with hx | hx
          · exact hnode.parent (List.mem_reverse.mp hx) hout
          · exact hrest x hx hout
        · rw [getElem?_insert_eq] at hx
          split_ifs at hx with heq
          · obtain rfl := Option.some.inj hx
            exact ⟨hnode, heq.symm⟩
          · exact hentry k x hx
      · exact ih hrest hentry hm

/-! ### The records -/

/-- The records are those of the nodes that are not cut off. -/
structure Exact (hash : N → List (H × E) → H) (h : Heap N E) (detachFrom : Finset H) (obj : Ref)
    (d : Detached N E H) : Prop where
  current : d.current = h.hashId hash obj
  record_iff : ∀ (k : H) data, d.allData[k]? = some data ↔
    ∃ r, Uncut hash h detachFrom obj r ∧ h.hashId hash r = k ∧ h.value r = some data.value ∧
      data.incoming = h.edgeHashes hash r

/-- Every record is the record of an ancestor that is reached past the cut. -/
theorem uncut_of_record {d : Detached N E H} (hd : h.detach hash detachFrom obj = some d) {k : H}
    {data : DetachedInnerData N E H} (hk : d.allData[k]? = some data) :
    ∃ r, Uncut hash h detachFrom obj r ∧ h.hashId hash r = k ∧ h.value r = some data.value ∧
      data.incoming = h.edgeHashes hash r := by
  obtain ⟨m, hm, rfl⟩ := Option.map_eq_some_iff.mp hd
  obtain ⟨n, hn, hvalue, hedges⟩ := getElem?_record.mp hk
  have hstack : ∀ x ∈ [obj], h.hashId hash x ∉ detachFrom → Uncut hash h detachFrom obj x := by
    intro x hx hout
    obtain rfl := List.mem_singleton.mp hx
    exact .root hout
  obtain ⟨hr, hkey⟩ := ancestorsUptoAux_uncut hstack (fun k x hx => by simp at hx) hm k n hn
  exact ⟨n, hr, hkey, hvalue, hedges⟩

/-- A node that is not cut off is recorded, possibly in the name of another one. -/
theorem Records.mem_of_uncut {d : Detached N E H} (hr : Records hash h detachFrom obj d)
    (hi : HeapInv h held) (hfree : h.CollisionFree hash) (hobj : h.Alive obj) {r : Ref}
    (hu : Uncut hash h detachFrom obj r) : h.hashId hash r ∈ d.allData := by
  induction hu with
  | root hout => exact hr.current ▸ hr.root.resolve_left (hr.current ▸ hout)
  | @parent r p hu hp hout ih =>
    obtain ⟨data, hdata⟩ := mem_iff_exists.mp ih
    obtain ⟨-, r', hr', hkey, -, hedges⟩ := hr.sound _ data hdata
    have hparents : data.parents = (h.allParents r).map (h.hashId hash) := by
      rw [DetachedInnerData.parents, hedges, (hfree r' r hr' (hu.alive hi hobj) hkey).2,
        Heap.map_fst_edgeHashes]
    have hmem : h.hashId hash p ∈ data.parents := hparents ▸ List.mem_map_of_mem hp
    exact (hr.closed _ data hdata _ hmem).resolve_left hout

/-- **Detaching cuts exactly at the given hashes.** -/
theorem HeapInv.detach_exact (hi : HeapInv h held) (hfree : h.CollisionFree hash)
    (hobj : h.Alive obj) (detachFrom : Finset H) :
    ∃ d, h.detach hash detachFrom obj = some d ∧ Exact hash h detachFrom obj d := by
  obtain ⟨d, hd, hr⟩ := hi.detach_records hash hobj detachFrom
  refine ⟨d, hd, hr.current, fun k data => ⟨uncut_of_record hd, ?_⟩⟩
  rintro ⟨r, hu, rfl, hvalue, hedges⟩
  obtain ⟨data', hdata'⟩ := mem_iff_exists.mp (hr.mem_of_uncut hi hfree hobj hu)
  obtain ⟨-, r', hr', hkey, hvalue', hedges'⟩ := hr.sound _ data' hdata'
  obtain ⟨hv, he⟩ := hfree r' r hr' (hu.alive hi hobj) hkey
  have hsame : data' = data := by
    have hval : data'.value = data.value :=
      Option.some.inj (hvalue'.symm.trans (hv.trans hvalue))
    have hinc : data'.incoming = data.incoming := hedges'.trans (he.trans hedges.symm)
    cases data'
    cases data
    simp only at hval hinc
    rw [hval, hinc]
  rw [hdata', hsame]

/-- The required hashes are those of the cut at which a path ends. -/
theorem Exact.mem_requiredHashes {d : Detached N E H} (hd : Exact hash h detachFrom obj d)
    (hi : HeapInv h held) (hobj : h.Alive obj) {k : H} :
    k ∈ d.requiredHashes ↔ k ∈ detachFrom ∧ ∃ r, Uncut hash h detachFrom obj r ∧
      ∃ p ∈ h.allParents r, h.hashId hash p = k := by
  simp only [Detached.requiredHashes, List.mem_eraseDups, List.mem_filter, List.mem_flatMap,
    mem_valuesOf, not_contains_iff]
  constructor
  · rintro ⟨⟨data, ⟨k', hk'⟩, hk⟩, hnot⟩
    obtain ⟨r, hu, -, -, hedges⟩ := (hd.record_iff k' data).mp hk'
    rw [DetachedInnerData.parents, hedges, Heap.map_fst_edgeHashes] at hk
    obtain ⟨p, hp, rfl⟩ := List.mem_map.mp hk
    refine ⟨?_, r, hu, p, hp, rfl⟩
    -- otherwise the parent would be recorded
    by_contra hout
    obtain ⟨value, hvalue⟩ := hi.exists_value (hi.parent_alive hp)
    exact hnot (mem_iff_exists.mpr ⟨⟨value, _⟩,
      (hd.record_iff _ _).mpr ⟨p, hu.parent hp hout, rfl, hvalue, rfl⟩⟩)
  · rintro ⟨hcut, r, hu, p, hp, rfl⟩
    obtain ⟨value, hvalue⟩ := hi.exists_value (hu.alive hi hobj)
    refine ⟨⟨⟨value, h.edgeHashes hash r⟩, ⟨h.hashId hash r, ?_⟩, ?_⟩, fun hmem => ?_⟩
    · exact (hd.record_iff _ _).mpr ⟨r, hu, rfl, hvalue, rfl⟩
    · rw [DetachedInnerData.parents, Heap.map_fst_edgeHashes]
      exact List.mem_map_of_mem hp
    · obtain ⟨data, hdata⟩ := mem_iff_exists.mp hmem
      obtain ⟨q, hq, hkey, -⟩ := (hd.record_iff _ data).mp hdata
      exact hq.notMem (hkey ▸ hcut)

variable {A : AddrSource} {K : KeySource} {P : State N E → Op N E → Prop} {s : State N E}

/-- **Detaching an object**, in every state of every run: the worklist comes to an end, there is one
record for each hash of a node that is not cut off, the required hashes are those of the cut at
which paths end, and `attaches_to` asks for these. -/
theorem detach_of_run (hrun : Run A K P State.init s) (hfree : s.world.heap.CollisionFree hash)
    {obj : Ref} (hobj : s.world.heap.Alive obj) (detachFrom : Finset H) :
    ∃ d, s.world.heap.detach hash detachFrom obj = some d ∧
      Exact hash s.world.heap detachFrom obj d ∧ d.requiredHashes.Nodup ∧
      (∀ k, k ∈ d.requiredHashes ↔ k ∈ detachFrom ∧
        ∃ r, Uncut hash s.world.heap detachFrom obj r ∧
          ∃ p ∈ s.world.heap.allParents r, s.world.heap.hashId hash p = k) ∧
      ∀ m : ExtTreeMap H Ref, d.attachesTo m = true ↔
        ∀ r, Uncut hash s.world.heap detachFrom obj r → ∀ p ∈ s.world.heap.allParents r,
          s.world.heap.hashId hash p ∈ detachFrom → s.world.heap.hashId hash p ∈ m := by
  have hi : Inv s.world s.held s.regs := Run.inv hrun State.inv_init
  obtain ⟨d, hd, hexact⟩ := hi.heap.detach_exact hfree hobj detachFrom
  have hmem : ∀ k, k ∈ d.requiredHashes ↔ k ∈ detachFrom ∧
      ∃ r, Uncut hash s.world.heap detachFrom obj r ∧
        ∃ p ∈ s.world.heap.allParents r, s.world.heap.hashId hash p = k := fun k =>
    hexact.mem_requiredHashes hi.heap hobj
  refine ⟨d, hd, hexact, nodup_eraseDups _, hmem, fun m => ?_⟩
  rw [Detached.attachesTo_iff_required]
  constructor
  · intro hall r hu p hp hcut
    exact hall _ ((hmem _).mpr ⟨hcut, r, hu, p, hp, rfl⟩)
  · intro hall k hk
    obtain ⟨hcut, r, hu, p, hp, rfl⟩ := (hmem k).mp hk
    exact hall r hu p hp hcut

/-- The right side and the bottom of the diamond are recorded, and the left side is required. -/
theorem detach_of_run_twoDiamonds :
    ∃ d, twoDiamonds.world.heap.detach pairHash {2, 3251} 3 = some d ∧
      d.requiredHashes = [2, 3251] ∧
      ∀ m : ExtTreeMap ℕ Ref, d.attachesTo m = true ↔
        ∀ r, Uncut pairHash twoDiamonds.world.heap {2, 3251} 3 r →
          ∀ p ∈ twoDiamonds.world.heap.allParents r,
            twoDiamonds.world.heap.hashId pairHash p ∈ ({2, 3251} : Finset ℕ) →
              twoDiamonds.world.heap.hashId pairHash p ∈ m := by
  have hrun : Run _ _ (fun _ _ => True) State.init twoDiamonds :=
    run_after (by decide +kernel) fun _ _ _ => trivial
  have hi : Inv twoDiamonds.world twoDiamonds.held twoDiamonds.regs := Run.inv hrun State.inv_init
  have hobj : twoDiamonds.world.heap.Alive 3 := by decide +kernel
  obtain ⟨d, hd, -, -, -, hto⟩ :=
    detach_of_run hrun (pairHash_collisionFree hi.heap) hobj {2, 3251}
  have hrequired : (twoDiamonds.world.heap.detach pairHash {2, 3251} 3).map
      Detached.requiredHashes = some [2, 3251] := by decide +kernel
  rw [hd] at hrequired
  exact ⟨d, hd, Option.some.inj hrequired, hto⟩

end Relrc
