import Relrc.Memory.Frame
import Relrc.Model.Detached

/-!
# Hashes and the records of a detached object

`hash_id` is assumed to be collision-free on the live nodes: nodes with the same hash agree in value
and in the list of parent hashes and edge values (`Heap.CollisionFree`). Parent hashes are then a
function of the hash, `Heap.parentHashes`, and lead to older nodes.

Detaching terminates, and its records are **sound** and **closed**: each is that of a live node with
the hash it stands under, and every parent hash in it is recorded or in the cut
(`HeapInv.detach_records`).
-/

namespace Relrc

open Std (ExtTreeMap)
open OrderedMap Ancestry

variable {N E H : Type}

/-! ### Hashes -/

section Hashes

variable [Inhabited H] {hash : N → List (H × E) → H} {h : Heap N E} {held : Multiset Ref}

namespace Heap

/-- The incoming edges of a node, by the hash of the source. -/
def edgeHashes (hash : N → List (H × E) → H) (h : Heap N E) (r : Ref) : List (H × E) :=
  (h.allIncoming r).map fun e => (h.hashId hash e.source, e.value)

/-- Live nodes with the same hash have the same value and the same incoming edges, by hash. -/
def CollisionFree (hash : N → List (H × E) → H) (h : Heap N E) : Prop :=
  ∀ a b, h.Alive a → h.Alive b → h.hashId hash a = h.hashId hash b →
    h.value a = h.value b ∧ h.edgeHashes hash a = h.edgeHashes hash b

/-- The edges of a node give the hashes of its parents. -/
theorem map_fst_edgeHashes (r : Ref) :
    (h.edgeHashes hash r).map Prod.fst = (h.allParents r).map (h.hashId hash) := by
  rw [edgeHashes, allParents, List.map_map, List.map_map]
  rfl

end Heap

namespace HeapInv

/-- Enough fuel gives the hash. -/
theorem hashIdAux_eq (hi : HeapInv h held) {r : ℕ} : ∀ n, r < n →
    h.hashIdAux hash n r = h.hashId hash r := by
  induction r using Nat.strong_induction_on with
  | _ r ih =>
    intro n hn
    obtain ⟨n, rfl⟩ : ∃ m, n = m + 1 := ⟨n - 1, by omega⟩
    have hedges : (h.allIncoming r).map (fun e => (h.hashIdAux hash n e.source, e.value)) =
        (h.allIncoming r).map fun e => (h.hashIdAux hash r e.source, e.value) := by
      refine List.map_congr_left fun e he => ?_
      have hlt : e.source < r := hi.parent_lt r e.source (List.mem_map_of_mem he)
      rw [ih e.source hlt n (lt_of_lt_of_le hlt (Nat.le_of_lt_succ hn)), ih e.source hlt r hlt]
    rw [Heap.hashId, Heap.hashIdAux, Heap.hashIdAux, hedges]

/-- The hash of a node is made of its value and the hashes of its parents. -/
theorem hashId_eq (hi : HeapInv h held) {r : Ref} {value : N} (hv : h.value r = some value) :
    h.hashId hash r = hash value (h.edgeHashes hash r) := by
  have hedges : (h.allIncoming r).map (fun e => (h.hashIdAux hash r e.source, e.value)) =
      h.edgeHashes hash r := by
    refine List.map_congr_left fun e he => ?_
    rw [hi.hashIdAux_eq r (hi.parent_lt r e.source (List.mem_map_of_mem he))]
  rw [Heap.hashId, Heap.hashIdAux, hv]
  exact congrArg (hash value) hedges

theorem exists_value (hi : HeapInv h held) {r : Ref} (hr : h.Alive r) :
    ∃ value, h.value r = some value := by
  obtain ⟨d, hd⟩ := Option.ne_none_iff_exists'.mp (hi.data_ne_none hr)
  exact ⟨d.value, by rw [Heap.value, hd]; rfl⟩

/-- An injective hash is collision-free. -/
theorem collisionFree (hi : HeapInv h held)
    (hinj : ∀ v l v' l', hash v l = hash v' l' → v = v' ∧ l = l') : h.CollisionFree hash := by
  intro a b ha hb heq
  obtain ⟨v, hv⟩ := hi.exists_value ha
  obtain ⟨v', hv'⟩ := hi.exists_value hb
  rw [hi.hashId_eq hv, hi.hashId_eq hv'] at heq
  obtain ⟨rfl, hedges⟩ := hinj _ _ _ _ heq
  exact ⟨hv.trans hv'.symm, hedges⟩

end HeapInv

end Hashes

/-! ### Parents by hash -/

variable [LinearOrder H] [Inhabited H] {hash : N → List (H × E) → H}
variable {h : Heap N E} {held : Multiset Ref}

namespace Heap

/-- The oldest live node with a given hash. -/
def findHash (hash : N → List (H × E) → H) (h : Heap N E) (k : H) : Option Ref :=
  (List.range h.size).find? fun r => h.Alive r ∧ h.hashId hash r = k

/-- The parents of an object, by hash. -/
def parentHashes (hash : N → List (H × E) → H) (h : Heap N E) (k : H) : List H :=
  match h.findHash hash k with
  | some r => (h.allParents r).map (h.hashId hash)
  | none => []

/-- The oldest live node with a hash is found. -/
theorem findHash_eq_some_iff {k : H} {r : Ref} : h.findHash hash k = some r ↔
    h.Alive r ∧ h.hashId hash r = k ∧ r < h.size ∧
      ∀ x < r, ¬ (h.Alive x ∧ h.hashId hash x = k) := by
  rw [findHash, List.find?_range_eq_some]
  simp [and_assoc, imp_iff_not_or]

end Heap

namespace HeapInv

/-- The node that is found is at least as old as any other one with its hash. -/
theorem exists_findHash (hash : N → List (H × E) → H) (hi : HeapInv h held) {r : Ref}
    (hr : h.Alive r) : ∃ r' ≤ r, h.findHash hash (h.hashId hash r) = some r' := by
  have hex : ∃ x, h.Alive x ∧ h.hashId hash x = h.hashId hash r := ⟨r, hr, rfl⟩
  classical
  refine ⟨Nat.find hex, Nat.find_le ⟨hr, rfl⟩, Heap.findHash_eq_some_iff.mpr ?_⟩
  obtain ⟨halive, heq⟩ := Nat.find_spec hex
  exact ⟨halive, heq, hi.alive_lt _ halive, fun x hx => Nat.find_min hex hx⟩

/-- Without collisions, the parents by hash are the parents of the node itself. -/
theorem parentHashes_eq (hi : HeapInv h held) (hfree : h.CollisionFree hash) {r : Ref}
    (hr : h.Alive r) :
    h.parentHashes hash (h.hashId hash r) = (h.edgeHashes hash r).map Prod.fst := by
  obtain ⟨r', -, hfind⟩ := hi.exists_findHash hash hr
  obtain ⟨hr', heq, -⟩ := Heap.findHash_eq_some_iff.mp hfind
  rw [Heap.parentHashes, hfind, ← (hfree r' r hr' hr heq).2, Heap.map_fst_edgeHashes]

/-- Parent hashes lead to older nodes, each hash standing for the oldest node that has it. -/
theorem parentHashes_lt (hi : HeapInv h held) (k : H) : ∀ p ∈ h.parentHashes hash k,
    (h.findHash hash p).getD 0 < (h.findHash hash k).getD 0 := by
  intro p hp
  rw [Heap.parentHashes] at hp
  split at hp
  · rename_i r hfind
    obtain ⟨q, hq, rfl⟩ := List.mem_map.mp hp
    obtain ⟨q', hle, hq'⟩ := hi.exists_findHash hash (hi.parent_alive hq)
    rw [hfind, hq']
    exact lt_of_le_of_lt hle (hi.parent_lt r q hq)
  · exact absurd hp List.not_mem_nil

end HeapInv

/-! ### The worklist -/

/-- The hash is cut off, recorded, or that of a node on the stack. -/
def Known (hash : N → List (H × E) → H) (h : Heap N E) (detachFrom : Finset H) (stack : List Ref)
    (allNodes : ExtTreeMap H Ref) (k : H) : Prop :=
  k ∈ detachFrom ∨ k ∈ allNodes ∨ ∃ q ∈ stack, h.hashId hash q = k

/-- The state of `ancestors_upto`. -/
structure Cut (hash : N → List (H × E) → H) (h : Heap N E) (detachFrom : Finset H) (obj : Ref)
    (stack : List Ref) (allNodes : ExtTreeMap H Ref) : Prop where
  alive : ∀ n ∈ stack, h.Alive n
  entry : ∀ (k : H) n, allNodes[k]? = some n → h.Alive n ∧ h.hashId hash n = k ∧ k ∉ detachFrom
  closed : ∀ (k : H) n, allNodes[k]? = some n → ∀ p ∈ h.allParents n,
    Known hash h detachFrom stack allNodes (h.hashId hash p)
  root : Known hash h detachFrom stack allNodes (h.hashId hash obj)

/-- The parents of nodes that are not recorded yet, counted with repetitions. -/
def unrecorded (hash : N → List (H × E) → H) (h : Heap N E) (allNodes : ExtTreeMap H Ref) : ℕ :=
  ∑ r ∈ Finset.range h.size, if h.hashId hash r ∈ allNodes then 0 else h.nIncoming r

section Worklist

variable {detachFrom : Finset H} {obj node : Ref} {stack : List Ref} {allNodes : ExtTreeMap H Ref}

/-- A node that is cut off or recorded already is skipped. -/
theorem Known.skip {k : H} (hnode : h.hashId hash node ∈ detachFrom ∨ h.hashId hash node ∈ allNodes)
    (hk : Known hash h detachFrom (node :: stack) allNodes k) :
    Known hash h detachFrom stack allNodes k := by
  rcases hk with hk | hk | ⟨q, hq, rfl⟩
  · exact Or.inl hk
  · exact Or.inr (Or.inl hk)
  · rcases List.mem_cons.mp hq with rfl | hq
    · exact hnode.imp_right Or.inl
    · exact Or.inr (Or.inr ⟨q, hq, rfl⟩)

/-- A recorded node has its parents on the stack. -/
theorem Known.record {k : H} (hk : Known hash h detachFrom (node :: stack) allNodes k) :
    Known hash h detachFrom ((h.allParents node).reverse ++ stack)
      (allNodes.insert (h.hashId hash node) node) k := by
  rcases hk with hk | hk | ⟨q, hq, rfl⟩
  · exact Or.inl hk
  · exact Or.inr (Or.inl (by simp [hk]))
  · rcases List.mem_cons.mp hq with rfl | hq
    · exact Or.inr (Or.inl (by simp))
    · exact Or.inr (Or.inr ⟨q, by simp [hq], rfl⟩)

theorem Cut.skip (hc : Cut hash h detachFrom obj (node :: stack) allNodes)
    (hnode : h.hashId hash node ∈ detachFrom ∨ h.hashId hash node ∈ allNodes) :
    Cut hash h detachFrom obj stack allNodes where
  alive n hn := hc.alive n (List.mem_cons_of_mem _ hn)
  entry := hc.entry
  closed k n hk p hp := (hc.closed k n hk p hp).skip hnode
  root := hc.root.skip hnode

theorem Cut.record (hi : HeapInv h held) (hc : Cut hash h detachFrom obj (node :: stack) allNodes)
    (hnode : h.hashId hash node ∉ detachFrom) :
    Cut hash h detachFrom obj ((h.allParents node).reverse ++ stack)
      (allNodes.insert (h.hashId hash node) node) where
  alive n hn := by
    rcases List.mem_append.mp hn with hn | hn
    · exact hi.parent_alive (List.mem_reverse.mp hn)
    · exact hc.alive n (List.mem_cons_of_mem _ hn)
  entry k n hk := by
    rw [getElem?_insert_eq] at hk
    split_ifs at hk with heq
    · obtain rfl := Option.some.inj hk
      exact ⟨hc.alive node List.mem_cons_self, heq.symm, heq ▸ hnode⟩
    · exact hc.entry k n hk
  closed k n hk p hp := by
    rw [getElem?_insert_eq] at hk
    split_ifs at hk with heq
    · obtain rfl := Option.some.inj hk
      exact Or.inr (Or.inr ⟨p, by simp [hp], rfl⟩)
    · exact (hc.closed k n hk p hp).record
  root := hc.root.record

/-- Recording a node pays for putting its parents on the stack. -/
theorem unrecorded_insert (hnode : node < h.size) (hnew : h.hashId hash node ∉ allNodes) :
    unrecorded hash h (allNodes.insert (h.hashId hash node) node) + h.nIncoming node ≤
      unrecorded hash h allNodes := by
  have hmem : node ∈ Finset.range h.size := Finset.mem_range.mpr hnode
  rw [unrecorded, unrecorded, ← Finset.sum_erase_add _ _ hmem, ← Finset.sum_erase_add _ _ hmem,
    if_pos (by simp), if_neg hnew, add_zero]
  refine Nat.add_le_add_right (Finset.sum_le_sum fun r _ => ?_) _
  by_cases hr : h.hashId hash r ∈ allNodes
  · simp [hr]
  · rw [if_neg hr]
    split_ifs
    · exact Nat.zero_le _
    · exact le_rfl

/-- The worklist is empty in the end. -/
theorem ancestorsUptoAux_ok (hi : HeapInv h held) (n : ℕ)
    (hc : Cut hash h detachFrom obj stack allNodes)
    (hn : stack.length + unrecorded hash h allNodes ≤ n) :
    ∃ m, ancestorsUptoAux hash h detachFrom n stack allNodes = some m ∧
      Cut hash h detachFrom obj [] m := by
  induction n generalizing stack allNodes with
  | zero =>
    obtain rfl : stack = [] := List.eq_nil_of_length_eq_zero (by omega)
    exact ⟨allNodes, rfl, hc⟩
  | succ n ih =>
    cases stack with
    | nil => exact ⟨allNodes, rfl, hc⟩
    | cons node stack =>
      rw [List.length_cons] at hn
      rw [ancestorsUptoAux]
      split_ifs with hnew
      · refine ih (hc.record hi hnew.2) ?_
        have hlt := hi.alive_lt node (hc.alive node List.mem_cons_self)
        -- recording the node pays for the parents that are pushed
        have hpay := unrecorded_insert hlt hnew.1
        have hlen : (h.allParents node).length = h.nIncoming node := by
          rw [Heap.allParents, List.length_map, Heap.nIncoming]
        rw [List.length_append, List.length_reverse, hlen]
        omega
      · refine ih (hc.skip ?_) (by omega)
        by_contra hnot
        rw [not_or] at hnot
        exact hnew ⟨hnot.2, hnot.1⟩

end Worklist

/-! ### Records -/

/-- The records of an object detached from the hashes `detachFrom`. -/
structure Records (hash : N → List (H × E) → H) (h : Heap N E) (detachFrom : Finset H) (obj : Ref)
    (d : Detached N E H) : Prop where
  current : d.current = h.hashId hash obj
  sound : ∀ (k : H) data, d.allData[k]? = some data → k ∉ detachFrom ∧ ∃ r, h.Alive r ∧
    h.hashId hash r = k ∧ h.value r = some data.value ∧ data.incoming = h.edgeHashes hash r
  closed : ∀ (k : H) data, d.allData[k]? = some data → ∀ p ∈ data.parents,
    p ∈ detachFrom ∨ p ∈ d.allData
  root : d.current ∈ detachFrom ∨ d.current ∈ d.allData

/-- The record of a node has its value and the hashes of its parents. -/
theorem getElem?_record {m : ExtTreeMap H Ref} {k : H} {data : DetachedInnerData N E H} :
    (m.filterMap fun _ n => (h.value n).map fun value =>
      DetachedInnerData.new hash h value (h.allIncoming n))[k]? = some data ↔
    ∃ n, m[k]? = some n ∧ h.value n = some data.value ∧ data.incoming = h.edgeHashes hash n := by
  rw [ExtTreeMap.getElem?_filterMap', Option.bind_eq_some_iff]
  refine exists_congr fun n => and_congr_right fun _ => ?_
  rw [Option.map_eq_some_iff]
  constructor
  · rintro ⟨value, hv, rfl⟩
    exact ⟨hv, rfl⟩
  · rintro ⟨hv, hedges⟩
    exact ⟨data.value, hv, by rw [DetachedInnerData.new, ← Heap.edgeHashes, ← hedges]⟩

/-- **Detaching terminates** and records what is reached before the cut. -/
theorem HeapInv.detach_records (hash : N → List (H × E) → H) (hi : HeapInv h held) {obj : Ref}
    (hobj : h.Alive obj) (detachFrom : Finset H) :
    ∃ d, h.detach hash detachFrom obj = some d ∧ Records hash h detachFrom obj d := by
  have hstart : Cut hash h detachFrom obj [obj] ∅ :=
    ⟨fun n hn => List.mem_singleton.mp hn ▸ hobj, fun k n hk => by simp at hk,
      fun k n hk => by simp at hk, Or.inr (Or.inr ⟨obj, List.mem_singleton_self _, rfl⟩)⟩
  have hfuel : [obj].length + unrecorded hash h ∅ ≤
      1 + ((List.range h.size).map h.nIncoming).sum := by
    simp [unrecorded, Finset.sum, Finset.range, Multiset.range]
  obtain ⟨m, hm, hcut⟩ := ancestorsUptoAux_ok hi _ hstart hfuel
  -- what the map knows is recorded
  have hknown : ∀ k, Known hash h detachFrom [] m k → k ∈ detachFrom ∨
      k ∈ m.filterMap fun _ n => (h.value n).map fun value =>
        DetachedInnerData.new hash h value (h.allIncoming n) := by
    rintro k (hk | hk | ⟨q, hq, -⟩)
    · exact Or.inl hk
    · obtain ⟨n, hn⟩ := mem_iff_exists.mp hk
      obtain ⟨value, hv⟩ := hi.exists_value (hcut.entry k n hn).1
      exact Or.inr (mem_iff_exists.mpr ⟨⟨value, _⟩, getElem?_record.mpr ⟨n, hn, hv, rfl⟩⟩)
    · exact absurd hq List.not_mem_nil
  refine ⟨_, by rw [Heap.detach, ancestorsUpto, hm]; rfl, rfl, fun k data hk => ?_,
    fun k data hk p hp => ?_, hknown _ hcut.root⟩
  · obtain ⟨n, hn, hv, hedges⟩ := getElem?_record.mp hk
    obtain ⟨halive, hkey, hout⟩ := hcut.entry k n hn
    exact ⟨hout, n, halive, hkey, hv, hedges⟩
  · obtain ⟨n, hn, -, hedges⟩ := getElem?_record.mp hk
    rw [DetachedInnerData.parents, hedges, Heap.map_fst_edgeHashes] at hp
    obtain ⟨q, hq, rfl⟩ := List.mem_map.mp hp
    exact hknown _ (hcut.closed k n hn q hq)

end Relrc
