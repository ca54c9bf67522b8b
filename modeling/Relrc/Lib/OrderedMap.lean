import Mathlib

/-!
# Maps ordered by key, as resources

`Std.ExtTreeMap` with its entries as a list. When the values own something it matters what an update
displaces: an insertion adds its entry and takes out the one under the same key, if there is one
(`toList_insert_perm`).
-/

namespace OrderedMap

open Std (ExtTreeMap)

variable {K V : Type} [LinearOrder K]

instance instTransCmp : Std.TransCmp (compare : K → K → Ordering) := inferInstance

instance instLawfulEqCmp : Std.LawfulEqCmp (compare : K → K → Ordering) := inferInstance

/-- The values in key order. -/
def valuesOf (m : ExtTreeMap K V) : List V := m.toList.map Prod.snd

@[simp] theorem valuesOf_empty : valuesOf (∅ : ExtTreeMap K V) = [] := by
  rw [valuesOf, List.map_eq_nil_iff, ExtTreeMap.toList_eq_nil_iff]

theorem toList_nodup (m : ExtTreeMap K V) : m.toList.Nodup := by
  refine List.Nodup.of_map Prod.fst ?_
  rw [ExtTreeMap.map_fst_toList_eq_keys]
  exact ExtTreeMap.nodup_keys

theorem mem_valuesOf {m : ExtTreeMap K V} {v : V} : v ∈ valuesOf m ↔ ∃ k : K, m[k]? = some v := by
  rw [valuesOf, List.mem_map]
  constructor
  · rintro ⟨⟨k, v⟩, hmem, rfl⟩
    exact ⟨k, ExtTreeMap.mem_toList_iff_getElem?_eq_some.mp hmem⟩
  · rintro ⟨k, hk⟩
    exact ⟨(k, v), ExtTreeMap.mem_toList_iff_getElem?_eq_some.mpr hk, rfl⟩

theorem mem_iff_exists {m : ExtTreeMap K V} {k : K} : k ∈ m ↔ ∃ v, m[k]? = some v := by
  rw [← Option.isSome_iff_exists, ExtTreeMap.isSome_getElem?_iff_mem]

theorem not_contains_iff {m : ExtTreeMap K V} {k : K} : (!m.contains k) = true ↔ k ∉ m := by
  rw [Bool.not_eq_true', ← Bool.not_eq_true, ExtTreeMap.contains_iff_mem]

theorem getElem?_insert_eq (m : ExtTreeMap K V) (k a : K) (v : V) :
    (m.insert k v)[a]? = if a = k then some v else m[a]? := by
  rw [ExtTreeMap.getElem?_insert]
  simp only [Std.compare_eq_iff_eq, eq_comm (a := k)]

theorem getElem?_erase_eq (m : ExtTreeMap K V) (k a : K) :
    (m.erase k)[a]? = if a = k then none else m[a]? := by
  rw [ExtTreeMap.getElem?_erase]
  simp only [Std.compare_eq_iff_eq, eq_comm (a := k)]

/-- An insertion replaces the old value. -/
theorem toList_insert_perm (m : ExtTreeMap K V) (k : K) (v : V) :
    (m.insert k v).toList.Perm ((k, v) :: (m.erase k).toList) := by
  have hnot : (k, v) ∉ (m.erase k).toList := by
    rw [ExtTreeMap.mem_toList_iff_getElem?_eq_some, getElem?_erase_eq, if_pos rfl]
    simp
  refine (List.perm_ext_iff_of_nodup (toList_nodup _)
    (List.nodup_cons.mpr ⟨hnot, toList_nodup _⟩)).mpr fun p => ?_
  obtain ⟨a, x⟩ := p
  rw [List.mem_cons, ExtTreeMap.mem_toList_iff_getElem?_eq_some,
    ExtTreeMap.mem_toList_iff_getElem?_eq_some, getElem?_insert_eq, getElem?_erase_eq]
  by_cases ha : a = k
  · simp [ha, eq_comm]
  · simp [ha]

/-- What is stored under a key, and the rest. -/
theorem toList_erase_perm (m : ExtTreeMap K V) (k : K) :
    m.toList.Perm ((m[k]?).toList.map (k, ·) ++ (m.erase k).toList) := by
  cases hk : m[k]? with
  | none =>
    have herase : m.erase k = m := by
      refine ExtTreeMap.ext_getElem? fun a => ?_
      rw [getElem?_erase_eq]
      split_ifs with ha
      · rw [ha, hk]
      · rfl
    rw [herase]
    exact List.Perm.refl _
  | some v =>
    have hinsert : m.insert k v = m := by
      refine ExtTreeMap.ext_getElem? fun a => ?_
      rw [getElem?_insert_eq]
      split_ifs with ha
      · rw [ha, hk]
      · rfl
    nth_rewrite 1 [← hinsert]
    exact toList_insert_perm m k v

/-- What an erased key held, as a balance of values. -/
theorem valuesOf_erase (m : ExtTreeMap K V) (k : K) :
    (valuesOf m : Multiset V) =
      ((m[k]?).toList : Multiset V) + (valuesOf (m.erase k) : Multiset V) := by
  have hperm := (toList_erase_perm m k).map Prod.snd
  rw [List.map_append, List.map_map] at hperm
  rw [Multiset.coe_add, Multiset.coe_eq_coe]
  simpa [valuesOf, Function.comp_def] using hperm

/-- The new value and what it displaces, as a balance of values. -/
theorem valuesOf_insert (m : ExtTreeMap K V) (k : K) (v : V) :
    ((m[k]?).toList : Multiset V) + (valuesOf (m.insert k v) : Multiset V) =
      v ::ₘ (valuesOf m : Multiset V) := by
  have hperm := (toList_insert_perm m k v).map Prod.snd
  have hval : (valuesOf (m.insert k v) : Multiset V) =
      v ::ₘ (valuesOf (m.erase k) : Multiset V) := Multiset.coe_eq_coe.mpr hperm
  rw [hval, valuesOf_erase m k, Multiset.add_cons]

end OrderedMap
