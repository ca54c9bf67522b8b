import Mathlib.Data.List.Nodup
import Mathlib.Data.List.Perm.Basic
import Mathlib.Data.Multiset.Basic
import Mathlib.Tactic

/-!
# Versioned slot stores

Three containers keyed by `(idx, version)` pairs.

* `Slots V` is the common core: a finite array of slots, each vacant or holding one value
  under one version. A key reads a slot only when its version is the slot's version, so at
  most one key per index is present at any time.
* `SlotMap V` hands out its own keys. Which vacant slot it takes and which version it writes
  there is left to a `KeySource`; all that is asked of it is that the slot is vacant and that
  the key **was never issued before** by that map. The history a real implementation consults
  (free list, slot versions) is the `log` of insertions and removals.
* A secondary map is a `Slots V` filled under keys of some other map. Writing under a key
  whose slot holds a newer version is refused; writing over an older version evicts it.

Iteration is in slot order throughout.
-/

namespace SlotStore

/-- A key: slot index and version. -/
structure Key where
  idx : ℕ
  version : ℕ
deriving DecidableEq, Repr

/-- A finite array of versioned slots. -/
structure Slots (V : Type*) where
  slot : ℕ → Option (ℕ × V)
  cap : ℕ
  vacant_of_le : ∀ i, cap ≤ i → slot i = none

namespace Slots

variable {V W : Type*}

/-- The value under `k`, when the slot is occupied under the version of `k`. -/
def get (m : Slots V) (k : Key) : Option V :=
  (m.slot k.idx).bind fun s => if s.1 = k.version then some s.2 else none

/-- Whether `k` is present. -/
def contains (m : Slots V) (k : Key) : Bool := (m.get k).isSome

/-- The occupied slots in slot order. -/
def entries (m : Slots V) : List (Key × V) :=
  (List.range m.cap).filterMap fun i => (m.slot i).map fun s => (⟨i, s.1⟩, s.2)

/-- The keys in slot order. -/
def keys (m : Slots V) : List Key := m.entries.map Prod.fst

/-- The values in slot order. -/
def values (m : Slots V) : List V := m.entries.map Prod.snd

/-- The number of occupied slots. -/
def len (m : Slots V) : ℕ := m.entries.length

/-- No slot is occupied. -/
def empty : Slots V := ⟨fun _ => none, 0, fun _ _ => rfl⟩

/-- A key is resolved when its version is that of the slot. -/
theorem get_eq_some {m : Slots V} {k : Key} {x : V} :
    m.get k = some x ↔ m.slot k.idx = some (k.version, x) := by
  simp only [get, Option.bind_eq_some_iff]
  constructor
  · rintro ⟨⟨v, y⟩, hs, h⟩
    split_ifs at h with hv
    obtain rfl : y = x := by simpa using h
    obtain rfl : v = k.version := hv
    exact hs
  · intro hs
    exact ⟨_, hs, by simp⟩

@[simp] theorem get_empty (k : Key) : (empty : Slots V).get k = none := rfl

@[simp] theorem entries_empty : (empty : Slots V).entries = [] := rfl

theorem contains_iff {m : Slots V} {k : Key} : m.contains k = true ↔ ∃ x, m.get k = some x :=
  Option.isSome_iff_exists

theorem contains_eq_false {m : Slots V} {k : Key} : m.contains k = false ↔ m.get k = none := by
  simp [contains]

/-- One key per index: two present keys with equal index are equal. -/
theorem key_eq_of_idx_eq {m : Slots V} {k k' : Key} {x x' : V} (h : m.get k = some x)
    (h' : m.get k' = some x') (hidx : k.idx = k'.idx) : k = k' := by
  rw [get_eq_some] at h h'
  rw [hidx, h'] at h
  obtain ⟨hv, -⟩ : k'.version = k.version ∧ x' = x := by simpa using h
  cases k
  cases k'
  simp_all

theorem get_eq_none_of_vacant {m : Slots V} {k : Key} (h : m.slot k.idx = none) :
    m.get k = none := by
  simp [get, h]

theorem idx_lt_cap {m : Slots V} {k : Key} {x : V} (h : m.get k = some x) : k.idx < m.cap := by
  by_contra hle
  rw [get_eq_some, m.vacant_of_le _ (Nat.le_of_not_lt hle)] at h
  cases h

/-- The entries are the keys that are resolved, with their values. -/
theorem mem_entries {m : Slots V} {k : Key} {x : V} :
    (k, x) ∈ m.entries ↔ m.get k = some x := by
  simp only [entries, List.mem_filterMap, List.mem_range, Option.map_eq_some_iff, Prod.exists,
    Prod.mk.injEq]
  constructor
  · rintro ⟨i, -, v, y, hs, rfl, rfl⟩
    exact get_eq_some.mpr hs
  · intro h
    exact ⟨k.idx, idx_lt_cap h, k.version, x, get_eq_some.mp h, rfl, rfl⟩

theorem mem_keys {m : Slots V} {k : Key} : k ∈ m.keys ↔ ∃ x, m.get k = some x := by
  simp [keys, mem_entries]

theorem mem_values {m : Slots V} {x : V} : x ∈ m.values ↔ ∃ k, m.get k = some x := by
  simp [values, mem_entries]

/-- Slot order is ascending in the index. -/
theorem entries_pairwise (m : Slots V) :
    m.entries.Pairwise fun a b => a.1.idx < b.1.idx := by
  rw [entries, List.pairwise_filterMap]
  refine List.pairwise_lt_range.imp fun {i j} hij a ha b hb => ?_
  obtain ⟨s, -, rfl⟩ := Option.map_eq_some_iff.mp ha
  obtain ⟨t, -, rfl⟩ := Option.map_eq_some_iff.mp hb
  exact hij

/-- Entries are listed in slot order. -/
theorem keys_pairwise (m : Slots V) : m.keys.Pairwise fun a b => a.idx < b.idx :=
  List.pairwise_map.mpr m.entries_pairwise

theorem keys_nodup (m : Slots V) : m.keys.Nodup :=
  m.keys_pairwise.imp fun {a b} hlt heq => by simp [heq] at hlt

theorem entries_nodup (m : Slots V) : m.entries.Nodup := List.Nodup.of_map _ m.keys_nodup

/-! ### Updates -/

/-- Overwrite one slot. -/
def setSlot (m : Slots V) (i : ℕ) (s : Option (ℕ × V)) : Slots V where
  slot := Function.update m.slot i s
  cap := max m.cap (i + 1)
  vacant_of_le j hj := by
    have hne : j ≠ i := by omega
    rw [Function.update_of_ne hne]
    exact m.vacant_of_le j (by omega)

/-- Vacate the slot of a present key. -/
def erase (m : Slots V) (k : Key) : Slots V :=
  if m.contains k then m.setSlot k.idx none else m

/-- Rewrite or drop every occupied slot, keeping keys. -/
def filterMap (f : Key → V → Option W) (m : Slots V) : Slots W where
  slot i := (m.slot i).bind fun s => (f ⟨i, s.1⟩ s.2).map fun y => (s.1, y)
  cap := m.cap
  vacant_of_le i hi := by simp [m.vacant_of_le i hi]

/-- Rewrite every value, keeping keys. -/
def map (f : Key → V → W) (m : Slots V) : Slots W := m.filterMap fun k x => some (f k x)

/-- Keep the entries that satisfy `p`. -/
def retain (p : Key → V → Bool) (m : Slots V) : Slots V :=
  m.filterMap fun k x => if p k x then some x else none

/-- Write into a secondary map. -/
def insert (m : Slots V) (k : Key) (x : V) : Slots V :=
  match m.slot k.idx with
  | some (v, _) => if k.version < v then m else m.setSlot k.idx (some (k.version, x))
  | none => m.setSlot k.idx (some (k.version, x))

/-- The value that a write into a secondary map leaves outside of it: the one it displaces, or
the one it refuses. -/
def evicted (m : Slots V) (k : Key) (x : V) : Option V :=
  match m.slot k.idx with
  | some (v, y) => if k.version < v then some x else some y
  | none => none

/-- A slot that is filled again resolves no older key. -/
theorem get_setSlot_some (m : Slots V) (k : Key) (x : V) (k' : Key) :
    (m.setSlot k.idx (some (k.version, x))).get k' =
      if k' = k then some x else if k'.idx = k.idx then none else m.get k' := by
  by_cases hidx : k'.idx = k.idx
  · by_cases hk : k' = k
    · subst hk
      simp [setSlot, get]
    · have hv : k.version ≠ k'.version := fun hv => hk (by cases k; cases k'; simp_all)
      simp [setSlot, get, hidx, hk, hv]
  · have hk : k' ≠ k := fun hk => hidx (by rw [hk])
    simp [setSlot, get, hidx, hk]

/-- Writing into a vacant slot adds exactly the one entry. -/
theorem get_setSlot_of_vacant {m : Slots V} {k : Key} (hv : m.slot k.idx = none) (x : V)
    (k' : Key) : (m.setSlot k.idx (some (k.version, x))).get k' =
      if k' = k then some x else m.get k' := by
  rw [get_setSlot_some]
  split_ifs with hk hidx
  · rfl
  · exact (get_eq_none_of_vacant (by rw [hidx, hv])).symm
  · rfl

theorem get_erase (m : Slots V) (k k' : Key) :
    (m.erase k).get k' = if k' = k then none else m.get k' := by
  by_cases hc : m.contains k = true
  · obtain ⟨x, hx⟩ := contains_iff.mp hc
    rw [erase, if_pos hc]
    by_cases hidx : k'.idx = k.idx
    · have hnone : (m.setSlot k.idx none).get k' = none := by simp [setSlot, get, hidx]
      rw [hnone]
      split_ifs with hk
      · rfl
      · cases h : m.get k' with
        | none => rfl
        | some y => exact absurd (key_eq_of_idx_eq h hx hidx) hk
    · have hk : k' ≠ k := fun hk => hidx (by rw [hk])
      simp [setSlot, get, hk, Function.update_of_ne hidx]
  · rw [erase, if_neg hc]
    split_ifs with hk
    · rw [hk]
      exact contains_eq_false.mp (by simpa using hc)
    · rfl

theorem get_filterMap (f : Key → V → Option W) (m : Slots V) (k : Key) :
    (m.filterMap f).get k = (m.get k).bind (f k) := by
  cases hs : m.slot k.idx with
  | none => simp [get, filterMap, hs]
  | some s =>
    obtain ⟨v, x⟩ := s
    by_cases hv : v = k.version
    · subst hv
      cases hf : f k x with
      | none => simp [get, filterMap, hs, hf]
      | some y => simp [get, filterMap, hs, hf]
    · cases hf : f ⟨k.idx, v⟩ x with
      | none => simp [get, filterMap, hs, hv, hf]
      | some y => simp [get, filterMap, hs, hv, hf]

/-- Only values under their keys matter. -/
theorem filterMap_congr {f g : Key → V → Option W} {m : Slots V}
    (h : ∀ k x, m.get k = some x → f k x = g k x) : m.filterMap f = m.filterMap g := by
  have hslot : (m.filterMap f).slot = (m.filterMap g).slot := by
    funext i
    cases hs : m.slot i with
    | none => simp [filterMap, hs]
    | some s =>
      have hget : m.get ⟨i, s.1⟩ = some s.2 := by simp [get, hs]
      simp [filterMap, hs, h _ _ hget]
  rw [filterMap, filterMap, mk.injEq]
  exact ⟨hslot, rfl⟩

@[simp] theorem get_map (f : Key → V → W) (m : Slots V) (k : Key) :
    (m.map f).get k = (m.get k).map (f k) := by
  rw [map, get_filterMap]
  cases m.get k <;> rfl

theorem slot_map_eq_none {f : Key → V → W} {m : Slots V} {i : ℕ} :
    (m.map f).slot i = none ↔ m.slot i = none := by
  cases hs : m.slot i <;> simp [map, filterMap, hs]

theorem get_retain (p : Key → V → Bool) (m : Slots V) (k : Key) :
    (m.retain p).get k = (m.get k).filter (p k) := by
  rw [retain, get_filterMap]
  cases m.get k with
  | none => rfl
  | some x => simp [Option.filter]

theorem get_retain_eq_some {p : Key → V → Bool} {m : Slots V} {k : Key} {x : V} :
    (m.retain p).get k = some x ↔ m.get k = some x ∧ p k x = true := by
  rw [get_retain, Option.filter_eq_some_iff]

theorem get_insert_of_vacant {m : Slots V} {k : Key} (hv : m.slot k.idx = none) (x : V)
    (k' : Key) : (m.insert k x).get k' = if k' = k then some x else m.get k' := by
  rw [insert, hv]
  exact get_setSlot_of_vacant hv x k'

/-- What is resolved after an insertion is the new value or was there before. -/
theorem get_of_insert {m : Slots V} {k k' : Key} {x y : V} (h : (m.insert k x).get k' = some y) :
    k' = k ∧ y = x ∨ m.get k' = some y := by
  have hset : (m.setSlot k.idx (some (k.version, x))).get k' = some y →
      k' = k ∧ y = x ∨ m.get k' = some y := by
    intro h
    rw [get_setSlot_some] at h
    split_ifs at h with hk
    · exact Or.inl ⟨hk, (Option.some.inj h).symm⟩
    · exact Or.inr h
  rw [insert] at h
  split at h
  · split_ifs at h
    · exact Or.inr h
    · exact hset h
  · exact hset h

@[simp] theorem evicted_of_vacant {m : Slots V} {k : Key} (hv : m.slot k.idx = none) (x : V) :
    m.evicted k x = none := by
  rw [evicted, hv]

/-- A slot is vacant as soon as no present key has its index. -/
theorem vacant_of_forall {m : Slots V} {i : ℕ} (h : ∀ k x, m.get k = some x → k.idx ≠ i) :
    m.slot i = none := by
  cases hs : m.slot i with
  | none => rfl
  | some s => exact absurd rfl (h ⟨i, s.1⟩ s.2 (get_eq_some.mpr hs))

/-! ### Entries as a multiset -/

/-- Entries are determined up to order by `get`. -/
theorem entries_perm_iff {m : Slots V} {l : List (Key × V)} (hl : l.Nodup) :
    m.entries.Perm l ↔ ∀ k x, m.get k = some x ↔ (k, x) ∈ l := by
  rw [List.perm_ext_iff_of_nodup m.entries_nodup hl]
  simp [mem_entries]

theorem entries_insert_perm {m : Slots V} {k : Key} (hv : m.slot k.idx = none) (x : V) :
    (m.insert k x).entries.Perm ((k, x) :: m.entries) := by
  have hnone : m.get k = none := get_eq_none_of_vacant hv
  have hnd : ((k, x) :: m.entries).Nodup :=
    List.nodup_cons.mpr ⟨by simp [mem_entries, hnone], m.entries_nodup⟩
  rw [entries_perm_iff hnd]
  intro k' x'
  rw [get_insert_of_vacant hv, List.mem_cons, mem_entries]
  split_ifs with hk
  · subst hk
    simp [hnone, eq_comm]
  · simp [hk]

theorem values_insert (m : Slots V) (k : Key) (hv : m.slot k.idx = none) (x : V) :
    ((m.insert k x).values : Multiset V) = x ::ₘ (m.values : Multiset V) :=
  Multiset.coe_eq_coe.mpr ((entries_insert_perm hv x).map Prod.snd)

theorem entries_erase_perm {m : Slots V} {k : Key} {x : V} (hk : m.get k = some x) :
    m.entries.Perm ((k, x) :: (m.erase k).entries) := by
  have hnd : ((k, x) :: (m.erase k).entries).Nodup :=
    List.nodup_cons.mpr ⟨by simp [mem_entries, get_erase], (m.erase k).entries_nodup⟩
  rw [entries_perm_iff hnd]
  intro k' x'
  rw [List.mem_cons, mem_entries, get_erase]
  split_ifs with hkk
  · subst hkk
    simp [hk, eq_comm]
  · simp [hkk]

/-- Overwriting an occupied slot replaces its entry. -/
theorem entries_setSlot_perm {m : Slots V} {k : Key} {v : ℕ} {y : V}
    (hs : m.slot k.idx = some (v, y)) (x : V) :
    (m.setSlot k.idx (some (k.version, x))).entries.Perm
      ((k, x) :: (m.erase ⟨k.idx, v⟩).entries) := by
  have hold : m.get ⟨k.idx, v⟩ = some y := get_eq_some.mpr hs
  -- a slot holds one key at a time
  have hidx : ∀ k' x', (m.erase ⟨k.idx, v⟩).get k' = some x' → k'.idx ≠ k.idx := by
    intro k' x' h heq
    rw [get_erase] at h
    split_ifs at h with hk
    exact hk (key_eq_of_idx_eq h hold heq)
  have hnd : ((k, x) :: (m.erase ⟨k.idx, v⟩).entries).Nodup := by
    refine List.nodup_cons.mpr ⟨fun hmem => ?_, entries_nodup _⟩
    exact hidx k x (mem_entries.mp hmem) rfl
  rw [entries_perm_iff hnd]
  intro k' x'
  rw [get_setSlot_some, List.mem_cons, mem_entries]
  split_ifs with hk hk'
  · subst hk
    refine ⟨fun h => Or.inl (by rw [Option.some.inj h]), ?_⟩
    rintro (h | h)
    · rw [(Prod.mk.inj h).2]
    · exact absurd rfl (hidx k' x' h)
  · refine ⟨fun h => (by cases h), ?_⟩
    rintro (h | h)
    · exact absurd (Prod.mk.inj h).1 hk
    · exact absurd hk' (hidx k' x' h)
  · have hne : k' ≠ ⟨k.idx, v⟩ := by
      rintro rfl
      exact hk' rfl
    rw [get_erase, if_neg hne]
    refine ⟨Or.inr, ?_⟩
    rintro (h | h)
    · exact absurd (Prod.mk.inj h).1 hk
    · exact h

/-- A write into a secondary map neither loses nor duplicates a value. -/
theorem values_insert_evicted (m : Slots V) (k : Key) (x : V) :
    ((m.insert k x).values : Multiset V) + ((m.evicted k x).toList : Multiset V) =
      x ::ₘ (m.values : Multiset V) := by
  rcases hs : m.slot k.idx with _ | ⟨v, y⟩
  · rw [values_insert m k hs, evicted_of_vacant hs]
    simp
  · by_cases hv : k.version < v
    · simp only [insert, evicted, hs, hv, if_true, Option.toList_some]
      rw [Multiset.coe_singleton, add_comm, Multiset.singleton_add]
    · have hold : m.get ⟨k.idx, v⟩ = some y := get_eq_some.mpr hs
      have hnew := Multiset.coe_eq_coe.mpr ((entries_setSlot_perm hs x).map Prod.snd)
      have hprev := Multiset.coe_eq_coe.mpr ((entries_erase_perm hold).map Prod.snd)
      simp only [insert, evicted, hs, hv, if_false, Option.toList_some, values]
      rw [hnew, hprev]
      simp only [List.map_cons, ← Multiset.cons_coe, Multiset.coe_nil, Multiset.add_cons, add_zero]
      exact Multiset.cons_swap _ _ _

theorem len_erase {m : Slots V} {k : Key} {x : V} (hk : m.get k = some x) :
    m.len = (m.erase k).len + 1 := (entries_erase_perm hk).length_eq

theorem len_le_of_get {m m' : Slots V} (h : ∀ k x, m'.get k = some x → m.get k = some x) :
    m'.len ≤ m.len := by
  refine (m'.entries_nodup.subperm fun e he => ?_).length_le
  exact mem_entries.mpr (h e.1 e.2 (mem_entries.mp he))

/-- A key that is gone makes the map smaller. -/
theorem len_lt_of_get {m m' : Slots V} (h : ∀ k x, m'.get k = some x → m.get k = some x) {k : Key}
    {x : V} (hk : m.get k = some x) (hk' : m'.get k = none) : m'.len < m.len := by
  have hle : m'.len ≤ (m.erase k).len := by
    refine len_le_of_get fun k' y hy => ?_
    rw [get_erase, if_neg, h k' y hy]
    rintro rfl
    rw [hk'] at hy
    cases hy
  rw [len_erase hk]
  exact Nat.lt_succ_of_le hle

theorem entries_retain (p : Key → V → Bool) (m : Slots V) :
    (m.retain p).entries = m.entries.filter fun e => p e.1 e.2 := by
  simp only [entries, retain, filterMap, List.filter_filterMap]
  refine List.filterMap_congr fun i _ => ?_
  cases m.slot i with
  | none => rfl
  | some s =>
    by_cases hp : p ⟨i, s.1⟩ s.2 = true
    · simp [hp, Option.filter]
    · simp [hp, Option.filter]

/-- What is kept and what is removed make up the whole. -/
theorem values_retain_add (m : Slots V) (p : Key → Prop) [DecidablePred p] :
    ((m.retain fun k _ => decide ¬ p k).values : Multiset V) +
      ((m.retain fun k _ => decide (p k)).values : Multiset V) = m.values := by
  have hperm := (List.filter_append_perm (fun e : Key × V => decide ¬ p e.1) m.entries).map Prod.snd
  simp only [decide_not, Bool.not_not, List.map_append] at hperm
  rw [values, values, values, entries_retain, entries_retain, Multiset.coe_add]
  exact Multiset.coe_eq_coe.mpr (by simpa using hperm)

theorem len_eq_zero_iff {m : Slots V} : m.len = 0 ↔ ∀ k, m.get k = none := by
  rw [len, List.length_eq_zero_iff, List.eq_nil_iff_forall_not_mem]
  simp only [Prod.forall, mem_entries, Option.eq_none_iff_forall_not_mem]
  rfl

/-! ### Rewriting values -/

section Map

variable {U : Type*}

theorem contains_map (f : Key → V → W) (m : Slots V) (k : Key) :
    (m.map f).contains k = m.contains k := by
  rw [contains, contains, get_map, Option.isSome_map]

theorem entries_map (f : Key → V → W) (m : Slots V) :
    (m.map f).entries = m.entries.map fun e => (e.1, f e.1 e.2) := by
  simp only [entries, map, filterMap, List.map_filterMap]
  refine List.filterMap_congr fun i _ => ?_
  cases m.slot i <;> rfl

theorem keys_map (f : Key → V → W) (m : Slots V) : (m.map f).keys = m.keys := by
  rw [keys, keys, entries_map, List.map_map]
  rfl

theorem len_map (f : Key → V → W) (m : Slots V) : (m.map f).len = m.len := by
  rw [len, len, entries_map, List.length_map]

theorem map_map (f : Key → V → W) (g : Key → W → U) (m : Slots V) :
    (m.map f).map g = m.map fun k x => g k (f k x) := by
  simp only [map, filterMap, mk.injEq, and_true]
  funext i
  cases m.slot i <;> rfl

theorem erase_map (f : Key → V → W) (m : Slots V) (k : Key) :
    (m.map f).erase k = (m.erase k).map f := by
  rw [erase, erase, contains_map]
  split_ifs
  · simp only [setSlot, map, filterMap, mk.injEq, and_true]
    funext i
    by_cases hi : i = k.idx
    · subst hi
      simp
    · simp [hi]
  · rfl

end Map

end Slots

/-! ### Maps that issue their own keys -/

/-- What a slot map remembers of its past. -/
inductive SlotEvent where
  | inserted (k : Key)
  | removed (k : Key)
deriving DecidableEq

/-- A slot map: versioned slots together with the log of its insertions and removals. -/
structure SlotMap (V : Type*) extends Slots V where
  log : List SlotEvent
  issued : ∀ k x, toSlots.get k = some x → SlotEvent.inserted k ∈ log

namespace SlotMap

variable {V W : Type*}

/-- The key was given out by this map at some point. -/
def Issued (m : SlotMap V) (k : Key) : Prop := SlotEvent.inserted k ∈ m.log

/-- A map that never issued a key. -/
def empty : SlotMap V := ⟨Slots.empty, [], by simp⟩

/-- Any slots, as a map that has issued the keys present. -/
def ofSlots (m : Slots V) : SlotMap V where
  toSlots := m
  log := m.keys.map .inserted
  issued _ x h := List.mem_map_of_mem (Slots.mem_keys.mpr ⟨x, h⟩)

/-- Rewrite every value, keeping keys and history. -/
def map (f : Key → V → W) (m : SlotMap V) : SlotMap W where
  toSlots := m.toSlots.map f
  log := m.log
  issued k y h := by
    rw [Slots.get_map, Option.map_eq_some_iff] at h
    obtain ⟨x, hx, -⟩ := h
    exact m.issued k x hx

/-- Remove a key. -/
def remove (m : SlotMap V) (k : Key) : SlotMap V where
  toSlots := m.toSlots.erase k
  log := if m.contains k then .removed k :: m.log else m.log
  issued k' x h := by
    rw [Slots.get_erase] at h
    split_ifs at h with hk
    have hmem := m.issued k' x h
    split_ifs
    · exact List.mem_cons_of_mem _ hmem
    · exact hmem

/-- Remove exactly the entries that fail `p`, in slot order. -/
def retain (p : Key → V → Bool) (m : SlotMap V) : SlotMap V where
  toSlots := m.toSlots.retain p
  log := ((m.entries.filter fun e => !p e.1 e.2).map fun e => .removed e.1).reverse ++ m.log
  issued k x h :=
    List.mem_append_right _ (m.issued k x (Slots.get_retain_eq_some.mp h).1)

end SlotMap

/-- How slot maps choose keys. The choice may depend on everything but the values; it takes a
vacant slot and never repeats a key of that map. -/
structure KeySource where
  next : SlotMap Unit → Key
  vacant : ∀ m : SlotMap Unit, m.slot (next m).idx = none
  fresh : ∀ m : SlotMap Unit, ¬ m.Issued (next m)

namespace SlotMap

variable {V W : Type*} (K : KeySource)

/-- The key under which the next insertion goes. -/
def nextKey (m : SlotMap V) : Key := K.next (m.map fun _ _ => ())

/-- The next key has a vacant slot. -/
theorem slot_nextKey (m : SlotMap V) : m.slot (m.nextKey K).idx = none :=
  (Slots.slot_map_eq_none (f := fun _ _ => ())).mp (K.vacant (m.map fun _ _ => ()))

/-- **A key is issued once.** -/
theorem not_issued_nextKey (m : SlotMap V) : ¬ m.Issued (m.nextKey K) :=
  K.fresh (m.map fun _ _ => ())

theorem get_nextKey (m : SlotMap V) : m.get (m.nextKey K) = none :=
  Slots.get_eq_none_of_vacant (m.slot_nextKey K)

/-- Insert a value under the next key. -/
def insert (m : SlotMap V) (x : V) : Key × SlotMap V :=
  let k := m.nextKey K
  (k, { toSlots := m.toSlots.setSlot k.idx (some (k.version, x))
        log := .inserted k :: m.log
        issued := fun k' y h => by
          rw [Slots.get_setSlot_of_vacant (m.slot_nextKey K)] at h
          split_ifs at h with hk
          · exact hk ▸ List.mem_cons_self
          · exact List.mem_cons_of_mem _ (m.issued k' y h) })

theorem get_insert (m : SlotMap V) (x : V) (k : Key) :
    (m.insert K x).2.get k = if k = m.nextKey K then some x else m.get k :=
  Slots.get_setSlot_of_vacant (m.slot_nextKey K) x k

theorem Issued.insert {m : SlotMap V} {k : Key} (h : m.Issued k) (x : V) :
    (m.insert K x).2.Issued k := List.mem_cons_of_mem _ h

@[simp] theorem get_remove (m : SlotMap V) (k k' : Key) :
    (m.remove k).get k' = if k' = k then none else m.get k' := m.toSlots.get_erase k k'

theorem Issued.remove {m : SlotMap V} {k : Key} (h : m.Issued k) (k' : Key) :
    (m.remove k').Issued k := by
  rw [Issued, SlotMap.remove]
  split_ifs
  · exact List.mem_cons_of_mem _ h
  · exact h

theorem get_foldl_remove (ks : List Key) (m : SlotMap V) (k : Key) :
    (ks.foldl remove m).get k = if k ∈ ks then none else m.get k := by
  induction ks generalizing m with
  | nil => simp
  | cons k' ks ih =>
    rw [List.foldl_cons, ih, get_remove]
    by_cases hk : k = k'
    · simp [hk]
    · simp [hk]

theorem Issued.foldl_remove {m : SlotMap V} {k : Key} (h : m.Issued k) (ks : List Key) :
    (ks.foldl SlotMap.remove m).Issued k := by
  induction ks generalizing m with
  | nil => exact h
  | cons k' ks ih => exact ih (h.remove k')

@[simp] theorem get_map (f : Key → V → W) (m : SlotMap V) (k : Key) :
    (m.map f).get k = (m.get k).map (f k) := Slots.get_map f m.toSlots k

@[simp] theorem get_empty (k : Key) : (empty : SlotMap V).get k = none := rfl

theorem keys_map (f : Key → V → W) (m : SlotMap V) : (m.map f).keys = m.keys :=
  m.toSlots.keys_map f

theorem len_map (f : Key → V → W) (m : SlotMap V) : (m.map f).len = m.len := m.toSlots.len_map f

/-- Keys and history do not depend on the values. -/
theorem remove_map (f : Key → V → W) (m : SlotMap V) (k : Key) :
    (m.map f).remove k = (m.remove k).map f := by
  have hc : (m.toSlots.map f).contains k = m.contains k := m.toSlots.contains_map f k
  have hs : (m.toSlots.map f).erase k = (m.toSlots.erase k).map f := m.toSlots.erase_map f k
  simp only [remove, map, hc, hs]

theorem retain_map (f : Key → V → W) (p : Key → Bool) (m : SlotMap V) :
    (m.map f).retain (fun k _ => p k) = (m.retain fun k _ => p k).map f := by
  have hslots : (m.toSlots.map f).retain (fun k _ => p k) =
      (m.toSlots.retain fun k _ => p k).map f := by
    simp only [Slots.retain, Slots.map, Slots.filterMap, Slots.mk.injEq, and_true]
    funext i
    cases m.slot i with
    | none => rfl
    | some s => by_cases hp : p ⟨i, s.1⟩ <;> simp [hp]
  simp only [retain, map, hslots, Slots.entries_map, List.filter_map, List.map_map]
  rfl

theorem map_map {U : Type*} (f : Key → V → W) (g : Key → W → U) (m : SlotMap V) :
    (m.map f).map g = m.map fun k x => g k (f k x) := by
  simp only [map, Slots.map_map]

theorem get_retain_eq_some {p : Key → V → Bool} {m : SlotMap V} {k : Key} {x : V} :
    (m.retain p).get k = some x ↔ m.get k = some x ∧ p k x = true :=
  Slots.get_retain_eq_some

/-! ### Fallible rewriting -/

variable {ε : Type*}

/-- Rewrite every value with a fallible function, in slot order, failing with the first
failure. -/
def traverse (f : Key → V → Except ε W) (m : SlotMap V) : Except ε (SlotMap W) :=
  match m.entries.findSome? fun e => match f e.1 e.2 with
    | .error err => some err
    | .ok _ => none with
  | some err => .error err
  | none => .ok
    { toSlots := m.toSlots.filterMap fun k x => (f k x).toOption
      log := m.log
      issued := fun k y h => by
        rw [Slots.get_filterMap, Option.bind_eq_some_iff] at h
        obtain ⟨x, hx, -⟩ := h
        exact m.issued k x hx }

/-- A map can be rewritten just when each of its values can. -/
theorem traverse_eq_ok_iff {f : Key → V → Except ε W} {m : SlotMap V} :
    (∃ m', m.traverse f = .ok m') ↔ ∀ k x, m.get k = some x → ∃ y, f k x = .ok y := by
  have hnone : (m.entries.findSome? fun e => match f e.1 e.2 with
      | .error err => some err
      | .ok _ => none) = none ↔ ∀ k x, m.get k = some x → ∃ y, f k x = .ok y := by
    simp only [List.findSome?_eq_none_iff, Prod.forall, Slots.mem_entries]
    refine forall₃_congr fun k x _ => ?_
    cases f k x <;> simp
  rw [← hnone, traverse]
  split <;> simp_all

/-- The rewritten values are under the same keys. -/
theorem get_of_traverse {f : Key → V → Except ε W} {m : SlotMap V} {m' : SlotMap W}
    (h : m.traverse f = .ok m') (k : Key) :
    m'.get k = (m.get k).bind fun x => (f k x).toOption := by
  rw [traverse] at h
  split at h
  · cases h
  · obtain rfl := Except.ok.inj h
    exact Slots.get_filterMap (fun k x => (f k x).toOption) m.toSlots k

/-- Replace every value, given the new values by key. -/
def assemble (m : SlotMap V) (ys : List (Key × W)) : SlotMap W where
  toSlots := m.toSlots.filterMap fun k _ => ys.lookup k
  log := m.log
  issued k y h := by
    rw [Slots.get_filterMap, Option.bind_eq_some_iff] at h
    obtain ⟨x, hx, -⟩ := h
    exact m.issued k x hx

section Monadic

variable {V W : Type}

/-- Rewrite every value by an action, in slot order. -/
def traverseM {M : Type → Type} [Monad M] (f : Key → V → M W) (m : SlotMap V) : M (SlotMap W) := do
  let ys ← m.entries.mapM fun e => do
    let y ← f e.1 e.2
    pure (e.1, y)
  pure (m.assemble ys)

/-- The first value that cannot be rewritten decides the error. -/
theorem mapM_entries_eq {ε : Type} (f : Key → V → Except ε W) (l : List (Key × V)) :
    (l.mapM fun e => do
      let y ← f e.1 e.2
      pure (e.1, y)) =
    match l.findSome? fun e => match f e.1 e.2 with
      | .error err => some err
      | .ok _ => none with
    | some err => .error err
    | none => .ok (l.filterMap fun e => (f e.1 e.2).toOption.map (e.1, ·)) := by
  induction l with
  | nil => rfl
  | cons e l ih =>
    rw [List.mapM_cons, ih]
    cases hf : f e.1 e.2 with
    | error err => simp [hf, bind, Except.bind]
    | ok y =>
      cases hl : l.findSome? fun e => match f e.1 e.2 with
        | .error err => some err
        | .ok _ => none with
      | some err => simp [hf, hl, bind, Except.bind, pure, Except.pure]
      | none => simp [hf, hl, bind, Except.bind, pure, Except.pure, Except.toOption]

theorem lookup_filterMap (g : Key → V → Option W) {l : List (Key × V)} {k : Key} {x : V}
    (hl : (l.map Prod.fst).Nodup) (hk : (k, x) ∈ l) :
    (l.filterMap fun e => (g e.1 e.2).map (e.1, ·)).lookup k = g k x := by
  induction l with
  | nil => exact absurd hk List.not_mem_nil
  | cons e l ih =>
    obtain ⟨hnot, hl⟩ := List.nodup_cons.mp hl
    rcases List.mem_cons.mp hk with rfl | hk
    · cases hg : g k x with
      | some y => simp [hg]
      | none =>
        simp only [List.filterMap_cons, hg, Option.map_none]
        rw [List.lookup_eq_none_iff]
        intro p hp
        obtain ⟨e, he, hpe⟩ := List.mem_filterMap.mp hp
        obtain ⟨y, -, rfl⟩ := Option.map_eq_some_iff.mp hpe
        refine bne_iff_ne.mpr fun heq => hnot ?_
        have hmem : e.1 ∈ l.map Prod.fst := List.mem_map_of_mem he
        exact heq ▸ hmem
    · have hne : k ≠ e.1 := fun heq => hnot (heq ▸ List.mem_map_of_mem hk)
      rw [← ih hl hk, List.filterMap_cons]
      cases g e.1 e.2 with
      | some y =>
        have hbeq : (k == e.1) = false := beq_false_of_ne hne
        simp [List.lookup_cons, hbeq]
      | none => rfl

/-- A traversal that may fail is a traversal by an action. -/
theorem traverse_eq_traverseM {ε : Type} (f : Key → V → Except ε W) (m : SlotMap V) :
    m.traverse f = m.traverseM f := by
  rw [traverse, traverseM, mapM_entries_eq]
  generalize (m.entries.findSome? _) = found
  cases found with
  | some err => rfl
  | none =>
    have hslots : (m.toSlots.filterMap fun k x => (f k x).toOption) = m.toSlots.filterMap fun k _ =>
        (m.entries.filterMap fun e => (f e.1 e.2).toOption.map (e.1, ·)).lookup k := by
      refine Slots.filterMap_congr fun k x hk => ?_
      exact (lookup_filterMap (fun k x => (f k x).toOption) m.keys_nodup
        (Slots.mem_entries.mpr hk)).symm
    simp only [hslots]
    rfl

end Monadic

end SlotMap

end SlotStore
