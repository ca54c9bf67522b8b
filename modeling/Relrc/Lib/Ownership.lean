import Mathlib.Algebra.BigOperators.Group.Finset.Basic
import Mathlib.Algebra.Order.BigOperators.Group.Finset
import Mathlib.Data.Multiset.Count
import Relrc.Lib.Ancestry

/-!
# Reference counting over an ownership graph

Objects own references to other objects; further references are held from outside. `Counted`
says that every stored count is the number of outside references plus the number of owning
slots, multiplicities included, and that an object with count zero owns nothing.

On an acyclic graph this alone determines liveness: a count is positive exactly when the
object is reached from an outside reference (`Counted.pos_iff`). The four elementary moves of a
reference-counted heap keep `Counted`: a new outside reference (`clone`), a new object that
swallows outside references (`alloc`), and giving up an outside reference that is not
(`release_shared`) or is (`release_last`) the last one, the latter turning the slots of the dead
object into outside references that are yet to be given up.
-/

namespace Ownership

open Ancestry

variable {ι : Type*} [DecidableEq ι]

/-- Stored counts agree with the references that exist. -/
structure Counted (objs : Finset ι) (owns : ι → List ι) (strong : ι → ℕ)
    (held : Multiset ι) : Prop where
  count_eq : ∀ r, strong r = held.count r + ∑ c ∈ objs, (owns c).count r
  dead_owns : ∀ c, strong c = 0 → owns c = []
  owner_mem : ∀ c, c ∉ objs → owns c = []

namespace Counted

variable {objs : Finset ι} {owns : ι → List ι} {strong : ι → ℕ} {held : Multiset ι}

theorem pos_of_mem_held (hc : Counted objs owns strong held) {r : ι} (hr : r ∈ held) :
    0 < strong r := by
  have hpos := Multiset.count_pos.mpr hr
  have h := hc.count_eq r
  omega

theorem mem_objs_of_owns (hc : Counted objs owns strong held) {c r : ι} (hr : r ∈ owns c) :
    c ∈ objs := by
  by_contra hnot
  rw [hc.owner_mem c hnot] at hr
  exact absurd hr List.not_mem_nil

/-- What a live object owns is live. -/
theorem pos_of_owned (hc : Counted objs owns strong held) {c r : ι} (hr : r ∈ owns c) :
    0 < strong r := by
  have hle : (owns c).count r ≤ ∑ c ∈ objs, (owns c).count r :=
    Finset.single_le_sum (f := fun c => (owns c).count r) (fun _ _ => Nat.zero_le _)
      (hc.mem_objs_of_owns hr)
  have hpos := List.count_pos_iff.mpr hr
  have h := hc.count_eq r
  omega

/-- A live object is held from outside or owned by a live object. -/
theorem held_or_owned (hc : Counted objs owns strong held) {r : ι} (hr : 0 < strong r) :
    r ∈ held ∨ ∃ c, 0 < strong c ∧ r ∈ owns c := by
  by_cases hmem : r ∈ held
  · exact Or.inl hmem
  · have h := hc.count_eq r
    rw [Multiset.count_eq_zero_of_notMem hmem, zero_add] at h
    obtain ⟨c, -, hcr⟩ := Finset.exists_ne_zero_of_sum_ne_zero (by omega :
      ∑ c ∈ objs, (owns c).count r ≠ 0)
    have howns : r ∈ owns c := List.count_pos_iff.mp (Nat.pos_of_ne_zero hcr)
    refine Or.inr ⟨c, Nat.pos_of_ne_zero fun h0 => ?_, howns⟩
    rw [hc.dead_owns c h0] at howns
    exact absurd howns List.not_mem_nil

/-- **Liveness is reachability.** On a graph in which chains of owners are finite, exactly the
objects reached from outside references have positive count. -/
theorem pos_iff (hc : Counted objs owns strong held)
    (hwf : WellFounded fun c r => r ∈ owns c) {r : ι} :
    0 < strong r ↔ ∃ h ∈ held, Reaches owns h r := by
  constructor
  · intro hr
    induction r using hwf.induction with
    | _ r ih =>
      rcases hc.held_or_owned hr with hmem | ⟨c, hcpos, hcr⟩
      · exact ⟨r, hmem, Reaches.refl r⟩
      · obtain ⟨h, hh, hreach⟩ := ih c hcr hcpos
        exact ⟨h, hh, hreach.tail hcr⟩
  · rintro ⟨h, hh, hreach⟩
    induction hreach with
    | refl => exact hc.pos_of_mem_held hh
    | tail _ hz _ => exact hc.pos_of_owned hz

/-! ### Moves -/

theorem clone (hc : Counted objs owns strong held) {r : ι} (hr : 0 < strong r) :
    Counted objs owns (Function.update strong r (strong r + 1)) (r ::ₘ held) where
  count_eq x := by
    have h := hc.count_eq x
    by_cases hx : x = r
    · subst hx
      simp only [Function.update_self, Multiset.count_cons_self]
      omega
    · rw [Function.update_of_ne hx, Multiset.count_cons_of_ne hx]
      exact h
  dead_owns c h := by
    by_cases hcr : c = r
    · subst hcr
      simp at h
    · rw [Function.update_of_ne hcr] at h
      exact hc.dead_owns c h
  owner_mem := hc.owner_mem

/-- An object is allocated, and takes over references. -/
theorem alloc {n : ι} {ps : List ι} {rest : Multiset ι}
    (hc : Counted objs owns strong ((ps : Multiset ι) + rest)) (hn : n ∉ objs)
    (hz : strong n = 0) :
    Counted (insert n objs) (Function.update owns n ps) (Function.update strong n 1)
      (n ::ₘ rest) where
  count_eq x := by
    -- the new object is the only one with new references
    have hsum : ∑ c ∈ insert n objs, (Function.update owns n ps c).count x =
        ps.count x + ∑ c ∈ objs, (owns c).count x := by
      rw [Finset.sum_insert hn, Function.update_self]
      refine congrArg (ps.count x + ·) (Finset.sum_congr rfl fun c hmem => ?_)
      rw [Function.update_of_ne (ne_of_mem_of_not_mem hmem hn)]
    have h := hc.count_eq x
    rw [Multiset.count_add, Multiset.coe_count] at h
    rw [hsum]
    by_cases hx : x = n
    · subst hx
      rw [Function.update_self, Multiset.count_cons_self]
      omega
    · rw [Function.update_of_ne hx, Multiset.count_cons_of_ne hx]
      omega
  dead_owns c h := by
    by_cases hcn : c = n
    · subst hcn
      simp at h
    · rw [Function.update_of_ne hcn] at h ⊢
      exact hc.dead_owns c h
  owner_mem c h := by
    rw [Finset.mem_insert, not_or] at h
    rw [Function.update_of_ne h.1]
    exact hc.owner_mem c h.2

/-- A reference is given up that is not the last one. -/
theorem release_shared {r : ι} (hc : Counted objs owns strong (r ::ₘ held))
    (hr : 1 < strong r) :
    Counted objs owns (Function.update strong r (strong r - 1)) held where
  count_eq x := by
    have h := hc.count_eq x
    by_cases hx : x = r
    · subst hx
      rw [Multiset.count_cons_self] at h
      rw [Function.update_self]
      omega
    · rw [Multiset.count_cons_of_ne hx] at h
      rw [Function.update_of_ne hx]
      exact h
  dead_owns c h := by
    by_cases hcr : c = r
    · subst hcr
      rw [Function.update_self] at h
      omega
    · rw [Function.update_of_ne hcr] at h
      exact hc.dead_owns c h
  owner_mem := hc.owner_mem

/-- The last reference is given up, and those of the object are left. -/
theorem release_last {r : ι} (hc : Counted objs owns strong (r ::ₘ held))
    (hr : strong r ≤ 1) :
    Counted objs (Function.update owns r []) (Function.update strong r 0)
      (held + (owns r : Multiset ι)) where
  count_eq x := by
    -- what the object owned is given up with it
    have hsum : ∑ c ∈ objs, (owns c).count x =
        (owns r).count x + ∑ c ∈ objs, (Function.update owns r [] c).count x := by
      by_cases hmem : r ∈ objs
      · rw [← Finset.add_sum_erase _ _ hmem,
          ← Finset.add_sum_erase _ (fun c => (Function.update owns r [] c).count x) hmem]
        simp only [Function.update_self, List.count_nil, zero_add]
        refine congrArg ((owns r).count x + ·) (Finset.sum_congr rfl fun c hc' => ?_)
        rw [Function.update_of_ne (Finset.ne_of_mem_erase hc')]
      · rw [hc.owner_mem r hmem, List.count_nil, zero_add]
        refine Finset.sum_congr rfl fun c hc' => ?_
        rw [Function.update_of_ne (ne_of_mem_of_not_mem hc' hmem)]
    have h := hc.count_eq x
    rw [Multiset.count_add, Multiset.coe_count]
    by_cases hx : x = r
    · subst hx
      rw [Multiset.count_cons_self] at h
      rw [Function.update_self]
      omega
    · rw [Multiset.count_cons_of_ne hx] at h
      rw [Function.update_of_ne hx]
      omega
  dead_owns c h := by
    by_cases hcr : c = r
    · rw [hcr, Function.update_self]
    · rw [Function.update_of_ne hcr] at h ⊢
      exact hc.dead_owns c h
  owner_mem c h := by
    by_cases hcr : c = r
    · rw [hcr, Function.update_self]
    · rw [Function.update_of_ne hcr]
      exact hc.owner_mem c h

end Counted

end Ownership
