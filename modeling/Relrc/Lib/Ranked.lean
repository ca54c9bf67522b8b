import Mathlib.Logic.Relation
import Mathlib.Data.Nat.Basic

/-!
# Ranked invariants

An invariant of a transition system that comes with a rank, which every step lowers: the runs are
bounded by the rank, and if something can always be done until the end, the end is reached.

The steps that lead to the end may be fewer than those that keep the invariant (`R'` and `R`), as
when progress must not depend on a resource that may be there or not.
-/

namespace Ranked

variable {α : Type*} {R R' : α → α → Prop} {I : α → ℕ → Prop} {x y : α} {n : ℕ}

/-- Every step keeps the invariant `I` and lowers its rank. -/
def Lowers (R : α → α → Prop) (I : α → ℕ → Prop) : Prop :=
  ∀ ⦃x n⦄, I x n → ∀ ⦃y⦄, R x y → ∃ n' < n, I y n'

theorem Lowers.steps (h : Lowers R I) (hx : I x n) (hsteps : Relation.ReflTransGen R x y) :
    ∃ n' ≤ n, I y n' := by
  induction hsteps with
  | refl => exact ⟨n, le_rfl, hx⟩
  | tail _ hstep ih =>
    obtain ⟨n', hle, hy⟩ := ih
    obtain ⟨n'', hlt, hz⟩ := h hy hstep
    exact ⟨n'', by omega, hz⟩

/-- A run is no longer than the rank of its first state. -/
theorem Lowers.length_le (h : Lowers R I) {f : ℕ → α} (hx : I (f 0) n) (l : ℕ)
    (hf : ∀ i < l, R (f i) (f (i + 1))) : l ≤ n := by
  induction l generalizing f n with
  | zero => exact Nat.zero_le n
  | succ l ih =>
    obtain ⟨n', hlt, hphase⟩ := h hx (hf 0 (Nat.succ_pos l))
    have hle : l ≤ n' := ih (f := fun i => f (i + 1)) hphase fun i hi => hf (i + 1) (by omega)
    omega

/-- **The end is reached** if some step is possible as long as it is not. -/
theorem Lowers.exists_steps (h : Lowers R I) (hsub : ∀ ⦃x y⦄, R' x y → R x y) {Done : α → Prop}
    (hmore : ∀ ⦃x n⦄, I x n → Done x ∨ ∃ y, R' x y) (hx : I x n) :
    ∃ y, Relation.ReflTransGen R' x y ∧ Done y := by
  induction n using Nat.strong_induction_on generalizing x with
  | _ n ih =>
    rcases hmore hx with hdone | ⟨y, hstep⟩
    · exact ⟨x, .refl, hdone⟩
    · obtain ⟨n', hlt, hy⟩ := h hx (hsub hstep)
      obtain ⟨z, hsteps, hdone⟩ := ih n' hlt hy
      exact ⟨z, hsteps.head hstep, hdone⟩

end Ranked
