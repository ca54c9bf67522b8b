import Mathlib.Data.List.Forall2
import Mathlib.Tactic
import Relrc.Lib.Slots

/-!
# Computations in lockstep

Two computations that may fail run **alike** up to a relation if both return, with related results,
or both fail with the same error. There is one rule for each way to build a computation: `bind`,
a loop with an accumulator, a loop that collects results, a traversal of a slot map.

A relation between the results of two calls often says more than what the calls keep of it on the
way. `Alike.imp_of_ok` adds what is known of each call that returns.
-/

namespace Lockstep

universe u v

variable {ε : Type u} {α β γ δ : Type v}

/-- Both return, with related results, or both fail with the same error. -/
inductive Alike (R : α → β → Prop) : Except ε α → Except ε β → Prop
  | ok {a : α} {b : β} (h : R a b) : Alike R (.ok a) (.ok b)
  | error (e : ε) : Alike R (.error e) (.error e)

namespace Alike

variable {R R' : α → β → Prop} {S : γ → δ → Prop} {x : Except ε α} {y : Except ε β}

theorem pure {a : α} {b : β} (h : R a b) :
    Alike R (Pure.pure a : Except ε α) (Pure.pure b : Except ε β) := ok h

theorem imp_of_ok (h : Alike R x y) (hR : ∀ a b, x = .ok a → y = .ok b → R a b → R' a b) :
    Alike R' x y := by
  cases h with
  | ok h => exact ok (hR _ _ rfl rfl h)
  | error e => exact error e

/-- **Steps that are alike one after the other are alike.** -/
theorem bind {f : α → Except ε γ} {g : β → Except ε δ} (h : Alike R x y)
    (hfg : ∀ a b, R a b → Alike S (f a) (g b)) : Alike S (x >>= f) (y >>= g) := by
  cases h with
  | ok h => exact hfg _ _ h
  | error e => exact error e

/-! ### Loops -/

section Loops

variable {T : γ → δ → Prop} {l : List γ} {l' : List δ}

/-- Loops over related lists, with related states. -/
theorem foldlM {f : α → γ → Except ε α} {g : β → δ → Except ε β} {a : α} {b : β}
    (hl : List.Forall₂ T l l') (hab : R a b)
    (hfg : ∀ a b c d, c ∈ l → T c d → R a b → Alike R (f a c) (g b d)) :
    Alike R (l.foldlM f a) (l'.foldlM g b) := by
  induction hl generalizing a b with
  | nil => exact pure hab
  | cons hcd _ ih =>
    rw [List.foldlM_cons, List.foldlM_cons]
    refine (hfg a b _ _ List.mem_cons_self hcd hab).bind fun a' b' hab' => ?_
    exact ih hab' fun a b c d hc => hfg a b c d (List.mem_cons_of_mem _ hc)

/-- Computations on the elements of related lists. -/
theorem mapM {f : γ → Except ε α} {g : δ → Except ε β} (hl : List.Forall₂ T l l')
    (hfg : ∀ c d, c ∈ l → T c d → Alike R (f c) (g d)) :
    Alike (List.Forall₂ R) (l.mapM f) (l'.mapM g) := by
  induction hl with
  | nil =>
    rw [List.mapM_nil, List.mapM_nil]
    exact pure List.Forall₂.nil
  | cons hcd _ ih =>
    rw [List.mapM_cons, List.mapM_cons]
    refine (hfg _ _ List.mem_cons_self hcd).bind fun a b hab => ?_
    refine (ih fun c d hc => hfg c d (List.mem_cons_of_mem _ hc)).bind fun as bs habs => ?_
    exact pure (List.Forall₂.cons hab habs)

end Loops

end Alike

/-- A list and its image, as lists in step. -/
theorem forall₂_map_iff {φ : α → β} {l : List α} {l' : List β} :
    List.Forall₂ (fun a b => b = φ a) l l' ↔ l' = l.map φ := by
  rw [← List.forall₂_eq_eq_eq, List.forall₂_map_right_iff]
  constructor
  · exact fun h => h.flip
  · exact fun h => h.flip

/-! ### Slot maps -/

section SlotMaps

open SlotStore

variable {V W U ε : Type}

theorem lookup_map (φ : W → U) (l : List (Key × W)) (k : Key) :
    (l.map fun e => (e.1, φ e.2)).lookup k = (l.lookup k).map φ := by
  induction l with
  | nil => rfl
  | cons e l ih =>
    rw [List.map_cons, List.lookup_cons, List.lookup_cons, ih]
    cases k == e.1 <;> rfl

/-- Rewriting the values of a slot map, in slot order. -/
theorem Alike.traverse {f : Key → V → Except ε W} {f' : Key → V → Except ε U} {φ : W → U}
    {m : SlotMap V} (h : ∀ k x, m.get k = some x → Alike (fun y z => z = φ y) (f k x) (f' k x)) :
    Alike (fun m₁ m₂ => m₂ = m₁.map fun _ => φ) (m.traverse f) (m.traverse f') := by
  rw [SlotMap.traverse_eq_traverseM, SlotMap.traverse_eq_traverseM]
  refine Alike.bind (R := List.Forall₂ fun a b => b = (a.1, φ a.2))
    (Alike.mapM (T := Eq) (List.forall₂_same.mpr fun _ _ => rfl) ?_) ?_
  · rintro e _ he rfl
    refine (h e.1 e.2 (Slots.mem_entries.mp he)).bind ?_
    rintro y _ rfl
    exact Alike.pure rfl
  · intro ys ys' hys
    obtain rfl := forall₂_map_iff.mp hys
    refine Alike.pure ?_
    rw [SlotMap.assemble, SlotMap.map, SlotMap.mk.injEq]
    refine ⟨?_, rfl⟩
    simp only [SlotMap.assemble, Slots.map, Slots.filterMap, Slots.mk.injEq, lookup_map, and_true]
    funext i
    cases m.slot i with
    | none => rfl
    | some s => cases hy : ys.lookup ⟨i, s.1⟩ <;> simp [hy]

end SlotMaps

end Lockstep
