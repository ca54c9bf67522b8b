import Mathlib.Data.List.Forall2
import Mathlib.Tactic

/-!
# Computations that may fail

Rules for `Except`: what a successful bind went through, and the two loop rules. A loop
invariant is indexed by the part of the list that is still to be visited, so that it can say
what the visited part has achieved. `foldlM_total` proves that a loop succeeds, `foldlM_cases` that
it succeeds or fails in a given way, and `foldlM_partial` reads off what a successful loop has
established.
-/

namespace Fallible

universe u v

variable {ε : Type u} {α β : Type v}

/-- A computation returns when both of its parts do. -/
theorem bind_eq_ok_iff {x : Except ε α} {f : α → Except ε β} {b : β} :
    x >>= f = .ok b ↔ ∃ a, x = .ok a ∧ f a = .ok b := by
  cases x with
  | error e =>
    refine ⟨fun h => ?_, fun ⟨a, ha, _⟩ => ?_⟩
    · cases h
    · cases ha
  | ok a => exact ⟨fun h => ⟨a, rfl, h⟩, fun ⟨_, ha, h⟩ => by cases ha; exact h⟩

theorem bind_of_ok {x : Except ε α} {f : α → Except ε β} {a : α} (h : x = .ok a) :
    x >>= f = f a := by
  rw [h]
  rfl

theorem bind_of_error {x : Except ε α} {f : α → Except ε β} {e : ε} (h : x = .error e) :
    x >>= f = .error e := by
  rw [h]
  rfl

theorem pure_eq_ok_iff {a b : α} : (pure a : Except ε α) = .ok b ↔ a = b :=
  ⟨fun h => Except.ok.inj h, fun h => by rw [h]; rfl⟩

theorem toOption_eq_some_iff {x : Except ε α} {a : α} : x.toOption = some a ↔ x = .ok a := by
  cases x with
  | error e => exact ⟨fun h => (by cases h), fun h => (by cases h)⟩
  | ok b => exact ⟨fun h => congrArg Except.ok (Option.some.inj h), fun h => by cases h; rfl⟩

/-! ### Loops -/

section Loops

variable {f : β → α → Except ε β}

/-- **A loop returns** if every step does, under an invariant about what is left. -/
theorem foldlM_total {I : List α → β → Prop} {l : List α} {b : β} (hb : I l b)
    (hstep : ∀ x rest acc, x ∈ l → I (x :: rest) acc → ∃ acc', f acc x = .ok acc' ∧ I rest acc') :
    ∃ b', l.foldlM f b = .ok b' ∧ I [] b' := by
  induction l generalizing b with
  | nil => exact ⟨b, rfl, hb⟩
  | cons x l ih =>
    obtain ⟨acc, hacc, hI⟩ := hstep x l b List.mem_cons_self hb
    obtain ⟨b', hb', hI'⟩ := ih hI fun y rest acc hy => hstep y rest acc (List.mem_cons_of_mem _ hy)
    refine ⟨b', ?_, hI'⟩
    rw [List.foldlM_cons, bind_eq_ok_iff]
    exact ⟨acc, hacc, hb'⟩

/-- A loop succeeds with its invariant, or fails as one of its steps does. -/
theorem foldlM_cases {I : List α → β → Prop} {F : ε → Prop} {l : List α} {b : β} (hb : I l b)
    (hstep : ∀ x rest acc, x ∈ l → I (x :: rest) acc →
      (∃ acc', f acc x = .ok acc' ∧ I rest acc') ∨ ∃ e, f acc x = .error e ∧ F e) :
    (∃ b', l.foldlM f b = .ok b' ∧ I [] b') ∨ ∃ e, l.foldlM f b = .error e ∧ F e := by
  induction l generalizing b with
  | nil => exact Or.inl ⟨b, rfl, hb⟩
  | cons x l ih =>
    rw [List.foldlM_cons]
    rcases hstep x l b List.mem_cons_self hb with ⟨acc, hacc, hI⟩ | ⟨e, he, hF⟩
    · rw [hacc]
      exact ih hI fun y rest acc hy => hstep y rest acc (List.mem_cons_of_mem _ hy)
    · rw [he]
      exact Or.inr ⟨e, rfl, hF⟩

/-- **If a loop returns**, what every step keeps holds in the end. -/
theorem foldlM_partial {I : List α → β → Prop} {l : List α} {b b' : β}
    (h : l.foldlM f b = .ok b') (hb : I l b)
    (hstep : ∀ x rest acc acc', x ∈ l → I (x :: rest) acc → f acc x = .ok acc' → I rest acc') :
    I [] b' := by
  induction l generalizing b with
  | nil =>
    obtain rfl := pure_eq_ok_iff.mp h
    exact hb
  | cons x l ih =>
    rw [List.foldlM_cons, bind_eq_ok_iff] at h
    obtain ⟨acc, hacc, h⟩ := h
    exact ih h (hstep x l b acc List.mem_cons_self hb hacc) fun y rest acc acc' hy =>
      hstep y rest acc acc' (List.mem_cons_of_mem _ hy)

end Loops

/-! ### Pointwise application -/

/-- A list of results, one for each element. -/
theorem mapM_eq_ok_iff {f : α → Except ε β} {l : List α} {ys : List β} :
    l.mapM f = .ok ys ↔ List.Forall₂ (fun x y => f x = .ok y) l ys := by
  induction l generalizing ys with
  | nil =>
    rw [List.mapM_nil, pure_eq_ok_iff, List.forall₂_nil_left_iff, eq_comm]
  | cons x l ih =>
    rw [List.mapM_cons, bind_eq_ok_iff]
    constructor
    · rintro ⟨y, hy, h⟩
      obtain ⟨zs, hzs, h⟩ := bind_eq_ok_iff.mp h
      obtain rfl := pure_eq_ok_iff.mp h
      exact List.Forall₂.cons hy (ih.mp hzs)
    · intro h
      obtain ⟨y, zs, hy, hzs, rfl⟩ := List.forall₂_cons_left_iff.mp h
      exact ⟨y, hy, bind_eq_ok_iff.mpr ⟨zs, ih.mpr hzs, rfl⟩⟩

theorem exists_of_forall₂ {R : α → β → Prop} {l : List α} {ys : List β} (h : List.Forall₂ R l ys)
    {x : α} (hx : x ∈ l) : ∃ y ∈ ys, R x y := by
  induction h with
  | nil => exact absurd hx List.not_mem_nil
  | cons hxy _ ih =>
    rcases List.mem_cons.mp hx with rfl | hx
    · exact ⟨_, List.mem_cons_self, hxy⟩
    · obtain ⟨y, hy, hR⟩ := ih hx
      exact ⟨y, List.mem_cons_of_mem _ hy, hR⟩

/-- Two lists that match a third one match each other. -/
theorem forall₂_of_forall₂ {γ : Type v} {R : α → γ → Prop} {S : β → γ → Prop} {T : α → β → Prop}
    (hT : ∀ a b c, R a c → S b c → T a b) {l : List α} {l' : List β} {u : List γ}
    (h : List.Forall₂ R l u) (h' : List.Forall₂ S l' u) : List.Forall₂ T l l' := by
  induction h generalizing l' with
  | nil =>
    obtain rfl := List.forall₂_nil_right_iff.mp h'
    exact List.Forall₂.nil
  | cons hac _ ih =>
    obtain ⟨b, l', hbc, hl', rfl⟩ := List.forall₂_cons_right_iff.mp h'
    exact List.Forall₂.cons (hT _ _ _ hac hbc) (ih hl')

theorem exists_forall₂ {R : α → β → Prop} {l : List α} (h : ∀ x ∈ l, ∃ y, R x y) :
    ∃ ys, List.Forall₂ R l ys := by
  induction l with
  | nil => exact ⟨[], List.Forall₂.nil⟩
  | cons x l ih =>
    obtain ⟨y, hy⟩ := h x List.mem_cons_self
    obtain ⟨ys, hys⟩ := ih fun z hz => h z (List.mem_cons_of_mem _ hz)
    exact ⟨y :: ys, List.Forall₂.cons hy hys⟩

/-- Every result is that of some element. -/
theorem exists_of_mem_mapM {f : α → Except ε β} {l : List α} {ys : List β}
    (h : l.mapM f = .ok ys) {y : β} (hy : y ∈ ys) : ∃ x ∈ l, f x = .ok y := by
  have hall := mapM_eq_ok_iff.mp h
  clear h
  induction hall with
  | nil => exact absurd hy List.not_mem_nil
  | cons hxy _ ih =>
    rcases List.mem_cons.mp hy with rfl | hy
    · exact ⟨_, List.mem_cons_self, hxy⟩
    · obtain ⟨x, hx, hf⟩ := ih hy
      exact ⟨x, List.mem_cons_of_mem _ hx, hf⟩

end Fallible
