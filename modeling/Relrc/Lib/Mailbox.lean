import Mathlib.Data.List.Basic

/-!
# Mailboxes

A mailbox holds what has arrived, in the order of sending. A receive is selective: it takes the
first message that matches, wherever it stands. Seen from one class of messages, a mailbox is a
queue (`take_of_filter_cons`), and the classes do not get in each other's way.
-/

namespace Mailbox

variable {α : Type*} {p q : α → Bool} {a : α} {box as : List α}

/-- Take the first message that matches. -/
def take (p : α → Bool) (box : List α) : Option (α × List α) :=
  (box.find? p).map fun a => (a, box.eraseP p)

/-- Nothing matches. -/
theorem take_of_filter_nil (h : box.filter p = []) : take p box = none := by
  rw [take, List.find?_eq_none.mpr, Option.map_none]
  exact List.filter_eq_nil_iff.mp h

/-- **The first of the messages that match** is taken; the rest of them are left, and so are the
messages of every other class. -/
theorem take_of_filter_cons (h : box.filter p = a :: as) :
    ∃ box', take p box = some (a, box') ∧ box'.filter p = as ∧
      ∀ q : α → Bool, (∀ b, p b = true → q b = false) → box'.filter q = box.filter q := by
  obtain ⟨l₁, l₂, rfl, hl₁, ha, has⟩ := List.filter_eq_cons_iff.mp h
  have hnone : l₁.filter p = [] := List.filter_eq_nil_iff.mpr hl₁
  refine ⟨l₁ ++ l₂, ?_, ?_, fun q hq => ?_⟩
  · have hfind : (l₁ ++ a :: l₂).find? p = some a :=
      List.find?_eq_some_iff_append.mpr ⟨ha, l₁, l₂, rfl, by simpa using hl₁⟩
    have herase : (l₁ ++ a :: l₂).eraseP p = l₁ ++ l₂ := by
      rw [List.eraseP_append_right _ hl₁, List.eraseP_cons_of_pos ha]
    rw [take, hfind, herase, Option.map_some]
  · rw [List.filter_append, hnone, List.nil_append, has]
  · rw [List.filter_append, List.filter_append, List.filter_cons_of_neg (by simp [hq a ha])]

/-- A message that does not match is put behind. -/
theorem filter_concat_of_neg (h : p a = false) : (box ++ [a]).filter p = box.filter p := by
  rw [List.filter_append, List.filter_cons_of_neg (by simp [h]), List.filter_nil, List.append_nil]

theorem filter_concat_of_pos (h : p a = true) : (box ++ [a]).filter p = box.filter p ++ [a] := by
  rw [List.filter_append, List.filter_cons_of_pos h, List.filter_nil]

end Mailbox
