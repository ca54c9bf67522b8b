import Relrc.Model.Machine

/-!
# Concrete allocators and programs

The model leaves open how addresses and slot map keys are chosen. Here are an allocator that gives
out the lowest address not in use, one that does not look back, and one slot map that reuses the
slot vacated last under a higher version, as the crate's slot map does. They show that what is asked
of an `AddrSource` and a `KeySource` can be met, and make programs executable.
-/

namespace Relrc

open SlotStore

/-! ### Addresses -/

/-- The lowest address that is not in use. -/
def lowestFree (used : List Addr) : Addr :=
  ((List.range (used.length + 1)).find? fun a => decide (a ∉ used)).getD 0

theorem lowestFree_not_mem (used : List Addr) : lowestFree used ∉ used := by
  rw [lowestFree]
  cases hfind : (List.range (used.length + 1)).find? fun a => decide (a ∉ used) with
  | some a => simpa using List.find?_some hfind
  | none =>
    -- otherwise the range would fit into the used addresses
    have hsub : List.range (used.length + 1) ⊆ used := by
      intro a ha
      simpa using List.find?_eq_none.mp hfind a ha
    have hle := (List.nodup_range.subperm hsub).length_le
    rw [List.length_range] at hle
    exact absurd hle (Nat.not_succ_le_self _)

/-- The allocator that reuses the lowest free address. -/
def AddrSource.lowest : AddrSource := ⟨fun _ used => lowestFree used, fun _ => lowestFree_not_mem⟩

/-- The allocator that goes up, past every address in use. -/
def AddrSource.above : AddrSource where
  pick _ used := used.sum + 1
  fresh _ _ h := absurd (List.le_sum_of_mem h) (Nat.not_succ_le_self _)

/-! ### Keys -/

/-- The highest version under which a slot was ever filled. -/
def topVersion (log : List SlotEvent) (i : ℕ) : ℕ :=
  log.foldr (fun e v => match e with
    | .inserted k => if k.idx = i then max k.version v else v
    | .removed _ => v) 0

/-- No version above the top was issued. -/
theorem le_topVersion {log : List SlotEvent} {k : Key} (h : SlotEvent.inserted k ∈ log) :
    k.version ≤ topVersion log k.idx := by
  induction log with
  | nil => exact absurd h List.not_mem_nil
  | cons e log ih =>
    rcases List.mem_cons.mp h with rfl | h
    · simp [topVersion]
    · have hle := ih h
      rw [topVersion] at hle
      cases e with
      | removed k' => simpa [topVersion] using hle
      | inserted k' =>
        simp only [topVersion, List.foldr_cons]
        split_ifs
        · exact hle.trans (le_max_right _ _)
        · exact hle

/-- The slot vacated last, or a new one. Slot `0` is never used. -/
def vacatedLast (m : SlotMap Unit) : ℕ :=
  (m.log.findSome? fun e => match e with
    | .removed k => if m.slot k.idx = none then some k.idx else none
    | .inserted _ => none).getD (max m.cap 1)

theorem slot_vacatedLast (m : SlotMap Unit) : m.slot (vacatedLast m) = none := by
  rw [vacatedLast]
  cases hfind : m.log.findSome? fun e => match e with
      | .removed k => if m.slot k.idx = none then some k.idx else none
      | .inserted _ => none with
  | none => exact m.vacant_of_le _ (le_max_left _ _)
  | some i =>
    obtain ⟨e, -, he⟩ := List.exists_of_findSome?_eq_some hfind
    cases e with
    | inserted k => cases he
    | removed k =>
      simp only at he
      split_ifs at he with hk
      obtain rfl := Option.some.inj he
      exact hk

/-- The next version of a slot: `1` for a new slot, then the next odd number. -/
def nextVersion (log : List SlotEvent) (i : ℕ) : ℕ :=
  match topVersion log i with
  | 0 => 1
  | v + 1 => v + 3

/-- A slot is taken under a new version. -/
theorem topVersion_lt_nextVersion (log : List SlotEvent) (i : ℕ) :
    topVersion log i < nextVersion log i := by
  rw [nextVersion]
  split <;> omega

/-- The slot map that reuses vacated slots under a higher version. -/
def KeySource.reusing : KeySource where
  next m := ⟨vacatedLast m, nextVersion m.log (vacatedLast m)⟩
  vacant := slot_vacatedLast
  fresh m h := absurd (le_topVersion h) (Nat.not_le_of_lt (topVersion_lt_nextVersion m.log _))

/-! ### Running a program -/

variable {N E : Type} (A : AddrSource) (K : KeySource)

/-- Run a program, provided each operation is enabled and returns. -/
def execAll : State N E → List (Op N E) → Option (State N E)
  | s, [] => some s
  | s, op :: ops =>
    if op.Enabled s then
      match exec A K s op with
      | .ok s' => execAll s' ops
      | .error _ => none
    else none

variable {A K}

/-- A program runs through when its first operation returns and the rest runs through. -/
theorem execAll_cons_eq_some {s s' : State N E} {op : Op N E} {ops : List (Op N E)} :
    execAll A K s (op :: ops) = some s' ↔
      op.Enabled s ∧ ∃ t, exec A K s op = .ok t ∧ execAll A K t ops = some s' := by
  rw [execAll]
  constructor
  · intro h
    split_ifs at h with hen
    refine ⟨hen, ?_⟩
    split at h
    · exact ⟨_, by assumption, h⟩
    · cases h
  · rintro ⟨hen, t, ht, h⟩
    rw [if_pos hen, ht]
    exact h

/-- A program that runs through is a run made of its operations. -/
theorem run_of_execAll {P : State N E → Op N E → Prop} {s s' : State N E} {ops : List (Op N E)}
    (h : execAll A K s ops = some s') (hP : ∀ op ∈ ops, ∀ s, P s op) : Run A K P s s' := by
  induction ops generalizing s with
  | nil =>
    obtain rfl := Option.some.inj h
    exact Relation.ReflTransGen.refl
  | cons op ops ih =>
    obtain ⟨hen, t, ht, h⟩ := execAll_cons_eq_some.mp h
    have hfirst : Step A K P s t := ⟨op, hen, hP op List.mem_cons_self s, ht⟩
    exact (ih h fun op hop => hP op (List.mem_cons_of_mem _ hop)).head hfirst

/-- The state that a program ends in with the allocators above; `s` itself if the program does not
run through. -/
def State.after (s : State N E) (ops : List (Op N E)) : State N E :=
  (execAll AddrSource.lowest KeySource.reusing s ops).getD s

/-- A program that runs through is a run to its end. -/
theorem run_after {P : State N E → Op N E → Prop} {s : State N E} {ops : List (Op N E)}
    (h : (execAll AddrSource.lowest KeySource.reusing s ops).isSome)
    (hP : ∀ op ∈ ops, ∀ s, P s op) :
    Run AddrSource.lowest KeySource.reusing P s (s.after ops) := by
  obtain ⟨s', hs⟩ := Option.isSome_iff_exists.mp h
  rw [State.after, hs]
  exact run_of_execAll hs hP

theorem exec_of_after {s : State N E} {op : Op N E}
    (h : (execAll AddrSource.lowest KeySource.reusing s [op]).isSome) :
    exec AddrSource.lowest KeySource.reusing s op = .ok (s.after [op]) := by
  obtain ⟨s', hs⟩ := Option.isSome_iff_exists.mp h
  rw [State.after, hs]
  obtain ⟨-, t, ht, hrest⟩ := execAll_cons_eq_some.mp hs
  rw [ht, Option.some.inj hrest]
  rfl

end Relrc
