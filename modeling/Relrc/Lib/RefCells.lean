import Mathlib.Logic.Function.Basic
import Mathlib.Tactic

/-!
# Cells that are borrowed at run time

A cell may be borrowed any number of times for reading, or once for writing; a request that
conflicts with an outstanding borrow fails. An `Action` runs on a content and a flag for each cell,
returns or panics, and keeps both when it panics: the guards on the stack are released all the same
(`Action.ensuring`).

`Behaves x b w res` says that from the content `w` under the flags `b` the action `x` has the
outcome `res`, which does not speak of flags: no request fails, and when the action is over the
flags are what they were. The rules follow the structure of the action; an action under a guard
meets the flags with the cell borrowed (`Behaves.withBorrow`, `Behaves.withBorrowMut`). `Runs` is
the same with flags that differ before and after, for what happens between `borrow` and `release`;
`Quiet` leaves the outcome open, and `Reads` is for actions that change nothing at all.
-/

namespace RefCells

/-- The borrows of a cell that are outstanding. -/
inductive BorrowFlag where
  /-- So many times for reading; not at all, if the number is zero. -/
  | reading (n : ℕ)
  | writing
deriving DecidableEq

/-- A content, and a flag for each cell. -/
structure Cells (κ σ : Type) where
  content : σ
  flag : κ → BorrowFlag

/-- What ends an action before it returns. -/
inductive Fault (ε : Type) where
  | borrowError
  | borrowMutError
  | panic (e : ε)
  /-- A fault in what is run because of a fault. -/
  | abort

/-- No cell is borrowed. -/
def clear {κ : Type} : κ → BorrowFlag := fun _ => .reading 0

/-- Programs over cells. -/
abbrev Action (κ σ ε : Type) : Type → Type := EStateM (Fault ε) (Cells κ σ)

variable {κ σ ε α β : Type}

namespace Action

/-- Read the content. -/
def read (f : σ → α) : Action κ σ ε α := fun s => .ok (f s.content) s

/-- Change the content. -/
def write (f : σ → σ) : Action κ σ ε Unit := fun s => .ok () { s with content := f s.content }

/-- Panic. -/
def raise (e : ε) : Action κ σ ε α := fun s => .error (.panic e) s

/-- Run the second action when the first one is over, whether it has returned or not. -/
def ensuring (x : Action κ σ ε α) (y : Action κ σ ε Unit) : Action κ σ ε α := fun s =>
  match x s with
  | .ok a s =>
    match y s with
    | .ok _ s => .ok a s
    | .error e s => .error e s
  | .error e s =>
    match y s with
    | .ok _ s => .error e s
    | .error _ s => .error .abort s

section Cells

variable [DecidableEq κ]

/-- `RefCell::borrow`. -/
def borrow (c : κ) : Action κ σ ε Unit := fun s =>
  match s.flag c with
  | .reading n => .ok () { s with flag := Function.update s.flag c (.reading (n + 1)) }
  | .writing => .error .borrowError s

/-- `RefCell::borrow_mut`. -/
def borrowMut (c : κ) : Action κ σ ε Unit := fun s =>
  match s.flag c with
  | .reading 0 => .ok () { s with flag := Function.update s.flag c .writing }
  | _ => .error .borrowMutError s

/-- Drop a `Ref`. -/
def release (c : κ) : Action κ σ ε Unit := fun s =>
  match s.flag c with
  | .reading n => .ok () { s with flag := Function.update s.flag c (.reading (n - 1)) }
  | .writing => .ok () s

/-- Drop a `RefMut`. -/
def releaseMut (c : κ) : Action κ σ ε Unit := fun s =>
  .ok () { s with flag := Function.update s.flag c (.reading 0) }

/-- An action under a `Ref`. -/
def withBorrow (c : κ) (x : Action κ σ ε α) : Action κ σ ε α := do
  borrow c
  x.ensuring (release c)

/-- An action under a `RefMut`. -/
def withBorrowMut (c : κ) (x : Action κ σ ε α) : Action κ σ ε α := do
  borrowMut c
  x.ensuring (releaseMut c)

end Cells

end Action

open RefCells.Action

/-! ### Behaviour -/

/-- The outcome of an action, which takes the flags from `b` to `b'`. -/
def Runs (x : Action κ σ ε α) (b b' : κ → BorrowFlag) (w : σ) : Except ε (α × σ) → Prop
  | .ok p => x ⟨w, b⟩ = .ok p.1 ⟨p.2, b'⟩
  | .error e => ∃ w', x ⟨w, b⟩ = .error (.panic e) ⟨w', b'⟩

/-- The outcome of an action that leaves the flags as they were. -/
abbrev Behaves (x : Action κ σ ε α) (b : κ → BorrowFlag) (w : σ) (res : Except ε (α × σ)) : Prop :=
  Runs x b b w res

/-- The action was ended by a request that conflicts with an outstanding borrow. -/
def conflicts : EStateM.Result (Fault ε) (Cells κ σ) α → Bool
  | .ok _ _ => false
  | .error (.panic _) _ => false
  | .error _ _ => true

variable {x : Action κ σ ε α} {f : α → Action κ σ ε β} {b b' b'' : κ → BorrowFlag} {w w' : σ}
variable {res : Except ε (α × σ)}

namespace Runs

theorem conflicts_eq_false (hx : Runs x b b' w res) : conflicts (x ⟨w, b⟩) = false := by
  cases res with
  | ok p => rw [show x ⟨w, b⟩ = _ from hx, conflicts]
  | error e =>
    obtain ⟨w', hx⟩ := hx
    rw [hx, conflicts]

/-- The flags after the action, when it has returned. -/
theorem flag_of_ok {a : α} {s : Cells κ σ} (hx : Runs x b b' w res) (hs : x ⟨w, b⟩ = .ok a s) :
    s.flag = b' := by
  cases res with
  | ok p =>
    rw [show x ⟨w, b⟩ = _ from hx] at hs
    cases hs
    rfl
  | error e =>
    obtain ⟨w', hx⟩ := hx
    rw [hx] at hs
    cases hs

/-- The flags after the action, when it has not returned. -/
theorem flag_of_error {e : Fault ε} {s : Cells κ σ} (hx : Runs x b b' w res)
    (hs : x ⟨w, b⟩ = .error e s) : s.flag = b' := by
  cases res with
  | ok p =>
    rw [show x ⟨w, b⟩ = _ from hx] at hs
    cases hs
  | error e =>
    obtain ⟨w', hx⟩ := hx
    rw [hx] at hs
    cases hs
    rfl

/-- The first action returns, and the second one runs on what it leaves. -/
theorem bind_ok {a : α} {res : Except ε (β × σ)} (hx : Runs x b b' w (.ok (a, w')))
    (hf : Runs (f a) b' b'' w' res) : Runs (x >>= f) b b'' w res := by
  have hbind : (x >>= f) ⟨w, b⟩ = f a ⟨w', b'⟩ := by
    change EStateM.bind x f ⟨w, b⟩ = _
    rw [EStateM.bind, show x ⟨w, b⟩ = .ok a ⟨w', b'⟩ from hx]
  cases res with
  | ok p => exact hbind.trans hf
  | error e =>
    obtain ⟨w'', hf⟩ := hf
    exact ⟨w'', hbind.trans hf⟩

/-- What is run in the end may not panic. -/
protected theorem ensuring {y : Action κ σ ε Unit} {g : σ → σ} (hx : Runs x b b' w res)
    (hy : ∀ w, Runs y b' b'' w (.ok ((), g w))) :
    Runs (x.ensuring y) b b'' w (res.map fun p => (p.1, g p.2)) := by
  cases res with
  | ok p =>
    change Action.ensuring x y ⟨w, b⟩ = _
    rw [Action.ensuring, show x ⟨w, b⟩ = _ from hx]
    simp only [show y ⟨p.2, b'⟩ = _ from hy p.2]
  | error e =>
    obtain ⟨w', hx⟩ := hx
    refine ⟨g w', ?_⟩
    rw [Action.ensuring, hx]
    simp only [show y ⟨w', b'⟩ = _ from hy w']

end Runs

theorem except_map_bind {γ : Type} (res : Except ε α) (g : α → Except ε β) (h : β → γ) :
    (res >>= g).map h = res >>= fun a => (g a).map h := by
  cases res <;> rfl

namespace Behaves

protected theorem pure (a : α) : Behaves (pure a : Action κ σ ε α) b w (.ok (a, w)) := rfl

protected theorem read (f : σ → α) : Behaves (read f : Action κ σ ε α) b w (.ok (f w, w)) := rfl

protected theorem write (f : σ → σ) : Behaves (write f : Action κ σ ε Unit) b w (.ok ((), f w)) :=
  rfl

protected theorem raise (e : ε) : Behaves (raise e : Action κ σ ε α) b w (.error e) := ⟨w, rfl⟩

theorem bind_ok {a : α} {res : Except ε (β × σ)} (hx : Behaves x b w (.ok (a, w')))
    (hf : Behaves (f a) b w' res) : Behaves (x >>= f) b w res := Runs.bind_ok hx hf

/-- The first action fails, and the second one does not run. -/
theorem bind_error {e : ε} (hx : Behaves x b w (.error e)) : Behaves (x >>= f) b w (.error e) := by
  obtain ⟨w', hx⟩ := hx
  refine ⟨w', ?_⟩
  change EStateM.bind x f ⟨w, b⟩ = _
  rw [EStateM.bind, hx]

/-- Two actions in a row, where the outcome of the first one is part of `ρ`. -/
protected theorem bind {ρ : Type} {res : Except ε ρ} (view : ρ → α × σ)
    {g : ρ → Except ε (β × σ)} (hx : Behaves x b w (res.map view))
    (hf : ∀ a, res = .ok a → Behaves (f (view a).1) b (view a).2 (g a)) :
    Behaves (x >>= f) b w (res >>= g) := by
  cases res with
  | ok a => exact bind_ok hx (hf a rfl)
  | error e => exact bind_error hx

/-! ### Guards -/

section Cells

variable [DecidableEq κ] {c : κ}

private theorem map_id_pair (res : Except ε (α × σ)) : (res.map fun p => (p.1, id p.2)) = res := by
  cases res <;> rfl

/-- A cell can be read unless it is borrowed for writing. -/
protected theorem withBorrow {n : ℕ} (hc : b c = .reading n)
    (hx : Behaves x (Function.update b c (.reading (n + 1))) w res) :
    Behaves (withBorrow c x) b w res := by
  have hborrow : Runs (borrow c : Action κ σ ε Unit) b (Function.update b c (.reading (n + 1))) w
      (.ok ((), w)) := by
    change borrow c ⟨w, b⟩ = _
    simp only [borrow, hc]
  refine hborrow.bind_ok ?_
  rw [← map_id_pair res]
  refine Runs.ensuring hx fun w => ?_
  change release c ⟨w, _⟩ = _
  simp [release, ← hc]

/-- A cell can be written when it is not borrowed. -/
protected theorem withBorrowMut (hc : b c = .reading 0)
    (hx : Behaves x (Function.update b c .writing) w res) :
    Behaves (withBorrowMut c x) b w res := by
  have hborrow : Runs (borrowMut c : Action κ σ ε Unit) b (Function.update b c .writing) w
      (.ok ((), w)) := by
    change borrowMut c ⟨w, b⟩ = _
    simp only [borrowMut, hc]
  refine hborrow.bind_ok ?_
  rw [← map_id_pair res]
  refine Runs.ensuring hx fun w => ?_
  change releaseMut c ⟨w, _⟩ = _
  simp [releaseMut, ← hc]

end Cells

/-! ### Loops -/

/-- A loop and its outcome, whose accumulator `ρ` contains that of the loop and the content. -/
protected theorem foldlM {γ ρ : Type} {l : List γ} {f : α → γ → Action κ σ ε α}
    {g : ρ → γ → Except ε ρ} (view : ρ → α × σ)
    (h : ∀ a, ∀ y ∈ l, Behaves (f (view a).1 y) b (view a).2 ((g a y).map view)) (a : ρ) :
    Behaves (l.foldlM f (view a).1) b (view a).2 ((l.foldlM g a).map view) := by
  induction l generalizing a with
  | nil => exact Behaves.pure _
  | cons y l ih =>
    have hy := h a y List.mem_cons_self
    rw [List.foldlM_cons, List.foldlM_cons]
    cases hres : g a y with
    | ok a' =>
      rw [hres] at hy
      exact bind_ok hy (ih (fun a z hz => h a z (List.mem_cons_of_mem _ hz)) a')
    | error e =>
      rw [hres] at hy
      exact bind_error hy

/-- A loop whose steps leave the content as it is when they return. -/
protected theorem mapM {γ : Type} {l : List γ} {f : γ → Action κ σ ε β} {g : γ → Except ε β}
    (h : ∀ y ∈ l, Behaves (f y) b w ((g y).map (·, w))) :
    Behaves (l.mapM f) b w ((l.mapM g).map (·, w)) := by
  induction l with
  | nil => exact Behaves.pure _
  | cons y l ih =>
    have hy := h y List.mem_cons_self
    have hl := ih fun z hz => h z (List.mem_cons_of_mem _ hz)
    rw [List.mapM_cons, List.mapM_cons]
    refine except_map_bind _ _ _ ▸ Behaves.bind (·, w) hy fun x _ => ?_
    exact except_map_bind _ _ _ ▸ Behaves.bind (·, w) hl fun xs _ => Behaves.pure _

/-- A loop that does not panic. -/
protected theorem forM {γ : Type} {l : List γ} {f : γ → Action κ σ ε Unit} {g : σ → γ → σ}
    (h : ∀ w, ∀ y ∈ l, Behaves (f y) b w (.ok ((), g w y))) :
    Behaves (l.forM f) b w (.ok ((), l.foldl g w)) := by
  induction l generalizing w with
  | nil => exact Behaves.pure ()
  | cons y l ih =>
    exact bind_ok (h w y List.mem_cons_self) (ih fun w z hz => h w z (List.mem_cons_of_mem _ hz))

end Behaves

/-! ### Outcomes that do not matter -/

/-- The action leaves the flags as they were, whatever the content is. -/
def Quiet (x : Action κ σ ε α) (b : κ → BorrowFlag) : Prop := ∀ w, ∃ res, Behaves x b w res

namespace Quiet

protected theorem pure (a : α) : Quiet (pure a : Action κ σ ε α) b := fun _ => ⟨_, Behaves.pure a⟩

protected theorem read (f : σ → α) : Quiet (read f : Action κ σ ε α) b := fun _ =>
  ⟨_, Behaves.read f⟩

protected theorem write (f : σ → σ) : Quiet (write f : Action κ σ ε Unit) b := fun _ =>
  ⟨_, Behaves.write f⟩

protected theorem bind (hx : Quiet x b) (hf : ∀ a, Quiet (f a) b) : Quiet (x >>= f) b := by
  intro w
  obtain ⟨res, hres⟩ := hx w
  cases res with
  | error e => exact ⟨.error e, hres.bind_error⟩
  | ok p =>
    obtain ⟨res, hnext⟩ := hf p.1 p.2
    exact ⟨res, hres.bind_ok hnext⟩

end Quiet

/-! ### Reading -/

/-- The outcome of an action that only reads, whatever is borrowed. -/
def Reads (x : Action κ σ ε α) (w : σ) (res : Except ε α) : Prop :=
  ∀ b, x ⟨w, b⟩ = match res with
    | .ok a => .ok a ⟨w, b⟩
    | .error e => .error (.panic e) ⟨w, b⟩

namespace Reads

variable {res : Except ε α}

protected theorem pure (a : α) : Reads (pure a : Action κ σ ε α) w (.ok a) := fun _ => rfl

protected theorem raise (e : ε) : Reads (raise e : Action κ σ ε α) w (.error e) := fun _ => rfl

protected theorem bind {g : α → Except ε β} (hx : Reads x w res)
    (hf : ∀ a, res = .ok a → Reads (f a) w (g a)) : Reads (x >>= f) w (res >>= g) := by
  intro b
  change EStateM.bind x f ⟨w, b⟩ = _
  rw [EStateM.bind, hx b]
  cases res with
  | ok a => exact hf a rfl b
  | error e => rfl

/-- Nothing happens between reading and using what was read. -/
theorem read_bind {g : σ → α} {res : Except ε β} (hf : Reads (f (g w)) w res) :
    Reads (Action.read g >>= f) w res := fun b => hf b

protected theorem mapM {γ : Type} {l : List γ} {f : γ → Action κ σ ε β} {g : γ → Except ε β}
    (h : ∀ y ∈ l, Reads (f y) w (g y)) : Reads (l.mapM f) w (l.mapM g) := by
  induction l with
  | nil => exact Reads.pure []
  | cons y l ih =>
    rw [List.mapM_cons, List.mapM_cons]
    refine (h y List.mem_cons_self).bind fun x _ => ?_
    exact (ih fun z hz => h z (List.mem_cons_of_mem _ hz)).bind fun xs _ => Reads.pure _

theorem behaves (hx : Reads x w res) : Behaves x b w (res.map (·, w)) := by
  cases res with
  | ok a => exact hx b
  | error e => exact ⟨w, hx b⟩

/-- What is run in the end finds the content as it was before. -/
protected theorem ensuring {y : Action κ σ ε Unit} (hx : Reads x w res)
    (hy : Behaves y b w (.ok ((), w'))) : Behaves (x.ensuring y) b w (res.map (·, w')) := by
  cases res with
  | ok a =>
    change Action.ensuring x y ⟨w, b⟩ = _
    rw [Action.ensuring, hx b]
    simp only [show y ⟨w, b⟩ = _ from hy]
  | error e =>
    refine ⟨w', ?_⟩
    rw [Action.ensuring, hx b]
    simp only [show y ⟨w, b⟩ = _ from hy]

end Reads

end RefCells
