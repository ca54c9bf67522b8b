import Relrc.Lib.Ancestry
import Relrc.Lib.Fallible
import Mathlib.Data.Finset.Lattice.Basic

/-!
# Depth-first walks that mark nodes when they are pushed

`postOrderForEach` is depth-first traversal with an explicit stack of enter and exit events. A node
is marked as visited when its enter event is **pushed**, not when it is popped, so a node that was
pushed early and is still waiting is not entered again from below, and what reaches it from there
exits first. The exits are in post-order only if that never happens.

`Walks` is the same traversal as a relation without a stack of exits (`Walks.loop_eq`). A way from
the root towards a node `u` that takes at each step the last successor from which `u` is reached is
how the walk comes to `u` for the first time; the order of exits is a post-order **if and only if**
no such way passes a node that has `u` as a successor and goes on to a later one
(`Walks.ordered_iff`).
-/

namespace PostOrder

open Ancestry Fallible

/-! ### Orders -/

section Order

variable {V : Type} (next : V → List V)

/-- Every node of the list comes after its successors, but for those in `D`. -/
def Ordered : Set V → List V → Prop
  | _, [] => True
  | D, v :: out => (∀ u ∈ next v, u ∈ D) ∧ Ordered (insert v D) out

/-- `D` contains the successors of its members. -/
def Closed (D : Set V) : Prop := ∀ x ∈ D, ∀ u ∈ next x, u ∈ D

/-- `D` with the members of a list. -/
def extend (D : Set V) (out : List V) : Set V := D ∪ {x | x ∈ out}

variable {next} {D : Set V} {out : List V}

theorem mem_extend {x : V} : x ∈ extend D out ↔ x ∈ D ∨ x ∈ out := Iff.rfl

theorem extend_cons (D : Set V) (v : V) (out : List V) :
    extend D (v :: out) = extend (insert v D) out := by
  ext x
  rw [mem_extend, mem_extend, Set.mem_insert_iff, List.mem_cons]
  tauto

/-- An order is checked piece by piece. -/
theorem ordered_append {a b : List V} :
    Ordered next D (a ++ b) ↔ Ordered next D a ∧ Ordered next (extend D a) b := by
  induction a generalizing D with
  | nil => simp [Ordered, extend]
  | cons v a ih => rw [List.cons_append, Ordered, Ordered, ih, extend_cons, and_assoc]

/-- A closed set stays closed when ordered nodes are added. -/
theorem Closed.extend (hD : Closed next D) (h : Ordered next D out) :
    Closed next (extend D out) := by
  induction out generalizing D with
  | nil => simpa [PostOrder.extend] using hD
  | cons v out ih =>
    rw [extend_cons]
    refine ih (fun x hx u hu => Set.mem_insert_of_mem _ ?_) h.2
    rcases hx with rfl | hx
    · exact h.1 u hu
    · exact hD x hx u hu

/-- A closed set has what its members lead to. -/
theorem Closed.mem (hD : Closed next D) {x z : V} (hx : x ∈ D) (h : Reaches next x z) : z ∈ D :=
  Reaches.mem_of_closed hD hx h

/-- What is in post-order does not lie on a cycle. -/
theorem Ordered.not_transGen (h : Ordered next D out) (hD : Closed next D)
    (hac : ∀ x ∈ D, ¬ Relation.TransGen (fun x y => y ∈ next x) x x) :
    ∀ x ∈ out, ¬ Relation.TransGen (fun x y => y ∈ next x) x x := by
  induction out generalizing D with
  | nil => exact fun x hx => absurd hx List.not_mem_nil
  | cons v out ih =>
    have hv : ¬ Relation.TransGen (fun x y => y ∈ next x) v v := by
      intro hcycle
      obtain ⟨u, hu, huv⟩ := Relation.TransGen.head'_iff.mp hcycle
      exact hac v (hD.mem (h.1 u hu) huv) hcycle
    have hclosed : Closed next (insert v D) := by
      rintro x (rfl | hx) u hu
      · exact Set.mem_insert_of_mem _ (h.1 u hu)
      · exact Set.mem_insert_of_mem _ (hD x hx u hu)
    intro x hx
    rcases List.mem_cons.mp hx with rfl | hx
    · exact hv
    · exact ih h.2 hclosed (Set.forall_mem_insert.mpr ⟨hv, hac⟩) x hx

end Order

/-! ### What is reached -/

section Reached

variable {V : Type} {next : V → List V} {root : V}

open Classical in
/-- The successors of the nodes that are reached from the root; all others have none. -/
noncomputable def reached (next : V → List V) (root v : V) : List V :=
  if Reaches next root v then next v else []

theorem reached_eq {v : V} (h : Reaches next root v) : reached next root v = next v := if_pos h

theorem mem_reached {v u : V} :
    u ∈ reached next root v ↔ Reaches next root v ∧ u ∈ next v := by
  rw [reached]
  split_ifs with h
  · exact (and_iff_right h).symm
  · simp [h]

/-- Nothing but what is reached matters. -/
theorem reached_congr {next' : V → List V} (h : ∀ v, Reaches next root v → next' v = next v) :
    reached next' root = reached next root := by
  have hreach : ∀ v, Reaches next' root v ↔ Reaches next root v := by
    intro v
    refine ⟨fun hv => ?_, fun hv => hv.congr h⟩
    induction hv with
    | refl => exact Reaches.refl root
    | tail _ hstep ih => exact ih.tail (h _ ih ▸ hstep)
  funext v
  rw [reached, reached, hreach]
  split_ifs with hv
  · exact h v hv
  · rfl

theorem reaches_reached {v u : V} (hv : Reaches next root v) :
    Reaches (reached next root) v u ↔ Reaches next v u :=
  ⟨Relation.ReflTransGen.mono (fun _ _ h => (mem_reached.mp h).2) _ _,
    fun h => h.congr fun _ hx => reached_eq (hv.trans hx)⟩

/-- Only cycles that are reached matter. -/
theorem acyclic_reached_iff : Acyclic (reached next root) ↔
    ∀ x, Reaches next root x → ¬ Relation.TransGen (fun x y => y ∈ next x) x x := by
  constructor
  · intro hac x hx hcycle
    obtain ⟨u, hu, hux⟩ := Relation.TransGen.head'_iff.mp hcycle
    have hback : Reaches (reached next root) u x := (reaches_reached (hx.tail hu)).mpr hux
    exact hac.not_reaches (mem_reached.mpr ⟨hx, hu⟩) hback
  · intro hac x hcycle
    obtain ⟨u, hu, -⟩ := Relation.TransGen.head'_iff.mp hcycle
    exact hac x (mem_reached.mp hu).1
      (Relation.TransGen.mono (fun _ _ h => (mem_reached.mp h).2) _ _ hcycle)

end Reached

variable {V : Type} [DecidableEq V]

/-! ### The loop -/

/-- What is still to be done with a node. -/
inductive DfsEvent (V : Type) where
  | dfsEnter (v : V)
  | dfsExit (v : V)

/-- Push the nodes that are to be visited and are not marked, and mark them. The top of the stack is
the head of the list. -/
def pushNew (visit : V → Bool) (stack : List (DfsEvent V)) (visited : Finset V) (us : List V) :
    List (DfsEvent V) × Finset V :=
  us.foldl (fun acc u =>
    if visit u = true ∧ u ∉ acc.2 then (.dfsEnter u :: acc.1, insert u acc.2) else acc)
    (stack, visited)

/-- The traversal, with a bound on the number of events. -/
def postOrderForEach {ε σ : Type} (f : σ → V → Except ε σ) (successors : V → Except ε (List V))
    (visit : V → Bool) (endless : ε) : ℕ → List (DfsEvent V) → Finset V → σ → Except ε σ
  | _, [], _, st => .ok st
  | 0, _ :: _, _, _ => .error endless
  | n + 1, .dfsEnter v :: stack, visited, st => do
    let us ← successors v
    let pushed := pushNew visit (.dfsExit v :: stack) visited us
    postOrderForEach f successors visit endless n pushed.1 pushed.2 st
  | n + 1, .dfsExit v :: stack, visited, st => do
    let st ← f st v
    postOrderForEach f successors visit endless n stack visited st

theorem postOrderForEach_nil {ε σ : Type} (f : σ → V → Except ε σ)
    (successors : V → Except ε (List V)) (visit : V → Bool) (endless : ε) (n : ℕ) (S : Finset V)
    (st : σ) : postOrderForEach f successors visit endless n [] S st = .ok st := by
  cases n <;> rfl

/-! ### New successors -/

/-- The members of a list that are not marked, each at its first occurrence. -/
def fresh : List V → Finset V → List V
  | [], _ => []
  | u :: us, S => if u ∈ S then fresh us S else u :: fresh us (insert u S)

theorem mem_fresh {us : List V} {S : Finset V} {u : V} : u ∈ fresh us S ↔ u ∈ us ∧ u ∉ S := by
  induction us generalizing S with
  | nil => simp [fresh]
  | cons x us ih =>
    rw [fresh]
    split_ifs with hx
    · rw [ih, List.mem_cons]
      refine and_congr_left fun hu => (or_iff_right ?_).symm
      rintro rfl
      exact hu hx
    · rw [List.mem_cons, ih, List.mem_cons, Finset.mem_insert, not_or]
      by_cases hux : u = x
      · simp [hux, hx]
      · simp [hux]

theorem fresh_nodup (us : List V) (S : Finset V) : (fresh us S).Nodup := by
  induction us generalizing S with
  | nil => exact List.nodup_nil
  | cons x us ih =>
    rw [fresh]
    split_ifs
    · exact ih S
    · refine List.nodup_cons.mpr ⟨fun hx => ?_, ih _⟩
      exact (mem_fresh.mp hx).2 (Finset.mem_insert_self _ _)

theorem fresh_marked {us : List V} {S : Finset V} :
    ∀ u ∈ (fresh us S).reverse, u ∈ S ∪ (fresh us S).toFinset := fun _ hu =>
  Finset.mem_union_right _ (List.mem_toFinset.mpr (List.mem_reverse.mp hu))

/-- Marking something that is not in the list changes nothing. -/
theorem fresh_insert {us : List V} {S : Finset V} {z : V} (hz : z ∉ us) :
    fresh us (insert z S) = fresh us S := by
  induction us generalizing S with
  | nil => rfl
  | cons x us ih =>
    have hzx : x ≠ z := fun h => hz (h ▸ List.mem_cons_self)
    have hz' : z ∉ us := fun h => hz (List.mem_cons_of_mem _ h)
    rw [fresh, fresh, ih hz', Finset.insert_comm, ih hz']
    simp [hzx]

/-- `y` first occurs after `u`. -/
def Later (us : List V) (u y : V) : Prop := y ∈ us ∧ us.idxOf u < us.idxOf y

theorem Later.mem_left {us : List V} {u y : V} (h : Later us u y) : u ∈ us :=
  List.idxOf_lt_length_iff.mp (h.2.trans (List.idxOf_lt_length_iff.mpr h.1))

theorem Later.mem_right {us : List V} {u y : V} (h : Later us u y) : y ∈ us := h.1

theorem later_or {us : List V} {u y : V} (hu : u ∈ us) (hy : y ∈ us) (hne : u ≠ y) :
    Later us u y ∨ Later us y u := by
  have hidx : us.idxOf u ≠ us.idxOf y := fun h => hne ((List.idxOf_inj hu).mp h)
  exact (lt_or_gt_of_ne hidx).imp (fun h => ⟨hy, h⟩) fun h => ⟨hu, h⟩

/-- New successors are listed in the order of their first occurrences. -/
theorem fresh_pairwise (us : List V) (S : Finset V) : (fresh us S).Pairwise (Later us) := by
  induction us generalizing S with
  | nil => exact List.Pairwise.nil
  | cons x us ih =>
    have hcons : ∀ T : Finset V, x ∈ T → (fresh us T).Pairwise (Later (x :: us)) := by
      intro T hT
      refine (ih T).imp_of_mem fun {u y} hu hy hlater => ⟨List.mem_cons_of_mem _ hlater.1, ?_⟩
      have hux : x ≠ u := fun h => (mem_fresh.mp hu).2 (h ▸ hT)
      have hyx : x ≠ y := fun h => (mem_fresh.mp hy).2 (h ▸ hT)
      rw [List.idxOf_cons_ne _ hux, List.idxOf_cons_ne _ hyx]
      exact Nat.succ_lt_succ hlater.2
    rw [fresh]
    split_ifs with hx
    · exact hcons S hx
    · refine List.pairwise_cons.mpr ⟨fun y hy => ?_, hcons _ (Finset.mem_insert_self _ _)⟩
      obtain ⟨hmem, hnot⟩ := mem_fresh.mp hy
      have hyx : x ≠ y := fun h => hnot (h ▸ Finset.mem_insert_self _ _)
      refine ⟨List.mem_cons_of_mem _ hmem, ?_⟩
      rw [List.idxOf_cons_self, List.idxOf_cons_ne _ hyx]
      exact Nat.succ_pos _

/-- The fresh successors are marked and pushed, so that the last one is entered first. -/
theorem pushNew_eq (visit : V → Bool) (stack : List (DfsEvent V)) (S : Finset V) (us : List V) :
    pushNew visit stack S us =
      ((fresh (us.filter visit) S).reverse.map .dfsEnter ++ stack,
        S ∪ (fresh (us.filter visit) S).toFinset) := by
  induction us generalizing stack S with
  | nil => simp [pushNew, fresh]
  | cons x us ih =>
    rw [pushNew, List.foldl_cons]
    by_cases hvisit : visit x = true
    · rw [List.filter_cons_of_pos hvisit, fresh]
      by_cases hx : x ∈ S
      · rw [if_neg (by simp [hx]), if_pos hx]
        exact ih stack S
      · rw [if_pos ⟨hvisit, hx⟩, if_neg hx]
        refine (ih _ _).trans ?_
        simp [Finset.insert_union]
    · rw [List.filter_cons_of_neg hvisit, if_neg fun h => hvisit h.1]
      exact ih stack S

/-- When the loop ends well, everything that was entered has successors, and those that are to be
visited were marked before or have been entered as well. -/
theorem exists_entered {ε σ : Type} {f : σ → V → Except ε σ} {successors : V → Except ε (List V)}
    {visit : V → Bool} {endless : ε} {n : ℕ} {stack : List (DfsEvent V)} {S : Finset V} {st st' : σ}
    (hloop : postOrderForEach f successors visit endless n stack S st = .ok st') :
    ∃ T : Set V, (∀ v, .dfsEnter v ∈ stack → v ∈ T) ∧ ∀ v ∈ T, ∃ us, successors v = .ok us ∧
      ∀ u ∈ us.filter visit, u ∈ T ∨ u ∈ S := by
  induction n generalizing stack S st with
  | zero =>
    cases stack with
    | nil => exact ⟨∅, fun v hv => absurd hv List.not_mem_nil, fun v hv => absurd hv id⟩
    | cons event stack => cases hloop
  | succ n ih =>
    cases stack with
    | nil => exact ⟨∅, fun v hv => absurd hv List.not_mem_nil, fun v hv => absurd hv id⟩
    | cons event stack =>
      cases event with
      | dfsExit v =>
        obtain ⟨st₁, -, hrest⟩ := bind_eq_ok_iff.mp hloop
        obtain ⟨T, hstack, hT⟩ := ih hrest
        refine ⟨T, fun x hx => hstack x ?_, hT⟩
        simpa using hx
      | dfsEnter v =>
        obtain ⟨us, hus, hrest⟩ := bind_eq_ok_iff.mp hloop
        obtain ⟨T, hstack, hT⟩ := ih hrest
        rw [pushNew_eq] at hstack hT
        simp only [List.mem_append, List.mem_map, List.mem_reverse, List.mem_cons, reduceCtorEq,
          DfsEvent.dfsEnter.injEq, exists_eq_right, false_or, Finset.mem_union,
          List.mem_toFinset] at hstack hT
        -- whatever has been pushed is entered
        have hpushed : ∀ u, (u ∈ T ∨ u ∈ S ∨ u ∈ fresh (us.filter visit) S) →
            u ∈ insert v T ∨ u ∈ S := by
          rintro u (hu | hu | hu)
          · exact Or.inl (Set.mem_insert_of_mem _ hu)
          · exact Or.inr hu
          · exact Or.inl (Set.mem_insert_of_mem _ (hstack u (Or.inl hu)))
        refine ⟨insert v T, fun x hx => ?_, fun x hx => ?_⟩
        · rcases List.mem_cons.mp hx with heq | hx
          · cases heq
            exact Set.mem_insert _ _
          · exact Set.mem_insert_of_mem _ (hstack x (Or.inr hx))
        · rcases hx with rfl | hx
          · refine ⟨us, hus, fun u hu => hpushed u ?_⟩
            by_cases hS : u ∈ S
            · exact Or.inr (Or.inl hS)
            · exact Or.inr (Or.inr (mem_fresh.mpr ⟨hu, hS⟩))
          · obtain ⟨us', hus', hall⟩ := hT x hx
            exact ⟨us', hus', fun u hu => hpushed u (hall u hu)⟩

/-! ### Walks -/

/-- Entering the nodes of a list in order, with everything that this leads to, turns the marks `S`
into `S'`; `out` are the exits. -/
inductive Walks (next : V → List V) : Finset V → List V → Finset V → List V → Prop
  | nil (S : Finset V) : Walks next S [] S []
  | cons {S S₁ S₂ : Finset V} {v : V} {rest out₁ out₂ : List V}
      (below : Walks next (S ∪ (fresh (next v) S).toFinset) (fresh (next v) S).reverse S₁ out₁)
      (after : Walks next S₁ rest S₂ out₂) : Walks next S (v :: rest) S₂ (out₁ ++ v :: out₂)

section Walks

variable {next : V → List V} {S S' : Finset V} {stack out : List V}

/-- Walks exist where there are no cycles. -/
theorem Walks.exists {rank : V → ℕ} (hrank : ∀ x, ∀ y ∈ next x, rank y < rank x) (S : Finset V)
    (stack : List V) : ∃ S' out, Walks next S stack S' out := by
  suffices hbound : ∀ n (stack : List V), (∀ v ∈ stack, rank v < n) → ∀ S : Finset V,
      ∃ S' out, Walks next S stack S' out by
    obtain ⟨n, hn⟩ : ∃ n, ∀ v ∈ stack, rank v < n :=
      ⟨(stack.map rank).sum + 1, fun v hv =>
        Nat.lt_succ_of_le (List.le_sum_of_mem (List.mem_map_of_mem hv))⟩
    exact hbound n stack hn S
  -- the induction is on a bound for the ranks, and then on the stack
  intro n
  induction n with
  | zero =>
    intro stack hstack S
    obtain rfl : stack = [] :=
      List.eq_nil_iff_forall_not_mem.mpr fun v hv => Nat.not_lt_zero _ (hstack v hv)
    exact ⟨S, [], .nil S⟩
  | succ n ih =>
    intro stack
    induction stack with
    | nil => exact fun _ S => ⟨S, [], .nil S⟩
    | cons v rest ihrest =>
      intro hstack S
      have hv := hstack v List.mem_cons_self
      obtain ⟨S₁, out₁, below⟩ := ih (fresh (next v) S).reverse (fun u hu => by
        have hlt := hrank v u (mem_fresh.mp (List.mem_reverse.mp hu)).1
        omega) (S ∪ (fresh (next v) S).toFinset)
      obtain ⟨S₂, out₂, after⟩ :=
        ihrest (fun u hu => hstack u (List.mem_cons_of_mem _ hu)) S₁
      exact ⟨S₂, _, .cons below after⟩

/-- **The loop performs the walk** and calls `f` on the exits in order. -/
theorem Walks.loop_eq {ε σ : Type} {f : σ → V → Except ε σ} {successors : V → Except ε (List V)}
    {visit : V → Bool} {endless : ε} (h : Walks next S stack S' out)
    (hnext : ∀ v ∈ out, ∃ us, successors v = .ok us ∧ us.filter visit = next v) (m : ℕ)
    (tail : List (DfsEvent V)) (st : σ) :
    postOrderForEach f successors visit endless (m + 2 * out.length)
      (stack.map .dfsEnter ++ tail) S st =
        out.foldlM f st >>= postOrderForEach f successors visit endless m tail S' := by
  induction h generalizing m tail st with
  | nil S => rfl
  | @cons S S₁ S₂ v rest out₁ out₂ below after ihbelow ihafter =>
    obtain ⟨us, hus, hfilter⟩ := hnext v (by simp)
    have hlen : m + 2 * (out₁ ++ v :: out₂).length =
        (m + 2 * out₂.length + 1 + 2 * out₁.length) + 1 := by
      simp only [List.length_append, List.length_cons]
      omega
    -- once all below `v` has exited, the loop exits from `v` and enters the rest
    have hexit : ∀ st, postOrderForEach f successors visit endless (m + 2 * out₂.length + 1)
        (.dfsExit v :: (rest.map .dfsEnter ++ tail)) S₁ st =
          f st v >>= fun st => out₂.foldlM f st >>=
            postOrderForEach f successors visit endless m tail S₂ := by
      intro st
      rw [postOrderForEach]
      congr 1
      funext st
      exact ihafter (fun x hx => hnext x (by simp [hx])) m tail st
    rw [hlen, List.map_cons, List.cons_append, postOrderForEach, hus]
    change postOrderForEach f successors visit endless _ _ _ st = _
    rw [pushNew_eq, hfilter, ihbelow (fun x hx => hnext x (by simp [hx])), List.foldlM_append,
      bind_assoc]
    congr 1
    funext st
    rw [hexit, List.foldlM_cons, bind_assoc]

/-- From a root, with enough fuel, the loop ends with the last exit. -/
theorem Walks.loop_eq_foldlM {ε σ : Type} {f : σ → V → Except ε σ}
    {successors : V → Except ε (List V)} {visit : V → Bool} {endless : ε} {root : V}
    (h : Walks next S [root] S' out)
    (hnext : ∀ v ∈ out, ∃ us, successors v = .ok us ∧ us.filter visit = next v) {n : ℕ}
    (hn : 2 * out.length ≤ n) (st : σ) :
    postOrderForEach f successors visit endless n [.dfsEnter root] S st = out.foldlM f st := by
  have hloop : postOrderForEach f successors visit endless (n - 2 * out.length + 2 * out.length)
    [.dfsEnter root] S st = _ := h.loop_eq hnext (n - 2 * out.length) [] st
  rw [Nat.sub_add_cancel hn] at hloop
  have hend : postOrderForEach f successors visit endless (n - 2 * out.length) [] S' = pure := by
    funext st
    exact postOrderForEach_nil f successors visit endless _ S' st
  rw [hloop, hend, bind_pure]

theorem Walks.subset (h : Walks next S stack S' out) : S ⊆ S' := by
  induction h with
  | nil S => exact Finset.Subset.refl S
  | cons _ _ ihbelow ihafter => exact (Finset.subset_union_left.trans ihbelow).trans ihafter

/-- What is on the stack will be visited. -/
theorem Walks.mem_out_of_mem_stack (h : Walks next S stack S' out) {x : V} (hx : x ∈ stack) :
    x ∈ out := by
  induction h with
  | nil S => exact hx
  | cons _ _ _ ihafter =>
    rcases List.mem_cons.mp hx with rfl | hx
    · simp
    · simp [ihafter hx]

/-- What exits was on the list or has been marked on the way. -/
theorem Walks.mem_stack_or (h : Walks next S stack S' out) {x : V} (hx : x ∈ out) :
    x ∈ stack ∨ x ∉ S := by
  induction h with
  | nil S => exact Or.inl hx
  | cons below after ihbelow ihafter =>
    have hsub := Finset.subset_union_left.trans below.subset
    rw [List.mem_append, List.mem_cons] at hx
    rcases hx with hx | rfl | hx
    · exact Or.inr fun hmem => (ihbelow hx).elim
        (fun hx => (mem_fresh.mp (List.mem_reverse.mp hx)).2 hmem)
        (fun hx => hx (Finset.mem_union_left _ hmem))
    · exact Or.inl List.mem_cons_self
    · exact (ihafter hx).imp (List.mem_cons_of_mem _) fun hnot hmem => hnot (hsub hmem)

/-- What exits below a node was not marked when the node was entered. -/
theorem Walks.notMem_of_below {v x : V}
    (h : Walks next (S ∪ (fresh (next v) S).toFinset) (fresh (next v) S).reverse S' out)
    (hx : x ∈ out) : x ∉ S := by
  rcases h.mem_stack_or hx with hx | hx
  · exact (mem_fresh.mp (List.mem_reverse.mp hx)).2
  · exact fun hmem => hx (Finset.mem_union_left _ hmem)

/-- Exits are reached from the list. -/
theorem Walks.reaches (h : Walks next S stack S' out) {x : V} (hx : x ∈ out) :
    ∃ v ∈ stack, Reaches next v x := by
  induction h with
  | nil S => exact absurd hx List.not_mem_nil
  | @cons S S₁ S₂ v rest out₁ out₂ below after ihbelow ihafter =>
    rw [List.mem_append, List.mem_cons] at hx
    rcases hx with hx | rfl | hx
    · obtain ⟨u, hu, hux⟩ := ihbelow hx
      exact ⟨v, List.mem_cons_self, hux.head (mem_fresh.mp (List.mem_reverse.mp hu)).1⟩
    · exact ⟨x, List.mem_cons_self, Reaches.refl x⟩
    · obtain ⟨u, hu, hux⟩ := ihafter hx
      exact ⟨u, List.mem_cons_of_mem _ hu, hux⟩

/-- The marks are those at the start, the list and the exits. -/
theorem Walks.mem_visited (h : Walks next S stack S' out) (hstack : ∀ v ∈ stack, v ∈ S) {x : V} :
    x ∈ S' ↔ x ∈ S ∨ x ∈ out := by
  induction h with
  | nil S => simp
  | @cons S S₁ S₂ v rest out₁ out₂ below after ihbelow ihafter =>
    have hS : S ⊆ S₁ := Finset.subset_union_left.trans below.subset
    have hbelow : x ∈ fresh (next v) S → x ∈ out₁ := fun hx =>
      below.mem_out_of_mem_stack (List.mem_reverse.mpr hx)
    rw [ihafter fun u hu => hS (hstack u (List.mem_cons_of_mem _ hu)), ihbelow fresh_marked,
      Finset.mem_union, List.mem_toFinset, List.mem_append, List.mem_cons]
    constructor
    · rintro (((hx | hx) | hx) | hx)
      · exact Or.inl hx
      · exact Or.inr (Or.inl (hbelow hx))
      · exact Or.inr (Or.inl hx)
      · exact Or.inr (Or.inr (Or.inr hx))
    · rintro (hx | hx | rfl | hx)
      · exact Or.inl (Or.inl (Or.inl hx))
      · exact Or.inl (Or.inr hx)
      · exact Or.inl (Or.inl (Or.inl (hstack x List.mem_cons_self)))
      · exact Or.inr hx

/-- Nothing exits twice. -/
theorem Walks.nodup (h : Walks next S stack S' out) (hstack : ∀ v ∈ stack, v ∈ S)
    (hnodup : stack.Nodup) : out.Nodup := by
  induction h with
  | nil S => exact List.nodup_nil
  | @cons S S₁ S₂ v rest out₁ out₂ below after ihbelow ihafter =>
    obtain ⟨hvrest, hrest⟩ := List.nodup_cons.mp hnodup
    have hS : S ⊆ S₁ := Finset.subset_union_left.trans below.subset
    have hv : v ∈ S := hstack v List.mem_cons_self
    have hrestS : ∀ u ∈ rest, u ∈ S := fun u hu => hstack u (List.mem_cons_of_mem _ hu)
    have hold : ∀ x ∈ out₂, x ∈ S₁ → x ∈ rest := fun x hx hmem =>
      (after.mem_stack_or hx).resolve_right (not_not_intro hmem)
    refine List.nodup_append.mpr ⟨ihbelow fresh_marked (List.nodup_reverse.mpr (fresh_nodup _ _)),
      List.nodup_cons.mpr ⟨fun hx => hvrest (hold v hx (hS hv)),
        ihafter (fun u hu => hS (hrestS u hu)) hrest⟩, ?_⟩
    rintro x hx y hy rfl
    have hnew := below.notMem_of_below hx
    rcases List.mem_cons.mp hy with rfl | hy
    · exact hnew hv
    · have hmarked : x ∈ S₁ := (below.mem_visited fresh_marked).mpr (Or.inr hx)
      exact hnew (hrestS x (hold x hy hmarked))

/-- A walk over two lists is a walk over the first, then one over the second. -/
theorem Walks.of_append {a b : List V} (h : Walks next S (a ++ b) S' out) :
    ∃ S₁ out₁ out₂, Walks next S a S₁ out₁ ∧ Walks next S₁ b S' out₂ ∧ out = out₁ ++ out₂ := by
  induction a generalizing S out with
  | nil => exact ⟨S, [], out, .nil S, h, rfl⟩
  | cons v a ih =>
    rw [List.cons_append] at h
    cases h with
    | cons below after =>
      obtain ⟨S₁, out₁, out₂, ha, hb, rfl⟩ := ih after
      exact ⟨S₁, _, out₂, .cons below ha, hb, by rw [List.append_assoc, List.cons_append]⟩

/-- Marking what no node of the walk has as a successor makes no difference. -/
theorem Walks.insert_mark {z : V} (h : Walks next S stack S' out)
    (hz : ∀ v ∈ stack, ∀ x, Reaches next v x → z ∉ next x) :
    Walks next (insert z S) stack (insert z S') out := by
  induction h with
  | nil S => exact .nil _
  | @cons S S₁ S₂ v rest out₁ out₂ below after ihbelow ihafter =>
    have hzv : z ∉ next v := hz v List.mem_cons_self v (Reaches.refl v)
    have hbelow := ihbelow fun u hu x hux => hz v List.mem_cons_self x
      (hux.head (mem_fresh.mp (List.mem_reverse.mp hu)).1)
    rw [← Finset.insert_union, ← fresh_insert hzv] at hbelow
    exact .cons hbelow (ihafter fun u hu => hz u (List.mem_cons_of_mem _ hu))

end Walks

/-! ### The order of exits -/

section Ways

variable (next : V → List V)

/-- `z'` is the last successor of `z` from which `u` is reached. -/
def Leads (u z z' : V) : Prop :=
  z' ∈ next z ∧ Reaches next z' u ∧ ∀ y, Later (next z) z' y → ¬ Reaches next y u

/-- On the way from `v` towards `u`, whoever has `u` as a successor has no later one from which `u`
is reached. -/
def ClearAt (u v : V) : Prop :=
  ∀ x, Relation.ReflTransGen (Leads next u) v x → ∀ y, Later (next x) u y → ¬ Reaches next y u

variable {next} {u v : V}

theorem Leads.reaches {x : V} (h : Relation.ReflTransGen (Leads next u) v x) : Reaches next v x :=
  Relation.ReflTransGen.mono (fun _ _ h => h.1) _ _ h

/-- Only the nodes from which `u` is reached matter. -/
theorem clearAt_of_not_reaches (h : ¬ Reaches next v u) : ClearAt next u v := fun _ hx _ hlater =>
  absurd ((Leads.reaches hx).tail hlater.mem_left) h

/-- Without two successors there is no choice. -/
theorem clearAt_of_length_le (hnext : ∀ x, (next x).length ≤ 1) (u v : V) : ClearAt next u v := by
  intro x _ y hlater
  have hy := List.idxOf_lt_length_iff.mpr hlater.mem_right
  have hle := hnext x
  have hlt := hlater.2
  omega

/-- The way towards `u` starts at the first node of the list from which `u` is reached. -/
def FirstClear (next : V → List V) (u : V) (stack : List V) : Prop :=
  ∀ a v b, stack = a ++ v :: b → (∀ x ∈ a, ¬ Reaches next x u) → ClearAt next u v

theorem FirstClear.tail {rest : List V} (h : FirstClear next u (v :: rest))
    (hv : ¬ Reaches next v u) : FirstClear next u rest := by
  rintro a x b rfl ha
  refine h (v :: a) x b rfl fun y hy => ?_
  rcases List.mem_cons.mp hy with rfl | hy
  · exact hv
  · exact ha y hy

end Ways

/-- Between two steps of a walk: `D` are the nodes that are done, `S` the marks, `stack` the nodes
to be entered next. -/
structure Ready (next : V → List V) (D : Set V) (S : Finset V) (stack : List V) : Prop where
  closed : Closed next D
  marked : ∀ x ∈ D, x ∈ S
  waiting : ∀ v ∈ stack, v ∈ S ∧ v ∉ D
  nodup : stack.Nodup

section Step

variable {next : V → List V} {D : Set V} {S S₁ : Finset V} {v : V} {rest out₁ : List V}

/-- The successors are walked before the node is left. -/
theorem Ready.below (h : Ready next D S (v :: rest)) :
    Ready next D (S ∪ (fresh (next v) S).toFinset) (fresh (next v) S).reverse where
  closed := h.closed
  marked x hx := Finset.mem_union_left _ (h.marked x hx)
  waiting u hu := ⟨fresh_marked u hu, fun hD =>
    (mem_fresh.mp (List.mem_reverse.mp hu)).2 (h.marked u hD)⟩
  nodup := List.nodup_reverse.mpr (fresh_nodup _ _)

/-- The node is left when its successors are done. -/
theorem Ready.after (h : Ready next D S (v :: rest))
    (below : Walks next (S ∪ (fresh (next v) S).toFinset) (fresh (next v) S).reverse S₁ out₁)
    (hout : Ordered next D out₁) (hv : ∀ u ∈ next v, u ∈ extend D out₁) :
    Ready next (insert v (extend D out₁)) S₁ rest := by
  have hS : S ⊆ S₁ := Finset.subset_union_left.trans below.subset
  obtain ⟨hvrest, hrest⟩ := List.nodup_cons.mp h.nodup
  refine ⟨fun x hx u hu => Set.mem_insert_of_mem _ ?_, fun x hx => ?_, fun x hx => ⟨?_, ?_⟩, hrest⟩
  · rcases hx with rfl | hx
    · exact hv u hu
    · exact h.closed.extend hout x hx u hu
  · rcases hx with rfl | hx | hx
    · exact hS (h.waiting x List.mem_cons_self).1
    · exact hS (h.marked x hx)
    · exact (below.mem_visited fresh_marked).mpr (Or.inr hx)
  · exact hS (h.waiting x (List.mem_cons_of_mem _ hx)).1
  · obtain ⟨hxS, hxD⟩ := h.waiting x (List.mem_cons_of_mem _ hx)
    rintro (rfl | hx' | hx')
    · exact hvrest hx
    · exact hxD hx'
    · exact below.notMem_of_below hx' hxS

/-- The new successors that are entered before `c` are those that are later than `c`. -/
theorem mem_of_fresh_eq {us a b : List V} {c y : V} (h : (fresh us S).reverse = a ++ c :: b) :
    y ∈ a ↔ Later us c y ∧ y ∉ S := by
  have hfresh : fresh us S = b.reverse ++ c :: a.reverse := by
    rw [← List.reverse_reverse (fresh us S), h]
    simp
  have hpair := fresh_pairwise us S
  rw [hfresh, List.pairwise_append, List.pairwise_cons] at hpair
  constructor
  · intro hy
    have hmem : y ∈ fresh us S := by simp [hfresh, hy]
    exact ⟨hpair.2.1.1 y (List.mem_reverse.mpr hy), (mem_fresh.mp hmem).2⟩
  · rintro ⟨hlater, hyS⟩
    have hmem := mem_fresh.mpr ⟨hlater.mem_right, hyS⟩
    rw [hfresh] at hmem
    simp only [List.mem_append, List.mem_cons, List.mem_reverse] at hmem
    rcases hmem with hy | rfl | hy
    · have hbefore := hpair.2.2 y (List.mem_reverse.mpr hy) c List.mem_cons_self
      exact absurd (hlater.2.trans hbefore.2) (lt_irrefl _)
    · exact absurd hlater.2 (lt_irrefl _)
    · exact hy

end Step

section Characterization

variable {next : V → List V} {D : Set V} {S S' : Finset V} {stack out : List V}

/-- Nothing that is waiting is reached from a node that is entered before it. -/
structure Apart (next : V → List V) (D : Set V) (S : Finset V) (stack : List V) : Prop where
  pairwise : stack.Pairwise fun v w => ¬ Reaches next v w
  outside : ∀ v ∈ stack, ∀ w ∈ S, w ∉ D → w ∉ stack → ¬ Reaches next v w

/-- Nothing that is waiting is reached from the node that is entered next. -/
theorem Apart.not_reaches {v w : V} {rest : List V} (h : Apart next D S (v :: rest)) (hw : w ∈ S)
    (hD : w ∉ D) (hne : w ≠ v) : ¬ Reaches next v w := by
  by_cases hrest : w ∈ rest
  · exact (List.pairwise_cons.mp h.pairwise).1 w hrest
  · exact h.outside v List.mem_cons_self w hw hD (by simp [hne, hrest])

section Enter

variable {S₁ : Finset V} {v : V} {rest out₁ : List V}

/-- A successor that was marked before is done. -/
theorem Apart.done_or_fresh (hac : Acyclic next) (h : Apart next D S (v :: rest)) {u : V}
    (hu : u ∈ next v) : u ∈ D ∨ u ∈ fresh (next v) S := by
  by_contra hnot
  rw [not_or, mem_fresh] at hnot
  have huS : u ∈ S := by
    by_contra huS
    exact hnot.2 ⟨hu, huS⟩
  have hne : u ≠ v := by
    rintro rfl
    exact hac.not_reaches hu (Reaches.refl u)
  exact h.not_reaches huS hnot.1 hne (Reaches.head hu (Reaches.refl u))

theorem Apart.below (hac : Acyclic next) (h : Apart next D S (v :: rest))
    (hready : Ready next D S (v :: rest)) (hclear : ∀ u ∉ D, ClearAt next u v) :
    Apart next D (S ∪ (fresh (next v) S).toFinset) (fresh (next v) S).reverse := by
  refine ⟨?_, fun c hc w hw hwD hwnot hreach => ?_⟩
  · refine List.pairwise_reverse.mpr ((fresh_pairwise (next v) S).imp_of_mem ?_)
    intro c c' hc _ hlater
    have hcD : c ∉ D := fun hD => (mem_fresh.mp hc).2 (hready.marked c hD)
    exact hclear c hcD v Relation.ReflTransGen.refl c' hlater
  · have hcv : c ∈ next v := (mem_fresh.mp (List.mem_reverse.mp hc)).1
    have hwS : w ∈ S := by
      rcases Finset.mem_union.mp hw with hw | hw
      · exact hw
      · exact absurd (List.mem_reverse.mpr (List.mem_toFinset.mp hw)) hwnot
    have hne : w ≠ v := by
      rintro rfl
      exact hac.not_reaches hcv hreach
    exact h.not_reaches hwS hwD hne (hreach.head hcv)

theorem Apart.after (h : Apart next D S (v :: rest))
    (below : Walks next (S ∪ (fresh (next v) S).toFinset) (fresh (next v) S).reverse S₁ out₁) :
    Apart next (insert v (extend D out₁)) S₁ rest := by
  refine ⟨(List.pairwise_cons.mp h.pairwise).2, fun x hx w hw hwD hwrest => ?_⟩
  have hwv : w ≠ v := fun heq => hwD (Or.inl heq)
  have hwD' : w ∉ D := fun h => hwD (Or.inr (Or.inl h))
  have hwout : w ∉ out₁ := fun h => hwD (Or.inr (Or.inr h))
  have hwS : w ∈ S := by
    rcases (below.mem_visited fresh_marked).mp hw with hw | hw
    · rcases Finset.mem_union.mp hw with hw | hw
      · exact hw
      · exact absurd (below.mem_out_of_mem_stack
          (List.mem_reverse.mpr (List.mem_toFinset.mp hw))) hwout
    · exact absurd hw hwout
  exact h.outside x (List.mem_cons_of_mem _ hx) w hwS hwD' (by simp [hwv, hwrest])

/-- The way towards `u` goes on at the last successor from which `u` is reached, and this is the
first to be entered. -/
theorem ClearAt.firstClear_below {u : V} (hclosed : Closed next D) (hu : u ∉ D)
    (hnext : ∀ y ∈ next v, y ∈ D ∨ y ∈ fresh (next v) S) (hclear : ClearAt next u v) :
    FirstClear next u (fresh (next v) S).reverse := by
  intro a c b hsplit ha
  by_cases hcu : Reaches next c u
  · have hcmem : c ∈ fresh (next v) S := by
      rw [← List.mem_reverse, hsplit]
      simp
    have hleads : Leads next u v c := by
      refine ⟨(mem_fresh.mp hcmem).1, hcu, fun y hy hyu => ?_⟩
      rcases hnext y hy.mem_right with hyD | hyfresh
      · exact hu (hclosed.mem hyD hyu)
      · exact ha y ((mem_of_fresh_eq hsplit).mpr ⟨hy, (mem_fresh.mp hyfresh).2⟩) hyu
    exact fun x hx => hclear x (hx.head hleads)
  · exact clearAt_of_not_reaches hcu

/-- If the exits are in order, a new successor that is entered before `u` exits with all that it
reaches, so that `u` is not among it. -/
theorem Walks.not_reaches_of_later {u y : V} (hready : Ready next D S (v :: rest))
    (below : Walks next (S ∪ (fresh (next v) S).toFinset) (fresh (next v) S).reverse S₁ out₁)
    (hbelow : Ordered next D out₁) (hnext : ∀ y ∈ next v, y ∈ D ∨ y ∈ fresh (next v) S)
    (hu : u ∉ S) (hlater : Later (next v) u y) : ¬ Reaches next y u := by
  intro hyu
  have huD : u ∉ D := fun h => hu (hready.marked u h)
  have hyD : y ∉ D := fun h => huD (hready.closed.mem h hyu)
  have hufresh : u ∈ fresh (next v) S := mem_fresh.mpr ⟨hlater.mem_left, hu⟩
  obtain ⟨a, b, hsplit⟩ := List.append_of_mem (List.mem_reverse.mpr hufresh)
  have hya : y ∈ a := (mem_of_fresh_eq hsplit).mpr
    ⟨hlater, (mem_fresh.mp ((hnext y hlater.mem_right).resolve_left hyD)).2⟩
  have hwalk := below
  rw [hsplit] at hwalk
  obtain ⟨T, o, o', hfirst, -, rfl⟩ := hwalk.of_append
  have hclosed := hready.closed.extend (ordered_append.mp hbelow).1
  have hyo : y ∈ extend D o := Or.inr (hfirst.mem_out_of_mem_stack hya)
  rcases hclosed.mem hyo hyu with hu' | hu'
  · exact huD hu'
  · rcases hfirst.mem_stack_or hu' with hu' | hu'
    · exact absurd ((mem_of_fresh_eq hsplit).mp hu').1.2 (lt_irrefl _)
    · exact hu' (fresh_marked u (List.mem_reverse.mpr hufresh))

end Enter

/-- If the ways are clear, the exits are in order. -/
theorem Walks.ordered_of_clear (hac : Acyclic next) (h : Walks next S stack S' out)
    (hready : Ready next D S stack) (hapart : Apart next D S stack)
    (hclear : ∀ u ∉ D, FirstClear next u stack) : Ordered next D out := by
  induction h generalizing D with
  | nil S => trivial
  | @cons S S₁ S₂ v rest out₁ out₂ below after ihbelow ihafter =>
    have hclearv : ∀ u ∉ D, ClearAt next u v := fun u hu =>
      hclear u hu [] v rest rfl fun x hx => absurd hx List.not_mem_nil
    have hnext : ∀ u ∈ next v, u ∈ D ∨ u ∈ fresh (next v) S := fun u hu =>
      hapart.done_or_fresh hac hu
    have hbelow : Ordered next D out₁ :=
      ihbelow hready.below (hapart.below hac hready hclearv) fun u hu =>
        (hclearv u hu).firstClear_below hready.closed hu hnext
    have hv : ∀ u ∈ next v, u ∈ extend D out₁ := fun u hu => (hnext u hu).imp_right fun hu =>
      below.mem_out_of_mem_stack (List.mem_reverse.mpr hu)
    have hready' := hready.after below hbelow hv
    refine ordered_append.mpr ⟨hbelow, hv, ihafter hready' (hapart.after below) fun u hu => ?_⟩
    refine (hclear u fun h => hu (Or.inr (Or.inl h))).tail fun hvu => hu ?_
    exact hready'.closed.mem (Set.mem_insert v _) hvu

/-- If the exits are in order, the ways to what is not marked yet are clear. -/
theorem Walks.clear_of_ordered (hac : Acyclic next) (h : Walks next S stack S' out)
    (hready : Ready next D S stack) (hout : Ordered next D out) {u : V} (hu : u ∉ S) :
    FirstClear next u stack := by
  induction h generalizing D with
  | nil S =>
    rintro a v b hnil
    simp at hnil
  | @cons S S₁ S₂ v rest out₁ out₂ below after ihbelow ihafter =>
    obtain ⟨hbelow, hv, hafter⟩ := ordered_append.mp hout
    have hnext : ∀ y ∈ next v, y ∈ D ∨ y ∈ fresh (next v) S := fun y hy =>
      (hv y hy).imp_right fun hy' => mem_fresh.mpr ⟨hy, below.notMem_of_below hy'⟩
    have hbefore : ∀ y, Later (next v) u y → ¬ Reaches next y u := fun y =>
      below.not_reaches_of_later hready hbelow hnext hu
    intro a x b hsplit ha
    cases a with
    | nil =>
      obtain ⟨rfl, rfl⟩ := List.cons.inj hsplit
      intro z hz y hlater
      rcases Relation.ReflTransGen.cases_head hz with rfl | ⟨c, hleads, hcz⟩
      · exact hbefore y hlater
      · -- the way goes on below `v`, at the first of the new successors from which `u` is reached
        obtain ⟨hc, hcu, hlast⟩ := hleads
        have hcu' : c ≠ u := by
          rintro rfl
          exact absurd (Leads.reaches hcz) (hac.not_reaches hlater.mem_left)
        have hunext : u ∉ next v := fun hmem => (later_or hc hmem hcu').elim
          (fun h => hlast u h (Reaches.refl u)) fun h => hbefore c h hcu
        have hcfresh := (hnext c hc).resolve_left fun h =>
          hu (hready.marked u (hready.closed.mem h hcu))
        obtain ⟨a, b, hsplit'⟩ := List.append_of_mem (List.mem_reverse.mpr hcfresh)
        refine ihbelow hready.below hbelow ?_ a c b hsplit' (fun x hx => ?_) z hcz y hlater
        · rw [Finset.mem_union, List.mem_toFinset, mem_fresh]
          exact fun h => h.elim hu fun h => hunext h.1
        · exact hlast x ((mem_of_fresh_eq hsplit').mp hx).1
    | cons w a =>
      obtain ⟨rfl, rfl⟩ := List.cons.inj hsplit
      have hvu : ¬ Reaches next v u := ha v List.mem_cons_self
      refine ihafter (hready.after below hbelow hv) hafter ?_ a x b rfl fun y hy =>
        ha y (List.mem_cons_of_mem _ hy)
      rw [below.mem_visited fresh_marked, Finset.mem_union, List.mem_toFinset, mem_fresh]
      rintro ((h | h) | h)
      · exact hu h
      · exact hvu (Reaches.head h.1 (Reaches.refl u))
      · obtain ⟨c, hc, hcu⟩ := below.reaches h
        exact hvu (hcu.head (mem_fresh.mp (List.mem_reverse.mp hc)).1)

/-- The root may as well be marked. -/
theorem Walks.mark_root (hac : Acyclic next) {root : V} (h : Walks next ∅ [root] S' out) :
    Walks next {root} [root] (insert root S') out := by
  have hmarked := h.insert_mark fun v hv x hx hmem => hac.not_reaches hmem
    (List.mem_singleton.mp hv ▸ hx)
  exact hmarked

theorem Walks.nodup_of_root (hac : Acyclic next) {root : V} (h : Walks next ∅ [root] S' out) :
    out.Nodup :=
  (h.mark_root hac).nodup (by simp) (List.nodup_singleton root)

/-- A walk in post-order exits from everything that is reached. -/
theorem Walks.mem_out_iff {root : V} (h : Walks next ∅ [root] S' out) (hout : Ordered next ∅ out)
    {x : V} : x ∈ out ↔ Reaches next root x := by
  constructor
  · intro hx
    obtain ⟨v, hv, hvx⟩ := h.reaches hx
    exact List.mem_singleton.mp hv ▸ hvx
  · intro hx
    have hempty : Closed next ∅ := fun y hy => absurd hy (Set.notMem_empty y)
    have hroot : root ∈ extend ∅ out := Or.inr (h.mem_out_of_mem_stack (List.mem_singleton_self _))
    exact ((hempty.extend hout).mem hroot hx).resolve_left (Set.notMem_empty x)

/-- **The walk from a root exits in post-order if and only if every way is clear.** -/
theorem Walks.ordered_iff (hac : Acyclic next) {root : V} (h : Walks next ∅ [root] S' out) :
    Ordered next ∅ out ↔ ∀ u, ClearAt next u root := by
  have hwalk := h.mark_root hac
  have hready : Ready next ∅ {root} [root] :=
    ⟨fun x hx => absurd hx (Set.notMem_empty x), fun x hx => absurd hx (Set.notMem_empty x),
      fun v hv => by simpa using hv, List.nodup_singleton root⟩
  constructor
  · intro hout u
    by_cases hu : u = root
    · subst hu
      exact fun x hx y hlater => absurd (Leads.reaches hx) (hac.not_reaches hlater.mem_left)
    · exact hwalk.clear_of_ordered hac hready hout (by simpa using hu) [] root [] rfl (by simp)
  · intro hclear
    refine hwalk.ordered_of_clear hac hready ⟨List.pairwise_singleton _ _, ?_⟩ fun u _ => ?_
    · intro v _ w hw _ hwnot
      exact absurd (List.mem_singleton.mpr (Finset.mem_singleton.mp hw)) hwnot
    · intro a v b hsplit ha
      cases a with
      | nil =>
        obtain ⟨rfl, -⟩ := List.cons.inj hsplit
        exact hclear u
      | cons w a => simp at hsplit

end Characterization

/-! ### Graphs with cycles

A walk only sees what it reaches, and it ends because it marks. So the characterization holds in
every graph in which finitely many nodes are reached: the exits are in post-order if and only if
nothing that is reached lies on a cycle, and every way is clear. -/

section Cycles

variable {next : V → List V} {S S' : Finset V} {stack out : List V} {root : V}

/-- The steps for an event: to enter a node in `U` leads to its exit, to enter another one is an
error. -/
def DfsEvent.steps (U : Finset V) : DfsEvent V → ℕ
  | .dfsEnter v => if v ∈ U then 2 else 0
  | .dfsExit _ => 1

/-- The steps that are left until the traversal ends. -/
def stepsLeft (U S : Finset V) (stack : List (DfsEvent V)) : ℕ :=
  2 * (U \ S).card + (stack.map (DfsEvent.steps U)).sum

/-- Entering costs two steps for each node that is new. -/
theorem sum_steps_enter (U : Finset V) (us : List V) :
    ((us.map DfsEvent.dfsEnter).map (DfsEvent.steps U)).sum = 2 * (us.filter (· ∈ U)).length := by
  induction us with
  | nil => rfl
  | cons u us ih =>
    rw [List.map_cons, List.map_cons, List.sum_cons, ih, DfsEvent.steps]
    by_cases hu : u ∈ U
    · rw [if_pos hu, List.filter_cons_of_pos (by simpa using hu), List.length_cons]
      omega
    · rw [if_neg hu, List.filter_cons_of_neg (by simpa using hu), zero_add]

/-- To mark a node in `U` pays for entering it. -/
theorem card_sdiff_fresh (U S : Finset V) (us : List V) :
    (U \ (S ∪ (fresh us S).toFinset)).card + ((fresh us S).filter (· ∈ U)).length =
      (U \ S).card := by
  have hsub : ((fresh us S).filter (· ∈ U)).toFinset ⊆ U \ S := by
    intro u hu
    obtain ⟨hu, huU⟩ := List.mem_filter.mp (List.mem_toFinset.mp hu)
    exact Finset.mem_sdiff.mpr ⟨by simpa using huU, (mem_fresh.mp hu).2⟩
  have hsdiff : U \ (S ∪ (fresh us S).toFinset) =
      (U \ S) \ ((fresh us S).filter (· ∈ U)).toFinset := by
    ext u
    simp only [Finset.mem_sdiff, Finset.mem_union, List.mem_toFinset, List.mem_filter,
      decide_eq_true_eq, not_or, not_and]
    tauto
  rw [hsdiff, ← List.toFinset_card_of_nodup ((fresh_nodup us S).filter _)]
  exact Finset.card_sdiff_add_card_eq_card hsub

/-- **The traversal ends** on any graph: a node without successors ends it, and every other one is
entered once, but for those on the stack. -/
theorem postOrderForEach_ne_endless {ε σ : Type} {f : σ → V → Except ε σ}
    {successors : V → Except ε (List V)} {visit : V → Bool} {endless : ε} {U : Finset V}
    (hf : ∀ st v, f st v ≠ .error endless) (hs : ∀ v, successors v ≠ .error endless)
    (hU : ∀ v us, successors v = .ok us → v ∈ U) {n : ℕ} {stack : List (DfsEvent V)}
    {S : Finset V} {st : σ} (hn : stepsLeft U S stack < n) :
    postOrderForEach f successors visit endless n stack S st ≠ .error endless := by
  induction n generalizing stack S st with
  | zero => exact absurd hn (Nat.not_lt_zero _)
  | succ n ih =>
    cases stack with
    | nil => exact nofun
    | cons event stack =>
      rw [stepsLeft, List.map_cons, List.sum_cons] at hn
      cases event with
      | dfsExit v =>
        rw [postOrderForEach]
        cases hstep : f st v with
        | error e => exact fun hloop => hf st v (hstep.trans hloop)
        | ok st₁ =>
          have hexit : DfsEvent.steps U (.dfsExit v) = 1 := rfl
          refine ih ?_
          rw [stepsLeft]
          omega
      | dfsEnter v =>
        rw [postOrderForEach]
        cases hus : successors v with
        | error e =>
          intro hloop
          obtain rfl : e = endless := Except.error.inj hloop
          exact hs v hus
        | ok us =>
          have henter : DfsEvent.steps U (.dfsEnter v) = 2 := if_pos (hU v us hus)
          have hexit : DfsEvent.steps U (.dfsExit v) = 1 := rfl
          have hpay := card_sdiff_fresh U S (us.filter visit)
          simp only [pushNew_eq]
          refine ih ?_
          rw [stepsLeft, List.map_append, List.sum_append, sum_steps_enter, List.filter_reverse,
            List.length_reverse, List.map_cons, List.sum_cons]
          omega

/-- Walks exist where finitely many nodes are reached. -/
theorem Walks.exists_of_finite {U : Finset V} (hU : ∀ x ∈ U, ∀ u ∈ next x, u ∈ U)
    (hstack : ∀ v ∈ stack, v ∈ U) (S : Finset V) : ∃ S' out, Walks next S stack S' out := by
  -- the induction is on the nodes that are not marked, and then on the stack
  induction hn : (U \ S).card using Nat.strong_induction_on generalizing S stack with
  | _ n ih =>
    induction stack generalizing S n with
    | nil => exact ⟨S, [], .nil S⟩
    | cons v rest ihrest =>
      have hv := hstack v List.mem_cons_self
      have hbelow : ∃ S₁ out₁, Walks next (S ∪ (fresh (next v) S).toFinset)
          (fresh (next v) S).reverse S₁ out₁ := by
        cases hfresh : fresh (next v) S with
        | nil => exact ⟨_, [], .nil _⟩
        | cons u us =>
          have hu : u ∈ next v ∧ u ∉ S := mem_fresh.mp (hfresh ▸ List.mem_cons_self)
          refine ih _ ?_ (fun x hx => ?_) _ rfl
          · rw [← hn]
            refine Finset.card_lt_card (Finset.ssubset_iff_of_subset ?_ |>.mpr ⟨u, ?_, ?_⟩)
            · exact Finset.sdiff_subset_sdiff (Finset.Subset.refl U) Finset.subset_union_left
            · exact Finset.mem_sdiff.mpr ⟨hU v hv u hu.1, hu.2⟩
            · simp
          · rw [← hfresh, List.mem_reverse, mem_fresh] at hx
            exact hU v hv x hx.1
      obtain ⟨S₁, out₁, below⟩ := hbelow
      have hle : (U \ S₁).card ≤ n := by
        rw [← hn]
        exact Finset.card_le_card (Finset.sdiff_subset_sdiff (Finset.Subset.refl U)
          (Finset.subset_union_left.trans below.subset))
      obtain ⟨S₂, out₂, after⟩ := ihrest (U \ S₁).card
        (fun l hl {stack'} hstack' S' => ih l (hl.trans_le hle) hstack' S')
        (fun x hx => hstack x (List.mem_cons_of_mem _ hx)) S₁ rfl
      exact ⟨S₂, _, .cons below after⟩

/-- Only what is reached is marked. -/
theorem Walks.visited_subset {U : Finset V} (h : Walks next S stack S' out)
    (hU : ∀ x ∈ U, ∀ u ∈ next x, u ∈ U) (hstack : ∀ v ∈ stack, v ∈ U) (hS : S ⊆ U) : S' ⊆ U := by
  induction h with
  | nil S => exact hS
  | @cons S S₁ S₂ v rest out₁ out₂ below after ihbelow ihafter =>
    have hfresh : ∀ u ∈ fresh (next v) S, u ∈ U := fun u hu =>
      hU v (hstack v List.mem_cons_self) u (mem_fresh.mp hu).1
    refine ihafter (fun x hx => hstack x (List.mem_cons_of_mem _ hx)) (ihbelow ?_ ?_)
    · exact fun u hu => hfresh u (List.mem_reverse.mp hu)
    · exact Finset.union_subset hS fun u hu => hfresh u (List.mem_toFinset.mp hu)

/-- Every exit but those of the list is that of a node marked on the way. -/
theorem Walks.length_out_add (h : Walks next S stack S' out) :
    out.length + S.card = stack.length + S'.card := by
  induction h with
  | nil S => rfl
  | @cons S S₁ S₂ v rest out₁ out₂ below after ihbelow ihafter =>
    have hmarked : (S ∪ (fresh (next v) S).toFinset).card = S.card + (fresh (next v) S).length := by
      rw [Finset.card_union_of_disjoint, List.toFinset_card_of_nodup (fresh_nodup _ _)]
      exact Finset.disjoint_right.mpr fun u hu => (mem_fresh.mp (List.mem_toFinset.mp hu)).2
    rw [hmarked, List.length_reverse] at ihbelow
    rw [List.length_append, List.length_cons, List.length_cons]
    omega

theorem leads_reached {u z z' : V} (hz : Reaches next root z) :
    Leads (reached next root) u z z' ↔ Leads next u z z' := by
  rw [Leads, Leads, reached_eq hz]
  refine and_congr_right fun hmem => and_congr (reaches_reached (hz.tail hmem)) ?_
  exact forall₂_congr fun y hy => not_congr (reaches_reached (hz.tail hy.mem_right))

theorem clearAt_reached {u : V} : ClearAt (reached next root) u root ↔ ClearAt next u root := by
  have hways : ∀ x, Relation.ReflTransGen (Leads (reached next root) u) root x ↔
      Relation.ReflTransGen (Leads next u) root x := by
    intro x
    constructor
    · intro h
      induction h with
      | refl => exact Relation.ReflTransGen.refl
      | tail _ hstep ih => exact ih.tail ((leads_reached (Leads.reaches ih)).mp hstep)
    · intro h
      induction h with
      | refl => exact Relation.ReflTransGen.refl
      | tail hway hstep ih => exact ih.tail ((leads_reached (Leads.reaches hway)).mpr hstep)
  refine forall_congr' fun x => ?_
  rw [hways]
  refine forall_congr' fun hx => ?_
  have hreach := Leads.reaches hx
  rw [reached_eq hreach]
  exact forall₂_congr fun y hy => not_congr (reaches_reached (hreach.tail hy.mem_right))

/-- **The walk from a root exits in post-order if and only if** it reaches no cycle and every way is
clear. -/
theorem Walks.ordered_reached_iff (h : Walks (reached next root) ∅ [root] S' out) :
    Ordered (reached next root) ∅ out ↔
      (∀ x, Reaches next root x → ¬ Relation.TransGen (fun x y => y ∈ next x) x x) ∧
        ∀ u, ClearAt next u root := by
  rw [← acyclic_reached_iff]
  constructor
  · intro hout
    have hac : Acyclic (reached next root) := by
      intro x hcycle
      have hx : Reaches (reached next root) root x := by
        obtain ⟨u, hu, -⟩ := Relation.TransGen.head'_iff.mp hcycle
        exact (reaches_reached (Reaches.refl root)).mpr (mem_reached.mp hu).1
      exact hout.not_transGen (fun y hy => absurd hy (Set.notMem_empty y))
        (fun y hy => absurd hy (Set.notMem_empty y)) x ((h.mem_out_iff hout).mpr hx) hcycle
    exact ⟨hac, fun u => clearAt_reached.mp ((h.ordered_iff hac).mp hout u)⟩
  · rintro ⟨hac, hclear⟩
    exact (h.ordered_iff hac).mpr fun u => clearAt_reached.mpr (hclear u)

end Cycles

end PostOrder
