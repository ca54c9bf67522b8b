import Mathlib.Data.List.Nodup
import Mathlib.Data.List.Infix
import Mathlib.Logic.Relation
import Mathlib.Tactic

/-!
# Ancestors, level order and walks that end at a repetition

A DAG is a function `parents : α → List α` with a rank that falls along it. `Reaches` is the
reflexive-transitive closure; `levels` lists the unfolded ancestor *tree* level by level, so a
node occurs once per path to it.

`queueWalk` is breadth-first traversal with a set of seen keys which **ends** at the first
repeated key instead of skipping it. Up to that point the queue grows exactly as the tree
listing does, so the walk is the longest repetition-free prefix of the level order
(`queueWalk_eq_takeFresh`, `mem_takeFresh_iff`).
-/

namespace Ancestry

variable {α β : Type*} (parents : α → List α)

/-- `y` is reached from `x` along parent links, in zero or more steps. -/
def Reaches : α → α → Prop := Relation.ReflTransGen fun x y => y ∈ parents x

/-- No node is reached from itself in one or more steps. -/
def Acyclic : Prop := ∀ x, ¬ Relation.TransGen (fun x y => y ∈ parents x) x x

variable {parents}

theorem Reaches.refl (x : α) : Reaches parents x x := Relation.ReflTransGen.refl

theorem Reaches.head {x y z : α} (h : y ∈ parents x) (hz : Reaches parents y z) :
    Reaches parents x z := Relation.ReflTransGen.head h hz

theorem Reaches.tail {x y z : α} (hy : Reaches parents x y) (h : z ∈ parents y) :
    Reaches parents x z := Relation.ReflTransGen.tail hy h

theorem Reaches.trans {x y z : α} (hy : Reaches parents x y) (hz : Reaches parents y z) :
    Reaches parents x z := Relation.ReflTransGen.trans hy hz

theorem reaches_iff_eq_or {x z : α} :
    Reaches parents x z ↔ x = z ∨ ∃ y ∈ parents x, Reaches parents y z := by
  rw [Reaches, Relation.ReflTransGen.cases_head_iff]

/-- Reachability only reads the parents of nodes that are reached. -/
theorem Reaches.congr {parents' : α → List α} {x z : α} (h : Reaches parents x z)
    (hp : ∀ y, Reaches parents x y → parents' y = parents y) : Reaches parents' x z := by
  induction h with
  | refl => exact Reaches.refl x
  | tail hy hz ih => exact ih.tail (by rw [hp _ hy]; exact hz)

/-- A set closed under parents contains everything reached from it. -/
theorem Reaches.mem_of_closed {S : α → Prop} (hS : ∀ x, S x → ∀ y ∈ parents x, S y) {x z : α}
    (hx : S x) (h : Reaches parents x z) : S z := by
  induction h with
  | refl => exact hx
  | tail _ hz ih => exact hS _ ih _ hz

/-- Without cycles, no ancestor leads back. -/
theorem Acyclic.not_reaches (hac : Acyclic parents) {x y : α} (h : y ∈ parents x) :
    ¬ Reaches parents y x := fun hback => hac x (Relation.TransGen.head' h hback)

/-! ### Avoiding a set -/

/-- `y` is reached from `x` along parent links without entering `S`; where the path starts does not
matter. -/
def ReachesOutside (parents : α → List α) (S : α → Prop) : α → α → Prop :=
  Relation.ReflTransGen fun x y => y ∈ parents x ∧ ¬ S y

theorem ReachesOutside.reaches {S : α → Prop} {x z : α} (h : ReachesOutside parents S x z) :
    Reaches parents x z := Relation.ReflTransGen.mono (fun _ _ hy => hy.1) _ _ h

theorem reachesOutside_false {x z : α} :
    ReachesOutside parents (fun _ => False) x z ↔ Reaches parents x z := by
  simp [ReachesOutside, Reaches]

/-- A path that avoids a set is empty, or its first step does. -/
theorem reachesOutside_iff_eq_or {S : α → Prop} {x z : α} : ReachesOutside parents S x z ↔
    x = z ∨ ∃ y ∈ parents x, ¬ S y ∧ ReachesOutside parents S y z := by
  rw [ReachesOutside, Relation.ReflTransGen.cases_head_iff]
  simp only [and_assoc]

/-- A set that contains the parents of its members outside `S` contains what is reached from such a
member. -/
theorem ReachesOutside.mem_of_closed {S T : α → Prop}
    (hT : ∀ x, T x → S x ∨ ∀ y ∈ parents x, T y) {x z : α} (hx : T x) (hxS : ¬ S x)
    (h : ReachesOutside parents S x z) : T z := by
  have hboth : T z ∧ ¬ S z := by
    induction h with
    | refl => exact ⟨hx, hxS⟩
    | tail _ hz ih => exact ⟨(hT _ ih.1).resolve_left ih.2 _ hz.1, hz.2⟩
  exact hboth.1

section Rank

variable {rank : α → ℕ} (hrank : ∀ x, ∀ y ∈ parents x, rank y < rank x)

include hrank

theorem rank_lt_of_transGen {x y : α}
    (h : Relation.TransGen (fun x y => y ∈ parents x) x y) : rank y < rank x := by
  induction h with
  | single h => exact hrank _ _ h
  | tail _ h ih => exact (hrank _ _ h).trans ih

/-- **A relation that lowers a rank has no cycles.** -/
theorem acyclic_of_rank : Acyclic parents :=
  fun _ h => Nat.lt_irrefl _ (rank_lt_of_transGen hrank h)

theorem rank_le_of_reaches {x y : α} (h : Reaches parents x y) : rank y ≤ rank x := by
  induction h with
  | refl => exact Nat.le_refl _
  | tail _ h ih => exact (hrank _ _ h).le.trans ih

end Rank

/-! ### Level order of the unfolded tree -/

/-- The first `d` levels of the ancestor tree below a list of roots, level by level. -/
def levels (parents : α → List α) : ℕ → List α → List α
  | 0, _ => []
  | d + 1, l => l ++ levels parents d (l.flatMap parents)

/-- The level at depth `d`. -/
def level (parents : α → List α) : ℕ → List α → List α
  | 0, l => l
  | d + 1, l => level parents d (l.flatMap parents)

/-- Moving the front of a level behind the rest of the queue, with its parents, changes the
listing only at the cut-off depth. -/
theorem levels_append (d : ℕ) (a b : List α) :
    levels parents d (a ++ b) ++ level parents d a =
      a ++ levels parents d (b ++ a.flatMap parents) := by
  induction d generalizing a b with
  | zero => simp [levels, level]
  | succ d ih =>
    have h := ih (a.flatMap parents) (b.flatMap parents)
    simp only [levels, level, List.flatMap_append, List.append_assoc] at h ⊢
    rw [h]

/-- Levels below the rank of all nodes are empty. -/
theorem level_eq_nil {rank : α → ℕ} (hrank : ∀ x, ∀ y ∈ parents x, rank y < rank x) {d : ℕ}
    {l : List α} (hl : ∀ x ∈ l, rank x < d) : level parents d l = [] := by
  induction d generalizing l with
  | zero =>
    exact List.eq_nil_iff_forall_not_mem.mpr fun x hx => absurd (hl x hx) (Nat.not_lt_zero _)
  | succ d ih =>
    refine ih fun y hy => ?_
    obtain ⟨x, hx, hyx⟩ := List.mem_flatMap.mp hy
    have h1 := hl x hx
    have h2 := hrank x y hyx
    omega

/-- The levels of a queue begin with its first node, whose parents join the queue. -/
theorem levels_cons {rank : α → ℕ} (hrank : ∀ x, ∀ y ∈ parents x, rank y < rank x) {d : ℕ}
    {x : α} (hx : rank x < d) (q : List α) :
    levels parents d (x :: q) = x :: levels parents d (q ++ parents x) := by
  have h : levels parents d ([x] ++ q) ++ level parents d [x] =
      [x] ++ levels parents d (q ++ [x].flatMap parents) := levels_append d [x] q
  rw [level_eq_nil hrank (by simpa using hx)] at h
  simpa using h

@[simp] theorem levels_nil (d : ℕ) : levels parents d [] = [] := by
  induction d with
  | zero => rfl
  | succ d ih => simpa [levels] using ih

/-- The level order only reads the parents of nodes that are reached. -/
theorem levels_congr {parents' : α → List α} {d : ℕ} {l : List α}
    (h : ∀ x ∈ l, ∀ y, Reaches parents x y → parents' y = parents y) :
    levels parents' d l = levels parents d l := by
  induction d generalizing l with
  | zero => rfl
  | succ d ih =>
    have hnext : l.flatMap parents' = l.flatMap parents :=
      List.flatMap_congr fun x hx => h x hx x (Reaches.refl x)
    rw [levels, levels, hnext, ih]
    intro y hy z hyz
    obtain ⟨x, hx, hxy⟩ := List.mem_flatMap.mp hy
    exact h x hx z (hyz.head hxy)

/-- The level order lists exactly the ancestors. -/
theorem mem_levels_iff {rank : α → ℕ} (hrank : ∀ x, ∀ y ∈ parents x, rank y < rank x) {d : ℕ}
    {l : List α} (hl : ∀ x ∈ l, rank x < d) {z : α} :
    z ∈ levels parents d l ↔ ∃ x ∈ l, Reaches parents x z := by
  induction d generalizing l with
  | zero =>
    have hnil : l = [] :=
      List.eq_nil_iff_forall_not_mem.mpr fun x hx => absurd (hl x hx) (Nat.not_lt_zero _)
    simp [hnil]
  | succ d ih =>
    have hstep : ∀ y ∈ l.flatMap parents, rank y < d := by
      intro y hy
      obtain ⟨x, hx, hyx⟩ := List.mem_flatMap.mp hy
      have h1 := hl x hx
      have h2 := hrank x y hyx
      omega
    rw [levels, List.mem_append, ih hstep]
    constructor
    · rintro (hz | ⟨y, hy, hyz⟩)
      · exact ⟨z, hz, Reaches.refl z⟩
      · obtain ⟨x, hx, hyx⟩ := List.mem_flatMap.mp hy
        exact ⟨x, hx, hyz.head hyx⟩
    · rintro ⟨x, hx, hxz⟩
      rcases reaches_iff_eq_or.mp hxz with rfl | ⟨y, hy, hyz⟩
      · exact Or.inl hx
      · exact Or.inr ⟨y, List.mem_flatMap.mpr ⟨x, hx, hy⟩, hyz⟩

/-! ### Prefixes without repetition -/

variable [DecidableEq β] (key : α → β)

/-- The part of a list before the first element whose key is in `seen` or repeats an earlier
one. -/
def takeFresh : List β → List α → List α
  | _, [] => []
  | seen, x :: l => if key x ∈ seen then [] else x :: takeFresh (key x :: seen) l

theorem takeFresh_prefix (seen : List β) (l : List α) : takeFresh key seen l <+: l := by
  induction l generalizing seen with
  | nil => exact List.prefix_refl _
  | cons x l ih =>
    rw [takeFresh]
    split_ifs
    · exact List.nil_prefix
    · exact (List.prefix_cons_inj x).mpr (ih _)

theorem takeFresh_nodup (seen : List β) (l : List α) :
    ((takeFresh key seen l).map key).Nodup ∧ ∀ x ∈ takeFresh key seen l, key x ∉ seen := by
  induction l generalizing seen with
  | nil => simp [takeFresh]
  | cons x l ih =>
    rw [takeFresh]
    split_ifs with hx
    · simp
    · obtain ⟨hnd, hseen⟩ := ih (key x :: seen)
      refine ⟨?_, ?_⟩
      · rw [List.map_cons, List.nodup_cons]
        refine ⟨fun hmem => ?_, hnd⟩
        obtain ⟨y, hy, hyx⟩ := List.mem_map.mp hmem
        exact hseen y hy (by simp [hyx])
      · rintro y hy
        rcases List.mem_cons.mp hy with rfl | hy
        · exact hx
        · exact fun hys => hseen y hy (List.mem_cons_of_mem _ hys)

/-- `takeFresh` is the longest such prefix. -/
theorem prefix_takeFresh {seen : List β} {l p : List α} (hp : p <+: l)
    (hnd : (p.map key).Nodup) (hseen : ∀ x ∈ p, key x ∉ seen) : p <+: takeFresh key seen l := by
  induction l generalizing seen p with
  | nil => simpa [takeFresh] using hp
  | cons x l ih =>
    cases p with
    | nil => exact List.nil_prefix
    | cons y p =>
      obtain ⟨rfl, hpl⟩ := List.cons_prefix_cons.mp hp
      rw [List.map_cons, List.nodup_cons] at hnd
      rw [takeFresh, if_neg (hseen y List.mem_cons_self)]
      refine (List.prefix_cons_inj y).mpr (ih hpl hnd.2 fun z hz => ?_)
      rw [List.mem_cons, not_or]
      exact ⟨fun hzy => hnd.1 (List.mem_map.mpr ⟨z, hz, hzy⟩),
        hseen z (List.mem_cons_of_mem _ hz)⟩

/-- Only the comparison of keys matters. -/
theorem takeFresh_congr {γ : Type*} [DecidableEq γ] {key : α → β} {key' : α → γ} {U : α → Prop}
    (hkey : ∀ x y, U x → U y → (key x = key y ↔ key' x = key' y)) {seen l : List α}
    (hs : ∀ x ∈ seen, U x) (hl : ∀ x ∈ l, U x) :
    takeFresh key (seen.map key) l = takeFresh key' (seen.map key') l := by
  induction l generalizing seen with
  | nil => rfl
  | cons x l ih =>
    obtain ⟨hx, hl⟩ := List.forall_mem_cons.mp hl
    have hmem : key x ∈ seen.map key ↔ key' x ∈ seen.map key' := by
      simp only [List.mem_map]
      exact exists_congr fun y => and_congr_right fun hy => hkey y x (hs y hy) hx
    simp only [takeFresh, hmem]
    split_ifs
    · rfl
    · exact congrArg (x :: ·) (ih (List.forall_mem_cons.mpr ⟨hx, hs⟩) hl)

/-- An element is taken when some prefix without repetition has it. -/
theorem mem_takeFresh_iff {l : List α} {x : α} :
    x ∈ takeFresh key [] l ↔ ∃ p, p <+: l ∧ (p.map key).Nodup ∧ x ∈ p := by
  constructor
  · intro hx
    exact ⟨_, takeFresh_prefix key [] l, (takeFresh_nodup key [] l).1, hx⟩
  · rintro ⟨p, hp, hnd, hx⟩
    exact (prefix_takeFresh key hp hnd (by simp)).subset hx

/-! ### The walk -/

/-- Breadth-first traversal that ends at the first key seen before. -/
def queueWalk (parents : α → List α) : ℕ → List β → List α → List α
  | 0, _, _ => []
  | _ + 1, _, [] => []
  | n + 1, seen, x :: queue =>
    if key x ∈ seen then [] else x :: queueWalk parents n (key x :: seen) (queue ++ parents x)

/-- With fuel for every key of a finite universe, the walk is the longest repetition-free
prefix of the level order. -/
theorem queueWalk_eq_takeFresh {rank : α → ℕ}
    (hrank : ∀ x, ∀ y ∈ parents x, rank y < rank x) {d n : ℕ} {U seen : List β}
    {queue : List α} (hq : ∀ x ∈ queue, rank x < d ∧ key x ∈ U)
    (hU : ∀ x, key x ∈ U → ∀ y ∈ parents x, key y ∈ U)
    (hseen : seen.Nodup) (hsub : seen ⊆ U) (hfuel : U.length < n + seen.length) :
    queueWalk key parents n seen queue = takeFresh key seen (levels parents d queue) := by
  induction n generalizing seen queue with
  | zero =>
    have hle : seen.length ≤ U.length := (hseen.subperm hsub).length_le
    omega
  | succ n ih =>
    cases queue with
    | nil => simp [queueWalk, takeFresh]
    | cons x queue =>
      obtain ⟨hxd, hxU⟩ := hq x List.mem_cons_self
      rw [queueWalk, levels_cons hrank hxd, takeFresh]
      split_ifs with hx
      · rfl
      · congr 1
        refine ih ?_ (List.nodup_cons.mpr ⟨hx, hseen⟩) (List.cons_subset.mpr ⟨hxU, hsub⟩) ?_
        · intro y hy
          rcases List.mem_append.mp hy with hy | hy
          · exact hq y (List.mem_cons_of_mem _ hy)
          · exact ⟨(hrank x y hy).trans hxd, hU x hxU y hy⟩
        · simp only [List.length_cons]
          omega

/-- The walk only compares keys. -/
theorem queueWalk_congr {γ : Type*} [DecidableEq γ] {key : α → β} {key' : α → γ} {U : α → Prop}
    (hU : ∀ x, U x → ∀ y ∈ parents x, U y)
    (hkey : ∀ x y, U x → U y → (key x = key y ↔ key' x = key' y)) (n : ℕ) (seen queue : List α)
    (hs : ∀ x ∈ seen, U x) (hq : ∀ x ∈ queue, U x) :
    queueWalk key parents n (seen.map key) queue =
      queueWalk key' parents n (seen.map key') queue := by
  induction n generalizing seen queue with
  | zero => rfl
  | succ n ih =>
    cases queue with
    | nil => rfl
    | cons x queue =>
      have hx := hq x List.mem_cons_self
      have hmem : key x ∈ seen.map key ↔ key' x ∈ seen.map key' := by
        simp only [List.mem_map]
        refine exists_congr fun y => and_congr_right fun hy => ?_
        exact hkey y x (hs y hy) hx
      simp only [queueWalk, hmem]
      split_ifs
      · rfl
      · refine congrArg (x :: ·) (ih (x :: seen) _ ?_ ?_)
        · exact List.forall_mem_cons.mpr ⟨hx, hs⟩
        · intro y hy
          rcases List.mem_append.mp hy with hy | hy
          · exact hq y (List.mem_cons_of_mem _ hy)
          · exact hU x hx y hy

end Ancestry
