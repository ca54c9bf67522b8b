import Mathlib.Data.Multiset.Basic
import Relrc.Lib.Ancestry

/-!
# Growing DAGs, and what is live in them

A `Dag` is a list of nodes in the order of their creation. A node has a value and an ordered list of
parents, with a label on each; parents are older than their children, so there are no cycles. Nodes
are added at the end (`Dag.add`) and never change or go away.

Some nodes are *roots*, with multiplicity. `Dag.Live` are the nodes that the roots reach along
parents: what a tracing collector would keep. `Dag.outgoing` lists the edges to the live children of
a node, by creation of the child and then by position.

A memory that stores the parents of live nodes only is enough to know what is live
(`Dag.live_iff_of_agree`).
-/

namespace Ancestry

/-- Nodes in the order of their creation, with values and labelled parents. -/
structure Dag (V L : Type*) where
  nodes : List (V × List (ℕ × L))
  older : ∀ (n : ℕ) (x : V × List (ℕ × L)), nodes[n]? = some x → ∀ p ∈ x.2, p.1 < n

namespace Dag

variable {V L : Type*}

/-- No nodes. -/
def empty : Dag V L := ⟨[], by simp⟩

variable (D : Dag V L)

/-- The number of nodes. -/
def size : ℕ := D.nodes.length

/-- The value of a node. -/
def value (n : ℕ) : Option V := (D.nodes[n]?).map Prod.fst

/-- The labelled parents of a node; `[]` when there is no such node. -/
def incoming (n : ℕ) : List (ℕ × L) := ((D.nodes[n]?).map Prod.snd).getD []

/-- The parents of a node. -/
def parents (n : ℕ) : List ℕ := (D.incoming n).map Prod.fst

/-- One more node, with existing parents. -/
def add (v : V) (ps : List (ℕ × L)) (h : ∀ p ∈ ps, p.1 < D.size) : Dag V L where
  nodes := D.nodes ++ [(v, ps)]
  older n x hx := by
    rw [List.getElem?_append] at hx
    split_ifs at hx with hn
    · exact D.older n x hx
    · obtain ⟨hlt, rfl⟩ := List.getElem?_eq_some_iff.mp hx
      intro p hp
      have hsize : D.nodes.length ≤ n := Nat.le_of_not_lt hn
      rw [List.getElem_singleton] at hp
      exact lt_of_lt_of_le (h p hp) hsize

variable {D}

@[simp] theorem size_empty : (empty : Dag V L).size = 0 := rfl

@[simp] theorem size_add (v : V) (ps : List (ℕ × L)) (h : ∀ p ∈ ps, p.1 < D.size) :
    (D.add v ps h).size = D.size + 1 := by simp [size, add]

theorem getElem?_add_of_lt {v : V} {ps : List (ℕ × L)} {h : ∀ p ∈ ps, p.1 < D.size} {n : ℕ}
    (hn : n < D.size) : (D.add v ps h).nodes[n]? = D.nodes[n]? :=
  List.getElem?_append_left hn

theorem getElem?_add_self {v : V} {ps : List (ℕ × L)} {h : ∀ p ∈ ps, p.1 < D.size} :
    (D.add v ps h).nodes[D.size]? = some (v, ps) := by
  simp [add, size]

theorem parents_lt (n : ℕ) : ∀ p ∈ D.parents n, p < n := by
  intro p hp
  rw [parents, incoming] at hp
  cases hn : D.nodes[n]? with
  | none => simp [hn] at hp
  | some x =>
    rw [hn, Option.map_some, Option.getD_some] at hp
    obtain ⟨q, hq, rfl⟩ := List.mem_map.mp hp
    exact D.older n x hn q hq

theorem acyclic : Acyclic D.parents := @acyclic_of_rank _ _ id parents_lt

/-! ### Live nodes -/

variable (D) in
/-- The roots reach the node. -/
def Live (roots : Multiset ℕ) (n : ℕ) : Prop := ∃ x ∈ roots, Reaches D.parents x n

/-- What is live is decided by the parents of a set that has the roots and is closed under
parents. -/
theorem live_iff_of_agree {roots : Multiset ℕ} {parents' : ℕ → List ℕ} {S : ℕ → Prop}
    (hroots : ∀ x ∈ roots, S x) (hagree : ∀ x, S x → parents' x = D.parents x)
    (hclosed : ∀ x, S x → ∀ y ∈ parents' x, S y) {n : ℕ} :
    D.Live roots n ↔ ∃ x ∈ roots, Reaches parents' x n := by
  refine exists_congr fun x => and_congr_right fun hx => ?_
  have hS : ∀ {y}, Reaches parents' x y → S y := fun h => h.mem_of_closed hclosed (hroots x hx)
  have hS' : ∀ {y}, Reaches D.parents x y → S y := fun h =>
    h.mem_of_closed (fun z hz y hy => hclosed z hz y (hagree z hz ▸ hy)) (hroots x hx)
  constructor
  · exact fun h => h.congr fun y hy => hagree y (hS' hy)
  · exact fun h => h.congr fun y hy => (hagree y (hS hy)).symm

/-! ### Outgoing edges -/

variable (D) in
/-- The positions at which `c` has the parent `p`, each with `c`. -/
def edgesInto (p c : ℕ) : List (ℕ × ℕ) :=
  (D.parents c).zipIdx.filterMap fun qi => if qi.1 = p then some (c, qi.2) else none

open Classical in
variable (D) in
/-- The edges from `p` to live nodes, as pairs of a child and a position. -/
noncomputable def outgoing (roots : Multiset ℕ) (p : ℕ) : List (ℕ × ℕ) :=
  (List.range D.size).flatMap fun c => if D.Live roots c then D.edgesInto p c else []

end Dag

end Ancestry
