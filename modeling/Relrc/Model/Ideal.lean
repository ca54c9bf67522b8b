import Relrc.Lib.Dag
import Relrc.Model.Machine

/-!
# The ideal library

What the library is for, without the means by which it does it. An `Ideal` memory has no addresses,
no reference counts, no weak references and no `Drop` hooks.

* Nodes are created and never change. A node is live while a strong reference of the program reaches
  it; dead nodes are simply not looked at any more.
* A registry gives ids to nodes. An id that was used once is never used for another node, and it
  resolves while its node is live.
* A node may have an owner: the registry in which it was registered first. It keeps the owner when
  the registry is gone, and no other registry can become its owner.
* The ancestors of a node are listed up to the first one that occurs again, and no further. So
  `Ideal.ancestors` is not the set of all ancestors, unless each of them is reached in one way only.

`Op.Means` says what each operation of a program does to an ideal memory. Where the code runs a
cascade of drops, prunes lists or keeps weak references, this is a single step or none.
-/

namespace Relrc

open Ancestry

/-- What an id of a registry stands for. -/
inductive IdState where
  | unused
  | names (n : Ref)
  | removed

/-- The ids of a registry, those of dead nodes included. No node has two. -/
structure Ids where
  state : NodeId → IdState
  inj : ∀ id id' n, state id = .names n → state id' = .names n → id = id'

namespace Ids

/-- No id was used. -/
def empty : Ids := ⟨fun _ => .unused, by simp⟩

/-- The registry has an id for the node. -/
def Has (I : Ids) (n : Ref) : Prop := ∃ id, I.state id = .names n

/-- Give an id to a node that has none. -/
def assign (I : Ids) (id : NodeId) (n : Ref) (h : ¬ I.Has n) : Ids where
  state := Function.update I.state id (.names n)
  inj a b m ha hb := by
    rw [Function.update_apply] at ha hb
    split_ifs at ha hb with haid hbid hbid
    · rw [haid, hbid]
    · cases ha
      exact absurd ⟨b, hb⟩ h
    · cases hb
      exact absurd ⟨a, ha⟩ h
    · exact I.inj a b m ha hb

open Classical in
/-- Remove an id that stands for a node. -/
noncomputable def strike (I : Ids) (id : NodeId) : Ids where
  state k := if k = id ∧ (∃ n, I.state k = .names n) then .removed else I.state k
  inj a b m ha hb := by
    split_ifs at ha hb
    exact I.inj a b m ha hb

theorem state_assign (I : Ids) {id : NodeId} {n : Ref} (h : ¬ I.Has n) (k : NodeId) :
    (I.assign id n h).state k = if k = id then .names n else I.state k :=
  Function.update_apply _ _ _ _

theorem state_strike_eq_names_iff (I : Ids) {id k : NodeId} {n : Ref} :
    (I.strike id).state k = .names n ↔ k ≠ id ∧ I.state k = .names n := by
  simp only [strike]
  constructor
  · intro h
    split_ifs at h with hk
    exact ⟨fun hid => hk ⟨hid, n, h⟩, h⟩
  · rintro ⟨hne, h⟩
    rwa [if_neg fun hk => hne hk.1]

theorem state_ne_unused_of_strike (I : Ids) {id k : NodeId} (h : (I.strike id).state k ≠ .unused) :
    I.state k ≠ .unused := by
  intro hk
  simp [strike, hk] at h

end Ids

/-- An ideal memory: all nodes that were ever created, the strong references of the program to nodes
and to registries, and the registries. -/
structure Ideal (N E : Type) where
  dag : Dag N E
  roots : Multiset Ref
  owner : Ref → Option RegRef
  ids : RegRef → Ids
  nregs : ℕ
  regs : Multiset RegRef

namespace Ideal

variable {N E : Type}

/-- Nothing was created. -/
def empty : Ideal N E := ⟨Dag.empty, 0, fun _ => none, fun _ => Ids.empty, 0, 0⟩

/-! ### What a program sees -/

section Views

variable (D : Ideal N E)

/-- The node is reached from a strong reference. -/
def Live (n : Ref) : Prop := D.dag.Live D.roots n

open Classical in
/-- Follow a weak reference. -/
noncomputable def upgrade (n : Ref) : Option Ref := if D.Live n then some n else none

/-- The edges from a node to its live children. -/
noncomputable def outgoing (n : Ref) : List Edge :=
  (D.dag.outgoing D.roots n).map fun ci => ⟨ci.2, ci.1⟩

/-- The ancestors of a node, level by level, up to the first that occurs again. -/
def ancestors (n : Ref) : List Ref := takeFresh id [] (levels D.dag.parents (n + 1) [n])

/-- The registry of a node, while it exists. -/
def registry (n : Ref) : Option RegRef := (D.owner n).filter fun R => R ∈ D.regs

/-- The node under an id. -/
noncomputable def get (R : RegRef) (id : NodeId) : Option Ref :=
  match (D.ids R).state id with
  | .names n => D.upgrade n
  | _ => none

end Views

/-! ### What a program does -/

/-- Create a node from references to its parents. -/
def create (D : Ideal N E) (v : N) (ps : List (Ref × E)) (h : ∀ p ∈ ps, p.1 < D.dag.size) :
    Ideal N E :=
  { D with
    dag := D.dag.add v ps h
    roots := D.dag.size ::ₘ (D.roots - ((ps.map Prod.fst : List Ref) : Multiset Ref))
    owner := Function.update D.owner D.dag.size none }

section Create

variable (D : Ideal N E) (v : N) (ps : List (Ref × E)) (h : ∀ p ∈ ps, p.1 < D.dag.size)

theorem dag_create : (D.create v ps h).dag = D.dag.add v ps h := rfl

theorem roots_create : (D.create v ps h).roots =
    D.dag.size ::ₘ (D.roots - ((ps.map Prod.fst : List Ref) : Multiset Ref)) := rfl

theorem owner_create : (D.create v ps h).owner = Function.update D.owner D.dag.size none := rfl

end Create

/-- The same nodes and registries with other references to them. -/
def withRefs (D : Ideal N E) (roots : Multiset Ref) (regs : Multiset RegRef) : Ideal N E :=
  { D with roots := roots, regs := regs }

/-- More references to nodes. -/
def share (D : Ideal N E) (rs : Multiset Ref) : Ideal N E := D.withRefs (rs + D.roots) D.regs

/-- Fewer references to nodes. -/
def forget (D : Ideal N E) (rs : Multiset Ref) : Ideal N E := D.withRefs (D.roots - rs) D.regs

theorem roots_share (D : Ideal N E) (rs : Multiset Ref) : (D.share rs).roots = rs + D.roots := rfl

theorem withRefs_self (D : Ideal N E) : D.withRefs D.roots D.regs = D := rfl

/-- Replace the ids of a registry. -/
def setIds (D : Ideal N E) (R : RegRef) (I : Ids) : Ideal N E :=
  { D with ids := Function.update D.ids R I }

@[simp] theorem ids_setIds_self (D : Ideal N E) (R : RegRef) (I : Ids) : (D.setIds R I).ids R = I :=
  Function.update_self _ _ _

theorem ids_setIds_of_ne (D : Ideal N E) {R R' : RegRef} (I : Ids) (h : R' ≠ R) :
    (D.setIds R I).ids R' = D.ids R' := Function.update_of_ne h _ _

/-- Record the owner of a node. -/
def setOwner (D : Ideal N E) (n : Ref) (R : RegRef) : Ideal N E :=
  { D with owner := Function.update D.owner n (some R) }

theorem owner_setOwner (D : Ideal N E) (n : Ref) (R : RegRef) (x : Ref) :
    (D.setOwner n R).owner x = if x = n then some R else D.owner x := Function.update_apply _ _ _ _

/-- An owner that is recorded already may be recorded again. -/
theorem setOwner_eq_self {D : Ideal N E} {n : Ref} {R : RegRef} (h : D.owner n = some R) :
    D.setOwner n R = D := by
  rw [setOwner, ← h, Function.update_eq_self]

/-- `D'` is `D` with an id for the node `n` in `R`, new if there was none. -/
def Enters (R : RegRef) (n : Ref) (D D' : Ideal N E) : Prop :=
  (D.ids R).Has n ∧ D' = D ∨
  ∃ (h : ¬ (D.ids R).Has n) (id : NodeId), (D.ids R).state id = .unused ∧
    D' = D.setIds R ((D.ids R).assign id n h)

/-- `D'` is `D` after an attempt to register the node `n` in `R`: refused to nodes with another
owner. -/
def Registers (n : Ref) (R : RegRef) (D D' : Ideal N E) : Prop :=
  (∃ R', D.owner n = some R' ∧ R' ≠ R) ∧ D' = D ∨
  (∀ R', D.owner n = some R' → R' = R) ∧
    Enters R n (D.setOwner n R) D'

/-- Remove an id from a registry. -/
noncomputable def strike (D : Ideal N E) (R : RegRef) (id : NodeId) : Ideal N E :=
  D.setIds R ((D.ids R).strike id)

/-- One more registry, with one reference to it. -/
def newRegistry (D : Ideal N E) (I : Ids) : Ideal N E :=
  { D.setIds D.nregs I with nregs := D.nregs + 1, regs := D.nregs ::ₘ D.regs }

/-- The steps of an ideal memory. Of the accesses to registries only those in `ok` occur. -/
inductive Step (ok : Access → Prop) : Ideal N E → Ideal N E → Prop where
  | create (D : Ideal N E) (v : N) (ps : List (Ref × E)) (h : ∀ p ∈ ps, p.1 < D.dag.size)
      (hps : ((ps.map Prod.fst : List Ref) : Multiset Ref) ≤ D.roots) : Step ok D (D.create v ps h)
  | share (D : Ideal N E) (n : Ref) (hn : D.Live n) : Step ok D (D.share {n})
  | forget (D : Ideal N E) (n : Ref) (hn : n ∈ D.roots) : Step ok D (D.forget {n})
  | register {D D' : Ideal N E} (n : Ref) (R : RegRef) (hn : D.Live n) (hR : R ∈ D.regs)
      (hok : ok (.register R)) (h : Registers n R D D') : Step ok D D'
  | enter {D D' : Ideal N E} (R : RegRef) (n : Ref) (hn : D.Live n) (hR : R ∈ D.regs)
      (hok : ok (.add R)) (h : Enters R n D D') : Step ok D D'
  | strike (D : Ideal N E) (R : RegRef) (id : NodeId) (hR : R ∈ D.regs) (hok : ok (.remove R)) :
      Step ok D (D.strike R id)
  | newRegistry (D : Ideal N E) (I : Ids) (hI : ∀ n, I.Has n → n < D.dag.size) :
      Step ok D (D.newRegistry I)
  | shareRegistry (D : Ideal N E) (R : RegRef) (hR : R ∈ D.regs) :
      Step ok D (D.withRefs D.roots (R ::ₘ D.regs))
  | forgetRegistry (D : Ideal N E) (R : RegRef) (hR : R ∈ D.regs) :
      Step ok D (D.withRefs D.roots (D.regs.erase R))

/-- Any number of steps. -/
abbrev Steps (ok : Access → Prop) : Ideal N E → Ideal N E → Prop :=
  Relation.ReflTransGen (Step ok)

end Ideal

open Classical in
/-- What an operation of the program `s` does to an ideal memory. Operations on graphs and the codec
are sequences of steps, with the accesses of the operation. -/
def Op.Means {N E : Type} (s : State N E) (D D' : Ideal N E) : Op N E → Prop
  | .new v => ∃ h, D' = D.create v [] h
  | .withParents v ps => ∃ h, D' = D.create v ps h
  | .clone n => D' = D.share {n}
  | .drop x => D' = D.forget {x.target}
  | .downgrade _ => D' = D
  | .dropWeak _ => D' = D
  | .upgrade n => D' = if D.Live n then D.share {n} else D
  | .allOutgoing n => D' = D.share (((D.outgoing n).map Edge.target : List Ref) : Multiset Ref)
  | .allChildren n => D' = D.share (((D.outgoing n).map Edge.target : List Ref) : Multiset Ref)
  | .nOutgoing _ => D' = D
  | .intoTarget _ => D' = D
  | .registryNew => D' = D.newRegistry Ids.empty
  | .registryFromIter nodes => ∃ I : Ids, (∀ n, I.Has n ↔ n ∈ nodes) ∧ D' = D.newRegistry I
  | .registryClone R => D' = D.newRegistry (D.ids R)
  | .cloneRegistry R => D' = D.withRefs D.roots (R ::ₘ D.regs)
  | .dropRegistry R => D' = D.withRefs D.roots (D.regs.erase R)
  | .addNode R n => Ideal.Enters R n D D'
  | .getIdOrInsert R n => Ideal.Enters R n D D'
  | .remove R id => D' = D.strike R id
  | .freeNodeIds _ => D' = D
  | .tryRegisterIn n R => Ideal.Registers n R D D'
  | .graphClone g => ∃ G, s.graph g = some G ∧
      D' = D.withRefs ((G.nodes.values : Multiset Ref) + D.roots) (G.registry ::ₘ D.regs)
  | .graphDrop g => ∃ G, s.graph g = some G ∧
      D' = D.withRefs (D.roots - (G.nodes.values : Multiset Ref)) (D.regs.erase G.registry)
  | .outgoingEdges _ _ => D' = D
  | op => Ideal.Steps (op.Accesses s) D D'

end Relrc
