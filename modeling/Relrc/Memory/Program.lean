import Relrc.Codec.DecodeRun
import Relrc.Model.Machine

/-!
# Runs of programs are runs of memory

A program state determines a configuration of memory: its strong references are the targets of
its handles and the nodes of its graphs. Every operation that returns is a run of elementary
steps between the configurations (`exec_steps`), so the invariant holds in every state that a
program can reach (`Run.inv`), and what `Steps` keeps is kept by programs (`Run.steps`).
-/

namespace Relrc

open SlotStore Ancestry Fallible

variable {N E : Type} {A : AddrSource} {K : KeySource} {ok : Access → Prop}

namespace State

/-- The nodes of an optional graph. -/
def graphRefs : Option HistoryGraph → Multiset Ref
  | some g => g.refs
  | none => 0

/-- The registry reference of an optional graph. -/
def graphRegs : Option HistoryGraph → Multiset RegRef
  | some g => {g.registry}
  | none => 0

/-- The strong references of a program to nodes. -/
def held (s : State N E) : Multiset Ref :=
  s.handles.map Handle.target + (s.graphs.map graphRefs).sum

/-- The strong references of a program to registries. -/
def regs (s : State N E) : Multiset RegRef := s.regHandles + (s.graphs.map graphRegs).sum

/-- The memory of a program with the references it holds. -/
abbrev config (s : State N E) : Config N E := ⟨s.world, s.held, s.regs⟩

/-- The memory invariant of a program state. -/
abbrev Inv (s : State N E) : Prop := s.config.Inv

end State

/-! ### Bookkeeping -/

/-- Replacing one element of a list of summands replaces one summand. -/
theorem exists_sum_set {α β : Type*} [AddCommMonoid β] (f : α → β) {l : List α} {i : ℕ} {a : α}
    (h : l[i]? = some a) :
    ∃ rest, (l.map f).sum = f a + rest ∧ ∀ b, ((l.set i b).map f).sum = f b + rest := by
  induction l generalizing i with
  | nil => cases h
  | cons x l ih =>
    cases i with
    | zero =>
      obtain rfl : x = a := by simpa using h
      exact ⟨(l.map f).sum, by simp, fun b => by simp⟩
    | succ i =>
      obtain ⟨rest, hsum, hset⟩ := ih (i := i) (by simpa using h)
      refine ⟨f x + rest, ?_, fun b => ?_⟩
      · rw [List.map_cons, List.sum_cons, hsum, add_left_comm]
      · rw [List.set_cons_succ, List.map_cons, List.sum_cons, hset, add_left_comm]

theorem State.getElem?_of_graph {s : State N E} {g : GraphRef} {G : HistoryGraph}
    (h : s.graph g = some G) : s.graphs[g]? = some (some G) := by
  rwa [State.graph, Option.join_eq_some_iff] at h

theorem map_target_nodeHandles (nodes : List Ref) :
    (nodeHandles nodes).map Handle.target = (nodes : Multiset Ref) := by
  rw [nodeHandles, Multiset.map_coe, List.map_map]
  have hid : Handle.target ∘ Handle.node = id := rfl
  rw [hid, List.map_id]

/-- Splitting consumed handles off. -/
theorem map_target_of_le {s : State N E} {nodes : List Ref} (h : nodeHandles nodes ≤ s.handles) :
    s.handles.map Handle.target =
      (nodes : Multiset Ref) + (s.handles - nodeHandles nodes).map Handle.target := by
  conv_lhs => rw [← add_tsub_cancel_of_le h]
  rw [Multiset.map_add, map_target_nodeHandles]

theorem map_target_of_mem {s : State N E} {x : Handle} (h : x ∈ s.handles) :
    s.handles.map Handle.target = x.target ::ₘ (s.handles.erase x).map Handle.target := by
  conv_lhs => rw [← Multiset.cons_erase h]
  rw [Multiset.map_cons]

/-- What taking one graph out of a state leaves, and what any other graph in its place makes. -/
theorem State.exists_graph {s : State N E} {g : GraphRef} {G : HistoryGraph}
    (h : s.graph g = some G) : ∃ H R, (s.graphs.map graphRefs).sum = G.refs + H ∧
      (s.graphs.map graphRegs).sum = G.registry ::ₘ R ∧ ∀ x,
      ((s.graphs.set g x).map graphRefs).sum = graphRefs x + H ∧
      ((s.graphs.set g x).map graphRegs).sum = graphRegs x + R := by
  obtain ⟨H, hH, hsetH⟩ := exists_sum_set State.graphRefs (State.getElem?_of_graph h)
  obtain ⟨R, hR, hsetR⟩ := exists_sum_set State.graphRegs (State.getElem?_of_graph h)
  exact ⟨H, R, hH, by rw [hR, State.graphRegs, Multiset.singleton_add],
    fun x => ⟨hsetH x, hsetR x⟩⟩

/-- The references of a state, with one graph and one handle singled out. -/
theorem State.exists_held {s : State N E} {g : GraphRef} {G : HistoryGraph} {node : Ref}
    (hg : s.graph g = some G) (hnode : .node node ∈ s.handles) :
    ∃ H, s.held = G.refs + (node ::ₘ H) := by
  obtain ⟨H, -, hH, -, -⟩ := State.exists_graph hg
  refine ⟨(s.handles.erase (.node node)).map Handle.target + H, ?_⟩
  rw [State.held, hH, map_target_of_mem hnode]
  simp only [Handle.target, Multiset.cons_add, Multiset.add_cons, add_left_comm]

/-! ### One operation -/

section Operations

variable {s s' : State N E} {X : Exempt}

/-- An operation on one graph that leaves the handles alone but for one node it consumes. -/
private theorem steps_graphOp {g : GraphRef} {G G' : HistoryGraph} {node : Ref} {w' : World N E}
    (hi : s.config.Inv X) (hg : s.graph g = some G) (hnode : .node node ∈ s.handles)
    (hrun : ∀ H R, Inv s.world (G.refs + (node ::ₘ H)) R X → G.registry ∈ R →
      GraphRun A K ok s.world (node ::ₘ H) R G w' H G') :
    Steps A K ok s.config
      ({ s with handles := s.handles.erase (.node node) }.setGraph w' g (some G')).config := by
  obtain ⟨H, R, hH, hR, hset⟩ := State.exists_graph hg
  have hold : s.config = ⟨s.world, G.refs +
      (node ::ₘ ((s.handles.erase (.node node)).map Handle.target + H)), s.regHandles +
        (G.registry ::ₘ R)⟩ := by
    rw [State.config, State.held, State.regs, hH, hR, map_target_of_mem hnode]
    simp only [Handle.target, Multiset.cons_add, Multiset.add_cons, add_left_comm]
  rw [hold] at hi
  obtain ⟨hsteps, hreg⟩ := hrun _ _ hi (Multiset.mem_add.mpr (Or.inr (Multiset.mem_cons_self _ _)))
  have hnew : ({ s with handles := s.handles.erase (.node node) }.setGraph w' g (some G')).config =
      ⟨w', G'.refs + ((s.handles.erase (.node node)).map Handle.target + H), s.regHandles +
        (G.registry ::ₘ R)⟩ := by
    rw [State.config, State.held, State.regs, State.setGraph]
    simp only
    rw [(hset (some G')).1, (hset (some G')).2, State.graphRefs, State.graphRegs, hreg,
      Multiset.singleton_add, add_left_comm]
  rw [hold, hnew]
  exact hsteps

/-- A graph holds its nodes and its registry. -/
theorem State.config_addGraph (s : State N E) (w : World N E) (G : HistoryGraph) :
    (s.addGraph w G).config = ⟨w, G.refs + s.held, G.registry ::ₘ s.regs⟩ := by
  rw [State.config, State.held, State.regs, State.held, State.regs, State.addGraph]
  simp only [List.map_append, List.map_cons, List.map_nil, List.sum_append, List.sum_cons,
    List.sum_nil, add_zero, State.graphRefs, State.graphRegs, ← Multiset.singleton_add]
  congr 1 <;> abel

/-- Handles that are consumed are split off. -/
theorem State.held_of_le {nodes : List Ref} (h : nodeHandles nodes ≤ s.handles) :
    s.held = (nodes : Multiset Ref) +
      ({ s with handles := s.handles - nodeHandles nodes } : State N E).held := by
  rw [State.held, State.held, map_target_of_le h, add_assoc]

/-- **Every operation is a sequence of elementary steps**, with the accesses that it is allowed. -/
theorem exec_steps {op : Op N E} (hi : s.config.Inv X) (hen : op.Enabled s) (hok : Respects ok s op)
    (h : exec A K s op = .ok s') : Steps A K ok s.config s'.config := by
  cases op with
  | new value =>
    obtain rfl := pure_eq_ok_iff.mp h
    rw [State.config, State.config, State.held, State.held, Multiset.map_cons, Multiset.cons_add]
    refine Relation.ReflTransGen.single ?_
    have hnew : Micro A K ok _ _ := .alloc s.world s.held s.regs value []
    rwa [List.map_nil, Multiset.coe_nil, zero_add] at hnew
  | withParents value parents =>
    obtain rfl := pure_eq_ok_iff.mp h
    rw [State.config, State.config, State.held, State.held, Multiset.map_cons, Multiset.cons_add,
      map_target_of_le hen, add_assoc]
    exact Relation.ReflTransGen.single (.alloc s.world _ s.regs value parents)
  | clone node =>
    obtain rfl := pure_eq_ok_iff.mp h
    rw [State.config, State.config, State.held, State.held, Multiset.map_cons, Multiset.cons_add]
    exact steps_clone hen
  | drop handle =>
    obtain rfl := pure_eq_ok_iff.mp h
    rw [State.config, State.held, map_target_of_mem hen, Multiset.cons_add] at hi
    rw [State.config, State.config, State.held, State.held, map_target_of_mem hen,
      Multiset.cons_add]
    exact steps_drop hi
  | downgrade node =>
    obtain rfl := pure_eq_ok_iff.mp h
    refine Relation.ReflTransGen.single (.setWeaks s.world s.held s.regs _ fun r hr => ?_)
    rcases List.mem_cons.mp hr with rfl | hr
    · exact Inv.inUse_of_alive hen
    · exact hi.inUse_of_weak hr
  | dropWeak node =>
    obtain rfl := pure_eq_ok_iff.mp h
    exact Relation.ReflTransGen.single (.setWeaks s.world s.held s.regs _ fun r hr =>
      hi.inUse_of_weak (List.mem_of_mem_erase hr))
  | upgrade node =>
    simp only [exec, Heap.upgrade] at h
    split at h
    · rename_i r hr
      split_ifs at hr with halive
      obtain rfl := Option.some.inj hr
      obtain rfl := pure_eq_ok_iff.mp h
      rw [State.config, State.config, State.held, State.held, Multiset.map_cons, Multiset.cons_add]
      exact steps_clone halive
    · obtain rfl := pure_eq_ok_iff.mp h
      exact Relation.ReflTransGen.refl
  | allOutgoing node =>
    obtain rfl := pure_eq_ok_iff.mp h
    rw [State.config, State.config, State.held, State.held, Multiset.map_add, add_assoc,
      Multiset.map_coe, List.map_map]
    exact steps_allOutgoing node
  | allChildren node =>
    obtain rfl := pure_eq_ok_iff.mp h
    rw [State.config, State.config, State.held, State.held, Multiset.map_add, add_assoc,
      map_target_nodeHandles]
    exact steps_allOutgoing node
  | nOutgoing node =>
    obtain rfl := pure_eq_ok_iff.mp h
    exact steps_nOutgoing hi node
  | intoTarget e =>
    obtain rfl := pure_eq_ok_iff.mp h
    rw [State.config, State.config, State.held, State.held, Multiset.map_cons,
      map_target_of_mem hen]
    exact Relation.ReflTransGen.refl
  | registryNew =>
    obtain rfl := pure_eq_ok_iff.mp h
    rw [State.config, State.config, State.regs, State.regs, Multiset.cons_add]
    exact steps_allocRegistry_new s.world s.held s.regs
  | registryFromIter nodes =>
    obtain rfl := pure_eq_ok_iff.mp h
    rw [State.config, State.config, State.regs, State.regs, Multiset.cons_add]
    refine Relation.ReflTransGen.single (.allocRegistry s.world s.held s.regs _
      (Registry.Inverse.addNodes K _ Registry.Inverse.new nodes) ?_)
    rintro r ⟨id, hid⟩
    rcases Registry.get_of_addNodes K _ nodes hid with hnew | hmem
    · cases hnew
    · exact Or.inl (hen r hmem)
  | registryClone R =>
    obtain rfl := pure_eq_ok_iff.mp h
    rw [State.config, State.config, State.regs, State.regs, Multiset.cons_add]
    refine Relation.ReflTransGen.single (.allocRegistry s.world s.held s.regs _
      (hi.inverse R) ?_)
    rintro r ⟨id, hid⟩
    exact hi.inUse_of_entry hid
  | registryFromSerialized ser =>
    obtain ⟨⟨R, nodes, w'⟩, hres, h⟩ := bind_eq_ok_iff.mp h
    obtain rfl := pure_eq_ok_iff.mp h
    rw [State.config, State.config, State.held, State.held, State.regs, State.regs,
      Multiset.map_add, map_target_nodeHandles, add_assoc, Multiset.cons_add]
    exact (steps_registryFromSerialized hi hres).1
  | cloneRegistry R =>
    obtain rfl := pure_eq_ok_iff.mp h
    rw [State.config, State.config, State.regs, State.regs, Multiset.cons_add]
    exact Relation.ReflTransGen.single (.cloneRegistry s.world s.held s.regs R hen)
  | dropRegistry R =>
    obtain rfl := pure_eq_ok_iff.mp h
    rw [State.config, State.config, State.regs, State.regs]
    conv in s.regHandles => rw [← Multiset.cons_erase hen]
    rw [Multiset.cons_add]
    exact Relation.ReflTransGen.single (.dropRegistry s.world s.held _ R)
  | addNode R node =>
    obtain rfl := pure_eq_ok_iff.mp h
    exact Relation.ReflTransGen.single (.addNode s.world s.held s.regs node R hen.2 hen.1
      (hok _ rfl))
  | getIdOrInsert R node =>
    obtain rfl := pure_eq_ok_iff.mp h
    rw [Registry.getIdOrInsert_eq]
    exact Relation.ReflTransGen.single (.addNode s.world s.held s.regs node R hen.2 hen.1
      (hok _ rfl))
  | remove R id =>
    obtain rfl := pure_eq_ok_iff.mp h
    exact Relation.ReflTransGen.single (.remove s.world s.held s.regs R id hen (hok _ rfl))
  | freeNodeIds R =>
    obtain rfl := pure_eq_ok_iff.mp h
    exact Relation.ReflTransGen.single (.freeNodeIds s.world s.held s.regs R hen)
  | tryRegisterIn node R =>
    obtain rfl := pure_eq_ok_iff.mp h
    exact Relation.ReflTransGen.single (.register s.world s.held s.regs node R hen.1 hen.2
      (hok _ rfl))
  | graphNew nodes R =>
    obtain rfl := pure_eq_ok_iff.mp h
    obtain ⟨hnodes, hR⟩ := hen
    have hregs : s.regs = R ::ₘ (s.regHandles.erase R + (s.graphs.map State.graphRegs).sum) := by
      rw [State.regs, ← Multiset.cons_add, Multiset.cons_erase hR]
    rw [State.config, State.held_of_le hnodes] at hi
    obtain ⟨hsteps, hreg⟩ := steps_graphNew (A := A) (K := K) hi
      (Multiset.mem_add.mpr (Or.inl hR)) (hok _ rfl)
    rw [State.config_addGraph, State.config, State.held_of_le hnodes, hreg]
    rw [hregs] at hsteps ⊢
    exact hsteps
  | graphFromNodes nodes =>
    obtain rfl := pure_eq_ok_iff.mp h
    rw [State.config, State.held_of_le hen] at hi
    obtain ⟨hsteps, hreg⟩ := steps_fromNodes (A := A) (K := K) hi (hok _ ⟨_, le_rfl, rfl⟩)
    rw [State.config_addGraph, State.config, State.held_of_le hen, hreg]
    exact hsteps
  | graphClone g =>
    obtain ⟨G, hg⟩ := Option.isSome_iff_exists.mp hen
    simp only [exec, hg] at h
    obtain rfl := pure_eq_ok_iff.mp h
    obtain ⟨H, R, hH, hR, -⟩ := State.exists_graph hg
    have hheld : s.held = G.refs + (s.handles.map Handle.target + H) := by
      rw [State.held, hH, add_left_comm]
    have hregs : s.regs = G.registry ::ₘ (s.regHandles + R) := by
      rw [State.regs, hR, Multiset.add_cons]
    rw [State.config, hheld, hregs] at hi
    rw [State.config_addGraph, State.config, hheld, hregs]
    exact steps_graphClone hi
  | graphDrop g =>
    obtain ⟨G, hg⟩ := Option.isSome_iff_exists.mp hen
    simp only [exec, hg] at h
    obtain rfl := pure_eq_ok_iff.mp h
    obtain ⟨H, R, hH, hR, hset⟩ := State.exists_graph hg
    have hheld : s.held = G.refs + (s.handles.map Handle.target + H) := by
      rw [State.held, hH, add_left_comm]
    have hregs : s.regs = G.registry ::ₘ (s.regHandles + R) := by
      rw [State.regs, hR, Multiset.add_cons]
    have hnew : (s.setGraph (G.drop s.world) g none).config =
        ⟨G.drop s.world, s.handles.map Handle.target + H, s.regHandles + R⟩ := by
      rw [State.config, State.held, State.regs, State.setGraph]
      simp only
      rw [(hset none).1, (hset none).2, State.graphRefs, State.graphRegs, zero_add, zero_add]
    rw [State.config, hheld, hregs] at hi
    rw [hnew, State.config, hheld, hregs]
    exact steps_graphDrop hi
  | insertNode g node =>
    obtain ⟨hg, hnode⟩ := hen
    obtain ⟨G, hg⟩ := Option.isSome_iff_exists.mp hg
    simp only [exec, hg] at h
    obtain rfl := pure_eq_ok_iff.mp h
    refine steps_graphOp hi hg hnode fun H R hi hR =>
      ⟨?_, registry_insertNode G s.world node⟩
    rw [Multiset.add_cons] at hi ⊢
    exact steps_insertNode hi hR (hok _ ⟨G, hg, rfl⟩)
  | insertAncestors g node =>
    obtain ⟨hg, hnode⟩ := hen
    obtain ⟨G, hg⟩ := Option.isSome_iff_exists.mp hg
    simp only [exec, hg] at h
    obtain ⟨⟨id, w', G'⟩, hres, h⟩ := bind_eq_ok_iff.mp h
    obtain rfl := pure_eq_ok_iff.mp h
    exact steps_graphOp hi hg hnode fun H R hi hR =>
      steps_insertAncestors hi hR (hok _ ⟨G, hg, rfl⟩) hres
  | outgoingEdges g u =>
    simp only [exec] at h
    split at h
    · obtain rfl := pure_eq_ok_iff.mp h
      exact steps_afterOutgoingEdges hi _ u
    · obtain rfl := pure_eq_ok_iff.mp h
      exact Relation.ReflTransGen.refl
  | graphFromSerialized ser =>
    obtain ⟨⟨w', G⟩, hres, h⟩ := bind_eq_ok_iff.mp h
    obtain rfl := pure_eq_ok_iff.mp h
    rw [State.config_addGraph]
    exact (steps_graphFromSerialized hi hres fun R hR => hok _ ⟨R, hR, rfl⟩).1
  | toSerialized node R =>
    obtain ⟨⟨ser, w'⟩, hres, h⟩ := bind_eq_ok_iff.mp h
    obtain rfl := pure_eq_ok_iff.mp h
    exact steps_toSerialized hi hen.1 (hi.mem_of_regAlive hen.2) (hok _ rfl) hres
  | fromSerialized ser =>
    obtain ⟨⟨node, w'⟩, hres, h⟩ := bind_eq_ok_iff.mp h
    obtain rfl := pure_eq_ok_iff.mp h
    rw [State.config, State.config, State.held, State.held, Multiset.map_cons, Multiset.cons_add]
    exact steps_fromSerialized hi hres fun R hR => hok _ ⟨R, hR, rfl⟩

end Operations

/-! ### Runs -/

variable {P : State N E → Op N E → Prop} {s s' : State N E}

theorem State.inv_init : (State.init : State N E).Inv := Inv.empty

theorem Step.steps (h : Step A K P s s') (hi : s.Inv) (hP : ∀ s op, P s op → Respects ok s op) :
    Steps A K ok s.config s'.config := by
  obtain ⟨op, hen, hp, hexec⟩ := h
  exact exec_steps hi hen (hP s op hp) hexec

theorem Run.steps (h : Run A K P s s') (hi : s.Inv) (hP : ∀ s op, P s op → Respects ok s op) :
    Steps A K ok s.config s'.config := by
  induction h with
  | refl => exact Relation.ReflTransGen.refl
  | tail _ hstep ih => exact ih.trans (hstep.steps (Steps.inv ih hi) hP)

/-- **The memory invariant holds in every state that a program reaches.** -/
theorem Run.inv (h : Run A K P s s') (hi : s.Inv) : s'.Inv := by
  have hsteps : Steps A K (fun _ => True) s.config s'.config :=
    Run.steps h hi fun _ _ _ _ _ => trivial
  exact Steps.inv hsteps hi

theorem Run.frame (h : Run A K P s s') (hi : s.Inv) : Frame s.world s'.world := by
  have hsteps : Steps A K (fun _ => True) s.config s'.config :=
    Run.steps h hi fun _ _ _ _ _ => trivial
  exact Steps.frame hsteps hi

end Relrc
