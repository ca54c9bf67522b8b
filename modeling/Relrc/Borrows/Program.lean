import Relrc.Borrows.Codec
import Relrc.Model.Allocation
import Relrc.Model.Calls

/-!
# No borrow conflict is reachable

Each operation does with cells what it does without them (`behaves_exec`), so that a run of the
model is a run with cells (`Program.run_of_run`). A call that begins with no guard held ends so,
whether it returns or panics (`exists_behaves_call`). Hence no call of a run meets a cell that is
borrowed (`no_conflict_of_run`).

Nothing is asked of the memory: every count that matters is raised under the guard where it matters.
What a statement owns is another matter: the last handle to a registered node, moved into a
statement that borrows the registry, is dropped under the guard (`conflict_temporaryArgument`).
-/

namespace Relrc

open SlotStore RefCells Action

variable {N E : Type} {A : AddrSource} {K : KeySource}

namespace Guarded

theorem behaves_getIdOrInsert {b : Cell → BorrowFlag} {w : World N E} {R : RegRef} {r : Ref} :
    Behaves (getIdOrInsert K R r) b w (.ok (((w.registries R).getIdOrInsert K w.heap r).1,
      w.setRegistry R ((w.registries R).getIdOrInsert K w.heap r).2)) :=
  Behaves.bind_ok (Behaves.read _) (Behaves.bind_ok (Behaves.write _) (Behaves.pure _))

/-- **An operation with cells** does what it does without them, and borrows without conflict. -/
theorem behaves_exec (s : State N E) (op : Op N E) : Behaves (exec A K s op) clear s.world
    ((Relrc.exec A K s op).map fun s' => (s', s'.world)) := by
  cases op with
  | new value =>
    exact Behaves.bind_ok (Behaves.read _) (Behaves.bind_ok (Behaves.write _) (Behaves.read _))
  | withParents value parents =>
    exact Behaves.bind_ok (behaves_withParents A value parents) (Behaves.read _)
  | clone node => exact Behaves.bind_ok (Behaves.write _) (Behaves.read _)
  | drop handle => exact Behaves.bind_ok behaves_drop (Behaves.read _)
  | downgrade node => exact Behaves.bind_ok (Behaves.write _) (Behaves.read _)
  | dropWeak node => exact Behaves.bind_ok (Behaves.write _) (Behaves.read _)
  | upgrade node =>
    refine Behaves.bind_ok behaves_upgrade ?_
    rw [Relrc.exec, Heap.upgrade]
    split_ifs
    · exact Behaves.read _
    · exact Behaves.read _
  | allOutgoing node => exact Behaves.bind_ok behaves_allOutgoing (Behaves.read _)
  | allChildren node => exact Behaves.bind_ok behaves_allOutgoing (Behaves.read _)
  | nOutgoing node => exact Behaves.bind_ok behaves_nOutgoing (Behaves.read _)
  | intoTarget e =>
    rw [exec]
    exact Behaves.read _
  | registryNew =>
    exact Behaves.bind_ok (Behaves.read _) (Behaves.bind_ok (Behaves.write _) (Behaves.read _))
  | registryFromIter nodes =>
    exact Behaves.bind_ok (Behaves.read _) (Behaves.bind_ok (Behaves.write _) (Behaves.read _))
  | registryClone R =>
    exact Behaves.bind_ok (behaves_withBorrow fun b => Behaves.read _)
      (Behaves.bind_ok (Behaves.read _) (Behaves.bind_ok (Behaves.write _) (Behaves.read _)))
  | registryFromSerialized ser =>
    rw [Relrc.exec, except_map_bind]
    exact Behaves.bind _ (behaves_registryFromSerialized A ser) fun res _ => Behaves.read _
  | cloneRegistry R => exact Behaves.bind_ok (Behaves.write _) (Behaves.read _)
  | dropRegistry R => exact Behaves.bind_ok (Behaves.write _) (Behaves.read _)
  | addNode R node =>
    exact Behaves.bind_ok (behaves_withBorrowMut fun b => behaves_addNode K) (Behaves.read _)
  | getIdOrInsert R node =>
    exact Behaves.bind_ok (behaves_withBorrowMut fun b => behaves_getIdOrInsert) (Behaves.read _)
  | remove R id =>
    exact Behaves.bind_ok (behaves_withBorrowMut fun b => Behaves.write _) (Behaves.read _)
  | freeNodeIds R =>
    exact Behaves.bind_ok (behaves_withBorrowMut fun b => behaves_freeNodeIds) (Behaves.read _)
  | tryRegisterIn node R => exact Behaves.bind_ok (behaves_tryRegisterIn K) (Behaves.read _)
  | graphNew nodes R => exact Behaves.bind_ok (behaves_graphNew K nodes R) (Behaves.read _)
  | graphFromNodes nodes => exact Behaves.bind_ok (behaves_fromNodes K nodes) (Behaves.read _)
  | graphClone g =>
    rw [exec, Relrc.exec]
    cases s.graph g with
    | some G => exact Behaves.bind_ok (Behaves.write _) (Behaves.read _)
    | none => exact Behaves.pure s
  | graphDrop g =>
    rw [exec, Relrc.exec]
    cases s.graph g with
    | some G => exact Behaves.bind_ok (behaves_graphDrop G) (Behaves.read _)
    | none => exact Behaves.pure s
  | insertNode g node =>
    rw [exec, Relrc.exec]
    cases s.graph g with
    | some G => exact Behaves.bind_ok (behaves_insertNode G K node) (Behaves.read _)
    | none => exact Behaves.pure s
  | insertAncestors g node =>
    rw [exec, Relrc.exec]
    cases s.graph g with
    | some G =>
      simp only
      rw [except_map_bind]
      exact Behaves.bind _ (behaves_insertAncestors G K node) fun res _ => Behaves.read _
    | none => exact Behaves.pure s
  | outgoingEdges g u =>
    rw [exec, Relrc.exec]
    cases s.graph g with
    | some G =>
      obtain ⟨ids, hids⟩ := exists_behaves_outgoingEdges (w := s.world) G u
      exact Behaves.bind_ok hids (Behaves.read _)
    | none => exact Behaves.pure s
  | graphFromSerialized ser =>
    rw [Relrc.exec, except_map_bind]
    exact Behaves.bind _ (behaves_graphFromSerialized A K ser) fun res _ => Behaves.read _
  | toSerialized node R =>
    have hser : Behaves (toSerialized K node R) clear s.world _ := behaves_toSerialized K node
    rw [Relrc.exec]
    generalize s.world.toSerialized K node R = res at hser ⊢
    cases res with
    | ok p => exact Behaves.bind_ok hser (Behaves.read _)
    | error e => exact Behaves.bind_error hser
  | fromSerialized ser =>
    have hser : Behaves (fromSerialized A K ser) clear s.world _ := behaves_fromSerialized A K ser
    rw [Relrc.exec]
    generalize s.world.fromSerialized A K ser = res at hser ⊢
    cases res with
    | ok p => exact Behaves.bind_ok hser (Behaves.read _)
    | error e => exact Behaves.bind_error hser

/-! ### Calls -/

section Calls

variable {α : Type} {b : Cell → BorrowFlag} {c : Cell} {x : Act N E α}

theorem quiet_withBorrow (hx : ∀ b, Quiet x b) : Quiet (withBorrow c x) clear := by
  intro w
  obtain ⟨res, hres⟩ := hx (Function.update clear c (.reading 1)) w
  exact ⟨res, Behaves.withBorrow rfl hres⟩

theorem quiet_withBorrowMut (hx : ∀ b, Quiet x b) : Quiet (withBorrowMut c x) clear := by
  intro w
  obtain ⟨res, hres⟩ := hx (Function.update clear c .writing) w
  exact ⟨res, Behaves.withBorrowMut rfl hres⟩

theorem quiet_upgradeRegistry (R : RegRef) : Quiet (upgradeRegistry R : Act N E _) b := by
  intro w
  by_cases hR : w.RegAlive R
  · exact ⟨_, behaves_upgradeRegistry hR⟩
  · exact ⟨_, behaves_upgradeRegistry_of_not hR⟩

/-- `RelRc::registry` reads the cell under its own borrow. -/
theorem quiet_registry (node : Ref) : Quiet (registry node : Act N E _) clear := by
  refine quiet_withBorrow fun b => (Quiet.read _).bind fun slot => ?_
  cases slot with
  | some R => exact quiet_upgradeRegistry R
  | none => exact Quiet.pure none

/-- The two cells of a node are copied one after the other. -/
theorem quiet_cloneInner (node : Ref) : Quiet (cloneInner A node : Act N E _) clear := by
  refine (Quiet.read _).bind fun data => ?_
  cases data with
  | none => exact Quiet.pure none
  | some data =>
    refine (Quiet.write _).bind fun _ => ?_
    refine (quiet_withBorrow fun b => Quiet.read _).bind fun outgoing => ?_
    refine (quiet_withBorrow fun b => Quiet.read _).bind fun registry => ?_
    exact (Quiet.read _).bind fun _ => (Quiet.write _).bind fun _ => Quiet.pure _

/-- The drop of an `Rc<InnerData>` borrows no cell of its node; what the node refers to is dropped
with its hooks. -/
theorem quiet_dropInner (node : Ref) : Quiet (dropInner node : Act N E _) clear := fun _ =>
  ⟨_, Behaves.bind_ok behaves_decStrong (behaves_dropAll _)⟩

/-- A node that `get` returns may be dropped under the guard, since it is live without it. -/
theorem quiet_get (reg : Registry) (id : NodeId) (keep : Bool) : Quiet (do
    let node ← get reg id
    if keep then pure node.toList
    else do
      dropAll node.toList
      pure [] : Act N E (List Ref)) b := by
  intro w
  rcases get_cases reg id w with ⟨-, hget⟩ | ⟨r, hr, -, hget⟩
  · cases keep with
    | true => exact ⟨_, Behaves.bind_ok (hget b) (Behaves.pure _)⟩
    | false => exact ⟨_, Behaves.bind_ok (hget b) (Behaves.pure _)⟩
  · cases keep with
    | true => exact ⟨_, Behaves.bind_ok (hget b) (Behaves.pure _)⟩
    | false =>
      exact ⟨_, Behaves.bind_ok (hget b)
        (Behaves.bind_ok (behaves_dropAll_clone hr) (Behaves.pure _))⟩

/-- **A method of a borrowed registry** borrows nothing, whatever is borrowed. -/
theorem quiet_method (R : RegRef) (m : Method) : Quiet (method R m : Act N E _) b := by
  refine (Quiet.read _).bind fun reg => ?_
  cases m with
  | getId node => exact (Quiet.read _).bind fun _ => Quiet.pure _
  | contains node => exact (Quiet.read _).bind fun _ => Quiet.pure _
  | len => exact Quiet.pure _
  | get id keep => exact quiet_get reg id keep
  | containsId id =>
    exact Quiet.bind (fun w => ⟨_, behaves_containsId reg id⟩) fun _ => Quiet.pure _
  | iter script =>
    intro w
    have hspare : Spare [] w := fun r hr => absurd hr List.not_mem_nil
    obtain ⟨kept, w', hiter⟩ := exists_behaves_iter script reg.nodes.entries hspare
    exact ⟨_, hiter⟩
  | toSerialized =>
    exact Quiet.bind (fun w => ⟨_, behaves_registryToSerialized reg⟩) fun _ => Quiet.pure _

theorem quiet_withGuard (k : Guard) (R : RegRef) (hx : ∀ b, Quiet x b) :
    Quiet (withGuard k R x) clear := by
  cases k with
  | ref => exact quiet_withBorrow hx
  | refMut => exact quiet_withBorrowMut hx

/-- What may be done to any graph may be done to the one under a name, if there is one. -/
theorem quiet_onGraph (s : State N E) (g : GraphRef) {x : HistoryGraph → Act N E Unit}
    (hx : ∀ G, Quiet (x G) b) : Quiet (onGraph s g x) b := by
  rw [onGraph]
  cases s.graph g with
  | some G => exact hx G
  | none => exact Quiet.pure ()

/-- A call on a graph whose result is thrown away. -/
theorem quiet_onGraph_discard (s : State N E) (g : GraphRef) {x : HistoryGraph → Act N E α}
    (hx : ∀ G, Quiet (x G) b) : Quiet (onGraph s g fun G => do
      let _ ← x G
      pure ()) b :=
  quiet_onGraph s g fun G => (hx G).bind fun _ => Quiet.pure ()

/-- **A call that begins with no guard held** ends so, whether it returns or panics. -/
theorem exists_behaves_call (s : State N E) (inner : Multiset Ref) (c : Call N E) :
    ∃ res, Behaves (call A K s inner c) clear s.world res := by
  cases c with
  | op op =>
    -- the operation returns or panics as in the model; its borrows are over either way
    have hexec : Behaves (exec A K s op) clear s.world _ := behaves_exec s op
    generalize Relrc.exec A K s op = res at hexec
    cases res with
    | ok s' => exact ⟨_, Behaves.bind_ok hexec (Behaves.pure _)⟩
    | error e => exact ⟨_, Behaves.bind_error hexec⟩
  | registry node => exact (quiet_registry node).bind (fun _ => Quiet.pure _) _
  | allOutgoingWeak node =>
    refine Quiet.bind (quiet_withBorrow fun b => Quiet.read _) (fun edges => ?_) _
    exact (Quiet.write _).bind fun _ => Quiet.pure _
  | innerDefault value =>
    exact (Quiet.read _).bind (fun _ => (Quiet.write _).bind fun _ => Quiet.pure _) _
  | innerClone node => exact (quiet_cloneInner node).bind (fun _ => Quiet.pure _) _
  | innerShare node => exact (Quiet.write _).bind (fun _ => Quiet.pure _) _
  | innerUpgrade node => exact ⟨_, Behaves.bind_ok behaves_upgrade (Behaves.pure _)⟩
  | innerDrop node => exact (quiet_dropInner node).bind (fun _ => Quiet.pure _) _
  | fromInner node => exact ⟨_, Behaves.pure _⟩
  | onRegistry k R m =>
    exact (quiet_withGuard k R fun b => quiet_method R m).bind (fun _ => Quiet.pure _) _
  | graphContains g node =>
    exact (quiet_onGraph_discard s g fun G w => ⟨_, behaves_contains G node⟩).bind
      (fun _ => Quiet.pure _) _
  | getEdge g e =>
    exact (quiet_onGraph_discard s g fun G w => ⟨_, behaves_getEdge G e⟩).bind
      (fun _ => Quiet.pure _) _
  | containsEdge g e =>
    exact (quiet_onGraph_discard s g fun G w => ⟨_, behaves_containsEdge G e⟩).bind
      (fun _ => Quiet.pure _) _
  | source g e =>
    exact (quiet_onGraph_discard s g fun G w => ⟨_, behaves_source G e⟩).bind
      (fun _ => Quiet.pure _) _
  | target g e =>
    exact (quiet_onGraph_discard s g fun G w => ⟨_, behaves_target G e⟩).bind
      (fun _ => Quiet.pure _) _
  | mapNodeId g e =>
    exact (quiet_onGraph_discard s g fun G w => ⟨_, behaves_mapNodeId G e⟩).bind
      (fun _ => Quiet.pure _) _
  | graphToSerialized g =>
    exact (quiet_onGraph_discard s g fun G w => ⟨_, behaves_graphToSerialized G K⟩).bind
      (fun _ => Quiet.pure _) _

end Calls

end Guarded

/-! ### Runs -/

namespace Program

/-- A step that begins with no guard held ends so. -/
theorem Step.flag {p q : Program N E} (h : Step A K p q) (hp : p.flag = clear) :
    q.flag = clear := by
  cases h with
  | @returns c res cells _ hcall =>
    obtain ⟨_, hbehaves⟩ := Guarded.exists_behaves_call (A := A) (K := K) p.state p.inner c
    rw [outcome, hp] at hcall
    exact hbehaves.flag_of_ok hcall
  | @unwinds c e cells _ hcall rs cells' hdrop _ hworld hflag =>
    obtain ⟨_, hbehaves⟩ := Guarded.exists_behaves_call (A := A) (K := K) p.state p.inner c
    rw [outcome, hp] at hcall
    have hcells : cells.flag = clear := hbehaves.flag_of_error hcall
    obtain ⟨w, b⟩ := cells
    subst hcells
    rw [hflag]
    exact (Guarded.behaves_dropAll rs).flag_of_ok hdrop

/-- **Between two calls of a run** no guard is held. -/
theorem Run.flag {p : Program N E} (h : Run A K init p) : p.flag = clear := by
  induction h with
  | refl => rfl
  | tail _ hstep ih => exact hstep.flag ih

/-- A run of the model is a run with cells. -/
theorem run_of_run {P : State N E → Op N E → Prop} {s s' : State N E} (h : Relrc.Run A K P s s') :
    Run A K ⟨s, 0, clear⟩ ⟨s', 0, clear⟩ := by
  induction h with
  | refl => exact Relation.ReflTransGen.refl
  | @tail t t' _ hstep ih =>
    obtain ⟨op, henabled, -, hexec⟩ := hstep
    have hbehaves : RefCells.Behaves (Guarded.exec A K t op) clear t.world _ :=
      Guarded.behaves_exec t op
    rw [hexec] at hbehaves
    have hcall : Behaves (Guarded.call A K t 0 (.op op)) clear t.world
        (.ok ((t', 0), t'.world)) := Behaves.bind_ok hbehaves (Behaves.pure _)
    have hop : (Call.op op).Enabled ⟨t, 0, clear⟩ := henabled
    exact ih.tail (Step.returns hop hcall)

end Program

/-- **No borrow conflict is reachable**: no call that a program can make meets a cell that is
borrowed, and if the call panics for another reason, neither does the drop of whatever it has on its
stack. -/
theorem no_conflict_of_run {p : Program N E} (hrun : Program.Run A K Program.init p) :
    ∀ c : Call N E, c.Enabled p → conflicts (p.outcome A K c) = false ∧
      ∀ e cells, p.outcome A K c = .error e cells →
        ∀ rs, conflicts (Guarded.dropAll rs cells) = false := by
  intro c _
  obtain ⟨res, hbehaves⟩ := Guarded.exists_behaves_call (A := A) (K := K) p.state p.inner c
  rw [Program.outcome, hrun.flag]
  refine ⟨hbehaves.conflicts_eq_false, fun e cells hcall rs => ?_⟩
  have hcells : cells.flag = clear := hbehaves.flag_of_error hcall
  obtain ⟨w, b⟩ := cells
  subst hcells
  exact (Guarded.behaves_dropAll rs).conflicts_eq_false

/-- A node with a child, both registered. -/
def registeredPair : State ℕ ℕ :=
  State.init.after [.new 10, .registryNew, .tryRegisterIn 0 0, .withParents 20 [(0, 1)],
    .tryRegisterIn 1 0]

/-- The parent is looked up and dropped under the guard; and the last reference to the child is
dropped, with a cascade that frees both ids. -/
theorem no_conflict_of_run_registeredPair :
    (registeredPair.world.registries 0).get registeredPair.world.heap ⟨1, 1⟩ = some 0 ∧
    conflicts (Program.outcome AddrSource.lowest KeySource.reusing ⟨registeredPair, 0, clear⟩
      (.onRegistry .ref 0 (.get ⟨1, 1⟩ false))) = false ∧
    conflicts (Program.outcome AddrSource.lowest KeySource.reusing ⟨registeredPair, 0, clear⟩
      (.op (.drop (.node 1)))) = false := by
  have hmodel :
      Run AddrSource.lowest KeySource.reusing (fun _ _ => True) State.init registeredPair :=
    run_after (by decide +kernel) fun _ _ _ => trivial
  have hrun : Program.Run AddrSource.lowest KeySource.reusing Program.init
      ⟨registeredPair, 0, clear⟩ := Program.run_of_run hmodel
  have hget : (Call.onRegistry .ref 0 (.get ⟨1, 1⟩ false) : Call ℕ ℕ).Enabled
      ⟨registeredPair, 0, clear⟩ := by decide +kernel
  have hdrop : (Call.op (.drop (.node 1)) : Call ℕ ℕ).Enabled ⟨registeredPair, 0, clear⟩ := by
    decide +kernel
  have hfound :
      (registeredPair.world.registries 0).get registeredPair.world.heap ⟨1, 1⟩ = some 0 := by
    decide +kernel
  exact ⟨hfound, (no_conflict_of_run hrun _ hget).1, (no_conflict_of_run hrun _ hdrop).1⟩

/-- **A temporary argument may conflict**: `R.borrow().get_id(&identity(n))` drops the last handle
to `n` under the guard, and the hook cannot borrow the registry to free the id. -/
theorem conflict_temporaryArgument :
    Program.Run AddrSource.lowest KeySource.reusing Program.init ⟨registeredPair, 0, clear⟩ ∧
    Handle.node 1 ∈ registeredPair.handles ∧ registeredPair.world.RegAlive 0 ∧
    conflicts (Guarded.withGuard .ref 0 (Guarded.methodOnTemporary 0 (.getId 1) 1)
      ⟨registeredPair.world, clear⟩) = true := by
  have hmodel :
      Run AddrSource.lowest KeySource.reusing (fun _ _ => True) State.init registeredPair :=
    run_after (by decide +kernel) fun _ _ _ => trivial
  exact ⟨Program.run_of_run hmodel, by decide +kernel, by decide +kernel, by decide +kernel⟩

end Relrc
