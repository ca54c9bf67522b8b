import Relrc.Borrows.Graphs

/-!
# Borrowing in the codec

Encoding works on a copy of the registry, and decoding on a registry of its own. The only guards are
the ones under which the registry is copied and those of the functions that insert nodes.
-/

namespace Relrc

open SlotStore RefCells Action

namespace Guarded

variable {N E : Type} {w : World N E} {R : RegRef}

/-! ### Encoding -/

section Encoding

variable (g : HistoryGraph) (K : KeySource)

/-- A node of the graph is looked up in a copy of the registry, and dropped again. -/
theorem behaves_internAncestors (acc : Registry × List NodeId) (n : NodeId) :
    Behaves (internAncestors K acc n) clear w ((do
      let node ← Relrc.expect .invalidNode (acc.1.get w.heap n)
      let res := Registry.internAll K w.heap acc.1 (w.heap.allAncestors node)
      pure (res.1, acc.2 ++ res.2) : Except Panic (Registry × List NodeId)).map (·, w)) := by
  rcases get_cases acc.1 n w with ⟨hget, hbehaves⟩ | ⟨r, hr, hget, hbehaves⟩
  · rw [hget]
    exact Behaves.bind_ok (hbehaves clear) (Behaves.bind_error (Behaves.raise _))
  · rw [hget]
    refine Behaves.bind_ok (hbehaves clear) (Behaves.bind_ok (Behaves.pure r) ?_)
    exact Behaves.bind_ok (Behaves.read _)
      (Behaves.bind_ok (behaves_drop_clone hr) (Behaves.pure _))

/-- The registry is borrowed only to be copied. -/
theorem behaves_collectAncestors : Behaves (collectAncestors g K) clear w
    ((g.collectAncestors K w).map (·, w)) := by
  refine Behaves.bind_ok (behaves_withBorrow fun b => Behaves.read _) ?_
  exact Behaves.foldlM (f := internAncestors K) (·, w)
    (fun acc n _ => behaves_internAncestors K acc n) (w.registries g.registry, [])

/-- Encoding works on a copy of the registry, so no guard is held when nodes are dropped. -/
theorem behaves_graphToSerialized : Behaves (graphToSerialized g K) clear w
    ((g.toSerialized K w).map (·, w)) := by
  rw [HistoryGraph.toSerialized, except_map_bind]
  refine Behaves.bind (·, w) (behaves_collectAncestors g K) fun col _ => ?_
  rw [except_map_bind]
  exact Behaves.bind (·, w) (behaves_registryToSerialized col.1) fun ser _ => Behaves.pure _

/-- The graph that `RelRc::to_serialized` makes is dropped in the end, with no guard held. -/
theorem behaves_toSerialized (node : Ref) : Behaves (toSerialized K node R) clear w
    (w.toSerialized K node R) := by
  rw [World.toSerialized]
  refine Behaves.bind_ok (Behaves.write _) (Behaves.bind_ok (behaves_graphNew K [] R) ?_)
  refine Behaves.bind_ok (Behaves.write _) ?_
  refine Behaves.bind _ (behaves_insertAncestors _ K node) fun res _ => ?_
  refine Behaves.bind (·, _) (behaves_graphToSerialized res.2.2 K) fun ser _ => ?_
  exact Behaves.bind_ok (behaves_graphDrop res.2.2) (Behaves.pure _)

end Encoding

/-! ### Decoding -/

section Decoding

variable (A : AddrSource) (K : KeySource)

/-- A parent is looked up among the decoded nodes, and cloned. -/
theorem behaves_cloneParent (nodes : Slots Ref) (pe : NodeId × E) :
    Behaves (cloneParent nodes pe) clear w ((do
      let parent ← Relrc.expect .validDfsOrder (nodes.get pe.1)
      pure (parent, pe.2) : Except Panic (Ref × E)).map fun x => (x, w.clone x.1)) := by
  rw [except_map_bind]
  refine Behaves.bind (·, w) (reads_expect _ _).behaves fun parent _ => ?_
  exact Behaves.bind_ok (Behaves.write _) (Behaves.pure _)

/-- The parents are cloned as they are looked up. -/
theorem behaves_cloneParents (nodes : Slots Ref) (incoming : List (NodeId × E)) :
    Behaves (incoming.mapM (cloneParent nodes)) clear w
      ((incoming.mapM fun pe => do
        let parent ← Relrc.expect .validDfsOrder (nodes.get pe.1)
        pure (parent, pe.2) : Except Panic (List (Ref × E))).map fun parents =>
          (parents, w.withHeap (w.heap.incStrongAll (parents.map Prod.fst)))) := by
  induction incoming generalizing w with
  | nil => exact Behaves.pure _
  | cons pe incoming ih =>
    rw [List.mapM_cons, List.mapM_cons, except_map_bind]
    refine Behaves.bind _ (behaves_cloneParent nodes pe) fun x _ => ?_
    rw [except_map_bind]
    exact Behaves.bind _ ih fun parents _ => Behaves.pure _

/-- A decoded node takes the clones of its parents along. -/
theorem behaves_createNode (d : Decoding N E) (nodeId : NodeId) (ser : SerializedInnerData N E) :
    Behaves (createNode A d.nodes nodeId ser) clear d.world
      ((d.create A nodeId ser).map fun d' => (d'.nodes, d'.world)) := by
  rw [Decoding.create, except_map_bind]
  refine Behaves.bind _ (behaves_cloneParents d.nodes ser.incoming) fun parents _ => ?_
  refine Behaves.bind_ok (behaves_withParents A ser.value parents) ?_
  exact Behaves.bind_ok (behaves_dropAll _) (Behaves.pure _)

/-- `create` leaves alone what is still to be decoded. -/
theorem create_map (d : Decoding N E) (nodeId : NodeId) (ser : SerializedInnerData N E) :
    (d.create A nodeId ser).map (fun d' => ((d'.serialised, d'.nodes), d'.world)) =
      d.create A nodeId ser >>= fun d' => .ok ((d.serialised, d'.nodes), d'.world) := by
  rw [Decoding.create, except_map_bind, bind_assoc]
  rfl

theorem behaves_deserializeNode (n : ℕ) (d : Decoding N E) (nodeId : NodeId) :
    Behaves (deserializeNode A n (d.serialised, d.nodes) nodeId) clear d.world
      ((Decoding.node A n d nodeId).map fun d' => ((d'.serialised, d'.nodes), d'.world)) := by
  induction n generalizing d nodeId with
  | zero => exact Behaves.raise _
  | succ n ih =>
    rw [Decoding.node, deserializeNode, except_map_bind]
    refine Behaves.bind (·, d.world) (reads_expect _ _).behaves fun ser _ => ?_
    rw [except_map_bind]
    have hparents := Behaves.foldlM (l := ser.incoming)
      (f := fun (d : SlotMap (SerializedInnerData N E) × Slots Ref) pe =>
        if d.2.contains pe.1 then pure d else deserializeNode A n d pe.1)
      (g := fun (d : Decoding N E) pe =>
        if d.nodes.contains pe.1 then pure d else Decoding.node A n d pe.1)
      (b := clear) (fun d => ((d.serialised, d.nodes), d.world))
      (fun d pe _ => by
        dsimp only
        split_ifs
        · exact Behaves.pure _
        · exact ih d pe.1) { d with serialised := d.serialised.remove nodeId }
    refine Behaves.bind _ hparents fun d' _ => ?_
    rw [create_map]
    exact Behaves.bind _ (behaves_createNode A d' nodeId ser) fun d'' _ => Behaves.pure _

/-- The outer loop of `deserialize_nodes`. -/
theorem behaves_deserializeLoop (n : ℕ) (d : Decoding N E) :
    Behaves (deserializeLoop A n (d.serialised, d.nodes)) clear d.world
      ((Decoding.loop A n d).map fun d' => (d'.nodes, d'.world)) := by
  induction n generalizing d with
  | zero => exact Behaves.pure _
  | succ n ih =>
    rw [Decoding.loop, deserializeLoop]
    cases d.serialised.keys with
    | nil => exact Behaves.pure _
    | cons nodeId _ =>
      simp only
      rw [except_map_bind]
      exact Behaves.bind _ (behaves_deserializeNode A _ d nodeId) fun d' _ => ih d'

theorem behaves_deserializeNodes (serialised : SlotMap (SerializedInnerData N E)) :
    Behaves (deserializeNodes A serialised) clear w
      ((Relrc.deserializeNodes A w serialised).map fun res => (res.2, res.1)) := by
  have hloop := behaves_deserializeLoop A (serialised.len + 1) ⟨w, serialised, Slots.empty⟩
  rw [Relrc.deserializeNodes]
  generalize Decoding.loop A _ _ = res at hloop ⊢
  cases res with
  | ok d => exact hloop
  | error e => exact hloop

/-- The registry is complete before it is put into a cell. -/
theorem behaves_registryFromSerialized (ser : SerializedRegistry N E) :
    Behaves (registryFromSerialized A ser) clear w
      ((Registry.fromSerialized A w ser).map fun res => ((res.1, res.2.1), res.2.2)) := by
  rw [Registry.fromSerialized, except_map_bind]
  refine Behaves.bind _ (behaves_deserializeNodes A ser.nodes) fun res _ => ?_
  rw [except_map_bind]
  refine Behaves.bind (·, res.1) ?_ fun registry _ => ?_
  · exact behaves_traverseM (fun k _ => (reads_expect _ _).behaves) _
  · exact Behaves.bind_ok (Behaves.read _) (Behaves.bind_ok (Behaves.write _) (Behaves.pure _))

theorem reads_assertThat (p : Bool) :
    Reads (assertThat p : Act N E Unit) w (Relrc.assertThat p) := by
  cases p with
  | true => exact Reads.pure ()
  | false => exact Reads.raise _

/-- What is decoded and not in the graph is dropped with its hook, and no guard is held. -/
theorem behaves_graphFromSerialized (ser : SerializedHistoryGraph N E) :
    Behaves (graphFromSerialized A K ser) clear w
      ((HistoryGraph.fromSerialized A K w ser).map fun res => (res.2, res.1)) := by
  rw [HistoryGraph.fromSerialized, except_map_bind]
  refine Behaves.bind _ (behaves_registryFromSerialized A ser.registry) fun res _ => ?_
  rw [except_map_bind]
  refine Behaves.bind (·, res.2.2) (reads_assertThat _).behaves fun _ hsub => ?_
  have hsub : ∀ k ∈ ser.nodes, res.2.1.contains k := by
    simpa using Relrc.assertThat_eq_ok_iff.mp hsub
  -- the look-ups answer what the assertion asks for
  have hall : ((res.2.1.keys.filter (· ∈ ser.nodes)).map
      ((res.2.2.registries res.1).containsId res.2.2.heap)).all id =
        decide (∀ k ∈ ser.nodes, (res.2.2.registries res.1).containsId res.2.2.heap k) := by
    rw [Bool.eq_iff_iff, List.all_eq_true, decide_eq_true_iff]
    simp only [List.mem_map, List.mem_filter, decide_eq_true_eq, id]
    constructor
    · intro h k hk
      exact h _ ⟨k, ⟨Slots.mem_keys.mpr (Slots.contains_iff.mp (hsub k hk)), hk⟩, rfl⟩
    · rintro h _ ⟨k, ⟨-, hk⟩, rfl⟩
      exact h k hk
  have hfound := Behaves.mapM (b := clear) (w := res.2.2) (l := res.2.1.keys.filter (· ∈ ser.nodes))
    (f := containsId (res.2.2.registries res.1))
    (g := fun k =>
      (pure ((res.2.2.registries res.1).containsId res.2.2.heap k) : Except Panic Bool))
    fun k _ => behaves_containsId _ k
  rw [List.mapM_pure] at hfound
  rw [← hall, except_map_bind]
  refine Behaves.bind_ok (Behaves.read _) (Behaves.bind_ok hfound ?_)
  refine Behaves.bind (·, res.2.2) (reads_assertThat _).behaves fun _ _ => ?_
  rw [except_map_bind]
  refine Behaves.bind_ok (behaves_dropAll _) (Behaves.bind_ok (Behaves.read _) ?_)
  refine Behaves.bind (·, _) (reads_assertThat _).behaves fun _ _ => ?_
  exact behaves_graphNew K _ _

/-- The node is cloned before the decoded graph is dropped. -/
theorem behaves_fromSerialized (ser : SerializedRelRc N E) :
    Behaves (fromSerialized A K ser) clear w (w.fromSerialized A K ser) := by
  rw [World.fromSerialized]
  refine Behaves.bind _ (behaves_graphFromSerialized A K ser.ancestorsGraph) fun history _ => ?_
  have hdrop : ∀ w : World N E, Behaves (graphDrop history.2) clear w
      (.ok ((), history.2.drop w)) := fun w => behaves_graphDrop history.2
  cases history.2.getNode ser.id with
  | none => exact Runs.ensuring (Behaves.bind_error (Behaves.raise _)) hdrop
  | some node =>
    have hbody : Behaves (do
        let node ← expect .validNode (some node)
        clone node
        pure node : Act N E Ref) clear history.1 (.ok (node, history.1.clone node)) :=
      Behaves.bind_ok (Behaves.pure node) (Behaves.bind_ok (Behaves.write _) (Behaves.pure _))
    exact Runs.ensuring hbody hdrop

end Decoding

end Guarded

end Relrc
