import Relrc.Parametric.Graphs
import Relrc.Codec.DecodeRun
import Relrc.Traversal

/-!
# Encoding and decoding over twin memories

What is written from two memories in step differs in values only, under the same ids; and decoding
what differs in values only makes memories in step, or panics on both sides.
-/

namespace Relrc

open SlotStore Ancestry Lockstep

variable {N E M F : Type} {φ : N → M} {ψ : E → F} {A B : AddrSource} {K : KeySource}

/-! ### Written data with other values -/

/-- Apply functions to the value of a node and to those of its edges. -/
def SerializedInnerData.map (φ : N → M) (ψ : E → F) (data : SerializedInnerData N E) :
    SerializedInnerData M F := ⟨φ data.value, data.incoming.map (Prod.map id ψ)⟩

/-- Apply functions to all values. -/
def SerializedRegistry.map (φ : N → M) (ψ : E → F) (ser : SerializedRegistry N E) :
    SerializedRegistry M F := ⟨ser.nodes.map fun _ => SerializedInnerData.map φ ψ⟩

/-- Apply functions to all values. -/
def SerializedHistoryGraph.map (φ : N → M) (ψ : E → F) (ser : SerializedHistoryGraph N E) :
    SerializedHistoryGraph M F := ⟨ser.nodes, ser.registry.map φ ψ⟩

/-- Apply functions to all values. -/
def SerializedRelRc.map (φ : N → M) (ψ : E → F) (ser : SerializedRelRc N E) :
    SerializedRelRc M F := ⟨ser.id, ser.ancestorsGraph.map φ ψ⟩

theorem alike_expect {α β : Type} {R : α → β → Prop} (p : Panic) {x : Option α} {y : Option β}
    (h : Option.Rel R x y) : Alike R (expect p x) (expect p y) := by
  cases h with
  | some h => exact Alike.ok h
  | none => exact Alike.error p

theorem alike_expect_eq {α : Type} {R : α → α → Prop} (p : Panic) {x : Option α}
    (h : ∀ a, x = some a → R a a) : Alike R (expect p x) (expect p x) := by
  cases x with
  | some a => exact Alike.ok (h a rfl)
  | none => exact Alike.error p

theorem alike_assertThat {b b' : Bool} (h : b' = b) :
    Alike (fun _ _ : Unit => True) (assertThat b) (assertThat b') := by
  subst h
  cases b' with
  | false => exact Alike.error _
  | true => exact Alike.ok trivial

/-! ### Encoding -/

namespace Twins

variable {w : World N E} {w' : World M F} {H : Multiset Ref} {G : Multiset RegRef}
variable (ht : Twins φ ψ w w' H G)

include ht

/-- Traversals stop at the same node, since ancestors differ exactly when their addresses do. -/
theorem allAncestors {r : Ref} (hr : w.heap.Alive r) :
    w'.heap.allAncestors r = w.heap.allAncestors r := by
  have hkey : ∀ x y, w.heap.Alive x → w.heap.Alive y →
      (w.heap.asPtr x = w.heap.asPtr y ↔ w'.heap.asPtr x = w'.heap.asPtr y) := by
    intro x y hx hy
    have hx' := (ht.image.inUse_iff x).mpr (Or.inl hx)
    have hy' := (ht.image.inUse_iff y).mpr (Or.inl hy)
    constructor
    · intro heq
      rw [ht.left.addr_inj x y (Or.inl hx) (Or.inl hy) heq]
    · intro heq
      rw [ht.right.addr_inj x y hx' hy' heq]
  rw [Heap.allAncestors, Heap.allAncestors, ht.image.heap.allParents, ht.image.heap.size]
  exact (queueWalk_congr (U := w.heap.Alive) (fun _ _ _ hp => ht.left.heap.parent_alive hp) hkey _
    [] [r] nofun fun x hx => by rwa [List.mem_singleton.mp hx]).symm


end Twins

/-- Copies of a registry with the same entries, one for each memory. -/
structure RegistryTwins (w : World N E) (w' : World M F) (reg reg' : Registry) : Prop where
  nodes : reg'.nodes = reg.nodes
  left : reg.Faithful w
  right : reg'.Faithful w'

/-- A node is given the same id. -/
theorem RegistryTwins.addNode {w : World N E} {w' : World M F} {H : Multiset Ref}
    {G : Multiset RegRef} {reg reg' : Registry} {r : Ref} (hreg : RegistryTwins w w' reg reg')
    (ht : Twins φ ψ w w' H G) (hr : w.heap.Alive r) :
    (reg'.addNode K w'.heap r).1 = (reg.addNode K w.heap r).1 ∧
      RegistryTwins w w' (reg.addNode K w.heap r).2 (reg'.addNode K w'.heap r).2 := by
  obtain ⟨hid, hnodes⟩ := ht.addNode (K := K) hreg.nodes hreg.left hreg.right (Or.inl hr)
  have halive' := (ht.image.heap.alive_iff r).mpr hr
  exact ⟨hid, hnodes, hreg.left.addNode hr, hreg.right.addNode halive'⟩

namespace Twins

variable {w : World N E} {w' : World M F} {H : Multiset Ref} {G : Multiset RegRef}
variable (ht : Twins φ ψ w w' H G) {reg reg' : Registry}

include ht

theorem registryTwins (R : RegRef) :
    RegistryTwins w w' (w.registries R) (w'.registries R) :=
  ⟨ht.image.nodes R, ht.left.faithful R, ht.right.faithful R⟩

/-- Nodes are given the same ids. -/
theorem internAll (hreg : RegistryTwins w w' reg reg') {rs : List Ref}
    (hrs : ∀ r ∈ rs, w.heap.Alive r) :
    (Registry.internAll K w'.heap reg' rs).2 = (Registry.internAll K w.heap reg rs).2 ∧
      RegistryTwins w w' (Registry.internAll K w.heap reg rs).1
        (Registry.internAll K w'.heap reg' rs).1 := by
  refine List.foldl_rel (r := fun (a b : Registry × List NodeId) =>
    b.2 = a.2 ∧ RegistryTwins w w' a.1 b.1) ⟨rfl, hreg⟩ ?_
  rintro r hr a b ⟨hids, hab⟩
  obtain ⟨hid, hadd⟩ := hab.addNode (K := K) ht (hrs r hr)
  simp only [Registry.getIdOrInsert_eq, hids, hid, true_and]
  exact hadd

/-- A registry is made of the same nodes under the same ids. -/
theorem fromIter {nodes : List Ref} (hnodes : ∀ r ∈ nodes, w.heap.Alive r) :
    (Registry.fromIter K w'.heap nodes).nodes = (Registry.fromIter K w.heap nodes).nodes := by
  have hnew : RegistryTwins w w' Registry.new Registry.new :=
    ⟨rfl, ⟨Registry.Inverse.new, nofun⟩, ⟨Registry.Inverse.new, nofun⟩⟩
  exact (List.foldl_rel hnew fun r hr a b hab => (hab.addNode ht (hnodes r hr)).2).nodes

/-- **A node is written** with its values mapped, or cannot be written from either memory. -/
theorem serializeInnerData (hreg : RegistryTwins w w' reg reg') (k : NodeId) :
    Alike (fun a b => b = a.map φ ψ) (reg.serializeInnerData w.heap k)
      (reg'.serializeInnerData w'.heap k) := by
  rw [Registry.serializeInnerData, Registry.serializeInnerData, ht.get hreg.nodes]
  refine (alike_expect_eq (R := Eq) _ fun _ _ => rfl).bind ?_
  rintro r _ rfl
  refine Alike.bind (R := fun d d' => w.heap.data r = some d ∧ d' = d.map φ ψ)
    (alike_expect _ ?_) ?_
  · rw [ht.image.heap.data]
    cases w.heap.data r with
    | none => exact .none
    | some d => exact .some ⟨rfl, rfl⟩
  · rintro d _ ⟨hd, rfl⟩
    have halive : ∀ e ∈ d.incoming, w.InUse e.source := by
      intro e he
      have hinc : w.heap.allIncoming r = d.incoming := by rw [Heap.allIncoming, hd]
      exact Or.inl (ht.left.heap.parent_alive (c := r) (List.mem_map_of_mem (hinc ▸ he)))
    refine Alike.bind (R := List.Forall₂ fun a b => b = Prod.map id ψ a)
      (Alike.mapM (T := fun e e' => e' = InnerEdgeData.map ψ e) (forall₂_map_iff.mpr rfl) ?_) ?_
    · rintro e _ he rfl
      have hid : reg'.getId w'.heap (InnerEdgeData.map ψ e).source = reg.getId w.heap e.source :=
        ht.getId hreg.nodes hreg.left hreg.right (halive e he)
      rw [hid]
      refine (alike_expect_eq (R := Eq) _ fun _ _ => rfl).bind ?_
      rintro id _ rfl
      exact Alike.pure rfl
    · intro ps ps' hps
      obtain rfl := forall₂_map_iff.mp hps
      exact Alike.pure rfl

/-- Encoded registries differ in values only. -/
theorem registryToSerialized (hreg : RegistryTwins w w' reg reg') :
    Alike (fun a b => b = a.map φ ψ) (reg.toSerialized w.heap) (reg'.toSerialized w'.heap) := by
  rw [Registry.toSerialized, Registry.toSerialized, hreg.nodes]
  refine Alike.bind (Alike.traverse fun k _ _ => ht.serializeInnerData hreg k) ?_
  rintro m _ rfl
  exact Alike.pure rfl

/-- The same ancestors get the same ids. -/
theorem collectAncestors (g : HistoryGraph) :
    Alike (fun a b => b.2 = a.2 ∧ RegistryTwins w w' a.1 b.1) (g.collectAncestors K w)
      (g.collectAncestors K w') := by
  refine Alike.foldlM (T := Eq) (List.forall₂_same.mpr fun _ _ => rfl)
    ⟨rfl, ht.registryTwins g.registry⟩ ?_
  rintro a b k _ - rfl ⟨hids, hab⟩
  rw [ht.get hab.nodes]
  refine Alike.bind (R := fun r r' => w.heap.Alive r ∧ r' = r)
    (alike_expect_eq _ fun r hr => ⟨(Registry.get_eq_some_iff.mp hr).2, rfl⟩) ?_
  rintro _ r ⟨hr, rfl⟩
  have halive : ∀ x ∈ w.heap.allAncestors r, w.heap.Alive x := fun x hx =>
    ht.left.heap.alive_of_reaches hr (ht.left.reaches_of_mem_allAncestors hr hx)
  obtain ⟨hid, hint⟩ := ht.internAll (K := K) hab halive
  rw [ht.allAncestors hr]
  exact Alike.pure ⟨by rw [hids, hid], hint⟩

/-- **A graph is written** from both memories under the same ids, or from neither. -/
theorem graphToSerialized (g : HistoryGraph) :
    Alike (fun a b => b = a.map φ ψ) (g.toSerialized K w) (g.toSerialized K w') := by
  refine Alike.bind (ht.collectAncestors g) ?_
  rintro a b ⟨hids, hab⟩
  refine (ht.registryToSerialized hab).bind ?_
  rintro ser _ rfl
  rw [hids]
  refine Alike.pure ?_
  rw [SerializedHistoryGraph.map, SerializedRegistry.map, SerializedRegistry.map,
    SlotMap.retain_map _ fun k => decide (k ∈ a.2)]

/-- **`to_serialized`** returns the same ids. -/
theorem toSerialized {r : Ref} {R : RegRef} (hr : w.heap.Alive r) (hR : w.RegAlive R) :
    Alike (fun a b => b.1 = a.1.map φ ψ ∧ Twins φ ψ a.2 b.2 H G) (w.toSerialized K r R)
      (w'.toSerialized K r R) := by
  have hreg : Twins φ ψ (w.cloneRegistry R) (w'.cloneRegistry R) H (R ::ₘ G) :=
    ⟨ht.image.cloneRegistry R, ht.left.cloneRegistry hR,
      ht.right.cloneRegistry ((ht.image.regAlive_iff R).mpr hR)⟩
  have hclone := hreg.clone (r := r) hr
  rw [← HistoryGraph.refs_empty_add R (r ::ₘ H)] at hclone
  refine Alike.bind (hclone.insertAncestors (Multiset.mem_cons_self R G)) ?_
  rintro ⟨id, w1, g⟩ ⟨id', w1', g'⟩ ⟨hid, hgraph, hregistry, htw, -⟩
  simp only at hid hgraph hregistry htw ⊢
  subst hid hgraph hregistry
  refine (htw.graphToSerialized g').bind ?_
  rintro ser _ rfl
  exact Alike.pure ⟨rfl, htw.graphDrop⟩

end Twins

/-! ### Decoding -/

/-- Two decoders in step: the same entries are left, with their values mapped, and the same nodes
have been decoded. -/
structure DecodeTwins (φ : N → M) (ψ : E → F) (d : Decoding N E) (d' : Decoding M F)
    (H : Multiset Ref) (G : Multiset RegRef) : Prop where
  serialised : d'.serialised = d.serialised.map fun _ => SerializedInnerData.map φ ψ
  nodes : d'.nodes = d.nodes
  twins : Twins φ ψ d.world d'.world (d.refs + H) G
  nodup : d.nodes.values.Nodup

namespace DecodeTwins

variable {d : Decoding N E} {d' : Decoding M F} {H : Multiset Ref} {G : Multiset RegRef}

/-- The same node is created, with another value and address. -/
theorem create (h : DecodeTwins φ ψ d d' H G) (k : NodeId) (ser : SerializedInnerData N E) :
    Alike (fun a b => DecodeTwins φ ψ a b H G) (d.create A k ser)
      (d'.create B k (ser.map φ ψ)) := by
  suffices hcore : Alike (fun a b => b.serialised = a.serialised.map
      (fun _ => SerializedInnerData.map φ ψ) ∧ b.nodes = a.nodes ∧
        Twins φ ψ a.world b.world (a.refs + H) G)
      (d.create A k ser) (d'.create B k (ser.map φ ψ)) by
    refine hcore.imp_of_ok fun a b ha _ hab => ⟨hab.1, hab.2.1, hab.2.2, ?_⟩
    have hrun : DecodeRun A KeySource.reusing (fun _ => True) d a H G :=
      Decoding.steps_create h.twins.left h.nodup ha
    exact hrun.nodup
  refine Alike.bind (R := List.Forall₂ fun p p' => p.1 ∈ d.refs ∧ p' = Prod.map id ψ p)
    (Alike.mapM (T := fun pe pe' => pe' = Prod.map id ψ pe) (forall₂_map_iff.mpr rfl) ?_) ?_
  · rintro pe _ - rfl
    rw [h.nodes]
    refine Alike.bind (R := fun r r' => r ∈ d.refs ∧ r' = r)
      (alike_expect_eq _ fun r hr => ⟨Slots.mem_values.mpr ⟨pe.1, hr⟩, rfl⟩) ?_
    rintro r _ ⟨hr, rfl⟩
    exact Alike.pure ⟨hr, rfl⟩
  · intro ps ps' hps
    obtain rfl := forall₂_map_iff.mp (hps.imp fun _ _ hp => hp.2)
    have hfst : (ps.map (Prod.map id ψ)).map Prod.fst = ps.map Prod.fst := by
      rw [List.map_map]
      rfl
    have halive : ∀ r ∈ ps.map Prod.fst, d.world.heap.Alive r := by
      intro r hr
      obtain ⟨p, hp, rfl⟩ := List.mem_map.mp hr
      obtain ⟨_, -, hmem, -⟩ := Fallible.exists_of_forall₂ hps hp
      exact h.twins.left.heap.alive_of_held (Multiset.mem_add.mpr (Or.inl hmem))
    have hclone := h.twins.incStrongAll halive
    have hnode : (d'.world.withHeap (d'.world.heap.incStrongAll (ps.map Prod.fst))).heap.size =
        (d.world.withHeap (d.world.heap.incStrongAll (ps.map Prod.fst))).heap.size :=
      hclone.image.heap.size
    have halloc := hclone.withParents A B ser.value ps
    rw [hfst]
    simp only [hnode, h.nodes]
    refine Alike.pure ⟨h.serialised, rfl, Twins.dropAll ?_⟩
    -- the new node goes into the map, and what it displaces comes out
    have hval := Slots.values_insert_evicted d.nodes k
      (d.world.withHeap (d.world.heap.incStrongAll (ps.map Prod.fst))).heap.size
    rw [← Multiset.cons_add, Decoding.refs, ← hval, add_comm (Multiset.ofList (Slots.values _)),
      add_assoc] at halloc
    exact halloc

/-- **A node is decoded** after its parents: both decoders recurse along the same ids. -/
theorem node (n : ℕ) (h : DecodeTwins φ ψ d d' H G) (k : NodeId) :
    Alike (fun a b => DecodeTwins φ ψ a b H G) (d.node A n k) (d'.node B n k) := by
  induction n generalizing d d' k with
  | zero => exact Alike.error _
  | succ n ih =>
    rw [Decoding.node, Decoding.node, h.serialised, SlotMap.get_map]
    refine Alike.bind (R := fun s s' => s' = SerializedInnerData.map φ ψ s)
      (alike_expect _ (by cases d.serialised.get k with
        | none => exact .none
        | some s => exact .some rfl)) ?_
    rintro ser _ rfl
    have hrest : DecodeTwins φ ψ { d with serialised := d.serialised.remove k }
        { d' with serialised := (d.serialised.map fun _ => SerializedInnerData.map φ ψ).remove k }
        H G := ⟨SlotMap.remove_map _ _ _, h.nodes, h.twins, h.nodup⟩
    refine Alike.bind (Alike.foldlM (R := fun a b => DecodeTwins φ ψ a b H G)
      (T := fun pe pe' => pe' = Prod.map id ψ pe) (forall₂_map_iff.mpr rfl) hrest ?_)
      fun a b hab => hab.create k ser
    rintro a b pe _ - rfl hab
    rw [hab.nodes]
    by_cases hc : a.nodes.contains pe.1
    · simp only [hc, if_true, Prod.map_fst, id_eq]
      exact Alike.pure hab
    · simp only [hc, Prod.map_fst, id_eq]
      exact ih hab pe.1

theorem loop (n : ℕ) (h : DecodeTwins φ ψ d d' H G) :
    Alike (fun a b => DecodeTwins φ ψ a b H G) (d.loop A n) (d'.loop B n) := by
  induction n generalizing d d' with
  | zero => exact Alike.pure h
  | succ n ih =>
    rw [Decoding.loop, Decoding.loop, h.serialised, SlotMap.keys_map, SlotMap.len_map]
    cases d.serialised.keys with
    | nil => exact Alike.pure h
    | cons k ks => exact (h.node _ k).bind fun a b hab => ih hab

end DecodeTwins

namespace Twins

variable {w : World N E} {w' : World M F} {H : Multiset Ref} {G : Multiset RegRef}
variable (ht : Twins φ ψ w w' H G)

include ht

/-- Decoded nodes are the same, and the decoder panics in both memories or in none. -/
theorem deserializeNodes (ser : SlotMap (SerializedInnerData N E)) :
    Alike (fun a b => b.2 = a.2 ∧ Twins φ ψ a.1 b.1 ((a.2.values : Multiset Ref) + H) G)
      (Relrc.deserializeNodes A w ser)
      (Relrc.deserializeNodes B w' (ser.map fun _ => SerializedInnerData.map φ ψ)) := by
  have hstart : DecodeTwins φ ψ ⟨w, ser, Slots.empty⟩
      ⟨w', ser.map fun _ => SerializedInnerData.map φ ψ, Slots.empty⟩ H G := by
    refine ⟨rfl, rfl, ?_, List.nodup_nil⟩
    have hzero : (⟨w, ser, Slots.empty⟩ : Decoding N E).refs + H = H := by
      simp [Decoding.refs, Slots.values]
    rwa [hzero]
  rw [Relrc.deserializeNodes, Relrc.deserializeNodes, SlotMap.len_map]
  exact (hstart.loop _).bind fun a b hab => Alike.pure ⟨hab.nodes, hab.twins⟩

/-- **`Registry::from_serialized`** makes the same registry, over the same nodes. -/
theorem registryFromSerialized (ser : SerializedRegistry N E) :
    Alike (fun a b => b.1 = a.1 ∧ b.2.1 = a.2.1 ∧
        Twins φ ψ a.2.2 b.2.2 ((a.2.1.values : Multiset Ref) + H) (a.1 ::ₘ G))
      (Registry.fromSerialized A w ser) (Registry.fromSerialized B w' (ser.map φ ψ)) := by
  suffices hcore : Alike (fun a b => b.1 = a.1 ∧ b.2.1 = a.2.1 ∧ World.Image φ ψ a.2.2 b.2.2)
      (Registry.fromSerialized A w ser) (Registry.fromSerialized B w' (ser.map φ ψ)) by
    refine hcore.imp_of_ok ?_
    rintro ⟨R, nodes, v⟩ ⟨R', nodes', v'⟩ ha hb ⟨hR, hnodes, himage⟩
    simp only at hR hnodes himage ⊢
    subst hR hnodes
    have hleft : Steps A KeySource.reusing (fun _ => True) _ _ ∧ _ :=
      steps_registryFromSerialized ht.left ha
    have hright : Steps B KeySource.reusing (fun _ => True) _ _ ∧ _ :=
      steps_registryFromSerialized ht.right hb
    exact ⟨rfl, rfl, himage, Steps.inv hleft.1 ht.left, Steps.inv hright.1 ht.right⟩
  refine (ht.deserializeNodes ser.nodes).bind ?_
  rintro ⟨v, nodes⟩ ⟨v', nodes'⟩ ⟨hnodes, htv⟩
  simp only at hnodes htv ⊢
  subst hnodes
  have hunit : ((ser.map φ ψ).nodes.map fun _ _ => ()) = ser.nodes.map fun _ _ => () :=
    SlotMap.map_map _ _ _
  rw [hunit]
  refine Alike.bind (R := Eq) ?_ ?_
  · cases (ser.nodes.map fun _ _ => ()).traverse fun k _ =>
      expect Panic.invalidNodeId (nodes'.get k) with
    | error e => exact Alike.error e
    | ok m => exact Alike.ok rfl
  · rintro m _ rfl
    exact Alike.pure ⟨htv.image.nregs, rfl, htv.image.allocRegistry rfl⟩

/-- **`HistoryGraph::from_serialized`** makes the same graph. -/
theorem graphFromSerialized (ser : SerializedHistoryGraph N E) :
    Alike (fun a b => b.2 = a.2 ∧ Twins φ ψ a.1 b.1 (a.2.refs + H) (a.2.registry ::ₘ G))
      (HistoryGraph.fromSerialized A K w ser)
      (HistoryGraph.fromSerialized B K w' (ser.map φ ψ)) := by
  refine (ht.registryFromSerialized ser.registry).bind ?_
  rintro ⟨R, nodes, v⟩ ⟨R', nodes', v'⟩ ⟨hR, hnodes, htv⟩
  simp only at hR hnodes htv ⊢
  subst hR hnodes
  have hids : (v'.registries R').containsId v'.heap = (v.registries R').containsId v.heap := by
    funext k
    rw [Registry.containsId, Registry.containsId, htv.get (htv.image.nodes R')]
  -- the rebuilt nodes outside the node set are dropped
  have hkept : Twins φ ψ (HistoryGraph.withoutOthers ser nodes' v)
      (HistoryGraph.withoutOthers (ser.map φ ψ) nodes' v')
      (((HistoryGraph.keptNodes ser nodes').values : Multiset Ref) + H) (R' ::ₘ G) := by
    rw [← Slots.values_retain_add nodes' fun k => k ∈ ser.nodes, add_assoc] at htv
    exact htv.dropAll
  have hall : (HistoryGraph.keptNodes ser nodes').values.all
        (((HistoryGraph.withoutOthers (ser.map φ ψ) nodes' v').registries R').contains
          (HistoryGraph.withoutOthers (ser.map φ ψ) nodes' v').heap) =
      (HistoryGraph.keptNodes ser nodes').values.all
        (((HistoryGraph.withoutOthers ser nodes' v).registries R').contains
          (HistoryGraph.withoutOthers ser nodes' v).heap) := by
    rw [Bool.eq_iff_iff, List.all_eq_true, List.all_eq_true]
    refine forall₂_congr fun r hr => ?_
    have halive := hkept.left.heap.alive_of_held (Multiset.mem_add.mpr (Or.inl hr))
    rw [Registry.contains, Registry.contains, hkept.getId_registry R' (Or.inl halive)]
  refine (alike_assertThat rfl).bind fun _ _ _ => ?_
  refine (alike_assertThat (by simp only [hids, SerializedHistoryGraph.map])).bind fun _ _ _ => ?_
  refine (alike_assertThat hall).bind fun _ _ _ => ?_
  have hnew := hkept.graphNew (K := K) (Multiset.mem_cons_self R' G)
  exact Alike.pure ⟨hnew.graph, hnew.twins_registry⟩

/-- **`from_serialized`** returns the same node. -/
theorem fromSerialized (ser : SerializedRelRc N E) :
    Alike (fun a b => b.1 = a.1 ∧ Twins φ ψ a.2 b.2 (a.1 ::ₘ H) G) (w.fromSerialized A K ser)
      (w'.fromSerialized B K (ser.map φ ψ)) := by
  refine (ht.graphFromSerialized ser.ancestorsGraph).bind ?_
  rintro ⟨v, g⟩ ⟨v', g'⟩ ⟨hgraph, htv⟩
  simp only at hgraph htv ⊢
  subst hgraph
  refine Alike.bind (R := fun r r' => r ∈ g'.refs ∧ r' = r)
    (alike_expect_eq _ fun r hr => ⟨Slots.mem_values.mpr ⟨ser.id, hr⟩, rfl⟩) ?_
  rintro _ r ⟨hr, rfl⟩
  refine Alike.pure ⟨rfl, Twins.graphDrop ?_⟩
  rw [Multiset.add_cons]
  exact htv.clone (htv.left.heap.alive_of_held (Multiset.mem_add.mpr (Or.inl hr)))

end Twins

end Relrc
