import Relrc.Lib.Lockstep
import Relrc.Codec.Encode
import Relrc.Model.Allocation

/-!
# Memory up to addresses and values

The library is generic in the values of nodes and edges, and addresses are only ever compared. So a
program that is run with other values, and with an allocator that chooses other addresses, does the
same: one memory stays the `Image` of the other.

`World.Image φ ψ w w'` says that `w'` is `w` with `φ` applied to node values and `ψ` to edge values,
whatever the addresses. A map from addresses to ids is not compared: in memories that satisfy the
invariant it is determined by the entries (`Twins.getId`), because a node in use shares its address
with no other. The two memories of a pair of programs, each with its invariant, are `Twins`.
-/

namespace Relrc

open SlotStore Ancestry Lockstep

variable {N E M F : Type} {φ : N → M} {ψ : E → F}

/-! ### Nodes with other values -/

/-- Apply a function to the value of an edge. -/
def InnerEdgeData.map (ψ : E → F) (e : InnerEdgeData E) : InnerEdgeData F :=
  ⟨ψ e.value, e.source, e.target⟩

/-- Apply functions to the value of a node and to those of its incoming edges. -/
def InnerData.map (φ : N → M) (ψ : E → F) (d : InnerData N E) : InnerData M F :=
  ⟨φ d.value, d.incoming.map (InnerEdgeData.map ψ), d.outgoing, d.registry⟩

/-- The heap `h'` is `h` with other values, and perhaps at other addresses. -/
structure Heap.Image (φ : N → M) (ψ : E → F) (h : Heap N E) (h' : Heap M F) : Prop where
  size : h'.size = h.size
  strong : h'.strong = h.strong
  data : ∀ r, h'.data r = (h.data r).map (InnerData.map φ ψ)

namespace Heap.Image

variable {h : Heap N E} {h' : Heap M F} (hh : Heap.Image φ ψ h h')

include hh

/-! What is read of a node. -/

/-- The same nodes are live. -/
theorem alive_iff (r : Ref) : h'.Alive r ↔ h.Alive r := by
  rw [Heap.Alive, Heap.Alive, hh.strong]

theorem value (r : Ref) : h'.value r = (h.value r).map φ := by
  rw [Heap.value, Heap.value, hh.data, Option.map_map, Option.map_map]
  rfl

/-- Edges have the same ends, and their values are mapped. -/
theorem allIncoming (r : Ref) : h'.allIncoming r = (h.allIncoming r).map (InnerEdgeData.map ψ) := by
  rw [Heap.allIncoming, Heap.allIncoming, hh.data]
  cases h.data r <;> rfl

theorem allOutgoingWeak (r : Ref) : h'.allOutgoingWeak r = h.allOutgoingWeak r := by
  rw [Heap.allOutgoingWeak, Heap.allOutgoingWeak, hh.data]
  cases h.data r <;> rfl

theorem slot (r : Ref) : h'.slot r = h.slot r := by
  rw [Heap.slot, Heap.slot, hh.data]
  cases h.data r <;> rfl

theorem allParents : h'.allParents = h.allParents := by
  funext r
  rw [Heap.allParents, Heap.allParents, hh.allIncoming, List.map_map]
  rfl

theorem nIncoming (r : Ref) : h'.nIncoming r = h.nIncoming r := by
  rw [Heap.nIncoming, Heap.nIncoming, hh.allIncoming, List.length_map]

theorem incoming (r : Ref) (i : ℕ) :
    h'.incoming r i = (h.incoming r i).map (InnerEdgeData.map ψ) := by
  rw [Heap.incoming, Heap.incoming, hh.allIncoming, List.getElem?_map]

theorem upgrade : h'.upgrade = h.upgrade := by
  funext r
  simp only [Heap.upgrade, hh.alive_iff]

theorem upgradeEdge : h'.upgradeEdge = h.upgradeEdge := by
  funext e
  simp only [Heap.upgradeEdge, hh.upgrade]

/-! What is written to a node. -/

/-- A change that does not look at values. -/
theorem modify {k : InnerData N E → InnerData N E} {k' : InnerData M F → InnerData M F}
    (r : Ref) (hk : ∀ d, k' (d.map φ ψ) = (k d).map φ ψ) :
    Heap.Image φ ψ (h.modify r k) (h'.modify r k') := by
  refine ⟨hh.size, hh.strong, fun x => ?_⟩
  rw [Heap.data_modify, Heap.data_modify, hh.data]
  split_ifs
  · rw [Option.map_map, Option.map_map]
    exact congrArg (fun t => Option.map t (h.data x)) (funext hk)
  · rfl

theorem modifyOutgoing (r : Ref) (k : List WeakEdge → List WeakEdge) :
    Heap.Image φ ψ (h.modifyOutgoing r k) (h'.modifyOutgoing r k) := hh.modify r fun _ => rfl

theorem setSlot (r : Ref) (R : Option RegRef) :
    Heap.Image φ ψ (h.setSlot r R) (h'.setSlot r R) := hh.modify r fun _ => rfl

theorem incStrong (r : Ref) : Heap.Image φ ψ (h.incStrong r) (h'.incStrong r) := by
  refine ⟨hh.size, ?_, hh.data⟩
  rw [Heap.incStrong, Heap.incStrong, hh.strong]

theorem incStrongAll (rs : List Ref) : Heap.Image φ ψ (h.incStrongAll rs) (h'.incStrongAll rs) := by
  induction rs generalizing h h' with
  | nil => exact hh
  | cons r rs ih => exact ih (hh.incStrong r)

theorem decStrong (r : Ref) : Heap.Image φ ψ (h.decStrong r) (h'.decStrong r) := by
  refine ⟨?_, ?_, fun x => ?_⟩
  · rw [Heap.size_decStrong, Heap.size_decStrong, hh.size]
  · simp only [Heap.decStrong, hh.strong]
    split_ifs <;> rfl
  · rw [Heap.data_decStrong, Heap.data_decStrong, hh.data, hh.strong]
    split_ifs <;> rfl

/-- A node is allocated in both heaps, at any addresses. -/
theorem alloc (a a' : Addr) (d : InnerData N E) :
    Heap.Image φ ψ (h.alloc a d) (h'.alloc a' (d.map φ ψ)) := by
  refine ⟨congrArg Nat.succ hh.size, ?_, fun x => ?_⟩
  · rw [Heap.strong_alloc, Heap.strong_alloc, hh.strong, hh.size]
  · rw [Heap.data_alloc, Heap.data_alloc, hh.size, hh.data]
    split_ifs <;> rfl

theorem registerOutgoingEdges (incoming : List (InnerEdgeData E)) :
    Heap.Image φ ψ (h.registerOutgoingEdges incoming)
      (h'.registerOutgoingEdges (incoming.map (InnerEdgeData.map ψ))) := by
  rw [Heap.registerOutgoingEdges, Heap.registerOutgoingEdges, List.zipIdx_map, List.foldl_map]
  exact List.foldl_rel hh fun ei _ c c' hc => hc.modifyOutgoing ei.1.source _

/-- A node is created with the same parents. -/
theorem withParents (a a' : Addr) (v : N) (ps : List (Ref × E)) :
    Heap.Image φ ψ (h.withParents a v ps) (h'.withParents a' (φ v) (ps.map (Prod.map id ψ))) := by
  have hedges : Heap.edgesOf h'.size (ps.map (Prod.map id ψ)) =
      (Heap.edgesOf h.size ps).map (InnerEdgeData.map ψ) := by
    rw [Heap.edgesOf, Heap.edgesOf, List.map_map, List.map_map, hh.size]
    rfl
  rw [Heap.withParents, Heap.withParents, hedges]
  exact (hh.alloc a a' _).registerOutgoingEdges _

theorem allOutgoing_fst (r : Ref) : (h'.allOutgoing r).1 = (h.allOutgoing r).1 := by
  simp only [Heap.allOutgoing, hh.allOutgoingWeak, hh.upgradeEdge]

theorem allOutgoing_snd (r : Ref) : Heap.Image φ ψ (h.allOutgoing r).2 (h'.allOutgoing r).2 := by
  simp only [Heap.allOutgoing, hh.allOutgoingWeak, hh.upgradeEdge]
  exact (hh.modifyOutgoing r _).incStrongAll _

end Heap.Image

/-! ### Memories with other values -/

/-- The memory `w'` is `w` with other values, and perhaps at other addresses. -/
structure World.Image (φ : N → M) (ψ : E → F) (w : World N E) (w' : World M F) : Prop where
  heap : Heap.Image φ ψ w.heap w'.heap
  nodes : ∀ R, (w'.registries R).nodes = (w.registries R).nodes
  regStrong : w'.regStrong = w.regStrong
  nregs : w'.nregs = w.nregs
  weaks : w'.weaks = w.weaks

namespace World.Image

variable {w : World N E} {w' : World M F} (hw : World.Image φ ψ w w')

include hw

theorem regAlive_iff (R : RegRef) : w'.RegAlive R ↔ w.RegAlive R := by
  rw [World.RegAlive, World.RegAlive, hw.regStrong]

/-- The same nodes are in use. -/
theorem inUse_iff (r : Ref) : w'.InUse r ↔ w.InUse r := by
  have hrefs : w'.weakRefs = w.weakRefs := by
    have htargets : ∀ c, (w'.heap.allIncoming c).map InnerEdgeData.target =
        (w.heap.allIncoming c).map InnerEdgeData.target := by
      intro c
      rw [hw.heap.allIncoming, List.map_map]
      rfl
    simp only [World.weakRefs, hw.weaks, hw.heap.size, htargets, hw.heap.allOutgoingWeak, hw.nregs,
      hw.nodes]
  rw [World.InUse, World.InUse, hw.heap.alive_iff, hrefs]

theorem withHeap {h : Heap N E} {h' : Heap M F} (hh : Heap.Image φ ψ h h') :
    World.Image φ ψ (w.withHeap h) (w'.withHeap h') :=
  ⟨hh, hw.nodes, hw.regStrong, hw.nregs, hw.weaks⟩

theorem withParents (A B : AddrSource) (v : N) (ps : List (Ref × E)) :
    World.Image φ ψ (w.withParents A v ps)
      (w'.withParents B (φ v) (ps.map (Prod.map id ψ))) :=
  hw.withHeap (hw.heap.withParents _ _ v ps)

theorem clone (r : Ref) : World.Image φ ψ (w.clone r) (w'.clone r) :=
  hw.withHeap (hw.heap.incStrong r)

theorem setWeaks (ws : List Ref) :
    World.Image φ ψ { w with weaks := ws } { w' with weaks := ws } :=
  ⟨hw.heap, hw.nodes, hw.regStrong, hw.nregs, rfl⟩

/-- A registry is replaced by one with the same entries. -/
theorem setRegistry (R : RegRef) {reg reg' : Registry} (hreg : reg'.nodes = reg.nodes) :
    World.Image φ ψ (w.setRegistry R reg) (w'.setRegistry R reg') := by
  refine ⟨hw.heap, fun R' => ?_, hw.regStrong, hw.nregs, hw.weaks⟩
  by_cases hR : R' = R
  · subst hR
    rw [World.registries_setRegistry_self, World.registries_setRegistry_self, hreg]
  · rw [World.registries_setRegistry_of_ne _ _ _ hR, World.registries_setRegistry_of_ne _ _ _ hR,
      hw.nodes]

theorem allocRegistry {reg reg' : Registry} (hreg : reg'.nodes = reg.nodes) :
    World.Image φ ψ (w.allocRegistry reg) (w'.allocRegistry reg') := by
  have hset := hw.setRegistry w.nregs hreg
  refine ⟨hw.heap, fun R => ?_, ?_, congrArg Nat.succ hw.nregs, hw.weaks⟩
  · rw [World.allocRegistry, World.allocRegistry, hw.nregs]
    exact hset.nodes R
  · rw [World.allocRegistry, World.allocRegistry, hw.nregs, hw.regStrong]

theorem cloneRegistry (R : RegRef) : World.Image φ ψ (w.cloneRegistry R) (w'.cloneRegistry R) := by
  refine ⟨hw.heap, hw.nodes, ?_, hw.nregs, hw.weaks⟩
  rw [World.cloneRegistry, World.cloneRegistry, hw.regStrong]

theorem dropRegistry (R : RegRef) : World.Image φ ψ (w.dropRegistry R) (w'.dropRegistry R) := by
  rw [World.dropRegistry, World.dropRegistry, hw.regStrong]
  split_ifs
  · have hset : World.Image φ ψ (w.setRegistry R Registry.new) (w'.setRegistry R Registry.new) :=
      hw.setRegistry R rfl
    exact ⟨hw.heap, hset.nodes, rfl, hw.nregs, hw.weaks⟩
  · exact ⟨hw.heap, hw.nodes, rfl, hw.nregs, hw.weaks⟩

theorem releases (r : Ref) : w'.releases r = w.releases r := by
  rw [World.releases, World.releases, hw.heap.strong, hw.heap.allParents]

end World.Image

/-! ### Two memories in step -/

/-- Two memories, each with its invariant, one the image of the other; the references held from
outside are the same. -/
structure Twins (φ : N → M) (ψ : E → F) (w : World N E) (w' : World M F) (H : Multiset Ref)
    (G : Multiset RegRef) : Prop where
  image : World.Image φ ψ w w'
  left : Inv w H G
  right : Inv w' H G

namespace Twins

variable {K : KeySource} {w : World N E} {w' : World M F} {H : Multiset Ref} {G : Multiset RegRef}
variable (ht : Twins φ ψ w w' H G)

include ht

/-! #### Registries -/

section Registries

variable {reg reg' : Registry} {r : Ref} (hreg : reg'.nodes = reg.nodes)

include hreg

/-- **Addresses do not matter**: a node in use is found under the same id. -/
theorem getId (hf : reg.Faithful w) (hf' : reg'.Faithful w') (hr : w.InUse r) :
    reg'.getId w'.heap r = reg.getId w.heap r := by
  refine Option.ext fun id => ?_
  rw [hf'.getId_eq_some_iff ht.right ((ht.image.inUse_iff r).mpr hr),
    hf.getId_eq_some_iff ht.left hr, hreg]

/-- An id resolves to the same node. -/
theorem get (id : NodeId) : reg'.get w'.heap id = reg.get w.heap id := by
  rw [Registry.get, Registry.get, hreg, ht.image.heap.upgrade]

/-- **A node gets the same id**, although the lookup is by address: addresses of nodes in use are
distinct in either memory. -/
theorem addNode (hf : reg.Faithful w) (hf' : reg'.Faithful w') (hr : w.InUse r) :
    (reg'.addNode K w'.heap r).1 = (reg.addNode K w.heap r).1 ∧
      (reg'.addNode K w'.heap r).2.nodes = (reg.addNode K w.heap r).2.nodes := by
  have hid := ht.getId hreg hf hf' hr
  rw [Registry.addNode, Registry.addNode, hid, hreg]
  cases reg.getId w.heap r with
  | some id => exact ⟨rfl, hreg⟩
  | none => exact ⟨rfl, rfl⟩

omit ht in
theorem nodes_remove (h : Heap N E) (h' : Heap M F) (id : NodeId) :
    (reg'.remove h' id).nodes = (reg.remove h id).nodes := by
  rw [Registry.remove, Registry.remove, hreg]
  cases reg.nodes.get id with
  | some r => rfl
  | none => exact hreg

theorem freeNodeIds : (reg'.freeNodeIds w'.heap).1 = (reg.freeNodeIds w.heap).1 ∧
    (reg'.freeNodeIds w'.heap).2.nodes = (reg.freeNodeIds w.heap).2.nodes := by
  have hdead : reg'.deadEntries w'.heap = reg.deadEntries w.heap := by
    rw [Registry.deadEntries, Registry.deadEntries, hreg, ht.image.heap.upgrade]
  simp only [Registry.freeNodeIds, hdead, hreg, and_self]

end Registries

/-- A registry of the two memories. -/
theorem getId_registry (R : RegRef) {r : Ref} (hr : w.InUse r) :
    (w'.registries R).getId w'.heap r = (w.registries R).getId w.heap r :=
  ht.getId (ht.image.nodes R) (ht.left.faithful R) (ht.right.faithful R) hr

theorem addNode_registry (R : RegRef) {r : Ref} (hr : w.heap.Alive r) :
    ((w'.registries R).addNode K w'.heap r).1 = ((w.registries R).addNode K w.heap r).1 ∧
      ((w'.registries R).addNode K w'.heap r).2.nodes =
        ((w.registries R).addNode K w.heap r).2.nodes :=
  ht.addNode (ht.image.nodes R) (ht.left.faithful R) (ht.right.faithful R) (Or.inl hr)

/-! #### Elementary steps -/

theorem clone {r : Ref} (hr : w.heap.Alive r) :
    Twins φ ψ (w.clone r) (w'.clone r) (r ::ₘ H) G :=
  ⟨ht.image.clone r, ht.left.clone hr, ht.right.clone ((ht.image.heap.alive_iff r).mpr hr)⟩

/-- The hook frees the same id. -/
theorem dropHook {r : Ref} (hr : w.heap.Alive r) :
    World.Image φ ψ (w.dropHook r) (w'.dropHook r) := by
  have hw := ht.image
  rw [World.dropHook, World.dropHook, hw.heap.strong, hw.heap.slot]
  split_ifs
  · exact hw
  · cases w.heap.slot r with
    | none => exact hw
    | some R =>
      have hset := hw.withHeap (hw.heap.setSlot r none)
      have hid : (w'.registries R).getId (w'.heap.setSlot r none) r =
          (w.registries R).getId (w.heap.setSlot r none) r := ht.getId_registry R (Or.inl hr)
      by_cases hR : w.RegAlive R
      · simp only [World.regAlive_withHeap, World.registries_withHeap, World.heap_withHeap, hR,
          (hw.regAlive_iff R).mpr hR, if_true, hid]
        cases (w.registries R).getId (w.heap.setSlot r none) r with
        | none => exact hset
        | some id => exact hset.setRegistry R (nodes_remove (hw.nodes R) _ _ id)
      · simp only [World.regAlive_withHeap, hR, mt (hw.regAlive_iff R).mp hR, if_false]
        exact hset

end Twins

theorem Twins.release {w : World N E} {w' : World M F} {H : Multiset Ref} {G : Multiset RegRef}
    {r : Ref} (ht : Twins φ ψ w w' (r ::ₘ H) G) :
    Twins φ ψ (w.release r) (w'.release r) (H + (w.releases r : Multiset Ref)) G := by
  have himage := ht.dropHook (ht.left.heap.alive_of_held (Multiset.mem_cons_self r H))
  refine ⟨himage.withHeap (himage.heap.decStrong r), ht.left.release, ?_⟩
  rw [← ht.image.releases]
  exact ht.right.release

/-! #### Dropping -/

section Dropping

variable {w : World N E} {w' : World M F} {H : Multiset Ref} {G : Multiset RegRef}

/-- A function that gives up one reference, over a list of references. -/
private theorem Twins.foldl {k : World N E → Ref → World N E} {k' : World M F → Ref → World M F}
    {ps : List Ref} (hstep : ∀ w w' H, ∀ p ∈ ps, Twins φ ψ w w' (p ::ₘ H) G →
      Twins φ ψ (k w p) (k' w' p) H G) (ht : Twins φ ψ w w' ((ps : Multiset Ref) + H) G) :
    Twins φ ψ (ps.foldl k w) (ps.foldl k' w') H G := by
  induction ps generalizing w w' with
  | nil => rwa [Multiset.coe_nil, zero_add] at ht
  | cons p ps ih =>
    rw [← Multiset.cons_coe, Multiset.cons_add] at ht
    refine ih (fun w w' H q hq => hstep w w' H q (List.mem_cons_of_mem _ hq)) ?_
    exact hstep w w' _ p List.mem_cons_self ht

/-- The cascades take the same course. -/
theorem Twins.dropAux (n : ℕ) {r : Ref} (ht : Twins φ ψ w w' (r ::ₘ H) G) (hr : r < n) :
    Twins φ ψ (World.dropAux n w r) (World.dropAux n w' r) H G := by
  induction n generalizing w w' r H with
  | zero => exact absurd hr (Nat.not_lt_zero _)
  | succ n ih =>
    -- parents are older, so the cascade stays within its bound
    have hlt : ∀ p ∈ w.releases r, p < n := by
      intro p hp
      rw [World.releases] at hp
      split_ifs at hp
      · exact Nat.lt_of_lt_of_le (ht.left.heap.parent_lt r p hp) (Nat.le_of_lt_succ hr)
      · exact absurd hp List.not_mem_nil
    rw [World.dropAux, World.dropAux, ht.image.releases]
    refine Twins.foldl (fun w w' H p hp htp => ih htp (hlt p hp)) ?_
    rw [add_comm]
    exact ht.release

theorem Twins.drop {r : Ref} (ht : Twins φ ψ w w' (r ::ₘ H) G) :
    Twins φ ψ (w.drop r) (w'.drop r) H G := ht.dropAux (r + 1) (Nat.lt_succ_self r)

theorem Twins.dropAll {rs : List Ref} (ht : Twins φ ψ w w' ((rs : Multiset Ref) + H) G) :
    Twins φ ψ (w.dropAll rs) (w'.dropAll rs) H G := Twins.foldl (fun _ _ _ _ _ htp => htp.drop) ht

end Dropping

namespace Twins

variable {A B : AddrSource} {K : KeySource} {w : World N E} {w' : World M F}
variable {H : Multiset Ref} {G : Multiset RegRef} (ht : Twins φ ψ w w' H G)

include ht

/-- Runs of both memories make twins of their images. -/
theorem of_steps {v : World N E} {v' : World M F} {H' : Multiset Ref} {G' : Multiset RegRef}
    (himage : World.Image φ ψ v v')
    (h : Steps A K (fun _ => True) ⟨w, H, G⟩ ⟨v, H', G'⟩)
    (h' : Steps B K (fun _ => True) ⟨w', H, G⟩ ⟨v', H', G'⟩) : Twins φ ψ v v' H' G' :=
  ⟨himage, Steps.inv h ht.left, Steps.inv h' ht.right⟩

/-! #### Cloning, outgoing edges, registration -/

theorem incStrongAll {rs : List Ref} (hrs : ∀ r ∈ rs, w.heap.Alive r) :
    Twins φ ψ (w.withHeap (w.heap.incStrongAll rs)) (w'.withHeap (w'.heap.incStrongAll rs))
      ((rs : Multiset Ref) + H) G :=
  ht.of_steps (A := AddrSource.lowest) (B := AddrSource.lowest) (K := KeySource.reusing)
    (ht.image.withHeap (ht.image.heap.incStrongAll rs)) (steps_incStrongAll hrs)
    (steps_incStrongAll fun r hr => (ht.image.heap.alive_iff r).mpr (hrs r hr))

omit ht in
/-- A node is created in both memories, over any allocators. -/
theorem withParents (A B : AddrSource) (v : N) (ps : List (Ref × E))
    (ht : Twins φ ψ w w' (((ps.map Prod.fst : List Ref) : Multiset Ref) + H) G) :
    Twins φ ψ (w.withParents A v ps) (w'.withParents B (φ v) (ps.map (Prod.map id ψ)))
      (w.heap.size ::ₘ H) G := by
  refine ⟨ht.image.withParents A B v ps, ht.left.withParents A v ps, ?_⟩
  have hfst : (ps.map (Prod.map id ψ)).map Prod.fst = ps.map Prod.fst := by
    rw [List.map_map]
    rfl
  have hright := ht.right
  rw [← hfst] at hright
  rw [← ht.image.heap.size]
  exact hright.withParents B (φ v) _

theorem allOutgoing_fst (r : Ref) : (w'.allOutgoing r).1 = (w.allOutgoing r).1 :=
  ht.image.heap.allOutgoing_fst r

theorem allOutgoing_snd (r : Ref) : Twins φ ψ (w.allOutgoing r).2 (w'.allOutgoing r).2
    ((((w.allOutgoing r).1.map Edge.target : List Ref) : Multiset Ref) + H) G := by
  refine ht.of_steps (A := AddrSource.lowest) (B := AddrSource.lowest) (K := KeySource.reusing)
    (ht.image.withHeap (ht.image.heap.allOutgoing_snd r)) (steps_allOutgoing r) ?_
  rw [← ht.allOutgoing_fst r]
  exact steps_allOutgoing r

theorem nOutgoing_snd (r : Ref) : Twins φ ψ (w.nOutgoing r).2 (w'.nOutgoing r).2 H G := by
  have hout := ht.allOutgoing_snd r
  rw [World.nOutgoing, World.nOutgoing, ht.allOutgoing_fst]
  exact hout.dropAll

/-- Registration returns the same id. -/
theorem tryRegisterIn {r : Ref} {R : RegRef} (hr : w.heap.Alive r) (hR : w.RegAlive R) :
    (w'.tryRegisterIn K r R).1 = (w.tryRegisterIn K r R).1 ∧
      Twins φ ψ (w.tryRegisterIn K r R).2 (w'.tryRegisterIn K r R).2 H G := by
  have hw := ht.image
  obtain ⟨hid, hnodes⟩ := ht.addNode_registry (K := K) R hr
  suffices h : (w'.tryRegisterIn K r R).1 = (w.tryRegisterIn K r R).1 ∧
      World.Image φ ψ (w.tryRegisterIn K r R).2 (w'.tryRegisterIn K r R).2 from
    ⟨h.1, h.2, ht.left.tryRegisterIn K hr hR, ht.right.tryRegisterIn K
      ((hw.heap.alive_iff r).mpr hr) ((hw.regAlive_iff R).mpr hR)⟩
  rcases w.tryRegisterIn_cases (K := K) r R with ⟨R₁, hs, hne, h⟩ | ⟨hs, h⟩ | ⟨hs, h⟩ <;>
    rcases w'.tryRegisterIn_cases (K := K) r R with ⟨R₂, hs', hne', h'⟩ | ⟨hs', h'⟩ | ⟨hs', h'⟩ <;>
    rw [hw.heap.slot, hs] at hs' <;> cases hs' <;> rw [h, h']
  · exact ⟨rfl, hw⟩
  · exact absurd rfl hne
  · exact absurd rfl hne'
  · exact ⟨congrArg some hid, hw.setRegistry R hnodes⟩
  · exact ⟨congrArg some hid, (hw.withHeap (hw.heap.setSlot r (some R))).setRegistry R hnodes⟩

end Twins

end Relrc
