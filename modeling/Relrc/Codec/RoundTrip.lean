import Relrc.Codec.Restore

/-!
# Encoding and decoding are inverse

Two directions. Decoding what the encoder wrote gives a copy of the DAG, provided the encoder saw
all ancestors (`Restored.copies`); encoding what the decoder built gives the file back
(`toSerialized_fromSerialized_of_run`).

Both go through `Encodes`: the entry of an id describes the original node with the ids of the
encoder's registry, and the rebuilt node with the ids of the decoder's map.
-/

namespace Relrc

open SlotStore Ancestry Fallible

variable {N E : Type} {A : AddrSource} {K : KeySource} {P : State N E → Op N E → Prop}
variable {w w' v : World N E} {H H' : Multiset Ref} {G G' : Multiset RegRef}

/-- `f` copies the nodes in `S` from one heap to the other: same values, same ordered list of
parents and edge values at every node, and different nodes have different copies. -/
structure Copies (h h' : Heap N E) (S : Ref → Prop) (f : Ref → Ref) : Prop where
  value : ∀ r, S r → h'.value (f r) = h.value r
  incoming : ∀ r, S r → (h'.allIncoming (f r)).map (fun e => (e.source, e.value)) =
    (h.allIncoming r).map fun e => (f e.source, e.value)
  inj : ∀ r s, S r → S s → f r = f s → r = s

namespace Copies

variable {h h' : Heap N E} {S : Ref → Prop} {f : Ref → Ref}

/-- The parents of a copy are the copies of the parents. -/
theorem allParents_eq (hc : Copies h h' S f) {r : Ref} (hr : S r) :
    h'.allParents (f r) = (h.allParents r).map f := by
  have hsources := congrArg (List.map Prod.fst) (hc.incoming r hr)
  simpa [Heap.allParents, Function.comp_def] using hsources

theorem mono {T : Ref → Prop} (hc : Copies h h' S f) (hT : ∀ r, T r → S r) : Copies h h' T f :=
  ⟨fun r hr => hc.value r (hT r hr), fun r hr => hc.incoming r (hT r hr),
    fun r s hr hs => hc.inj r s (hT r hr) (hT s hs)⟩

/-- The ancestors of a copy are the copies of the ancestors. -/
theorem reaches_iff (hc : Copies h h' S f) (hS : ∀ r, S r → ∀ p ∈ h.allParents r, S p) {n b : Ref}
    (hn : S n) : Reaches h'.allParents (f n) b ↔ ∃ a, Reaches h.allParents n a ∧ f a = b := by
  constructor
  · intro hb
    induction hb with
    | refl => exact ⟨n, Reaches.refl n, rfl⟩
    | tail _ hstep ih =>
      obtain ⟨a, hna, rfl⟩ := ih
      rw [hc.allParents_eq (Reaches.mem_of_closed hS hn hna), List.mem_map] at hstep
      obtain ⟨p, hp, rfl⟩ := hstep
      exact ⟨p, hna.tail hp, rfl⟩
  · rintro ⟨a, hna, rfl⟩
    induction hna with
    | refl => exact Reaches.refl (f n)
    | @tail a p hna hp ih =>
      refine ih.tail ?_
      rw [hc.allParents_eq (Reaches.mem_of_closed hS hn hna)]
      exact List.mem_map_of_mem hp

/-- Copies that stay alive stay copies. -/
theorem frame (hc : Copies h w.heap S f) (hf : Frame w w')
    (halive : ∀ r, S r → f r < w.heap.size ∧ w'.heap.Alive (f r)) : Copies h w'.heap S f where
  value r hr := (hf.value _ (halive r hr).1 (halive r hr).2).trans (hc.value r hr)
  incoming r hr := by
    rw [hf.allIncoming _ (halive r hr).1 (halive r hr).2]
    exact hc.incoming r hr
  inj := hc.inj

/-- Copies of nodes that have not changed are copies of what they were. -/
theorem of_frame (hc : Copies w'.heap h' S f) (hf : Frame w w')
    (halive : ∀ r, S r → r < w.heap.size ∧ w'.heap.Alive r) : Copies w.heap h' S f where
  value r hr := (hc.value r hr).trans (hf.value r (halive r hr).1 (halive r hr).2)
  incoming r hr := by
    rw [hc.incoming r hr, hf.allIncoming r (halive r hr).1 (halive r hr).2]
  inj := hc.inj

end Copies

namespace HistoryGraph

variable {g g' : HistoryGraph} {reg : Registry} {ser : SerializedHistoryGraph N E}
variable {nodes : Slots Ref}

/-- The nodes of the graph and all their ancestors. -/
def IsAncestor (g : HistoryGraph) (w : World N E) (a : Ref) : Prop :=
  ∃ n, g.Stores n ∧ Reaches w.heap.allParents n a

/-- Parents of ancestors are ancestors. -/
theorem IsAncestor.parent {a p : Ref} (ha : g.IsAncestor w a) (hp : p ∈ w.heap.allParents a) :
    g.IsAncestor w p := by
  obtain ⟨n, hn, hna⟩ := ha
  exact ⟨n, hn, hna.tail hp⟩

/-- The traversal has visited every ancestor. -/
def Complete (g : HistoryGraph) (w : World N E) : Prop :=
  ∀ a, g.IsAncestor w a → a ∈ g.visited w

/-- In a complete graph all ancestors are visited. -/
theorem mem_visited_iff (hi : Inv w H G) (hg : g.Registered w) (hfull : g.Complete w) {a : Ref} :
    a ∈ g.visited w ↔ g.IsAncestor w a := by
  refine ⟨fun ha => ?_, hfull a⟩
  obtain ⟨n, hn, han⟩ := mem_visited.mp ha
  exact ⟨n, hn, hi.reaches_of_mem_allAncestors (hg.alive hn) han⟩

/-- Every node of a graph is visited: it is listed first by its own `all_ancestors`. -/
theorem stores_mem_visited (hi : Inv w H G) (hg : g.Registered w) {n : Ref} (hn : g.Stores n) :
    n ∈ g.visited w := mem_visited.mpr ⟨n, hn, hi.self_mem_allAncestors (hg.alive hn)⟩

/-! ### What was written -/

namespace Written

/-- The parent ids that are written belong to visited nodes, so they are written too. -/
theorem wellFormed (hw : Written w g reg ser) (hi : Inv w H G) (hg : g.Registered w)
    (he : g.Encodable w) (hfull : g.Complete w) : ser.registry.WellFormed where
  closed k sd hk pe hpe := by
    obtain ⟨r, hr, -, henc⟩ := (hw.get_iff k sd).mp hk
    obtain ⟨p, hp, hpk⟩ := henc.exists_parent hpe
    refine (hw.mem_keys_iff hi he).mpr ⟨p, hfull p ?_, hpk⟩
    exact ((mem_visited_iff hi hg hfull).mp hr).parent hp
  acyclic := by
    -- parents are older than their children, and ids inherit the age of their nodes
    refine @acyclic_of_rank _ _ (fun k => (reg.nodes.get k).getD 0) fun k p hp => ?_
    obtain ⟨sd, hk, pe, hpe, rfl⟩ := SerializedRegistry.exists_of_mem_parentIds hp
    obtain ⟨r, -, hr, henc⟩ := (hw.get_iff k sd).mp hk
    obtain ⟨x, hx, hxk⟩ := henc.exists_parent hpe
    rw [hr, hxk]
    exact hi.heap.parent_lt r x hx

/-- Every visited node is in the file. -/
theorem exists_key (hw : Written w g reg ser) (hi : Inv w H G) (he : g.Encodable w) {a : Ref}
    (ha : a ∈ g.visited w) : ∃ k sd, reg.nodes.get k = some a ∧ ser.registry.nodes.get k = some sd ∧
      Encodes reg.nodes.get w.heap a sd := by
  obtain ⟨k, hk⟩ := (hw.has_iff a).mpr (Or.inr ha)
  obtain ⟨sd, hsd⟩ := (hw.mem_keys_iff hi he).mpr ⟨a, ha, hk⟩
  obtain ⟨r, -, hr, henc⟩ := (hw.get_iff k sd).mp hsd
  obtain rfl := Option.some.inj (hk.symm.trans hr)
  exact ⟨k, sd, hk, hsd, henc⟩

theorem mem_nodes_iff (hw : Written w g reg ser) {k : NodeId} :
    k ∈ ser.nodes ↔ ∃ n, g.nodes.get k = some n := by
  rw [hw.nodes, List.mem_toFinset]
  exact Slots.mem_keys

/-- The nodes of the graph are in the file. -/
theorem exists_of_mem_nodes (hw : Written w g reg ser) (hi : Inv w H G) (hg : g.Registered w)
    (he : g.Encodable w) {k : NodeId} (hk : k ∈ ser.nodes) :
    ∃ sd, ser.registry.nodes.get k = some sd := by
  obtain ⟨n, hn⟩ := hw.mem_nodes_iff.mp hk
  exact (hw.mem_keys_iff hi he).mpr
    ⟨n, stores_mem_visited hi hg ⟨k, hn⟩, hw.mono k n (hg k n hn).1⟩

end Written

/-! ### Decoding what was encoded -/

/-- **The restored graph is a copy of the graph that was written**, ancestors included, under the
same ids. -/
theorem Restored.copies (hr : Restored ser v w' g' nodes) (hi' : Inv w' H' G')
    (hw : Written w g reg ser) (hi : Inv w H G) (hg : g.Registered w) (he : g.Encodable w)
    (hfull : g.Complete w) : ∃ f, Copies w.heap w'.heap (g.IsAncestor w) f ∧
      (∀ k n, g.nodes.get k = some n → g'.nodes.get k = some (f n)) ∧
      ∀ k, (∃ n, g'.nodes.get k = some n) → ∃ n, g.nodes.get k = some n := by
  have hvis : ∀ a, a ∈ g.visited w ↔ g.IsAncestor w a := fun a => mem_visited_iff hi hg hfull
  -- the copy of a node is the one rebuilt under its id
  obtain ⟨f, hf⟩ : ∃ f : Ref → Ref, ∀ a k, g.IsAncestor w a → reg.nodes.get k = some a →
      nodes.get k = some (f a) := by
    refine ⟨fun a => ((reg.getId w.heap a).bind nodes.get).getD 0, fun a k ha hk => ?_⟩
    have hid : reg.getId w.heap a = some k := hw.faithful.inverse.ptr_of_node k a hk
    obtain ⟨r, hr'⟩ := (hr.rebuilt.mem_iff k).mpr
      ((hw.mem_keys_iff hi he).mpr ⟨a, (hvis a).mpr ha, hk⟩)
    simp only [hid, Option.bind_some, hr', Option.getD_some]
  have hstored : ∀ k n, g.nodes.get k = some n → g'.nodes.get k = some (f n) := by
    intro k n hn
    refine (hr.get_iff k (f n)).mpr ⟨hw.mem_nodes_iff.mpr ⟨n, hn⟩, ?_⟩
    exact hf n k ⟨n, ⟨k, hn⟩, Reaches.refl n⟩ (hw.mono k n (hg k n hn).1)
  -- copies are alive, by induction along parent links
  have halive : ∀ a, g.IsAncestor w a → w'.heap.Alive (f a) := by
    rintro a ⟨n, ⟨k, hn⟩, hna⟩
    induction hna with
    | refl => exact (hr.agrees k (f n) (hstored k n hn)).alive hi'
    | @tail b c hnb hc ih =>
      have hb : g.IsAncestor w b := ⟨n, ⟨k, hn⟩, hnb⟩
      obtain ⟨kb, sd, hkb, hsd, henc⟩ := hw.exists_key hi he ((hvis b).mpr hb)
      obtain ⟨pe, hpe, hpek⟩ := henc.parent_mem hc
      have henc' := hr.rebuilt.encodes kb (f b) sd (hf b kb hb hkb) hsd ih
      obtain ⟨p, hp, hpk⟩ := henc'.exists_parent hpe
      rw [hf c pe.1 (hb.parent hc) hpek] at hpk
      rw [Option.some.inj hpk]
      exact hi'.heap.parent_alive hp
  have hboth : ∀ a, g.IsAncestor w a → ∃ sd, Encodes reg.nodes.get w.heap a sd ∧
      Encodes nodes.get w'.heap (f a) sd := by
    intro a ha
    obtain ⟨k, sd, hk, hsd, henc⟩ := hw.exists_key hi he ((hvis a).mpr ha)
    exact ⟨sd, henc, hr.rebuilt.encodes k (f a) sd (hf a k ha hk) hsd (halive a ha)⟩
  refine ⟨f, ⟨fun a ha => ?_, fun a ha => ?_, fun a b ha hb hab => ?_⟩, hstored, fun k hk => ?_⟩
  · obtain ⟨sd, henc, henc'⟩ := hboth a ha
    exact henc'.1.trans henc.1.symm
  · obtain ⟨sd, henc, henc'⟩ := hboth a ha
    rw [← List.forall₂_eq_eq_eq, List.forall₂_map_left_iff, List.forall₂_map_right_iff]
    have hsource := (List.forall₂_and_left (p := fun e : InnerEdgeData E => g.IsAncestor w e.source)
      _ _).mpr ⟨fun e hmem => ha.parent (List.mem_map_of_mem hmem), henc.2⟩
    refine forall₂_of_forall₂ (fun e' e pe h' h => ?_) henc'.2 hsource
    have hcopy := hf e.source pe.1 h.1 h.2.1
    rw [h'.1] at hcopy
    exact Prod.ext (Option.some.inj hcopy) (h'.2.symm.trans h.2.2)
  · obtain ⟨k, -, hk, -⟩ := hw.exists_key hi he ((hvis a).mpr ha)
    obtain ⟨k', -, hk', -⟩ := hw.exists_key hi he ((hvis b).mpr hb)
    have hfa := hf a k ha hk
    rw [hab] at hfa
    rw [hr.rebuilt.inj k k' (f b) hfa (hf b k' hb hk'), hk'] at hk
    exact (Option.some.inj hk).symm
  · obtain ⟨n, hn⟩ := hk
    exact hw.mem_nodes_iff.mp ((hr.get_iff k n).mp hn).1

/-! ### Encoding what was decoded -/

/-- Encoding a graph that was restored with all nodes of the file gives the file back. -/
theorem Restored.toSerialized_eq (hr : Restored ser v w g nodes) (hi : Inv w H G)
    (hnodes : ∀ k, k ∈ ser.nodes ↔ ∃ sd, ser.registry.nodes.get k = some sd) :
    ∃ ser', g.toSerialized K w = .ok ser' ∧
      ser'.nodes = ser.nodes ∧ ∀ k, ser'.registry.nodes.get k = ser.registry.nodes.get k := by
  have hg : g.Registered w := hr.agrees.registered hi
  -- all rebuilt nodes are in the graph
  have hget : ∀ k r, g.nodes.get k = some r ↔ nodes.get k = some r := by
    intro k r
    rw [hr.get_iff, hnodes, ← hr.rebuilt.mem_iff]
    exact ⟨fun h => h.2, fun h => ⟨⟨r, h⟩, h⟩⟩
  have hencodes : ∀ k r, nodes.get k = some r →
      ∃ sd, ser.registry.nodes.get k = some sd ∧ Encodes nodes.get w.heap r sd := by
    intro k r hk
    obtain ⟨sd, hsd⟩ := (hr.rebuilt.mem_iff k).mp ⟨r, hk⟩
    exact ⟨sd, hsd, hr.rebuilt.encodes k r sd hk hsd (hg k r ((hget k r).mpr hk)).2⟩
  have hclosed : ∀ r, g.Stores r → ∀ p ∈ w.heap.allParents r, g.Stores p := by
    rintro r ⟨k, hk⟩ p hp
    obtain ⟨sd, -, henc⟩ := hencodes k r ((hget k r).mp hk)
    obtain ⟨pe, -, hpe⟩ := henc.parent_mem hp
    exact ⟨pe.1, (hget pe.1 p).mpr hpe⟩
  have hvis : ∀ r, r ∈ g.visited w ↔ g.Stores r := by
    refine fun r => ⟨fun hmem => ?_, stores_mem_visited hi hg⟩
    obtain ⟨n, hn, hnr⟩ := mem_visited.mp hmem
    exact Reaches.mem_of_closed hclosed hn (hi.reaches_of_mem_allAncestors (hg.alive hn) hnr)
  have hall : ∀ r, (w.registries g.registry).Has r ∨ r ∈ g.visited w → g.Stores r := by
    rintro r (hhas | hmem)
    · obtain ⟨k, hk⟩ := hr.has r hhas
      exact ⟨k, (hget k r).mpr hk⟩
    · exact (hvis r).mp hmem
  have he : g.Encodable w := fun r h =>
    ⟨hg.alive (hall r h), fun p hp => Or.inr ((hvis p).mpr (hclosed r (hall r h) p hp))⟩
  obtain ⟨ser', hser'⟩ := (toSerialized_ok_iff (K := K) hi hg).mpr he
  obtain ⟨reg, hw⟩ := written_of_toSerialized hi hg hser'
  have hreg : ∀ k r, reg.nodes.get k = some r ↔ nodes.get k = some r := by
    have hmono : ∀ k r, nodes.get k = some r → reg.nodes.get k = some r := fun k r hk =>
      hw.mono k r (hg k r ((hget k r).mpr hk)).1
    refine fun k r => ⟨fun hk => ?_, hmono k r⟩
    obtain ⟨k', hk'⟩ := hall r ((hw.has_iff r).mp ⟨k, hk⟩)
    have hk'' := (hget k' r).mp hk'
    rwa [hw.faithful.inverse.id_eq hk (hmono k' r hk'')]
  have hregeq : reg.nodes.get = nodes.get := funext fun k => Option.ext fun r => hreg k r
  refine ⟨ser', hser', ?_, fun k => Option.ext fun sd => ?_⟩
  · ext k
    rw [hw.mem_nodes_iff, hnodes, ← hr.rebuilt.mem_iff]
    exact exists_congr fun r => hget k r
  · rw [hw.get_iff, hregeq]
    constructor
    · rintro ⟨r, -, hk, henc⟩
      obtain ⟨sd', hsd', henc'⟩ := hencodes k r hk
      rw [hsd', henc.unique henc' hr.rebuilt.inj]
    · intro hk
      obtain ⟨r, hrk⟩ := (hr.rebuilt.mem_iff k).mpr ⟨sd, hk⟩
      obtain ⟨sd', hsd', henc'⟩ := hencodes k r hrk
      obtain rfl := Option.some.inj (hk.symm.trans hsd')
      exact ⟨r, (hvis r).mpr ⟨k, (hget k r).mpr hrk⟩, hrk, henc'⟩

end HistoryGraph

variable {s : State N E}

/-- **Encode undoes decode** on files that list all their nodes, wherever they are decoded. -/
theorem toSerialized_fromSerialized_of_run (h : Run A K P State.init s)
    {ser : SerializedHistoryGraph N E} (hwf : ser.registry.WellFormed)
    (hnodes : ∀ k, k ∈ ser.nodes ↔ ∃ sd, ser.registry.nodes.get k = some sd) :
    ∃ w g, HistoryGraph.fromSerialized A K s.world ser = .ok (w, g) ∧
      ∃ ser', g.toSerialized K w = .ok ser' ∧ ser'.nodes = ser.nodes ∧
        ∀ k, ser'.registry.nodes.get k = ser.registry.nodes.get k := by
  have hi := Run.inv h State.inv_init
  obtain ⟨w, g, nodes, hdec, hr, -⟩ := HistoryGraph.fromSerialized_ok (A := A) (K := K) hwf
    (fun k hk => (hnodes k).mp hk) hi
  obtain ⟨hsteps, -⟩ : Steps A K (fun _ => True) _ _ ∧ _ :=
    steps_graphFromSerialized hi hdec fun _ _ => trivial
  exact ⟨w, g, hdec, hr.toSerialized_eq (Steps.inv hsteps hi) hnodes⟩

/-- A file with two ids in slots of different versions, the second a child of the first along two
edges. -/
def twoEdgeFile : SerializedHistoryGraph ℕ ℕ where
  nodes := {⟨2, 7⟩, ⟨5, 3⟩}
  registry := ⟨.ofSlots ((Slots.empty.setSlot 2 (some (7, ⟨10, []⟩))).setSlot 5
    (some (3, ⟨20, [(⟨2, 7⟩, 1), (⟨2, 7⟩, 2)]⟩)))⟩

theorem toSerialized_fromSerialized_of_run_twoEdgeFile :
    ∃ w g, HistoryGraph.fromSerialized AddrSource.lowest KeySource.reusing parallelEdges.world
      twoEdgeFile = .ok (w, g) ∧ ∃ ser', g.toSerialized KeySource.reusing w = .ok ser' ∧
        ser'.nodes = {⟨2, 7⟩, ⟨5, 3⟩} ∧
        ser'.registry.nodes.get ⟨5, 3⟩ = some ⟨20, [(⟨2, 7⟩, 1), (⟨2, 7⟩, 2)]⟩ := by
  have hrun : Run _ _ (fun _ _ => True) State.init parallelEdges :=
    run_after (by decide) fun _ _ _ => trivial
  have hentries : ∀ k sd, twoEdgeFile.registry.nodes.get k = some sd ↔
      k = ⟨2, 7⟩ ∧ sd = ⟨10, []⟩ ∨ k = ⟨5, 3⟩ ∧ sd = ⟨20, [(⟨2, 7⟩, 1), (⟨2, 7⟩, 2)]⟩ := by
    intro k sd
    have hlist : twoEdgeFile.registry.nodes.entries =
        [(⟨2, 7⟩, ⟨10, []⟩), (⟨5, 3⟩, ⟨20, [(⟨2, 7⟩, 1), (⟨2, 7⟩, 2)]⟩)] := rfl
    rw [← Slots.mem_entries, hlist]
    simp
  have hparent : ∀ k sd, twoEdgeFile.registry.nodes.get k = some sd → ∀ pe ∈ sd.incoming,
      k = ⟨5, 3⟩ ∧ pe.1 = ⟨2, 7⟩ := by
    intro k sd hk pe hpe
    rcases (hentries k sd).mp hk with ⟨-, rfl⟩ | ⟨rfl, rfl⟩
    · exact absurd hpe List.not_mem_nil
    · rcases List.mem_pair.mp hpe with rfl | rfl <;> exact ⟨rfl, rfl⟩
  have hwf : twoEdgeFile.registry.WellFormed := by
    refine ⟨fun k sd hk pe hpe => ⟨⟨10, []⟩, ?_⟩, @acyclic_of_rank _ _ Key.idx fun k p hp => ?_⟩
    · rw [(hparent k sd hk pe hpe).2]
      rfl
    · obtain ⟨sd, hk, pe, hpe, rfl⟩ := SerializedRegistry.exists_of_mem_parentIds hp
      rw [(hparent k sd hk pe hpe).1, (hparent k sd hk pe hpe).2]
      decide
  have hnodes : ∀ k, k ∈ twoEdgeFile.nodes ↔ ∃ sd, twoEdgeFile.registry.nodes.get k = some sd := by
    intro k
    simp only [hentries, exists_or, exists_and_left, exists_eq, and_true]
    simp [twoEdgeFile]
  obtain ⟨w, g, hdec, ser', hser, hn, hget⟩ := toSerialized_fromSerialized_of_run hrun hwf hnodes
  exact ⟨w, g, hdec, ser', hser, hn, by rw [hget]; rfl⟩

end Relrc
