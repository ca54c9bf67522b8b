import Relrc.Codec.DecodeRun
import Relrc.Codec.Encode

/-!
# What the decoder rebuilds

A registry is well-formed when every parent id is present and no id is its own ancestor.
`deserialize_nodes` succeeds exactly on these and collects one new node per id
(`deserializeNodes_cases`).

A call for an id takes its entry out before it turns to the parents, so an id can be in one of
three places: still to decode, decoded, or on the stack. The ids on the stack are descendants of
the one being decoded. So a call that meets an id without entry has found one that is absent from
the start, or a cycle through the stack (`Blocked`); and every call takes an entry out, which bounds
the recursion by the entries that are left (`node_cases`).
-/

namespace Relrc

open SlotStore Ancestry Fallible

variable {N E : Type} {A : AddrSource} {K : KeySource}
variable {w w' : World N E} {H : Multiset Ref} {G : Multiset RegRef}

namespace SerializedRegistry

/-- The parent ids recorded under an id. -/
def parentIds (ser : SerializedRegistry N E) (k : NodeId) : List NodeId :=
  match ser.nodes.get k with
  | some sd => sd.incoming.map Prod.fst
  | none => []

/-- Every parent id is present, and no id is its own ancestor. -/
structure WellFormed (ser : SerializedRegistry N E) : Prop where
  closed : ∀ k sd, ser.nodes.get k = some sd → ∀ pe ∈ sd.incoming,
    ∃ sp, ser.nodes.get pe.1 = some sp
  acyclic : Acyclic ser.parentIds

theorem mem_parentIds {ser : SerializedRegistry N E} {k : NodeId} {sd : SerializedInnerData N E}
    (hk : ser.nodes.get k = some sd) {pe : NodeId × E} (hpe : pe ∈ sd.incoming) :
    pe.1 ∈ ser.parentIds k := by
  rw [parentIds, hk]
  exact List.mem_map_of_mem hpe

/-- A parent id is the id of an incoming edge. -/
theorem exists_of_mem_parentIds {ser : SerializedRegistry N E} {k p : NodeId}
    (hp : p ∈ ser.parentIds k) :
    ∃ sd, ser.nodes.get k = some sd ∧ ∃ pe ∈ sd.incoming, pe.1 = p := by
  rw [parentIds] at hp
  split at hp
  · rename_i sd hsd
    exact ⟨sd, hsd, List.mem_map.mp hp⟩
  · exact absurd hp List.not_mem_nil

/-- Ancestors of present ids are present. -/
theorem WellFormed.exists_of_reaches {ser : SerializedRegistry N E} (hwf : ser.WellFormed)
    {k a : NodeId} (hk : ∃ sd, ser.nodes.get k = some sd) (ha : Reaches ser.parentIds k a) :
    ∃ sd, ser.nodes.get a = some sd := by
  refine Reaches.mem_of_closed (S := fun a => ∃ sd, ser.nodes.get a = some sd) ?_ hk ha
  intro x _ p hp
  obtain ⟨sd, hsd, pe, hpe, rfl⟩ := exists_of_mem_parentIds hp
  exact hwf.closed x sd hsd pe hpe

end SerializedRegistry

namespace Decoding

variable {ser : SerializedRegistry N E} {d d' d'' : Decoding N E} {v : World N E}

/-- The id is decoded or still to decode. -/
def Covered (d : Decoding N E) (k : NodeId) : Prop :=
  (∃ sd, d.serialised.get k = some sd) ∨ ∃ r, d.nodes.get k = some r

/-- What holds when decoding `ser` in memory `v` has come to `d`: collected nodes are new, and
are what the entry of their id encodes. -/
structure Sound (A : AddrSource) (K : KeySource) (ser : SerializedRegistry N E) (v : World N E)
    (H : Multiset Ref) (G : Multiset RegRef) (d : Decoding N E) : Prop where
  run : DecodeRun A K (fun _ => False) ⟨v, ser.nodes, Slots.empty⟩ d H G
  remaining : ∀ k sd, d.serialised.get k = some sd → ser.nodes.get k = some sd
  disjoint : ∀ k r, d.nodes.get k = some r → d.serialised.get k = none
  fresh : ∀ k r, d.nodes.get k = some r → v.heap.size ≤ r
  decoded : ∀ k r, d.nodes.get k = some r →
    ∃ sd, ser.nodes.get k = some sd ∧ Encodes d.nodes.get d.world.heap r sd

/-- Nothing has been decoded yet. -/
theorem refs_start (v : World N E) (m : SlotMap (SerializedInnerData N E)) :
    (⟨v, m, Slots.empty⟩ : Decoding N E).refs + H = H := by
  simp [Decoding.refs, Slots.values]

/-- What a decoding function may do to the two maps. -/
structure Advance (d d' : Decoding N E) : Prop where
  mono : ∀ k r, d.nodes.get k = some r → d'.nodes.get k = some r
  shrink : ∀ k sd, d'.serialised.get k = some sd → d.serialised.get k = some sd
  source : ∀ k r, d'.nodes.get k = some r →
    d.nodes.get k = some r ∨ ∃ sd, d.serialised.get k = some sd
  covered : ∀ k, d.Covered k → d'.Covered k

theorem Advance.refl (d : Decoding N E) : Advance d d :=
  ⟨fun _ _ h => h, fun _ _ h => h, fun _ _ h => Or.inl h, fun _ h => h⟩

theorem Advance.trans (h : Advance d d') (h' : Advance d' d'') : Advance d d'' where
  mono k r hr := h'.mono k r (h.mono k r hr)
  shrink k sd hsd := h.shrink k sd (h'.shrink k sd hsd)
  source k r hr := by
    rcases h'.source k r hr with hr | ⟨sd, hsd⟩
    · exact h.source k r hr
    · exact Or.inr ⟨sd, h.shrink k sd hsd⟩
  covered k hk := h'.covered k (h.covered k hk)

/-- Entries are taken out, never put back. -/
theorem Advance.len_le (h : Advance d d') : d'.serialised.len ≤ d.serialised.len :=
  Slots.len_le_of_get fun k sd => h.shrink k sd

/-! ### Creating a node -/

/-- Ids that are still to decode have free slots: decoded ids are ids of `ser`, and these have
slots of their own. -/
theorem Sound.vacant (hs : Sound A K ser v H G d) {k : NodeId} {sd : SerializedInnerData N E}
    (hk : ser.nodes.get k = some sd) (hnew : d.nodes.get k = none) : d.nodes.slot k.idx = none := by
  refine Slots.vacant_of_forall fun k' r hk' hidx => ?_
  obtain ⟨sd', hsd', -⟩ := hs.decoded k' r hk'
  rw [Slots.key_eq_of_idx_eq hsd' hk hidx, hnew] at hk'
  cases hk'

/-- Decoded nodes are held, so they are live. -/
theorem Sound.alive (hi : Inv d.world (d.refs + H) G) {k : NodeId} {r : Ref}
    (hr : d.nodes.get k = some r) : d.world.heap.Alive r :=
  hi.heap.alive_of_held (Multiset.mem_add.mpr (Or.inl (Slots.mem_values.mpr ⟨k, hr⟩)))

/-- The decoded parents of an entry. -/
theorem exists_parents {incoming : List (NodeId × E)}
    (h : ∀ pe ∈ incoming, ∃ r, d.nodes.get pe.1 = some r) :
    ∃ parents : List (Ref × E), (incoming.mapM fun pe => (do
      let parent ← expect Panic.validDfsOrder (d.nodes.get pe.1)
      pure (parent, pe.2) : Except Panic (Ref × E))) = .ok parents ∧
      List.Forall₂ (fun pe p => d.nodes.get pe.1 = some p.1 ∧ p.2 = pe.2) incoming parents := by
  obtain ⟨parents, hpar⟩ := exists_forall₂ (l := incoming)
    (R := fun pe (p : Ref × E) => d.nodes.get pe.1 = some p.1 ∧ p.2 = pe.2) fun pe hpe => by
      obtain ⟨r, hr⟩ := h pe hpe
      exact ⟨(r, pe.2), hr, rfl⟩
  refine ⟨parents, mapM_eq_ok_iff.mpr (hpar.imp fun pe p hp => ?_), hpar⟩
  refine bind_eq_ok_iff.mpr ⟨p.1, expect_eq_ok_iff.mpr hp.1, ?_⟩
  rw [← hp.2]
  rfl

/-- A node with the decoded parents is what the entry encodes. -/
theorem encodes_withParents {node : NodeId → Option Ref} {h : Heap N E} {a : Addr}
    {sd : SerializedInnerData N E} {parents : List (Ref × E)}
    (hpar : List.Forall₂ (fun pe p => node pe.1 = some p.1 ∧ p.2 = pe.2) sd.incoming parents) :
    Encodes node (h.withParents a sd.value parents) h.size sd := by
  refine ⟨by rw [Heap.value_withParents, if_pos rfl], ?_⟩
  rw [Heap.allIncoming_withParents, if_pos rfl, Heap.edgesOf, List.forall₂_map_left_iff]
  exact hpar.flip.imp fun p pe hp => ⟨hp.1, hp.2.symm⟩

/-- A node whose parents have been decoded is created with them. -/
theorem create_ok (hi : Inv v H G) (hs : Sound A K ser v H G d) {k : NodeId}
    {sd : SerializedInnerData N E} (hk : ser.nodes.get k = some sd)
    (hser : d.serialised.get k = none) (hnew : d.nodes.get k = none)
    (hparents : ∀ pe ∈ sd.incoming, ∃ r, d.nodes.get pe.1 = some r) :
    ∃ d', d.create A k sd = .ok d' ∧ Sound A K ser v H G d' ∧ d'.serialised = d.serialised ∧
      ∀ k', d'.nodes.get k' = if k' = k then some d.world.heap.size else d.nodes.get k' := by
  have hid : Inv d.world (d.refs + H) G := Steps.inv hs.run.steps (by rwa [refs_start])
  obtain ⟨parents, hmap, hpar⟩ := exists_parents hparents
  have hvacant := hs.vacant hk hnew
  set w1 := d.world.withHeap (d.world.heap.incStrongAll (parents.map Prod.fst)) with hw1
  have hsize : w1.heap.size = d.world.heap.size := by
    rw [hw1, World.heap_withHeap, Heap.incStrongAll_eq]
  obtain ⟨d', hd'⟩ : ∃ d', d' = ({ d with
      world := w1.withParents A sd.value parents
      nodes := d.nodes.insert k w1.heap.size } : Decoding N E) := ⟨_, rfl⟩
  have hcreate : d.create A k sd = .ok d' := by
    refine bind_eq_ok_iff.mpr ⟨parents, hmap, pure_eq_ok_iff.mpr ?_⟩
    rw [hd']
    simp only [Slots.evicted_of_vacant hvacant, Option.toList_none]
    rfl
  have hget : ∀ k', d'.nodes.get k' =
      if k' = k then some d.world.heap.size else d.nodes.get k' := by
    intro k'
    rw [hd', ← hsize]
    exact Slots.get_insert_of_vacant hvacant _ k'
  -- `k` is new, so no decoded node is displaced
  have hmono : ∀ k' r, d.nodes.get k' = some r → d'.nodes.get k' = some r := by
    intro k' r hr
    rw [hget, if_neg, hr]
    rintro rfl
    rw [hnew] at hr
    cases hr
  have hstep : DecodeRun A K (fun _ => False) d d' H G := steps_create hid hs.run.nodup hcreate
  have hserialised : d'.serialised = d.serialised := by rw [hd']
  refine ⟨d', hcreate, ⟨⟨hs.run.steps.trans hstep.steps, hstep.nodup⟩, ?_, ?_, ?_, ?_⟩,
    hserialised, hget⟩
  · rw [hserialised]
    exact hs.remaining
  · intro k' r hr
    rw [hserialised]
    rw [hget] at hr
    split_ifs at hr with hkk
    · rw [hkk, hser]
    · exact hs.disjoint k' r hr
  · intro k' r hr
    rw [hget] at hr
    split_ifs at hr with hkk
    · rw [← Option.some.inj hr]
      exact (Steps.frame hs.run.steps (by rwa [refs_start])).size_le
    · exact hs.fresh k' r hr
  · intro k' r hr
    rw [hget] at hr
    split_ifs at hr with hkk
    · obtain rfl := Option.some.inj hr
      refine ⟨sd, by rw [hkk, hk], ?_⟩
      have hpar' : List.Forall₂ (fun pe p => d'.nodes.get pe.1 = some p.1 ∧ p.2 = pe.2) sd.incoming
          parents := hpar.imp fun pe p hp => ⟨hmono pe.1 p.1 hp.1, hp.2⟩
      have hworld : d'.world = w1.withParents A sd.value parents := by rw [hd']
      rw [hworld, ← hsize]
      exact encodes_withParents hpar'
    · -- an older node has kept its edges, and so have their ids
      obtain ⟨sd', hsd', henc⟩ := hs.decoded k' r hr
      exact ⟨sd', hsd', (henc.frame (Steps.frame hstep.steps hid)
        (hid.heap.alive_lt r (Sound.alive hid hr))
        (Sound.alive (Steps.inv hstep.steps hid) (hmono k' r hr))).mono fun pe _ p hp =>
          hmono pe.1 p hp⟩

/-! ### The recursion -/

/-- Taking an entry out of the map of remaining ones. -/
theorem Sound.remove (hs : Sound A K ser v H G d) (k : NodeId) :
    Sound A K ser v H G { d with serialised := d.serialised.remove k } where
  run := ⟨hs.run.steps, hs.run.nodup⟩
  remaining k' sd h := by
    simp only [SlotMap.get_remove] at h
    split_ifs at h
    exact hs.remaining k' sd h
  disjoint k' r h := by
    simp only [SlotMap.get_remove]
    split_ifs
    · rfl
    · exact hs.disjoint k' r h
  fresh := hs.fresh
  decoded := hs.decoded

/-- Taking out an entry leaves the others covered. -/
theorem covered_remove {k k' : NodeId} (hne : k' ≠ k) (h : d.Covered k') :
    ({ d with serialised := d.serialised.remove k } : Decoding N E).Covered k' := by
  rcases h with ⟨sd, hsd⟩ | h
  · exact Or.inl ⟨sd, by rw [SlotMap.get_remove, if_neg hne, hsd]⟩
  · exact Or.inr h

/-- An id that is taken out and created again, after some of the others, has been decoded. -/
theorem Advance.create {k : NodeId} {sd : SerializedInnerData N E} {x : Ref}
    (hk : d.serialised.get k = some sd)
    (hadv : Advance { d with serialised := d.serialised.remove k } d')
    (hnew : d'.nodes.get k = none) (hser : d''.serialised = d'.serialised)
    (hget : ∀ k', d''.nodes.get k' = if k' = k then some x else d'.nodes.get k') :
    Advance d d'' := by
  have hmono : ∀ k' r, d'.nodes.get k' = some r → d''.nodes.get k' = some r := by
    intro k' r hr
    rw [hget, if_neg, hr]
    rintro rfl
    rw [hnew] at hr
    cases hr
  refine ⟨fun k' r hr => hmono k' r (hadv.mono k' r hr), fun k' y hy => ?_, fun k' r hr => ?_,
    fun k' hk' => ?_⟩
  · rw [hser] at hy
    have hy' := hadv.shrink k' y hy
    rw [SlotMap.get_remove] at hy'
    split_ifs at hy'
    exact hy'
  · rw [hget] at hr
    split_ifs at hr with hkk
    · exact Or.inr ⟨sd, by rw [hkk, hk]⟩
    · rcases hadv.source k' r hr with hr | ⟨y, hy⟩
      · exact Or.inl hr
      · rw [SlotMap.get_remove, if_neg hkk] at hy
        exact Or.inr ⟨y, hy⟩
  · by_cases hkk : k' = k
    · exact Or.inr ⟨x, by rw [hget, if_pos hkk]⟩
    · rcases hadv.covered k' (covered_remove hkk hk') with ⟨y, hy⟩ | ⟨r, hr⟩
      · exact Or.inl ⟨y, by rw [hser, hy]⟩
      · exact Or.inr ⟨r, hmono k' r hr⟩

/-- The call that was made in `d` to decode `k` has done so. -/
def Succeeds (A : AddrSource) (K : KeySource) (ser : SerializedRegistry N E) (v : World N E)
    (H : Multiset Ref) (G : Multiset RegRef) (d : Decoding N E) (k : NodeId)
    (res : Except Panic (Decoding N E)) : Prop :=
  ∃ d', res = .ok d' ∧ Sound A K ser v H G d' ∧ Advance d d' ∧ ∃ r, d'.nodes.get k = some r

/-- Why a call for `k` fails: there is an id above it that is on the stack or nowhere, or one that
is its own ancestor. -/
def Blocked (ser : SerializedRegistry N E) (d : Decoding N E) (k : NodeId) : Prop :=
  ∃ a, Reaches ser.parentIds k a ∧
    (¬ d.Covered a ∨ Relation.TransGen (fun x y => y ∈ ser.parentIds x) a a)

/-- What blocks later has blocked before. -/
theorem Blocked.of_advance {k : NodeId} (h : Blocked ser d' k) (hadv : Advance d d') :
    Blocked ser d k := by
  obtain ⟨a, ha, hwhy⟩ := h
  exact ⟨a, ha, hwhy.imp_left fun hcov hd => hcov (hadv.covered a hd)⟩

/-- The loop over the parents decodes those that are missing, or fails at one that is blocked. -/
theorem parents_cases {n : ℕ} (hcall : ∀ {x : Decoding N E}, Sound A K ser v H G x →
      x.serialised.len < n → ∀ {k}, x.nodes.get k = none →
      Succeeds A K ser v H G x k (node A n x k) ∨
        node A n x k = .error .invalidNodeId ∧ Blocked ser x k)
    {incoming : List (NodeId × E)} (hs : Sound A K ser v H G d) (hlen : d.serialised.len < n) :
    (∃ d', incoming.foldlM (fun (d : Decoding N E) (pe : NodeId × E) =>
        if d.nodes.contains pe.1 then pure d else node A n d pe.1) d = .ok d' ∧
      Sound A K ser v H G d' ∧ Advance d d' ∧ ∀ pe ∈ incoming, ∃ r, d'.nodes.get pe.1 = some r) ∨
    incoming.foldlM (fun (d : Decoding N E) (pe : NodeId × E) =>
        if d.nodes.contains pe.1 then pure d else node A n d pe.1) d = .error .invalidNodeId ∧
      ∃ pe ∈ incoming, Blocked ser d pe.1 := by
  induction incoming generalizing d with
  | nil => exact Or.inl ⟨d, rfl, hs, Advance.refl d, fun _ h => absurd h List.not_mem_nil⟩
  | cons pe incoming ih =>
    -- a parent that is decoded needs nothing; for the others there is a call
    have hfirst : Succeeds A K ser v H G d pe.1
        (if d.nodes.contains pe.1 then pure d else node A n d pe.1) ∨
        (if d.nodes.contains pe.1 then pure d else node A n d pe.1) = .error .invalidNodeId ∧
          Blocked ser d pe.1 := by
      by_cases hc : d.nodes.contains pe.1 = true
      · exact Or.inl ⟨d, by rw [if_pos hc]; rfl, hs, Advance.refl d, Slots.contains_iff.mp hc⟩
      · rw [if_neg hc]
        refine hcall hs hlen (Option.eq_none_iff_forall_ne_some.mpr fun r hr => ?_)
        exact hc (Slots.contains_iff.mpr ⟨r, hr⟩)
    rcases hfirst with ⟨x, hx, hsx, hadv, r, hr⟩ | ⟨hfail, hblocked⟩
    · rcases ih hsx (lt_of_le_of_lt hadv.len_le hlen) with
        ⟨d', hd', hs', hadv', hdone⟩ | ⟨hfail, q, hq, hblocked⟩
      · refine Or.inl ⟨d', bind_eq_ok_iff.mpr ⟨x, hx, hd'⟩, hs', hadv.trans hadv', fun q hq => ?_⟩
        rcases List.mem_cons.mp hq with rfl | hq
        · exact ⟨r, hadv'.mono _ _ hr⟩
        · exact hdone q hq
      · exact Or.inr ⟨(bind_of_ok hx).trans hfail, q, List.mem_cons_of_mem _ hq,
          hblocked.of_advance hadv⟩
    · exact Or.inr ⟨bind_of_error hfail, pe, List.mem_cons_self, hblocked⟩

/-- With fuel for all entries that are left, decoding one id succeeds, or panics because the id is
blocked. The recursion never runs out of fuel. -/
theorem node_cases (hi : Inv v H G) (n : ℕ) (hs : Sound A K ser v H G d)
    (hlen : d.serialised.len < n) {k : NodeId} (hnew : d.nodes.get k = none) :
    Succeeds A K ser v H G d k (node A n d k) ∨
      node A n d k = .error .invalidNodeId ∧ Blocked ser d k := by
  induction n generalizing d k with
  | zero => exact absurd hlen (Nat.not_lt_zero _)
  | succ n ih =>
    rcases hk : d.serialised.get k with _ | sd
    · -- neither decoded nor still to decode
      refine Or.inr ⟨by rw [node, hk]; rfl, k, Reaches.refl k, Or.inl ?_⟩
      rintro (⟨sd, hsd⟩ | ⟨r, hr⟩)
      · rw [hk] at hsd
        cases hsd
      · rw [hnew] at hr
        cases hr
    have hksd := hs.remaining k sd hk
    set d1 : Decoding N E := { d with serialised := d.serialised.remove k } with hd1
    have hlen1 : d1.serialised.len < n := by
      have hone : d.serialised.len = d1.serialised.len + 1 := Slots.len_erase hk
      omega
    have hnode : node A (n + 1) d k = (sd.incoming.foldlM (fun (d : Decoding N E) pe =>
        if d.nodes.contains pe.1 then pure d else node A n d pe.1) d1 >>= fun d =>
          d.create A k sd) := by
      rw [node, hk]
      rfl
    rw [hnode]
    rcases parents_cases ih (hs.remove k) hlen1 with
      ⟨d2, hloop, hs2, hadv2, hdone⟩ | ⟨hfail, pe, hpe, a, ha, hwhy⟩
    · have hk1 : ∀ x, d1.serialised.get k ≠ some x := by
        rw [hd1, SlotMap.get_remove, if_pos rfl]
        exact fun x h => (by cases h)
      have hk2 : d2.serialised.get k = none :=
        Option.eq_none_iff_forall_ne_some.mpr fun x hx => hk1 x (hadv2.shrink k x hx)
      have hnew2 : d2.nodes.get k = none := by
        refine Option.eq_none_iff_forall_ne_some.mpr fun r hr => ?_
        rcases hadv2.source k r hr with hr | ⟨x, hx⟩
        · have hnone : d.nodes.get k = some r := hr
          rw [hnew] at hnone
          cases hnone
        · exact hk1 x hx
      obtain ⟨d3, hcreate, hs3, hser3, hget3⟩ := create_ok hi hs2 hksd hk2 hnew2 hdone
      exact Or.inl ⟨d3, bind_eq_ok_iff.mpr ⟨d2, hloop, hcreate⟩, hs3,
        hadv2.create hk hnew2 hser3 hget3, _, by rw [hget3, if_pos rfl]⟩
    · -- the id itself is no longer covered; if that is what was missing, it is its own ancestor
      refine Or.inr ⟨bind_of_error hfail, ?_⟩
      have hp := SerializedRegistry.mem_parentIds hksd hpe
      by_cases hak : a = k
      · exact ⟨k, Reaches.refl k, Or.inr (Relation.TransGen.head' hp (hak ▸ ha))⟩
      · exact ⟨a, ha.head hp, hwhy.imp_left fun hcov hd => hcov (covered_remove hak hd)⟩

/-- Where everything present is covered, a blocked id shows that the input is not well-formed. -/
theorem Blocked.not_wellFormed {k : NodeId} (h : Blocked ser d k)
    (hk : ∃ sd, ser.nodes.get k = some sd)
    (hcov : ∀ k sd, ser.nodes.get k = some sd → d.Covered k) : ¬ ser.WellFormed := by
  intro hwf
  obtain ⟨a, ha, hmissing | hcycle⟩ := h
  · obtain ⟨sd, hsd⟩ := hwf.exists_of_reaches hk ha
    exact hmissing (hcov a sd hsd)
  · exact hwf.acyclic a hcycle

/-- The outer loop decodes everything, or fails on an input that is not well-formed. -/
theorem loop_cases (hi : Inv v H G) (n : ℕ) (hs : Sound A K ser v H G d)
    (hlen : d.serialised.len < n) (hcov : ∀ k sd, ser.nodes.get k = some sd → d.Covered k) :
    (∃ d', loop A n d = .ok d' ∧ Sound A K ser v H G d' ∧
      ∀ k sd, ser.nodes.get k = some sd → ∃ r, d'.nodes.get k = some r) ∨
    loop A n d = .error .invalidNodeId ∧ ¬ ser.WellFormed := by
  induction n generalizing d with
  | zero => exact absurd hlen (Nat.not_lt_zero _)
  | succ n ih =>
    rw [loop]
    split
    · rename_i hkeys
      refine Or.inl ⟨d, rfl, hs, fun k sd hk => (hcov k sd hk).resolve_left ?_⟩
      rintro ⟨x, hx⟩
      have hmem := Slots.mem_keys.mpr ⟨x, hx⟩
      rw [hkeys] at hmem
      exact List.not_mem_nil hmem
    · rename_i k rest hkeys
      obtain ⟨sd, hk⟩ : ∃ sd, d.serialised.get k = some sd := by
        refine Slots.mem_keys.mp ?_
        rw [hkeys]
        exact List.mem_cons_self
      -- what is left to decode has not been decoded
      have hnew : d.nodes.get k = none := by
        refine Option.eq_none_iff_forall_ne_some.mpr fun r hr => ?_
        rw [hs.disjoint k r hr] at hk
        cases hk
      rcases node_cases hi (d.serialised.len + 1) hs (Nat.lt_succ_self _) hnew with
        ⟨d1, hnode, hs1, hadv, r, hr⟩ | ⟨hfail, hblocked⟩
      · -- at least the entry of `k` is gone
        have hlen1 : d1.serialised.len < d.serialised.len :=
          Slots.len_lt_of_get (fun k sd => hadv.shrink k sd) hk (hs1.disjoint k r hr)
        rw [hnode]
        exact ih hs1 (by omega) fun k sd hk => hadv.covered k (hcov k sd hk)
      · refine Or.inr ⟨bind_of_error hfail, ?_⟩
        exact hblocked.not_wellFormed ⟨sd, hs.remaining k sd hk⟩ hcov

/-- What has been decoded completely is well-formed: parents are older than their children. -/
theorem Sound.wellFormed (hs : Sound A K ser v H G d) (hi : Inv v H G)
    (hall : ∀ k sd, ser.nodes.get k = some sd → ∃ r, d.nodes.get k = some r) : ser.WellFormed := by
  have hid : Inv d.world (d.refs + H) G := Steps.inv hs.run.steps (by rwa [refs_start])
  have hdecoded : ∀ k sd, ser.nodes.get k = some sd →
      ∃ r, d.nodes.get k = some r ∧ Encodes d.nodes.get d.world.heap r sd := by
    intro k sd hk
    obtain ⟨r, hr⟩ := hall k sd hk
    obtain ⟨sd', hsd', henc⟩ := hs.decoded k r hr
    obtain rfl := Option.some.inj (hk.symm.trans hsd')
    exact ⟨r, hr, henc⟩
  -- a node is younger than its parents
  have hrank : ∀ k p, p ∈ ser.parentIds k → (d.nodes.get p).getD 0 < (d.nodes.get k).getD 0 := by
    intro k p hp
    obtain ⟨sd, hk, pe, hpe, rfl⟩ := SerializedRegistry.exists_of_mem_parentIds hp
    obtain ⟨r, hr, henc⟩ := hdecoded k sd hk
    obtain ⟨p, hmem, hp⟩ := henc.exists_parent hpe
    simp only [hr, hp, Option.getD_some]
    exact hid.heap.parent_lt r p hmem
  refine ⟨fun k sd hk pe hpe => ?_, acyclic_of_rank hrank⟩
  obtain ⟨r, -, henc⟩ := hdecoded k sd hk
  obtain ⟨p, -, hp⟩ := henc.exists_parent hpe
  obtain ⟨sp, hsp, -⟩ := hs.decoded pe.1 p hp
  exact ⟨sp, hsp⟩

end Decoding

/-- The nodes rebuilt from `ser`, one for every id. -/
structure Rebuilt (ser : SerializedRegistry N E) (v w : World N E) (nodes : Slots Ref) : Prop where
  inj : ∀ k k' r, nodes.get k = some r → nodes.get k' = some r → k = k'
  mem_iff : ∀ k, (∃ r, nodes.get k = some r) ↔ ∃ sd, ser.nodes.get k = some sd
  fresh : ∀ k r, nodes.get k = some r → v.heap.size ≤ r
  lt : ∀ k r, nodes.get k = some r → r < w.heap.size
  encodes : ∀ k r sd, nodes.get k = some r → ser.nodes.get k = some sd → w.heap.Alive r →
    Encodes nodes.get w.heap r sd

/-- **`deserialize_nodes` accepts exactly the well-formed registries** and rebuilds their nodes; on
all others it panics because an id has no entry. -/
theorem deserializeNodes_cases (ser : SerializedRegistry N E) (hi : Inv w H G) :
    (ser.WellFormed ∧ ∃ w' nodes, deserializeNodes A w ser.nodes = .ok (w', nodes) ∧
      Rebuilt ser w w' nodes) ∨
    ¬ ser.WellFormed ∧ deserializeNodes A w ser.nodes = .error .invalidNodeId := by
  have hstart : Decoding.Sound A KeySource.reusing ser w H G ⟨w, ser.nodes, Slots.empty⟩ :=
    ⟨⟨Relation.ReflTransGen.refl, List.nodup_nil⟩, fun _ _ h => h, fun _ _ h => (by cases h),
      fun _ _ h => (by cases h), fun _ _ h => (by cases h)⟩
  rcases Decoding.loop_cases hi (ser.nodes.len + 1) hstart (Nat.lt_succ_self _)
    fun k sd hk => Or.inl ⟨sd, hk⟩ with ⟨d, hloop, hs, hall⟩ | ⟨hfail, hwf⟩
  · refine Or.inl ⟨hs.wellFormed hi hall, d.world, d.nodes, bind_eq_ok_iff.mpr ⟨d, hloop, rfl⟩,
      fun k k' r hr hr' => ?_, fun k => ⟨fun ⟨r, hr⟩ => ?_, fun ⟨sd, hk⟩ => hall k sd hk⟩, hs.fresh,
      fun k r hr => ?_, fun k r sd hr hk _ => ?_⟩
    · have hmem := Slots.mem_entries.mpr hr
      have hmem' := Slots.mem_entries.mpr hr'
      exact (Prod.mk.inj (List.inj_on_of_nodup_map hs.run.nodup hmem hmem' rfl)).1
    · obtain ⟨sd, hsd, -⟩ := hs.decoded k r hr
      exact ⟨sd, hsd⟩
    · have hi' := Steps.inv hs.run.steps (by rwa [Decoding.refs_start])
      exact hi'.heap.alive_lt r (Decoding.Sound.alive hi' hr)
    · obtain ⟨sd', hsd', henc⟩ := hs.decoded k r hr
      obtain rfl := Option.some.inj (hk.symm.trans hsd')
      exact henc
  · exact Or.inr ⟨hwf, bind_of_error hfail⟩

end Relrc
