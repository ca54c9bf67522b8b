import Relrc.Codec.Objects
import Relrc.Detached.Records

/-!
# Decoded objects keep their identity

The hash of an object is its identity outside of memory: a detached object is a map from hashes to
records, and attaching compares hashes. `Copies` have the hashes of their originals
(`Copies.hashId_eq`), whatever the hash function, and the worklist of `ancestors_upto` runs in
lockstep on them (`Copies.worklist`). So they are detached alike from every set of hashes, even
where the hash has collisions.

Objects that were written with `RelRc::to_serialized` and read with `RelRc::from_serialized` are
copies. Programs that exchange objects through files can therefore also exchange what is missing of
them as detached objects.
-/

namespace Relrc

open Std (ExtTreeMap)
open Ancestry OrderedMap SlotStore

variable {N E H : Type}

namespace Copies

variable {h h' : Heap N E} {held held' : Multiset Ref} {S : Ref → Prop} {f : Ref → Ref}

section Hashes

variable [Inhabited H] {hash : N → List (H × E) → H}

/-- A copy has the edges of the original, if the parents' hashes agree. -/
theorem edgeHashes_eq (hc : Copies h h' S f) {r : Ref} (hr : S r)
    (hhash : ∀ p ∈ h.allParents r, h'.hashId hash (f p) = h.hashId hash p) :
    h'.edgeHashes hash (f r) = h.edgeHashes hash r := by
  have hedges := congrArg (List.map fun pe : Ref × E => (h'.hashId hash pe.1, pe.2))
    (hc.incoming r hr)
  rw [List.map_map, List.map_map] at hedges
  refine hedges.trans (List.map_congr_left fun e he => ?_)
  exact congrArg (·, e.value) (hhash e.source (List.mem_map_of_mem he))

/-- **Copies have the hashes of their originals.** -/
theorem hashId_eq (hc : Copies h h' S f) (hi : HeapInv h held) (hi' : HeapInv h' held')
    (hlive : ∀ r, S r → h.Alive r) (hclosed : ∀ r, S r → ∀ p ∈ h.allParents r, S p) {r : Ref}
    (hr : S r) : h'.hashId hash (f r) = h.hashId hash r := by
  induction r using Nat.strong_induction_on with
  | _ r ih =>
    obtain ⟨v, hv⟩ := hi.exists_value (hlive r hr)
    have hv' : h'.value (f r) = some v := (hc.value r hr).trans hv
    rw [hi.hashId_eq hv, hi'.hashId_eq hv']
    refine congrArg (hash v) (hc.edgeHashes_eq hr fun p hp => ?_)
    exact ih p (hi.parent_lt r p hp) (hclosed r hr p hp)

end Hashes

section Worklist

variable [LinearOrder H]

/-- The map `m'` holds the copies of what `m` holds. -/
structure Mapped (S : Ref → Prop) (f : Ref → Ref) (m m' : ExtTreeMap H Ref) : Prop where
  get : ∀ k : H, m'[k]? = (m[k]? : Option Ref).map f
  mem : ∀ (k : H) (x : Ref), m[k]? = some x → S x

theorem Mapped.mem_iff {m m' : ExtTreeMap H Ref} (hm : Mapped S f m m') {k : H} :
    k ∈ m' ↔ k ∈ m := by
  rw [mem_iff_exists, mem_iff_exists, hm.get]
  simp [Option.map_eq_some_iff]

/-- A node and its copy are recorded under the same hash. -/
theorem Mapped.insert {m m' : ExtTreeMap H Ref} (hm : Mapped S f m m') (k : H) {x : Ref}
    (hx : S x) : Mapped S f (m.insert k x) (m'.insert k (f x)) := by
  refine ⟨fun k' => ?_, fun k' y hy => ?_⟩
  · rw [ExtTreeMap.getElem?_insert, ExtTreeMap.getElem?_insert, hm.get]
    split_ifs <;> rfl
  · rw [ExtTreeMap.getElem?_insert] at hy
    split_ifs at hy
    · exact Option.some.inj hy ▸ hx
    · exact hm.mem k' y hy

variable [Inhabited H] {hash : N → List (H × E) → H} {cut : Finset H}

/-- **The worklist runs in lockstep on copies.** -/
theorem worklist (hc : Copies h h' S f)
    (hhash : ∀ r, S r → h'.hashId hash (f r) = h.hashId hash r)
    (hclosed : ∀ r, S r → ∀ p ∈ h.allParents r, S p) {n n' : ℕ} {stack : List Ref}
    {m m' all all' : ExtTreeMap H Ref} (hstack : ∀ x ∈ stack, S x) (hm : Mapped S f m m')
    (hres : ancestorsUptoAux hash h cut n stack m = some all)
    (hres' : ancestorsUptoAux hash h' cut n' (stack.map f) m' = some all') :
    Mapped S f all all' := by
  induction n generalizing n' stack m m' with
  | zero =>
    cases stack with
    | nil =>
      rw [List.map_nil] at hres'
      simp only [ancestorsUptoAux, Option.some.injEq] at hres hres'
      rwa [← hres, ← hres']
    | cons node stack => cases hres
  | succ n ih =>
    cases stack with
    | nil =>
      rw [List.map_nil] at hres'
      simp only [ancestorsUptoAux, Option.some.injEq] at hres hres'
      rwa [← hres, ← hres']
    | cons node stack =>
      obtain ⟨hnode, hstack⟩ := List.forall_mem_cons.mp hstack
      cases n' with
      | zero => cases hres'
      | succ n' =>
        rw [List.map_cons] at hres'
        simp only [ancestorsUptoAux, hhash node hnode, hm.mem_iff] at hres hres'
        split_ifs at hres hres'
        · rw [hc.allParents_eq hnode, ← List.map_reverse, ← List.map_append] at hres'
          refine ih (fun x hx => ?_) (hm.insert _ hnode) hres hres'
          rcases List.mem_append.mp hx with hx | hx
          · exact hclosed node hnode x (List.mem_reverse.mp hx)
          · exact hstack x hx
        · exact ih hstack hm hres hres'

/-- **Copies are detached alike** from every set of hashes. -/
theorem detach_eq (hc : Copies h h' S f) (hi : HeapInv h held) (hi' : HeapInv h' held')
    (hlive : ∀ r, S r → h.Alive r) (hclosed : ∀ r, S r → ∀ p ∈ h.allParents r, S p) {r : Ref}
    (hr : S r) : h'.detach hash cut (f r) = h.detach hash cut r := by
  have hhash : ∀ x, S x → h'.hashId hash (f x) = h.hashId hash x := fun x hx =>
    hc.hashId_eq hi hi' hlive hclosed hx
  have hlive' : h'.Alive (f r) := by
    refine hi'.alive_of_data fun hnone => hi.data_ne_none (hlive r hr) ?_
    rw [← Heap.value_eq_none_iff] at hnone ⊢
    rw [← hc.value r hr, hnone]
  obtain ⟨d, hd, -⟩ := hi.detach_records hash (hlive r hr) cut
  obtain ⟨d', hd', -⟩ := hi'.detach_records hash hlive' cut
  obtain ⟨all, hall, rfl⟩ := Option.map_eq_some_iff.mp hd
  obtain ⟨all', hall', rfl⟩ := Option.map_eq_some_iff.mp hd'
  have hempty : Mapped S f (∅ : ExtTreeMap H Ref) ∅ :=
    ⟨fun k => by simp, fun k x hk => by simp at hk⟩
  have hstack : ∀ x ∈ [r], S x := fun x hx => List.mem_singleton.mp hx ▸ hr
  have hm := hc.worklist hhash hclosed hstack hempty hall hall'
  rw [hd, hd', hhash r hr]
  refine congrArg (fun m => some (Detached.mk (h.hashId hash r) m)) ?_
  refine ExtTreeMap.ext_getElem? fun k => Option.ext fun data => ?_
  rw [getElem?_record, getElem?_record]
  -- the records of a copy and of its original have the same value and the same hashes of parents
  have hrecord : ∀ x, S x → (h'.value (f x) = some data.value ∧
      data.incoming = h'.edgeHashes hash (f x) ↔
      h.value x = some data.value ∧ data.incoming = h.edgeHashes hash x) := fun x hx => by
    rw [hc.value x hx, hc.edgeHashes_eq hx fun p hp => hhash p (hclosed x hx p hp)]
  simp only [hm.get, Option.map_eq_some_iff]
  constructor
  · rintro ⟨_, ⟨x, hx, rfl⟩, hdata⟩
    exact ⟨x, hx, (hrecord x (hm.mem k x hx)).mp hdata⟩
  · rintro ⟨x, hx, hdata⟩
    exact ⟨f x, ⟨x, hx, rfl⟩, (hrecord x (hm.mem k x hx)).mpr hdata⟩

end Worklist

end Copies

/-! ### Objects in files -/

variable [LinearOrder H] [Inhabited H] {A B : AddrSource} {K L : KeySource}
variable {P : State N E → Op N E → Prop} {s₀ s₁ s t : State N E}

/-- **Files keep the identity of objects.** An object that one program writes with `to_serialized`,
against a registry that it only uses for this, and that another program reads with
`from_serialized`, has the same hash in both, for every hash function, and is detached alike from
every set of hashes. -/
theorem decoded_identity_of_run (h₀ : Run A K (Respects fun _ => False) State.init s₀)
    (hnew : exec A K s₀ .registryNew = .ok s₁) (h : Run A K (Serializing s₀.world.nregs) s₁ s)
    {n : Ref} (hen : Op.Enabled s (.toSerialized n s₀.world.nregs))
    (ht : Run B L P State.init t) :
    ∃ ser w' r t', s.world.toSerialized K n s₀.world.nregs = .ok (ser, w') ∧
      t.world.fromSerialized B L ser = .ok (r, t') ∧
      ∀ hash : N → List (H × E) → H, t'.heap.hashId hash r = s.world.heap.hashId hash n ∧
        ∀ cut, t'.heap.detach hash cut r = s.world.heap.detach hash cut n := by
  have hi₁ : s₁.Inv := Run.inv (P := fun _ _ => True) (Relation.ReflTransGen.single
    ⟨.registryNew, trivial, trivial, hnew⟩) (Run.inv h₀ State.inv_init)
  have hi : Inv s.world s.held s.regs := Run.inv h hi₁
  have hit : Inv t.world t.held t.regs := Run.inv ht State.inv_init
  have hs : Serving s.world s₀.world.nregs :=
    Run.serving h hi₁ (serving_registryNew h₀ hnew)
  obtain ⟨ser, w', hres, hser⟩ := hs.toSerialized_ok (K := K) hi (hi.mem_of_regAlive hen.2) hen.1
  obtain ⟨r, t', hdec, f, hcopies, rfl, -⟩ := hser.copies B L t.world _ _ hit
  have hsteps : Steps B L (fun _ => True) ⟨t.world, t.held, t.regs⟩ ⟨t', f n ::ₘ t.held, t.regs⟩ :=
    steps_fromSerialized hit hdec fun _ _ => trivial
  have hit' := Steps.inv hsteps hit
  have hlive : ∀ x, Reaches s.world.heap.allParents n x → s.world.heap.Alive x := fun x hx =>
    hi.heap.alive_of_reaches hen.1 hx
  have hclosed : ∀ x, Reaches s.world.heap.allParents n x →
      ∀ p ∈ s.world.heap.allParents x, Reaches s.world.heap.allParents n p := fun x hx p hp =>
    hx.tail hp
  refine ⟨ser, w', f n, t', hres, hdec, fun hash => ⟨?_, fun cut => ?_⟩⟩
  · exact hcopies.hashId_eq hi.heap hit'.heap hlive hclosed (Reaches.refl n)
  · exact hcopies.detach_eq hi.heap hit'.heap hlive hclosed (Reaches.refl n)

/-- A node that has its parent twice, whose registry has been used before, is read into an empty
memory. -/
theorem decoded_identity_of_run_servingTwice : ∃ ser w' r t',
    servingTwice.world.toSerialized KeySource.reusing 1 0 = .ok (ser, w') ∧
      (World.empty : World ℕ ℕ).fromSerialized AddrSource.lowest KeySource.reusing ser =
        .ok (r, t') ∧
      ∀ hash : ℕ → List (ℕ × ℕ) → ℕ, t'.heap.hashId hash r = servingTwice.world.heap.hashId hash 1 ∧
        ∀ cut, t'.heap.detach hash cut r = servingTwice.world.heap.detach hash cut 1 := by
  have hrun : Run AddrSource.lowest KeySource.reusing (Serializing 0)
      (State.init.after [.registryNew]) servingTwice := by
    refine run_after (by decide) fun op hop s => ?_
    simp only [List.mem_cons, List.not_mem_nil, or_false] at hop
    rcases hop with rfl | rfl | rfl | rfl
    · exact Or.inr fun a ha => ha
    · exact Or.inr fun a ha => ha
    · exact Or.inr fun a ha => ha
    · exact Or.inl ⟨0, rfl⟩
  exact decoded_identity_of_run (n := 1) (t := State.init) (P := fun _ _ => True)
    Relation.ReflTransGen.refl rfl hrun (by decide) Relation.ReflTransGen.refl

end Relrc
