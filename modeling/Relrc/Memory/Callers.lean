import Relrc.Memory.Handles

/-!
# Callers and their memory

A `Caller` does to memory what a program does, and two things besides: `Rc::new` makes a node of any
value of type `InnerData`, and the drop of an `Rc<InnerData>` does not run the hook. All its other
operations are runs of elementary steps (`Caller.Good.effect`).

The invariant of memory holds in every state that a caller can reach, relative to the nodes that
were made of copies (`Caller.Run.good`). A program is a caller without values (`Caller.run_of_run`).
-/

namespace Relrc

open SlotStore Fallible

variable {N E : Type} {A : AddrSource} {K : KeySource} {ok : Access → Prop} {X : Exempt}

/-! ### Memory -/

section Memory

variable {w : World N E} {H : Multiset Ref} {G : Multiset RegRef}

theorem steps_gainWeaks (hi : Inv w H G X) {rs : List Ref} (hrs : ∀ r ∈ rs, w.InUse r) :
    Steps A K ok ⟨w, H, G⟩ ⟨w.gainWeaks rs, H, G⟩ := by
  refine Relation.ReflTransGen.single (.setWeaks w H G _ fun r hr => ?_)
  rcases List.mem_append.mp hr with hr | hr
  · exact hrs r hr
  · exact hi.inUse_of_weak hr

theorem steps_loseWeaks (hi : Inv w H G X) (rs : List Ref) :
    Steps A K ok ⟨w, H, G⟩ ⟨w.loseWeaks rs, H, G⟩ :=
  Relation.ReflTransGen.single (.setWeaks w H G _ fun _ hr =>
    hi.inUse_of_weak (List.diff_subset _ _ hr))

/-- A value becomes a node, and what it refers to is no longer outside of the heap. -/
theorem Inv.allocData (A : AddrSource) {d : InnerData N E}
    (hi : Inv w ((d.sources : Multiset Ref) + H) G X) (hin : ∀ r ∈ d.weakRefs, w.InUse r) :
    Inv (w.allocData A d) (w.heap.size ::ₘ H) G (X.wrap w.heap d) := by
  have hnew := Inv.alloc A hi
    (fun e he => hin _ (List.mem_append.mpr (Or.inl (List.mem_map_of_mem he))))
    fun e he => hin _ (List.mem_append.mpr (Or.inr (List.mem_map_of_mem he)))
  exact hnew.setWeaks fun _ hr => hnew.inUse_of_weak (List.diff_subset _ _ hr)

/-- Putting data behind an `Rc` changes no other node. -/
theorem World.frame_allocData (A : AddrSource) (w : World N E) (d : InnerData N E) :
    Frame w (w.allocData A d) := by
  have hne : ∀ r, r < w.heap.size → r ≠ w.heap.size := fun r hr => Nat.ne_of_lt hr
  refine ⟨Nat.le_succ _, le_rfl, fun r hr => ?_, fun r hr h => ?_, fun r hr _ => ?_,
    fun r hr _ => ?_, fun _ _ h => h⟩
  · simp [World.allocData, World.loseWeaks, Heap.alloc, hne r hr]
  · simpa [World.allocData, World.loseWeaks, Heap.Alive, Heap.strong_alloc, hne r hr] using h
  · simp [World.allocData, World.loseWeaks, Heap.value_alloc, hne r hr]
  · simp [World.allocData, World.loseWeaks, Heap.allIncoming_alloc, hne r hr]

theorem World.alive_allocData (A : AddrSource) (w : World N E) (d : InnerData N E) {r : Ref}
    (hr : w.heap.Alive r) : (w.allocData A d).heap.Alive r := by
  rw [World.allocData, World.loseWeaks, World.heap_withHeap, Heap.Alive, Heap.strong_alloc]
  by_cases hrs : r = w.heap.size
  · simp [hrs]
  · rw [Function.update_of_ne hrs]
    exact hr

/-- A reference is given up and the hook does not run. -/
theorem World.frame_decStrong (w : World N E) (r : Ref) :
    Frame w (w.withHeap (w.heap.decStrong r)) := by
  have hlive : ∀ x, (w.heap.decStrong r).Alive x → ¬ (x = r ∧ w.heap.strong r ≤ 1) := by
    rintro x hx ⟨rfl, hs⟩
    rw [Heap.Alive, Heap.decStrong_of_le hs] at hx
    simp at hx
  have hdata : ∀ x, (w.heap.decStrong r).Alive x → (w.heap.decStrong r).data x = w.heap.data x :=
    fun x hx => by rw [Heap.data_decStrong, if_neg (hlive x hx)]
  refine ⟨(Heap.size_decStrong _ _).ge, le_rfl, fun x _ => congrFun (Heap.addr_decStrong _ _) x,
    fun x _ hx => lt_of_lt_of_le hx (Heap.strong_decStrong_le _ _ _), fun x _ hx => ?_,
    fun x _ hx => ?_, fun _ _ h => h⟩
  · rw [World.heap_withHeap, Heap.value, hdata x hx, Heap.value]
  · rw [World.heap_withHeap, Heap.allIncoming, hdata x hx, Heap.allIncoming]

/-- The cells of nodes that stay alive are left alone. -/
theorem World.slot_decStrong (w : World N E) {r x : Ref} (hx : (w.heap.decStrong r).Alive x) :
    (w.heap.decStrong r).slot x = w.heap.slot x := by
  have hlive : ¬ (x = r ∧ w.heap.strong r ≤ 1) := by
    rintro ⟨rfl, hs⟩
    rw [Heap.Alive, Heap.decStrong_of_le hs] at hx
    simp at hx
  rw [Heap.slot, Heap.data_decStrong, if_neg hlive, Heap.slot]

end Memory

/-! ### Steps that leave registries alone -/

/-- No entry is written, no cell of a node that stays alive, and what lives on is as it was. -/
structure Unregistering (w w' : World N E) : Prop where
  frame : Frame w w'
  registries : w'.registries = w.registries
  slot : ∀ r, r < w.heap.size → w'.heap.Alive r → w'.heap.slot r = w.heap.slot r

/-- Putting data behind an `Rc` touches no registry, and no cell but the one in the data. -/
theorem World.unregistering_allocData (A : AddrSource) (w : World N E) (d : InnerData N E) :
    Unregistering w (w.allocData A d) := by
  refine ⟨w.frame_allocData A d, rfl, fun r hr _ => ?_⟩
  simp [World.allocData, World.loseWeaks, Heap.slot_alloc, Nat.ne_of_lt hr]

/-- Nor does the drop of an `Rc` without the hook. -/
theorem World.unregistering_decStrong (w : World N E) (r : Ref) :
    Unregistering w (w.withHeap (w.heap.decStrong r)) :=
  ⟨w.frame_decStrong r, rfl, fun _ _ hx => w.slot_decStrong hx⟩

namespace Unregistering

variable {w w' : World N E} {H : Multiset Ref} {G : Multiset RegRef} {R : RegRef}

theorem forgotten (h : Unregistering w w') {id : NodeId} {r : Ref} (hf : Forgotten w R id r) :
    Forgotten w' R id r := by
  refine ⟨lt_of_lt_of_le hf.lt h.frame.size_le, fun hr => hf.dead (h.frame.alive r hf.lt hr),
    ?_, ?_, ?_⟩ <;> rw [h.registries]
  · exact hf.noEntry
  · exact hf.vacant
  · exact hf.issued

/-- A node that does not die keeps its entry. -/
theorem lifetime (h : Unregistering w w') (hi : Inv w H G X) {id : NodeId} {r : Ref}
    (hl : Lifetime w R id r) (hkeep : Tracked w R id r → w'.heap.Alive r) :
    Lifetime w' R id r := by
  by_cases hr : w.heap.Alive r
  · have ht := hl.live hr
    have hr' := hkeep ht
    refine ⟨fun _ => ⟨?_, ?_⟩, fun hdead => absurd hr' hdead⟩
    · rw [h.slot r (hi.heap.alive_lt r hr) hr']
      exact ht.slot
    · rw [h.registries]
      exact ht.entry
  · have hf := h.forgotten (hl.dead hr)
    exact ⟨fun hr' => absurd hr' hf.dead, fun _ => hf⟩

end Unregistering

/-! ### What a caller holds -/

namespace Caller

/-- The edges in the values of a caller. -/
def heldEdges (c : Caller N E) : List (InnerEdgeData E) :=
  c.edges ++ c.datas.flatMap InnerData.incoming

/-- The strong references of a caller to nodes. -/
def held (c : Caller N E) : Multiset Ref :=
  c.state.held + c.rcs + (c.heldEdges.map InnerEdgeData.source : List Ref)

/-- The memory of a caller with the references it holds. -/
abbrev config (c : Caller N E) : Config N E := ⟨c.world, c.held, c.state.regs⟩

/-- What the caller holds besides the program, as handles. -/
def outside (c : Caller N E) : Multiset Handle :=
  (c.rcs + (c.heldEdges.map InnerEdgeData.source : List Ref)).map Handle.node

/-- The memory of a caller is that of a program with more handles. -/
theorem config_addHandles_outside (c : Caller N E) (s : State N E) :
    (s.addHandles c.outside).config =
      ⟨s.world, ({ c with state := s } : Caller N E).held, s.regs⟩ := by
  have hheld : ({ c with state := s } : Caller N E).held =
      s.held + (c.rcs + (c.heldEdges.map InnerEdgeData.source : List Ref)) :=
    add_assoc s.held c.rcs _
  rw [hheld, State.config_addHandles, outside, Multiset.map_map, add_comm s.held]
  exact congrArg (Config.mk _ · _) (congrArg (· + _) (Multiset.map_id _))

theorem config_eq {c : Caller N E} {H : Multiset Ref} (hH : c.held = H) :
    c.config = ⟨c.world, H, c.state.regs⟩ := by
  rw [config, hH]

/-- The accesses of the operation are among `ok`. -/
def Respects (ok : Access → Prop) (c : Caller N E) : CallerOp N E → Prop
  | .op o => Relrc.Respects ok c.state o
  | _ => True

/-- The exemptions after an operation. -/
def exempt (c : Caller N E) (X : Exempt) : CallerOp N E → Exempt
  | .rcNew k => (c.datas[k]?).elim X (X.wrap c.world.heap)
  | _ => X

/-- The memory invariant of a caller. -/
structure Good (c : Caller N E) (X : Exempt) : Prop where
  inv : c.config.Inv X
  copied : c.copied ≤ (c.world.weaks : Multiset Ref)

end Caller

/-- Taking a value out of a list takes what it holds out of what they hold, and so does changing
it. -/
theorem exists_flatMap {α β : Type*} (f : α → List β) {l : List α} {k : ℕ} {a : α}
    (h : l[k]? = some a) : ∃ rest : Multiset β, (l.flatMap f : Multiset β) = f a + rest ∧
      ((l.eraseIdx k).flatMap f : Multiset β) = rest ∧
      ∀ b, ((l.set k b).flatMap f : Multiset β) = f b + rest := by
  obtain ⟨hk, rfl⟩ := List.getElem?_eq_some_iff.mp h
  refine ⟨(l.eraseIdx k).flatMap f, ?_, rfl, fun b => ?_⟩
  · rw [Multiset.coe_add, ← List.flatMap_cons, Multiset.coe_eq_coe]
    exact (List.getElem_cons_eraseIdx_perm hk).symm.flatMap_right f
  · rw [Multiset.coe_add, ← List.flatMap_cons, Multiset.coe_eq_coe]
    exact (List.set_perm_cons_eraseIdx hk b).flatMap_right f

namespace Caller

variable {c : Caller N E}

/-- Held are the handles, the pointers, and the sources in edges and values. -/
theorem held_eq (c : Caller N E) : c.held = c.state.held + c.rcs +
    ((c.edges.map InnerEdgeData.source : List Ref) +
      (c.datas.flatMap InnerData.sources : List Ref)) := by
  rw [held, heldEdges, List.map_append, List.map_flatMap, ← Multiset.coe_add]
  rfl

theorem held_addHandles (hs : Multiset Handle) :
    (c.addHandles hs).held = hs.map Handle.target + c.held := by
  have hstate : (c.state.addHandles hs).held = hs.map Handle.target + c.state.held :=
    congrArg Config.held (c.state.config_addHandles hs)
  rw [held_eq c, add_assoc c.state.held, ← add_assoc, ← hstate, ← add_assoc]
  exact held_eq _

theorem held_push_node (c : Caller N E) (r : Ref) :
    (c.addHandles {.node r}).held = r ::ₘ c.held := by
  rw [held_addHandles, Multiset.map_singleton, Multiset.singleton_add]
  rfl

theorem held_push_rc (c : Caller N E) (r : Ref) :
    ({ c with rcs := r ::ₘ c.rcs } : Caller N E).held = r ::ₘ c.held := by
  rw [held, held, Multiset.add_cons, Multiset.cons_add]
  rfl

theorem held_erase_rc {r : Ref} (hr : r ∈ c.rcs) :
    c.held = r ::ₘ ({ c with rcs := c.rcs.erase r } : Caller N E).held := by
  rw [← held_push_rc]
  simp only [Multiset.cons_erase hr]

theorem copied_push_rcWeak (c : Caller N E) (r : Ref) :
    ({ c with rcWeaks := r ::ₘ c.rcWeaks } : Caller N E).copied = r ::ₘ c.copied := by
  rw [copied, copied, Multiset.cons_add, Multiset.cons_add]

theorem copied_erase_rcWeak {r : Ref} (hr : r ∈ c.rcWeaks) :
    c.copied = r ::ₘ ({ c with rcWeaks := c.rcWeaks.erase r } : Caller N E).copied := by
  rw [← copied_push_rcWeak]
  simp only [Multiset.cons_erase hr]

/-- One more value. -/
theorem push_data (c : Caller N E) (d : InnerData N E) :
    ({ c with datas := c.datas ++ [d] } : Caller N E).held = (d.sources : Multiset Ref) + c.held ∧
    ({ c with datas := c.datas ++ [d] } : Caller N E).copied =
      (d.weakRefs : Multiset Ref) + c.copied := by
  rw [held_eq, held_eq, copied, copied]
  simp only [List.flatMap_append, List.flatMap_singleton, ← Multiset.coe_add]
  constructor <;> abel

theorem push_edge (c : Caller N E) (e : InnerEdgeData E) :
    ({ c with edges := c.edges ++ [e] } : Caller N E).held = e.source ::ₘ c.held ∧
    ({ c with edges := c.edges ++ [e] } : Caller N E).copied = e.target ::ₘ c.copied := by
  rw [held_eq, held_eq, copied, copied]
  simp only [List.map_append, List.map_singleton, ← Multiset.coe_add, Multiset.coe_singleton,
    ← Multiset.singleton_add]
  constructor <;> abel

/-- Without one value, or with another in its place. -/
theorem exists_data {k : ℕ} {d : InnerData N E} (hd : c.datas[k]? = some d) : ∃ H W,
    c.held = (d.sources : Multiset Ref) + H ∧ c.copied = (d.weakRefs : Multiset Ref) + W ∧
    (({ c with datas := c.datas.eraseIdx k } : Caller N E).held = H ∧
      ({ c with datas := c.datas.eraseIdx k } : Caller N E).copied = W) ∧
    ∀ d', ({ c with datas := c.datas.set k d' } : Caller N E).held =
        (d'.sources : Multiset Ref) + H ∧
      ({ c with datas := c.datas.set k d' } : Caller N E).copied =
        (d'.weakRefs : Multiset Ref) + W := by
  obtain ⟨S, hS, hS', hset⟩ := exists_flatMap InnerData.sources hd
  obtain ⟨T, hT, hT', hset'⟩ := exists_flatMap InnerData.weakRefs hd
  simp only [held_eq, copied, hS, hS', hset, hT, hT', hset']
  refine ⟨_, _, ?_, ?_, ⟨rfl, rfl⟩, fun d' => ⟨?_, ?_⟩⟩ <;> abel

theorem erase_edge {j : ℕ} {e : InnerEdgeData E} (he : c.edges[j]? = some e) :
    c.held = e.source ::ₘ ({ c with edges := c.edges.eraseIdx j } : Caller N E).held ∧
    c.copied = e.target ::ₘ ({ c with edges := c.edges.eraseIdx j } : Caller N E).copied := by
  obtain ⟨S, hS, hS', -⟩ := exists_flatMap (fun e : InnerEdgeData E => [e.source]) he
  obtain ⟨T, hT, hT', -⟩ := exists_flatMap (fun e : InnerEdgeData E => [e.target]) he
  simp only [← List.map_eq_flatMap, Multiset.coe_singleton] at hS hS' hT hT'
  rw [held_eq, held_eq, copied, copied, hS, hS', hT, hT']
  simp only [← Multiset.singleton_add]
  constructor <;> abel

end Caller

variable {c c' : Caller N E}

namespace Caller.Good

theorem mem_weaks (hc : c.Good X) {r : Ref} (hr : r ∈ c.copied) : r ∈ c.world.weaks :=
  Multiset.mem_of_le hc.copied hr

theorem inUse_of_copied (hc : c.Good X) {r : Ref} (hr : r ∈ c.copied) : c.world.InUse r :=
  hc.inv.inUse_of_weak (hc.mem_weaks hr)

/-- The strong references in an `InnerData` that can be borrowed. -/
theorem alive_of_source (hc : c.Good X) {p : DataPlace} {d : InnerData N E}
    (hd : c.dataAt p = some d) {r : Ref} (hr : r ∈ d.sources) : c.world.heap.Alive r := by
  cases p with
  | node x =>
    refine hc.inv.heap.parent_alive (c := x) ?_
    have hdata : c.world.heap.data x = some d := hd
    rwa [Heap.allParents, Heap.allIncoming, hdata]
  | value k =>
    obtain ⟨e, he, rfl⟩ := List.mem_map.mp hr
    refine hc.inv.heap.alive_of_held (Multiset.mem_add.mpr (Or.inr (List.mem_map_of_mem ?_)))
    exact List.mem_append.mpr (Or.inr (List.mem_flatMap.mpr ⟨d, List.mem_of_getElem? hd, he⟩))

/-- The weak references in an `InnerData` that can be borrowed. -/
theorem inUse_of_weakRef (hc : c.Good X) {p : DataPlace} {d : InnerData N E}
    (hd : c.dataAt p = some d) {r : Ref} (hr : r ∈ d.weakRefs) : c.world.InUse r := by
  cases p with
  | node x =>
    have hdata : c.world.heap.data x = some d := hd
    rcases List.mem_append.mp hr with hr | hr
    · obtain ⟨e, he, rfl⟩ := List.mem_map.mp hr
      exact hc.inv.inUse_of_incoming (c := x) (by rwa [Heap.allIncoming, hdata])
    · obtain ⟨e, he, rfl⟩ := List.mem_map.mp hr
      exact hc.inv.inUse_of_outgoing (c := x) (by rwa [Heap.allOutgoingWeak, hdata])
  | value k =>
    refine hc.inUse_of_copied (Multiset.mem_add.mpr (Or.inr ?_))
    exact List.mem_flatMap.mpr ⟨d, List.mem_of_getElem? hd, hr⟩

/-- The references in an `InnerEdgeData` that can be borrowed. -/
theorem refs_of_edgeAt (hc : c.Good X) {p : EdgePlace} {e : InnerEdgeData E}
    (he : c.edgeAt p = some e) : c.world.heap.Alive e.source ∧ c.world.InUse e.target := by
  cases p with
  | incoming p index =>
    obtain ⟨d, hd, hget⟩ := Option.bind_eq_some_iff.mp he
    have hmem : e ∈ d.incoming := List.mem_of_getElem? hget
    exact ⟨hc.alive_of_source hd (List.mem_map_of_mem hmem),
      hc.inUse_of_weakRef hd (List.mem_append.mpr (Or.inl (List.mem_map_of_mem hmem)))⟩
  | value j =>
    have hmem : e ∈ c.edges := List.mem_of_getElem? he
    refine ⟨hc.inv.heap.alive_of_held (Multiset.mem_add.mpr (Or.inr (List.mem_map_of_mem ?_))),
      hc.inUse_of_copied (Multiset.mem_add.mpr (Or.inl (Multiset.mem_add.mpr (Or.inr ?_))))⟩
    · exact List.mem_append.mpr (Or.inl hmem)
    · exact List.mem_map_of_mem hmem


end Caller.Good

/-! ### What an operation does -/

/-- What an operation does to memory: it takes elementary steps, or it makes a node of a value, or
it frees a node without the hook and takes elementary steps then. -/
inductive Caller.Effect (A : AddrSource) (K : KeySource) (ok : Access → Prop) (c c' : Caller N E) :
    CallerOp N E → Prop where
  | steps {o} (hX : ∀ X, c.exempt X o = X) (h : Steps A K ok c.config c'.config) :
      Effect A K ok c c' o
  | wraps {k d H} (hd : c.datas[k]? = some d) (hheld : c.held = (d.sources : Multiset Ref) + H)
      (hin : ∀ r ∈ d.weakRefs, c.world.InUse r)
      (hc' : c'.config = ⟨c.world.allocData A d, c.world.heap.size ::ₘ H, c.state.regs⟩) :
      Effect A K ok c c' (.rcNew k)
  | frees {r H} (hheld : c.held = r ::ₘ H) (hlast : c.world.heap.strong r ≤ 1)
      (h : Steps A K ok ⟨c.world.withHeap (c.world.heap.decStrong r),
        H + (c.world.heap.allParents r : Multiset Ref), c.state.regs⟩ c'.config) :
      Effect A K ok c c' (.rcDrop r)

namespace Caller.Good

/-- Weak references come into being. -/
private theorem of_gain (hc : c.Good X) {H : Multiset Ref} (rs : List Ref)
    (hsteps : Steps A K ok c.config ⟨c'.world, H, c'.state.regs⟩) (hheld : c'.held = H)
    (hw : c'.world.weaks = rs ++ c.world.weaks)
    (hcopied : c'.copied = (rs : Multiset Ref) + c.copied) :
    Steps A K ok c.config c'.config ∧ c'.copied ≤ (c'.world.weaks : Multiset Ref) := by
  refine ⟨(config_eq hheld).symm ▸ hsteps, ?_⟩
  rw [hw, hcopied, ← Multiset.coe_add]
  exact add_le_add_right hc.copied _

/-- Weak references are dropped, or move into the heap. -/
private theorem copied_of_lose (hc : c.Good X) (rs : List Ref)
    (hw : c'.world.weaks = c.world.weaks.diff rs)
    (hcopied : c.copied = (rs : Multiset Ref) + c'.copied) :
    c'.copied ≤ (c'.world.weaks : Multiset Ref) := by
  rw [hw, ← Multiset.coe_sub]
  refine le_tsub_of_add_le_left ?_
  rw [← hcopied]
  exact hc.copied

/-- The steps of an operation that also drops weak references. -/
private theorem of_lose (hc : c.Good X) {H : Multiset Ref} (rs : List Ref)
    (hsteps : Steps A K ok c.config ⟨c'.world, H, c'.state.regs⟩) (hheld : c'.held = H)
    (hw : c'.world.weaks = c.world.weaks.diff rs)
    (hcopied : c.copied = (rs : Multiset Ref) + c'.copied) :
    Steps A K ok c.config c'.config ∧ c'.copied ≤ (c'.world.weaks : Multiset Ref) :=
  ⟨(config_eq hheld).symm ▸ hsteps, hc.copied_of_lose rs hw hcopied⟩

/-- An operation of the program: what the caller holds besides are more handles to it. -/
private theorem op (hc : c.Good X) {o : Op N E} (hen : o.Enabled c.state)
    (hweak : ∀ r ∈ o.weakHandle, r ∈ c.weakHandles) (hok : Relrc.Respects ok c.state o)
    {s' : State N E} (h : Relrc.exec A K c.state o = .ok s') :
    Steps A K ok c.config ({ c with state := s' } : Caller N E).config ∧
      c.copied ≤ (s'.world.weaks : Multiset Ref) := by
  have hi : (c.state.addHandles c.outside).config.Inv X := by
    rw [config_addHandles_outside]
    exact hc.inv
  obtain ⟨hen', h'⟩ := exec_addHandles hen h c.outside
  have hsteps : Steps A K ok _ _ := exec_steps hi hen' hok h'
  rw [config_addHandles_outside, config_addHandles_outside] at hsteps
  refine ⟨hsteps, ?_⟩
  -- a weak handle of the program is not one of the references in the values
  have hcopied := hc.copied
  have hw : s'.world.weaks = o.weaksAfter c.world.weaks := exec_weaks h
  rw [hw]
  cases o with
  | downgrade node => exact hcopied.trans (Multiset.le_cons_self _ _)
  | dropWeak node =>
    have hnode : node ∈ (c.world.weaks : Multiset Ref) - c.copied := hweak node rfl
    rw [Op.weaksAfter, ← Multiset.coe_erase, ← add_tsub_cancel_of_le hcopied,
      Multiset.erase_add_right_pos _ hnode]
    exact Multiset.le_add_right _ _
  | _ => exact hcopied

/-- `all_outgoing` on a value: what it lists is split into what upgrades and what is dropped. -/
private theorem takeOutgoing (hc : c.Good X) {k : ℕ} {d : InnerData N E}
    (hd : c.datas[k]? = some d) : Steps A K ok c.config (c.takeOutgoing k d).config ∧
      (c.takeOutgoing k d).copied ≤ ((c.takeOutgoing k d).world.weaks : Multiset Ref) := by
  set up := c.world.heap.upgradeEdge with hup
  set kept := d.outgoing.filter fun e => (up e).isSome with hkept
  set gone := d.outgoing.filter fun e => !(up e).isSome with hgone
  set edges := d.outgoing.filterMap up with hedges
  obtain ⟨H, W, hheld, hcopied, -, hset⟩ := exists_data hd
  obtain ⟨hheld', hcopied'⟩ := hset { d with outgoing := kept }
  have halive : ∀ r ∈ edges.map Edge.target, c.world.heap.Alive r := by
    intro r hr
    obtain ⟨e, he, rfl⟩ := List.mem_map.mp hr
    obtain ⟨x, -, hx⟩ := List.mem_filterMap.mp he
    exact alive_of_upgradeEdge hx
  have hsteps : Steps A K ok c.config _ := steps_incStrongAll halive
  have hlose : Steps A K ok _ _ :=
    steps_loseWeaks (Steps.inv hsteps hc.inv) (gone.map WeakEdge.target)
  refine hc.of_lose (gone.map WeakEdge.target) (hsteps.trans hlose) ?_ rfl ?_
  · have hmap : ((edges.map Handle.edge : List Handle) : Multiset Handle).map Handle.target =
        (edges.map Edge.target : List Ref) := by
      rw [Multiset.map_coe, List.map_map]
      rfl
    have hadd : (c.takeOutgoing k d).held = ((edges.map Handle.edge : List Handle) :
        Multiset Handle).map Handle.target +
        ({ c with datas := c.datas.set k { d with outgoing := kept } } : Caller N E).held :=
      held_addHandles (c := { c with datas := c.datas.set k { d with outgoing := kept } }) _
    rw [hadd, hmap, hheld', hheld]
    rfl
  · -- a value refers to what it keeps and to what is gone
    have hperm : (d.weakRefs : Multiset Ref) = (gone.map WeakEdge.target : List Ref) +
        (({ d with outgoing := kept } : InnerData N E).weakRefs : List Ref) := by
      have hsplit : (d.outgoing : Multiset WeakEdge) = (gone : Multiset WeakEdge) + kept := by
        rw [add_comm, Multiset.coe_add, Multiset.coe_eq_coe]
        exact (List.filter_append_perm _ _).symm
      rw [InnerData.weakRefs, InnerData.weakRefs, ← Multiset.coe_add, ← Multiset.coe_add,
        ← Multiset.map_coe WeakEdge.target d.outgoing, hsplit, Multiset.map_add, Multiset.map_coe,
        Multiset.map_coe, add_left_comm]
    rw [hcopied, hperm, add_assoc, ← hcopied']
    rfl

/-- A strong reference to a node that is alive. -/
private theorem of_clone (hc : c.Good X) {r : Ref} (hr : c.world.heap.Alive r)
    (hw : c'.world = c.world.clone r) (hregs : c'.state.regs = c.state.regs)
    (hheld : c'.held = r ::ₘ c.held) (hcopied : c'.copied = c.copied) :
    Steps A K ok c.config c'.config ∧ c'.copied ≤ (c'.world.weaks : Multiset Ref) := by
  have hsteps : Steps A K ok c.config ⟨c.world.clone r, r ::ₘ c.held, c.state.regs⟩ :=
    steps_clone hr
  rw [← hw, ← hregs] at hsteps
  have hweaks : c'.world.weaks = [] ++ c.world.weaks := by
    rw [hw]
    rfl
  exact hc.of_gain [] hsteps hheld hweaks (hcopied.trans (zero_add _).symm)

/-- Weak references that are handed to the program. -/
private theorem withWeaks (hc : c.Good X) {rs : List Ref} (hrs : ∀ r ∈ rs, c.world.InUse r) :
    Steps A K ok c.config (c.withWorld (c.world.gainWeaks rs)).config ∧
      c.copied ≤ ((c.world.gainWeaks rs).weaks : Multiset Ref) :=
  ⟨steps_gainWeaks hc.inv hrs, hc.copied.trans (Multiset.coe_le.mpr
    (List.sublist_append_right _ _).subperm)⟩

private theorem alive_of_rc (hc : c.Good X) {node : Ref} (h : node ∈ c.rcs) :
    c.world.heap.Alive node := by
  have hi := hc.inv
  rw [config_eq (held_erase_rc h)] at hi
  exact hi.heap.alive_of_held (Multiset.mem_cons_self _ _)

private theorem cloneData (hc : c.Good X) {p : DataPlace} {d : InnerData N E}
    (hd : c.dataAt p = some d) :
    let c' : Caller N E := { c.withWorld (c.world.cloneData d) with datas := c.datas ++ [d] }
    Steps A K ok c.config c'.config ∧ c'.copied ≤ (c'.world.weaks : Multiset Ref) := by
  obtain ⟨hheld, hcopied⟩ := push_data c d
  have hgain : Steps A K ok c.config ⟨c.world.gainWeaks d.weakRefs, c.held, c.state.regs⟩ :=
    steps_gainWeaks hc.inv fun r hr => hc.inUse_of_weakRef hd hr
  have hsteps : Steps A K ok ⟨c.world.gainWeaks d.weakRefs, c.held, c.state.regs⟩ _ :=
    steps_incStrongAll fun r hr => hc.alive_of_source hd hr
  exact hc.of_gain d.weakRefs (hgain.trans hsteps) hheld rfl hcopied

private theorem dropData (hc : c.Good X) {k : ℕ} {d : InnerData N E}
    (hd : c.datas[k]? = some d) :
    let c' : Caller N E :=
      { c.withWorld (c.world.dropData d) with datas := c.datas.eraseIdx k }
    Steps A K ok c.config c'.config ∧ c'.copied ≤ (c'.world.weaks : Multiset Ref) := by
  obtain ⟨H, W, hheld, hcopied, ⟨hheld', hcopied'⟩, -⟩ := exists_data hd
  have hi := hc.inv
  rw [config_eq hheld] at hi
  have hsteps : Steps A K ok ⟨c.world, (d.sources : Multiset Ref) + H, c.state.regs⟩ _ :=
    steps_dropAll hi
  have hlose := hsteps.trans (steps_loseWeaks (Steps.inv hsteps hi) d.weakRefs)
  rw [← hheld] at hlose
  rw [← hcopied'] at hcopied
  refine hc.of_lose d.weakRefs hlose hheld' ?_ hcopied
  exact congrArg (List.diff · d.weakRefs) (World.weaks_dropAll _ _)

/-- A value is put behind an `Rc`: what it refers to moves into the heap. -/
private theorem rcNew (hc : c.Good X) {k : ℕ} {d : InnerData N E} (hd : c.datas[k]? = some d) :
    let c' : Caller N E := { c.withWorld (c.world.allocData A d) with
      datas := c.datas.eraseIdx k
      rcs := c.world.heap.size ::ₘ c.rcs }
    Effect A K ok c c' (.rcNew k) ∧ c'.copied ≤ (c'.world.weaks : Multiset Ref) := by
  obtain ⟨H, W, hheld, hcopied, ⟨hheld', hcopied'⟩, -⟩ := exists_data hd
  have hin : ∀ r ∈ d.weakRefs, c.world.InUse r := fun r hr =>
    hc.inUse_of_weakRef (p := .value k) hd hr
  rw [← hcopied'] at hcopied
  refine ⟨.wraps hd hheld hin ?_, hc.copied_of_lose d.weakRefs rfl hcopied⟩
  rw [config, ← hheld']
  exact congrArg (Config.mk _ · _) (held_push_rc { c with datas := c.datas.eraseIdx k } _)

/-- The last reference takes the node along, and its own references are dropped with their hooks. -/
private theorem rcDrop (hc : c.Good X) {node : Ref} (hnode : node ∈ c.rcs) :
    let c' : Caller N E :=
      { c.withWorld (c.world.dropRc node) with rcs := c.rcs.erase node }
    Effect A K ok c c' (.rcDrop node) ∧ c'.copied ≤ (c'.world.weaks : Multiset Ref) := by
  have hheld := held_erase_rc hnode
  have hweaks : (c.world.dropRc node).weaks = c.world.weaks := World.weaks_dropAll _ _
  refine ⟨?_, hc.copied.trans (le_of_eq (congrArg _ hweaks.symm))⟩
  have hi := hc.inv
  rw [config_eq hheld] at hi
  have hdec := hi.decStrong
  rw [add_comm] at hdec
  have hdrop : Steps A K ok ⟨c.world.withHeap (c.world.heap.decStrong node),
      (c.world.releases node : Multiset Ref) + _, c.state.regs⟩ _ := steps_dropAll hdec
  rcases Nat.lt_or_ge 1 (c.world.heap.strong node) with hs | hs
  · -- while there are other references, the hook does nothing
    have hrelease : c.world.release node = c.world.withHeap (c.world.heap.decStrong node) := by
      rw [World.release, World.dropHook, if_pos hs]
    have hfirst : Steps A K ok ⟨c.world, node ::ₘ _, c.state.regs⟩ _ :=
      Relation.ReflTransGen.single (.release c.world
        ({ c with rcs := c.rcs.erase node } : Caller N E).held c.state.regs node)
    rw [hrelease, add_comm, ← config_eq hheld] at hfirst
    exact .steps (fun _ => rfl) (hfirst.trans hdrop)
  · have hparents : c.world.releases node = c.world.heap.allParents node := by
      rw [World.releases, if_pos hs]
    rw [add_comm] at hdrop
    exact .frees hheld hs (hparents ▸ hdrop)

private theorem cloneEdge (hc : c.Good X) {p : EdgePlace} {e : InnerEdgeData E}
    (he : c.edgeAt p = some e) :
    let c' : Caller N E := { c.withWorld (c.world.cloneEdge e) with edges := c.edges ++ [e] }
    Steps A K ok c.config c'.config ∧ c'.copied ≤ (c'.world.weaks : Multiset Ref) := by
  obtain ⟨hsource, htarget⟩ := hc.refs_of_edgeAt he
  obtain ⟨hheld, hcopied⟩ := push_edge c e
  have hgain : Steps A K ok c.config ⟨c.world.gainWeaks [e.target], c.held, c.state.regs⟩ :=
    steps_gainWeaks hc.inv fun r hr => by
      obtain rfl := List.mem_singleton.mp hr
      exact htarget
  have hsteps : Steps A K ok ⟨c.world.gainWeaks [e.target], c.held, c.state.regs⟩ _ :=
    steps_clone hsource
  exact hc.of_gain [e.target] (hgain.trans hsteps) hheld rfl hcopied

private theorem dropEdge (hc : c.Good X) {j : ℕ} {e : InnerEdgeData E}
    (he : c.edges[j]? = some e) :
    let c' : Caller N E :=
      { c.withWorld (c.world.dropEdge e) with edges := c.edges.eraseIdx j }
    Steps A K ok c.config c'.config ∧ c'.copied ≤ (c'.world.weaks : Multiset Ref) := by
  obtain ⟨hheld, hcopied⟩ := erase_edge he
  have hi := hc.inv
  rw [config_eq hheld] at hi
  have hsteps : Steps A K ok ⟨c.world, e.source ::ₘ _, c.state.regs⟩ _ := steps_drop hi
  have hlose := hsteps.trans (steps_loseWeaks (Steps.inv hsteps hi) [e.target])
  rw [← hheld] at hlose
  refine hc.of_lose [e.target] hlose rfl ?_ hcopied
  exact congrArg (List.diff · [e.target]) (World.weaks_drop _ _)

/-- **What each operation does**, and that the references in values stay references. -/
theorem effect (hc : c.Good X) {o : CallerOp N E} (hen : o.Enabled c) (hok : c.Respects ok o)
    (h : Caller.exec A K c o = .ok c') :
    Effect A K ok c c' o ∧ c'.copied ≤ (c'.world.weaks : Multiset Ref) := by
  have hof : (∀ X, c.exempt X o = X) →
      Steps A K ok c.config c'.config ∧ c'.copied ≤ (c'.world.weaks : Multiset Ref) →
      Effect A K ok c c' o ∧ c'.copied ≤ (c'.world.weaks : Multiset Ref) :=
    fun hX hs => ⟨.steps hX hs.1, hs.2⟩
  cases o with
  | op o =>
    simp only [exec] at h
    split at h
    · rename_i s' hs
      obtain rfl := pure_eq_ok_iff.mp h
      exact hof (fun _ => rfl) (hc.op hen.1 hen.2 hok hs)
    · cases h
  | dataDefault value =>
    obtain rfl := pure_eq_ok_iff.mp h
    obtain ⟨hheld, hcopied⟩ := push_data c (InnerData.new value)
    exact hof (fun _ => rfl)
      (hc.of_gain [] Relation.ReflTransGen.refl (hheld.trans (zero_add _)) rfl hcopied)
  | dataClone p =>
    obtain ⟨d, hd⟩ := Option.isSome_iff_exists.mp hen
    simp only [exec, hd] at h
    obtain rfl := pure_eq_ok_iff.mp h
    exact hof (fun _ => rfl) (hc.cloneData hd)
  | dataDrop k =>
    obtain ⟨d, hd⟩ : ∃ d, c.datas[k]? = some d := ⟨_, List.getElem?_eq_getElem hen⟩
    simp only [exec, hd] at h
    obtain rfl := pure_eq_ok_iff.mp h
    exact hof (fun _ => rfl) (hc.dropData hd)
  | dataOutgoing k =>
    obtain ⟨d, hd⟩ : ∃ d, c.datas[k]? = some d := ⟨_, List.getElem?_eq_getElem hen⟩
    simp only [exec, hd] at h
    obtain rfl := pure_eq_ok_iff.mp h
    exact hof (fun _ => rfl) (hc.takeOutgoing hd)
  | dataOutgoingWeak p =>
    obtain ⟨d, hd⟩ := Option.isSome_iff_exists.mp hen
    simp only [exec, hd] at h
    obtain rfl := pure_eq_ok_iff.mp h
    exact hof (fun _ => rfl)
      (hc.withWeaks fun r hr => hc.inUse_of_weakRef hd (List.mem_append.mpr (Or.inr hr)))
  | dataIncomingWeak p index =>
    obtain ⟨e, he⟩ := Option.isSome_iff_exists.mp hen
    simp only [exec, he] at h
    obtain rfl := pure_eq_ok_iff.mp h
    refine hof (fun _ => rfl) (hc.withWeaks fun r hr => ?_)
    obtain rfl := List.mem_singleton.mp hr
    exact (hc.refs_of_edgeAt he).2
  | rcNew k =>
    obtain ⟨d, hd⟩ : ∃ d, c.datas[k]? = some d := ⟨_, List.getElem?_eq_getElem hen⟩
    simp only [exec, hd] at h
    obtain rfl := pure_eq_ok_iff.mp h
    exact hc.rcNew hd
  | rcClone node =>
    obtain rfl := pure_eq_ok_iff.mp h
    exact hof (fun _ => rfl)
      (hc.of_clone (hc.alive_of_rc hen) rfl rfl (held_push_rc c node) rfl)
  | rcDrop node =>
    obtain rfl := pure_eq_ok_iff.mp h
    exact hc.rcDrop hen
  | rcDowngrade node =>
    obtain rfl := pure_eq_ok_iff.mp h
    have hgain : Steps A K ok c.config ⟨c.world.gainWeaks [node], c.held, c.state.regs⟩ :=
      steps_gainWeaks hc.inv fun r hr => by
        obtain rfl := List.mem_singleton.mp hr
        exact Inv.inUse_of_alive (hc.alive_of_rc hen)
    exact hof (fun _ => rfl)
      (hc.of_gain [node] hgain rfl rfl (copied_push_rcWeak c node))
  | rcUpgrade node =>
    simp only [exec] at h
    split at h
    · rename_i r hr
      obtain rfl := pure_eq_ok_iff.mp h
      exact hof (fun _ => rfl)
        (hc.of_clone (alive_of_upgrade hr) rfl rfl (held_push_rc c r) rfl)
    · obtain rfl := pure_eq_ok_iff.mp h
      exact hof (fun _ => rfl) ⟨Relation.ReflTransGen.refl, hc.copied⟩
  | rcDropWeak node =>
    obtain rfl := pure_eq_ok_iff.mp h
    exact hof (fun _ => rfl) (hc.of_lose [node] (steps_loseWeaks hc.inv [node]) rfl rfl
      (copied_erase_rcWeak hen))
  | fromRc node =>
    obtain rfl := pure_eq_ok_iff.mp h
    refine hof (fun _ => rfl)
      (hc.of_gain [] Relation.ReflTransGen.refl ?_ rfl (zero_add _).symm)
    rw [held_erase_rc hen]
    exact held_push_node { c with rcs := c.rcs.erase node } node
  | fromRcWeak node =>
    obtain rfl := pure_eq_ok_iff.mp h
    refine hof (fun _ => rfl) ⟨Relation.ReflTransGen.refl, le_trans ?_ hc.copied⟩
    rw [copied_erase_rcWeak hen]
    exact Multiset.le_cons_self _ _
  | edgeClone p =>
    obtain ⟨e, he⟩ := Option.isSome_iff_exists.mp hen
    simp only [exec, he] at h
    obtain rfl := pure_eq_ok_iff.mp h
    exact hof (fun _ => rfl) (hc.cloneEdge he)
  | edgeDrop j =>
    obtain ⟨e, he⟩ : ∃ e, c.edges[j]? = some e := ⟨_, List.getElem?_eq_getElem hen⟩
    simp only [exec, he] at h
    obtain rfl := pure_eq_ok_iff.mp h
    exact hof (fun _ => rfl) (hc.dropEdge he)
  | edgeTarget p =>
    obtain ⟨e, he⟩ := Option.isSome_iff_exists.mp hen
    simp only [exec, he] at h
    split at h
    · rename_i t ht
      obtain rfl := pure_eq_ok_iff.mp h
      have hheld := held_push_node (c.withWorld (c.world.clone t)) t
      exact hof (fun _ => rfl) (hc.of_clone (alive_of_upgrade ht) rfl rfl hheld rfl)
    · cases h

end Caller.Good

namespace Caller.Effect

variable {o : CallerOp N E}

/-- **An operation keeps the memory invariant**, but for the edges at a node that it has made of a
value. -/
theorem inv (h : Effect A K ok c c' o) (hi : c.config.Inv X) : c'.config.Inv (c.exempt X o) := by
  cases h with
  | steps hX h =>
    rw [hX]
    exact Steps.inv h hi
  | wraps hd hheld hin hc' =>
    rw [config_eq hheld] at hi
    rw [exempt, hd, hc']
    exact hi.allocData A hin
  | frees hheld hlast h =>
    rw [config_eq hheld] at hi
    have hdec := hi.decStrong
    rw [if_pos hlast] at hdec
    exact Steps.inv h hdec

/-- What no operation of a caller changes either. -/
theorem frame (h : Effect A K ok c c' o) (hi : c.config.Inv X) : Frame c.world c'.world := by
  cases h with
  | steps hX h => exact Steps.frame h hi
  | @wraps k d H hd hheld hin hc' =>
    have hw : c'.world = c.world.allocData A d := congrArg Config.world hc'
    rw [hw]
    exact c.world.frame_allocData A d
  | @frees r H hheld hlast h =>
    rw [config_eq hheld] at hi
    have hdec := hi.decStrong
    rw [if_pos hlast] at hdec
    exact (c.world.frame_decStrong r).trans (Steps.frame h hdec)

end Caller.Effect

theorem Caller.respects_true (c : Caller N E) (o : CallerOp N E) :
    c.Respects (fun _ => True) o := by
  cases o with
  | op o => exact fun _ _ => trivial
  | _ => trivial

/-- **Each operation keeps the invariant.** -/
theorem Caller.Good.step (hc : c.Good X) {o : CallerOp N E} (hen : o.Enabled c)
    (h : Caller.exec A K c o = .ok c') : c'.Good (c.exempt X o) := by
  obtain ⟨heffect, hcopied⟩ := hc.effect hen (c.respects_true o) h
  exact ⟨heffect.inv hc.inv, hcopied⟩

/-! ### Runs -/

theorem Caller.good_init : (Caller.init : Caller N E).Good ∅ := ⟨Inv.empty, le_rfl⟩

section Runs

variable {P : Caller N E → CallerOp N E → Prop}

/-- Fewer restrictions allow more runs. -/
theorem Caller.Run.mono {P' : Caller N E → CallerOp N E → Prop} (hP : ∀ c o, P c o → P' c o)
    (h : Caller.Run A K P c c') : Caller.Run A K P' c c' := by
  refine Relation.ReflTransGen.mono (fun a b hab => ?_) _ _ h
  obtain ⟨o, hen, hp, hexec⟩ := hab
  exact ⟨o, hen, hP a o hp, hexec⟩

/-- A run keeps what each of its steps keeps of the exemptions. -/
theorem Caller.Run.good_of {Q : Exempt → Prop} (h : Caller.Run A K P c c')
    (hQ : ∀ c o X, P c o → Q X → Q (c.exempt X o)) (hX : Q X) (hc : c.Good X) :
    ∃ X', Q X' ∧ c'.Good X' := by
  induction h with
  | refl => exact ⟨X, hX, hc⟩
  | tail _ hstep ih =>
    obtain ⟨X', hX', hc'⟩ := ih
    obtain ⟨o, hen, hP, hexec⟩ := hstep
    exact ⟨_, hQ _ o X' hP hX', hc'.step hen hexec⟩

/-- **The memory invariant holds in every state that a caller reaches**, but for the edges at nodes
that were made of copies. -/
theorem Caller.Run.good (h : Caller.Run A K P c c') (hc : c.Good X) : ∃ X', c'.Good X' := by
  obtain ⟨X', -, hc'⟩ := h.good_of (Q := fun _ => True) (fun _ _ _ _ _ => trivial) trivial hc
  exact ⟨X', hc'⟩

theorem Caller.Run.frame (h : Caller.Run A K P c c') (hc : c.Good X) :
    Frame c.world c'.world := by
  induction h with
  | refl => exact Frame.refl _
  | tail hrun hstep ih =>
    obtain ⟨X', hc'⟩ := Caller.Run.good hrun hc
    obtain ⟨o, hen, -, hexec⟩ := hstep
    obtain ⟨heffect, -⟩ := hc'.effect hen (Caller.respects_true _ o) hexec
    exact ih.trans (heffect.frame hc'.inv)

/-- A program is a caller without values of its own. -/
theorem Caller.run_of_run {Q : State N E → Op N E → Prop} {s s' : State N E}
    (h : Relrc.Run A K Q s s') (hP : ∀ s o, Q s o → P ⟨s, [], 0, 0, []⟩ (.op o)) :
    Caller.Run A K P ⟨s, [], 0, 0, []⟩ ⟨s', [], 0, 0, []⟩ := by
  induction h with
  | refl => exact Relation.ReflTransGen.refl
  | @tail s s' _ hstep ih =>
    obtain ⟨op, hen, hq, hexec⟩ := hstep
    refine ih.tail ⟨.op op, ⟨hen, fun r hr => ?_⟩, hP s op hq, ?_⟩
    · -- nothing is in a value, so all weak references are handles
      have hall : (⟨s, [], 0, 0, []⟩ : Caller N E).weakHandles = (s.world.weaks : Multiset Ref) :=
        tsub_zero _
      rw [hall]
      cases op <;> cases hr <;> exact hen
    · simp only [Caller.exec, hexec]
      rfl

end Runs

end Relrc
