import Relrc.Memory.Program
import Relrc.Model.Allocation

/-!
# Liveness is reachability

A node lives exactly as long as some strong handle of the program, a `RelRc` or an `Edge`, points
to it or to one of its descendants. Handles may also be stored in history graphs.

The strong count of a node is the number of handles to it plus the number of incoming-edge slots
of live nodes that name it; that this implies the result is `Counted.pos_iff`, and that every
elementary step, those of the drop cascade included, keeps it is `Steps.inv`.
-/

namespace Relrc

open SlotStore Ancestry

variable {N E : Type} {A : AddrSource} {K : KeySource} {P : State N E → Op N E → Prop}
variable {s s' : State N E}

namespace State

/-- Some strong handle of the program points to `r`. -/
def Holds (s : State N E) (r : Ref) : Prop :=
  (∃ h ∈ s.handles, h.target = r) ∨ ∃ g G id, s.graph g = some G ∧ G.nodes.get id = some r

end State

theorem mem_sum_map {α β : Type*} {f : α → Multiset β} {l : List α} {x : β} :
    x ∈ (l.map f).sum ↔ ∃ a ∈ l, x ∈ f a := by
  induction l with
  | nil => simp
  | cons a l ih => rw [List.map_cons, List.sum_cons, Multiset.mem_add, ih]; simp

/-- Held are the handles and the nodes of graphs. -/
theorem State.mem_held_iff {r : Ref} : r ∈ s.held ↔ s.Holds r := by
  rw [State.held, Multiset.mem_add, Multiset.mem_map, mem_sum_map, State.Holds]
  refine or_congr Iff.rfl ⟨?_, ?_⟩
  · rintro ⟨x, hx, hr⟩
    cases x with
    | none => exact absurd hr (Multiset.notMem_zero _)
    | some G =>
      obtain ⟨g, hg⟩ := List.mem_iff_getElem?.mp hx
      obtain ⟨id, hid⟩ := Slots.mem_values.mp hr
      exact ⟨g, G, id, Option.join_eq_some_iff.mpr hg, hid⟩
  · rintro ⟨g, G, id, hg, hid⟩
    exact ⟨some G, List.mem_of_getElem? (State.getElem?_of_graph hg),
      Slots.mem_values.mpr ⟨id, hid⟩⟩

theorem upgrade_eq_some_iff {h : Heap N E} {r : Ref} : h.upgrade r = some r ↔ h.Alive r := by
  rw [Heap.upgrade]
  split_ifs with hr
  · exact ⟨fun _ => hr, fun _ => rfl⟩
  · exact ⟨fun h => (by cases h), fun h => absurd h hr⟩

/-- **Live is what is reached from what the program holds.** -/
theorem State.Inv.alive_iff (hi : s.Inv) {r : Ref} :
    s.world.heap.Alive r ↔ ∃ x, s.Holds x ∧ Reaches s.world.heap.allParents x r := by
  have h := hi.heap.alive_iff_reached (r := r)
  simp only [State.mem_held_iff] at h
  exact h

/-- Parent links from a node that stays alive are followed through nodes that stay alive. -/
theorem Frame.reaches_iff {w w' : World N E} {held : Multiset Ref} {regs : Multiset RegRef}
    (hf : Frame w w') (hi : Inv w held regs) {held' : Multiset Ref} {regs' : Multiset RegRef}
    (hi' : Inv w' held' regs') {x r : Ref} (hx : x < w.heap.size) (halive : w'.heap.Alive x) :
    Reaches w'.heap.allParents x r ↔ Reaches w.heap.allParents x r := by
  have hpar : ∀ y, y < w.heap.size → w'.heap.Alive y →
      w'.heap.allParents y = w.heap.allParents y := fun y hy => hf.allParents hy
  constructor
  · intro h
    refine h.congr fun y hy => (hpar y ?_ (hi'.heap.alive_of_reaches halive hy)).symm
    exact lt_of_le_of_lt (hi'.heap.le_of_reaches hy) hx
  · intro h
    have hclosed : ∀ y, Reaches w.heap.allParents x y → w'.heap.Alive y ∧ y < w.heap.size := by
      intro y hy
      induction hy with
      | refl => exact ⟨halive, hx⟩
      | @tail y z _ hz ih =>
        have hz' := hz
        rw [← hpar y ih.2 ih.1] at hz
        exact ⟨hi'.heap.parent_alive hz, (hi.heap.parent_lt y z hz').trans ih.2⟩
    exact h.congr fun y hy => hpar y (hclosed y hy).2 (hclosed y hy).1

/-- A run that gives back the references it was given keeps all nodes alive. -/
theorem Frame.alive_of_held_subset {w w' : World N E} {held held' : Multiset Ref}
    {regs regs' : Multiset RegRef} (hf : Frame w w') (hi : Inv w held regs)
    (hi' : Inv w' held' regs') (hsub : held ⊆ held') {r : Ref} (hr : w.heap.Alive r) :
    w'.heap.Alive r := by
  obtain ⟨x, hx, hxr⟩ := hi.heap.alive_iff_reached.mp hr
  have hx' : w'.heap.Alive x := hi'.heap.alive_of_held (hsub hx)
  have hlt : x < w.heap.size := hi.heap.alive_lt x (hi.heap.alive_of_held hx)
  exact hi'.heap.alive_of_reaches hx' ((hf.reaches_iff hi hi' hlt hx').mpr hxr)

/-- What is left of a state when a handle is dropped. -/
def State.without (s : State N E) (x : Handle) : State N E :=
  { s with handles := s.handles.erase x }

/-- **Dropping a handle frees exactly what no remaining handle reaches.** -/
theorem State.Inv.drop_frees (hi : s.Inv) {x : Handle} (hx : x ∈ s.handles)
    (hexec : exec A K s (.drop x) = .ok s') {r : Ref} :
    ¬ s'.world.heap.Alive r ↔
      ∀ y, (s.without x).Holds y → ¬ Reaches s.world.heap.allParents y r := by
  have hrun : Run A K (fun _ _ => True) s s' :=
    Relation.ReflTransGen.single ⟨.drop x, hx, trivial, hexec⟩
  have hi' := Run.inv hrun hi
  have hframe := Run.frame hrun hi
  obtain rfl := Fallible.pure_eq_ok_iff.mp hexec
  have hsame : ∀ y, (s.without x).Holds y ↔ State.Holds ({ s with
      world := s.world.drop x.target, handles := s.handles.erase x } : State N E) y :=
    fun y => Iff.rfl
  -- a remaining handle points to a live node, in both states
  have hold : ∀ y, (s.without x).Holds y → y < s.world.heap.size := by
    intro y hy
    refine hi.heap.alive_lt y (hi.alive_iff.mpr ⟨y, ?_, Reaches.refl y⟩)
    rcases hy with ⟨h, hh, rfl⟩ | hy
    · exact Or.inl ⟨h, Multiset.mem_of_mem_erase hh, rfl⟩
    · exact Or.inr hy
  rw [hi'.alive_iff, not_exists]
  refine forall_congr' fun y => ?_
  rw [not_and, ← hsame]
  refine forall_congr' fun hy => not_congr ?_
  exact hframe.reaches_iff hi hi' (hold y hy)
    (hi'.alive_iff.mpr ⟨y, (hsame y).mp hy, Reaches.refl y⟩)

/-- **Liveness equals reachability, and nothing leaks**, in every state of every run. -/
theorem live_iff_reached_of_run (h : Run A K P State.init s) :
    Acyclic s.world.heap.allParents ∧
    (∀ r, s.world.heap.upgrade r = some r ↔
      ∃ x, s.Holds x ∧ Reaches s.world.heap.allParents x r) ∧
    (∀ x ∈ s.handles, ∃ s', exec A K s (.drop x) = .ok s' ∧ ∀ r,
      (s'.world.heap.upgrade r = none ↔
        ∀ y, (s.without x).Holds y → ¬ Reaches s.world.heap.allParents y r)) ∧
    ∀ c, s.world.heap.Alive c → ∀ p ∈ s.world.heap.allParents c,
      s.world.heap.upgrade p = some p := by
  have hi := Run.inv h State.inv_init
  refine ⟨hi.heap.acyclic, fun r => ?_, fun x hx => ⟨_, rfl, fun r => ?_⟩, fun c _ p hp => ?_⟩
  · rw [upgrade_eq_some_iff]
    exact hi.alive_iff
  · rw [← hi.drop_frees (A := A) (K := K) hx rfl, Heap.upgrade, ite_eq_right_iff]
    simp
  · exact upgrade_eq_some_iff.mpr (hi.heap.parent_alive hp)

/-- A parent that is held only through the two edges of its child. -/
def parallelEdges : State ℕ ℕ :=
  State.init.after [.new 10, .clone 0, .withParents 20 [(0, 1), (0, 2)]]

theorem live_iff_reached_of_run_parallelEdges : parallelEdges.handles = {.node 1} ∧
    ∃ x, parallelEdges.Holds x ∧ Reaches parallelEdges.world.heap.allParents x 0 := by
  have hrun : Run _ _ (fun _ _ => True) State.init parallelEdges :=
    run_after (by decide) fun _ _ _ => trivial
  exact ⟨by decide, ((live_iff_reached_of_run hrun).2.1 0).mp (by decide)⟩

end Relrc
