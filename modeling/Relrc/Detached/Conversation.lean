import Relrc.Lib.Ranked
import Relrc.Model.Conversation
import Relrc.Detached.Delivery

/-!
# Conversations are delivered in order

Calls of `send_relrc` in one process and of `recv_relrc` in another, in a row and in any
interleaving. The receiver may be in its next call before the sender has seen `Done`, and the sender
may be in its next call before the receiver has returned: these are the stages of `Stage`. Neither
leads to a confusion of messages, since a sender that is ahead sends what only a receiver in the
next call expects, and a receiver that is ahead waits.

No buffer is needed (`conversation_of_runs`): from every state that is reached with buffers, the end
is reached without.
-/

namespace Relrc

open Std (ExtTreeMap)
open SlotStore Ancestry Ranked

variable {N E H : Type} [LinearOrder H]

/-! ### Modes -/

/-- A receiver that waits sends nothing. -/
theorem Receiver.next_of_expects {r : Receiver N E H} {tag : MPIMessageTag}
    (h : r.expects = some tag) (m : ExtTreeMap H Ref) : r.next m = none := by
  cases r with
  | deciding _ => cases h
  | _ => rfl

namespace Exchange

variable {d det : Detached N E H} {m : ExtTreeMap H Ref} {x y : Exchange N E H} {n : ℕ}
variable {buffered : Prop} {requested : List H}

/-- What `recv_relrc` sends is put into the channel. -/
theorem receiverStep_next {msg : MPIMessage N E H} (h : x.receiver.next m = some msg) :
    ∃ y, x.receiverStep m = some y ∧ y.sender = x.sender ∧ y.toSender = x.toSender.send msg := by
  obtain ⟨sender, receiver, toReceiver, toSender, requested⟩ := x
  cases receiver with
  | deciding det =>
    simp only [Receiver.next] at h
    rw [receiverStep]
    by_cases hto : det.attachesTo m = true
    · rw [if_pos hto] at h
      obtain rfl := Option.some.inj h
      exact ⟨_, if_pos hto, rfl, rfl⟩
    · rw [if_neg hto] at h
      obtain ⟨k, hk, rfl⟩ := Option.map_eq_some_iff.mp h
      simp only [if_neg hto, hk]
      exact ⟨_, rfl, rfl, rfl⟩
  | _ => cases h

/-- At the head of the loop, `recv_relrc` has something to say. -/
theorem exists_next (m : ExtTreeMap H Ref) (det : Detached N E H) :
    ∃ msg, (Receiver.deciding det).next m = some msg ∧ msg.tag = .ack := by
  rw [Receiver.next]
  by_cases hto : det.attachesTo m = true
  · exact ⟨.done, if_pos hto, rfl⟩
  · cases hfind : det.requiredHashes.find? fun hash => !m.contains hash with
    | some p => exact ⟨.requestRelRc p, if_neg hto, rfl⟩
    | none =>
      refine absurd ?_ hto
      rw [Detached.attachesTo, List.all_eq_true]
      simpa using hfind

/-- While messages are to come, `recv_relrc` has not returned. -/
theorem after_ne_finished {prior : Option (Detached N E H)} {k : H}
    {data : DetachedInnerData N E H} {consumed later : List (MPIMessage N E H)}
    (hsplit : mpiSend k data = consumed ++ later) (hmore : later ≠ []) :
    Receiver.after prior consumed ≠ .finished det := by
  intro hreceiver
  obtain ⟨msg, later, rfl⟩ := List.exists_cons_of_ne_nil hmore
  have hexpects := Receiver.expects_after prior k data hsplit
  rw [hreceiver] at hexpects
  cases hexpects

/-- **In either mode, a step lowers the bound** and leads to a phase. -/
theorem Phase.modeStep (hd : d.Complete) (h : Phase d m x n) (hs : ModeStep buffered d m x y) :
    ∃ n' < n, Phase d m y n' := by
  cases hs with
  | sender hstep _ => exact (h.step hd).2 y (Or.inl hstep)
  | receiver hstep _ => exact (h.step hd).2 y (Or.inr hstep)
  | toReceiver _ _ _ hstep hstep' =>
    obtain ⟨n', hlt, h'⟩ := (h.step hd).2 _ (Or.inl hstep)
    obtain ⟨n'', hlt', h''⟩ := (h'.step hd).2 _ (Or.inr hstep')
    exact ⟨n'', hlt'.trans hlt, h''⟩
  | toSender _ _ _ hstep hstep' =>
    obtain ⟨n', hlt, h'⟩ := (h.step hd).2 _ (Or.inr hstep)
    obtain ⟨n'', hlt', h''⟩ := (h'.step hd).2 _ (Or.inl hstep')
    exact ⟨n'', hlt'.trans hlt, h''⟩

/-- **No buffer is needed** for the next step: the other party is ready to receive what is sent. -/
theorem Phase.exists_modeStep (h : Phase d m x n) :
    x.sender = .finished ∨ ∃ y, ModeStep False d m x y := by
  cases h with
  | @transfer prior k data requested consumed inFlight rest hk hdata hsplit hmore =>
    right
    cases inFlight with
    | cons msg inFlight =>
      have hexpects := Receiver.expects_after prior k data hsplit
      exact ⟨_, .receiver (receiverStep_transfer hsplit) fun hnext =>
        hnext (Receiver.next_of_expects hexpects m)⟩
    | nil =>
      obtain ⟨msg, rest, rfl⟩ := List.exists_cons_of_ne_nil hmore
      have hexpects := Receiver.expects_after prior k data hsplit
      exact ⟨_, .toReceiver rfl rfl hexpects senderStep_send (receiverStep_transfer hsplit)⟩
  | @deciding det requested h =>
    right
    obtain ⟨msg, hnext, htag⟩ := exists_next m det
    obtain ⟨y, hstep, hsender, hqueue⟩ := receiverStep_next (x := ⟨.sending [], .deciding det,
      .empty, .empty, requested⟩) hnext
    obtain ⟨sender, receiver, toReceiver, toSender, requested'⟩ := y
    simp only [← Channel.queued_nil, Channel.send_queued] at hsender hqueue
    subst hsender hqueue
    exact ⟨_, .toSender hnext rfl rfl hstep (senderStep_ack htag)⟩
  | request _ _ => exact Or.inr ⟨_, .sender (senderStep_ack rfl) fun hnext => hnext rfl⟩
  | done _ _ => exact Or.inr ⟨_, .sender (senderStep_ack rfl) fun hnext => hnext rfl⟩
  | finished _ _ => exact Or.inl rfl

end Exchange

/-- What attaches has been delivered. -/
theorem Detached.Received.delivered {d det : Detached N E H} {m : ExtTreeMap H Ref}
    {requested : List H} (h : d.Received m det requested) (hto : det.attachesTo m = true) :
    Delivered d m det where
  current := h.current
  mem_iff _ := h.mem_iff hto
  record k hk := by
    obtain ⟨data, hdata⟩ := OrderedMap.mem_iff_exists.mp hk
    rw [hdata, (h.sound k data hdata).1]
  attachesTo := hto

/-! ### Stages -/

namespace Conversation

open Exchange

/-- What has arrived is what was sent, in the same order. -/
def Arrived (objects : List (Detached N E H)) (calls : List (ReceiveCall N E H))
    (inbox : List (Detached N E H)) : Prop :=
  ∀ i det, inbox[i]? = some det → ∃ (d : Detached N E H) (call : ReceiveCall N E H),
    objects[i]? = some d ∧ calls[i]? = some call ∧ Delivered d (call (inbox.take i)) det

/-- A bound on the steps of a transfer. -/
def transferSteps (d : Detached N E H) : ℕ :=
  (match d.allData[d.current]? with
    | some data => 2 * (mpiSend d.current data).length + 3
    | none => 0) + pending d []

/-- A bound on the steps of the transfers that have not begun. -/
def stepsToCome (objects : List (Detached N E H)) (sends : ℕ) : ℕ :=
  ((objects.drop (sends + 1)).map fun d => transferSteps d + 1).sum

/-- The states of a conversation, with a bound on the number of steps that are left. -/
inductive Stage (objects : List (Detached N E H)) (calls : List (ReceiveCall N E H)) :
    Conversation N E H → ℕ → Prop
  /-- Both processes are in the same call. -/
  | together {inbox : List (Detached N E H)} {d : Detached N E H} {call : ReceiveCall N E H}
      {x : Exchange N E H} {n : ℕ} (h : Arrived objects calls inbox)
      (hd : objects[inbox.length]? = some d) (hcall : calls[inbox.length]? = some call)
      (hx : Phase d (call inbox) x n) :
      Stage objects calls ⟨x, inbox.length, inbox⟩
        (n + stepsToCome objects inbox.length + (calls.length - inbox.length))
  /-- The receiver is in its next call, and `Done` is still on its way. -/
  | receiverAhead {inbox : List (Detached N E H)} {det : Detached N E H}
      {call : ReceiveCall N E H} (h : Arrived objects calls (inbox ++ [det]))
      (hcall : calls[inbox.length + 1]? = some call) :
      Stage objects calls
        ⟨⟨.sending [], .awaitRelRc none, .empty, .queued [.done], []⟩, inbox.length, inbox ++ [det]⟩
        (1 + stepsToCome objects inbox.length + (calls.length - (inbox.length + 1)))
  /-- The receiver is in its next call, the sender between two calls. -/
  | receiverWaits {inbox : List (Detached N E H)} {det : Detached N E H}
      {call : ReceiveCall N E H} (h : Arrived objects calls (inbox ++ [det]))
      (hcall : calls[inbox.length + 1]? = some call) :
      Stage objects calls
        ⟨⟨.finished, .awaitRelRc none, .empty, .empty, []⟩, inbox.length, inbox ++ [det]⟩
        (stepsToCome objects inbox.length + (calls.length - (inbox.length + 1)))
  /-- The sender is in its next call, the receiver between two calls. -/
  | senderAhead {inbox : List (Detached N E H)} {d det : Detached N E H}
      {data : DetachedInnerData N E H} {requested : List H}
      (inFlight rest : List (MPIMessage N E H)) (h : Arrived objects calls (inbox ++ [det]))
      (hd : objects[inbox.length + 1]? = some d) (hdata : d.allData[d.current]? = some data)
      (hsplit : mpiSend d.current data = inFlight ++ rest) (hmore : inFlight ++ rest ≠ []) :
      Stage objects calls
        ⟨⟨.sending rest, .finished det, .queued inFlight, .empty, requested⟩, inbox.length + 1,
          inbox⟩
        (2 * rest.length + inFlight.length + 3 + pending d [] +
          stepsToCome objects (inbox.length + 1) + (calls.length - inbox.length))

section Stages

variable {objects : List (Detached N E H)} {calls : List (ReceiveCall N E H)}
variable {inbox : List (Detached N E H)} {d det : Detached N E H} {call : ReceiveCall N E H}
variable {c c' : Conversation N E H} {n : ℕ} {buffered : Prop} {attaches : AttachOutcome N E H}

theorem Arrived.nil : Arrived objects calls [] := by
  intro i det h
  simp at h

/-- One more object has arrived. -/
theorem Arrived.concat (h : Arrived objects calls inbox) (hd : objects[inbox.length]? = some d)
    (hcall : calls[inbox.length]? = some call) (hdet : Delivered d (call inbox) det) :
    Arrived objects calls (inbox ++ [det]) := by
  intro i det' hi
  have hlt := (List.getElem?_eq_some_iff.mp hi).1
  rw [List.length_append, List.length_singleton] at hlt
  rcases Nat.lt_succ_iff_lt_or_eq.mp hlt with hlt | rfl
  · rw [List.getElem?_append_left hlt] at hi
    rw [List.take_append_of_le_length hlt.le]
    exact h i det' hi
  · rw [List.getElem?_concat_length] at hi
    obtain rfl := Option.some.inj hi
    rw [List.take_left]
    exact ⟨d, call, hd, hcall, hdet⟩

/-- The next transfer takes its share of the bound. -/
theorem stepsToCome_eq {sends : ℕ} (hd : objects[sends + 1]? = some d) :
    stepsToCome objects sends = transferSteps d + 1 + stepsToCome objects (sends + 1) := by
  obtain ⟨hlt, rfl⟩ := List.getElem?_eq_some_iff.mp hd
  rw [stepsToCome, List.drop_eq_getElem_cons hlt, List.map_cons, List.sum_cons]
  rfl

/-- What has arrived was sent by one call and received by another. -/
theorem Arrived.exists_call (h : Arrived objects calls (inbox ++ [det])) :
    inbox.length < objects.length ∧ inbox.length < calls.length := by
  obtain ⟨d, call, hd, hcall, -⟩ := h inbox.length det List.getElem?_concat_length
  exact ⟨(List.getElem?_eq_some_iff.mp hd).1, (List.getElem?_eq_some_iff.mp hcall).1⟩

/-- Both processes begin with their first transfer. -/
theorem Stage.start (hd : d.Complete) : ∃ n, Stage (d :: objects) (call :: calls) (start d) n := by
  obtain ⟨n, hphase⟩ := Phase.start hd (call [])
  have hnil : Arrived (d :: objects) (call :: calls) [] := Arrived.nil
  exact ⟨_, .together hnil rfl rfl hphase⟩

/-- Nobody has panicked over a message. -/
theorem Stage.not_panicked (h : Stage objects calls c n) (panic : TransferPanic) :
    c.exchange.sender ≠ .panicked panic ∧ c.exchange.receiver ≠ .panicked panic := by
  cases h with
  | together _ _ _ hx => exact hx.not_panicked panic
  | receiverAhead _ _ => exact ⟨nofun, nofun⟩
  | receiverWaits _ _ => exact ⟨nofun, nofun⟩
  | senderAhead _ _ _ _ _ _ _ => exact ⟨nofun, nofun⟩

/-- The first messages of the next object are sent while the receiver has not returned yet. -/
theorem Stage.of_sendNext {requested : List H} (h : Arrived objects calls (inbox ++ [det]))
    (hd : objects[inbox.length + 1]? = some d) (hcomplete : d.Complete) :
    Stage objects calls
      ⟨⟨Sender.send d d.current, .finished det, .empty, .empty, requested⟩, inbox.length + 1, inbox⟩
      (transferSteps d + stepsToCome objects (inbox.length + 1) +
        (calls.length - inbox.length)) := by
  obtain ⟨data, hdata⟩ := OrderedMap.mem_iff_exists.mp hcomplete.root
  rw [transferSteps, hdata, Sender.send, hdata]
  exact .senderAhead [] _ h hd hdata rfl (List.cons_ne_nil _ _)

/-- The next object is sent to a receiver that waits for it. -/
theorem Stage.of_waiting (h : Arrived objects calls inbox) (hd : objects[inbox.length]? = some d)
    (hcall : calls[inbox.length]? = some call) (hcomplete : d.Complete) :
    Stage objects calls
      ⟨⟨Sender.send d d.current, .awaitRelRc none, .empty, .empty, []⟩, inbox.length, inbox⟩
      (transferSteps d + stepsToCome objects inbox.length + (calls.length - inbox.length)) := by
  obtain ⟨data, hdata⟩ := OrderedMap.mem_iff_exists.mp hcomplete.root
  have hphase : Phase d (call inbox) _ _ := Phase.of_send .first hdata
  rw [transferSteps, hdata]
  exact .together h hd hcall hphase

/-- A step while both processes are in the same call. -/
theorem Stage.together_step {x : Exchange N E H} (hobjects : ∀ d ∈ objects, d.Complete)
    (h : Arrived objects calls inbox) (hd : objects[inbox.length]? = some d)
    (hcall : calls[inbox.length]? = some call) (hx : Phase d (call inbox) x n)
    (hstep : Step buffered attaches objects calls ⟨x, inbox.length, inbox⟩ c) :
    ∃ n' < n + stepsToCome objects inbox.length + (calls.length - inbox.length),
      Stage objects calls c n' := by
  have hlt := (List.getElem?_eq_some_iff.mp hcall).1
  cases hstep with
  | act hd' hcall' hact =>
    obtain rfl := Option.some.inj (hd.symm.trans hd')
    obtain rfl := Option.some.inj (hcall.symm.trans hcall')
    obtain ⟨n', hlt', hphase⟩ := hx.modeStep (hobjects d (List.mem_of_getElem? hd)) hact
    exact ⟨_, by omega, .together h hd hcall hphase⟩
  | @sendNext d' hfinished hd' =>
    replace hd' : objects[inbox.length + 1]? = some d' := hd'
    cases hx with
    | finished hdet hto =>
      refine ⟨_, ?_, .of_sendNext (h.concat hd hcall (hdet.delivered hto)) hd'
        (hobjects _ (List.mem_of_getElem? hd'))⟩
      rw [stepsToCome_eq hd']
      omega
    | _ => cases hfinished
  | receiveNext hfinished _ _ hcall' =>
    cases hx with
    | transfer consumed inFlight rest hk hdata hsplit hmore =>
      exact absurd hfinished (after_ne_finished hsplit hmore)
    | done hdet hto =>
      obtain rfl := Receiver.finished.inj hfinished
      exact ⟨_, by omega, .receiverAhead (h.concat hd hcall (hdet.delivered hto)) hcall'⟩
    | finished hdet hto =>
      obtain rfl := Receiver.finished.inj hfinished
      exact ⟨_, by omega, .receiverWaits (h.concat hd hcall (hdet.delivered hto)) hcall'⟩
    | _ => cases hfinished

/-- A receiver that is ahead waits; the sender takes `Done`. -/
theorem Stage.receiverAhead_step (h : Arrived objects calls (inbox ++ [det]))
    (hcall : calls[inbox.length + 1]? = some call)
    (hstep : Step buffered attaches objects calls
      ⟨⟨.sending [], .awaitRelRc none, .empty, .queued [.done], []⟩, inbox.length, inbox ++ [det]⟩
      c) :
    ∃ n' < 1 + stepsToCome objects inbox.length + (calls.length - (inbox.length + 1)),
      Stage objects calls c n' := by
  cases hstep with
  | act hd' hcall' hact =>
    cases hact with
    | sender hstep _ =>
      rw [senderStep_ack rfl] at hstep
      obtain rfl := Option.some.inj hstep
      exact ⟨_, by omega, .receiverWaits h hcall⟩
    | receiver hstep _ => cases hstep
    | toReceiver hsend _ _ _ _ => cases hsend
    | toSender hsend _ _ _ _ => cases hsend
  | sendNext hfinished _ => cases hfinished
  | receiveNext hfinished _ _ _ => cases hfinished

/-- A receiver that waits for the next object. -/
theorem Stage.receiverWaits_step (hobjects : ∀ d ∈ objects, d.Complete)
    (h : Arrived objects calls (inbox ++ [det])) (hcall : calls[inbox.length + 1]? = some call)
    (hstep : Step buffered attaches objects calls
      ⟨⟨.finished, .awaitRelRc none, .empty, .empty, []⟩, inbox.length, inbox ++ [det]⟩ c) :
    ∃ n' < stepsToCome objects inbox.length + (calls.length - (inbox.length + 1)),
      Stage objects calls c n' := by
  have hlength : (inbox ++ [det]).length = inbox.length + 1 := List.length_append
  cases hstep with
  | act hd' hcall' hact =>
    cases hact with
    | sender hstep _ => cases hstep
    | receiver hstep _ => cases hstep
    | toReceiver hsend _ _ _ _ => cases hsend
    | toSender hsend _ _ _ _ => cases hsend
  | @sendNext d' hfinished hd' =>
    replace hd' : objects[inbox.length + 1]? = some d' := hd'
    have hstage := Stage.of_waiting h (hlength ▸ hd') (hlength ▸ hcall)
      (hobjects _ (List.mem_of_getElem? hd'))
    rw [hlength] at hstage
    refine ⟨_, ?_, hstage⟩
    rw [stepsToCome_eq hd']
    omega
  | receiveNext hfinished _ _ _ => cases hfinished

/-- A sender that is ahead goes on until it needs an answer. -/
theorem Stage.senderAhead_step {data : DetachedInnerData N E H} {requested : List H}
    {inFlight rest : List (MPIMessage N E H)} (h : Arrived objects calls (inbox ++ [det]))
    (hd : objects[inbox.length + 1]? = some d) (hdata : d.allData[d.current]? = some data)
    (hsplit : mpiSend d.current data = inFlight ++ rest) (hmore : inFlight ++ rest ≠ [])
    (hstep : Step buffered attaches objects calls
      ⟨⟨.sending rest, .finished det, .queued inFlight, .empty, requested⟩, inbox.length + 1,
        inbox⟩ c) :
    ∃ n' < 2 * rest.length + inFlight.length + 3 + pending d [] +
        stepsToCome objects (inbox.length + 1) + (calls.length - inbox.length),
      Stage objects calls c n' := by
  have hlength : (inbox ++ [det]).length = inbox.length + 1 := List.length_append
  cases hstep with
  | act hd' hcall' hact =>
    cases hact with
    | sender hstep _ =>
      cases rest with
      | nil => cases hstep
      | cons msg rest =>
        rw [senderStep_send] at hstep
        obtain rfl := Option.some.inj hstep
        have hsplit' : mpiSend d.current data = (inFlight ++ [msg]) ++ rest := by simpa using hsplit
        refine ⟨_, ?_, .senderAhead _ rest h hd hdata hsplit' (by simp)⟩
        rw [List.length_append, List.length_singleton, List.length_cons]
        omega
    | receiver hstep _ => cases hstep
    | toReceiver _ _ hreceive _ _ => cases hreceive
    | toSender hsend _ _ _ _ => cases hsend
  | sendNext hfinished _ => cases hfinished
  | receiveNext hfinished _ _ hcall =>
    obtain rfl := Receiver.finished.inj hfinished
    have hlt : inbox.length + 1 < calls.length := (List.getElem?_eq_some_iff.mp hcall).1
    have hphase : ∀ m, Phase d m ⟨.sending rest, .awaitRelRc none, .queued inFlight, .empty, []⟩
        (2 * rest.length + inFlight.length + 3 + pending d []) :=
      fun m => Phase.transfer [] inFlight rest .first hdata hsplit hmore
    have hstage : Stage objects calls _ _ :=
      .together h (hlength ▸ hd) (hlength ▸ hcall) (hphase _)
    rw [hlength] at hstage
    exact ⟨_, by omega, hstage⟩

theorem Step.mono {c c' : Conversation N E H} (h : Step buffered attaches objects calls c c') :
    Step True attaches objects calls c c' := by
  cases h with
  | act hd hcall hact =>
    refine .act hd hcall ?_
    cases hact with
    | sender h _ => exact .sender h fun _ => trivial
    | receiver h _ => exact .receiver h fun _ => trivial
    | toReceiver h₁ h₂ h₃ h₄ h₅ => exact .toReceiver h₁ h₂ h₃ h₄ h₅
    | toSender h₁ h₂ h₃ h₄ h₅ => exact .toSender h₁ h₂ h₃ h₄ h₅
  | sendNext h hd => exact .sendNext h hd
  | receiveNext h hlast hattach hcall => exact .receiveNext h hlast hattach hcall

/-- **A step leads to a stage** with fewer steps left. -/
theorem Stage.lowers (hobjects : ∀ d ∈ objects, d.Complete) :
    Lowers (Step buffered attaches objects calls) (Stage objects calls) := by
  intro c n h c' hstep
  cases h with
  | together h hd hcall hx => exact Stage.together_step hobjects h hd hcall hx hstep
  | receiverAhead h hcall => exact Stage.receiverAhead_step h hcall hstep
  | receiverWaits h hcall => exact Stage.receiverWaits_step hobjects h hcall hstep
  | senderAhead inFlight rest h hd hdata hsplit hmore =>
    exact Stage.senderAhead_step h hd hdata hsplit hmore hstep

/-- What has been received has arrived in order. -/
theorem Stage.received (h : Stage objects calls c n) : Arrived objects calls c.received := by
  cases h with
  | @together inbox d call x n h hd hcall hx =>
    rw [Conversation.received]
    cases hx with
    | done hdet hto => exact h.concat hd hcall (hdet.delivered hto)
    | finished hdet hto => exact h.concat hd hcall (hdet.delivered hto)
    | transfer consumed inFlight rest hk hdata hsplit hmore =>
      split
      · rename_i det hreceiver
        exact absurd hreceiver (after_ne_finished hsplit hmore)
      · rwa [List.append_nil]
    | deciding _ => simpa using h
    | request _ _ => simpa using h
  | receiverAhead h _ => simpa [Conversation.received] using h
  | receiverWaits h _ => simpa [Conversation.received] using h
  | senderAhead _ _ h _ _ _ _ => exact h

/-- All calls that have a counterpart have been served, up to the last `attach`. -/
structure Done (objects : List (Detached N E H)) (calls : List (ReceiveCall N E H))
    (c : Conversation N E H) : Prop where
  received : c.received.length = min objects.length calls.length
  sender : objects.length ≤ calls.length →
    c.exchange.sender = .finished ∧ c.sends + 1 = objects.length

/-- Between two calls of `recv_relrc`, `attach` returns or panics. -/
theorem attachPanicked_or_receiveNext {call' : ReceiveCall N E H}
    (hfinished : c.exchange.receiver = .finished det) (hcall : calls[c.inbox.length]? = some call)
    (hcall' : calls[c.inbox.length + 1]? = some call') :
    c.AttachPanicked attaches calls ∨ ∃ c', Step False attaches objects calls c c' := by
  cases hattach : attaches det (call c.inbox) with
  | true => exact Or.inr ⟨_, .receiveNext hfinished hcall hattach hcall'⟩
  | false => exact Or.inl ⟨det, call, hfinished, hcall, hattach⟩

/-- **No process waits for the other in vain**, and no send needs a buffer. -/
theorem Stage.exists_step (h : Stage objects calls c n) :
    (Done objects calls c ∨ c.AttachPanicked attaches calls) ∨
      ∃ c', Step False attaches objects calls c c' := by
  cases h with
  | @together inbox d call x n h hd hcall hx =>
    rcases hx.exists_modeStep with hfinished | ⟨y, hact⟩
    · cases hx with
      | @finished det requested hdet hto =>
        have hlt := (List.getElem?_eq_some_iff.mp hd).1
        have hlt' := (List.getElem?_eq_some_iff.mp hcall).1
        cases hd' : objects[inbox.length + 1]? with
        | some d' => exact Or.inr ⟨_, .sendNext rfl hd'⟩
        | none =>
          cases hcall' : calls[inbox.length + 1]? with
          | some call' =>
            exact (attachPanicked_or_receiveNext rfl hcall hcall').imp_left Or.inr
          | none =>
            rw [List.getElem?_eq_none_iff] at hd' hcall'
            have hsends : inbox.length + 1 = objects.length := by omega
            refine Or.inl (Or.inl ⟨?_, fun _ => ⟨rfl, hsends⟩⟩)
            have hlength : (inbox ++ [det]).length = inbox.length + 1 := List.length_append
            exact hlength.trans (by omega)
      | _ => cases hfinished
    · exact Or.inr ⟨_, .act hd hcall hact⟩
  | @receiverAhead inbox det call h hcall =>
    obtain ⟨hlt, -⟩ := h.exists_call
    exact Or.inr ⟨_, .act (List.getElem?_eq_getElem hlt) (by simpa using hcall)
      (.sender (senderStep_ack rfl) fun hnext => hnext rfl)⟩
  | @receiverWaits inbox det call h hcall =>
    obtain ⟨hlt, -⟩ := h.exists_call
    have hlt' := (List.getElem?_eq_some_iff.mp hcall).1
    cases hd' : objects[inbox.length + 1]? with
    | some d' => exact Or.inr ⟨_, .sendNext rfl hd'⟩
    | none =>
      rw [List.getElem?_eq_none_iff] at hd'
      have hsends : inbox.length + 1 = objects.length := by omega
      refine Or.inl (Or.inl ⟨?_, fun _ => ⟨rfl, hsends⟩⟩)
      have hlength : (inbox ++ [det] ++ []).length = inbox.length + 1 := by simp
      exact hlength.trans (by omega)
  | @senderAhead inbox d det data requested inFlight rest h hd hdata hsplit hmore =>
    obtain ⟨-, hlt'⟩ := h.exists_call
    have hlt := (List.getElem?_eq_some_iff.mp hd).1
    cases hcall' : calls[inbox.length + 1]? with
    | some call' =>
      exact (attachPanicked_or_receiveNext rfl (List.getElem?_eq_getElem hlt') hcall').imp_left
        Or.inr
    | none =>
      rw [List.getElem?_eq_none_iff] at hcall'
      refine Or.inl (Or.inl ⟨?_, fun hle => absurd hle (by omega)⟩)
      have hlength : (inbox ++ [det]).length = inbox.length + 1 := List.length_append
      exact hlength.trans (by omega)

end Stages

end Conversation

/-! ### Conversations of programs -/

section Runs

variable [Inhabited H] {A : AddrSource} {K : KeySource} {P : State N E → Op N E → Prop}

/-- The record of a live object, in some state of some run. -/
def DetachedInRun (A : AddrSource) (K : KeySource) (P : State N E → Op N E → Prop)
    (hash : N → List (H × E) → H) (d : Detached N E H) : Prop :=
  ∃ s obj, Run A K P State.init s ∧ s.world.heap.Alive obj ∧
    s.world.heap.detach hash ∅ obj = some d

/-- The record of a live object has records of all its ancestors. -/
theorem DetachedInRun.complete {hash : N → List (H × E) → H} {d : Detached N E H}
    (h : DetachedInRun A K P hash d) : d.Complete := by
  obtain ⟨s, obj, hrun, hobj, hd⟩ := h
  have hi : Inv s.world s.held s.regs := Run.inv hrun State.inv_init
  obtain ⟨d', hd', hr⟩ := hi.heap.detach_records hash hobj ∅
  obtain rfl := Option.some.inj (hd'.symm.trans hd)
  exact hr.complete

/-- **Objects that are sent in a row are received in the same order**, by as many calls as there
are. Whatever the order of the steps and whichever sends are buffered, nobody panics over a message,
what has been received is what `recv_relrc` attaches (`Delivered`), the number of steps is bounded,
and without any further buffering the conversation goes on until an `attach` panics or every call
that has a counterpart has been served; the sender has then returned, unless it calls more often
than the receiver. -/
theorem conversation_of_runs (attaches : AttachOutcome N E H) {hash : N → List (H × E) → H}
    {d : Detached N E H} {objects : List (Detached N E H)} {call : ReceiveCall N E H}
    {calls : List (ReceiveCall N E H)}
    (hobjects : ∀ d' ∈ d :: objects, DetachedInRun A K P hash d') :
    (∃ bound, ∀ (f : ℕ → Conversation N E H) l, f 0 = Conversation.start d →
      (∀ i < l, Conversation.Step True attaches (d :: objects) (call :: calls) (f i) (f (i + 1))) →
        l ≤ bound) ∧
    ∀ c, Relation.ReflTransGen (Conversation.Step True attaches (d :: objects) (call :: calls))
      (Conversation.start d) c →
      (∀ panic, c.exchange.sender ≠ .panicked panic ∧ c.exchange.receiver ≠ .panicked panic) ∧
      Conversation.Arrived (d :: objects) (call :: calls) c.received ∧
      ∃ c', Relation.ReflTransGen
          (Conversation.Step False attaches (d :: objects) (call :: calls)) c c' ∧
        (Conversation.Done (d :: objects) (call :: calls) c' ∨
          c'.AttachPanicked attaches (call :: calls)) := by
  have hcomplete : ∀ d' ∈ d :: objects, d'.Complete := fun d' hd' => (hobjects d' hd').complete
  have hlowers : Lowers (Conversation.Step True attaches (d :: objects) (call :: calls))
      (Conversation.Stage (d :: objects) (call :: calls)) := Conversation.Stage.lowers hcomplete
  obtain ⟨bound, hstart⟩ : ∃ n, Conversation.Stage (d :: objects) (call :: calls)
      (Conversation.start d) n := Conversation.Stage.start (hcomplete d List.mem_cons_self)
  refine ⟨⟨bound, fun f l hf hsteps => ?_⟩, fun c hc => ?_⟩
  · rw [← hf] at hstart
    exact hlowers.length_le hstart l hsteps
  · obtain ⟨n, -, hstage⟩ := hlowers.steps hstart hc
    refine ⟨hstage.not_panicked, hstage.received, ?_⟩
    exact hlowers.exists_steps (fun _ _ hstep => hstep.mono) (fun _ _ h => h.exists_step) hstage

end Runs

/-- A receiver that attaches to what earlier calls have returned; it owns nothing else. -/
def attachToEarlier : ReceiveCall ℕ ℕ ℕ :=
  fun inbox => ExtTreeMap.ofList (inbox.mapIdx fun i det => (det.current, i))

/-- The left side of a diamond, and then the diamond. -/
theorem conversation_of_runs_twoDiamonds :
    ∃ d d', twoDiamonds.world.heap.detach pairHash ∅ 5 = some d ∧
      twoDiamonds.world.heap.detach pairHash ∅ 3 = some d' ∧
      ∃ c : Conversation ℕ ℕ ℕ, c.received.length = 2 ∧ c.exchange.sender = .finished ∧
        Relation.ReflTransGen (Conversation.Step False (fun _ _ => true) [d, d']
          [attachToEarlier, attachToEarlier]) (Conversation.start d) c ∧
        Conversation.Arrived [d, d'] [attachToEarlier, attachToEarlier] c.received := by
  have hrun : Run AddrSource.lowest KeySource.reusing (fun _ _ => True) State.init twoDiamonds :=
    run_after (by decide +kernel) fun _ _ _ => trivial
  have hi : Inv twoDiamonds.world twoDiamonds.held twoDiamonds.regs := Run.inv hrun State.inv_init
  have halive : twoDiamonds.world.heap.Alive 5 := by decide +kernel
  have halive' : twoDiamonds.world.heap.Alive 3 := by decide +kernel
  obtain ⟨d, hd, -⟩ := hi.heap.detach_records pairHash halive ∅
  obtain ⟨d', hd', -⟩ := hi.heap.detach_records pairHash halive' ∅
  have hobjects : ∀ d'' ∈ [d, d'], DetachedInRun AddrSource.lowest KeySource.reusing
      (fun _ _ => True) pairHash d'' := by
    intro d'' hmem
    rcases List.mem_pair.mp hmem with rfl | rfl
    · exact ⟨twoDiamonds, 5, hrun, halive, hd⟩
    · exact ⟨twoDiamonds, 3, hrun, halive', hd'⟩
  have hreach := fun c => (@conversation_of_runs ℕ ℕ ℕ _ _ _ _ _ (fun _ _ => true) _ d [d']
    attachToEarlier [attachToEarlier] hobjects).2 c
  obtain ⟨-, -, c, hsteps, hdone | ⟨_, _, -, -, hfalse⟩⟩ := hreach _ .refl
  swap
  · cases hfalse
  obtain ⟨-, harrived, -⟩ := hreach c
    (Relation.ReflTransGen.mono (fun _ _ hstep => hstep.mono) _ _ hsteps)
  exact ⟨d, d', hd, hd', c, hdone.received, (hdone.sender le_rfl).1, hsteps, harrived⟩

end Relrc
