import Relrc.Detached.Conversation

/-!
# Both directions at once

At any one time there may be one active send and one active receive between two processes. The two
transfers share the channels: what the first process sends to the second are records of its own
objects, and requests for objects of the second. The tags keep them apart. A sender sends everything
but acknowledgements and reads nothing else, so a conversation depends only on its own part of the
channels (`Exchange.own`), and leaves the other part alone.

Hence two conversations in opposite directions do what each of them does alone (`duplex_of_runs`).
-/

namespace Relrc

open Std (ExtTreeMap)
open SlotStore Ancestry Ranked

variable {N E H : Type} {tag : MPIMessageTag} {msg : MPIMessage N E H} {c c' : Channel N E H}

/-! ### Parts of a channel -/

namespace Channel

/-- The messages of a sender. -/
def records (c : Channel N E H) : Channel N E H := fun tag => if tag = .ack then [] else c tag

/-- The messages of a receiver. -/
def acks (c : Channel N E H) : Channel N E H := fun tag => if tag = .ack then c tag else []

/-- The records in a channel are its messages under all tags but that of acknowledgements. -/
theorem records_congr (h : ∀ tag, tag ≠ .ack → c tag = c' tag) : c.records = c'.records := by
  funext tag
  rw [records, records]
  split_ifs with htag
  · rfl
  · exact h tag htag

theorem acks_congr (h : c .ack = c' .ack) : c.acks = c'.acks := by
  funext tag
  rw [acks, acks]
  split_ifs with htag
  · rw [htag, h]
  · rfl

/-- A message is queued under its own tag. -/
theorem send_of_ne (h : tag ≠ msg.tag) : (c.send msg) tag = c tag := by
  rw [send, Function.update_of_ne h]

/-- A message of a record is queued among the records. -/
theorem records_send (h : msg.tag ≠ .ack) : (c.send msg).records = c.records.send msg := by
  funext tag
  simp only [records, send, Function.update_apply]
  grind

/-- An acknowledgement is queued among the acknowledgements. -/
theorem acks_send (h : msg.tag = .ack) : (c.send msg).acks = c.acks.send msg := by
  funext tag
  simp only [acks, send, Function.update_apply]
  grind

/-- To receive a part of a record, the records suffice. -/
theorem receive_records (h : tag ≠ .ack) :
    c.records.receive tag = (c.receive tag).map fun res => (res.1, res.2.records) := by
  rw [receive, receive, records, if_neg h]
  cases c tag with
  | nil => rfl
  | cons msg msgs =>
    refine congrArg some (Prod.ext rfl (funext fun tag' => ?_))
    simp only [records, Function.update_apply]
    grind

/-- To receive an acknowledgement, the acknowledgements suffice. -/
theorem receive_acks :
    c.acks.receive .ack = (c.receive .ack).map fun res => (res.1, res.2.acks) := by
  rw [receive, receive, acks, if_pos rfl]
  cases c .ack with
  | nil => rfl
  | cons msg msgs =>
    refine congrArg some (Prod.ext rfl (funext fun tag' => ?_))
    simp only [acks, Function.update_apply]
    grind

theorem receive_of_ne {res : MPIMessage N E H × Channel N E H} (h : c.receive tag = some res)
    {tag' : MPIMessageTag} (hne : tag' ≠ tag) : res.2 tag' = c tag' := by
  rw [receive] at h
  split at h
  · rw [← Option.some.inj h]
    exact Function.update_of_ne hne _ _
  · cases h

end Channel

variable [LinearOrder H]

/-- `recv_relrc` waits for parts of records. -/
theorem Receiver.expects_ne_ack {r : Receiver N E H} (h : r.expects = some tag) : tag ≠ .ack := by
  cases r with
  | awaitRelRc _ | awaitNodeWeight _ _ | awaitIncomingEdge _ _ _ | awaitEdgeWeight _ _ _ _ _ =>
    rw [← Option.some.inj h]
    exact nofun
  | _ => cases h

/-- It sends acknowledgements. -/
theorem Receiver.tag_of_next {r : Receiver N E H} {m : ExtTreeMap H Ref}
    (h : r.next m = some msg) : msg.tag = .ack := by
  cases r with
  | deciding det =>
    rw [Receiver.next] at h
    split_ifs at h with hto
    · rw [← Option.some.inj h]
      rfl
    · obtain ⟨k, -, rfl⟩ := Option.map_eq_some_iff.mp h
      rfl
  | _ => cases h

/-! ### A party on its part of the channels -/

/-- The sender has no acknowledgements to send. -/
def Sender.Proper (s : Sender N E H) : Prop :=
  ∀ msgs, s = .sending msgs → ∀ msg ∈ msgs, msg.tag ≠ .ack

theorem Sender.proper_send (d : Detached N E H) (k : H) : (Sender.send d k).Proper := by
  intro msgs hsend msg hmem
  rw [Sender.send] at hsend
  split at hsend
  · rw [← Sender.sending.inj hsend] at hmem
    simp only [mpiSend, List.mem_append, List.mem_cons, List.not_mem_nil, or_false,
      List.mem_map] at hmem
    rcases hmem with (rfl | rfl | rfl) | ⟨pe, -, rfl⟩ <;> intro htag <;> cases htag
  · cases hsend

/-- `send_relrc` sends parts of records. -/
theorem Sender.proper_onAck (d : Detached N E H) (msg : MPIMessage N E H) :
    (Sender.onAck d msg).Proper := by
  cases msg with
  | requestRelRc k => exact Sender.proper_send d k
  | _ =>
    intro msgs hsend
    cases hsend

namespace Exchange

variable {d : Detached N E H} {m : ExtTreeMap H Ref} {x y : Exchange N E H} {buffered : Prop}

/-- The exchange, with only its own part of the channels. -/
def own (x : Exchange N E H) : Exchange N E H :=
  { x with toReceiver := x.toReceiver.records, toSender := x.toSender.acks }

/-- **A sender depends only on its own part of the channels.** -/
theorem senderStep_own (h : x.sender.Proper) : x.own.senderStep d = (x.senderStep d).map own := by
  obtain ⟨sender, receiver, toReceiver, toSender, requested⟩ := x
  cases sender with
  | sending msgs =>
    cases msgs with
    | cons msg msgs =>
      have htag : msg.tag ≠ .ack := h _ rfl msg List.mem_cons_self
      simp only [senderStep, own, Option.map_some, Channel.records_send htag]
    | nil =>
      simp only [senderStep, own, Channel.receive_acks, Option.map_map]
      rfl
  | _ => rfl

/-- **A receiver depends only on its own part of the channels.** -/
theorem receiverStep_own : x.own.receiverStep m = (x.receiverStep m).map own := by
  cases hexpects : x.receiver.expects with
  | some tag =>
    have htag := Receiver.expects_ne_ack hexpects
    rw [receiverStep_of_expects hexpects, receiverStep_of_expects (x := x.own) hexpects]
    simp only [own, Channel.receive_records htag, Option.map_map]
    rfl
  | none =>
    obtain ⟨sender, receiver, toReceiver, toSender, requested⟩ := x
    cases receiver with
    | deciding det =>
      have hsend : ∀ msg : MPIMessage N E H, msg.tag = .ack →
          toSender.acks.send msg = (toSender.send msg).acks := fun _ htag =>
        (Channel.acks_send htag).symm
      simp only [receiverStep, own]
      by_cases hto : det.attachesTo m = true
      · simp only [if_pos hto, hsend .done rfl]
        rfl
      · simp only [if_neg hto]
        cases det.requiredHashes.find? fun hash => !m.contains hash with
        | some k =>
          simp only [hsend (.requestRelRc k) rfl]
          rfl
        | none => rfl
    | finished _ => rfl
    | panicked _ => rfl
    | _ => cases hexpects

/-- The other part of the channels is left alone. -/
structure Leaves (x y : Exchange N E H) : Prop where
  toReceiver : y.toReceiver .ack = x.toReceiver .ack
  toSender : ∀ tag, tag ≠ .ack → y.toSender tag = x.toSender tag
  proper : y.sender.Proper

theorem Leaves.trans {z : Exchange N E H} (h : Leaves x y) (h' : Leaves y z) : Leaves x z :=
  ⟨h'.toReceiver.trans h.toReceiver,
    fun tag htag => (h'.toSender tag htag).trans (h.toSender tag htag), h'.proper⟩

/-- The sender sends parts of records, and takes an acknowledgement. -/
theorem leaves_senderStep (h : x.sender.Proper) (hstep : x.senderStep d = some y) : Leaves x y := by
  obtain ⟨sender, receiver, toReceiver, toSender, requested⟩ := x
  cases sender with
  | sending msgs =>
    cases msgs with
    | cons msg msgs =>
      have hmsgs := h _ rfl
      obtain rfl := Option.some.inj hstep
      refine ⟨Channel.send_of_ne (hmsgs msg List.mem_cons_self).symm, fun _ _ => rfl, ?_⟩
      intro msgs' heq msg' hmem
      rw [← Sender.sending.inj heq] at hmem
      exact hmsgs msg' (List.mem_cons_of_mem _ hmem)
    | nil =>
      obtain ⟨res, hres, rfl⟩ := Option.map_eq_some_iff.mp hstep
      exact ⟨rfl, fun tag htag => Channel.receive_of_ne hres htag, Sender.proper_onAck d res.1⟩
  | _ => cases hstep

/-- The receiver takes parts of records, and sends acknowledgements. -/
theorem leaves_receiverStep (h : x.sender.Proper) (hstep : x.receiverStep m = some y) :
    Leaves x y := by
  cases hexpects : x.receiver.expects with
  | some tag =>
    have htag := Receiver.expects_ne_ack hexpects
    rw [receiverStep_of_expects hexpects] at hstep
    obtain ⟨res, hres, rfl⟩ := Option.map_eq_some_iff.mp hstep
    exact ⟨Channel.receive_of_ne hres htag.symm, fun _ _ => rfl, h⟩
  | none =>
    obtain ⟨sender, receiver, toReceiver, toSender, requested⟩ := x
    cases receiver with
    | deciding det =>
      simp only [receiverStep] at hstep
      by_cases hto : det.attachesTo m = true
      · rw [if_pos hto] at hstep
        obtain rfl := Option.some.inj hstep
        exact ⟨rfl, fun tag htag => Channel.send_of_ne htag, h⟩
      · rw [if_neg hto] at hstep
        split at hstep
        · obtain rfl := Option.some.inj hstep
          exact ⟨rfl, fun tag htag => Channel.send_of_ne htag, h⟩
        · obtain rfl := Option.some.inj hstep
          exact ⟨rfl, fun _ _ => rfl, h⟩
    | finished _ => cases hstep
    | panicked _ => cases hstep
    | _ => cases hexpects

/-- A step of an exchange leaves the other part of the channels alone. -/
theorem ModeStep.leaves (h : x.sender.Proper) (hstep : ModeStep buffered d m x y) : Leaves x y := by
  cases hstep with
  | sender hstep _ => exact leaves_senderStep h hstep
  | receiver hstep _ => exact leaves_receiverStep h hstep
  | toReceiver _ _ _ hstep hstep' =>
    have hleaves := leaves_senderStep h hstep
    exact hleaves.trans (leaves_receiverStep hleaves.proper hstep')
  | toSender _ _ _ hstep hstep' =>
    have hleaves := leaves_receiverStep h hstep
    exact hleaves.trans (leaves_senderStep hleaves.proper hstep')

/-- What the sender hands over is no acknowledgement. -/
theorem tag_ne_ack_of_next (h : x.sender.Proper) (hnext : x.sender.next = some msg) :
    msg.tag ≠ .ack := by
  cases hsender : x.sender with
  | sending msgs =>
    rw [hsender] at hnext
    cases msgs with
    | cons msg' msgs =>
      obtain rfl := Option.some.inj hnext
      exact h _ hsender msg' List.mem_cons_self
    | nil => cases hnext
  | _ =>
    rw [hsender] at hnext
    cases hnext

/-- A step is a step on the own part of the channels. -/
theorem ModeStep.own (h : x.sender.Proper) (hstep : ModeStep buffered d m x y) :
    ModeStep buffered d m x.own y.own := by
  cases hstep with
  | sender hstep hb => exact .sender (by rw [senderStep_own h, hstep]; rfl) hb
  | receiver hstep hb => exact .receiver (by rw [receiverStep_own, hstep]; rfl) hb
  | @toReceiver z _ msg hsend hfree hreceive hstep hstep' =>
    have hown : x.own.senderStep d = some z.own := by rw [senderStep_own h, hstep]; rfl
    refine .toReceiver hsend ?_ hreceive hown (by rw [receiverStep_own, hstep']; rfl)
    exact (if_neg (tag_ne_ack_of_next h hsend)).trans hfree
  | @toSender z _ msg hsend hfree hreceive hstep hstep' =>
    have hown : x.own.receiverStep m = some z.own := by rw [receiverStep_own, hstep]; rfl
    have hproper := (leaves_receiverStep h hstep).proper
    refine .toSender hsend ?_ hreceive hown (by rw [senderStep_own hproper, hstep']; rfl)
    exact (if_pos (Receiver.tag_of_next hsend)).trans hfree

/-- What is possible on the own part of the channels is possible on all of them. -/
theorem ModeStep.of_own (h : x.sender.Proper) (hstep : ModeStep buffered d m x.own y) :
    ∃ z, ModeStep buffered d m x z ∧ z.own = y := by
  cases hstep with
  | sender hstep hb =>
    rw [senderStep_own h] at hstep
    obtain ⟨z, hz, hown⟩ := Option.map_eq_some_iff.mp hstep
    exact ⟨z, .sender hz hb, hown⟩
  | receiver hstep hb =>
    rw [receiverStep_own] at hstep
    obtain ⟨z, hz, hown⟩ := Option.map_eq_some_iff.mp hstep
    exact ⟨z, .receiver hz hb, hown⟩
  | @toReceiver _ _ msg hsend hfree hreceive hstep hstep' =>
    rw [senderStep_own h] at hstep
    obtain ⟨z, hz, rfl⟩ := Option.map_eq_some_iff.mp hstep
    rw [receiverStep_own] at hstep'
    obtain ⟨z', hz', hown⟩ := Option.map_eq_some_iff.mp hstep'
    refine ⟨z', .toReceiver hsend ?_ hreceive hz hz', hown⟩
    exact (if_neg (tag_ne_ack_of_next h hsend)).symm.trans hfree
  | @toSender _ _ msg hsend hfree hreceive hstep hstep' =>
    rw [receiverStep_own] at hstep
    obtain ⟨z, hz, rfl⟩ := Option.map_eq_some_iff.mp hstep
    rw [senderStep_own (leaves_receiverStep h hz).proper] at hstep'
    obtain ⟨z', hz', hown⟩ := Option.map_eq_some_iff.mp hstep'
    refine ⟨z', .toSender hsend ?_ hreceive hz hz', hown⟩
    exact (if_pos (Receiver.tag_of_next hsend)).symm.trans hfree

end Exchange

/-! ### A conversation on its part of the channels -/

namespace Conversation

variable {buffered : Prop} {attaches : AttachOutcome N E H} {objects : List (Detached N E H)}
variable {calls : List (ReceiveCall N E H)} {a b : Conversation N E H}

/-- The conversation, with only its own part of the channels. -/
def own (a : Conversation N E H) : Conversation N E H := { a with exchange := a.exchange.own }

/-- A step of a conversation leaves the other part of the channels alone. -/
theorem Step.leaves (h : a.exchange.sender.Proper)
    (hstep : Step buffered attaches objects calls a b) : a.exchange.Leaves b.exchange := by
  cases hstep with
  | act _ _ hact => exact hact.leaves h
  | sendNext _ _ => exact ⟨rfl, fun _ _ => rfl, Sender.proper_send _ _⟩
  | receiveNext _ _ _ _ => exact ⟨rfl, fun _ _ => rfl, h⟩

/-- The step can be made on the own part of the channels. -/
theorem Step.own (h : a.exchange.sender.Proper)
    (hstep : Step buffered attaches objects calls a b) :
    Step buffered attaches objects calls a.own b.own := by
  cases hstep with
  | act hd hcall hact => exact .act hd hcall (hact.own h)
  | sendNext hfinished hd => exact .sendNext (c := a.own) hfinished hd
  | receiveNext hfinished hlast hattach hcall =>
    exact .receiveNext (c := a.own) hfinished hlast hattach hcall

/-- What can be done on the own part can be done on all of the channels. -/
theorem Step.of_own (h : a.exchange.sender.Proper)
    (hstep : Step buffered attaches objects calls a.own b) :
    ∃ b', Step buffered attaches objects calls a b' := by
  cases hstep with
  | act hd hcall hact =>
    obtain ⟨z, hz, -⟩ := Exchange.ModeStep.of_own h hact
    exact ⟨_, .act hd hcall hz⟩
  | sendNext hfinished hd => exact ⟨_, .sendNext hfinished hd⟩
  | receiveNext hfinished hlast hattach hcall =>
    exact ⟨_, .receiveNext hfinished hlast hattach hcall⟩

/-- Changes on the other part are not seen. -/
theorem own_onChannels {toReceiver toSender : Channel N E H}
    (h : ∀ tag, tag ≠ .ack → toReceiver tag = a.exchange.toReceiver tag)
    (h' : toSender .ack = a.exchange.toSender .ack) :
    (a.onChannels toReceiver toSender).own = a.own := by
  simp only [own, onChannels, Exchange.own, Channel.records_congr h, Channel.acks_congr h']

end Conversation

/-! ### Two conversations -/

namespace Duplex

variable {buffered : Prop} {attaches₁ attaches₂ : AttachOutcome N E H}
variable {objects₁ objects₂ : List (Detached N E H)}
variable {calls₁ calls₂ : List (ReceiveCall N E H)} {x y : Duplex N E H} {n : ℕ}

/-- The conversations are on the same channels, and each of them is in a stage of its own. -/
structure Stages (objects₁ objects₂ : List (Detached N E H))
    (calls₁ calls₂ : List (ReceiveCall N E H)) (x : Duplex N E H) (n : ℕ) : Prop where
  toSecond : x.second.exchange.toSender = x.first.exchange.toReceiver
  toFirst : x.second.exchange.toReceiver = x.first.exchange.toSender
  proper₁ : x.first.exchange.sender.Proper
  proper₂ : x.second.exchange.sender.Proper
  stages : ∃ n₁ n₂, n = n₁ + n₂ ∧ Conversation.Stage objects₁ calls₁ x.first.own n₁ ∧
    Conversation.Stage objects₂ calls₂ x.second.own n₂

/-- Both conversations begin with empty channels. -/
theorem Stages.start {d₁ d₂ : Detached N E H} {call₁ call₂ : ReceiveCall N E H}
    (hd₁ : d₁.Complete) (hd₂ : d₂.Complete) :
    ∃ n, Stages (d₁ :: objects₁) (d₂ :: objects₂) (call₁ :: calls₁) (call₂ :: calls₂)
      (start d₁ d₂) n := by
  have hown : ∀ d : Detached N E H, (Conversation.start d).own = Conversation.start d := by
    intro d
    have hrecords : (Channel.empty : Channel N E H).records = Channel.empty :=
      funext fun tag => ite_self _
    have hacks : (Channel.empty : Channel N E H).acks = Channel.empty :=
      funext fun tag => ite_self _
    simp only [Conversation.own, Conversation.start, Exchange.own, Exchange.start, hrecords, hacks]
  obtain ⟨n₁, h₁⟩ : ∃ n, Conversation.Stage (d₁ :: objects₁) (call₁ :: calls₁)
      (Conversation.start d₁) n := Conversation.Stage.start hd₁
  obtain ⟨n₂, h₂⟩ : ∃ n, Conversation.Stage (d₂ :: objects₂) (call₂ :: calls₂)
      (Conversation.start d₂) n := Conversation.Stage.start hd₂
  exact ⟨_, rfl, rfl, Sender.proper_send _ _, Sender.proper_send _ _, n₁, n₂, rfl,
    (hown d₁).symm ▸ h₁, (hown d₂).symm ▸ h₂⟩

/-- **A step of one conversation is none of the other**: this one sees no change. -/
theorem Stages.lowers (h₁ : ∀ d ∈ objects₁, d.Complete) (h₂ : ∀ d ∈ objects₂, d.Complete) :
    Lowers (Step buffered attaches₁ attaches₂ objects₁ objects₂ calls₁ calls₂)
      (Stages objects₁ objects₂ calls₁ calls₂) := by
  rintro x n ⟨hto, hfrom, hp₁, hp₂, n₁, n₂, rfl, hs₁, hs₂⟩ y hstep
  cases hstep with
  | first hstep =>
    have hleaves := hstep.leaves hp₁
    obtain ⟨n', hlt, hs⟩ := Conversation.Stage.lowers h₁ hs₁ (hstep.own hp₁)
    refine ⟨n' + n₂, by omega, rfl, rfl, hleaves.proper, hp₂, n', n₂, rfl, hs, ?_⟩
    rw [Conversation.own_onChannels]
    · exact hs₂
    · exact fun tag htag => (hleaves.toSender tag htag).trans (congrFun hfrom tag).symm
    · exact hleaves.toReceiver.trans (congrFun hto .ack).symm
  | second hstep =>
    have hleaves := hstep.leaves hp₂
    obtain ⟨n', hlt, hs⟩ := Conversation.Stage.lowers h₂ hs₂ (hstep.own hp₂)
    refine ⟨n₁ + n', by omega, rfl, rfl, hp₁, hleaves.proper, n₁, n', rfl, ?_, hs⟩
    rw [Conversation.own_onChannels]
    · exact hs₁
    · exact fun tag htag => (hleaves.toSender tag htag).trans (congrFun hto tag)
    · exact hleaves.toReceiver.trans (congrFun hfrom .ack)

theorem Step.mono (h : Step buffered attaches₁ attaches₂ objects₁ objects₂ calls₁ calls₂ x y) :
    Step True attaches₁ attaches₂ objects₁ objects₂ calls₁ calls₂ x y := by
  cases h with
  | first h => exact .first h.mono
  | second h => exact .second h.mono

/-- Both conversations have come to their ends. -/
def Ended (attaches₁ attaches₂ : AttachOutcome N E H) (objects₁ objects₂ : List (Detached N E H))
    (calls₁ calls₂ : List (ReceiveCall N E H)) (x : Duplex N E H) : Prop :=
  (Conversation.Done objects₁ calls₁ x.first ∨ x.first.AttachPanicked attaches₁ calls₁) ∧
    (Conversation.Done objects₂ calls₂ x.second ∨ x.second.AttachPanicked attaches₂ calls₂)

/-- **Neither conversation waits for the other one.** -/
theorem Stages.exists_step (h : Stages objects₁ objects₂ calls₁ calls₂ x n) :
    Ended attaches₁ attaches₂ objects₁ objects₂ calls₁ calls₂ x ∨
      ∃ y, Step False attaches₁ attaches₂ objects₁ objects₂ calls₁ calls₂ x y := by
  obtain ⟨-, -, hp₁, hp₂, n₁, n₂, -, hs₁, hs₂⟩ := h
  rcases hs₁.exists_step with hdone₁ | ⟨c, hc⟩
  · rcases hs₂.exists_step with hdone₂ | ⟨c, hc⟩
    · -- what is on the other part of the channels makes no difference
      exact Or.inl ⟨hdone₁.imp_left fun h => ⟨h.received, h.sender⟩,
        hdone₂.imp_left fun h => ⟨h.received, h.sender⟩⟩
    · obtain ⟨c', hc'⟩ := Conversation.Step.of_own hp₂ hc
      exact Or.inr ⟨_, .second hc'⟩
  · obtain ⟨c', hc'⟩ := Conversation.Step.of_own hp₁ hc
    exact Or.inr ⟨_, .first hc'⟩

end Duplex

/-! ### Two programs -/

section Runs

variable [Inhabited H] {A B : AddrSource} {K L : KeySource} {P Q : State N E → Op N E → Prop}

/-- **Two processes send to each other at the same time**, over the same channels. Whatever the
order of the steps and whichever sends are buffered, nobody panics over a message, the number of
steps is bounded, each process has received what the other one has sent to it, in order, and both
conversations go on to their ends, or to an `attach` that panics, without any further buffering if
the two calls in a process do not block each other. -/
theorem duplex_of_runs (attaches₁ attaches₂ : AttachOutcome N E H)
    {hash : N → List (H × E) → H} {d₁ d₂ : Detached N E H}
    {objects₁ objects₂ : List (Detached N E H)} {call₁ call₂ : ReceiveCall N E H}
    {calls₁ calls₂ : List (ReceiveCall N E H)}
    (hobjects₁ : ∀ d ∈ d₁ :: objects₁, DetachedInRun A K P hash d)
    (hobjects₂ : ∀ d ∈ d₂ :: objects₂, DetachedInRun B L Q hash d) :
    (∃ bound, ∀ (f : ℕ → Duplex N E H) l, f 0 = Duplex.start d₁ d₂ →
      (∀ i < l, Duplex.Step True attaches₁ attaches₂ (d₁ :: objects₁) (d₂ :: objects₂)
        (call₁ :: calls₁) (call₂ :: calls₂) (f i) (f (i + 1))) → l ≤ bound) ∧
    ∀ x, Relation.ReflTransGen (Duplex.Step True attaches₁ attaches₂ (d₁ :: objects₁)
      (d₂ :: objects₂) (call₁ :: calls₁) (call₂ :: calls₂)) (Duplex.start d₁ d₂) x →
      (∀ panic, (x.first.exchange.sender ≠ .panicked panic ∧
          x.first.exchange.receiver ≠ .panicked panic) ∧
        x.second.exchange.sender ≠ .panicked panic ∧
          x.second.exchange.receiver ≠ .panicked panic) ∧
      Conversation.Arrived (d₁ :: objects₁) (call₁ :: calls₁) x.first.received ∧
      Conversation.Arrived (d₂ :: objects₂) (call₂ :: calls₂) x.second.received ∧
      ∃ y, Relation.ReflTransGen (Duplex.Step False attaches₁ attaches₂ (d₁ :: objects₁)
          (d₂ :: objects₂) (call₁ :: calls₁) (call₂ :: calls₂)) x y ∧
        y.Ended attaches₁ attaches₂ (d₁ :: objects₁) (d₂ :: objects₂) (call₁ :: calls₁)
          (call₂ :: calls₂) := by
  have hcomplete₁ : ∀ d ∈ d₁ :: objects₁, d.Complete := fun d hd => (hobjects₁ d hd).complete
  have hcomplete₂ : ∀ d ∈ d₂ :: objects₂, d.Complete := fun d hd => (hobjects₂ d hd).complete
  have hlowers : Lowers
      (Duplex.Step True attaches₁ attaches₂ (d₁ :: objects₁) (d₂ :: objects₂) (call₁ :: calls₁)
        (call₂ :: calls₂))
      (Duplex.Stages (d₁ :: objects₁) (d₂ :: objects₂) (call₁ :: calls₁) (call₂ :: calls₂)) :=
    Duplex.Stages.lowers hcomplete₁ hcomplete₂
  obtain ⟨bound, hstart⟩ : ∃ n, Duplex.Stages (d₁ :: objects₁) (d₂ :: objects₂) (call₁ :: calls₁)
      (call₂ :: calls₂) (Duplex.start d₁ d₂) n :=
    Duplex.Stages.start (hcomplete₁ d₁ List.mem_cons_self) (hcomplete₂ d₂ List.mem_cons_self)
  refine ⟨⟨bound, fun f l hf hsteps => ?_⟩, fun x hx => ?_⟩
  · rw [← hf] at hstart
    exact hlowers.length_le hstart l hsteps
  · obtain ⟨n, -, hstages⟩ := hlowers.steps hstart hx
    obtain ⟨n₁, n₂, -, hs₁, hs₂⟩ := hstages.stages
    exact ⟨fun panic => ⟨hs₁.not_panicked panic, hs₂.not_panicked panic⟩, hs₁.received,
      hs₂.received, hlowers.exists_steps (fun _ _ hstep => hstep.mono)
        (fun _ _ h => h.exists_step) hstages⟩

end Runs

/-- A diamond is sent for a left side. -/
theorem duplex_of_runs_leftSide :
    ∃ d d', twoDiamonds.world.heap.detach pairHash ∅ 3 = some d ∧
      leftSide.world.heap.detach pairHash ∅ 1 = some d' ∧
      ∃ y : Duplex ℕ ℕ ℕ, Relation.ReflTransGen (Duplex.Step False (fun _ _ => true)
          (fun _ _ => true) [d] [d'] [attachToEarlier] [attachToEarlier]) (Duplex.start d d') y ∧
        y.first.received.length = 1 ∧ y.second.received.length = 1 ∧
        Conversation.Arrived [d] [attachToEarlier] y.first.received ∧
        Conversation.Arrived [d'] [attachToEarlier] y.second.received := by
  have hrun : Run AddrSource.lowest KeySource.reusing (fun _ _ => True) State.init twoDiamonds :=
    run_after (by decide +kernel) fun _ _ _ => trivial
  have hrun' : Run AddrSource.lowest KeySource.reusing (fun _ _ => True) State.init leftSide :=
    run_after (by decide +kernel) fun _ _ _ => trivial
  have hi : Inv twoDiamonds.world twoDiamonds.held twoDiamonds.regs := Run.inv hrun State.inv_init
  have hi' : Inv leftSide.world leftSide.held leftSide.regs := Run.inv hrun' State.inv_init
  have halive : twoDiamonds.world.heap.Alive 3 := by decide +kernel
  have halive' : leftSide.world.heap.Alive 1 := by decide +kernel
  obtain ⟨d, hd, -⟩ := hi.heap.detach_records pairHash halive ∅
  obtain ⟨d', hd', -⟩ := hi'.heap.detach_records pairHash halive' ∅
  have hobjects : ∀ a ∈ [d], DetachedInRun AddrSource.lowest KeySource.reusing (fun _ _ => True)
      pairHash a := by
    rintro a hmem
    obtain rfl := List.mem_singleton.mp hmem
    exact ⟨twoDiamonds, 3, hrun, halive, hd⟩
  have hobjects' : ∀ a ∈ [d'], DetachedInRun AddrSource.lowest KeySource.reusing
      (fun _ _ => True) pairHash a := by
    rintro a hmem
    obtain rfl := List.mem_singleton.mp hmem
    exact ⟨leftSide, 1, hrun', halive', hd'⟩
  have hreach := fun x => (@duplex_of_runs ℕ ℕ ℕ _ _ _ _ _ _ _ _ (fun _ _ => true)
    (fun _ _ => true) _ d d' [] [] attachToEarlier attachToEarlier [] [] hobjects hobjects').2 x
  obtain ⟨-, -, -, y, hsteps, hdone | ⟨_, _, -, -, hfalse⟩, hdone' | ⟨_, _, -, -, hfalse⟩⟩ :=
    hreach _ .refl
  rotate_left
  · cases hfalse
  · cases hfalse
  · cases hfalse
  obtain ⟨-, harrived, harrived', -⟩ := hreach y
    (Relation.ReflTransGen.mono (fun _ _ hstep => hstep.mono) _ _ hsteps)
  exact ⟨d, d', hd, hd', y, hsteps, hdone.received, hdone'.received, harrived, harrived'⟩

end Relrc
