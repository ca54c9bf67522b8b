import Relrc.Lib.Ranked
import Relrc.Model.WireExchange
import Relrc.Detached.Conversation

/-!
# Which objects get through on the wire

The exchange of messages is that of `Exchange.Step`, with one exception: a request for the object
with the hash zero arrives as `Done`. The sender then returns, and the receiver waits for ever. So
an object gets through if and only if no object that has to be requested has the hash zero
(`wire_exchange_of_run`); the object itself is sent without being requested, and may have it.
-/

namespace Relrc

open Std (ExtTreeMap)
open SlotStore Ancestry Ranked OrderedMap

variable {N E H : Type} [LinearOrder H]

/-! ### What has not been sent -/

/-- The receiver has no record of an object, and is not receiving one. -/
def Receiver.Lacks (z : H) : Receiver N E H → Prop
  | .deciding det => z ∉ det.allData
  | .awaitRelRc prior => ∀ det ∈ prior, z ∉ det.allData
  | .awaitNodeWeight prior hash => hash ≠ z ∧ ∀ det ∈ prior, z ∉ det.allData
  | .awaitIncomingEdge prior hash _ => hash ≠ z ∧ ∀ det ∈ prior, z ∉ det.allData
  | .awaitEdgeWeight prior hash _ _ _ => hash ≠ z ∧ ∀ det ∈ prior, z ∉ det.allData
  | .finished det => z ∉ det.allData
  | .panicked _ => True

namespace Exchange

variable {d : Detached N E H} {m : ExtTreeMap H Ref} {x y : Exchange N E H} {n : ℕ} {z : H}

/-- No record of an object is at the receiver or on its way. -/
structure Lacks (z : H) (x : Exchange N E H) : Prop where
  sender : ∀ msgs, x.sender = .sending msgs → .relRc z ∉ msgs
  inFlight : ∀ tag, .relRc z ∉ x.toReceiver tag
  receiver : x.receiver.Lacks z

omit [LinearOrder H] in
/-- A record is announced under its own hash. -/
theorem relRc_notMem_mpiSend {k : H} {data : DetachedInnerData N E H} (h : k ≠ z) :
    .relRc z ∉ mpiSend k data := by
  simp [mpiSend, Ne.symm h]

theorem lacks_send {k : H} (h : k ≠ z) :
    ∀ msgs, Sender.send d k = .sending msgs → .relRc z ∉ msgs := by
  intro msgs hsend
  rw [Sender.send] at hsend
  split at hsend
  · rw [← Sender.sending.inj hsend]
    exact relRc_notMem_mpiSend h
  · cases hsend

/-- At first there is only what is sent unasked. -/
theorem Lacks.start (h : z ≠ d.current) : (start d).Lacks z where
  sender := lacks_send h.symm
  inFlight _ := List.not_mem_nil
  receiver := by simp [Exchange.start, Receiver.Lacks]

/-- The sender sends an object only when it is asked for it. -/
theorem Lacks.senderStep (h : x.Lacks z) (hask : .requestRelRc z ∉ x.toSender .ack)
    (hstep : x.senderStep d = some y) : y.Lacks z := by
  obtain ⟨sender, receiver, toReceiver, toSender, requested⟩ := x
  obtain ⟨hsender, hflight, hreceiver⟩ := h
  cases sender with
  | sending msgs =>
    have hmsgs := hsender msgs rfl
    cases msgs with
    | cons msg msgs =>
      obtain rfl := Option.some.inj hstep
      obtain ⟨hne, hrest⟩ := not_or.mp fun hmem => hmsgs (List.mem_cons.mpr hmem)
      refine ⟨fun msgs' heq => ?_, fun tag => ?_, hreceiver⟩
      · rw [← Sender.sending.inj heq]
        exact hrest
      · simp only [Channel.send, Function.update_apply]
        split_ifs with htag
        · simpa [← htag, hne] using hflight tag
        · exact hflight tag
    | nil =>
      obtain ⟨⟨msg, rest⟩, hres, rfl⟩ := Option.map_eq_some_iff.mp hstep
      refine ⟨fun msgs heq => ?_, hflight, hreceiver⟩
      -- the message that is read is in the queue
      have hmem : msg ∈ toSender .ack := by
        simp only [Channel.receive] at hres
        split at hres
        · rename_i hqueue
          rw [hqueue, ← (Prod.mk.inj (Option.some.inj hres)).1]
          exact List.mem_cons_self
        · cases hres
      cases msg with
      | requestRelRc k =>
        have hne : k ≠ z := by
          rintro rfl
          exact hask hmem
        exact lacks_send hne msgs heq
      | _ => cases heq
  | _ => cases hstep

/-- The record of another object is none of this one. -/
theorem lacks_collect {prior : Option (Detached N E H)} {k : H} (hk : k ≠ z)
    (hprior : ∀ det ∈ prior, z ∉ det.allData) (value : N) (hashes : List H)
    (incoming : List (H × E)) : (Receiver.collect prior k value hashes incoming).Lacks z := by
  cases hashes with
  | cons _ _ => exact ⟨hk, hprior⟩
  | nil =>
    rw [Receiver.collect, Receiver.Lacks]
    cases prior with
    | none => simp [insertReceived, hk]
    | some det => simpa [insertReceived, hk] using hprior det rfl

theorem lacks_onMessage {r : Receiver N E H} {msg : MPIMessage N E H} (h : r.Lacks z)
    (hmsg : msg ≠ .relRc z) : (r.onMessage msg).Lacks z := by
  cases r with
  | awaitRelRc prior =>
    cases msg with
    | relRc k => exact ⟨fun hk => hmsg (hk ▸ rfl), h⟩
    | _ => trivial
  | awaitNodeWeight prior hash =>
    cases msg with
    | nodeWeight value => exact h
    | _ => trivial
  | awaitIncomingEdge prior hash value =>
    cases msg with
    | incomingEdge hashes => exact lacks_collect h.1 h.2 value hashes []
    | _ => trivial
  | awaitEdgeWeight prior hash value hashes incoming =>
    cases hashes with
    | nil => trivial
    | cons source hashes =>
      cases msg with
      | edgeWeight weight => exact lacks_collect h.1 h.2 value hashes _
      | _ => trivial
  | _ => trivial

/-- The receiver makes no records up. -/
theorem Lacks.receiverStep (h : x.Lacks z) (hstep : x.receiverStep m = some y) : y.Lacks z := by
  obtain ⟨hsender, hflight, hreceiver⟩ := h
  have hmessage : ∀ tag, x.receiver.expects = some tag → y.Lacks z := by
    intro tag hexpects
    rw [receiverStep_of_expects hexpects] at hstep
    obtain ⟨⟨msg, rest⟩, hres, rfl⟩ := Option.map_eq_some_iff.mp hstep
    simp only [Channel.receive] at hres
    split at hres
    · rename_i msgs hqueue
      obtain ⟨rfl, rfl⟩ := Prod.mk.inj (Option.some.inj hres)
      have hmem := hflight tag
      rw [hqueue] at hmem
      obtain ⟨hne, hrest⟩ := not_or.mp fun hmem' => hmem (List.mem_cons.mpr hmem')
      refine ⟨hsender, fun tag' => ?_, lacks_onMessage hreceiver (Ne.symm hne)⟩
      simp only [Function.update_apply]
      split_ifs
      · exact hrest
      · exact hflight tag'
    · cases hres
  obtain ⟨sender, receiver, toReceiver, toSender, requested⟩ := x
  cases receiver with
  | deciding det =>
    simp only [Exchange.receiverStep] at hstep
    split_ifs at hstep with hto
    · obtain rfl := Option.some.inj hstep
      exact ⟨hsender, hflight, hreceiver⟩
    · split at hstep
      · obtain rfl := Option.some.inj hstep
        refine ⟨hsender, hflight, fun det' hdet' => ?_⟩
        rw [← Option.some.inj hdet']
        exact hreceiver
      · obtain rfl := Option.some.inj hstep
        exact ⟨hsender, hflight, trivial⟩
  | finished _ => cases hstep
  | panicked _ => cases hstep
  | _ => exact hmessage _ rfl

end Exchange

/-! ### The wire carries the exchange -/

theorem MPIMessageTag.toInt32_injective : Function.Injective MPIMessageTag.toInt32 := by
  intro a b heq
  have h := MPIMessageTag.tryFrom_toInt32 a
  rw [heq, MPIMessageTag.tryFrom_toInt32] at h
  exact (Option.some.inj h).symm

section Wired

variable {hash : H ≃ USize} {d : Detached N E H} {m : ExtTreeMap H Ref} {x y : Exchange N E H}
variable {w w' : WireExchange N E H} {box : List (Envelope N E)} {c : Channel N E H} {n : ℕ}
variable {tag : MPIMessageTag}

omit [LinearOrder H] in
/-- An envelope has the tag of its message. -/
theorem hasTag_generateSendMatch {msg : MPIMessage N E H} :
    (generateSendMatch hash msg).hasTag tag = decide (msg.tag = tag) := by
  rw [Envelope.hasTag, beq_eq_decide]
  exact decide_eq_decide.mpr MPIMessageTag.toInt32_injective.eq_iff

/-- It has no other tag. -/
theorem hasTag_of_ne {tag' : MPIMessageTag} (h : tag ≠ tag') (msg : Envelope N E)
    (hmsg : msg.hasTag tag = true) : msg.hasTag tag' = false := by
  rw [Envelope.hasTag, beq_iff_eq] at hmsg
  rw [Envelope.hasTag, hmsg, beq_eq_false_iff_ne]
  exact fun heq => h (MPIMessageTag.toInt32_injective heq)

/-- A mailbox holds the messages of a channel. -/
def Carries (hash : H ≃ USize) (c : Channel N E H) (box : List (Envelope N E)) : Prop :=
  ∀ tag, box.filter (Envelope.hasTag tag) = (c tag).map (generateSendMatch hash)

omit [LinearOrder H] in
/-- Sent on the wire, a message comes after those in flight. -/
theorem Carries.send (h : Carries hash c box) (msg : MPIMessage N E H) :
    Carries hash (c.send msg) (box ++ [generateSendMatch hash msg]) := by
  intro tag
  rw [Channel.send, Function.update_apply]
  split_ifs with htag
  · rw [Mailbox.filter_concat_of_pos (by simp [hasTag_generateSendMatch, htag]), h tag, ← htag,
      List.map_append]
    rfl
  · rw [Mailbox.filter_concat_of_neg (by simp [hasTag_generateSendMatch, Ne.symm htag]), h tag]

omit [LinearOrder H] in
/-- **A probe finds what the channel delivers.** -/
theorem Carries.receive (h : Carries hash c box) (tag : MPIMessageTag) :
    Option.Rel (fun res env => env.1 = generateSendMatch hash res.1 ∧ Carries hash res.2 env.2 ∧
      res.1 ∈ c tag) (c.receive tag) (matchedProbeWithTag box tag) := by
  have htag := h tag
  rw [Channel.receive, matchedProbeWithTag]
  cases hc : c tag with
  | nil =>
    rw [hc, List.map_nil] at htag
    rw [Mailbox.take_of_filter_nil htag]
    exact .none
  | cons msg msgs =>
    rw [hc, List.map_cons] at htag
    obtain ⟨box', htake, hsame, hother⟩ := Mailbox.take_of_filter_cons htag
    rw [htake]
    refine .some ⟨rfl, fun tag' => ?_, List.mem_cons_self⟩
    change box'.filter (Envelope.hasTag tag') = (Function.update c tag msgs tag').map _
    rw [Function.update_apply]
    split_ifs with heq
    · rw [heq, hsame]
    · rw [hother _ (hasTag_of_ne (Ne.symm heq)), h tag']

/-- The wire is in the state of an exchange. -/
structure Wired (hash : H ≃ USize) (x : Exchange N E H) (w : WireExchange N E H) : Prop where
  sender : w.sender = x.sender
  receiver : w.receiver = x.receiver
  toReceiver : Carries hash x.toReceiver w.toReceiver
  toSender : Carries hash x.toSender w.toSender

/-- Both begin with nothing in flight. -/
theorem Wired.start : Wired hash (Exchange.start d) (WireExchange.start d) where
  sender := rfl
  receiver := rfl
  toReceiver _ := rfl
  toSender _ := rfl

/-- The wire does what the exchange does, and no call of `extract_message` panics. -/
def Follows (hash : H ≃ USize) : Option (Exchange N E H) →
    Option (Except ReceivePanic (WireExchange N E H)) → Prop :=
  Option.Rel fun y res => ∃ w, res = .ok w ∧ Wired hash y w

/-- Both take a message, and go on in the same way. -/
theorem Carries.read (h : Carries hash c box) (hzero : ∀ msg ∈ c tag, ¬ msg.RequestsZero hash)
    {f : MPIMessage N E H → Channel N E H → Exchange N E H}
    {g : MPIMessage N E H → List (Envelope N E) → WireExchange N E H}
    (hfg : ∀ msg c' box', Carries hash c' box' → Wired hash (f msg c') (g msg box')) :
    Follows hash ((c.receive tag).map fun res => f res.1 res.2)
      ((matchedProbeWithTag box tag).map fun res => do
        let msg ← extractMessage hash res.1
        pure (g msg res.2)) := by
  have hprobe := h.receive tag
  generalize c.receive tag = res at hprobe
  generalize matchedProbeWithTag box tag = env at hprobe
  cases hprobe with
  | none => exact .none
  | @some res env hsome =>
    obtain ⟨henv, hrest, hmem⟩ := hsome
    have hread := extractMessage_of_not_requestsZero hash (hzero res.1 hmem)
    rw [← henv] at hread
    exact .some ⟨_, Fallible.bind_of_ok hread, hfg _ _ _ hrest⟩

/-- The sender on the wire does what the sender of the exchange does, while no request is misread.
-/
theorem Wired.senderStep (h : Wired hash x w)
    (hzero : ∀ msg ∈ x.toSender .ack, ¬ msg.RequestsZero hash) :
    Follows hash (x.senderStep d) (w.senderStep hash d) := by
  obtain ⟨sender, receiver, toReceiver, toSender⟩ := w
  obtain ⟨hsender, hreceiver, hto, hfrom⟩ := h
  simp only at hsender hreceiver hto hfrom
  subst hsender hreceiver
  rw [Exchange.senderStep, WireExchange.senderStep]
  cases x.sender with
  | sending msgs =>
    cases msgs with
    | cons msg msgs => exact .some ⟨_, rfl, rfl, rfl, hto.send msg, hfrom⟩
    | nil =>
      exact hfrom.read (f := fun msg c' => { x with sender := Sender.onAck d msg, toSender := c' })
        hzero fun msg c' box' hc => ⟨rfl, rfl, hto, hc⟩
  | _ => exact .none

theorem WireExchange.receiverStep_of_expects (h : w.receiver.expects = some tag) :
    w.receiverStep hash m = ((matchedProbeWithTag w.toReceiver tag).map fun res => do
      let msg ← extractMessage hash res.1
      pure { w with receiver := w.receiver.onMessage msg, toReceiver := res.2 }) := by
  obtain ⟨sender, receiver, toReceiver, toSender⟩ := w
  cases receiver <;> simp_all [WireExchange.receiverStep, Receiver.expects]

/-- So does the receiver. -/
theorem Wired.receiverStep (h : Wired hash x w)
    (hzero : ∀ tag, ∀ msg ∈ x.toReceiver tag, ¬ msg.RequestsZero hash) :
    Follows hash (x.receiverStep m) (w.receiverStep hash m) := by
  cases hexpects : x.receiver.expects with
  | some tag =>
    have hexpects' : w.receiver.expects = some tag := h.receiver.symm ▸ hexpects
    rw [Exchange.receiverStep_of_expects hexpects, WireExchange.receiverStep_of_expects hexpects']
    exact h.toReceiver.read
      (f := fun msg c => { x with receiver := x.receiver.onMessage msg, toReceiver := c })
      (g := fun msg box => { w with receiver := w.receiver.onMessage msg, toReceiver := box })
      (hzero tag) fun msg c' box' hc => ⟨h.sender, congrArg (·.onMessage msg) h.receiver, hc,
        h.toSender⟩
  | none =>
    obtain ⟨sender, receiver, toReceiver, toSender⟩ := w
    obtain ⟨hsender, hreceiver, hto, hfrom⟩ := h
    simp only at hsender hreceiver hto hfrom
    subst hsender hreceiver
    rw [Exchange.receiverStep, WireExchange.receiverStep]
    cases hr : x.receiver with
    | deciding det =>
      by_cases hattaches : det.attachesTo m = true
      · simp only [if_pos hattaches]
        exact .some ⟨_, rfl, rfl, rfl, hto, hfrom.send _⟩
      · simp only [if_neg hattaches]
        cases det.requiredHashes.find? fun hash => !m.contains hash with
        | some _ => exact .some ⟨_, rfl, rfl, rfl, hto, hfrom.send _⟩
        | none => exact .some ⟨_, rfl, rfl, rfl, hto, hfrom⟩
    | finished _ => exact .none
    | panicked _ => exact .none
    | _ =>
      rw [hr] at hexpects
      cases hexpects

theorem Follows.of_some {res : Option (Except ReceivePanic (WireExchange N E H))}
    (h : Follows hash (some y) res) : ∃ w, res = some (.ok w) ∧ Wired hash y w := by
  cases h with
  | some hsome =>
    obtain ⟨w, rfl, hw⟩ := hsome
    exact ⟨w, rfl, hw⟩

theorem Follows.of_ok {res : Option (Exchange N E H)} (h : Follows hash res (some (.ok w))) :
    ∃ y, res = some y ∧ Wired hash y w := by
  cases h with
  | some hsome =>
    obtain ⟨w', hw', hw⟩ := hsome
    rw [Except.ok.inj hw']
    exact ⟨_, rfl, hw⟩

/-- `extract_message` panics for none of them. -/
theorem Follows.ne_error {res : Option (Exchange N E H)}
    {res' : Option (Except ReceivePanic (WireExchange N E H))} (h : Follows hash res res')
    (e : ReceivePanic) : res' ≠ some (.error e) := by
  rintro rfl
  cases h with
  | some hsome =>
    obtain ⟨w, hw, -⟩ := hsome
    cases hw

end Wired

/-! ### Phases on the wire -/

section Phases

variable (hash : H ≃ USize) (d : Detached N E H) (m : ExtTreeMap H Ref)

/-- No object that has to be requested has the hash zero. -/
def GetsThrough : Prop := ∀ k, k ≠ d.current → Reaches (d.missing m) d.current k → hash k ≠ 0

/-- The states of the wire, with a bound on the number of steps that are left. -/
inductive WirePhase : WireExchange N E H → ℕ → Prop
  /-- So far, everything has been read as it was sent. -/
  | carried {x : Exchange N E H} {w : WireExchange N E H} {n : ℕ} (h : Exchange.Phase d m x n)
      (hw : Wired hash x w) (hlacks : ∀ z, z ≠ d.current → hash z = 0 → x.Lacks z) : WirePhase w n
  /-- A request has been read as `Done`. -/
  | cutOff {w : WireExchange N E H} {det : Detached N E H} {k : H} {requested : List H}
      (hk : d.Awaited m (some det) k requested) (hzero : hash k = 0)
      (hsender : w.sender = .finished) (hreceiver : w.receiver = .awaitRelRc (some det))
      (hbox : matchedProbeWithTag w.toReceiver .relRc = none) : WirePhase w 0

variable {hash d m} {x : Exchange N E H} {w w' : WireExchange N E H} {n : ℕ}

/-- Requests go to the sender only. -/
theorem Exchange.Phase.not_requestsZero (h : Exchange.Phase d m x n) (tag : MPIMessageTag) :
    ∀ msg ∈ x.toReceiver tag, ¬ msg.RequestsZero hash := by
  cases h with
  | @transfer prior k data requested consumed inFlight rest hk hdata hsplit hmore =>
    rintro msg hmem ⟨p, rfl, -⟩
    have hsent : .requestRelRc p ∈ mpiSend k data := by
      rw [hsplit]
      exact List.mem_append_right _ (List.mem_append_left _ (List.mem_filter.mp hmem).1)
    simp [mpiSend] at hsent
  | deciding _ => exact fun msg hmem => absurd hmem List.not_mem_nil
  | request _ _ => exact fun msg hmem => absurd hmem List.not_mem_nil
  | done _ _ => exact fun msg hmem => absurd hmem List.not_mem_nil
  | finished _ _ => exact fun msg hmem => absurd hmem List.not_mem_nil

/-- **The request that is misread**: the sender returns, and the receiver waits. -/
theorem WirePhase.cut (h : Exchange.Phase d m x n) (hw : Wired hash x w)
    (hzero : ∃ msg ∈ x.toSender .ack, msg.RequestsZero hash) :
    (∃ w', w.senderStep hash d = some (.ok w') ∧ ∃ n' < n, WirePhase hash d m w' n') ∧
      w.receiverStep hash m = none := by
  obtain ⟨msg, hmem, k', rfl, hword⟩ := hzero
  cases h with
  | @request det k data requested hk hdata =>
    obtain rfl : k' = k := by simpa [Channel.queued, MPIMessage.tag] using hmem
    have hnone : matchedProbeWithTag w.toReceiver .relRc = none :=
      Mailbox.take_of_filter_nil (hw.toReceiver .relRc)
    have hexpects : w.receiver.expects = some .relRc := by
      rw [hw.receiver]
      rfl
    refine ⟨?_, ?_⟩
    · obtain ⟨box, htake, -, -⟩ := Mailbox.take_of_filter_cons (hw.toSender .ack)
      have hrequest : (.requestRelRc k' : MPIMessage N E H).RequestsZero hash := ⟨k', rfl, hword⟩
      have hread := extractMessage_of_requestsZero hash hrequest
      refine ⟨{ w with sender := .finished, toSender := box }, ?_, 0, by omega,
        .cutOff hk hword rfl hw.receiver hnone⟩
      rw [WireExchange.senderStep, hw.sender]
      simp only
      rw [matchedProbeWithTag, htake, Option.map_some]
      exact congrArg some (Fallible.bind_of_ok hread)
    · rw [WireExchange.receiverStep_of_expects hexpects, hnone]
      rfl
  | transfer _ _ _ _ _ _ _ => exact absurd hmem List.not_mem_nil
  | deciding _ => exact absurd hmem List.not_mem_nil
  | done _ _ => simp [Channel.queued, MPIMessage.tag] at hmem
  | finished _ _ => exact absurd hmem List.not_mem_nil

/-- What the parties can do in a phase. -/
structure WireProgress (hash : H ≃ USize) (d : Detached N E H) (m : ExtTreeMap H Ref)
    (w : WireExchange N E H) (n : ℕ) : Prop where
  not_error : ∀ e, w.senderStep hash d ≠ some (.error e) ∧ w.receiverStep hash m ≠ some (.error e)
  more : w.sender = .finished ∨ ∃ w', WireExchange.Step hash d m w w'
  lowers : ∀ w', WireExchange.Step hash d m w w' → ∃ n' < n, WirePhase hash d m w' n'

/-- A step of the exchange is a step on the wire, and the other way round. -/
theorem WirePhase.progress_of_follows (hd : d.Complete) (h : Exchange.Phase d m x n)
    (hw : Wired hash x w) (hlacks : ∀ z, z ≠ d.current → hash z = 0 → x.Lacks z)
    (hzero : ∀ msg ∈ x.toSender .ack, ¬ msg.RequestsZero hash) : WireProgress hash d m w n := by
  have hsender : Follows hash (x.senderStep d) (w.senderStep hash d) := hw.senderStep hzero
  have hreceiver : Follows hash (x.receiverStep m) (w.receiverStep hash m) :=
    hw.receiverStep h.not_requestsZero
  obtain ⟨hmore, hlowers⟩ := h.step hd
  refine ⟨fun e => ⟨hsender.ne_error e, hreceiver.ne_error e⟩, ?_, ?_⟩
  · rcases hmore with hfinished | ⟨y, hstep | hstep⟩
    · exact Or.inl (hw.sender.trans hfinished)
    · rw [hstep] at hsender
      obtain ⟨w', hw', -⟩ := hsender.of_some
      exact Or.inr ⟨w', Or.inl hw'⟩
    · rw [hstep] at hreceiver
      obtain ⟨w', hw', -⟩ := hreceiver.of_some
      exact Or.inr ⟨w', Or.inr hw'⟩
  · rintro w' (hstep | hstep)
    · rw [hstep] at hsender
      obtain ⟨y, hy, hw'⟩ := hsender.of_ok
      obtain ⟨n', hlt, h'⟩ := hlowers y (Or.inl hy)
      refine ⟨n', hlt, .carried h' hw' fun z hz hword => ?_⟩
      exact (hlacks z hz hword).senderStep (fun hmem => hzero _ hmem ⟨z, rfl, hword⟩) hy
    · rw [hstep] at hreceiver
      obtain ⟨y, hy, hw'⟩ := hreceiver.of_ok
      obtain ⟨n', hlt, h'⟩ := hlowers y (Or.inr hy)
      exact ⟨n', hlt, .carried h' hw' fun z hz hword => (hlacks z hz hword).receiverStep hy⟩

theorem WirePhase.not_step (hsender : w.senderStep hash d = none)
    (hreceiver : w.receiverStep hash m = none) (w' : WireExchange N E H) :
    ¬ WireExchange.Step hash d m w w' := by
  rw [WireExchange.Step, hsender, hreceiver]
  simp

/-- When the sender has returned, a receiver that waits for a record waits for ever. -/
theorem WirePhase.cutOff_stuck {det : Detached N E H} (hsender : w.sender = .finished)
    (hreceiver : w.receiver = .awaitRelRc (some det))
    (hbox : matchedProbeWithTag w.toReceiver .relRc = none) :
    w.senderStep hash d = none ∧ w.receiverStep hash m = none := by
  constructor
  · rw [WireExchange.senderStep, hsender]
  · have hexpects : w.receiver.expects = some .relRc := by
      rw [hreceiver]
      rfl
    rw [WireExchange.receiverStep_of_expects hexpects, hbox]
    rfl

/-- **Every phase goes on** until the sender returns. -/
theorem WirePhase.progress (hd : d.Complete) (h : WirePhase hash d m w n) :
    WireProgress hash d m w n := by
  cases h with
  | @carried x _ _ h hw hlacks =>
    by_cases hzero : ∃ msg ∈ x.toSender .ack, msg.RequestsZero hash
    · obtain ⟨⟨w', hstep, n', hlt, hcut⟩, hnone⟩ := WirePhase.cut h hw hzero
      refine ⟨fun e => ⟨?_, ?_⟩, Or.inr ⟨w', Or.inl hstep⟩, ?_⟩
      · rw [hstep]
        intro heq
        cases heq
      · rw [hnone]
        exact (Option.some_ne_none _).symm
      · rintro w'' (hstep' | hstep')
        · obtain rfl := Except.ok.inj (Option.some.inj (hstep.symm.trans hstep'))
          exact ⟨n', hlt, hcut⟩
        · rw [hnone] at hstep'
          cases hstep'
    · exact progress_of_follows hd h hw hlacks fun msg hmem hmsg => hzero ⟨msg, hmem, hmsg⟩
  | cutOff hk hzero hsender hreceiver hbox =>
    obtain ⟨hnone, hnone'⟩ : w.senderStep hash d = none ∧ w.receiverStep hash m = none :=
      cutOff_stuck hsender hreceiver hbox
    refine ⟨fun e => ?_, Or.inl hsender, ?_⟩
    · rw [hnone, hnone']
      exact ⟨(Option.some_ne_none _).symm, (Option.some_ne_none _).symm⟩
    · exact fun w' hstep => absurd hstep (not_step hnone hnone' w')

/-- Nobody panics over a message. -/
theorem WirePhase.not_panicked (h : WirePhase hash d m w n) (panic : TransferPanic) :
    w.sender ≠ .panicked panic ∧ w.receiver ≠ .panicked panic := by
  cases h with
  | carried h hw _ =>
    rw [hw.sender, hw.receiver]
    exact h.not_panicked panic
  | cutOff _ _ hsender hreceiver _ =>
    rw [hsender, hreceiver]
    exact ⟨nofun, nofun⟩

/-- How a transfer ends. -/
theorem WirePhase.ended (h : WirePhase hash d m w n) (hsender : w.sender = .finished) :
    (∀ w', ¬ WireExchange.Step hash d m w w') ∧
    (GetsThrough hash d m ∧ (∃ det, w.receiver = .finished det ∧ Delivered d m det) ∨
      ¬ GetsThrough hash d m ∧ ∃ det, w.receiver = .awaitRelRc (some det)) := by
  cases h with
  | carried h hw hlacks =>
    have hfinished := hw.sender.symm.trans hsender
    cases h with
    | @finished det requested hdet hto =>
      refine ⟨?_, Or.inl ⟨fun k hk hreach hword => ?_, det, hw.receiver, hdet.delivered hto⟩⟩
      · apply not_step
        · rw [WireExchange.senderStep, hw.sender]
        · rw [WireExchange.receiverStep, hw.receiver]
          rfl
      · exact (hlacks k hk hword).receiver ((hdet.mem_iff hto).mpr hreach)
    | _ => cases hfinished
  | @cutOff _ det k requested hk hzero hsender hreceiver hbox =>
    obtain ⟨hnone, hnone'⟩ : w.senderStep hash d = none ∧ w.receiverStep hash m = none :=
      cutOff_stuck hsender hreceiver hbox
    refine ⟨not_step hnone hnone', Or.inr ⟨fun hthrough => ?_, det, hreceiver⟩⟩
    cases hk with
    | next hdet hreach hnew =>
      refine hthrough k ?_ hreach hzero
      rintro rfl
      exact hnew hdet.root

end Phases

/-! ### Transfers of programs -/

section Runs

variable [Inhabited H] {A : AddrSource} {K : KeySource} {P : State N E → Op N E → Prop}
variable {s : State N E}

/-- **An object gets through on the wire** if and only if no object that has to be requested has the
hash zero. In every state of every interleaving, nobody panics, `extract_message` included, and the
number of steps is bounded; every interleaving goes on until the sender has returned. If the object
gets through, the receiver then has what it was missing; if not, it waits for a message that never
comes. -/
theorem wire_exchange_of_run (h : Run A K P State.init s) {obj : Ref}
    (hobj : s.world.heap.Alive obj) (hash : N → List (H × E) → H) (word : H ≃ USize)
    (m : ExtTreeMap H Ref) :
    ∃ d, s.world.heap.detach hash ∅ obj = some d ∧
      (∃ bound, ∀ (f : ℕ → WireExchange N E H) l, f 0 = WireExchange.start d →
        (∀ i < l, WireExchange.Step word d m (f i) (f (i + 1))) → l ≤ bound) ∧
      ∀ w, Relation.ReflTransGen (WireExchange.Step word d m) (WireExchange.start d) w →
        (∀ panic, w.sender ≠ .panicked panic ∧ w.receiver ≠ .panicked panic) ∧
        (∀ e, w.senderStep word d ≠ some (.error e) ∧ w.receiverStep word m ≠ some (.error e)) ∧
        (w.sender = .finished ∨ ∃ w', WireExchange.Step word d m w w') ∧
        (w.sender = .finished → (∀ w', ¬ WireExchange.Step word d m w w') ∧
          (GetsThrough word d m ∧ (∃ det, w.receiver = .finished det ∧ Delivered d m det) ∨
            ¬ GetsThrough word d m ∧ ∃ det, w.receiver = .awaitRelRc (some det))) := by
  have hi : Inv s.world s.held s.regs := Run.inv h State.inv_init
  obtain ⟨d, hd, hr⟩ := hi.heap.detach_records hash hobj ∅
  have hcomplete := hr.complete
  have hlowers : Lowers (WireExchange.Step word d m) (WirePhase word d m) :=
    fun _ _ hphase _ hstep => (hphase.progress hcomplete).lowers _ hstep
  obtain ⟨bound, hbound⟩ := Exchange.Phase.start hcomplete m
  have hstart : WirePhase word d m (WireExchange.start d) bound :=
    .carried hbound Wired.start fun z hz _ => Exchange.Lacks.start hz
  refine ⟨d, hd, ⟨bound, fun f l hf hsteps => ?_⟩, fun w hw => ?_⟩
  · rw [← hf] at hstart
    exact hlowers.length_le hstart l hsteps
  · obtain ⟨n, -, hphase⟩ := hlowers.steps hstart hw
    have hprogress := hphase.progress hcomplete
    exact ⟨hphase.not_panicked, hprogress.not_error, hprogress.more, hphase.ended⟩

end Runs

/-- The word of a hash that is a number below `2 ^ 64`, or what the platform has. -/
def wordOfFin : Fin USize.size ≃ USize where
  toFun := USize.ofFin
  invFun := USize.toFin
  left_inv := USize.toFin_ofFin
  right_inv := USize.ofFin_toFin

/-- A hash of the value alone; the root of a diamond has the hash zero. -/
def valueHash (value : ℕ) (_ : List (Fin USize.size × ℕ)) : Fin USize.size :=
  Fin.ofNat USize.size (value - 1)

/-- A diamond on the wire, for a receiver that has nothing. -/
theorem wire_exchange_of_run_twoDiamonds :
    ∃ d, twoDiamonds.world.heap.detach valueHash ∅ 3 = some d ∧
      ∀ w, Relation.ReflTransGen (WireExchange.Step wordOfFin d ∅) (WireExchange.start d) w →
        w.sender = .finished →
          GetsThrough wordOfFin d ∅ ∧ (∃ det, w.receiver = .finished det ∧ Delivered d ∅ det) ∨
            ¬ GetsThrough wordOfFin d ∅ ∧ ∃ det, w.receiver = .awaitRelRc (some det) := by
  have hrun : Run AddrSource.lowest KeySource.reusing (fun _ _ => True) State.init twoDiamonds :=
    run_after (by decide +kernel) fun _ _ _ => trivial
  have halive : twoDiamonds.world.heap.Alive 3 := by decide +kernel
  obtain ⟨d, hd, -, hreach⟩ := wire_exchange_of_run hrun halive valueHash wordOfFin ∅
  exact ⟨d, hd, fun w hw hfinished => ((hreach w hw).2.2.2 hfinished).2⟩

end Relrc
