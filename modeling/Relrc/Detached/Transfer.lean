import Relrc.Lib.Ranked
import Relrc.Detached.Attach
import Relrc.Model.Transfer

/-!
# The transfer protocol

The two parties take turns, although nothing in the transport forces them to: while the messages of
one object are under way the receiver waits for them in the order in which they are sent, and when
it has them all the sender waits for an acknowledgement. `Phase` lists the states in which the
exchange can be, each with a bound on the number of steps that are left: every step leads from one
phase to another with a smaller bound, and there is a step until the sender has received `Done`.

It follows (`transfer_of_run`) that no party ever panics, that no hash is requested twice, that
every run ends with `Done` after a bounded number of steps, and that the receiver then has exactly
the sender's records of the objects that it was missing.
-/

namespace Relrc

open Std (ExtTreeMap)
open SlotStore OrderedMap Ancestry Ranked

variable {N E H : Type}

/-! ### Channels -/

namespace Channel

/-- The channel after a list of messages was sent. -/
def queued (msgs : List (MPIMessage N E H)) : Channel N E H :=
  fun tag => msgs.filter fun msg => msg.tag = tag

theorem queued_nil : (queued [] : Channel N E H) = empty := rfl

/-- A message is sent behind those in flight. -/
theorem send_queued (msgs : List (MPIMessage N E H)) (msg : MPIMessage N E H) :
    (queued msgs).send msg = queued (msgs ++ [msg]) := by
  refine funext fun tag => ?_
  rw [send, Function.update_apply]
  split_ifs with htag
  · simp [queued, htag]
  · simp [queued, Ne.symm htag]

/-- The first message in flight is the next one under its tag. -/
theorem receive_queued (msg : MPIMessage N E H) (msgs : List (MPIMessage N E H)) :
    (queued (msg :: msgs)).receive msg.tag = some (msg, queued msgs) := by
  have hqueue : queued (msg :: msgs) msg.tag = msg :: queued msgs msg.tag := by simp [queued]
  rw [receive, hqueue]
  refine congrArg (fun c => some (msg, c)) (funext fun tag => ?_)
  rw [Function.update_apply]
  split_ifs with htag
  · rw [htag]
  · simp [queued, Ne.symm htag]

theorem receive_empty (tag : MPIMessageTag) : (empty : Channel N E H).receive tag = none := rfl

end Channel

variable [LinearOrder H]

/-! ### Receiving one object -/

namespace Receiver

variable (prior : Option (Detached N E H)) (hash : H) (data : DetachedInnerData N E H)

/-- The state after some messages, starting with nothing of the object received. -/
def after (msgs : List (MPIMessage N E H)) : Receiver N E H :=
  msgs.foldl onMessage (.awaitRelRc prior)

/-- Edge weights are paired with the hashes that were announced for them. -/
theorem foldl_edgeWeight (a b incoming : List (H × E)) (value : N) :
    (a.map fun pe => MPIMessage.edgeWeight pe.2).foldl onMessage
      (collect prior hash value ((a ++ b).map Prod.fst) incoming) =
        collect prior hash value (b.map Prod.fst) (incoming ++ a) := by
  induction a generalizing incoming with
  | nil => rw [List.append_nil]; rfl
  | cons pe a ih =>
    rw [List.map_cons, List.foldl_cons, List.cons_append, List.map_cons, collect, onMessage, ih,
      List.append_assoc]
    rfl

/-- Some edge weights are still to come. -/
theorem after_edges (a b : List (H × E)) (hdata : data.incoming = a ++ b) :
    after prior ([.relRc hash, .nodeWeight data.value,
      .incomingEdge (data.incoming.map Prod.fst)] ++ a.map fun pe => .edgeWeight pe.2) =
        collect prior hash data.value (b.map Prod.fst) a := by
  rw [after, List.foldl_append, hdata]
  exact foldl_edgeWeight prior hash a b [] data.value

/-- **An object is received** as it was sent. -/
theorem after_mpiSend :
    after prior (mpiSend hash data) = .deciding (insertReceived prior hash data) := by
  rw [mpiSend, after_edges prior hash data data.incoming [] (List.append_nil _).symm]
  rfl

/-- The receiver waits for the messages in the order in which they are sent. -/
theorem expects_after {sent later : List (MPIMessage N E H)} {msg : MPIMessage N E H}
    (h : mpiSend hash data = sent ++ msg :: later) :
    (after prior sent).expects = some msg.tag := by
  rw [mpiSend] at h
  rcases sent with _ | ⟨m, _ | ⟨m', _ | ⟨m'', sent⟩⟩⟩
  all_goals simp only [List.cons_append, List.nil_append, List.cons.injEq] at h
  · rw [← h.1]
    rfl
  · rw [← h.1, ← h.2.1]
    rfl
  · rw [← h.1, ← h.2.1, ← h.2.2.1]
    rfl
  · obtain ⟨rfl, rfl, rfl, hedges⟩ := h
    obtain ⟨a, b, hdata, rfl, hb⟩ := List.map_eq_append_iff.mp hedges
    obtain ⟨pe, b, rfl, rfl, -⟩ := List.map_eq_cons_iff.mp hb
    exact congrArg expects (after_edges prior hash data a (pe :: b) hdata)

end Receiver

/-! ### What is wanted and what has been received -/

namespace Detached

variable (d : Detached N E H) (m : ExtTreeMap H Ref)

/-- The parents of a recorded object that are not given. -/
def missing (k : H) : List H :=
  match d.allData[k]? with
  | some data => data.parents.filter fun p => !m.contains p
  | none => []

/-- Missing are the parents in the record that are not given. -/
theorem mem_missing {k p : H} : p ∈ d.missing m k ↔
    ∃ data, d.allData[k]? = some data ∧ p ∈ data.parents ∧ p ∉ m := by
  rw [missing]
  cases d.allData[k]? with
  | some data =>
    rw [List.mem_filter, not_contains_iff]
    simp
  | none => simp

/-- Required are parents without a record. -/
theorem exists_of_mem_requiredHashes {p : H} (hp : p ∈ d.requiredHashes) :
    p ∉ d.allData ∧ ∃ (k : H) (data : _), d.allData[k]? = some data ∧ p ∈ data.parents := by
  simp only [requiredHashes, List.mem_eraseDups, List.mem_filter, List.mem_flatMap, mem_valuesOf,
    not_contains_iff] at hp
  obtain ⟨⟨data, ⟨k, hk⟩, hp⟩, hnew⟩ := hp
  exact ⟨hnew, k, data, hk, hp⟩

/-- Nothing was cut off: the object and every parent of a recorded object are recorded. -/
structure Complete : Prop where
  root : d.current ∈ d.allData
  closed : ∀ (k : H) data, d.allData[k]? = some data → ∀ p ∈ data.parents, p ∈ d.allData

/-- What the receiver has, and what it has asked for so far. -/
structure Received (det : Detached N E H) (requested : List H) : Prop where
  current : det.current = d.current
  root : d.current ∈ det.allData
  sound : ∀ (k : H) data, det.allData[k]? = some data →
    d.allData[k]? = some data ∧ Reaches (d.missing m) d.current k
  nodup : requested.Nodup
  asked : ∀ k ∈ requested, k ∈ det.allData

/-- The receiver waits for the object `k`: the first one, or one that it has asked for last. -/
inductive Awaited : Option (Detached N E H) → H → List H → Prop
  | first : Awaited none d.current []
  | next {det : Detached N E H} {k : H} {requested : List H} (h : Received d m det requested)
      (hk : Reaches (d.missing m) d.current k) (hnew : k ∉ det.allData) :
      Awaited (some det) k (requested ++ [k])

variable {d m}

/-- The record that was awaited is received. -/
theorem Awaited.received {prior : Option (Detached N E H)} {k : H} {requested : List H}
    (h : d.Awaited m prior k requested) {data : DetachedInnerData N E H}
    (hdata : d.allData[k]? = some data) :
    d.Received m (insertReceived prior k data) requested := by
  cases h with
  | first =>
    refine ⟨rfl, by simp [insertReceived], fun x data' hx => ?_, List.nodup_nil, by simp⟩
    simp only [insertReceived, Option.getD_none, getElem?_insert_eq] at hx
    split_ifs at hx with heq
    · rw [heq, ← hx]
      exact ⟨hdata, Reaches.refl _⟩
    · simp at hx
  | @next det k requested h hk hnew =>
    have hasked : k ∉ requested := fun hmem => hnew (h.asked k hmem)
    refine ⟨h.current, ?_, fun x data' hx => ?_, ?_, fun x hx => ?_⟩
    · simp [insertReceived, h.root]
    · simp only [insertReceived, Option.getD_some, getElem?_insert_eq] at hx
      split_ifs at hx with heq
      · rw [heq, ← hx]
        exact ⟨hdata, hk⟩
      · exact h.sound x data' hx
    · exact List.Nodup.append h.nodup (List.nodup_singleton k) (by simpa using hasked)
    · rcases List.mem_append.mp hx with hx | hx
      · simp [insertReceived, h.asked x hx]
      · simp [insertReceived, List.mem_singleton.mp hx]

/-- What is asked for next is recorded at the sender, wanted, and new. -/
theorem Received.next {det : Detached N E H} {requested : List H} {p : H}
    (h : d.Received m det requested) (hd : d.Complete) (hp : p ∈ det.requiredHashes)
    (hm : p ∉ m) : p ∈ d.allData ∧ d.Awaited m (some det) p (requested ++ [p]) := by
  obtain ⟨hnew, k, data, hk, hp⟩ := det.exists_of_mem_requiredHashes hp
  obtain ⟨hdata, hreach⟩ := h.sound k data hk
  exact ⟨hd.closed k data hdata p hp,
    .next h (hreach.tail ((d.mem_missing m).mpr ⟨data, hdata, hp, hm⟩)) hnew⟩

/-- When the object can be attached, everything that is wanted has been received. -/
theorem Received.mem_iff {det : Detached N E H} {requested : List H}
    (h : d.Received m det requested)
    (hto : det.attachesTo m = true) {k : H} :
    k ∈ det.allData ↔ Reaches (d.missing m) d.current k := by
  refine ⟨fun hk => ?_, fun hk => ?_⟩
  · obtain ⟨data, hdata⟩ := mem_iff_exists.mp hk
    exact (h.sound k data hdata).2
  · refine hk.mem_of_closed (S := fun k => k ∈ det.allData) (fun x hx p hp => ?_) h.root
    obtain ⟨data, hdata⟩ := mem_iff_exists.mp hx
    obtain ⟨data', hdata', hp, hpm⟩ := (d.mem_missing m).mp hp
    rw [(h.sound x data hdata).1] at hdata'
    obtain rfl := Option.some.inj hdata'
    exact (attachesTo_iff.mp hto x data hdata p hp).resolve_right hpm

end Detached

/-! ### Phases -/

namespace Exchange

variable {d : Detached N E H} {m : ExtTreeMap H Ref} {x y : Exchange N E H} {n : ℕ}

/-- The steps that it takes to request an object, send it and receive it, for every object that has
not been requested. -/
def pending (d : Detached N E H) (requested : List H) : ℕ :=
  ∑ k ∈ d.allData.keys.toFinset \ requested.toFinset,
    match d.allData[k]? with
    | some data => 2 * (mpiSend k data).length + 3
    | none => 0

/-- A request takes its share of the bound. -/
theorem pending_append {requested : List H} {k : H} {data : DetachedInnerData N E H}
    (hk : d.allData[k]? = some data) (hnew : k ∉ requested) :
    pending d (requested ++ [k]) + (2 * (mpiSend k data).length + 3) = pending d requested := by
  have hmem : k ∈ d.allData.keys.toFinset \ requested.toFinset := by
    simp [hnew, mem_iff_exists.mpr ⟨data, hk⟩]
  have hset : d.allData.keys.toFinset \ (requested ++ [k]).toFinset =
      (d.allData.keys.toFinset \ requested.toFinset).erase k := by
    ext a
    simp only [Finset.mem_sdiff, Finset.mem_erase, List.mem_toFinset, List.mem_append,
      List.mem_singleton]
    tauto
  rw [pending, pending, hset, ← Finset.sum_erase_add _ _ hmem, hk]

/-- The states of the exchange, with a bound on the number of steps that are left. -/
inductive Phase (d : Detached N E H) (m : ExtTreeMap H Ref) : Exchange N E H → ℕ → Prop
  /-- The messages of an object are sent and received. -/
  | transfer {prior : Option (Detached N E H)} {k : H} {data : DetachedInnerData N E H}
      {requested : List H} (consumed inFlight rest : List (MPIMessage N E H))
      (hk : d.Awaited m prior k requested) (hdata : d.allData[k]? = some data)
      (hsplit : mpiSend k data = consumed ++ (inFlight ++ rest)) (hmore : inFlight ++ rest ≠ []) :
      Phase d m ⟨.sending rest, Receiver.after prior consumed, .queued inFlight, .empty, requested⟩
        (2 * rest.length + inFlight.length + 3 + pending d requested)
  /-- The object has arrived. -/
  | deciding {det : Detached N E H} {requested : List H} (h : d.Received m det requested) :
      Phase d m ⟨.sending [], .deciding det, .empty, .empty, requested⟩ (2 + pending d requested)
  /-- Another object has been requested. -/
  | request {det : Detached N E H} {k : H} {data : DetachedInnerData N E H} {requested : List H}
      (hk : d.Awaited m (some det) k requested) (hdata : d.allData[k]? = some data) :
      Phase d m ⟨.sending [], .awaitRelRc (some det), .empty, .queued [.requestRelRc k], requested⟩
        (2 * (mpiSend k data).length + 4 + pending d requested)
  /-- The receiver has all that it needs. -/
  | done {det : Detached N E H} {requested : List H} (h : d.Received m det requested)
      (hto : det.attachesTo m = true) :
      Phase d m ⟨.sending [], .finished det, .empty, .queued [.done], requested⟩ 1
  | finished {det : Detached N E H} {requested : List H} (h : d.Received m det requested)
      (hto : det.attachesTo m = true) :
      Phase d m ⟨.finished, .finished det, .empty, .empty, requested⟩ 0

/-- A waiting receiver takes the next message under the tag that it expects. -/
theorem receiverStep_of_expects {tag : MPIMessageTag} (h : x.receiver.expects = some tag) :
    x.receiverStep m = (x.toReceiver.receive tag).map fun res =>
      { x with receiver := x.receiver.onMessage res.1, toReceiver := res.2 } := by
  obtain ⟨sender, receiver, toReceiver, toSender, requested⟩ := x
  cases receiver <;> simp_all [receiverStep, Receiver.expects]

/-- The sender sends the next message of a record. -/
theorem senderStep_send {msg : MPIMessage N E H} {inFlight rest : List (MPIMessage N E H)}
    {receiver : Receiver N E H} {toSender : Channel N E H} {requested : List H} :
    senderStep d ⟨.sending (msg :: rest), receiver, .queued inFlight, toSender, requested⟩ =
      some ⟨.sending rest, receiver, .queued (inFlight ++ [msg]), toSender, requested⟩ := by
  rw [← Channel.send_queued]
  rfl

/-- The sender takes an acknowledgement. -/
theorem senderStep_ack {msg : MPIMessage N E H} {receiver : Receiver N E H}
    {toReceiver : Channel N E H} {requested : List H} (hmsg : msg.tag = .ack) :
    senderStep d ⟨.sending [], receiver, toReceiver, .queued [msg], requested⟩ =
      some ⟨Sender.onAck d msg, receiver, toReceiver, .empty, requested⟩ := by
  have hreceive := Channel.receive_queued msg []
  rw [hmsg] at hreceive
  simp only [senderStep, hreceive, Option.map_some, Channel.queued_nil]

/-- The first message of an object is sent. -/
theorem Phase.of_send {prior : Option (Detached N E H)} {k : H} {data : DetachedInnerData N E H}
    {requested : List H} (hk : d.Awaited m prior k requested) (hdata : d.allData[k]? = some data) :
    Phase d m ⟨Sender.send d k, .awaitRelRc prior, .empty, .empty, requested⟩
      (2 * (mpiSend k data).length + 3 + pending d requested) := by
  rw [Sender.send, hdata]
  exact Phase.transfer [] [] _ hk hdata rfl (List.cons_ne_nil _ _)

section Transfer

variable {prior : Option (Detached N E H)} {k : H} {data : DetachedInnerData N E H}
variable {consumed inFlight rest : List (MPIMessage N E H)} {requested : List H}

/-- The next message arrives; it may be the last one of the object. -/
theorem Phase.of_receive {msg : MPIMessage N E H} (hk : d.Awaited m prior k requested)
    (hdata : d.allData[k]? = some data)
    (hsplit : mpiSend k data = consumed ++ (msg :: inFlight ++ rest)) :
    ∃ n < 2 * rest.length + (msg :: inFlight).length + 3 + pending d requested, Phase d m
      ⟨.sending rest, (Receiver.after prior consumed).onMessage msg, .queued inFlight, .empty,
        requested⟩ n := by
  have hafter : (Receiver.after prior consumed).onMessage msg =
      Receiver.after prior (consumed ++ [msg]) := by
    rw [Receiver.after, Receiver.after, List.foldl_concat]
  have hsplit' : mpiSend k data = consumed ++ [msg] ++ (inFlight ++ rest) := by simpa using hsplit
  rw [hafter, List.length_cons]
  rcases eq_or_ne (inFlight ++ rest) [] with hnil | hmore
  · obtain ⟨rfl, rfl⟩ := List.append_eq_nil_iff.mp hnil
    rw [List.append_nil, List.append_nil] at hsplit'
    rw [← hsplit', Receiver.after_mpiSend]
    exact ⟨_, by simp, Phase.deciding (hk.received hdata)⟩
  · exact ⟨_, by omega, Phase.transfer _ _ _ hk hdata hsplit' hmore⟩

/-- The receiver takes the first message in flight. -/
theorem receiverStep_transfer {msg : MPIMessage N E H} {sender : Sender N E H}
    (hsplit : mpiSend k data = consumed ++ (msg :: inFlight ++ rest)) :
    receiverStep m ⟨sender, Receiver.after prior consumed, .queued (msg :: inFlight), .empty,
      requested⟩ = some ⟨sender, (Receiver.after prior consumed).onMessage msg, .queued inFlight,
        .empty, requested⟩ := by
  have hexpects := Receiver.expects_after prior k data hsplit
  rw [receiverStep_of_expects hexpects, Channel.receive_queued]
  rfl

/-- The receiver waits for a message that has not been sent. -/
theorem receiverStep_waiting {msg : MPIMessage N E H} {sender : Sender N E H}
    (hsplit : mpiSend k data = consumed ++ msg :: rest) :
    receiverStep m ⟨sender, Receiver.after prior consumed, .empty, .empty, requested⟩ = none := by
  have hexpects := Receiver.expects_after prior k data hsplit
  rw [receiverStep_of_expects hexpects, Channel.receive_empty]
  rfl

/-- While an object is under way, the next message is sent or received. -/
theorem Phase.transfer_step (hk : d.Awaited m prior k requested) (hdata : d.allData[k]? = some data)
    (hsplit : mpiSend k data = consumed ++ (inFlight ++ rest)) (hmore : inFlight ++ rest ≠ []) :
    (∃ y, Step d m ⟨.sending rest, Receiver.after prior consumed, .queued inFlight, .empty,
      requested⟩ y) ∧
    ∀ y, Step d m ⟨.sending rest, Receiver.after prior consumed, .queued inFlight, .empty,
      requested⟩ y → ∃ n < 2 * rest.length + inFlight.length + 3 + pending d requested,
        Phase d m y n := by
  constructor
  · -- the sender can send, or something is on its way to the receiver
    cases rest with
    | cons msg rest => exact ⟨_, Or.inl rfl⟩
    | nil =>
      obtain ⟨msg, inFlight, rfl⟩ := List.exists_cons_of_ne_nil (List.append_nil inFlight ▸ hmore)
      exact ⟨_, Or.inr (receiverStep_transfer hsplit)⟩
  · rintro y (hstep | hstep)
    · cases rest with
      | nil => cases hstep
      | cons msg rest =>
        have hsplit' : mpiSend k data = consumed ++ (inFlight ++ [msg] ++ rest) := by
          simpa using hsplit
        rw [senderStep_send] at hstep
        obtain rfl := Option.some.inj hstep
        refine ⟨_, ?_, Phase.transfer _ _ _ hk hdata hsplit' (by simp)⟩
        rw [List.length_append, List.length_singleton, List.length_cons]
        omega
    · cases inFlight with
      | nil =>
        obtain ⟨msg, rest, rfl⟩ := List.exists_cons_of_ne_nil hmore
        rw [Channel.queued_nil, receiverStep_waiting hsplit] at hstep
        cases hstep
      | cons msg inFlight =>
        rw [receiverStep_transfer hsplit] at hstep
        obtain rfl := Option.some.inj hstep
        exact Phase.of_receive hk hdata hsplit

end Transfer

/-- The receiver asks for an object or is done. -/
theorem Phase.deciding_step {det : Detached N E H} {requested : List H} (hd : d.Complete)
    (h : d.Received m det requested) :
    (∃ y, Step d m ⟨.sending [], .deciding det, .empty, .empty, requested⟩ y) ∧
    ∀ y, Step d m ⟨.sending [], .deciding det, .empty, .empty, requested⟩ y →
      ∃ n < 2 + pending d requested, Phase d m y n := by
  suffices hstep : ∃ y, receiverStep m ⟨.sending [], .deciding det, .empty, .empty, requested⟩ =
      some y ∧ ∃ n < 2 + pending d requested, Phase d m y n by
    obtain ⟨y, hy, hphase⟩ := hstep
    refine ⟨⟨y, Or.inr hy⟩, ?_⟩
    rintro y' (hy' | hy')
    · cases hy'
    · rw [hy] at hy'
      exact Option.some.inj hy' ▸ hphase
  rw [receiverStep]
  by_cases hto : det.attachesTo m = true
  · simp only [if_pos hto, ← Channel.queued_nil, Channel.send_queued]
    exact ⟨_, rfl, 1, by omega, Phase.done h hto⟩
  · simp only [if_neg hto]
    cases hfind : det.requiredHashes.find? fun hash => !m.contains hash with
    | none =>
      refine absurd ?_ hto
      rw [Detached.attachesTo, List.all_eq_true]
      simpa using hfind
    | some p =>
      have hm : (!m.contains p) = true := by simpa using List.find?_some hfind
      have hreq := List.mem_of_find?_eq_some hfind
      obtain ⟨hp, hawait⟩ := h.next hd hreq (not_contains_iff.mp hm)
      obtain ⟨data, hdata⟩ := mem_iff_exists.mp hp
      -- a hash that is required has no record yet, so it was never asked for
      have hnew : p ∉ requested := fun hmem =>
        (det.exists_of_mem_requiredHashes hreq).1 (h.asked p hmem)
      have hpay := pending_append hdata hnew
      simp only [← Channel.queued_nil, Channel.send_queued]
      exact ⟨_, rfl, _, by omega, Phase.request hawait hdata⟩

/-- **A step leads to a phase** with fewer steps left, and there is one until the sender has
received `Done`. -/
theorem Phase.step (hd : d.Complete) (h : Phase d m x n) :
    (x.sender = .finished ∨ ∃ y, Step d m x y) ∧
      ∀ y, Step d m x y → ∃ n' < n, Phase d m y n' := by
  cases h with
  | transfer consumed inFlight rest hk hdata hsplit hmore =>
    exact (Phase.transfer_step hk hdata hsplit hmore).imp_left Or.inr
  | deciding h => exact (Phase.deciding_step hd h).imp_left Or.inr
  | request hk hdata =>
    refine ⟨Or.inr ⟨_, Or.inl (senderStep_ack rfl)⟩, ?_⟩
    rintro y (hy | hy)
    · rw [senderStep_ack rfl] at hy
      obtain rfl := Option.some.inj hy
      exact ⟨_, by omega, Phase.of_send hk hdata⟩
    · cases hy
  | done h hto =>
    refine ⟨Or.inr ⟨_, Or.inl (senderStep_ack rfl)⟩, ?_⟩
    rintro y (hy | hy)
    · rw [senderStep_ack rfl] at hy
      obtain rfl := Option.some.inj hy
      exact ⟨0, by omega, Phase.finished h hto⟩
    · cases hy
  | finished h hto =>
    refine ⟨Or.inl rfl, ?_⟩
    rintro y (hy | hy)
    · cases hy
    · cases hy

/-- The first object is sent without being requested. -/
theorem Phase.start (hd : d.Complete) (m : ExtTreeMap H Ref) : ∃ n, Phase d m (start d) n := by
  obtain ⟨data, hdata⟩ := mem_iff_exists.mp hd.root
  exact ⟨_, Phase.of_send .first hdata⟩

/-- Every step leads to another phase, with fewer steps left. -/
theorem Phase.lowers (hd : d.Complete) (m : ExtTreeMap H Ref) : Lowers (Step d m) (Phase d m) :=
  fun _ _ h => (h.step hd).2

/-- Nobody panics over a message. -/
theorem Phase.not_panicked (h : Phase d m x n) (panic : TransferPanic) :
    x.sender ≠ .panicked panic ∧ x.receiver ≠ .panicked panic := by
  cases h with
  | @transfer prior k data _ consumed inFlight rest hk hdata hsplit hmore =>
    refine ⟨nofun, fun hpanic => ?_⟩
    -- a receiver that has panicked expects nothing
    obtain ⟨msg, later, hnext⟩ := List.exists_cons_of_ne_nil hmore
    rw [hnext] at hsplit
    have hexpects := Receiver.expects_after prior k data hsplit
    have hpanicked : Receiver.after prior consumed = .panicked panic := hpanic
    rw [hpanicked] at hexpects
    cases hexpects
  | deciding _ => exact ⟨nofun, nofun⟩
  | request _ _ => exact ⟨nofun, nofun⟩
  | done _ _ => exact ⟨nofun, nofun⟩
  | finished _ _ => exact ⟨nofun, nofun⟩

/-- No object is requested twice. -/
theorem Phase.nodup (h : Phase d m x n) : x.requested.Nodup := by
  cases h with
  | transfer _ _ _ hk hdata _ _ => exact (hk.received hdata).nodup
  | deciding h => exact h.nodup
  | request hk hdata => exact (hk.received hdata).nodup
  | done h _ => exact h.nodup
  | finished h _ => exact h.nodup

/-- The exchange is over: nothing is in flight, and the receiver has the sender's records of the
object and of every parent of one of them that is not given. -/
structure Transferred (d : Detached N E H) (m : ExtTreeMap H Ref) (x : Exchange N E H)
    (det : Detached N E H) : Prop where
  toReceiver : x.toReceiver = .empty
  toSender : x.toSender = .empty
  receiver : x.receiver = .finished det
  current : det.current = d.current
  mem_iff : ∀ k, k ∈ det.allData ↔ Reaches (d.missing m) d.current k
  record : ∀ k ∈ det.allData, det.allData[k]? = d.allData[k]?
  attachesTo : det.attachesTo m = true

/-- When the sender has seen `Done`, everything has arrived. -/
theorem Phase.transferred (h : Phase d m x n) (hx : x.sender = .finished) :
    ∃ det, Transferred d m x det := by
  cases h with
  | @finished det requested h hto =>
    refine ⟨det, rfl, rfl, rfl, h.current, fun k => h.mem_iff hto, fun k hk => ?_, hto⟩
    obtain ⟨data, hdata⟩ := mem_iff_exists.mp hk
    rw [hdata, (h.sound k data hdata).1]
  | transfer | deciding | request | done => cases hx

end Exchange

/-- The record of a live object, with no cut, has all ancestors. -/
theorem Records.complete [Inhabited H] {hash : N → List (H × E) → H} {h : Heap N E} {obj : Ref}
    {d : Detached N E H} (hr : Records hash h ∅ obj d) : d.Complete where
  root := hr.root.resolve_left (Finset.notMem_empty _)
  closed k data hk p hp := (hr.closed k data hk p hp).resolve_left (Finset.notMem_empty _)

variable [Inhabited H] {A : AddrSource} {K : KeySource} {P : State N E → Op N E → Prop}
variable {s : State N E}

/-- **The transfer of an object**, from every state of every run and whatever the receiver has: no
party panics, no hash is requested twice, every interleaving goes on until the sender has received
`Done` and ends after a bounded number of steps, and the receiver then has what it was missing. -/
theorem transfer_of_run (h : Run A K P State.init s) {obj : Ref} (hobj : s.world.heap.Alive obj)
    (hash : N → List (H × E) → H) (m : ExtTreeMap H Ref) :
    ∃ d, s.world.heap.detach hash ∅ obj = some d ∧
      (∀ x, Relation.ReflTransGen (Exchange.Step d m) (Exchange.start d) x →
        (∀ panic, x.sender ≠ .panicked panic ∧ x.receiver ≠ .panicked panic) ∧
        x.requested.Nodup ∧
        (x.sender = .finished ∨ ∃ y, Exchange.Step d m x y) ∧
        (x.sender = .finished → ∃ det, Exchange.Transferred d m x det)) ∧
      ∃ bound, ∀ (f : ℕ → Exchange N E H) l, f 0 = Exchange.start d →
        (∀ i < l, Exchange.Step d m (f i) (f (i + 1))) → l ≤ bound := by
  have hi : Inv s.world s.held s.regs := Run.inv h State.inv_init
  obtain ⟨d, hd, hr⟩ := hi.heap.detach_records hash hobj ∅
  have hcomplete := hr.complete
  have hlowers := Exchange.Phase.lowers hcomplete m
  obtain ⟨bound, hstart⟩ := Exchange.Phase.start hcomplete m
  refine ⟨d, hd, fun x hx => ?_, bound, fun f l hf hsteps => ?_⟩
  · obtain ⟨n, -, hphase⟩ := hlowers.steps hstart hx
    exact ⟨hphase.not_panicked, hphase.nodup, (hphase.step hcomplete).1, hphase.transferred⟩
  · rw [← hf] at hstart
    exact hlowers.length_le hstart l hsteps

/-- The bottom of a diamond is transferred to a party that has its left side. -/
theorem transfer_of_run_twoDiamonds :
    ∃ d, twoDiamonds.world.heap.detach pairHash ∅ 3 = some d ∧
      (∀ x, Relation.ReflTransGen (Exchange.Step d (ExtTreeMap.ofList [(3251, 5)]))
        (Exchange.start d) x → x.sender = .finished →
          ∃ det, Exchange.Transferred d (ExtTreeMap.ofList [(3251, 5)]) x det) ∧
      ∃ bound, ∀ (f : ℕ → Exchange ℕ ℕ ℕ) l, f 0 = Exchange.start d →
        (∀ i < l, Exchange.Step d (ExtTreeMap.ofList [(3251, 5)]) (f i) (f (i + 1))) →
          l ≤ bound := by
  have hrun : Run _ _ (fun _ _ => True) State.init twoDiamonds :=
    run_after (by decide +kernel) fun _ _ _ => trivial
  have hobj : twoDiamonds.world.heap.Alive 3 := by decide +kernel
  obtain ⟨d, hd, hreach, hbound⟩ :=
    transfer_of_run hrun hobj pairHash (ExtTreeMap.ofList [(3251, 5)])
  exact ⟨d, hd, fun x hx => (hreach x hx).2.2.2, hbound⟩

end Relrc
