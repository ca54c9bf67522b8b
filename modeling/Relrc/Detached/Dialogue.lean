import Relrc.Detached.Duplex
import Relrc.Model.Dialogue

/-!
# Dialogues are served as far as the scripts agree

Two processes that make blocking calls. While both are in the same call, one of `send_relrc` and one
of `recv_relrc`, the dialogue is an exchange (`Step.modeStep`). The receiver may be in
its next call before the sender has seen `Done`. When the two are in calls that do not fit together,
neither gets what it waits for: a sender waits for acknowledgements and gets none, a receiver waits
for records and gets none (`Fresh.act`). These are the stages of `Dialogue.Stage`.

Hence calls return exactly as far as the scripts agree (`dialogue_of_runs`).
-/

namespace Relrc

open Std (ExtTreeMap)
open SlotStore Ancestry Ranked

variable {N E H : Type} [LinearOrder H]

/-! ### Scripts that agree -/

section Scripts

variable {l r : List (BlockingCall N E H)} {results : List (Option (Detached N E H))} {i : ℕ}

theorem BlockingCall.dual_comm (a b : BlockingCall N E H) : a.dual b = b.dual a := by
  cases a <;> cases b <;> rfl

/-- Either script may come first. -/
theorem agreed_comm (l r : List (BlockingCall N E H)) : agreed l r = agreed r l := by
  induction l generalizing r with
  | nil => cases r <;> rfl
  | cons a l ih =>
    cases r with
    | nil => rfl
    | cons b r => rw [agreed, agreed, a.dual_comm b, ih]

/-- The calls at this position fit together. -/
def DualAt (l r : List (BlockingCall N E H)) (i : ℕ) : Prop :=
  ∃ a b, l[i]? = some a ∧ r[i]? = some b ∧ a.dual b

theorem DualAt.symm (h : DualAt l r i) : DualAt r l i := by
  obtain ⟨a, b, ha, hb, hdual⟩ := h
  exact ⟨b, a, hb, ha, b.dual_comm a ▸ hdual⟩

/-- The scripts agree up to a position when all calls up to there fit together. -/
theorem lt_agreed_iff : i < agreed l r ↔ ∀ j ≤ i, DualAt l r j := by
  induction l generalizing r i with
  | nil =>
    refine ⟨fun h => absurd h (Nat.not_lt_zero i), fun h => ?_⟩
    obtain ⟨a, -, ha, -, -⟩ := h 0 (Nat.zero_le i)
    cases ha
  | cons a l ih =>
    cases r with
    | nil =>
      refine ⟨fun h => absurd h (Nat.not_lt_zero i), fun h => ?_⟩
      obtain ⟨-, b, -, hb, -⟩ := h 0 (Nat.zero_le i)
      cases hb
    | cons b r =>
      have hfirst : DualAt (a :: l) (b :: r) 0 ↔ a.dual b := by simp [DualAt]
      have hlater : ∀ j, DualAt (a :: l) (b :: r) (j + 1) ↔ DualAt l r j := fun j => by
        simp [DualAt]
      rw [agreed]
      split_ifs with hdual
      · cases i with
        | zero => simp [hfirst, hdual]
        | succ i =>
          rw [Nat.succ_lt_succ_iff, ih]
          constructor
          · intro h j hj
            cases j with
            | zero => exact hfirst.mpr hdual
            | succ j => exact (hlater j).mpr (h j (Nat.le_of_succ_le_succ hj))
          · exact fun h j hj => (hlater j).mp (h (j + 1) (Nat.succ_le_succ hj))
      · exact ⟨fun h => absurd h (Nat.not_lt_zero i), fun h =>
          absurd (hfirst.mp (h 0 (Nat.zero_le i))) hdual⟩

/-- A call has returned, and a call of `recv_relrc` has received what its counterpart sent. -/
def BlockingCall.Returned (a b : BlockingCall N E H) (earlier : List (Option (Detached N E H)))
    (result : Option (Detached N E H)) : Prop :=
  match a, b, result with
  | .sendRelRc _, .recvRelRc _, none => True
  | .recvRelRc call, .sendRelRc d, some det => Delivered d (call earlier.reduceOption) det
  | _, _, _ => False

/-- A call returns only with a counterpart of the other kind. -/
theorem BlockingCall.Returned.dual {a b : BlockingCall N E H}
    {earlier : List (Option (Detached N E H))} {result : Option (Detached N E H)}
    (h : a.Returned b earlier result) : a.dual b := by
  cases a with
  | sendRelRc d =>
    cases b with
    | sendRelRc d' => cases result <;> exact h.elim
    | recvRelRc call => rfl
  | recvRelRc call =>
    cases b with
    | sendRelRc d => rfl
    | recvRelRc call' => cases result <;> exact h.elim

/-- The calls that have returned are the first ones of the script, and their counterparts are the
first ones of the other script. -/
def Served (script other : List (BlockingCall N E H))
    (results : List (Option (Detached N E H))) : Prop :=
  ∀ i result, results[i]? = some result → ∃ (a b : BlockingCall N E H), script[i]? = some a ∧
    other[i]? = some b ∧ a.Returned b (results.take i) result

theorem Served.nil : Served l r [] := by
  intro i result h
  simp at h

/-- One more call returns. -/
theorem Served.concat {a b : BlockingCall N E H} {result : Option (Detached N E H)}
    (h : Served l r results) (ha : l[results.length]? = some a) (hb : r[results.length]? = some b)
    (hreturned : a.Returned b results result) : Served l r (results ++ [result]) := by
  intro i result' hi
  have hlt := (List.getElem?_eq_some_iff.mp hi).1
  rw [List.length_append, List.length_singleton] at hlt
  rcases Nat.lt_succ_iff_lt_or_eq.mp hlt with hlt | rfl
  · rw [List.getElem?_append_left hlt] at hi
    rw [List.take_append_of_le_length hlt.le]
    exact h i result' hi
  · rw [List.getElem?_concat_length] at hi
    obtain rfl := Option.some.inj hi
    rw [List.take_left]
    exact ⟨a, b, ha, hb, hreturned⟩

/-- **No call returns without its counterpart.** -/
theorem Served.length_le (h : Served l r results) : results.length ≤ agreed l r := by
  refine Nat.le_of_not_lt fun hlt => ?_
  refine Nat.lt_irrefl (agreed l r) (lt_agreed_iff.mpr fun j hj => ?_)
  obtain ⟨a, b, ha, hb, hreturned⟩ := h j _ (List.getElem?_eq_getElem (hj.trans_lt hlt))
  exact ⟨a, b, ha, hb, hreturned.dual⟩

end Scripts

/-! ### A call that has begun -/

/-- A bound on the steps of a call. -/
def BlockingCall.steps : BlockingCall N E H → ℕ
  | .sendRelRc d => Conversation.transferSteps d
  | .recvRelRc _ => 0

/-- A bound on the steps of the calls from a position on. -/
def stepsFrom (script : List (BlockingCall N E H)) (i : ℕ) : ℕ :=
  ((script.drop i).map BlockingCall.steps).sum

/-- The next call takes its share of the bound. -/
theorem stepsFrom_eq {script : List (BlockingCall N E H)} {i : ℕ} {a : BlockingCall N E H}
    (h : script[i]? = some a) : stepsFrom script i = a.steps + stepsFrom script (i + 1) := by
  obtain ⟨hlt, rfl⟩ := List.getElem?_eq_some_iff.mp h
  rw [stepsFrom, List.drop_eq_getElem_cons hlt, List.map_cons, List.sum_cons]
  rfl

theorem stepsFrom_eq_zero {script : List (BlockingCall N E H)} {i : ℕ} (h : script[i]? = none) :
    stepsFrom script i = 0 := by
  rw [stepsFrom, List.drop_eq_nil_of_le (List.getElem?_eq_none_iff.mp h)]
  rfl

/-- The process has begun its next call, sent some messages, and received none. -/
inductive Fresh (script : List (BlockingCall N E H)) :
    Process N E H → List (MPIMessage N E H) → ℕ → Prop
  | sending {results : List (Option (Detached N E H))} {d : Detached N E H}
      {data : DetachedInnerData N E H} (inFlight rest : List (MPIMessage N E H))
      (hcall : script[results.length]? = some (.sendRelRc d))
      (hdata : d.allData[d.current]? = some data)
      (hsplit : mpiSend d.current data = inFlight ++ rest) :
      Fresh script ⟨results, .sending d (.sending rest)⟩ inFlight
        (2 * rest.length + inFlight.length + 3 + Exchange.pending d [])
  | receiving {results : List (Option (Detached N E H))} {call : ReceiveCall N E H}
      (hcall : script[results.length]? = some (.recvRelRc call)) :
      Fresh script ⟨results, .receiving (call results.reduceOption) (.awaitRelRc none)⟩ [] 0
  | ended {results : List (Option (Detached N E H))} (h : script[results.length]? = none) :
      Fresh script ⟨results, .ended⟩ [] 0

namespace Fresh

variable {script : List (BlockingCall N E H)} {p q : Process N E H} {n : ℕ}
variable {inFlight : List (MPIMessage N E H)} {out inn : Channel N E H} {y : Dialogue N E H}

/-- The next call begins with nothing sent. -/
theorem next (hscript : ∀ d, .sendRelRc d ∈ script → d.Complete)
    (results : List (Option (Detached N E H))) :
    ∃ n, Fresh script (Process.next script results) [] n ∧
      stepsFrom script results.length = n + stepsFrom script (results.length + 1) := by
  cases hcall : script[results.length]? with
  | none =>
    have hzero : stepsFrom script (results.length + 1) = 0 := by
      refine stepsFrom_eq_zero (List.getElem?_eq_none_iff.mpr ?_)
      exact (List.getElem?_eq_none_iff.mp hcall).trans (Nat.le_succ _)
    refine ⟨0, ?_, by rw [stepsFrom_eq_zero hcall, hzero]⟩
    simp only [Process.next, hcall]
    exact .ended hcall
  | some a =>
    rw [stepsFrom_eq hcall]
    refine ⟨a.steps, ?_, rfl⟩
    simp only [Process.next, hcall]
    cases a with
    | recvRelRc call => exact .receiving hcall
    | sendRelRc d =>
      obtain ⟨data, hdata⟩ :=
        OrderedMap.mem_iff_exists.mp (hscript d (List.mem_of_getElem? hcall)).root
      simp only [BlockingCall.steps, Conversation.transferSteps, Sender.send, hdata]
      exact .sending [] _ hcall hdata rfl

theorem next_concat (hscript : ∀ d, .sendRelRc d ∈ script → d.Complete)
    (results : List (Option (Detached N E H))) (result : Option (Detached N E H)) :
    ∃ n, Fresh script (Process.next script (results ++ [result])) [] n ∧
      stepsFrom script (results.length + 1) = n + stepsFrom script (results.length + 1 + 1) := by
  have hnext := next hscript (results ++ [result])
  rwa [List.length_append, List.length_singleton] at hnext

/-- A call that has just begun has not returned. -/
theorem settle (h : Fresh script p inFlight n) (attaches : AttachOutcome N E H) :
    p.settle attaches script = p := by
  cases h <;> rfl

theorem not_panicked (h : Fresh script p inFlight n) : ¬ p.Panicked := by
  cases h <;> exact id

/-- Everything a sender says on its own account is said to a receiver. -/
theorem tag_ne_ack {d : Detached N E H} {k : H} {data : DetachedInnerData N E H}
    (hdata : d.allData[k]? = some data) {msg : MPIMessage N E H} (h : msg ∈ mpiSend k data) :
    msg.tag ≠ .ack := by
  have hproper := Sender.proper_send d k
  rw [Sender.send, hdata] at hproper
  exact hproper _ rfl msg h

/-- What a call sends on its own account is no acknowledgement. -/
theorem sends_ne_ack (h : Fresh script p inFlight n) {msg : MPIMessage N E H}
    (hsend : p.sends = some msg) : msg.tag ≠ .ack := by
  cases h with
  | sending inFlight rest hcall hdata hsplit =>
    cases rest with
    | nil => cases hsend
    | cons msg' rest =>
      obtain rfl := Option.some.inj hsend
      exact tag_ne_ack hdata (hsplit ▸ List.mem_append_right _ List.mem_cons_self)
  | receiving _ => cases hsend
  | ended _ => cases hsend

/-- **A process that gets nothing can only send.** -/
theorem act (h : Fresh script p inFlight n) (hnone : ∀ tag, p.expects = some tag → inn tag = [])
    (hact : Dialogue.act ⟨p, q, out, inn⟩ = some y) :
    ∃ p' msg, ∃ n' < n, y = ⟨p', q, out.send msg, inn⟩ ∧ p'.results = p.results ∧
      Fresh script p' (inFlight ++ [msg]) n' := by
  cases h with
  | @sending results d data inFlight rest hcall hdata hsplit =>
    cases rest with
    | cons msg rest =>
      obtain rfl := Option.some.inj hact
      refine ⟨_, msg, _, ?_, rfl, rfl, .sending (inFlight ++ [msg]) rest hcall hdata ?_⟩
      · rw [List.length_cons, List.length_append, List.length_singleton]
        omega
      · rw [hsplit, List.append_assoc]
        rfl
    | nil =>
      have hreceive : inn.receive .ack = none := by rw [Channel.receive, hnone .ack rfl]
      simp only [Dialogue.act, Exchange.senderStep, hreceive] at hact
      cases hact
  | receiving hcall =>
    have hreceive : inn.receive .relRc = none := by rw [Channel.receive, hnone .relRc rfl]
    simp only [Dialogue.act, Exchange.receiverStep, Receiver.expects, Option.bind_some,
      hreceive] at hact
    cases hact
  | ended _ => cases hact

/-- Messages of a call are no acknowledgements. -/
theorem inFlight_ne_ack (h : Fresh script p inFlight n) {msg : MPIMessage N E H}
    (hmsg : msg ∈ inFlight) : msg.tag ≠ .ack := by
  cases h with
  | sending inFlight rest hcall hdata hsplit =>
    exact tag_ne_ack hdata (hsplit ▸ List.mem_append_left _ hmsg)
  | receiving _ => exact absurd hmsg List.not_mem_nil
  | ended _ => exact absurd hmsg List.not_mem_nil

end Fresh

section Apart

variable {l r : List (BlockingCall N E H)} {p q : Process N E H} {a b : List (MPIMessage N E H)}
variable {n n' : ℕ}

/-- A process that waits in a call gets nothing from a call that does not fit. -/
theorem Fresh.queued_of_expects (hp : Fresh l p a n) (hq : Fresh r q b n')
    (hlength : q.results.length = p.results.length) (hapart : ¬ DualAt l r p.results.length)
    {tag : MPIMessageTag} (hexpects : p.expects = some tag) : Channel.queued b tag = [] := by
  cases hp with
  | sending a rest hcall hdata hsplit =>
    cases rest with
    | cons msg rest => cases hexpects
    | nil =>
      obtain rfl := Option.some.inj hexpects
      refine List.filter_eq_nil_iff.mpr fun msg hmsg => ?_
      simpa using hq.inFlight_ne_ack hmsg
  | receiving hcall =>
    cases hq with
    | sending b rest hcall' _ _ =>
      rw [hlength] at hcall'
      exact absurd ⟨_, _, hcall, hcall', rfl⟩ hapart
    | receiving _ => rfl
    | ended _ => rfl
  | ended _ => cases hexpects

/-- Nothing is handed over between calls that do not fit. -/
theorem Fresh.not_hand (hp : Fresh l p a n) (hq : Fresh r q b n')
    (hlength : q.results.length = p.results.length) (hapart : ¬ DualAt l r p.results.length)
    {msg : MPIMessage N E H} (hsend : p.sends = some msg)
    (hreceive : q.expects = some msg.tag) : False := by
  have hack := hp.sends_ne_ack hsend
  cases hq with
  | sending b rest hcall hdata hsplit =>
    cases rest with
    | cons msg rest => cases hreceive
    | nil => exact hack (Option.some.inj hreceive).symm
  | receiving hcall' =>
    cases hp with
    | sending a rest hcall _ _ =>
      rw [hlength] at hcall'
      exact hapart ⟨_, _, hcall, hcall', rfl⟩
    | receiving _ => cases hsend
    | ended _ => cases hsend
  | ended _ => cases hreceive

end Apart

/-! ### One process sends to the other -/

namespace Dialogue

variable {buffered : Prop} {la ra : AttachOutcome N E H} {l r : List (BlockingCall N E H)}
variable {x y : Dialogue N E H}

/-- Seen from the other side, a step is a step. -/
theorem Step.swap (h : Step buffered la ra l r x y) : Step buffered ra la r l x.swap y.swap := by
  cases h with
  | left h => exact .right (x := x.swap) h
  | right h => exact .left h

/-- The left process is in a call of `send_relrc`, the right one in a call of `recv_relrc`. -/
def ofExchange (lres rres : List (Option (Detached N E H))) (d : Detached N E H)
    (m : ExtTreeMap H Ref) (e : Exchange N E H) : Dialogue N E H :=
  ⟨⟨lres, .sending d e.sender⟩, ⟨rres, .receiving m e.receiver⟩, e.toReceiver, e.toSender⟩

section OfExchange

variable {lres rres : List (Option (Detached N E H))} {d : Detached N E H} {m : ExtTreeMap H Ref}
variable {e : Exchange N E H}

/-- The process that sends acts as the sender of the exchange. -/
theorem act_ofExchange :
    (ofExchange lres rres d m e).act = (e.senderStep d).map (ofExchange lres rres d m) := by
  obtain ⟨sender, receiver, toReceiver, toSender, requested⟩ := e
  cases sender with
  | sending msgs =>
    cases msgs with
    | cons msg msgs => rfl
    | nil =>
      simp only [act, ofExchange, Exchange.senderStep, Option.map_map]
      rfl
  | _ => rfl

/-- The other one acts as the receiver. -/
theorem act_swap_ofExchange : (ofExchange lres rres d m e).swap.act =
    (e.receiverStep m).map fun e => (ofExchange lres rres d m e).swap := by
  have hact : (ofExchange lres rres d m e).swap.act =
      (Exchange.receiverStep m ⟨.finished, e.receiver, e.toReceiver, e.toSender, []⟩).map fun y =>
        ⟨⟨rres, .receiving m y.receiver⟩, ⟨lres, .sending d e.sender⟩, y.toSender,
          y.toReceiver⟩ := rfl
  rw [hact]
  cases hexpects : e.receiver.expects with
  | some tag =>
    have hself : ∀ x : Exchange N E H, x.receiver = e.receiver → x.receiverStep m =
        (x.toReceiver.receive tag).map fun res =>
          { x with receiver := x.receiver.onMessage res.1, toReceiver := res.2 } :=
      fun x hx => Exchange.receiverStep_of_expects (hx ▸ hexpects)
    rw [hself e rfl, hself ⟨.finished, e.receiver, e.toReceiver, e.toSender, []⟩ rfl,
      Option.map_map, Option.map_map]
    rfl
  | none =>
    obtain ⟨sender, receiver, toReceiver, toSender, requested⟩ := e
    cases receiver with
    | deciding det =>
      simp only [Exchange.receiverStep]
      by_cases hto : det.attachesTo m = true
      · simp only [if_pos hto]
        rfl
      · simp only [if_neg hto]
        cases det.requiredHashes.find? fun hash => !m.contains hash <;> rfl
    | finished _ => rfl
    | panicked _ => rfl
    | _ => cases hexpects

/-- A sender that waits has sent everything. -/
theorem sending_of_expects {sender : Sender N E H} {tag : MPIMessageTag}
    (h : Process.expects ⟨lres, .sending d sender⟩ = some tag) : sender = .sending [] := by
  cases sender with
  | sending msgs =>
    cases msgs with
    | nil => rfl
    | cons msg msgs => cases h
  | _ => cases h

/-- **Within a call, a dialogue is an exchange.** -/
theorem Step.modeStep (h : Step buffered la ra l r (ofExchange lres rres d m e) y) :
    ∃ e', e.ModeStep buffered d m e' ∧ y = (ofExchange lres rres d m e').settle la ra l r := by
  cases h with
  | left h =>
    cases h with
    | act h hb =>
      rw [act_ofExchange] at h
      obtain ⟨e', he', rfl⟩ := Option.map_eq_some_iff.mp h
      exact ⟨e', .sender he' hb, rfl⟩
    | hand hsend hfree hreceive h h' =>
      rw [act_ofExchange] at h
      obtain ⟨e', he', rfl⟩ := Option.map_eq_some_iff.mp h
      rw [act_swap_ofExchange] at h'
      obtain ⟨e'', he'', rfl⟩ := Option.map_eq_some_iff.mp h'
      exact ⟨e'', .toReceiver hsend hfree hreceive he' he'', rfl⟩
  | right h =>
    cases h with
    | act h hb =>
      rw [act_swap_ofExchange] at h
      obtain ⟨e', he', rfl⟩ := Option.map_eq_some_iff.mp h
      exact ⟨e', .receiver he' hb, rfl⟩
    | hand hsend hfree hreceive h h' =>
      rw [act_swap_ofExchange] at h
      obtain ⟨e', he', rfl⟩ := Option.map_eq_some_iff.mp h
      have hact : (ofExchange lres rres d m e').act = _ := h'
      rw [act_ofExchange] at hact
      obtain ⟨e'', he'', rfl⟩ := Option.map_eq_some_iff.mp hact
      exact ⟨e'', .toSender hsend hfree (sending_of_expects hreceive) he' he'', rfl⟩

theorem act_of_senderStep {z : Exchange N E H} (h : e.senderStep d = some z) :
    (ofExchange lres rres d m e).act = some (ofExchange lres rres d m z) := by
  rw [act_ofExchange, h]
  rfl

theorem act_of_receiverStep {z : Exchange N E H} (h : e.receiverStep m = some z) :
    (ofExchange lres rres d m e).swap.act = some (ofExchange lres rres d m z).swap := by
  rw [act_swap_ofExchange, h]
  rfl

/-- A step of the exchange is one of the dialogue. -/
theorem Step.of_modeStep {e' : Exchange N E H} (hstep : e.ModeStep buffered d m e') :
    Step buffered la ra l r (ofExchange lres rres d m e)
      ((ofExchange lres rres d m e').settle la ra l r) := by
  cases hstep with
  | sender h hb => exact .left (.act (act_of_senderStep h) hb)
  | receiver h hb =>
    exact .right (y := (ofExchange lres rres d m e').swap.settle ra la r l)
      (.act (act_of_receiverStep h) hb)
  | toReceiver hsend hfree hreceive h h' =>
    exact .left (.hand (z := (ofExchange lres rres d m e').swap) hsend hfree hreceive
      (act_of_senderStep h) (act_of_receiverStep h'))
  | @toSender z _ msg hsend hfree hreceive h h' =>
    have hexpects : Process.expects ⟨lres, .sending d e.sender⟩ = some msg.tag := by
      rw [Receiver.tag_of_next hsend, hreceive]
      rfl
    have hact : (ofExchange lres rres d m z).swap.swap.act = some (ofExchange lres rres d m e') :=
      act_of_senderStep h'
    exact .right (y := (ofExchange lres rres d m e').swap.settle ra la r l)
      (.hand (z := ofExchange lres rres d m e') hsend hfree hexpects (act_of_receiverStep h) hact)

end OfExchange

/-! ### Stages -/

open Exchange

/-- The states of a dialogue, with a bound on the number of steps that are left. In a call, the left
process is the one that sends. -/
inductive Stage (la ra : AttachOutcome N E H) (l r : List (BlockingCall N E H)) :
    Dialogue N E H → ℕ → Prop
  /-- Both processes are in the same call, and neither has returned. -/
  | call {lres rres : List (Option (Detached N E H))} {d : Detached N E H}
      {call : ReceiveCall N E H} {e : Exchange N E H} {n : ℕ} (hl : Served l r lres)
      (hr : Served r l rres) (hlength : rres.length = lres.length)
      (hd : l[lres.length]? = some (.sendRelRc d))
      (hcall : r[lres.length]? = some (.recvRelRc call))
      (hx : Phase d (call rres.reduceOption) e n) (hopen : ∀ det, e.receiver ≠ .finished det) :
      Stage la ra l r (ofExchange lres rres d (call rres.reduceOption) e)
        (n + stepsFrom l (lres.length + 1) + stepsFrom r (lres.length + 1))
  /-- The receiver is in its next call, and `Done` is still on its way. -/
  | ahead {lres : List (Option (Detached N E H))} {d : Detached N E H} {q : Process N E H}
      {call : ReceiveCall N E H} {inFlight : List (MPIMessage N E H)} {n : ℕ}
      (hl : Served l r lres) (hr : Served r l q.results)
      (hlength : q.results.length = lres.length + 1)
      (hd : l[lres.length]? = some (.sendRelRc d))
      (hcall : r[lres.length]? = some (.recvRelRc call)) (hq : Fresh r q inFlight n) :
      Stage la ra l r ⟨⟨lres, .sending d (.sending [])⟩, q, .empty, .queued (.done :: inFlight)⟩
        (1 + n + stepsFrom l (lres.length + 1) + stepsFrom r (lres.length + 1 + 1))
  /-- Both processes are in calls that do not fit together. -/
  | apart {p q : Process N E H} {a b : List (MPIMessage N E H)} {n n' : ℕ}
      (hl : Served l r p.results) (hr : Served r l q.results)
      (hlength : q.results.length = p.results.length) (hp : Fresh l p a n) (hq : Fresh r q b n')
      (hapart : ¬ DualAt l r p.results.length) :
      Stage la ra l r ⟨p, q, .queued a, .queued b⟩
        (n + n' + stepsFrom l (p.results.length + 1) + stepsFrom r (p.results.length + 1))
  /-- `attach` has panicked in the receiver, and `Done` is still on its way. -/
  | panicked {lres rres : List (Option (Detached N E H))} {d det : Detached N E H}
      {call : ReceiveCall N E H} {m : ExtTreeMap H Ref} (hl : Served l r lres)
      (hr : Served r l rres) (hd : l[lres.length]? = some (.sendRelRc d))
      (hcall : r[lres.length]? = some (.recvRelRc call)) (hattach : ra det m = false) :
      Stage la ra l r
        ⟨⟨lres, .sending d (.sending [])⟩, ⟨rres, .receiving m (.finished det)⟩, .empty,
          .queued [.done]⟩ (1 + stepsFrom l (lres.length + 1))
  /-- `attach` has panicked in the receiver, and the sender is in its next call. -/
  | alone {p : Process N E H} {rres : List (Option (Detached N E H))} {det : Detached N E H}
      {m : ExtTreeMap H Ref} {a : List (MPIMessage N E H)} {n : ℕ} (hl : Served l r p.results)
      (hr : Served r l rres) (hp : Fresh l p a n) (hattach : ra det m = false) :
      Stage la ra l r ⟨p, ⟨rres, .receiving m (.finished det)⟩, .queued a, .empty⟩ n

/-- A stage, with either process as the one that sends. -/
def EitherStage (la ra : AttachOutcome N E H) (l r : List (BlockingCall N E H))
    (x : Dialogue N E H) (n : ℕ) : Prop :=
  Stage la ra l r x n ∨ Stage ra la r l x.swap n

theorem EitherStage.swap {n : ℕ} (h : EitherStage la ra l r x n) : EitherStage ra la r l x.swap n :=
  Or.symm h

section Stages

variable {lres rres : List (Option (Detached N E H))} {d : Detached N E H}
variable {p q : Process N E H} {a b : List (MPIMessage N E H)} {n n' : ℕ}

theorem awaitRelRc_ne (prior : Option (Detached N E H)) (det : Detached N E H) :
    Receiver.awaitRelRc prior ≠ .finished det := by
  intro h
  cases h

/-- Two calls that have begun are a transfer, or do not fit together. -/
theorem EitherStage.of_fresh (hl : Served l r p.results) (hr : Served r l q.results)
    (hlength : q.results.length = p.results.length) (hp : Fresh l p a n) (hq : Fresh r q b n') :
    EitherStage la ra l r ⟨p, q, .queued a, .queued b⟩
      (n + n' + stepsFrom l (p.results.length + 1) + stepsFrom r (p.results.length + 1)) := by
  by_cases hapart : DualAt l r p.results.length
  · obtain ⟨c, c', hc, hc', hdual⟩ := hapart
    cases hp with
    | @sending lres d data a rest hcall hdata hsplit =>
      have hmore : a ++ rest ≠ [] := hsplit ▸ List.cons_ne_nil _ _
      cases hq with
      | @receiving rres call hcall' =>
        rw [hlength] at hcall'
        have hphase := Phase.transfer (m := call rres.reduceOption) [] a rest .first hdata hsplit
          hmore
        exact Or.inl (.call hl hr hlength hcall hcall' hphase fun det => awaitRelRc_ne none det)
      | sending b rest' hcall' hdata' hsplit' =>
        rw [hlength] at hcall'
        obtain rfl := Option.some.inj (hc.symm.trans hcall)
        obtain rfl := Option.some.inj (hc'.symm.trans hcall')
        cases hdual
      | ended hcall' =>
        rw [hlength, hc'] at hcall'
        cases hcall'
    | @receiving lres call hcall =>
      cases hq with
      | @sending rres d data b rest hcall' hdata hsplit =>
        have hmore : b ++ rest ≠ [] := hsplit ▸ List.cons_ne_nil _ _
        have hphase := Phase.transfer (m := call lres.reduceOption) [] b rest .first hdata hsplit
          hmore
        replace hlength : rres.length = lres.length := hlength
        rw [← hlength] at hcall
        have hstage : Stage ra la r l _ _ :=
          .call hr hl hlength.symm hcall' hcall hphase fun det => awaitRelRc_ne none det
        rw [hlength] at hstage
        rw [zero_add, add_right_comm]
        exact Or.inr hstage
      | receiving hcall' =>
        rw [hlength] at hcall'
        obtain rfl := Option.some.inj (hc.symm.trans hcall)
        obtain rfl := Option.some.inj (hc'.symm.trans hcall')
        cases hdual
      | ended hcall' =>
        rw [hlength, hc'] at hcall'
        cases hcall'
    | ended hcall =>
      rw [hc] at hcall
      cases hcall
  · exact Or.inl (.apart hl hr hlength hp hq hapart)

/-- Two processes in their first calls are in a stage. -/
theorem EitherStage.start (hl : ∀ d, .sendRelRc d ∈ l → d.Complete)
    (hr : ∀ d, .sendRelRc d ∈ r → d.Complete) : ∃ n, EitherStage la ra l r (start l r) n := by
  obtain ⟨n, hp, -⟩ := Fresh.next hl []
  obtain ⟨n', hq, -⟩ := Fresh.next hr []
  exact ⟨_, .of_fresh (p := Process.next l []) (q := Process.next r []) Served.nil Served.nil rfl
    hp hq⟩

/-- A call that neither process has returned from goes on as it is. -/
theorem settle_ofExchange {m : ExtTreeMap H Ref} {e : Exchange N E H} (hs : e.sender ≠ .finished)
    (hr : ∀ det, e.receiver ≠ .finished det) :
    (ofExchange lres rres d m e).settle la ra l r = ofExchange lres rres d m e := by
  obtain ⟨sender, receiver, toReceiver, toSender, requested⟩ := e
  have hsender : Process.settle la l ⟨lres, .sending d sender⟩ = ⟨lres, .sending d sender⟩ := by
    cases sender with
    | finished => exact absurd rfl hs
    | _ => rfl
  have hreceiver : Process.settle ra r ⟨rres, .receiving m receiver⟩ =
      ⟨rres, .receiving m receiver⟩ := by
    cases receiver with
    | finished det => exact absurd rfl (hr det)
    | _ => rfl
  simp only [settle, ofExchange, hsender, hreceiver]

/-- The sender has taken `Done` and begins its next call. -/
theorem EitherStage.of_done {call : ReceiveCall N E H}
    (hscript : ∀ d, .sendRelRc d ∈ l → d.Complete) (hl : Served l r lres)
    (hr : Served r l q.results) (hlength : q.results.length = lres.length + 1)
    (hd : l[lres.length]? = some (.sendRelRc d)) (hcall : r[lres.length]? = some (.recvRelRc call))
    (hq : Fresh r q b n) :
    EitherStage la ra l r ⟨Process.next l (lres ++ [none]), q, .empty, .queued b⟩
      (n + stepsFrom l (lres.length + 1) + stepsFrom r (lres.length + 1 + 1)) := by
  have hserved : Served l r (lres ++ [none]) := hl.concat hd hcall trivial
  obtain ⟨k, hfresh, hsteps⟩ := Fresh.next_concat hscript lres none
  have hresults : (Process.next l (lres ++ [none])).results.length = lres.length + 1 :=
    List.length_append
  have hstage : EitherStage la ra l r _ _ :=
    .of_fresh (p := Process.next l (lres ++ [none])) hserved hr (hlength.trans hresults.symm)
      hfresh hq
  rw [hresults] at hstage
  rw [hsteps, ← add_assoc, add_comm n k]
  exact hstage

/-- The receiver has returned: `Done` is on its way, or the sender has taken it. -/
theorem delivered_of_finished {m : ExtTreeMap H Ref} {e : Exchange N E H} {det : Detached N E H}
    (hx : Phase d m e n) (h : e.receiver = .finished det) : Delivered d m det ∧
      e.toReceiver = .empty ∧ (e.sender = .sending [] ∧ e.toSender = .queued [.done] ∧ n = 1 ∨
        e.sender = .finished ∧ e.toSender = .empty ∧ n = 0) := by
  cases hx with
  | transfer consumed inFlight rest hk hdata hsplit hmore =>
    exact absurd h (after_ne_finished hsplit hmore)
  | deciding _ => cases h
  | request _ _ => exact absurd h (awaitRelRc_ne _ det)
  | done hdet hto =>
    obtain rfl := Receiver.finished.inj h
    exact ⟨hdet.delivered hto, rfl, Or.inl ⟨rfl, rfl, rfl⟩⟩
  | finished hdet hto =>
    obtain rfl := Receiver.finished.inj h
    exact ⟨hdet.delivered hto, rfl, Or.inr ⟨rfl, rfl, rfl⟩⟩

/-- A receiver whose `attach` returns begins its next call. -/
theorem settle_of_attach {m : ExtTreeMap H Ref} {det : Detached N E H} {sender : Sender N E H}
    {toRight toLeft : Channel N E H} (h : ra det m = true) :
    settle la ra l r ⟨⟨lres, .sending d sender⟩, ⟨rres, .receiving m (.finished det)⟩, toRight,
        toLeft⟩ =
      ⟨Process.settle la l ⟨lres, .sending d sender⟩, Process.next r (rres ++ [some det]), toRight,
        toLeft⟩ := by
  simp only [settle, Process.settle, h, if_true]

/-- A receiver whose `attach` panics does not return. -/
theorem settle_of_not_attach {m : ExtTreeMap H Ref} {det : Detached N E H}
    {toRight toLeft : Channel N E H} (h : ra det m = false) :
    settle la ra l r ⟨p, ⟨rres, .receiving m (.finished det)⟩, toRight, toLeft⟩ =
      ⟨p.settle la l, ⟨rres, .receiving m (.finished det)⟩, toRight, toLeft⟩ := by
  simp only [settle, Process.settle, h, Bool.false_eq_true, if_false]

/-- A step within a call that both processes are in; the receiver may get to the end of it, where it
returns or `attach` panics. -/
theorem Stage.call_step {call : ReceiveCall N E H} {e : Exchange N E H}
    (hscript : ∀ d, .sendRelRc d ∈ l → d.Complete) (hscript' : ∀ d, .sendRelRc d ∈ r → d.Complete)
    (hl : Served l r lres) (hr : Served r l rres) (hlength : rres.length = lres.length)
    (hd : l[lres.length]? = some (.sendRelRc d)) (hcall : r[lres.length]? = some (.recvRelRc call))
    (hx : Phase d (call rres.reduceOption) e n)
    (hstep : Step buffered la ra l r (ofExchange lres rres d (call rres.reduceOption) e) y) :
    ∃ n' < n + stepsFrom l (lres.length + 1) + stepsFrom r (lres.length + 1),
      EitherStage la ra l r y n' := by
  obtain ⟨e', hact, rfl⟩ := hstep.modeStep
  obtain ⟨n', hlt, hx'⟩ := hx.modeStep (hscript d (List.mem_of_getElem? hd)) hact
  by_cases hopen : ∃ det, e'.receiver = .finished det
  · obtain ⟨det, hdet⟩ := hopen
    obtain ⟨hdelivered, hqueue, hend⟩ := delivered_of_finished hx' hdet
    have hcall' : r[rres.length]? = some (.recvRelRc call) := hlength ▸ hcall
    have hd' : l[rres.length]? = some (.sendRelRc d) := hlength ▸ hd
    have hserved : Served r l (rres ++ [some det]) := hr.concat hcall' hd' hdelivered
    have hresults : (Process.next r (rres ++ [some det])).results.length = lres.length + 1 :=
      hlength ▸ List.length_append
    obtain ⟨k, hfresh, hsteps⟩ := Fresh.next_concat hscript' rres (some det)
    rw [hlength] at hsteps
    obtain ⟨sender, receiver, toReceiver, toSender, requested⟩ := e'
    obtain rfl : receiver = .finished det := hdet
    obtain rfl : toReceiver = .empty := hqueue
    by_cases hattach : ra det (call rres.reduceOption) = true
    · -- the receiver begins its next call
      rw [ofExchange, settle_of_attach hattach]
      obtain ⟨rfl, rfl, rfl⟩ | ⟨rfl, rfl, rfl⟩ := hend
      · have hstage : Stage la ra l r _ _ := .ahead hl hserved hresults hd hcall hfresh
        exact ⟨_, by omega, Or.inl hstage⟩
      · have hstage : EitherStage la ra l r _ _ :=
          .of_done hscript hl hserved hresults hd hcall hfresh
        exact ⟨_, by omega, hstage⟩
    · -- the receiver stays where it is
      replace hattach := Bool.eq_false_of_not_eq_true hattach
      rw [ofExchange, settle_of_not_attach hattach]
      obtain ⟨rfl, rfl, rfl⟩ | ⟨rfl, rfl, rfl⟩ := hend
      · have hstage : Stage la ra l r _ _ := .panicked hl hr hd hcall hattach
        exact ⟨_, by omega, Or.inl hstage⟩
      · have hreturned : (BlockingCall.sendRelRc d).Returned (.recvRelRc call) lres none := trivial
        obtain ⟨j, hnext, hsteps'⟩ := Fresh.next_concat hscript lres none
        have hstage : Stage la ra l r _ _ :=
          .alone (hl.concat hd hcall hreturned) hr hnext hattach
        exact ⟨_, by omega, Or.inl hstage⟩
  · have hreceiver : ∀ det, e'.receiver ≠ .finished det := fun det hdet => hopen ⟨det, hdet⟩
    have hsender : e'.sender ≠ .finished := by
      cases hx' with
      | finished _ _ => exact absurd rfl (hreceiver _)
      | _ =>
        intro hsender
        cases hsender
    rw [settle_ofExchange hsender hreceiver]
    exact ⟨_, by omega, Or.inl (.call hl hr hlength hd hcall hx' hreceiver)⟩

/-- A receiver that is ahead begins its next call; the sender takes `Done`. -/
theorem Stage.ahead_step {call : ReceiveCall N E H}
    (hscript : ∀ d, .sendRelRc d ∈ l → d.Complete) (hl : Served l r lres)
    (hr : Served r l q.results) (hlength : q.results.length = lres.length + 1)
    (hd : l[lres.length]? = some (.sendRelRc d)) (hcall : r[lres.length]? = some (.recvRelRc call))
    (hq : Fresh r q b n) (hstep : Step buffered la ra l r
      ⟨⟨lres, .sending d (.sending [])⟩, q, .empty, .queued (.done :: b)⟩ y) :
    ∃ n' < 1 + n + stepsFrom l (lres.length + 1) + stepsFrom r (lres.length + 1 + 1),
      EitherStage la ra l r y n' := by
  cases hstep with
  | left hstep =>
    cases hstep with
    | act h hb =>
      have hreceive := Channel.receive_queued (.done : MPIMessage N E H) b
      simp only [act, senderStep, MPIMessage.tag] at h hreceive
      rw [hreceive] at h
      obtain rfl := Option.some.inj h
      have hstage : EitherStage la ra l r _ _ := .of_done hscript hl hr hlength hd hcall hq
      have hsettle : settle la ra l r ⟨⟨lres, .sending d .finished⟩, q, .empty, .queued b⟩ =
          ⟨Process.next l (lres ++ [none]), q, .empty, .queued b⟩ := by
        simp only [settle, hq.settle]
        rfl
      exact ⟨_, by omega, hsettle ▸ hstage⟩
    | hand hsend _ _ _ _ => cases hsend
  | right hstep =>
    cases hstep with
    | act h hb =>
      obtain ⟨p', msg, n', hlt, rfl, hresults, hfresh⟩ := hq.act (fun _ _ => rfl) h
      rw [← hresults] at hr hlength
      have hstage : Stage la ra l r _ _ := .ahead hl hr hlength hd hcall hfresh
      have hsettle : (settle ra la r l ⟨p', ⟨lres, .sending d (.sending [])⟩,
          (Channel.queued (.done :: b)).send msg, .empty⟩).swap =
          ⟨⟨lres, .sending d (.sending [])⟩, p', .empty, .queued (.done :: (b ++ [msg]))⟩ := by
        simp only [settle, hfresh.settle, Channel.send_queued]
        rfl
      exact ⟨_, by omega, Or.inl (hsettle ▸ hstage)⟩
    | hand hsend _ hreceive _ _ =>
      exact absurd (Option.some.inj hreceive).symm (hq.sends_ne_ack hsend)

/-- A receiver that has panicked takes no further step; the sender takes `Done`. -/
theorem Stage.panicked_step {call : ReceiveCall N E H} {m : ExtTreeMap H Ref} {det : Detached N E H}
    (hscript : ∀ d, .sendRelRc d ∈ l → d.Complete) (hl : Served l r lres) (hr : Served r l rres)
    (hd : l[lres.length]? = some (.sendRelRc d)) (hcall : r[lres.length]? = some (.recvRelRc call))
    (hattach : ra det m = false) (hstep : Step buffered la ra l r
      ⟨⟨lres, .sending d (.sending [])⟩, ⟨rres, .receiving m (.finished det)⟩, .empty,
        .queued [.done]⟩ y) :
    ∃ n' < 1 + stepsFrom l (lres.length + 1), EitherStage la ra l r y n' := by
  cases hstep with
  | left hstep =>
    cases hstep with
    | act h hb =>
      have hreceive := Channel.receive_queued (.done : MPIMessage N E H) []
      simp only [act, senderStep, MPIMessage.tag] at h hreceive
      rw [hreceive] at h
      obtain rfl := Option.some.inj h
      have hreturned : (BlockingCall.sendRelRc d).Returned (.recvRelRc call) lres none := trivial
      obtain ⟨k, hnext, hsteps⟩ := Fresh.next_concat hscript lres none
      have hstage : Stage la ra l r _ _ := .alone (hl.concat hd hcall hreturned) hr hnext hattach
      rw [settle_of_not_attach hattach]
      exact ⟨_, by omega, Or.inl hstage⟩
    | hand hsend _ _ _ _ => cases hsend
  | right hstep =>
    cases hstep with
    | act h hb => cases h
    | hand hsend _ _ _ _ => cases hsend

/-- A sender whose receiver has panicked can only send. -/
theorem Stage.alone_step {m : ExtTreeMap H Ref} {det : Detached N E H} (hl : Served l r p.results)
    (hr : Served r l rres) (hp : Fresh l p a n) (hattach : ra det m = false)
    (hstep : Step buffered la ra l r
      ⟨p, ⟨rres, .receiving m (.finished det)⟩, .queued a, .empty⟩ y) :
    ∃ n' < n, EitherStage la ra l r y n' := by
  cases hstep with
  | left hstep =>
    cases hstep with
    | act h hb =>
      obtain ⟨p', msg, k, hlt, rfl, hresults, hfresh⟩ := hp.act (fun _ _ => rfl) h
      rw [← hresults] at hl
      have hstage : Stage la ra l r _ _ := .alone hl hr hfresh hattach
      rw [settle_of_not_attach hattach, hfresh.settle, Channel.send_queued]
      exact ⟨_, hlt, Or.inl hstage⟩
    | hand _ _ hreceive _ _ => cases hreceive
  | right hstep =>
    cases hstep with
    | act h hb => cases h
    | hand hsend _ _ _ _ => cases hsend

/-- A step in calls that do not fit together only sends. -/
theorem Stage.apart_leftStep (hl : Served l r p.results) (hr : Served r l q.results)
    (hlength : q.results.length = p.results.length) (hp : Fresh l p a n) (hq : Fresh r q b n')
    (hapart : ¬ DualAt l r p.results.length)
    (hstep : LeftStep buffered la ra l r ⟨p, q, .queued a, .queued b⟩ y) :
    ∃ k < n + n' + stepsFrom l (p.results.length + 1) + stepsFrom r (p.results.length + 1),
      EitherStage la ra l r y k := by
  cases hstep with
  | act h hb =>
    obtain ⟨p', msg, k, hlt, rfl, hresults, hfresh⟩ :=
      hp.act (fun tag => hp.queued_of_expects hq hlength hapart) h
    rw [← hresults] at hl hlength hapart ⊢
    have hstage : Stage la ra l r _ _ := .apart hl hr hlength hfresh hq hapart
    have hsettle : settle la ra l r ⟨p', q, (Channel.queued a).send msg, .queued b⟩ =
        ⟨p', q, .queued (a ++ [msg]), .queued b⟩ := by
      simp only [settle, hfresh.settle, hq.settle, Channel.send_queued]
    exact ⟨_, by omega, Or.inl (hsettle ▸ hstage)⟩
  | hand hsend _ hreceive _ _ => exact (hp.not_hand hq hlength hapart hsend hreceive).elim

/-- **A step leads to a stage** with fewer steps left. -/
theorem Stage.step (hscript : ∀ d, .sendRelRc d ∈ l → d.Complete)
    (hscript' : ∀ d, .sendRelRc d ∈ r → d.Complete) (h : Stage la ra l r x n)
    (hstep : Step buffered la ra l r x y) : ∃ n' < n, EitherStage la ra l r y n' := by
  cases h with
  | call hl hr hlength hd hcall hx hopen =>
    exact Stage.call_step hscript hscript' hl hr hlength hd hcall hx hstep
  | ahead hl hr hlength hd hcall hq =>
    exact Stage.ahead_step hscript hl hr hlength hd hcall hq hstep
  | @apart p q a b n n' hl hr hlength hp hq hapart =>
    cases hstep with
    | left hstep => exact Stage.apart_leftStep hl hr hlength hp hq hapart hstep
    | right hstep =>
      have hapart' : ¬ DualAt r l q.results.length := fun hdual =>
        hapart (hlength ▸ hdual.symm)
      obtain ⟨k, hlt, hstage⟩ :=
        Stage.apart_leftStep hr hl hlength.symm hq hp hapart' hstep
      rw [hlength] at hlt
      exact ⟨k, by omega, hstage.swap⟩
  | panicked hl hr hd hcall hattach =>
    exact Stage.panicked_step hscript hl hr hd hcall hattach hstep
  | alone hl hr hp hattach => exact Stage.alone_step hl hr hp hattach hstep

/-- **Every step lowers the bound**, whoever sends. -/
theorem EitherStage.lowers (hscript : ∀ d, .sendRelRc d ∈ l → d.Complete)
    (hscript' : ∀ d, .sendRelRc d ∈ r → d.Complete) :
    Lowers (Step buffered la ra l r) (EitherStage la ra l r) := by
  intro x n h y hstep
  rcases h with h | h
  · exact h.step hscript hscript' hstep
  · obtain ⟨n', hlt, hstage⟩ := h.step hscript' hscript hstep.swap
    exact ⟨n', hlt, hstage.swap⟩

theorem Stage.not_panicked (h : Stage la ra l r x n) : ¬ x.left.Panicked ∧ ¬ x.right.Panicked := by
  cases h with
  | @call lres rres d call e n hl hr hlength hd hcall hx hopen =>
    obtain ⟨sender, receiver, toReceiver, toSender, requested⟩ := e
    constructor
    · cases sender with
      | panicked panic => exact fun _ => (hx.not_panicked panic).1 rfl
      | _ => exact id
    · cases receiver with
      | panicked panic => exact fun _ => (hx.not_panicked panic).2 rfl
      | _ => exact id
  | ahead _ _ _ _ _ hq => exact ⟨id, hq.not_panicked⟩
  | apart _ _ _ hp hq _ => exact ⟨hp.not_panicked, hq.not_panicked⟩
  | panicked _ _ _ _ _ => exact ⟨id, id⟩
  | alone _ _ hp _ => exact ⟨hp.not_panicked, id⟩

/-- Only calls with a counterpart have returned. -/
theorem Stage.served (h : Stage la ra l r x n) :
    Served l r x.left.results ∧ Served r l x.right.results := by
  cases h with
  | call hl hr _ _ _ _ _ => exact ⟨hl, hr⟩
  | ahead hl hr _ _ _ _ => exact ⟨hl, hr⟩
  | apart hl hr _ _ _ _ => exact ⟨hl, hr⟩
  | panicked hl hr _ _ _ => exact ⟨hl, hr⟩
  | alone hl hr _ _ => exact ⟨hl, hr⟩

/-- As many calls have returned as fit together. -/
def Exhausted (l r : List (BlockingCall N E H)) (x : Dialogue N E H) : Prop :=
  x.left.results.length = agreed l r ∧ x.right.results.length = agreed l r

/-- An `attach` at the end of a call has panicked. -/
def AttachPanicked (la ra : AttachOutcome N E H) (x : Dialogue N E H) : Prop :=
  x.left.AttachPanicked la ∨ x.right.AttachPanicked ra

/-- **No process waits in vain for a call that fits**, and no send needs a buffer. -/
theorem Stage.exists_step (h : Stage la ra l r x n) :
    (Exhausted l r x ∨ AttachPanicked la ra x) ∨ ∃ y, Step False la ra l r x y := by
  cases h with
  | call hl hr hlength hd hcall hx hopen =>
    rcases hx.exists_modeStep with hfinished | ⟨e', hact⟩
    · cases hx with
      | finished _ _ => exact absurd rfl (hopen _)
      | _ => cases hfinished
    · exact Or.inr ⟨_, .of_modeStep hact⟩
  | @ahead lres d q call b n hl hr hlength hd hcall hq =>
    have hreceive := Channel.receive_queued (.done : MPIMessage N E H) b
    have hact : act ⟨⟨lres, .sending d (.sending [])⟩, q, .empty, .queued (.done :: b)⟩ =
        some ⟨⟨lres, .sending d .finished⟩, q, .empty, .queued b⟩ := by
      simp only [act, senderStep, MPIMessage.tag] at hreceive ⊢
      rw [hreceive]
      rfl
    exact Or.inr ⟨_, .left (.act hact fun hnext => hnext rfl)⟩
  | @apart p q a b n n' hl hr hlength hp hq hapart =>
    have hle : agreed l r ≤ p.results.length := by
      refine Nat.le_of_not_lt fun hlt => hapart ?_
      exact lt_agreed_iff.mp hlt _ le_rfl
    have heq := le_antisymm hl.length_le hle
    exact Or.inl (Or.inl ⟨heq, hlength.trans heq⟩)
  | panicked _ _ _ _ hattach => exact Or.inl (Or.inr (Or.inr ⟨_, _, rfl, hattach⟩))
  | alone _ _ _ hattach => exact Or.inl (Or.inr (Or.inr ⟨_, _, rfl, hattach⟩))

theorem EitherStage.facts (h : EitherStage la ra l r x n) :
    (¬ x.left.Panicked ∧ ¬ x.right.Panicked) ∧
      Served l r x.left.results ∧ Served r l x.right.results := by
  rcases h with h | h
  · exact ⟨h.not_panicked, h.served⟩
  · exact ⟨h.not_panicked.symm, h.served.symm⟩

/-- **A dialogue goes on** until it has come to its end, or an `attach` has panicked. -/
theorem EitherStage.exists_step (h : EitherStage la ra l r x n) :
    (Exhausted l r x ∨ AttachPanicked la ra x) ∨ ∃ y, Step False la ra l r x y := by
  rcases h with h | h
  · exact h.exists_step
  · rcases h.exists_step with (⟨hright, hleft⟩ | hattach) | ⟨y, hstep⟩
    · exact Or.inl (Or.inl ⟨hleft.trans (agreed_comm r l), hright.trans (agreed_comm r l)⟩)
    · exact Or.inl (Or.inr hattach.symm)
    · exact Or.inr ⟨y.swap, hstep.swap⟩

theorem LeftStep.mono (h : LeftStep buffered la ra l r x y) : LeftStep True la ra l r x y := by
  cases h with
  | act h _ => exact .act h fun _ => trivial
  | hand hsend hfree hreceive h h' => exact .hand hsend hfree hreceive h h'

/-- A step without buffers is one with them. -/
theorem Step.mono (h : Step buffered la ra l r x y) : Step True la ra l r x y := by
  cases h with
  | left h => exact .left h.mono
  | right h => exact .right h.mono

end Stages

end Dialogue

/-! ### Two programs -/

section Runs

variable [Inhabited H] {A B : AddrSource} {K L : KeySource} {P Q : State N E → Op N E → Prop}

/-- **Blocking calls are served exactly as far as the scripts agree.** Two processes call
`send_relrc` and `recv_relrc` in any order. Whatever the order of the steps, whichever sends are
buffered and whichever of the final `attach`es panic, nobody panics over a message, the number of
steps is bounded, and what a call has received is what the counterpart of this call has sent. No
call returns whose counterpart is not a call of the other kind, nor one that comes after such a
call; all calls before return, without any further buffering, unless an `attach` panics first. So
two processes that send to each other first are stuck for ever. -/
theorem dialogue_of_runs (la ra : AttachOutcome N E H) {hash : N → List (H × E) → H}
    {l r : List (BlockingCall N E H)} (hl : ∀ d, .sendRelRc d ∈ l → DetachedInRun A K P hash d)
    (hr : ∀ d, .sendRelRc d ∈ r → DetachedInRun B L Q hash d) :
    (∃ bound, ∀ (f : ℕ → Dialogue N E H) n, f 0 = Dialogue.start l r →
      (∀ i < n, Dialogue.Step True la ra l r (f i) (f (i + 1))) → n ≤ bound) ∧
    ∀ x, Relation.ReflTransGen (Dialogue.Step True la ra l r) (Dialogue.start l r) x →
      (¬ x.left.Panicked ∧ ¬ x.right.Panicked) ∧
      (Served l r x.left.results ∧ Served r l x.right.results) ∧
      (x.left.results.length ≤ agreed l r ∧ x.right.results.length ≤ agreed l r) ∧
      ∃ y, Relation.ReflTransGen (Dialogue.Step False la ra l r) x y ∧
        (Dialogue.Exhausted l r y ∨ Dialogue.AttachPanicked la ra y) := by
  have hscript : ∀ d, .sendRelRc d ∈ l → d.Complete := fun d hd => (hl d hd).complete
  have hscript' : ∀ d, .sendRelRc d ∈ r → d.Complete := fun d hd => (hr d hd).complete
  have hlowers : Lowers (Dialogue.Step True la ra l r) (Dialogue.EitherStage la ra l r) :=
    Dialogue.EitherStage.lowers hscript hscript'
  obtain ⟨bound, hstart⟩ : ∃ n, Dialogue.EitherStage la ra l r (Dialogue.start l r) n :=
    Dialogue.EitherStage.start hscript hscript'
  refine ⟨⟨bound, fun f n hf hsteps => ?_⟩, fun x hx => ?_⟩
  · rw [← hf] at hstart
    exact hlowers.length_le hstart n hsteps
  · obtain ⟨n, -, hstage⟩ := hlowers.steps hstart hx
    obtain ⟨hpanic, hleft, hright⟩ := hstage.facts
    refine ⟨hpanic, ⟨hleft, hright⟩, ⟨hleft.length_le, agreed_comm r l ▸ hright.length_le⟩, ?_⟩
    exact hlowers.exists_steps (fun _ _ hstep => hstep.mono) (fun _ _ h => h.exists_step) hstage

end Runs

/-- Send an object, receive one, and send the first one again. -/
def sendFirst (d : Detached ℕ ℕ ℕ) : List (BlockingCall ℕ ℕ ℕ) :=
  [.sendRelRc d, .recvRelRc attachToEarlier, .sendRelRc d]

/-- Receive an object, and send one twice. -/
def recvFirst (d : Detached ℕ ℕ ℕ) : List (BlockingCall ℕ ℕ ℕ) :=
  [.recvRelRc attachToEarlier, .sendRelRc d, .sendRelRc d]

/-- A diamond is sent for a left side; then both processes send, and neither returns. -/
theorem dialogue_of_runs_crossedSends :
    ∃ d d', twoDiamonds.world.heap.detach pairHash ∅ 3 = some d ∧
      leftSide.world.heap.detach pairHash ∅ 1 = some d' ∧
      ∃ y, Relation.ReflTransGen
          (Dialogue.Step False (fun _ _ => true) (fun _ _ => true) (sendFirst d) (recvFirst d'))
          (Dialogue.start (sendFirst d) (recvFirst d')) y ∧
        y.left.results.length = 2 ∧ y.right.results.length = 2 := by
  have hrun : Run AddrSource.lowest KeySource.reusing (fun _ _ => True) State.init twoDiamonds :=
    run_after (by decide +kernel) fun _ _ _ => trivial
  have hrun' : Run AddrSource.lowest KeySource.reusing (fun _ _ => True) State.init leftSide :=
    run_after (by decide +kernel) fun _ _ _ => trivial
  have hi : Inv twoDiamonds.world twoDiamonds.held twoDiamonds.regs := Run.inv hrun State.inv_init
  have hi' : Inv leftSide.world leftSide.held leftSide.regs := Run.inv hrun' State.inv_init
  have halive : twoDiamonds.world.heap.Alive 3 := by decide +kernel
  have halive' : leftSide.world.heap.Alive 1 := by decide +kernel
  obtain ⟨d, hd, -⟩ := hi.heap.detach_records pairHash halive ∅
  obtain ⟨d', hd', -⟩ := hi'.heap.detach_records pairHash halive' ∅
  have hobjects : ∀ a, .sendRelRc a ∈ sendFirst d →
      DetachedInRun AddrSource.lowest KeySource.reusing (fun _ _ => True) pairHash a := by
    intro a hmem
    have ha : a = d := by simpa [sendFirst] using hmem
    exact ha ▸ ⟨twoDiamonds, 3, hrun, halive, hd⟩
  have hobjects' : ∀ a, .sendRelRc a ∈ recvFirst d' →
      DetachedInRun AddrSource.lowest KeySource.reusing (fun _ _ => True) pairHash a := by
    intro a hmem
    have ha : a = d' := by simpa [recvFirst] using hmem
    exact ha ▸ ⟨leftSide, 1, hrun', halive', hd'⟩
  obtain ⟨-, -, -, y, hsteps, ⟨hleft, hright⟩ | hattach⟩ :=
    (dialogue_of_runs (fun _ _ => true) (fun _ _ => true) hobjects hobjects').2 _
      Relation.ReflTransGen.refl
  · exact ⟨d, d', hd, hd', y, hsteps, hleft, hright⟩
  · obtain ⟨_, _, -, hfalse⟩ | ⟨_, _, -, hfalse⟩ := hattach <;> cases hfalse

end Relrc
