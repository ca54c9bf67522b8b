import Relrc.Model.Transfer

/-!
# Conversations

The modes of `detached/mpi.rs`, and calls in a row. In the standard mode it is up to the MPI
implementation whether a send is buffered or blocks until the message is received; in the buffered
mode it is buffered. A send that is not buffered happens together with its receive.

A process sends several objects by calling `send_relrc` for one after the other, while the other
process calls `recv_relrc` as often; what a call is given to attach to may depend on what earlier
calls have returned. The two do not wait for each other between calls: one of them may be in the
next call while the other has not yet returned from the last one.

The last thing that `recv_relrc` does, after `Done`, is to attach what it has received. No message
depends on how, but the next call is made only if `attach` returns. Whether it does is a parameter
(`AttachOutcome`); it is a property of the records and of the given hashes.
-/

namespace Relrc

open Std (ExtTreeMap)

variable {N E H : Type}

/-- The message that `send_relrc` sends next. -/
def Sender.next : Sender N E H → Option (MPIMessage N E H)
  | .sending (msg :: _) => some msg
  | _ => none

variable [LinearOrder H]

/-- The message that `recv_relrc` sends next: `Done`, or a request. -/
def Receiver.next (attachTo : ExtTreeMap H Ref) : Receiver N E H → Option (MPIMessage N E H)
  | .deciding detached =>
    if detached.attachesTo attachTo then some .done
    else (detached.requiredHashes.find? fun hash => !attachTo.contains hash).map .requestRelRc
  | _ => none

/-! ### Modes -/

/-- One of the parties acts, or hands a message over to the other one. A message stays in a buffer
only if `buffered`. -/
inductive Exchange.ModeStep (buffered : Prop) (detached : Detached N E H)
    (attachTo : ExtTreeMap H Ref) (x : Exchange N E H) : Exchange N E H → Prop
  | sender {y : Exchange N E H} (h : x.senderStep detached = some y)
      (hb : x.sender.next ≠ none → buffered) : ModeStep buffered detached attachTo x y
  | receiver {y : Exchange N E H} (h : x.receiverStep attachTo = some y)
      (hb : x.receiver.next attachTo ≠ none → buffered) : ModeStep buffered detached attachTo x y
  /-- A send of `mpi_send` that is met by the receive of `mpi_recv`. -/
  | toReceiver {y z : Exchange N E H} {msg : MPIMessage N E H} (hsend : x.sender.next = some msg)
      (hfree : x.toReceiver msg.tag = []) (hreceive : x.receiver.expects = some msg.tag)
      (h : x.senderStep detached = some y) (h' : y.receiverStep attachTo = some z) :
      ModeStep buffered detached attachTo x z
  /-- A request or `Done` that is met by the receive of `send_relrc`. -/
  | toSender {y z : Exchange N E H} {msg : MPIMessage N E H}
      (hsend : x.receiver.next attachTo = some msg) (hfree : x.toSender msg.tag = [])
      (hreceive : x.sender = .sending []) (h : x.receiverStep attachTo = some y)
      (h' : y.senderStep detached = some z) : ModeStep buffered detached attachTo x z

/-! ### Calls in a row -/

/-- What a call of `recv_relrc` is given to attach to, from what earlier calls have received. -/
abbrev ReceiveCall (N E H : Type) [LinearOrder H] : Type :=
  List (Detached N E H) → ExtTreeMap H Ref

/-- Whether the `attach` at the end of `recv_relrc` returns, for what was received and what is given
to attach to. -/
abbrev AttachOutcome (N E H : Type) [LinearOrder H] : Type :=
  Detached N E H → ExtTreeMap H Ref → Bool

/-- The last calls of both processes, and what came before. -/
structure Conversation (N E H : Type) [LinearOrder H] where
  /-- The last call of either process, running or returned. -/
  exchange : Exchange N E H
  /-- The position of the object that is sent last. -/
  sends : ℕ
  /-- What the calls of `recv_relrc` before the last one have received. -/
  inbox : List (Detached N E H)

namespace Conversation

/-- Both processes are in their first call. -/
def start (detached : Detached N E H) : Conversation N E H := ⟨Exchange.start detached, 0, []⟩

/-- What has been received by calls that have sent `Done`. -/
def received (c : Conversation N E H) : List (Detached N E H) :=
  c.inbox ++
    match c.exchange.receiver with
    | .finished detached => [detached]
    | _ => []

/-- A step within the last calls, or the beginning of another call. -/
inductive Step (buffered : Prop) (attaches : AttachOutcome N E H) (objects : List (Detached N E H))
    (calls : List (ReceiveCall N E H)) (c : Conversation N E H) : Conversation N E H → Prop
  | act {detached : Detached N E H} {call : ReceiveCall N E H} {y : Exchange N E H}
      (hsend : objects[c.sends]? = some detached) (hcall : calls[c.inbox.length]? = some call)
      (h : c.exchange.ModeStep buffered detached (call c.inbox) y) :
      Step buffered attaches objects calls c { c with exchange := y }
  | sendNext {detached : Detached N E H} (h : c.exchange.sender = .finished)
      (hsend : objects[c.sends + 1]? = some detached) :
      Step buffered attaches objects calls c
        { c with
          exchange.sender := Sender.send detached detached.current
          sends := c.sends + 1 }
  /-- `attach` returns, and so does `recv_relrc`. -/
  | receiveNext {detached : Detached N E H} {last call : ReceiveCall N E H}
      (h : c.exchange.receiver = .finished detached) (hlast : calls[c.inbox.length]? = some last)
      (hattach : attaches detached (last c.inbox))
      (hcall : calls[c.inbox.length + 1]? = some call) :
      Step buffered attaches objects calls c
        { c with
          exchange.receiver := .awaitRelRc none
          exchange.requested := []
          inbox := c.inbox ++ [detached] }

/-- `attach` has panicked at the end of a call of `recv_relrc`. -/
def AttachPanicked (attaches : AttachOutcome N E H) (calls : List (ReceiveCall N E H))
    (c : Conversation N E H) : Prop :=
  ∃ detached last, c.exchange.receiver = .finished detached ∧
    calls[c.inbox.length]? = some last ∧ attaches detached (last c.inbox) = false

end Conversation

/-! ### Both directions at once -/

/-- The channels are those of another conversation. -/
def Conversation.onChannels (c : Conversation N E H) (toReceiver toSender : Channel N E H) :
    Conversation N E H :=
  { c with exchange.toReceiver := toReceiver, exchange.toSender := toSender }

/-- Two processes, each of which sends objects to the other one. The conversations share the
channels between the processes: what goes to the receiver of one goes to the sender of the other. -/
structure Duplex (N E H : Type) [LinearOrder H] where
  /-- The first process sends. -/
  first : Conversation N E H
  /-- The second process sends. -/
  second : Conversation N E H

namespace Duplex

/-- Both processes are in their first calls of `send_relrc` and `recv_relrc`. -/
def start (detached₁ detached₂ : Detached N E H) : Duplex N E H :=
  ⟨Conversation.start detached₁, Conversation.start detached₂⟩

/-- A step of one of the conversations, on the channels of both. -/
inductive Step (buffered : Prop) (attaches₁ attaches₂ : AttachOutcome N E H)
    (objects₁ objects₂ : List (Detached N E H)) (calls₁ calls₂ : List (ReceiveCall N E H))
    (x : Duplex N E H) : Duplex N E H → Prop
  | first {c : Conversation N E H} (h : x.first.Step buffered attaches₁ objects₁ calls₁ c) :
      Step buffered attaches₁ attaches₂ objects₁ objects₂ calls₁ calls₂ x
        ⟨c, x.second.onChannels c.exchange.toSender c.exchange.toReceiver⟩
  | second {c : Conversation N E H} (h : x.second.Step buffered attaches₂ objects₂ calls₂ c) :
      Step buffered attaches₁ attaches₂ objects₁ objects₂ calls₁ calls₂ x
        ⟨x.first.onChannels c.exchange.toSender c.exchange.toReceiver, c⟩

end Duplex

end Relrc
