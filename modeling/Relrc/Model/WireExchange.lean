import Relrc.Lib.Mailbox
import Relrc.Detached.Wire

/-!
# Transferring an object on the wire

The two parties of `detached/mpi.rs` as they run on MPI: a message is sent by `generate_send_match`
into the mailbox of the other process, and read by `extract_message` from the first envelope there
that `matched_probe_with_tag` finds under the tag.
-/

namespace Relrc

open Std (ExtTreeMap)

variable {N E H : Type}

/-- The envelope has this tag. -/
def Envelope.hasTag (tag : MPIMessageTag) (msg : Envelope N E) : Bool := msg.tag == tag.toInt32

/-- `matched_probe_with_tag`: the first envelope under a tag, and what is left. -/
def matchedProbeWithTag (box : List (Envelope N E)) (tag : MPIMessageTag) :
    Option (Envelope N E × List (Envelope N E)) := Mailbox.take (Envelope.hasTag tag) box

variable [LinearOrder H]

/-- The two parties and their mailboxes. -/
structure WireExchange (N E H : Type) [LinearOrder H] where
  sender : Sender N E H
  receiver : Receiver N E H
  toReceiver : List (Envelope N E)
  toSender : List (Envelope N E)

namespace WireExchange

/-- The first round has begun. -/
def start (detached : Detached N E H) : WireExchange N E H where
  sender := Sender.send detached detached.current
  receiver := .awaitRelRc none
  toReceiver := []
  toSender := []

variable (hash : H ≃ USize)

/-- The next action of `send_relrc`; an error is a panic of `extract_message`. -/
def senderStep (detached : Detached N E H) (w : WireExchange N E H) :
    Option (Except ReceivePanic (WireExchange N E H)) :=
  match w.sender with
  | .sending (msg :: msgs) =>
    some (.ok { w with
      sender := .sending msgs
      toReceiver := w.toReceiver ++ [generateSendMatch hash msg] })
  | .sending [] =>
    (matchedProbeWithTag w.toSender .ack).map fun res => do
      let msg ← extractMessage hash res.1
      pure { w with sender := Sender.onAck detached msg, toSender := res.2 }
  | _ => none

/-- The next action of `recv_relrc`; an error is a panic of `extract_message`. -/
def receiverStep (attachTo : ExtTreeMap H Ref) (w : WireExchange N E H) :
    Option (Except ReceivePanic (WireExchange N E H)) :=
  match w.receiver with
  | .deciding detached =>
    if detached.attachesTo attachTo then
      some (.ok { w with
        receiver := .finished detached
        toSender := w.toSender ++ [generateSendMatch hash (.done : MPIMessage N E H)] })
    else
      match detached.requiredHashes.find? fun hash => !attachTo.contains hash with
      | some required =>
        some (.ok { w with
          receiver := .awaitRelRc (some detached)
          toSender :=
            w.toSender ++ [generateSendMatch hash (.requestRelRc required : MPIMessage N E H)] })
      | none => some (.ok { w with receiver := .panicked .allKnown })
  | receiver =>
    receiver.expects.bind fun tag =>
      (matchedProbeWithTag w.toReceiver tag).map fun res => do
        let msg ← extractMessage hash res.1
        pure { w with receiver := receiver.onMessage msg, toReceiver := res.2 }

/-- One of the parties acts. -/
def Step (detached : Detached N E H) (attachTo : ExtTreeMap H Ref) (w w' : WireExchange N E H) :
    Prop :=
  w.senderStep hash detached = some (.ok w') ∨ w.receiverStep hash attachTo = some (.ok w')

end WireExchange

end Relrc
