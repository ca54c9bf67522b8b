import Relrc.Model.Detached

/-!
# Transferring an object

`detached/mpi.rs`: the sender detaches an object and sends its record; the receiver asks for the
records of ancestors, one at a time, until it can attach the object, and then says that it is done.
A record is a sequence of messages, each under the tag of its kind.

The transport is a queue for each tag and direction, which delivers what was sent. MPI is such a
transport for all messages but one: a request for an object whose hash is the word zero arrives as
`Done` (`Model/WireExchange`). So runs with channels are runs in which no object that has to be
requested has this hash.

Each party is a deterministic state machine: what it does next is to send a given message, or to
wait for the next message under a given tag. A run is an interleaving of the two. It ends when
`Done` is sent and taken; the `attach` at the end of `recv_relrc` sends and receives nothing
(`World.attachReceived`).
-/

namespace Relrc

open Std (ExtTreeMap)

/-- `MPIMessage`. -/
inductive MPIMessage (N E H : Type) where
  | relRc (hash : H)
  | nodeWeight (value : N)
  | incomingEdge (hashes : List H)
  | edgeWeight (value : E)
  | requestRelRc (hash : H)
  | done

/-- `MPIMessageTag`. -/
inductive MPIMessageTag where
  | relRc
  | nodeWeight
  | incomingEdge
  | edgeWeight
  | ack
deriving DecidableEq

variable {N E H : Type}

/-- `MPIMessage::tag`. -/
def MPIMessage.tag : MPIMessage N E H → MPIMessageTag
  | .relRc _ => .relRc
  | .nodeWeight _ => .nodeWeight
  | .incomingEdge _ => .incomingEdge
  | .edgeWeight _ => .edgeWeight
  | .requestRelRc _ => .ack
  | .done => .ack

/-! ### Channels -/

/-- One direction of the transport: a queue for each tag, which changes no message. -/
abbrev Channel (N E H : Type) : Type := MPIMessageTag → List (MPIMessage N E H)

namespace Channel

/-- Nothing is in flight. -/
def empty : Channel N E H := fun _ => []

/-- `MPISendRecv::send`. -/
def send (c : Channel N E H) (msg : MPIMessage N E H) : Channel N E H :=
  Function.update c msg.tag (c msg.tag ++ [msg])

/-- `MPISendRecv::receive`; `none` while no message with this tag has arrived. -/
def receive (c : Channel N E H) (tag : MPIMessageTag) :
    Option (MPIMessage N E H × Channel N E H) :=
  match c tag with
  | msg :: msgs => some (msg, Function.update c tag msgs)
  | [] => none

end Channel

/-! ### The sender -/

/-- The panics of the two parties. -/
inductive TransferPanic where
  /-- The sender is asked for an object that it has not recorded. -/
  | missingHash
  /-- A message of another kind than expected. -/
  | unexpectedMessage
  /-- The receiver cannot attach, and knows all required objects. -/
  | allKnown

/-- The state of `send_relrc`. -/
inductive Sender (N E H : Type) where
  /-- The messages of `mpi_send` that are still to be sent; when there are none, the sender waits
  for an acknowledgement. -/
  | sending (msgs : List (MPIMessage N E H))
  | finished
  | panicked (panic : TransferPanic)

section Sending

variable [LinearOrder H]

/-- `mpi_send`, as the list of messages that it sends. -/
def mpiSend (hash : H) (data : DetachedInnerData N E H) : List (MPIMessage N E H) :=
  [.relRc hash, .nodeWeight data.value, .incomingEdge (data.incoming.map Prod.fst)] ++
    data.incoming.map fun pe => .edgeWeight pe.2

/-- Look up an object and start to send it. -/
def Sender.send (detached : Detached N E H) (hash : H) : Sender N E H :=
  match detached.allData[hash]? with
  | some data => .sending (mpiSend hash data)
  | none => .panicked .missingHash

/-- The body of the loop of `send_relrc`, given the message that was received. -/
def Sender.onAck (detached : Detached N E H) : MPIMessage N E H → Sender N E H
  | .done => .finished
  | .requestRelRc hash => Sender.send detached hash
  | _ => .panicked .unexpectedMessage

end Sending

/-! ### The receiver -/

/-- The state of `recv_relrc`. The waiting states are those of `mpi_recv`. -/
inductive Receiver (N E H : Type) [LinearOrder H] where
  /-- At the head of the loop, with something received. -/
  | deciding (detached : Detached N E H)
  | awaitRelRc (detached : Option (Detached N E H))
  | awaitNodeWeight (detached : Option (Detached N E H)) (hash : H)
  | awaitIncomingEdge (detached : Option (Detached N E H)) (hash : H) (value : N)
  /-- The hashes whose edge weights are still to come, and the edges so far. -/
  | awaitEdgeWeight (detached : Option (Detached N E H)) (hash : H) (value : N) (hashes : List H)
      (incoming : List (H × E))
  /-- `Done` has been sent; what is left to do is to attach. -/
  | finished (detached : Detached N E H)
  | panicked (panic : TransferPanic)

section Receiving

variable [LinearOrder H]

/-- Insert a received object. -/
def insertReceived (detached : Option (Detached N E H)) (hash : H)
    (data : DetachedInnerData N E H) : Detached N E H :=
  let detached := detached.getD ⟨hash, ∅⟩
  { detached with allData := detached.allData.insert hash data }

namespace Receiver

/-- Wait for the next edge weight, if there is one to come. -/
def collect (detached : Option (Detached N E H)) (hash : H) (value : N) (hashes : List H)
    (incoming : List (H × E)) : Receiver N E H :=
  match hashes with
  | [] => .deciding (insertReceived detached hash ⟨value, incoming⟩)
  | _ :: _ => .awaitEdgeWeight detached hash value hashes incoming

/-- The tag that the receiver waits for. -/
def expects : Receiver N E H → Option MPIMessageTag
  | .awaitRelRc _ => some .relRc
  | .awaitNodeWeight _ _ => some .nodeWeight
  | .awaitIncomingEdge _ _ _ => some .incomingEdge
  | .awaitEdgeWeight _ _ _ _ _ => some .edgeWeight
  | _ => none

/-- What the receiver does with the message it has waited for. -/
def onMessage : Receiver N E H → MPIMessage N E H → Receiver N E H
  | .awaitRelRc detached, .relRc hash => .awaitNodeWeight detached hash
  | .awaitNodeWeight detached hash, .nodeWeight value => .awaitIncomingEdge detached hash value
  | .awaitIncomingEdge detached hash value, .incomingEdge hashes =>
    collect detached hash value hashes []
  | .awaitEdgeWeight detached hash value (source :: hashes) incoming, .edgeWeight weight =>
    collect detached hash value hashes (incoming ++ [(source, weight)])
  | _, _ => .panicked .unexpectedMessage

end Receiver

end Receiving

/-! ### The exchange -/

/-- The two parties, the messages in flight, and, for the record, the hashes that were requested. -/
structure Exchange (N E H : Type) [LinearOrder H] where
  sender : Sender N E H
  receiver : Receiver N E H
  toReceiver : Channel N E H
  toSender : Channel N E H
  requested : List H

namespace Exchange

variable [LinearOrder H]

/-- The first round has begun: the sender has detached the object, the receiver has received
nothing. -/
def start (detached : Detached N E H) : Exchange N E H where
  sender := Sender.send detached detached.current
  receiver := .awaitRelRc none
  toReceiver := Channel.empty
  toSender := Channel.empty
  requested := []

/-- The next action of `send_relrc`. -/
def senderStep (detached : Detached N E H) (x : Exchange N E H) : Option (Exchange N E H) :=
  match x.sender with
  | .sending (msg :: msgs) =>
    some { x with sender := .sending msgs, toReceiver := x.toReceiver.send msg }
  | .sending [] =>
    (x.toSender.receive .ack).map fun res =>
      { x with sender := Sender.onAck detached res.1, toSender := res.2 }
  | _ => none

/-- The next action of `recv_relrc`. -/
def receiverStep (attachTo : ExtTreeMap H Ref) (x : Exchange N E H) : Option (Exchange N E H) :=
  match x.receiver with
  | .deciding detached =>
    if detached.attachesTo attachTo then
      some { x with receiver := .finished detached, toSender := x.toSender.send .done }
    else
      match detached.requiredHashes.find? fun hash => !attachTo.contains hash with
      | some hash =>
        some { x with
          receiver := .awaitRelRc (some detached)
          toSender := x.toSender.send (.requestRelRc hash)
          requested := x.requested ++ [hash] }
      | none => some { x with receiver := .panicked .allKnown }
  | receiver =>
    receiver.expects.bind fun tag =>
      (x.toReceiver.receive tag).map fun res =>
        { x with receiver := receiver.onMessage res.1, toReceiver := res.2 }

/-- One of the parties acts. -/
def Step (detached : Detached N E H) (attachTo : ExtTreeMap H Ref) (x y : Exchange N E H) : Prop :=
  x.senderStep detached = some y ∨ x.receiverStep attachTo = some y

end Exchange

/-- The end of `recv_relrc`: attach what has been received to clones of the given objects, and drop
the map of these. -/
def World.attachReceived [LinearOrder H] [Inhabited H] (A : AddrSource)
    (hash : N → List (H × E) → H) (w : World N E) (detached : Detached N E H)
    (attachTo : ExtTreeMap H Ref) : Except AttachPanic (Ref × World N E) := do
  let w := w.withHeap (w.heap.incStrongAll (OrderedMap.valuesOf attachTo))
  let res ← w.attach A hash detached (OrderedMap.valuesOf attachTo)
  pure (res.1, res.2.dropAll (OrderedMap.valuesOf attachTo))

end Relrc
