import Relrc.Model.Conversation

/-!
# Dialogues

The blocking functions of `RelRcCommunicator`. `send_relrc` and `recv_relrc` run their futures to
the end (`block_on`), so a process that uses them is in one call at a time, and while it is in a
call it serves nothing but this call. Each of two processes has a script, a list of calls of either
kind. What a call of `recv_relrc` is given to attach to may depend on what earlier calls have
received.

A call that has nothing left to do returns at once, and the process is in its next call. A call of
`recv_relrc` attaches what it has received first; if `attach` panics, it does not return.
-/

namespace Relrc

open Std (ExtTreeMap)

variable {N E H : Type} [LinearOrder H]

/-- A call that blocks until it returns. -/
inductive BlockingCall (N E H : Type) [LinearOrder H] where
  /-- `send_relrc` of the object with this record. -/
  | sendRelRc (detached : Detached N E H)
  | recvRelRc (call : ReceiveCall N E H)

/-- What a process does in its current call. -/
inductive Activity (N E H : Type) [LinearOrder H] where
  | sending (detached : Detached N E H) (sender : Sender N E H)
  | receiving (attachTo : ExtTreeMap H Ref) (receiver : Receiver N E H)
  /-- All calls of the script have returned. -/
  | ended

/-- A process in one of its calls. -/
structure Process (N E H : Type) [LinearOrder H] where
  /-- For each call that has returned, what it has received; `none` for a call of `send_relrc`. -/
  results : List (Option (Detached N E H))
  activity : Activity N E H

namespace Process

variable (attaches : AttachOutcome N E H) (script : List (BlockingCall N E H))

/-- The process begins its next call. -/
def next (results : List (Option (Detached N E H))) : Process N E H where
  results := results
  activity :=
    match script[results.length]? with
    | some (.sendRelRc detached) => .sending detached (Sender.send detached detached.current)
    | some (.recvRelRc call) => .receiving (call results.reduceOption) (.awaitRelRc none)
    | none => .ended

/-- A call that is done returns, and the next one begins. -/
def settle (p : Process N E H) : Process N E H :=
  match p.activity with
  | .sending _ .finished => next script (p.results ++ [none])
  | .receiving attachTo (.finished detached) =>
    if attaches detached attachTo then next script (p.results ++ [some detached]) else p
  | _ => p

/-- The message that the process sends next. -/
def sends (p : Process N E H) : Option (MPIMessage N E H) :=
  match p.activity with
  | .sending _ sender => sender.next
  | .receiving attachTo receiver => receiver.next attachTo
  | .ended => none

/-- The tag that the process waits for. -/
def expects (p : Process N E H) : Option MPIMessageTag :=
  match p.activity with
  | .sending _ (.sending []) => some .ack
  | .receiving _ receiver => receiver.expects
  | _ => none

/-- The process has panicked over a message. -/
def Panicked (p : Process N E H) : Prop :=
  match p.activity with
  | .sending _ (.panicked _) => True
  | .receiving _ (.panicked _) => True
  | _ => False

/-- The `attach` at the end of a call of `recv_relrc` has panicked. -/
def AttachPanicked (p : Process N E H) : Prop :=
  ∃ attachTo detached, p.activity = .receiving attachTo (.finished detached) ∧
    attaches detached attachTo = false

end Process

/-- Two processes, and the messages in flight. -/
structure Dialogue (N E H : Type) [LinearOrder H] where
  left : Process N E H
  right : Process N E H
  toRight : Channel N E H
  toLeft : Channel N E H

namespace Dialogue

/-- The same, seen from the other side. -/
def swap (x : Dialogue N E H) : Dialogue N E H := ⟨x.right, x.left, x.toLeft, x.toRight⟩

/-- Both processes are in their first calls. -/
def start (l r : List (BlockingCall N E H)) : Dialogue N E H :=
  ⟨Process.next l [], Process.next r [], .empty, .empty⟩

/-- The next action of the left process in its call. -/
def act (x : Dialogue N E H) : Option (Dialogue N E H) :=
  match x.left.activity with
  | .sending detached sender =>
    (Exchange.senderStep detached ⟨sender, .awaitRelRc none, x.toRight, x.toLeft, []⟩).map fun y =>
      ⟨⟨x.left.results, .sending detached y.sender⟩, x.right, y.toReceiver, y.toSender⟩
  | .receiving attachTo receiver =>
    (Exchange.receiverStep attachTo ⟨.finished, receiver, x.toLeft, x.toRight, []⟩).map fun y =>
      ⟨⟨x.left.results, .receiving attachTo y.receiver⟩, x.right, y.toSender, y.toReceiver⟩
  | .ended => none

/-- Calls that are done return. The processes may differ in which objects they can attach. -/
def settle (la ra : AttachOutcome N E H) (l r : List (BlockingCall N E H)) (x : Dialogue N E H) :
    Dialogue N E H :=
  { x with left := x.left.settle la l, right := x.right.settle ra r }

/-- The left process acts, or hands a message over to the right one. A message stays in a buffer
only if `buffered`. -/
inductive LeftStep (buffered : Prop) (la ra : AttachOutcome N E H) (l r : List (BlockingCall N E H))
    (x : Dialogue N E H) : Dialogue N E H → Prop
  | act {y : Dialogue N E H} (h : x.act = some y) (hb : x.left.sends ≠ none → buffered) :
      LeftStep buffered la ra l r x (y.settle la ra l r)
  | hand {y z : Dialogue N E H} {msg : MPIMessage N E H} (hsend : x.left.sends = some msg)
      (hfree : x.toRight msg.tag = []) (hreceive : x.right.expects = some msg.tag)
      (h : x.act = some y) (h' : y.swap.act = some z) :
      LeftStep buffered la ra l r x (z.swap.settle la ra l r)

/-- A step of either process. -/
inductive Step (buffered : Prop) (la ra : AttachOutcome N E H) (l r : List (BlockingCall N E H))
    (x : Dialogue N E H) : Dialogue N E H → Prop
  | left {y : Dialogue N E H} (h : LeftStep buffered la ra l r x y) : Step buffered la ra l r x y
  | right {y : Dialogue N E H} (h : LeftStep buffered ra la r l x.swap y) :
      Step buffered la ra l r x y.swap

end Dialogue

/-! ### Scripts -/

/-- One call sends what the other one receives. -/
def BlockingCall.dual : BlockingCall N E H → BlockingCall N E H → Bool
  | .sendRelRc _, .recvRelRc _ => true
  | .recvRelRc _, .sendRelRc _ => true
  | _, _ => false

/-- How many calls of two scripts fit together, from the beginning. -/
def agreed : List (BlockingCall N E H) → List (BlockingCall N E H) → ℕ
  | a :: l, b :: r => if a.dual b then agreed l r + 1 else 0
  | _, _ => 0

end Relrc
