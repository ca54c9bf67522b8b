import Relrc.Model.Transfer
import Mathlib.Logic.Equiv.Basic

/-!
# Messages on the wire

`detached/mpi/msg_types.rs` and `detached/mpi/send_recv.rs`: a message is sent as elements of one
MPI datatype under the tag of its kind, and read back by the tag. The types `MPIRelRc`,
`MPIIncomingEdge` and `MPIAck` are transparent wrappers of `usize`.

Two kinds share the tag `Ack`, and `Done` is sent as the hash zero. A request for the object with
that hash is therefore **read as `Done`**, and every other message is read as it was sent
(`extractMessage_generateSendMatch_iff`).

The type `RelRcHash` is not part of the repository; its conversions from and to `usize` are a
parameter of the model, and inverse to each other.
-/

namespace Relrc

variable {N E H : Type}

/-! ### Tags -/

namespace MPIMessageTag

/-- `tag as i32`. -/
def toInt32 : MPIMessageTag → Int32
  | .relRc => 0
  | .nodeWeight => 1
  | .incomingEdge => 2
  | .edgeWeight => 3
  | .ack => 100

/-- `TryFrom<i32> for MPIMessageTag`. -/
def tryFrom (value : Int32) : Option MPIMessageTag :=
  if value = 0 then some .relRc
  else if value = 1 then some .nodeWeight
  else if value = 2 then some .incomingEdge
  else if value = 3 then some .edgeWeight
  else if value = 100 then some .ack
  else none

/-- A tag survives the way through its number. -/
theorem tryFrom_toInt32 (tag : MPIMessageTag) : tryFrom tag.toInt32 = some tag := by
  cases tag <;> rfl

end MPIMessageTag

/-! ### Sending -/

/-- Elements of one MPI datatype. -/
inductive Payload (N E : Type) where
  | words (elems : List USize)
  | node (value : N)
  | edge (value : E)

/-- What MPI delivers. -/
structure Envelope (N E : Type) where
  payload : Payload N E
  tag : Int32

variable (hash : H ≃ USize)

/-- `generate_send_match`. -/
def generateSendMatch (msg : MPIMessage N E H) : Envelope N E where
  payload := match msg with
    | .relRc h => .words [hash h]
    | .nodeWeight value => .node value
    | .incomingEdge hashes => .words (hashes.map hash)
    | .edgeWeight value => .edge value
    | .requestRelRc h => .words [hash h]
    | .done => .words [0]
  tag := msg.tag.toInt32

/-! ### Receiving -/

/-- The panics of `extract_message`. -/
inductive ReceivePanic where
  | invalidTag
  /-- The elements are not those that are asked for. -/
  | wrongElements

/-- `matched_receive` for a wrapper of `usize`. -/
def receiveWord : Payload N E → Except ReceivePanic USize
  | .words [word] => .ok word
  | _ => .error .wrongElements

/-- `From<MPIAck> for MPIMessage`. -/
def MPIMessage.ofAck (word : USize) : MPIMessage N E H :=
  if word == 0 then .done else .requestRelRc (hash.symm word)

/-- `extract_message`. -/
def extractMessage (msg : Envelope N E) : Except ReceivePanic (MPIMessage N E H) :=
  match MPIMessageTag.tryFrom msg.tag with
  | none => .error .invalidTag
  | some .relRc => do
    let word ← receiveWord msg.payload
    pure (.relRc (hash.symm word))
  | some .nodeWeight =>
    match msg.payload with
    | .node value => pure (.nodeWeight value)
    | _ => .error .wrongElements
  | some .incomingEdge =>
    match msg.payload with
    | .words contents => pure (.incomingEdge (contents.map hash.symm))
    | _ => .error .wrongElements
  | some .edgeWeight =>
    match msg.payload with
    | .edge value => pure (.edgeWeight value)
    | _ => .error .wrongElements
  | some .ack => do
    let word ← receiveWord msg.payload
    pure (MPIMessage.ofAck hash word)

/-! ### What is read -/

/-- A request for the object with the hash zero. -/
def MPIMessage.RequestsZero (msg : MPIMessage N E H) : Prop :=
  ∃ h, msg = .requestRelRc h ∧ hash h = 0

/-- **What is read of a message**: the message, unless it is an acknowledgement whose word is
zero. -/
theorem extractMessage_generateSendMatch (msg : MPIMessage N E H) :
    extractMessage hash (generateSendMatch hash msg) =
      .ok (match msg with
        | .requestRelRc h => MPIMessage.ofAck hash (hash h)
        | msg => msg) := by
  have htag : MPIMessageTag.tryFrom (generateSendMatch hash msg).tag = some msg.tag :=
    MPIMessageTag.tryFrom_toInt32 msg.tag
  rw [extractMessage, htag]
  cases msg with
  | relRc h =>
    change Except.ok (MPIMessage.relRc (hash.symm (hash h))) = _
    rw [Equiv.symm_apply_apply]
  | nodeWeight value => rfl
  | incomingEdge hashes =>
    change Except.ok (MPIMessage.incomingEdge ((hashes.map hash).map hash.symm)) = _
    rw [List.map_map, Equiv.symm_comp_self, List.map_id]
  | edgeWeight value => rfl
  | requestRelRc h => rfl
  | done => rfl

/-- **The word zero is `Done`**, and no other word is. -/
theorem MPIMessage.ofAck_eq_done_iff {word : USize} :
    (MPIMessage.ofAck hash word : MPIMessage N E H) = .done ↔ word = 0 := by
  rw [MPIMessage.ofAck]
  by_cases hword : word = 0
  · simp [hword]
  · simp [hword]

theorem MPIMessage.ofAck_of_ne_zero {h : H} (hne : hash h ≠ 0) :
    (MPIMessage.ofAck hash (hash h) : MPIMessage N E H) = .requestRelRc h := by
  rw [MPIMessage.ofAck, if_neg (by simpa using hne), Equiv.symm_apply_apply]

/-- A request for the hash zero is read as `Done`. -/
theorem extractMessage_of_requestsZero {msg : MPIMessage N E H} (hzero : msg.RequestsZero hash) :
    extractMessage hash (generateSendMatch hash msg) = .ok .done := by
  obtain ⟨h, rfl, hword⟩ := hzero
  rw [extractMessage_generateSendMatch]
  exact congrArg Except.ok ((MPIMessage.ofAck_eq_done_iff hash).mpr hword)

/-- Every other message is read as it was sent. -/
theorem extractMessage_of_not_requestsZero {msg : MPIMessage N E H}
    (hzero : ¬ msg.RequestsZero hash) :
    extractMessage hash (generateSendMatch hash msg) = .ok msg := by
  rw [extractMessage_generateSendMatch]
  cases msg with
  | requestRelRc h =>
    have hne : hash h ≠ 0 := fun hword => hzero ⟨h, rfl, hword⟩
    exact congrArg Except.ok (MPIMessage.ofAck_of_ne_zero hash hne)
  | _ => rfl

/-- **A message is read as it was sent** if and only if it is not a request for the hash zero; and
two messages are read alike if and only if they are the same, or one is such a request and the other
is `Done`. -/
theorem extractMessage_generateSendMatch_iff (msg : MPIMessage N E H) :
    (extractMessage hash (generateSendMatch hash msg) = .ok msg ↔ ¬ msg.RequestsZero hash) ∧
    ∀ msg' : MPIMessage N E H,
      extractMessage hash (generateSendMatch hash msg') =
          extractMessage hash (generateSendMatch hash msg) ↔
        msg' = msg ∨ msg'.RequestsZero hash ∧ msg = .done ∨
          msg' = .done ∧ msg.RequestsZero hash := by
  have hread : ∀ m : MPIMessage N E H, m.RequestsZero hash →
      (Except.ok .done : Except ReceivePanic (MPIMessage N E H)) ≠ .ok m := by
    rintro m ⟨h, rfl, -⟩ heq
    cases heq
  refine ⟨⟨fun hsame hzero => ?_, extractMessage_of_not_requestsZero hash⟩, fun msg' => ?_⟩
  · rw [extractMessage_of_requestsZero hash hzero] at hsame
    exact hread msg hzero hsame
  · by_cases hzero : msg.RequestsZero hash
    · by_cases hzero' : msg'.RequestsZero hash
      · -- there is only one hash that is zero
        obtain ⟨h, rfl, hword⟩ := hzero
        obtain ⟨h', rfl, hword'⟩ := hzero'
        obtain rfl : h' = h := hash.injective (hword'.trans hword.symm)
        simp
      · rw [extractMessage_of_requestsZero hash hzero,
          extractMessage_of_not_requestsZero hash hzero', Except.ok.injEq]
        have hne : msg' ≠ msg := by
          rintro rfl
          exact hzero' hzero
        simp [hzero, hzero', hne]
    · by_cases hzero' : msg'.RequestsZero hash
      · rw [extractMessage_of_requestsZero hash hzero',
          extractMessage_of_not_requestsZero hash hzero, Except.ok.injEq]
        have hne : msg' ≠ msg := by
          rintro rfl
          exact hzero hzero'
        simp [hzero, hzero', hne, eq_comm]
      · rw [extractMessage_of_not_requestsZero hash hzero',
          extractMessage_of_not_requestsZero hash hzero, Except.ok.injEq]
        simp [hzero, hzero']

/-- A request for the object with the hash zero ends the transfer. -/
theorem extractMessage_requestRelRc_zero :
    extractMessage (Equiv.refl USize)
        (generateSendMatch (Equiv.refl USize) (.requestRelRc 0 : MPIMessage ℕ ℕ USize)) =
      .ok .done ∧
    extractMessage (Equiv.refl USize)
        (generateSendMatch (Equiv.refl USize) (.requestRelRc 0 : MPIMessage ℕ ℕ USize)) ≠
      .ok (.requestRelRc 0) := by
  have hread : extractMessage (Equiv.refl USize)
      (generateSendMatch (Equiv.refl USize) (.requestRelRc 0 : MPIMessage ℕ ℕ USize)) =
        .ok .done := extractMessage_of_requestsZero _ ⟨0, rfl, rfl⟩
  refine ⟨hread, fun heq => ?_⟩
  rw [hread] at heq
  cases heq

end Relrc
