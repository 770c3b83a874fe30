import Vcmp.Session.State
/-!
# The functions a message is sent with

All of them serialize the message under the limit, hand the payload to
`exchange` and read what it returns. A client looks for its session
first. `Reports` says when they return a transport failure, and they add
nothing to what `exchange` says (`reports_of_exchange`).
-/

namespace Vcmp

/-- What `exchange` returns for an outcome: nothing where its future was dropped. -/
def Outcome.result : Outcome → Option (Except VcmpError (Option String × Arrival))
  | .refused error => some (.error error)
  | .settled (.ack payload arrival _) => some (.ok (payload, arrival))
  | .settled (.nak error _) => some (.error error)
  | .settled .closed => some (.error (.sessionClosed
      "The session was closed before the message was acknowledged."))
  | .closed => some (.error (.sessionClosed "The session closed before acknowledgement."))
  | .timedOut => some (.error .acknowledgementTimeout)
  | .abandoned => none

/-- **A session as its callers see it**: the limit of a message, and what
`exchange` returns for a payload. -/
structure Sender where
  maxMessageBytes : ℕ
  exchange : String → Except VcmpError (Option String × Arrival)

namespace Sender

variable {J : JsonText} (sender : Sender) (message : Output J)

/-- `Session::send_with_arrival`. -/
def sendWithArrival : Except VcmpError (Json × Arrival) := do
  let payload ← serializeBounded message (sender.maxMessageBytes - 15)
  let (ack, arrival) ← sender.exchange payload
  let value ← readAck J ack
  return (value, arrival)

/-- `Session::send_value`. -/
def sendValue : Except VcmpError Json := do
  let (value, _) ← sender.sendWithArrival message
  return value

/-- `Session::send`, of a message with its tag. -/
def send : Except VcmpError Json := sender.sendValue message

/-- `Session::send_as`, with how a result is deserialized. -/
def sendAs {R : Type} (decode : Json → Except String R) : Except VcmpError R := do
  let value ← sender.send message
  match decode value with
  | .ok result => return result
  | .error error => throw ((VcmpError.internal "Invalid acknowledgement").withDetail
      ("The ACK payload could not be deserialized: " ++ error))

end Sender

namespace VcmpClient

variable {J : JsonText} (session : Option Sender) (message : Output J)

/-- `VcmpClient::current_session`. -/
def currentSession : Except VcmpError Sender :=
  match session with
  | some sender => .ok sender
  | none => .error (.notConnected "Cannot send message: the client has no session.")

/-- `VcmpClient::send_value`. -/
def sendValue : Except VcmpError Json := do (← currentSession session).sendValue message

/-- `VcmpClient::send`. -/
def send : Except VcmpError Json := do (← currentSession session).send message

/-- `VcmpClient::send_as`. -/
def sendAs {R : Type} (decode : Json → Except String R) : Except VcmpError R := do
  (← currentSession session).sendAs message decode

end VcmpClient

/-! ## Transport failures -/

/-- A result that is a local failure of the transport. -/
def FailsInTransport {α : Type} (result : Except VcmpError α) : Prop :=
  ∃ error, result = .error error ∧ error.isTransport = true

@[simp] theorem failsInTransport_ok {α : Type} (a : α) :
    ¬ FailsInTransport (.ok a : Except VcmpError α) := fun ⟨_, h, _⟩ => by cases h

@[simp] theorem failsInTransport_error {α : Type} (error : VcmpError) :
    FailsInTransport (.error error : Except VcmpError α) ↔ error.isTransport = true := by
  constructor
  · rintro ⟨_, heq, h⟩
    rwa [Except.error.inj heq]
  · exact fun h => ⟨error, rfl, h⟩

/-- What does not fail in the transport itself adds nothing to what it goes on from. -/
theorem failsInTransport_bind {α β : Type} {result : Except VcmpError α}
    {f : α → Except VcmpError β} (h : ∀ a, ¬ FailsInTransport (f a)) :
    FailsInTransport (result >>= f) ↔ FailsInTransport result := by
  rcases result with error | a
  · simp [bind, Except.bind]
  · simpa [bind, Except.bind] using h a

/-- **No error of serialization is one of the transport**, of size or otherwise. -/
theorem serializeBounded_isTransport {J : JsonText} {o : Output J} {limit : ℕ} {error : VcmpError}
    (h : serializeBounded o limit = .error error) : error.isTransport = false := by
  unfold serializeBounded at h
  split at h
  · cases h; rfl
  · split at h <;> cases h
    rfl

/-- **No `ACK` payload is read as one**, -/
theorem readAck_isTransport {J : JsonText} {ack : Option String} {error : VcmpError}
    (h : readAck J ack = .error error) : error.isTransport = false := by
  unfold readAck at h
  split at h
  · cases h
  · split at h <;> cases h
    rfl

/-- and no `NAK` payload either. -/
@[simp] theorem readNak_isTransport (J : JsonText) (payload : Option String) :
    (readNak J payload).isTransport = false := rfl

section

variable {J : JsonText} {sender : Sender} {message : Output J}

/-- **Every function a message is sent with returns a transport failure
exactly if `P`.** -/
structure Reports (sender : Sender) (message : Output J) (P : Prop) : Prop where
  withArrival : FailsInTransport (sender.sendWithArrival message) ↔ P
  value : FailsInTransport (sender.sendValue message) ↔ P
  send : FailsInTransport (sender.send message) ↔ P
  sendAs : ∀ {R : Type} (decode : Json → Except String R),
    FailsInTransport (sender.sendAs message decode) ↔ P
  clientValue : FailsInTransport (VcmpClient.sendValue (some sender) message) ↔ P
  clientSend : FailsInTransport (VcmpClient.send (some sender) message) ↔ P
  clientSendAs : ∀ {R : Type} (decode : Json → Except String R),
    FailsInTransport (VcmpClient.sendAs (some sender) message decode) ↔ P

/-- It is enough that the primitive does: nothing behind it fails in the transport. -/
theorem reports_of_withArrival {P : Prop} (h : FailsInTransport (sender.sendWithArrival message) ↔ P) :
    Reports sender message P := by
  have hvalue : FailsInTransport (sender.sendValue message) ↔ P := by
    rw [Sender.sendValue]
    exact (failsInTransport_bind fun _ => failsInTransport_ok _).trans h
  have hsendAs : ∀ {R : Type} (decode : Json → Except String R),
      FailsInTransport (sender.sendAs message decode) ↔ P := by
    intro R decode
    refine (failsInTransport_bind fun value => ?_).trans hvalue
    rcases decode value with error | result
    · exact fun h => Bool.false_ne_true ((failsInTransport_error _).mp h)
    · exact failsInTransport_ok _
  exact ⟨h, hvalue, hvalue, hsendAs, hvalue, hvalue, hsendAs⟩

theorem Reports.congr {P Q : Prop} (h : Reports sender message P) (hiff : P ↔ Q) :
    Reports sender message Q :=
  reports_of_withArrival (h.withArrival.trans hiff)

/-- **The functions return a transport failure exactly if `exchange` does.** -/
theorem reports_of_exchange {payload : String}
    (hserial : serializeBounded message (sender.maxMessageBytes - 15) = .ok payload) :
    Reports sender message (FailsInTransport (sender.exchange payload)) := by
  refine reports_of_withArrival ?_
  rw [Sender.sendWithArrival, hserial]
  show FailsInTransport (sender.exchange payload >>= _) ↔ _
  refine failsInTransport_bind fun p hread => ?_
  obtain ⟨error, herror, htransport⟩ :=
    (failsInTransport_bind fun _ => failsInTransport_ok _).mp hread
  rw [readAck_isTransport herror] at htransport
  cases htransport

/-- **A message that cannot be serialized is not a failure of the transport.** -/
theorem reports_of_unserialized {error : VcmpError}
    (hserial : serializeBounded message (sender.maxMessageBytes - 15) = .error error) :
    Reports sender message False := by
  refine reports_of_withArrival (iff_of_false ?_ id)
  rw [Sender.sendWithArrival, hserial]
  exact fun h => by
    have := (failsInTransport_error error).mp h
    rw [serializeBounded_isTransport hserial] at this
    cases this

/-- **A client without a session says so.** -/
theorem failsInTransport_of_disconnected {R : Type} (decode : Json → Except String R) :
    FailsInTransport (VcmpClient.sendValue none message) ∧
      FailsInTransport (VcmpClient.send none message) ∧
      FailsInTransport (VcmpClient.sendAs none message decode) :=
  ⟨⟨_, rfl, rfl⟩, ⟨_, rfl, rfl⟩, ⟨_, rfl, rfl⟩⟩

end

end Vcmp
