import Vcmp.Error
import Vcmp.Wire.Frame
/-!
# Payloads

What a session puts into a frame and reads out of one: messages and
handler results are serialized under a limit, an `ACK` payload is read
as a document, a `NAK` payload as a problem detail. A result that is
`null` travels as no payload, which is also what an empty payload is
read as.
-/

namespace Vcmp

/-- The texts one after another. -/
def concat : List String → String
  | [] => ""
  | c :: cs => c ++ concat cs

/-- **What a serializer does with a value**: the chunks it would write,
and the document they make up. Without a document serialization fails
after the chunks. -/
structure Output (J : JsonText) where
  chunks : List String
  value : Option Json
  text : ∀ v ∈ value, concat chunks = J.toText v

namespace Output

variable {J : JsonText}

/-- The output of a value written in one piece. -/
def ofJson (J : JsonText) (v : Json) : Output J where
  chunks := [J.toText v]
  value := some v
  text := by
    intro w hw
    obtain rfl := Option.some.inj hw
    simp [concat]

end Output

/-- The bounded writer: nothing where a chunk does not fit any more. -/
def writeBounded (limit : ℕ) : List String → String → Option String
  | [], bytes => some bytes
  | c :: cs, bytes =>
    if c.utf8ByteSize > limit - bytes.utf8ByteSize then none
    else writeBounded limit cs (bytes ++ c)

/-- `serialize_bounded`. -/
def serializeBounded {J : JsonText} (o : Output J) (limit : ℕ) : Except VcmpError String :=
  match writeBounded limit o.chunks "" with
  | none => .error (.new 413 "Message too large")
  | some text =>
    if o.value.isSome then .ok text else .error (.internal "Message serialization failed")

/-- What the bounded writer returns is everything, within the limit. -/
theorem writeBounded_eq_some {limit : ℕ} {cs : List String} {bytes text : String}
    (h : writeBounded limit cs bytes = some text) (hle : bytes.utf8ByteSize ≤ limit) :
    text = bytes ++ concat cs ∧ text.utf8ByteSize ≤ limit := by
  induction cs generalizing bytes with
  | nil =>
    simp only [writeBounded, Option.some.injEq] at h
    subst h
    exact ⟨by simp [concat], hle⟩
  | cons c cs ih =>
    simp only [writeBounded, Option.ite_none_left_eq_some, not_lt] at h
    obtain ⟨hfits, h⟩ := h
    have hsum : (bytes ++ c).utf8ByteSize ≤ limit := by
      rw [String.utf8ByteSize_append]
      omega
    obtain ⟨rfl, hlen⟩ := ih h hsum
    exact ⟨by rw [concat, String.append_assoc], hlen⟩

/-- **A serialized value is its document's text, within the limit.** -/
theorem serializeBounded_eq_ok {J : JsonText} {o : Output J} {limit : ℕ} {text : String}
    (h : serializeBounded o limit = .ok text) :
    text.utf8ByteSize ≤ limit ∧ ∃ v, o.value = some v ∧ text = J.toText v := by
  unfold serializeBounded at h
  split at h
  · cases h
  · rename_i bytes hw
    obtain ⟨rfl, hle⟩ := writeBounded_eq_some hw (by simp)
    split at h
    · rename_i hsome
      obtain ⟨v, hv⟩ := Option.isSome_iff_exists.mp hsome
      cases h
      exact ⟨hle, v, hv, by simpa using o.text v hv⟩
    · cases h

/-- `Tagged`: a message with its `@type` member in front. -/
def tagged (type_ : String) (members : List (String × Json)) : Json :=
  .obj (("@type", .str type_) :: members)

/-- The `@type` of a message, if it has one that is a text and not empty. -/
def messageType (message : Json) : Option String :=
  ((message.get? "@type").bind Json.asStr).filter (· ≠ "")

section

variable (J : JsonText)

/-- The value an `ACK` payload is read as. -/
def readAck : Option String → Except VcmpError Json
  | none => .ok .null
  | some ack =>
    match J.ofText ack with
    | some value => .ok value
    | none => .error ((VcmpError.internal "Invalid acknowledgement").withDetail
        "The ACK payload could not be parsed.")

/-- The error a `NAK` payload is read as. -/
def readNak (payload : Option String) : VcmpError :=
  let error := match payload with
    | none => (VcmpError.internal "Message handling failed").withDetail
        "Unspecified error in message handling."
    | some payload => ((J.ofText payload).bind VcmpError.ofJson).getD
        ((VcmpError.internal "Message handling failed").withDetail
          "The NAK payload could not be parsed.")
  error.intoPeerError

/-- The frame that `Session::nak` writes. -/
def nakFrame (id : String) (error : VcmpError) : Frame :=
  Frame.mkNak id (some (J.toText error.toJson))

/-- What a handler's future resolves to. -/
inductive Returned where
  | ok (result : Output J)
  | error (error : VcmpError)

variable {J}

/-- The value of a result. -/
def Returned.value : Returned J → Option Json
  | .ok result => result.value
  | .error _ => none

/-- What the erased handler makes of a result: the `ACK` payload, or the error. -/
def handlerPayload (maxMessageBytes : ℕ) : Returned J → Except VcmpError (Option String)
  | .error e => .error e
  | .ok result =>
    match serializeBounded result (maxMessageBytes - 15) with
    | .ok payload => .ok (if payload = "null" then none else some payload)
    | .error e =>
      if e.status = 413 then .error e
      else .error ((VcmpError.internal "Message handling failed").withDetail
        "The handler result could not be serialized.")

/-- **A value comes back from an `ACK` as it was returned**, `null` included. -/
theorem readAck_handlerPayload {maxMessageBytes : ℕ} {result : Output J} {payload : Option String}
    (h : handlerPayload maxMessageBytes (.ok result) = .ok payload) :
    ∃ v, result.value = some v ∧ readAck J (Frame.normalize payload) = .ok v := by
  simp only [handlerPayload] at h
  split at h
  · rename_i text hs
    obtain ⟨-, v, hv, rfl⟩ := serializeBounded_eq_ok hs
    cases h
    refine ⟨v, hv, ?_⟩
    by_cases hnull : J.toText v = "null"
    · obtain rfl := J.toText_eq_null.mp hnull
      simp [hnull, Frame.normalize, readAck]
    · have hne := J.toText_ne_empty v
      simp [hnull, Frame.normalize, Option.filter, hne, readAck, J.round_trip]
  · split at h <;> cases h

end

end Vcmp
