import Vcmp.Session.Classify
import Vcmp.Session.Covers
import Vcmp.Session.Works
/-!
# Message sizes

One limit is checked in four places: the bounded writer leaves room for
the prefix and the id, `exchange` adds them to the payload, `enqueue`
looks at the whole frame and so does the session that receives it. They
agree at every limit, also where the limit is smaller than an empty
frame. The writer works on bytes, in whatever chunks the serializer
writes them.
-/

namespace Vcmp

/-- The bytes of a text. -/
def bytesOf (text : String) : List UInt8 := text.toByteArray.data.toList

@[simp] theorem length_bytesOf (text : String) : (bytesOf text).length = text.utf8ByteSize := rfl

/-- `usize::saturating_add` on a target of `w` bits. -/
def saturatingAdd (w a b : ℕ) : ℕ := min (a + b) (2 ^ w - 1)

/-- No allocation is longer than `isize::MAX`, so the sum is never saturated. -/
theorem saturatingAdd_header {w n : ℕ} (hw : 16 ≤ w) (hn : n ≤ 2 ^ (w - 1) - 1) :
    saturatingAdd w n 15 = n + 15 := by
  obtain ⟨k, rfl⟩ : ∃ k, w = k + 16 := ⟨w - 16, by omega⟩
  have hhalf : 2 ^ (k + 16) = 2 ^ (k + 15) * 2 := pow_succ 2 (k + 15)
  have hlarge : 2 ^ 15 ≤ 2 ^ (k + 15) := Nat.pow_le_pow_right (by omega) (by omega)
  have hsub : k + 16 - 1 = k + 15 := by omega
  rw [hsub] at hn
  rw [saturatingAdd, min_eq_left]
  omega

/-! ## The bounded writer -/

/-- The `Output` of `serialize_bounded`. -/
structure BoundedWriter where
  bytes : List UInt8 := []
  limit : ℕ
  full : Bool := false
  deriving DecidableEq, Repr

namespace BoundedWriter

/-- `write`: how much was written, or nothing where it does not fit. -/
def write (w : BoundedWriter) (chunk : List UInt8) : Option ℕ × BoundedWriter :=
  if chunk.length > w.limit - w.bytes.length then (none, { w with full := true })
  else (some chunk.length, { w with bytes := w.bytes ++ chunk })

/-- `serde_json::to_writer`: the chunks of the serializer, which then
finishes or fails, or stops where the writer does. -/
def toWriter (finishes : Bool) : List (List UInt8) → BoundedWriter → Bool × BoundedWriter
  | [], w => (finishes, w)
  | chunk :: chunks, w =>
    match w.write chunk with
    | (some _, w) => toWriter finishes chunks w
    | (none, w) => (false, w)

/-- **Within the limit**: what every write keeps. -/
def Within (w : BoundedWriter) (limit : ℕ) : Prop := w.limit = limit ∧ w.bytes.length ≤ limit

variable {w : BoundedWriter} {limit : ℕ} {finishes : Bool} {chunk : List UInt8}
  {chunks : List (List UInt8)}

theorem within_new (limit : ℕ) : Within { limit := limit } limit := ⟨rfl, Nat.zero_le _⟩

theorem Within.write (h : w.Within limit) (chunk : List UInt8) : (w.write chunk).2.Within limit := by
  obtain ⟨rfl, hle⟩ := h
  unfold BoundedWriter.write
  split
  · exact ⟨rfl, hle⟩
  · rename_i hfits
    refine ⟨rfl, ?_⟩
    rw [List.length_append]
    omega

/-- **The writer never holds more than its limit.** -/
theorem Within.toWriter (h : w.Within limit) : (toWriter finishes chunks w).2.Within limit := by
  induction chunks generalizing w with
  | nil => exact h
  | cons chunk chunks ih =>
    have hwrite := h.write chunk
    rw [BoundedWriter.toWriter]
    split
    · rename_i heq
      rw [heq] at hwrite
      exact ih hwrite
    · rename_i heq
      rw [heq] at hwrite
      exact hwrite

/-- Chunks that fit are written. -/
theorem toWriter_fits (hfits : w.bytes.length + chunks.flatten.length ≤ w.limit) :
    toWriter finishes chunks w = (finishes, { w with bytes := w.bytes ++ chunks.flatten }) := by
  induction chunks generalizing w with
  | nil => simp [toWriter]
  | cons chunk chunks ih =>
    rw [List.flatten_cons, List.length_append] at hfits
    have hwrite : w.write chunk = (some chunk.length, { w with bytes := w.bytes ++ chunk }) :=
      if_neg (by omega)
    rw [toWriter, hwrite]
    simp only
    rw [ih (by simp only [List.length_append]; omega), List.flatten_cons, List.append_assoc]

/-- Chunks that do not all fit make the writer full. -/
theorem toWriter_full (finishes : Bool) (hle : w.bytes.length ≤ w.limit)
    (hover : w.limit < w.bytes.length + chunks.flatten.length) :
    (toWriter finishes chunks w).1 = false ∧ (toWriter finishes chunks w).2.full = true := by
  induction chunks generalizing w with
  | nil => simp at hover; omega
  | cons chunk chunks ih =>
    rw [List.flatten_cons, List.length_append] at hover
    by_cases hfits : chunk.length > w.limit - w.bytes.length
    · have hwrite : w.write chunk = (none, { w with full := true }) := if_pos hfits
      rw [toWriter, hwrite]
      exact ⟨rfl, rfl⟩
    · have hwrite : w.write chunk = (some chunk.length, { w with bytes := w.bytes ++ chunk }) :=
        if_neg hfits
      rw [toWriter, hwrite]
      exact ih (by simp only [List.length_append]; omega)
        (by simp only [List.length_append]; omega)

end BoundedWriter

/-- `serialize_bounded` on bytes, before they are read as a text. -/
def serializeBytes (chunks : List (List UInt8)) (finishes : Bool) (limit : ℕ) :
    Except VcmpError (List UInt8) :=
  match BoundedWriter.toWriter finishes chunks { limit := limit } with
  | (true, w) => .ok w.bytes
  | (false, w) => .error (if w.full then .new 413 "Message too large"
      else .internal "Message serialization failed")

/-- **What `serialize_bounded` returns**, however the bytes are chunked. -/
theorem serializeBytes_eq (chunks : List (List UInt8)) (finishes : Bool) (limit : ℕ) :
    serializeBytes chunks finishes limit =
      if limit < chunks.flatten.length then .error (.new 413 "Message too large")
      else if finishes then .ok chunks.flatten
      else .error (.internal "Message serialization failed") := by
  unfold serializeBytes
  by_cases hover : limit < chunks.flatten.length
  · have hnew : ({ limit := limit } : BoundedWriter).limit <
        ({ limit := limit } : BoundedWriter).bytes.length + chunks.flatten.length := by
      simpa using hover
    obtain ⟨hfails, hfull⟩ := BoundedWriter.toWriter_full finishes (Nat.zero_le _) hnew
    rw [if_pos hover]
    split
    · rename_i heq
      rw [heq] at hfails
      cases hfails
    · rename_i heq
      rw [heq] at hfull
      rw [if_pos hfull]
  · rw [if_neg hover, BoundedWriter.toWriter_fits (by simpa using hover)]
    cases finishes <;> rfl

/-- **The bounded writer is exact.** -/
structure WriterExact (chunks : List (List UInt8)) (finishes : Bool) (limit : ℕ) : Prop where
  /-- It never holds more than its limit, -/
  held : ∀ k, (BoundedWriter.toWriter finishes (chunks.take k) { limit := limit }).2.bytes.length ≤
    limit
  /-- returns all that was written, -/
  ok : ∀ bytes, serializeBytes chunks finishes limit = .ok bytes ↔
    bytes = chunks.flatten ∧ finishes = true ∧ chunks.flatten.length ≤ limit
  /-- reports 413 where the limit is hit, -/
  tooLarge : serializeBytes chunks finishes limit = .error (.new 413 "Message too large") ↔
    limit < chunks.flatten.length
  /-- and 500 where serialization fails before that. -/
  failed : serializeBytes chunks finishes limit = .error (.internal "Message serialization failed") ↔
    finishes = false ∧ chunks.flatten.length ≤ limit

theorem writerExact (chunks : List (List UInt8)) (finishes : Bool) (limit : ℕ) :
    WriterExact chunks finishes limit where
  held _ := (BoundedWriter.within_new limit).toWriter.2
  ok bytes := by
    rw [serializeBytes_eq]
    split_ifs with hover hfinishes
    · simp only [false_iff]
      rintro ⟨-, -, hle⟩
      omega
    · simp only [Except.ok.injEq, hfinishes, true_and]
      exact ⟨fun h => ⟨h.symm, by omega⟩, fun h => h.1.symm⟩
    · simp [hfinishes]
  tooLarge := by
    rw [serializeBytes_eq]
    split_ifs with hover hfinishes
    · exact iff_of_true rfl hover
    · exact iff_of_false (by simp) hover
    · refine iff_of_false (fun h => ?_) hover
      exact absurd (congrArg VcmpError.status (Except.error.inj h)) (by decide)
  failed := by
    rw [serializeBytes_eq]
    split_ifs with hover hfinishes
    · refine iff_of_false (fun h => ?_) (by omega)
      exact absurd (congrArg VcmpError.status (Except.error.inj h)) (by decide)
    · simp [hfinishes]
    · exact iff_of_true rfl ⟨by simpa using hfinishes, by omega⟩

/-! ## The writer of a session -/

section

variable {J : JsonText}

/-- **What the bounded writer returns**: everything, or nothing. -/
theorem writeBounded_eq {limit : ℕ} {bytes : String} (cs : List String)
    (hle : bytes.utf8ByteSize ≤ limit) :
    writeBounded limit cs bytes =
      if limit < (bytes ++ concat cs).utf8ByteSize then none else some (bytes ++ concat cs) := by
  induction cs generalizing bytes with
  | nil =>
    rw [writeBounded, concat, String.append_empty, if_neg (by omega)]
  | cons c cs ih =>
    have hsize : (bytes ++ c).utf8ByteSize = bytes.utf8ByteSize + c.utf8ByteSize :=
      String.utf8ByteSize_append ..
    have hconcat : bytes ++ concat (c :: cs) = bytes ++ c ++ concat cs :=
      (String.append_assoc ..).symm
    rw [writeBounded, hconcat]
    by_cases hover : c.utf8ByteSize > limit - bytes.utf8ByteSize
    · rw [if_pos hover, if_pos]
      rw [String.utf8ByteSize_append, hsize]
      omega
    · rw [if_neg hover, ih (by omega)]

/-- **What `serialize_bounded` returns**, as it is in the session machine. -/
theorem serializeBounded_eq (o : Output J) (limit : ℕ) :
    serializeBounded o limit =
      if limit < (concat o.chunks).utf8ByteSize then .error (.new 413 "Message too large")
      else if o.value.isSome then .ok (concat o.chunks)
      else .error (.internal "Message serialization failed") := by
  rw [serializeBounded, writeBounded_eq o.chunks (by simp)]
  simp only [String.empty_append]
  split_ifs <;> rfl

/-- **The session machine writes what the bytes say**, wherever the
serializer cuts them. -/
theorem serializeBytes_eq_map (o : Output J) {chunks : List (List UInt8)}
    (hchunks : chunks.flatten = bytesOf (concat o.chunks)) (limit : ℕ) :
    serializeBytes chunks o.value.isSome limit = (serializeBounded o limit).map bytesOf := by
  rw [serializeBytes_eq, serializeBounded_eq, hchunks, length_bytesOf]
  split_ifs <;> rfl

/-- A value that can be serialized, and its text. -/
theorem serializeBounded_of_value {o : Output J} {v : Json} (hv : o.value = some v) (limit : ℕ) :
    serializeBounded o limit =
      if limit < (J.toText v).utf8ByteSize then .error (.new 413 "Message too large")
      else .ok (J.toText v) := by
  rw [serializeBounded_eq, o.text v hv, hv]
  rfl

/-- No value is written as nothing. -/
theorem size_pos (J : JsonText) (v : Json) : 0 < (J.toText v).utf8ByteSize := by
  rw [Nat.pos_iff_ne_zero, ne_eq, String.utf8ByteSize_eq_zero_iff]
  exact J.toText_ne_empty v

/-- **Room left for a header, and a header added**: the same bound for
whatever has a byte, also below the size of a header. -/
theorem tooLarge_iff {limit n : ℕ} (hpos : 0 < n) : limit - 15 < n ↔ limit < n + 15 := by omega

/-- **The erased handler refuses a result as a message is refused.** -/
theorem handlerPayload_of_value {o : Output J} {v : Json} (hv : o.value = some v) (limit : ℕ) :
    handlerPayload limit (.ok o) =
      if limit < (J.toText v).utf8ByteSize + 15 then .error (.new 413 "Message too large")
      else .ok (if J.toText v = "null" then none else some (J.toText v)) := by
  simp only [handlerPayload, serializeBounded_of_value hv, tooLarge_iff (size_pos J v)]
  by_cases hover : limit < (J.toText v).utf8ByteSize + 15
  · rw [if_pos hover, if_pos hover]
    rfl
  · rw [if_neg hover, if_neg hover]

/-- What is acknowledged fits. -/
theorem size_of_handlerPayload {limit : ℕ} {r : Returned J} {payload : Option String}
    (h : handlerPayload limit r = .ok payload) :
    (payload.getD "").utf8ByteSize + 15 ≤ limit := by
  cases r with
  | error error => cases h
  | ok o =>
    obtain ⟨v, hv, -⟩ := readAck_handlerPayload h
    rw [handlerPayload_of_value hv] at h
    split_ifs at h with hover hnull
    · cases h
      have : (none.getD "" : String).utf8ByteSize = 0 := rfl
      omega
    · cases h
      have : ((some (J.toText v)).getD "").utf8ByteSize = (J.toText v).utf8ByteSize := rfl
      omega

end

namespace Frame

theorem size_of_isId {id : String} (h : IsId id) : id.utf8ByteSize = 12 := by
  rw [utf8ByteSize_eq, h.byteSize_eq, idLength]

/-- **A message is its payload and fifteen bytes**, -/
theorem size_message {id : String} (h : IsId id) (payload : String) :
    (message id payload).serialize.utf8ByteSize = payload.utf8ByteSize + 15 := by
  have hkind : "MSG".utf8ByteSize = 3 := rfl
  rw [serialize, String.utf8ByteSize_append, String.utf8ByteSize_append, size_of_isId h, hkind]
  omega

/-- and so is an acknowledgement. -/
theorem size_mkAck {id : String} (h : IsId id) (payload : Option String) :
    (mkAck id payload).serialize.utf8ByteSize = (payload.getD "").utf8ByteSize + 15 := by
  have hkind : "ACK".utf8ByteSize = 3 := rfl
  have hnormal : (normalize payload).getD "" = payload.getD "" := by
    cases payload with
    | none => rfl
    | some payload => by_cases hempty : payload = "" <;> simp [normalize, Option.filter, hempty]
  rw [mkAck, serialize, String.utf8ByteSize_append, String.utf8ByteSize_append, size_of_isId h,
    hkind, hnormal]
  omega

end Frame

namespace Session

variable {J : JsonText} {s s' : Session} {e : Event J} {i : ℕ} {x y : Exchange} {w w' : Work}

/-! ## The checks of a call -/

/-- **`send_value` on a value**: refused, with nothing else done, or made a call of. -/
theorem next_send {o : Output J} {v : Json} (hv : o.value = some v) (bytes : Vector UInt8 9) :
    s.next J (.send bytes o) =
      if s.limits.maxMessageBytes < (J.toText v).utf8ByteSize + 15 then some s
      else s.call bytes (J.toText v) (some v) := by
  simp only [next, serializeBounded_of_value hv, tooLarge_iff (size_pos J v)]
  by_cases hover : s.limits.maxMessageBytes < (J.toText v).utf8ByteSize + 15
  · rw [if_pos hover, if_pos hover]
  · rw [if_neg hover, if_neg hover, hv]

/-- A call of a message that was not there before passed the bounded writer. -/
theorem Step.sized (h : Step J s e s') (hlen : s.exchanges.length ≤ i)
    (hy : s'.exchanges[i]? = some y) {v : Json} (hv : y.message = some v) :
    y.payload.utf8ByteSize ≤ s.limits.maxMessageBytes - 15 := by
  have hlt := (List.getElem?_eq_some_iff.mp hy).1
  have same : s'.exchanges.length = s.exchanges.length →
      y.payload.utf8ByteSize ≤ s.limits.maxMessageBytes - 15 := fun hsame => by omega
  have hold : s.exchanges[i]? ≠ some y := fun hx => by
    have := (List.getElem?_eq_some_iff.mp hx).1
    omega
  cases h with
  | sent hserial =>
    rcases getElem?_concat_cases hy with ⟨-, rfl⟩ | hx
    · exact (serializeBounded_eq_ok hserial).1
    · exact absurd hx hold
  | sentPayload =>
    rcases getElem?_concat_cases hy with ⟨-, rfl⟩ | hx
    · cases hv
    · exact absurd hx hold
  | exchange _ h =>
    cases h with
    | enqueues _ he => exact same (by simp [setExchange, he.parties.exchanges])
    | removed => exact same (by simp [setExchange, removePending, release])
    | _ => exact same (by simp [setExchange, release])
  | leaves => exact same (by simp [setExchange])
  | beat _ h =>
    cases h with
    | enqueues _ he => exact same (by simp [setBeat, he.parties.exchanges])
    | _ => exact same rfl
  | raw _ he => exact same (by simp [he.parties.exchanges])
  | receive _ h =>
    cases h with
    | answer => exact same (List.length_modify ..)
    | _ => exact same rfl
  | drive h =>
    cases h with
    | settles => exact same (List.length_modify ..)
    | finishSettle => exact same (List.length_modify ..)
    | drains => exact same (Table.length_foldl_holdSender _ _)
    | _ => exact same rfl
  | work _ h => exact same (by rw [h.exchanges])
  | writer h => cases h <;> exact same rfl
  | _ => exact same rfl

/-- What the bounded writer let through stays with its call. -/
theorem payload_of_reachable (h : (machine J).Reachable s) : ∀ (i : ℕ) (x : Exchange) (v : Json),
    s.exchanges[i]? = some x → x.message = some v →
      x.payload.utf8ByteSize ≤ s.limits.maxMessageBytes - 15 := by
  refine h.invariant (P := fun s => ∀ (i : ℕ) (x : Exchange) (v : Json), s.exchanges[i]? = some x →
    x.message = some v → x.payload.utf8ByteSize ≤ s.limits.maxMessageBytes - 15) ?_ ?_
  · rintro s ⟨id, limits, handlers, budget, elsewhere, rfl⟩ i x v hx
    simp [spawn] at hx
  · intro s e s' _ hn ih i y v hy hv
    have h := step_of_next hn
    rw [h.constant.2]
    rcases Nat.lt_or_ge i s.exchanges.length with hlt | hge
    · have hx := List.getElem?_eq_getElem hlt
      obtain ⟨z, hz, -, hpayload, hmessage, -⟩ := h.request.keeps hx
      obtain rfl : z = y := Option.some.inj (hz.symm.trans hy)
      rw [hpayload]
      exact ih i _ v hx (hmessage ▸ hv)
    · exact h.sized hge hy hv

/-- **A call of a message has room for its header**, in every run. -/
theorem size_of_message (h : (machine J).Reachable s) (hx : s.exchanges[i]? = some x) {v : Json}
    (hv : x.message = some v) :
    x.payload = J.toText v ∧ x.payload.utf8ByteSize + 15 ≤ s.limits.maxMessageBytes := by
  have hpayload := (made_of_reachable h hx).payload v hv
  have hsize := payload_of_reachable h i x v hx hv
  have hpos := size_pos J v
  rw [← hpayload] at hpos
  exact ⟨hpayload, by omega⟩

/-- A step of `enqueue` fails with 413 at the size check only. -/
theorem EnqueueStep.tooLarge_of_status {origin : Origin} {q : Enqueue} {error : VcmpError}
    (h : EnqueueStep s origin q s' (.fails error)) (hstatus : error.status = 413) :
    s.limits.maxMessageBytes < q.text.utf8ByteSize := by
  cases h with
  | tooLarge _ _ hsize => exact hsize
  | _ => exact absurd hstatus (by decide)

/-- **A call is refused with 413 at the two size checks only.** -/
theorem ExchangeStep.tooLarge_of_status (h : ExchangeStep s i x s') (hx : s.exchanges[i]? = some x)
    (hnone : x.outcome = none) (hy : s'.exchanges[i]? = some y) {error : VcmpError}
    (hout : y.outcome = some (.refused error)) (hstatus : error.status = 413) :
    s.limits.maxMessageBytes < x.payload.utf8ByteSize + 15 ∨
      ∃ q, x.pc = .enqueuing q ∧ s.limits.maxMessageBytes < q.text.utf8ByteSize := by
  have hset := eq_of_setExchange (y := y) hx
  cases h with
  | tooLarge _ hsize => exact .inl hsize
  | @enqueues q s₁ r hpc he =>
    obtain rfl := hset s₁ _ he.parties.exchanges hy
    cases r with
    | goes => cases hout
    | accepted => cases hout
    | fails error =>
      cases hout
      exact .inr ⟨q, hpc, he.tooLarge_of_status hstatus⟩
  | removed hpc =>
    rw [Exchange.outcome, hpc] at hnone
    cases hnone
  | cleaned hpc =>
    rw [Exchange.outcome, hpc] at hnone
    cases hnone
  | refused =>
    obtain rfl := hset s _ rfl hy
    rw [Exchange.outcome, Option.some.injEq, Outcome.refused.injEq] at hout
    exact absurd (hout ▸ hstatus) (by decide)
  | overloaded =>
    obtain rfl := hset s _ rfl hy
    rw [Exchange.outcome, Option.some.injEq, Outcome.refused.injEq] at hout
    exact absurd (hout ▸ hstatus) (by decide)
  | notOpen =>
    obtain rfl := hset s _ rfl hy
    rw [Exchange.outcome, Option.some.injEq, Outcome.refused.injEq] at hout
    exact absurd (hout ▸ hstatus) (by decide)
  | _ =>
    obtain rfl := hset s _ rfl hy
    simp [Exchange.outcome] at hout

/-- **No call of a message is refused for its size**, in every run. -/
theorem status_of_refused (h : (machine J).Reachable s) : ∀ (i : ℕ) (x : Exchange) (v : Json)
    (error : VcmpError), s.exchanges[i]? = some x → x.message = some v →
      x.outcome = some (.refused error) → error.status ≠ 413 := by
  refine h.invariant_of (P := fun s => ∀ (i : ℕ) (x : Exchange) (v : Json) (error : VcmpError),
    s.exchanges[i]? = some x → x.message = some v → x.outcome = some (.refused error) →
      error.status ≠ 413) ?_ ?_
  · rintro s ⟨id, limits, handlers, budget, elsewhere, rfl⟩ i x v error hx
    simp [spawn] at hx
  · intro s e s' hreach _ hn ih i y v error hy hv hout hstatus
    obtain ⟨x, hx, hcases⟩ := (step_of_next hn).decider hy hout
    obtain ⟨z, hz, -, -, hmessage, hkeep⟩ := (step_of_next hn).request.keeps hx
    obtain rfl : z = y := Option.some.inj (hz.symm.trans hy)
    rw [hmessage] at hv
    rcases hcases with hsome | ⟨-, hstep⟩ | ⟨-, hleaves⟩
    · exact ih i x v error hx hv hsome hstatus
    · rcases hold : x.outcome with - | o
      · -- both checks find that there is room for the frame
        obtain ⟨-, hle⟩ := size_of_message hreach hx hv
        rcases hstep.tooLarge_of_status hx hold hy hout hstatus with hsize | ⟨q, hpc, hsize⟩
        · omega
        · obtain ⟨htext, -⟩ := ((registry_of_reachable hreach).sends hx).frame q hpc
          rw [htext, Exchange.text, Frame.size_message (made_of_reachable hreach hx).id] at hsize
          omega
      · rw [hkeep o hold] at hout
        exact ih i x v error hx hv (hold.trans hout) hstatus
    · cases hleaves

/-! ## The checks of a frame -/

/-- **Past its check a frame is within the limit**, in every run. -/
theorem size_of_enqueue (h : (machine J).Reachable s) : ∀ (origin : Origin) (q : Enqueue),
    s.enqueueOf origin = some q → q.pc ≠ .check →
      q.text.utf8ByteSize ≤ s.limits.maxMessageBytes := by
  refine h.invariant (P := fun s => ∀ (origin : Origin) (q : Enqueue),
    s.enqueueOf origin = some q → q.pc ≠ .check →
      q.text.utf8ByteSize ≤ s.limits.maxMessageBytes) ?_ ?_
  · rintro s ⟨id, limits, handlers, budget, elsewhere, rfl⟩ origin q hq
    cases origin <;> simp [enqueueOf, spawn] at hq
  · intro s e s' _ hn ih origin q' hq' hpc
    rw [(step_of_next hn).constant.2]
    rcases (step_of_next hn).enqueues hq' with hold | ⟨hbegins, -⟩ | ⟨q, s₁, hq, hstep⟩
    · exact ih origin q' hold hpc
    · exact absurd hbegins hpc
    · cases hstep with
      | checked _ _ hsize => exact hsize
      | granted hold => exact ih origin q hq (by simp [hold])
      | admitted hold => exact ih origin q hq (by simp [hold])

/-- **What the queues accept is within the limit**, in every run. -/
theorem size_of_accepted (h : (machine J).Reachable s) :
    ∀ acc ∈ s.accepted, acc.text.utf8ByteSize ≤ s.limits.maxMessageBytes := by
  refine forall_accepted
    (P := fun s acc => acc.text.utf8ByteSize ≤ s.limits.maxMessageBytes) ?_ ?_ h
  · intro s e s' hstep acc hsize
    rwa [hstep.constant.2]
  · intro s origin q p hreach hfor hpc
    exact size_of_enqueue hreach origin q hfor (by simp [hpc])

/-- **A session is closed by a text that is too large, and by no other.** -/
theorem handleIncoming_isOpen (s : Session) (text : String) :
    (s.handleIncoming J text).isOpen =
        (s.isOpen && decide (text.utf8ByteSize ≤ s.limits.maxMessageBytes)) ∧
      (s.handleIncoming J text).closeRequested = (s.closeRequested ||
        (s.isOpen && decide (s.limits.maxMessageBytes < text.utf8ByteSize))) := by
  by_cases hsize : text.utf8ByteSize ≤ s.limits.maxMessageBytes
  · have hnot : ¬ s.limits.maxMessageBytes < text.utf8ByteSize := by omega
    rw [decide_eq_true hsize, decide_eq_false hnot, Bool.and_true, Bool.and_false, Bool.or_false]
    have hstep := receiveStep J s text
    revert hstep
    generalize s.handleIncoming J text = s'
    intro hstep
    cases hstep with
    | tooLarge hover => exact absurd hover hnot
    | _ => exact ⟨rfl, rfl⟩
  · have hover : s.limits.maxMessageBytes < text.utf8ByteSize := by omega
    have hclose : s.handleIncoming J text = (s.hear text).close := if_pos hover
    rw [decide_eq_false hsize, decide_eq_true hover, Bool.and_false, Bool.and_true, hclose]
    exact ⟨rfl, rfl⟩

/-! ## The checks of a result -/

/-- **A handler's result is acknowledged where the frame fits**, and refused otherwise. -/
theorem workReturns_of_value {o : Output J} {v : Json} (hv : o.value = some v)
    (hpc : w.pc = .running) :
    s.workReturns J i w (.ok o) = some (s.setWork i
      (if s.limits.maxMessageBytes < (J.toText v).utf8ByteSize + 15 then
        w.answer .failed (nakFrame J w.id (.new 413 "Message too large"))
      else { w.answer .ok (Frame.mkAck w.id
        (if J.toText v = "null" then none else some (J.toText v))) with returned := some v })) := by
  simp only [workReturns, hpc, handlerPayload_of_value hv]
  by_cases hover : s.limits.maxMessageBytes < (J.toText v).utf8ByteSize + 15
  · rw [if_pos hover, if_pos hover]
  · rw [if_neg hover, if_neg hover]
    simp only [Returned.value, hv]

/-- A work that acknowledges was doing so, or has just been given a result that fits. -/
theorem WorkStep.acknowledges (h : WorkStep J s i w e s') (hw : s.works[i]? = some w)
    (hw' : s'.works[i]? = some w') {q' : Enqueue} (hpc : w'.pc = .answering .ok q') :
    (∃ q, w.pc = .answering .ok q ∧ q'.text = q.text) ∨
      ∃ payload : Option String, q'.text = (Frame.mkAck w.id payload).serialize ∧
        (payload.getD "").utf8ByteSize + 15 ≤ s.limits.maxMessageBytes := by
  have hset : ∀ (u : Session) (z : Work), u.works = s.works →
      (u.setWork i z).works[i]? = some w' → z = w' := fun u z hu hz => by
    rw [setWork, hu, getElem?_set_self' hw] at hz
    exact Option.some.inj hz
  cases h with
  | returns _ hr =>
    obtain rfl := hset s _ rfl hw'
    cases hpc
    exact .inr ⟨_, rfl, size_of_handlerPayload hr⟩
  | @writes ending q q₁ s₁ hold he =>
    obtain rfl := hset s₁ _ he.parties.works hw'
    cases hpc
    refine .inl ⟨q, hold, ?_⟩
    cases he <;> rfl
  | answers ha =>
    obtain rfl := hset s _ rfl hw'
    cases hpc
    cases ha
  | unwritten _ he =>
    obtain rfl := hset _ _ he.parties.works hw'
    cases hpc
  | @written _ _ s₁ _ he =>
    obtain rfl := hset s₁ _ he.parties.works hw'
    cases hpc
  | _ =>
    obtain rfl := hset s _ rfl hw'
    cases hpc

/-- **An acknowledgement passes its size check**, in every run. -/
theorem size_of_acknowledgement (h : (machine J).Reachable s) : ∀ (i : ℕ) (w : Work) (q : Enqueue),
    s.works[i]? = some w → w.pc = .answering .ok q →
      q.text.utf8ByteSize ≤ s.limits.maxMessageBytes := by
  refine h.invariant_of (P := fun s => ∀ (i : ℕ) (w : Work) (q : Enqueue), s.works[i]? = some w →
    w.pc = .answering .ok q → q.text.utf8ByteSize ≤ s.limits.maxMessageBytes) ?_ ?_
  · rintro s ⟨id, limits, handlers, budget, elsewhere, rfl⟩ i w q hw
    simp [spawn] at hw
  · intro s e s' hreach _ hn ih i w' q' hw' hpc
    have hstep := step_of_next hn
    rw [hstep.constant.2]
    rcases hstep.works with ⟨hworks, -⟩ | ⟨text, id, payload, -, -, hs'⟩ | ⟨k, w, hw, hstep⟩
    · exact ih i w' q' (hworks ▸ hw') hpc
    · rw [hs'] at hw'
      rcases getElem?_concat_cases hw' with ⟨-, rfl⟩ | hold
      · cases hpc
      · exact ih i w' q' hold hpc
    · have hjoin : s.drive = .joining → s.isOpen = false := fun hdrive =>
        notOpen_of_stage hreach (by rw [hdrive]; simp [DrivePc.stage])
      obtain ⟨_, hupdate⟩ := hstep.update hjoin
      by_cases hne : k = i
      · subst hne
        rcases hstep.acknowledges hw hw' hpc with ⟨q, hold, htext⟩ | ⟨payload, htext, hsize⟩
        · rw [htext]
          exact ih k w q hw hold
        · obtain ⟨heard, -, -, hparse⟩ := ((worked_of_reachable hreach).kept hw).heard
          rw [htext, Frame.size_mkAck (Frame.isId_of_parse hparse rfl)]
          exact hsize
      · rw [hupdate.works, List.getElem?_set_ne hne] at hw'
        exact ih i w' q' hw' hpc

/-! ## The checks agree -/

/-- **A message of `send_value` after its local checks**: a call of it. -/
structure CallSized (J : JsonText) (s : Session) (x : Exchange) (v : Json) : Prop where
  payload : x.payload = J.toText v
  /-- It passes the check of `exchange`, -/
  start : (J.toText v).utf8ByteSize + 15 ≤ s.limits.maxMessageBytes
  /-- queues a frame of fifteen bytes more, -/
  frame : ∀ q, x.pc = .enqueuing q → q.text.utf8ByteSize = (J.toText v).utf8ByteSize + 15
  /-- and is not refused for its size. -/
  refused : ∀ error, x.outcome = some (.refused error) → error.status ≠ 413

/-- **All size checks agree.** -/
structure SizesAgree (J : JsonText) (s : Session) : Prop where
  writer : ∀ (chunks : List (List UInt8)) (finishes : Bool) (limit : ℕ),
    WriterExact chunks finishes limit
  /-- The writer of the session does what the one on bytes does, however they are chunked. -/
  bytes : ∀ (o : Output J) (chunks : List (List UInt8)) (limit : ℕ),
    chunks.flatten = bytesOf (concat o.chunks) →
      serializeBytes chunks o.value.isSome limit = (serializeBounded o limit).map bytesOf
  /-- The sum in `exchange` saturates for no text there can be. -/
  added : ∀ w n : ℕ, 16 ≤ w → n ≤ 2 ^ (w - 1) - 1 → saturatingAdd w n 15 = n + 15
  /-- `send_value` refuses a value exactly where its frame would be too large, -/
  rejects : ∀ (o : Output J) (v : Json), o.value = some v →
    (serializeBounded o (s.limits.maxMessageBytes - 15) = .error (.new 413 "Message too large") ↔
      s.limits.maxMessageBytes < (J.toText v).utf8ByteSize + 15)
  /-- with nothing admitted, and makes a call of it otherwise. -/
  sends : ∀ (bytes : Vector UInt8 9) (o : Output J) (v : Json), o.value = some v →
    s.next J (.send bytes o) =
      if s.limits.maxMessageBytes < (J.toText v).utf8ByteSize + 15 then some s
      else s.call bytes (J.toText v) (some v)
  called : ∀ (i : ℕ) (x : Exchange) (v : Json), s.exchanges[i]? = some x → x.message = some v →
    CallSized J s x v
  /-- A handler's result is acknowledged where the frame fits, and refused otherwise, -/
  returns : ∀ (i : ℕ) (w : Work) (o : Output J) (v : Json), w.pc = .running → o.value = some v →
    s.workReturns J i w (.ok o) = some (s.setWork i
      (if s.limits.maxMessageBytes < (J.toText v).utf8ByteSize + 15 then
        w.answer .failed (nakFrame J w.id (.new 413 "Message too large"))
      else { w.answer .ok (Frame.mkAck w.id
        (if J.toText v = "null" then none else some (J.toText v))) with returned := some v }))
  /-- and the acknowledgement passes the check of `enqueue`. -/
  acknowledges : ∀ (i : ℕ) (w : Work) (q : Enqueue), s.works[i]? = some w →
    w.pc = .answering .ok q → q.text.utf8ByteSize ≤ s.limits.maxMessageBytes
  /-- What this session accepted for sending closes no session of the same limit. -/
  peer : ∀ acc ∈ s.accepted, ∀ t : Session,
    t.limits.maxMessageBytes = s.limits.maxMessageBytes →
      (t.handleIncoming J acc.text).isOpen = t.isOpen ∧
        (t.handleIncoming J acc.text).closeRequested = t.closeRequested

/-- **All size checks agree**, in every run and at every limit. -/
theorem sizes_agree (h : (machine J).Reachable s) : SizesAgree J s where
  writer := writerExact
  bytes o chunks limit hchunks := serializeBytes_eq_map o hchunks limit
  added w n hw hn := saturatingAdd_header hw hn
  rejects o v hv := by
    rw [serializeBounded_of_value hv, ← tooLarge_iff (size_pos J v)]
    split_ifs with hover
    · exact iff_of_true rfl hover
    · exact iff_of_false (by simp) hover
  sends bytes o v hv := next_send hv bytes
  called i x v hx hv := by
    obtain ⟨hpayload, hsize⟩ := size_of_message h hx hv
    refine ⟨hpayload, hpayload ▸ hsize, fun q hpc => ?_, fun error hout => ?_⟩
    · obtain ⟨htext, -⟩ := ((registry_of_reachable h).sends hx).frame q hpc
      rw [htext, Exchange.text, Frame.size_message (made_of_reachable h hx).id, hpayload]
    · exact status_of_refused h i x v error hx hv hout
  returns i w o v hpc hv := workReturns_of_value hv hpc
  acknowledges := size_of_acknowledgement h
  peer acc hacc t ht := by
    have hsize : acc.text.utf8ByteSize ≤ t.limits.maxMessageBytes := by
      rw [ht]
      exact size_of_accepted h acc hacc
    have hnot : ¬ t.limits.maxMessageBytes < acc.text.utf8ByteSize := by omega
    obtain ⟨hopen, hrequest⟩ := handleIncoming_isOpen (J := J) t acc.text
    rw [hopen, hrequest, decide_eq_true hsize, decide_eq_false hnot]
    simp

/-- A text of so many letters. -/
def letters (n : ℕ) : Json := .str (String.ofList (List.replicate n 'a'))

/-- A message whose frame is as large as the limit, and one of a byte more. -/
def fullRun : List (Event compactJson) :=
  [.send zeroBytes (.ofJson _ (letters 47)), .send (Vector.replicate 9 1) (.ofJson _ (letters 48))] ++
    List.replicate 7 (.exchange 0)

theorem sizes_agree_fullRun : ∃ s, (machine compactJson).run (small []) fullRun = some s ∧
    s.exchanges.length = 1 ∧ s.accepted.map (·.text.utf8ByteSize) = [64] ∧
    SizesAgree compactJson s := by
  have hrun : ((machine compactJson).run (small []) fullRun).any
      (fun s => decide (s.exchanges.length = 1 ∧ s.accepted.map (·.text.utf8ByteSize) = [64])) =
        true := by decide +kernel
  obtain ⟨s, hs, hend⟩ := Machine.exists_of_run hrun
  obtain ⟨hcalls, haccepted⟩ := of_decide_eq_true hend
  exact ⟨s, hs, hcalls, haccepted, sizes_agree (Machine.reachable_of_run (init_small _ []) hs)⟩

end Session

end Vcmp
