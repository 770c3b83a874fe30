import Vcmp.Common.Text
import Mathlib.Data.List.Basic
/-!
# The frame codec

A frame is one text: a three-letter type, then for `MSG`, `ACK` and
`NAK` a twelve-character id and the payload, for `HBT` the interval in
decimal. `parse` cuts by byte offset, so an id is only read where the
twelve bytes end on a character boundary, and is only accepted where
every byte is a character of its own.
-/

namespace Vcmp

/-- Length of the frame type prefix. -/
def typeLength : ℕ := 3

/-- Length of a frame id. -/
def idLength : ℕ := 12

/-- Where the payload of a `MSG`, `ACK` or `NAK` begins. -/
def payloadIndex : ℕ := typeLength + idLength

/-- A parsed frame. -/
inductive Frame where
  /-- A message that expects an answer with the same id. -/
  | message (id payload : String)
  /-- A positive answer; `none` where the handler returned nothing. -/
  | ack (id : String) (payload : Option String)
  /-- A negative answer; `none` where there is no handler for the type. -/
  | nak (id : String) (payload : Option String)
  /-- A heartbeat, with the interval in milliseconds. -/
  | heartbeat (interval : ℕ)
  deriving DecidableEq, Repr

/-- Why a text is no frame. -/
inductive FrameError where
  | tooShort (bytes : ℕ)
  | invalidType (kind : String)
  | incompleteId
  | invalidInterval (interval : String)
  deriving DecidableEq, Repr

namespace Frame

/-- An empty payload and no payload are one thing on the wire. -/
def normalize (payload : Option String) : Option String := payload.filter (· ≠ "")

/-- `Frame::ack`. -/
def mkAck (id : String) (payload : Option String) : Frame := .ack id (normalize payload)

/-- `Frame::nak`. -/
def mkNak (id : String) (payload : Option String) : Frame := .nak id (normalize payload)

/-- The three-letter type. -/
def kind : Frame → String
  | .message .. => "MSG"
  | .ack .. => "ACK"
  | .nak .. => "NAK"
  | .heartbeat .. => "HBT"

/-- The id, which heartbeats have none of. -/
def id : Frame → Option String
  | .message id _ | .ack id _ | .nak id _ => some id
  | .heartbeat _ => none

/-- The text a frame is sent as. -/
def serialize : Frame → String
  | .message id payload => "MSG" ++ id ++ payload
  | .ack id payload => "ACK" ++ id ++ payload.getD ""
  | .nak id payload => "NAK" ++ id ++ payload.getD ""
  | .heartbeat interval => "HBT" ++ interval.repr

/-- The id and the payload behind the type prefix. -/
def splitId (rest : List Char) : Except FrameError (String × String) :=
  match splitBytes idLength rest with
  | none => .error .incompleteId
  | some (id, payload) =>
    if id.all fun c => c.toNat < 128 then .ok (String.ofList id, String.ofList payload)
    else .error .incompleteId

/-- `Frame::parse`. -/
def parse (raw : String) : Except FrameError Frame :=
  match splitBytes typeLength raw.toList with
  | none => .error (.tooShort raw.utf8ByteSize)
  | some (kind, rest) =>
    match String.ofList kind with
    | "HBT" =>
      match parseU64 rest with
      | some interval => .ok (.heartbeat interval)
      | none => .error (.invalidInterval (String.ofList rest))
    | "MSG" => (splitId rest).map fun p => .message p.1 p.2
    | "ACK" => (splitId rest).map fun p => mkAck p.1 (some p.2)
    | "NAK" => (splitId rest).map fun p => mkNak p.1 (some p.2)
    | other => .error (.invalidType other)

example : parse "MSG123456789012foo" = .ok (.message "123456789012" "foo") := by decide
example : parse "ACK123456789012" = .ok (.ack "123456789012" none) := by decide
example : parse "MSGäääääää" = .error .incompleteId := by decide

/-! ## Ids -/

/-- The URL-safe alphabet of RFC 4648. -/
def base64Url : List Char :=
  "ABCDEFGHIJKLMNOPQRSTUVWXYZabcdefghijklmnopqrstuvwxyz0123456789-_".toList

/-- One chunk of up to three bytes: a character more than it has bytes. -/
def encodeChunk (chunk : List UInt8) : List Char :=
  let byte (i : ℕ) : ℕ := (chunk[i]?.getD 0).toNat
  let triple := byte 0 <<< 16 ||| byte 1 <<< 8 ||| byte 2
  (List.range (chunk.length + 1)).map fun i =>
    base64Url.getD (triple >>> (18 - 6 * i) &&& 0x3f) 'A'

/-- `base64url_no_pad`, chunk after chunk. -/
def base64UrlNoPad (bytes : List UInt8) : List Char :=
  match bytes with
  | [] => []
  | [a] => encodeChunk [a]
  | [a, b] => encodeChunk [a, b]
  | a :: b :: c :: rest => encodeChunk [a, b, c] ++ base64UrlNoPad rest

/-- `generate_id`, over the nine bytes the random source yields. -/
def generateId (bytes : Vector UInt8 9) : String :=
  String.ofList (base64UrlNoPad bytes.toList)

example : base64UrlNoPad [0x66, 0x6f, 0x6f, 0x62, 0x61, 0x72] = "Zm9vYmFy".toList := by decide

/-- **An id as the codec requires it**: twelve ASCII characters. -/
structure IsId (id : String) : Prop where
  length : id.toList.length = idLength
  ascii : ∀ c ∈ id.toList, c.toNat < 128

theorem utf8Size_of_ascii {c : Char} (h : c.toNat < 128) : c.utf8Size = 1 := by
  have hval : c.val ≤ 127 := by
    rw [UInt32.le_iff_toNat_le]
    have : c.val.toNat = c.toNat := rfl
    simp only [UInt32.reduceToNat]
    omega
  simp [Char.utf8Size, hval]

theorem IsId.byteSize_eq {id : String} (h : IsId id) : byteSize id.toList = idLength := by
  rw [byteSize_of_ascii fun c hc => utf8Size_of_ascii (h.ascii c hc), h.length]

theorem base64Url_ascii {c : Char} (h : c ∈ base64Url) : c.toNat < 128 := by
  have key : base64Url.all (fun c => decide (c.toNat < 128)) = true := by decide
  exact of_decide_eq_true (List.all_eq_true.mp key c h)

theorem encodeChunk_ascii {chunk : List UInt8} {c : Char} (h : c ∈ encodeChunk chunk) :
    c.toNat < 128 := by
  simp only [encodeChunk, List.mem_map] at h
  obtain ⟨i, -, rfl⟩ := h
  rw [List.getD_eq_getElem?_getD]
  rcases hget : base64Url[_]? with - | d
  · decide
  · exact base64Url_ascii (List.mem_of_getElem? hget)

@[simp] theorem length_encodeChunk (chunk : List UInt8) :
    (encodeChunk chunk).length = chunk.length + 1 := by
  simp [encodeChunk]

/-- **A generated id is an id.** -/
theorem isId_generateId (bytes : Vector UInt8 9) : IsId (generateId bytes) := by
  have hlen : bytes.toList.length = 9 := by simp
  obtain ⟨a, b, c, d, e, f, g, h, i, hb⟩ :
      ∃ a b c d e f g h i, bytes.toList = [a, b, c, d, e, f, g, h, i] := by
    match hl : bytes.toList, hlen with
    | [a, b, c, d, e, f, g, h, i], _ => exact ⟨a, b, c, d, e, f, g, h, i, rfl⟩
  constructor
  · simp [generateId, hb, base64UrlNoPad, idLength]
  · intro x hx
    simp only [generateId, hb, String.toList_ofList, base64UrlNoPad, List.append_nil,
      List.mem_append] at hx
    rcases hx with h | h | h
    all_goals exact encodeChunk_ascii h

/-! ## Round trips -/

@[simp] theorem splitBytes_id {id : String} (h : IsId id) (rest : List Char) :
    splitBytes idLength (id.toList ++ rest) = some (id.toList, rest) := by
  rw [← h.byteSize_eq, splitBytes_append]

theorem splitId_append {id : String} (h : IsId id) (payload : String) :
    splitId (id.toList ++ payload.toList) = .ok (id, payload) := by
  have hall : id.toList.all (fun c => decide (c.toNat < 128)) = true := by
    simpa using h.ascii
  simp [splitId, splitBytes_id h, hall]

/-- What `splitId` accepts is an id. -/
theorem isId_of_splitId {rest : List Char} {id payload : String}
    (h : splitId rest = .ok (id, payload)) : IsId id := by
  unfold splitId at h
  split at h
  · cases h
  · rename_i cs ps hs
    split at h
    · rename_i hall
      cases h
      have hsize := (splitBytes_eq_some hs).2
      have hasc : ∀ c ∈ cs, c.toNat < 128 := by simpa using hall
      rw [byteSize_of_ascii fun c hc => utf8Size_of_ascii (hasc c hc)] at hsize
      exact ⟨by simpa using hsize, by simpa using hasc⟩
    · cases h

theorem splitBytes_kind (kind rest : List Char) (hk : byteSize kind = typeLength) :
    splitBytes typeLength (kind ++ rest) = some (kind, rest) := by
  rw [← hk, splitBytes_append]

theorem parse_msg {id : String} (h : IsId id) (payload : String) :
    parse ("MSG" ++ id ++ payload) = .ok (.message id payload) := by
  have hcut := splitBytes_kind "MSG".toList (id.toList ++ payload.toList) (by decide)
  simp only [parse, String.toList_append, List.append_assoc, hcut]
  simp [splitId_append h, Except.map]

theorem parse_ack {id : String} (h : IsId id) (payload : String) :
    parse ("ACK" ++ id ++ payload) = .ok (mkAck id (some payload)) := by
  have hcut := splitBytes_kind "ACK".toList (id.toList ++ payload.toList) (by decide)
  simp only [parse, String.toList_append, List.append_assoc, hcut]
  simp [splitId_append h, Except.map]

theorem parse_nak {id : String} (h : IsId id) (payload : String) :
    parse ("NAK" ++ id ++ payload) = .ok (mkNak id (some payload)) := by
  have hcut := splitBytes_kind "NAK".toList (id.toList ++ payload.toList) (by decide)
  simp only [parse, String.toList_append, List.append_assoc, hcut]
  simp [splitId_append h, Except.map]

theorem parse_hbt {interval : ℕ} (h : interval < u64Bound) :
    parse ("HBT" ++ interval.repr) = .ok (.heartbeat interval) := by
  have hcut := splitBytes_kind "HBT".toList (Nat.toDigits 10 interval) (by decide)
  simp only [parse, String.toList_append, toList_repr, hcut]
  simp [parseU64_toDigits h]

/-- An absent payload and an empty one are sent, and read, alike. -/
theorem normalize_getD (payload : Option String) :
    normalize (some ((normalize payload).getD "")) = normalize payload := by
  cases payload with
  | none => simp [normalize]
  | some payload => by_cases h : payload = "" <;> simp [normalize, Option.filter, h]

theorem parse_mkAck {id : String} (h : IsId id) (payload : Option String) :
    parse (mkAck id payload).serialize = .ok (mkAck id payload) := by
  show parse ("ACK" ++ id ++ (normalize payload).getD "") = _
  rw [parse_ack h, mkAck, mkAck, normalize_getD]

theorem parse_mkNak {id : String} (h : IsId id) (payload : Option String) :
    parse (mkNak id payload).serialize = .ok (mkNak id payload) := by
  show parse ("NAK" ++ id ++ (normalize payload).getD "") = _
  rw [parse_nak h, mkNak, mkNak, normalize_getD]

/-! ## What is accepted -/

/-- **The layout of a frame's text**, up to which texts `Numeral` takes
for an interval. An empty payload of an answer reads as none. -/
inductive Layout (Numeral : List Char → ℕ → Prop) : String → Frame → Prop where
  | message {id payload : String} (hid : IsId id) :
      Layout Numeral ("MSG" ++ id ++ payload) (.message id payload)
  | ack {id payload : String} (hid : IsId id) :
      Layout Numeral ("ACK" ++ id ++ payload) (.ack id (normalize (some payload)))
  | nak {id payload : String} (hid : IsId id) :
      Layout Numeral ("NAK" ++ id ++ payload) (.nak id (normalize (some payload)))
  | heartbeat {numeral : String} {interval : ℕ} (h : Numeral numeral.toList interval) :
      Layout Numeral ("HBT" ++ numeral) (.heartbeat interval)

/-- What `splitId` takes apart is the id and the payload in a row. -/
theorem splitId_eq_ok {rest : List Char} {id payload : String}
    (h : splitId rest = .ok (id, payload)) : String.ofList rest = id ++ payload := by
  unfold splitId at h
  split at h
  · cases h
  · rename_i cs ps hs
    obtain ⟨rfl, -⟩ := splitBytes_eq_some hs
    split at h
    · cases h
      rw [String.ofList_append]
    · cases h

/-- **`parse` accepts the layout**, with the intervals of `parseU64`. -/
theorem parse_iff {text : String} {frame : Frame} :
    parse text = .ok frame ↔ Layout (fun cs n => parseU64 cs = some n) text frame := by
  constructor
  · intro h
    unfold parse at h
    split at h
    · cases h
    · rename_i type_ rest hsplit
      obtain ⟨htext, -⟩ := splitBytes_eq_some hsplit
      have hcut : text = String.ofList type_ ++ String.ofList rest := by
        rw [← String.ofList_append, ← htext, String.ofList_toList]
      have hpair : ∀ {g : String × String → Frame}, (splitId rest).map g = .ok frame →
          ∃ id payload, IsId id ∧ String.ofList rest = id ++ payload ∧ g (id, payload) = frame := by
        intro g hmap
        rcases hs : splitId rest with error | ⟨id, payload⟩ <;> rw [hs] at hmap
        · cases hmap
        · exact ⟨id, payload, isId_of_splitId hs, splitId_eq_ok hs, Except.ok.inj hmap⟩
      split at h
      · rename_i htype
        split at h <;> cases h
        rw [hcut, htype]
        exact .heartbeat (by simpa using ‹_›)
      all_goals rename_i htype
      · obtain ⟨id, payload, hid, hrest, rfl⟩ := hpair h
        rw [hcut, htype, hrest, ← String.append_assoc]
        exact .message hid
      · obtain ⟨id, payload, hid, hrest, rfl⟩ := hpair h
        rw [hcut, htype, hrest, ← String.append_assoc]
        exact .ack hid
      · obtain ⟨id, payload, hid, hrest, rfl⟩ := hpair h
        rw [hcut, htype, hrest, ← String.append_assoc]
        exact .nak hid
      · cases h
  · intro h
    induction h with
    | message hid => exact parse_msg hid _
    | ack hid => exact parse_ack hid _
    | nak hid => exact parse_nak hid _
    | @heartbeat numeral interval h =>
      have hcut := splitBytes_kind "HBT".toList numeral.toList (by decide)
      simp only [parse, String.toList_append, hcut, h, String.ofList_toList]

/-- **The id of a frame that was read is an id.** -/
theorem isId_of_parse {text id : String} {frame : Frame} (h : parse text = .ok frame)
    (hid : frame.id = some id) : IsId id := by
  cases parse_iff.mp h with
  | message hread | ack hread | nak hread => exact Option.some.inj hid ▸ hread
  | heartbeat => cases hid

/-- A frame is sent as a text that begins with its kind. -/
theorem kind_serialize (frame : Frame) : frame.kind.toList <+: frame.serialize.toList := by
  cases frame with
  | message id payload =>
    rw [show (message id payload).serialize = "MSG" ++ id ++ payload from rfl,
      String.toList_append, String.toList_append, List.append_assoc]
    exact List.prefix_append _ _
  | ack id payload =>
    rw [show (ack id payload).serialize = "ACK" ++ id ++ payload.getD "" from rfl,
      String.toList_append, String.toList_append, List.append_assoc]
    exact List.prefix_append _ _
  | nak id payload =>
    rw [show (nak id payload).serialize = "NAK" ++ id ++ payload.getD "" from rfl,
      String.toList_append, String.toList_append, List.append_assoc]
    exact List.prefix_append _ _
  | heartbeat interval =>
    rw [show (heartbeat interval).serialize = "HBT" ++ interval.repr from rfl,
      String.toList_append]
    exact List.prefix_append _ _

/-- A text begins with one kind only. -/
theorem kind_of_prefix {text : String} {frame : Frame} {type_ : String}
    (hlength : type_.toList.length = typeLength) (hkind : type_.toList <+: text.toList)
    (hframe : frame.kind.toList <+: text.toList) : frame.kind = type_ := by
  have hlen : frame.kind.toList.length = typeLength := by
    cases frame <;> simp only [kind] <;> decide
  have hsame := (List.prefix_of_prefix_length_le hframe hkind (by omega)).eq_of_length (by omega)
  exact String.toList_injective hsame

/-- **A text begins with the kind of the frame it is.** -/
theorem kind_of_parse {text : String} {frame : Frame} (h : parse text = .ok frame) :
    frame.kind.toList <+: text.toList := by
  cases parse_iff.mp h with
  | message | ack | nak =>
    rw [String.toList_append, String.toList_append, List.append_assoc]
    exact List.prefix_append _ _
  | heartbeat =>
    rw [String.toList_append]
    exact List.prefix_append _ _

/-- The interval of a heartbeat that was read fits the type. -/
theorem interval_lt_of_parse {text : String} {interval : ℕ}
    (h : parse text = .ok (.heartbeat interval)) : interval < u64Bound := by
  cases parse_iff.mp h with
  | heartbeat hread => exact parseU64_lt hread

end Frame

end Vcmp
