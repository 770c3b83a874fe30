import Vcmp.Wire.Frame
/-!
# The grammar, and the round trips

The documented grammar is the layout with decimal numerals for
intervals. `parse` accepts all of it, and beyond it exactly the
heartbeats whose numeral the standard reader takes with a plus sign
(`parse_grammar_iff`). `serialize` writes inside the grammar, so reading
a frame back gives the frame, and an accepted `MSG`, `ACK` or `NAK` is
the text of the frame it reads as (`parse_serialize_roundtrip`).
-/

namespace Vcmp

namespace Frame

/-! ## Slicing -/

/-- `raw.get(..n)`. -/
def getTo (n : ℕ) (raw : List Char) : Option (List Char) := (splitBytes n raw).map Prod.fst

/-- `raw.get(n..)`; the slice `&raw[n..]` panics where it is `none`. -/
def getFrom (n : ℕ) (raw : List Char) : Option (List Char) := (splitBytes n raw).map Prod.snd

/-- `raw.get(m..n)`. -/
def getRange (m n : ℕ) (raw : List Char) : Option (List Char) :=
  (getFrom m raw).bind (getTo (n - m))

/-- `Frame::parse` with every access to the text as the source makes it:
`none` is the panic of a slice that is not on a character boundary. -/
def parseSliced (raw : String) : Option (Except FrameError Frame) :=
  match getTo typeLength raw.toList with
  | none => some (.error (.tooShort raw.utf8ByteSize))
  | some kind =>
    match String.ofList kind with
    | "HBT" =>
      (getFrom typeLength raw.toList).map fun interval =>
        match parseU64 interval with
        | some n => .ok (.heartbeat n)
        | none => .error (.invalidInterval (String.ofList interval))
    | "MSG" => some (withId fun id payload => .message id payload)
    | "ACK" => some (withId fun id payload => mkAck id (some payload))
    | "NAK" => some (withId fun id payload => mkNak id (some payload))
    | other => some (.error (.invalidType other))
where
  /-- The arm the three types with an id share. -/
  withId (frame : String → String → Frame) : Except FrameError Frame :=
    match (getRange typeLength payloadIndex raw.toList).filter
        fun id => id.all fun c => c.toNat < 128 with
    | none => .error .incompleteId
    | some id =>
      .ok (frame (String.ofList id) (String.ofList ((getFrom payloadIndex raw.toList).getD [])))

/-- Behind the type, the range of the id is where `splitId` cuts, and the
payload is what is left: its default is never used. -/
theorem withId_eq {raw : String} {kind rest : List Char}
    (h : splitBytes typeLength raw.toList = some (kind, rest)) (frame : String → String → Frame) :
    parseSliced.withId raw frame = (splitId rest).map fun p => frame p.1 p.2 := by
  obtain ⟨htext, hsize⟩ := splitBytes_eq_some h
  have hbehind : splitBytes payloadIndex raw.toList =
      (splitBytes idLength rest).map fun p => (kind ++ p.1, p.2) := by
    rw [htext, payloadIndex, ← hsize, splitBytes_add]
  have hrange : getRange typeLength payloadIndex raw.toList =
      (splitBytes idLength rest).map Prod.fst := by
    rw [getRange, getFrom, h]
    rfl
  unfold parseSliced.withId splitId
  rw [hrange]
  rcases hid : splitBytes idLength rest with - | ⟨id, payload⟩
  · rfl
  · have hpayload : getFrom payloadIndex raw.toList = some payload := by
      rw [getFrom, hbehind, hid]
      rfl
    by_cases hascii : (id.all fun c => decide (c.toNat < 128)) = true
    · simp [Option.filter, hpayload, hascii, Except.map]
    · simp [Option.filter, hascii, Except.map]

/-- **No access is inside a character**: the sliced reading never panics,
and it is `parse`. -/
theorem parseSliced_eq (raw : String) : parseSliced raw = some (parse raw) := by
  rcases hcut : splitBytes typeLength raw.toList with - | ⟨kind, rest⟩
  · simp [parseSliced, parse, getTo, hcut]
  · have hto : getTo typeLength raw.toList = some kind := by simp [getTo, hcut]
    have hfrom : getFrom typeLength raw.toList = some rest := by simp [getFrom, hcut]
    simp only [parseSliced, parse, hto, hfrom, hcut, withId_eq hcut, Option.map_some]
    split
    · rcases parseU64 rest with - | n <;> simp [*]
    all_goals simp [*]

/-! ## The grammar -/

/-- **The documented grammar**: the layout, with decimal numerals. -/
def Denotes : String → Frame → Prop := Layout Decimal

/-- A heartbeat whose interval is a decimal numeral behind a plus sign. -/
def PlusSigned (text : String) : Prop :=
  ∃ digits n, Decimal digits n ∧ text = "HBT" ++ String.ofList ('+' :: digits)

/-- What the grammar has is accepted. -/
theorem parse_of_denotes {text : String} {frame : Frame} (h : Denotes text frame) :
    parse text = .ok frame := by
  rw [parse_iff]
  cases h with
  | message hid => exact .message hid
  | ack hid => exact .ack hid
  | nak hid => exact .nak hid
  | heartbeat h => exact .heartbeat (parseU64_iff.mpr (h.unsigned.symm ▸ h))

/-- What is accepted and not signed is in the grammar. -/
theorem denotes_of_parse {text : String} {frame : Frame} (hplus : ¬ PlusSigned text)
    (h : parse text = .ok frame) : Denotes text frame := by
  cases parse_iff.mp h with
  | message hid => exact .message hid
  | ack hid => exact .ack hid
  | nak hid => exact .nak hid
  | @heartbeat numeral interval hread =>
    have hdec := parseU64_iff.mp hread
    rcases unsigned_cases numeral.toList with hsign | hnone
    · refine absurd ⟨unsigned numeral.toList, interval, hdec, ?_⟩ hplus
      rw [← hsign, String.ofList_toList]
    · exact .heartbeat (hnone.symm ▸ hdec)

/-- A signed heartbeat is accepted, and the grammar has no frame for it. -/
theorem plusSigned_escapes {text : String} (h : PlusSigned text) :
    ∃ frame, parse text = .ok frame ∧ ¬ Denotes text frame := by
  obtain ⟨digits, n, hdec, rfl⟩ := h
  have hread : parseU64 (String.ofList ('+' :: digits)).toList = some n := by
    rw [String.toList_ofList, parseU64_iff]
    exact hdec
  refine ⟨.heartbeat n, parse_iff.mpr (.heartbeat hread), fun hden => ?_⟩
  -- every text of the layout with an interval is `HBT` and a numeral
  generalize htext : "HBT" ++ String.ofList ('+' :: digits) = text at hden
  cases hden with
  | heartbeat hnumeral =>
    rw [String.append_right_inj] at htext
    rw [← htext, String.toList_ofList] at hnumeral
    exact hnumeral.not_plus

/-- **`parse` is the grammar, signed heartbeats apart.** It accepts a text
as a frame exactly where the grammar has it, and never cuts inside a
character, if and only if the text is not a heartbeat with a plus sign. -/
theorem parse_grammar_iff (text : String) :
    ((∀ frame, parse text = .ok frame ↔ Denotes text frame) ∧
        parseSliced text = some (parse text)) ↔
      ¬ PlusSigned text := by
  constructor
  · rintro ⟨hagree, -⟩ hplus
    obtain ⟨frame, hparse, hno⟩ := plusSigned_escapes hplus
    exact hno ((hagree frame).mp hparse)
  · intro hplus
    exact ⟨fun frame => ⟨denotes_of_parse hplus, parse_of_denotes⟩, parseSliced_eq text⟩

/-- `HBT+5` is accepted as the heartbeat of five milliseconds, and the
grammar has no such text. -/
theorem parse_grammar_fails :
    ¬ ∀ text frame, parse text = .ok frame ↔ Denotes text frame := by
  intro h
  have hplus : PlusSigned "HBT+5" :=
    ⟨['5'], 5, ⟨by decide, fun c hc => by rw [List.mem_singleton.mp hc]; decide, by decide,
      by decide⟩, by decide⟩
  obtain ⟨frame, hparse, hno⟩ := plusSigned_escapes hplus
  exact hno ((h "HBT+5" frame).mp hparse)

/-! ## Round trips -/

/-- **What a frame keeps**: its id is one, an empty payload of an answer
is not kept as one, and an interval fits its type. -/
def WellFormed : Frame → Prop
  | .message id _ => IsId id
  | .ack id payload => IsId id ∧ payload ≠ some ""
  | .nak id payload => IsId id ∧ payload ≠ some ""
  | .heartbeat interval => interval < u64Bound

theorem normalize_ne_empty (payload : Option String) : normalize payload ≠ some "" := by
  simp [normalize, Option.filter_eq_some_iff]

/-- A payload that is not the empty text is kept. -/
theorem normalize_of_ne {payload : Option String} (h : payload ≠ some "") :
    normalize payload = payload := by
  rcases payload with - | payload
  · rfl
  · have hne : payload ≠ "" := fun he => h (he ▸ rfl)
    simp [normalize, Option.filter, hne]

/-- What the constructors build around an id is well formed. -/
theorem wellFormed_constructors {id : String} (hid : IsId id) :
    (∀ payload, WellFormed (.message id payload)) ∧
      (∀ payload, WellFormed (mkAck id payload)) ∧ ∀ payload, WellFormed (mkNak id payload) :=
  ⟨fun _ => hid, fun _ => ⟨hid, normalize_ne_empty _⟩, fun _ => ⟨hid, normalize_ne_empty _⟩⟩

/-- What `parse` returns is well formed. -/
theorem wellFormed_of_parse {text : String} {frame : Frame} (h : parse text = .ok frame) :
    WellFormed frame := by
  cases parse_iff.mp h with
  | message hid => exact hid
  | ack hid => exact ⟨hid, normalize_ne_empty _⟩
  | nak hid => exact ⟨hid, normalize_ne_empty _⟩
  | heartbeat hread => exact parseU64_lt hread

/-- **Reading back what was written.** -/
theorem parse_serialize {frame : Frame} (h : WellFormed frame) :
    parse frame.serialize = .ok frame := by
  cases frame with
  | message id payload => exact parse_msg h payload
  | ack id payload =>
    have hread := parse_mkAck h.1 payload
    rwa [mkAck, normalize_of_ne h.2] at hread
  | nak id payload =>
    have hread := parse_mkNak h.1 payload
    rwa [mkNak, normalize_of_ne h.2] at hread
  | heartbeat interval => exact parse_hbt h

/-- The empty payload is written as it was read. -/
theorem getD_normalize (payload : String) : (normalize (some payload)).getD "" = payload := by
  by_cases h : payload = "" <;> simp [normalize, Option.filter, h]

/-- **Writing what was read**: the very text where there is an id. -/
theorem serialize_of_parse {text : String} {frame : Frame} (h : parse text = .ok frame)
    (hid : frame.id.isSome) : frame.serialize = text := by
  cases parse_iff.mp h with
  | message => rfl
  | ack => rw [serialize, getD_normalize]
  | nak => rw [serialize, getD_normalize]
  | heartbeat => cases hid

/-- **The codec is a round trip both ways.** Every well formed frame is
read back from its text, so no two share one; what the constructors and
`parse` make is well formed; an accepted text with an id is the text of
its frame, and a heartbeat is written with the decimal numeral of its
interval, which reads as the same frame. -/
theorem parse_serialize_roundtrip :
    (∀ frame, WellFormed frame → parse frame.serialize = .ok frame) ∧
      (∀ frame other, WellFormed frame → WellFormed other →
        frame.serialize = other.serialize → frame = other) ∧
      (∀ id, IsId id → (∀ payload, WellFormed (.message id payload)) ∧
        (∀ payload, WellFormed (mkAck id payload)) ∧ ∀ payload, WellFormed (mkNak id payload)) ∧
      ∀ text frame, parse text = .ok frame →
        WellFormed frame ∧ (frame.id.isSome → frame.serialize = text) ∧
          ∀ interval, frame = .heartbeat interval →
            frame.serialize = "HBT" ++ String.ofList (Nat.toDigits 10 interval) ∧
              parse frame.serialize = .ok frame := by
  refine ⟨fun _ => parse_serialize, fun frame other hf ho heq => ?_,
    fun _ => wellFormed_constructors, fun text frame h => ?_⟩
  · have hread := parse_serialize hf
    rw [heq, parse_serialize ho] at hread
    exact (Except.ok.inj hread).symm
  · have hwf := wellFormed_of_parse h
    refine ⟨hwf, serialize_of_parse h, ?_⟩
    rintro interval rfl
    exact ⟨rfl, parse_serialize hwf⟩

end Frame

end Vcmp
