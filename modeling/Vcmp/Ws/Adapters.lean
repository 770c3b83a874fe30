import Vcmp.Common.Transducer
import Vcmp.Ws.Fragments
/-!
# The adapters between a session and its WebSocket

`outgoing` turns each text of a session into the frames of one message,
and `incoming` turns the messages of the stream into the texts a session
takes. Between them stand the two libraries that write and read frames.
What is asked of the one that reads is the reading the protocol
prescribes: frames are put together to messages, control frames may stand
anywhere between them, and a message past the configured size is an
error. It is asked on pieces that keep to the protocol only, so what a
library makes of a control frame that is too long, or of bytes no text
begins with, and when, is left to it.

Whatever part of the frames has come through when the stream ends, the
session has been given the texts all of whose frames are in it.
-/

namespace Vcmp

/-- What travels one way: a frame of a message, or a control frame. -/
inductive Piece where
  | data (frame : WsFrame)
  | ping (bytes : List UInt8)
  | pong (bytes : List UInt8)
  | close
  deriving DecidableEq, Repr

/-- What the WebSocket stream yields. -/
inductive Incoming where
  | text (text : String)
  | binary (bytes : List UInt8)
  | ping (bytes : List UInt8)
  | pong (bytes : List UInt8)
  | close
  | error
  deriving DecidableEq, Repr

namespace Piece

/-- The frame of a message. -/
def frame? : Piece → Option WsFrame
  | .data frame => some frame
  | _ => none

/-- Whether it is a frame the protocol allows between those of a message. -/
def isControl : Piece → Bool
  | .ping _ | .pong _ => true
  | _ => false

/-- Whether it carries no more than a control frame may. -/
def short : Piece → Bool
  | .ping bytes | .pong bytes => bytes.length ≤ 125
  | _ => true

end Piece

/-! ## From the stream to the session -/

namespace Incoming

/-- The condition of `take_while`: a close frame or an error ends the stream. -/
def passes : Incoming → Bool
  | .close | .error => false
  | _ => true

/-- The function of `filter_map`: text messages pass, binary ones and
control frames are dropped. -/
def text? : Incoming → Option String
  | .text t => some t
  | _ => none

end Incoming

/-- `incoming`, message by message. -/
def incoming : Transducer Unit Incoming String where
  start := ()
  step _ m := if m.passes then (some (), m.text?.toList) else (none, [])

/-! ## From the session to the stream -/

/-- The frame a message is written as: a text in a frame of its own. -/
def WsMessage.frameOf : WsMessage → WsFrame
  | .text t => ⟨utf8 t.toList, .text, true⟩
  | .frame f => f

/-- The frames of a text, by `with_flat_map`. -/
def framesOf (fragmentSize : Option ℕ) (text : String) : List WsFrame :=
  ((messageFragments text fragmentSize).getD []).map WsMessage.frameOf

/-- `outgoing`: the frames of text after text. -/
def outgoing (fragmentSize : Option ℕ) (texts : List String) : List WsFrame :=
  texts.flatMap (framesOf fragmentSize)

/-! ## Between them -/

/-- Whether a size keeps a limit. -/
def fitsLimit (limit : Option ℕ) (size : ℕ) : Bool := limit.all (size ≤ ·)

/-- **The reading the protocol prescribes** of pieces that keep to it, from
what is put together of the message so far: a first frame opens a message
and no other does, a control frame changes nothing, and a message that is
too large or no text is an error. -/
def protocolReader (limit : Option ℕ) : Transducer (Option (List UInt8)) Piece Incoming where
  start := none
  step held
    | .ping bytes => (some held, [.ping bytes])
    | .pong bytes => (some held, [.pong bytes])
    | .close => (none, [.close])
    | .data frame =>
      let bytes := held.getD [] ++ frame.payload
      if (frame.opcode = .text) ≠ (held = none) then (none, [.error])
      else if ¬ fitsLimit limit bytes.length then (none, [.error])
      else if ¬ frame.isFinal then (some (some bytes), [])
      else match String.fromUTF8? bytes.toByteArray with
        | some text => (some none, [.text text])
        | none => (none, [.error])

/-- **A piece that keeps to the protocol**, behind what is held of a message:
a frame goes on with a text, and a control frame carries at most 125 bytes. -/
def Conforms (held : Option (List UInt8)) : Piece → Prop
  | .data frame => ∃ text : String, held.getD [] ++ frame.payload <+: utf8 text.toList
  | p => p.short = true

/-- A reader that refuses all others as they come. -/
noncomputable def strictReader (limit : Option ℕ) :
    Transducer (Option (List UInt8)) Piece Incoming :=
  (protocolReader limit).guarded Conforms [.error]

/-- A text is read from its bytes. -/
theorem fromUTF8_utf8 (text : String) :
    String.fromUTF8? (utf8 text.toList).toByteArray = some text := by
  have hbytes : (utf8 text.toList).toByteArray = text.toByteArray := by
    have hlist := String.toByteArray_ofList (l := text.toList)
    rw [String.ofList_toList] at hlist
    rw [hlist]
    rfl
  rw [hbytes]
  exact dif_pos text.isValidUTF8

/-! ## What a session is given

The transducer from frames to texts, with the reading the protocol
prescribes in it. It is between messages where nothing is held. -/

/-- The texts a session is given of the frames a reader reads. -/
abbrev textReader {σ : Type*} (R : Transducer σ Piece Incoming) :
    Transducer (σ × Unit) Piece String :=
  R.andThen incoming

section

variable {limit : Option ℕ} {held : Option (List UInt8)} {frame : WsFrame}

/-- **A ping or a pong is not seen.** -/
theorem skips_control : (textReader (protocolReader limit)).Skips fun p => p.isControl := by
  rintro ⟨held, ⟨⟩⟩ (frame | bytes | bytes | -) hp
  · simp [Piece.isControl] at hp
  · rfl
  · rfl
  · simp [Piece.isControl] at hp

/-- The reading ends with a close frame or an error. -/
theorem protocolReader_ends (held : Option (List UInt8)) (p : Piece)
    (h : ((protocolReader limit).step held p).1 = none) :
    ((protocolReader limit).step held p).2 = [.close] ∨
      ((protocolReader limit).step held p).2 = [.error] := by
  cases p with
  | data frame =>
    revert h
    simp only [protocolReader]
    split
    · exact fun _ => .inr rfl
    · split
      · exact fun _ => .inr rfl
      · split
        · exact fun h => by cases h
        · split
          · exact fun h => by cases h
          · exact fun _ => .inr rfl
  | ping bytes => cases h
  | pong bytes => cases h
  | close => exact .inl rfl

/-- **Whatever ends the reading ends the stream.** -/
theorem ends_together (held : Option (List UInt8)) (p : Piece) (u : Unit)
    (h : ((protocolReader limit).step held p).1 = none) :
    (incoming.run (some u) ((protocolReader limit).step held p).2).1 = none := by
  rcases protocolReader_ends held p h with hclose | herror
  · rw [hclose]; rfl
  · rw [herror]; rfl

/-- A reader that follows the protocol gives a session the same texts. -/
theorem textReader_refines {σ : Type*} {R : Transducer σ Piece Incoming}
    {rel : σ → Option (List UInt8) → Prop} (hR : R.Follows (protocolReader limit) Conforms rel) :
    (textReader R).Refines (textReader (protocolReader limit)) (fun q => Conforms q.1)
      fun p q => rel p.1 q.1 ∧ p.2 = q.2 :=
  hR.andThen incoming ends_together

/-- A frame that is out of place, -/
theorem step_misplaced (h : (frame.opcode = .text) ≠ (held = none)) :
    (textReader (protocolReader limit)).step (held, ()) (.data frame) = (none, []) := by
  simp only [Transducer.andThen, protocolReader, if_pos h]
  rfl

/-- or makes a message too large, ends the stream. -/
theorem step_tooLarge (h : fitsLimit limit (held.getD [] ++ frame.payload).length = false) :
    (textReader (protocolReader limit)).step (held, ()) (.data frame) = (none, []) := by
  by_cases hplace : (frame.opcode = .text) ≠ (held = none)
  · exact step_misplaced hplace
  · simp only [Transducer.andThen, protocolReader, if_neg hplace, h]
    rfl

/-- A frame that is not the last is held. -/
theorem step_holds (hplace : (frame.opcode = .text) = (held = none))
    (hfits : fitsLimit limit (held.getD [] ++ frame.payload).length = true)
    (hfinal : frame.isFinal = false) :
    (textReader (protocolReader limit)).step (held, ()) (.data frame) =
      (some (some (held.getD [] ++ frame.payload), ()), []) := by
  have hplace : ¬ (frame.opcode = .text) ≠ (held = none) := not_not.mpr hplace
  simp only [Transducer.andThen, protocolReader, if_neg hplace, hfits, hfinal]
  rfl

/-- **The last one completes the text.** -/
theorem step_completes {text : String} (hplace : (frame.opcode = .text) = (held = none))
    (hbytes : held.getD [] ++ frame.payload = utf8 text.toList)
    (hfits : fitsLimit limit (byteSize text.toList) = true) (hfinal : frame.isFinal = true) :
    (textReader (protocolReader limit)).step (held, ()) (.data frame) =
      (some (none, ()), [text]) := by
  have hplace : ¬ (frame.opcode = .text) ≠ (held = none) := not_not.mpr hplace
  rw [← length_utf8] at hfits
  simp only [Transducer.andThen, protocolReader, if_neg hplace, hfits, hfinal, hbytes,
    fromUTF8_utf8]
  rfl

end

/-! ## The frames of a text, read -/

/-- What is held of a text of which the frames up to an offset were read. -/
def heldAt (cs : List Char) (start : ℕ) : Option (List UInt8) :=
  if start = 0 then none else some ((utf8 cs).take start)

section

variable {limit : Option ℕ} {cs : List Char} {size start stop : ℕ} {frames : List WsFrame}

/-- A frame of a text continues what is held of it, -/
theorem heldAt_append (cs : List Char) (hstop : start ≤ stop) :
    (heldAt cs start).getD [] ++ (chunk cs start stop).payload = (utf8 cs).take stop := by
  have hheld : (heldAt cs start).getD [] = (utf8 cs).take start := by
    unfold heldAt
    split
    · subst start; rfl
    · rfl
  obtain ⟨k, rfl⟩ := Nat.exists_eq_add_of_le hstop
  rw [hheld, List.take_add, chunk, List.drop_take, Nat.add_sub_cancel_left]

/-- and stands where it has to. -/
theorem heldAt_place : ((chunk cs start stop).opcode = .text) = (heldAt cs start = none) := by
  by_cases hstart : start = 0 <;> simp [chunk, heldAt, hstart]

theorem fitsLimit_mono {m n : ℕ} (hle : m ≤ n) (h : fitsLimit limit n = true) :
    fitsLimit limit m = true := by
  cases limit with
  | none => rfl
  | some l =>
    simp only [fitsLimit, Option.all_some, decide_eq_true_eq] at h ⊢
    omega

/-- A frame before the last is held where the limit allows, -/
theorem step_chunk (hlt : start < stop) (hstop : stop < byteSize cs) :
    (textReader (protocolReader limit)).step (heldAt cs start, ()) (.data (chunk cs start stop)) =
      if fitsLimit limit stop then (some (heldAt cs stop, ()), []) else (none, []) := by
  have hbytes := heldAt_append cs (Nat.le_of_lt hlt)
  have hlen : ((heldAt cs start).getD [] ++ (chunk cs start stop).payload).length = stop := by
    rw [hbytes, List.length_take, length_utf8]
    omega
  by_cases hfits : fitsLimit limit stop = true
  · have hfinal : (chunk cs start stop).isFinal = false := by simp [chunk]; omega
    have hnext : heldAt cs stop = some ((utf8 cs).take stop) := if_neg (by omega)
    rw [if_pos hfits, step_holds heldAt_place (by rw [hlen]; exact hfits) hfinal, hbytes, hnext]
  · rw [if_neg hfits, step_tooLarge (by rw [hlen]; exact Bool.eq_false_iff.mpr hfits)]

/-- and the last one completes the text. -/
theorem step_last {text : String} (hlt : start < byteSize text.toList) :
    (textReader (protocolReader limit)).step (heldAt text.toList start, ())
        (.data (chunk text.toList start (byteSize text.toList))) =
      if fitsLimit limit (byteSize text.toList) then (some (none, ()), [text]) else (none, []) := by
  have hbytes := heldAt_append text.toList (Nat.le_of_lt hlt)
  have hall : (utf8 text.toList).take (byteSize text.toList) = utf8 text.toList :=
    List.take_of_length_le (Nat.le_of_eq (length_utf8 _))
  by_cases hfits : fitsLimit limit (byteSize text.toList) = true
  · rw [if_pos hfits, step_completes heldAt_place (hbytes.trans hall) hfits (by simp [chunk])]
  · rw [if_neg hfits, step_tooLarge]
    rw [hbytes, hall, length_utf8]
    exact Bool.eq_false_iff.mpr hfits

/-- **The frames of a text are read as the text**, where the limit allows. -/
theorem Cut.run {text : String} (h : Cut text.toList size start frames) :
    (textReader (protocolReader limit)).run (some (heldAt text.toList start, ()))
        (frames.map .data) =
      if fitsLimit limit (byteSize text.toList) then (some (none, ()), [text]) else (none, []) := by
  induction h with
  | @last start hstart hfits =>
    rw [List.map_singleton, Transducer.run_cons, step_last hstart]
    split <;> simp
  | @more start stop frames hlt hle hstop hbound rest ih =>
    rw [List.map_cons, Transducer.run_cons, step_chunk hlt hstop]
    by_cases hfits : fitsLimit limit stop = true
    · rw [if_pos hfits, ih]
      simp
    · have hlarge : ¬ fitsLimit limit (byteSize text.toList) = true :=
        fun hall => hfits (fitsLimit_mono (Nat.le_of_lt hstop) hall)
      rw [if_neg hfits, if_neg hlarge, Transducer.run_none]
      simp

/-- **They keep to the protocol**, those too that end inside a character. -/
theorem Cut.conforms {text : String} (h : Cut text.toList size start frames) :
    (textReader (protocolReader limit)).Meets (fun q => Conforms q.1)
      (some (heldAt text.toList start, ())) (frames.map .data) := by
  have hchunk : ∀ {start stop : ℕ}, start ≤ stop →
      Conforms (heldAt text.toList start) (.data (chunk text.toList start stop)) := fun hle =>
    ⟨text, by rw [heldAt_append _ hle]; exact List.take_prefix _ _⟩
  induction h with
  | last hstart => exact ⟨hchunk (Nat.le_of_lt hstart), Transducer.meets_nil _ _⟩
  | more hlt hle hstop hbound rest ih =>
    refine ⟨hchunk (Nat.le_of_lt hlt), ?_⟩
    rw [step_chunk hlt hstop]
    split
    · exact ih
    · exact Transducer.meets_none _ _

/-- **Before the last of them nothing is put out.** -/
theorem Cut.torn {text : String} (h : Cut text.toList size start frames) {l : List Piece}
    (hl : l <+: frames.map .data) (hne : l ≠ frames.map .data) :
    ((textReader (protocolReader limit)).run (some (heldAt text.toList start, ())) l).2 = [] := by
  induction h generalizing l with
  | @last start hstart hfits =>
    cases l with
    | nil => rfl
    | cons p l =>
      obtain ⟨rfl, hrest⟩ := List.cons_prefix_cons.mp hl
      obtain rfl : l = [] := by simpa using hrest
      exact absurd rfl hne
  | @more start stop frames hlt hle hstop hbound rest ih =>
    cases l with
    | nil => rfl
    | cons p l =>
      obtain ⟨rfl, hrest⟩ := List.cons_prefix_cons.mp hl
      have hproper : l ≠ frames.map .data := fun heq => hne (by rw [heq, List.map_cons])
      rw [Transducer.run_cons, step_chunk hlt hstop]
      split
      · simpa using ih hrest hproper
      · simp

end

/-! ## The frames of what is sent, read -/

/-- **A text is sent whole or in the frames of it.** -/
theorem messageFragments_cases (text : String) (fragmentSize : Option ℕ) :
    messageFragments text fragmentSize = some [.text text] ∨
      ∃ size frames, messageFragments text fragmentSize = some (frames.map .frame) ∧
        Cut text.toList size 0 frames := by
  have hwhole : Fragmenter.next fragmentSize ⟨text, 0, false⟩ =
      some (.text text, ⟨"", 0, true⟩) → messageFragments text fragmentSize = some [.text text] := by
    intro hnext
    rw [messageFragments, Fragmenter.collect, hnext]
    rfl
  rcases hfilter : fragmentSize.filter (fun n => decide (0 < n)) with - | size
  · exact .inl (hwhole (by simp [Fragmenter.next, hfilter]))
  · obtain ⟨rfl, hpos⟩ : fragmentSize = some size ∧ 0 < size := by
      simpa [Option.filter_eq_some_iff] using hfilter
    by_cases hfits : byteSize text.toList ≤ size
    · refine .inl (hwhole ?_)
      simp only [Fragmenter.next, hfilter, Bool.false_eq_true, if_false]
      rw [if_pos hfits]
    · have hlarge : size < byteSize text.toList := by omega
      have hfuel : byteSize text.toList - 0 + 1 < byteSize text.toList + 2 := by omega
      obtain ⟨frames, hcollect, hcut⟩ := collect_cut hpos hlarge (Nat.zero_lt_of_lt hlarge) hfuel
      exact .inr ⟨size, frames, hcollect, hcut⟩

theorem framesOf_cases (fragmentSize : Option ℕ) (text : String) :
    framesOf fragmentSize text = [⟨utf8 text.toList, .text, true⟩] ∨
      ∃ size frames, framesOf fragmentSize text = frames ∧ Cut text.toList size 0 frames := by
  rcases messageFragments_cases text fragmentSize with h | ⟨size, frames, h, hcut⟩
  · exact .inl (by rw [framesOf, h]; rfl)
  · have hframes : framesOf fragmentSize text = frames := by
      rw [framesOf, h, Option.getD_some, List.map_map]
      exact List.map_id' frames
    exact .inr ⟨size, frames, hframes, hcut⟩

section

variable {limit fragmentSize : Option ℕ} {text : String} {texts : List String}

/-- A whole text is read in one step. -/
theorem step_whole :
    (textReader (protocolReader limit)).step (none, ()) (.data ⟨utf8 text.toList, .text, true⟩) =
      if fitsLimit limit (byteSize text.toList) then (some (none, ()), [text]) else (none, []) := by
  by_cases hfits : fitsLimit limit (byteSize text.toList) = true
  · rw [if_pos hfits, step_completes (by simp) (by simp) hfits rfl]
  · rw [if_neg hfits, step_tooLarge]
    simpa using hfits

/-- **What is sent for a text is read as the text**, where the limit allows;
otherwise it ends the stream. -/
theorem run_framesOf (limit fragmentSize : Option ℕ) (text : String) :
    (textReader (protocolReader limit)).run (some (none, ()))
        ((framesOf fragmentSize text).map .data) =
      if fitsLimit limit (byteSize text.toList) then (some (none, ()), [text]) else (none, []) := by
  rcases framesOf_cases fragmentSize text with h | ⟨size, frames, rfl, hcut⟩
  · rw [h, List.map_singleton, Transducer.run_cons, step_whole]
    split <;> simp
  · exact hcut.run

/-- All of it keeps to the protocol. -/
theorem conforms_framesOf (limit fragmentSize : Option ℕ) (text : String) :
    (textReader (protocolReader limit)).Meets (fun q => Conforms q.1) (some (none, ()))
      ((framesOf fragmentSize text).map .data) := by
  rcases framesOf_cases fragmentSize text with h | ⟨size, frames, rfl, hcut⟩
  · rw [h]
    exact ⟨⟨text, List.prefix_rfl⟩, Transducer.meets_nil _ _⟩
  · exact hcut.conforms

/-- **Fragmenting is undone by the peer.** -/
theorem decodes (limit fragmentSize : Option ℕ) :
    (textReader (protocolReader limit)).Decodes (fun text => (framesOf fragmentSize text).map .data)
      fun text => fitsLimit limit (byteSize text.toList) where
  whole text hfits := (run_framesOf limit fragmentSize text).trans (if_pos hfits)
  torn text _ l hl hne := by
    rcases framesOf_cases fragmentSize text with h | ⟨size, frames, rfl, hcut⟩
    · rw [h, List.map_singleton] at hl hne
      cases l with
      | nil => rfl
      | cons p l =>
        obtain ⟨rfl, hrest⟩ := List.cons_prefix_cons.mp hl
        obtain rfl : l = [] := by simpa using hrest
        exact absurd rfl hne
    · exact hcut.torn hl hne

theorem map_outgoing : (outgoing fragmentSize texts).map Piece.data =
    texts.flatMap fun text => (framesOf fragmentSize text).map .data := by
  rw [outgoing, List.map_flatMap]

/-- Pieces without a close frame: what is not skipped are the frames. -/
theorem filter_control {l : List Piece} (hopen : .close ∉ l) :
    l.filter (fun p => ¬ p.isControl) = (l.filterMap Piece.frame?).map .data := by
  induction l with
  | nil => rfl
  | cons p l ih =>
    have hrest := ih fun h => hopen (List.mem_cons_of_mem _ h)
    cases p with
    | close => exact absurd List.mem_cons_self hopen
    | data frame => simpa [Piece.isControl, Piece.frame?] using hrest
    | ping bytes => rw [List.filterMap_cons_none rfl, ← hrest]; rfl
    | pong bytes => rw [List.filterMap_cons_none rfl, ← hrest]; rfl

/-- **A session is given what was sent, and whole.** Let frames of the texts
of one side, and pings and pongs anywhere between them, come through up to
some point, where the stream ends or a close frame comes. The texts the
other side's session is given are those of which every frame came
through, in the order in which they were sent. -/
theorem texts_given {σ : Type*} {R : Transducer σ Piece Incoming}
    {rel : σ → Option (List UInt8) → Prop} (hR : R.Follows (protocolReader limit) Conforms rel)
    (hfits : ∀ text ∈ texts, fitsLimit limit text.utf8ByteSize = true) {pieces rest : List Piece}
    (hcame : pieces.filterMap Piece.frame? <+: outgoing fragmentSize texts)
    (hshort : ∀ p ∈ pieces, p.short = true) (hopen : .close ∉ pieces)
    (hrest : rest = [] ∨ rest.head? = some .close) :
    ∃ k ≤ texts.length, (textReader R).output (pieces ++ rest) = texts.take k ∧
      (outgoing fragmentSize (texts.take k)).length ≤ (pieces.filterMap Piece.frame?).length ∧
      (k < texts.length → (pieces.filterMap Piece.frame?).length <
        (outgoing fragmentSize (texts.take (k + 1))).length) := by
  have hok : ∀ text ∈ texts, fitsLimit limit (byteSize text.toList) = true := by
    intro text htext
    rw [← utf8ByteSize_eq]
    exact hfits text htext
  have hcut : (pieces.filterMap Piece.frame?).map Piece.data <+:
      texts.flatMap fun text => (framesOf fragmentSize text).map Piece.data := by
    rw [← map_outgoing]
    exact hcame.map _
  obtain ⟨k, hk, hout, hle, hlt⟩ := (decodes limit fragmentSize).run_cut hok hcut
  -- nothing is put out for what comes behind, and it keeps to the protocol
  have hbehind : ∀ o, ((textReader (protocolReader limit)).run o rest).2 = [] ∧
      (textReader (protocolReader limit)).Meets (fun q => Conforms q.1) o rest := by
    intro o
    rcases o with - | ⟨held, ⟨⟩⟩
    · simp
    · rcases rest with - | ⟨p, rest⟩
      · exact ⟨rfl, trivial⟩
      · obtain rfl : p = .close := by simpa using hrest
        rw [Transducer.run_cons, Transducer.meets_cons,
          show (textReader (protocolReader limit)).step (held, ()) .close = (none, []) from rfl]
        simp [Conforms, Piece.short]
  have hmeets : (textReader (protocolReader limit)).Meets (fun q => Conforms q.1)
      (some (none, ())) pieces := by
    refine skips_control.meets_filter (fun q p hp hcontrol => ?_) _ ?_
    · cases p with
      | data frame => cases hcontrol
      | _ => exact hshort _ hp
    · rw [filter_control hopen]
      obtain ⟨more, hmore⟩ := hcut
      have hall := (decodes limit fragmentSize).meets_flatMap hok
        fun text _ => conforms_framesOf limit fragmentSize text
      rw [← hmore, Transducer.meets_append] at hall
      exact hall.1
  refine ⟨k, hk, ?_, ?_, ?_⟩
  · have hconforms := (Transducer.meets_append _ _ _ _).mpr ⟨hmeets, (hbehind _).2⟩
    rw [(textReader_refines hR).output_eq hconforms, Transducer.output, Transducer.run_append,
      (hbehind _).1, List.append_nil, skips_control.run_filter _ pieces, filter_control hopen]
    exact hout
  · rw [← List.length_map (f := Piece.data), ← List.length_map (f := Piece.data), map_outgoing]
    exact hle
  · intro hklt
    rw [← List.length_map (f := Piece.data), ← List.length_map (f := Piece.data), map_outgoing]
    exact hlt hklt

/-- Two texts in two frames each, of which three come through, with a ping
between the first two, at a reader that refuses what does not conform. -/
theorem texts_given_torn : (textReader (strictReader (some 64))).output
    ([.data ⟨[97], .text, false⟩, .ping [], .data ⟨[195, 164], .continue_, true⟩,
      .data ⟨[98], .text, false⟩] ++ [.close]) = ["aä"] := by
  have hcame : [Piece.data ⟨[97], .text, false⟩, .ping [], .data ⟨[195, 164], .continue_, true⟩,
      .data ⟨[98], .text, false⟩].filterMap Piece.frame? <+: outgoing (some 2) ["aä", "bä"] := by
    decide
  have hfits : ∀ text ∈ ["aä", "bä"], fitsLimit (some 64) text.utf8ByteSize = true := by decide
  have hrest : [Piece.close] = [] ∨ [Piece.close].head? = some .close := .inr rfl
  obtain ⟨k, hk, hout, hle, hlt⟩ := texts_given
    ((protocolReader (some 64)).follows_guarded Conforms [.error]) hfits hcame (by decide)
    (by decide) hrest
  rw [strictReader, hout]
  match k, hk, hle, hlt with
  | 0, _, _, hlt => exact absurd (hlt (by decide)) (by decide)
  | 1, _, _, _ => rfl
  | 2, _, hle, _ => exact absurd hle (by decide)

end

end Vcmp
