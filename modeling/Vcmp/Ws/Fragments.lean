import Vcmp.Common.Text
/-!
# Fragments of a text message

The iterator `message_fragments` returns, as a state and a step: what is
left to send is the text from `start` on, and a frame takes as many bytes
as it may, less what it takes to end on a character boundary. Where a
single character is wider than that, the frame ends inside it.

`Cut` describes the frames of a text from an offset on. The iterator
makes such frames (`collect_cut`), and what the protocol asks of them is
read off the description, by induction.
-/

namespace Vcmp

/-- The opcode of a data frame. -/
inductive Opcode where
  | text
  | continue_
  deriving DecidableEq, Repr

/-- A WebSocket frame. -/
structure WsFrame where
  payload : List UInt8
  opcode : Opcode
  isFinal : Bool
  deriving DecidableEq, Repr

/-- What the sink is given: a whole text, or a frame of one. -/
inductive WsMessage where
  | text (text : String)
  | frame (frame : WsFrame)
  deriving DecidableEq, Repr

/-- What the iterator keeps. -/
structure Fragmenter where
  text : String
  start : ℕ
  done : Bool

/-! ## The iterator -/

/-- The loop that goes back from a limit to a character boundary, and not
beyond `start`. -/
def backUp (cs : List Char) (start : ℕ) : ℕ → ℕ
  | 0 => 0
  | n + 1 => if start < n + 1 ∧ ¬ isCharBoundary (n + 1) cs then backUp cs start n else n + 1

/-- Where the frame from `start` on ends. -/
def chunkEnd (cs : List Char) (start size : ℕ) : ℕ :=
  let limit := start + min (byteSize cs - start) size
  if backUp cs start limit = start then limit else backUp cs start limit

/-- The frame of the bytes from `start` to `stop`. -/
def chunk (cs : List Char) (start stop : ℕ) : WsFrame where
  payload := ((utf8 cs).take stop).drop start
  opcode := if start = 0 then .text else .continue_
  isFinal := stop = byteSize cs

/-- One call of the iterator. Without a size the limit is the greatest
`usize`, which no text is longer than. -/
def Fragmenter.next (fragmentSize : Option ℕ) (f : Fragmenter) : Option (WsMessage × Fragmenter) :=
  let whole := (WsMessage.text f.text, { f with text := "", done := true })
  if f.done then none
  else
    match fragmentSize.filter (0 < ·) with
    | none => some whole
    | some size =>
      if byteSize f.text.toList ≤ size then some whole
      else
        let stop := chunkEnd f.text.toList f.start size
        some (.frame (chunk f.text.toList f.start stop),
          { f with start := stop, done := stop = byteSize f.text.toList })

/-- The iterator run to its end: `none` where it is not there in time. -/
def Fragmenter.collect (fragmentSize : Option ℕ) : ℕ → Fragmenter → Option (List WsMessage)
  | 0, _ => none
  | fuel + 1, f =>
    match f.next fragmentSize with
    | none => some []
    | some (message, f) => (collect fragmentSize fuel f).map (message :: ·)

/-- `message_fragments`, all of them: two calls more than the text has
bytes. -/
def messageFragments (text : String) (fragmentSize : Option ℕ) : Option (List WsMessage) :=
  Fragmenter.collect fragmentSize (byteSize text.toList + 2) ⟨text, 0, false⟩

example : messageFragments "aä" (some 2) = some [.frame ⟨[97], .text, false⟩,
    .frame ⟨[195, 164], .continue_, true⟩] := by decide

/-! ## Where a frame ends -/

/-- **The loop stops at a boundary or at the start**, and passes none. -/
theorem backUp_spec (cs : List Char) {start limit : ℕ} (h : start ≤ limit) :
    start ≤ backUp cs start limit ∧ backUp cs start limit ≤ limit ∧
      (backUp cs start limit = start ∨ isCharBoundary (backUp cs start limit) cs) ∧
      ∀ k, backUp cs start limit < k → k ≤ limit → ¬ isCharBoundary k cs := by
  induction limit with
  | zero =>
    obtain rfl : start = 0 := by omega
    exact ⟨Nat.le_refl _, Nat.le_refl _, .inl rfl, fun k hk hle => absurd hk (by simp only [backUp]; omega)⟩
  | succ n ih =>
    by_cases hback : start < n + 1 ∧ ¬ isCharBoundary (n + 1) cs
    · obtain ⟨hstart, hle, hend, hpassed⟩ := ih (by omega)
      rw [backUp, if_pos hback]
      refine ⟨hstart, by omega, hend, fun k hk hkle => ?_⟩
      rcases Nat.lt_or_eq_of_le hkle with hlt | rfl
      · exact hpassed k hk (by omega)
      · exact hback.2
    · rw [backUp, if_neg hback]
      refine ⟨h, Nat.le_refl _, ?_, fun k hk hkle => absurd hk (by omega)⟩
      by_cases hstart : start = n + 1
      · exact .inl hstart.symm
      · exact .inr (Decidable.not_not.mp fun hno => hback ⟨by omega, hno⟩)

/-- No boundary is past the end. -/
theorem le_of_isCharBoundary {n : ℕ} {cs : List Char} (h : isCharBoundary n cs) :
    n ≤ byteSize cs := by
  obtain ⟨pre, post, rfl, rfl⟩ := isCharBoundary_iff.mp h
  rw [byteSize_append]
  omega

/-- **A frame takes at least a byte and at most `size`**, and ends on a
boundary where there is one. -/
theorem chunkEnd_spec {cs : List Char} {start size : ℕ} (hstart : start < byteSize cs)
    (hsize : 0 < size) :
    start < chunkEnd cs start size ∧ chunkEnd cs start size ≤ start + size ∧
      chunkEnd cs start size ≤ byteSize cs ∧
      (isCharBoundary (chunkEnd cs start size) cs ∨
        ∀ k, start < k → k ≤ start + size → ¬ isCharBoundary k cs) := by
  have hlimit : start ≤ start + min (byteSize cs - start) size := by omega
  obtain ⟨hge, hle, hend, hpassed⟩ := backUp_spec cs hlimit
  by_cases hback : backUp cs start (start + min (byteSize cs - start) size) = start
  · have hstop : chunkEnd cs start size = start + min (byteSize cs - start) size := if_pos hback
    rw [hstop]
    refine ⟨by omega, by omega, by omega, .inr fun k hk hkle hbound => ?_⟩
    have hlen := le_of_isCharBoundary hbound
    exact hpassed k (by omega) (by omega) hbound
  · have hstop : chunkEnd cs start size = backUp cs start (start + min (byteSize cs - start) size) :=
      if_neg hback
    rw [hstop]
    exact ⟨by omega, by omega, by omega, .inl (hend.resolve_left hback)⟩

/-! ## The frames of a text -/

/-- **The frames of a text from an offset on.** -/
inductive Cut (cs : List Char) (size : ℕ) : ℕ → List WsFrame → Prop where
  /-- The rest fits. -/
  | last {start : ℕ} (hstart : start < byteSize cs) (hfits : byteSize cs ≤ start + size) :
      Cut cs size start [chunk cs start (byteSize cs)]
  /-- A frame and the frames from its end on. -/
  | more {start stop : ℕ} {frames : List WsFrame} (hstart : start < stop)
      (hfits : stop ≤ start + size) (hstop : stop < byteSize cs)
      (hbound : isCharBoundary stop cs ∨ ∀ k, start < k → k ≤ start + size → ¬ isCharBoundary k cs)
      (rest : Cut cs size stop frames) : Cut cs size start (chunk cs start stop :: frames)

/-- **The iterator ends, with the frames of the text.** The fuel left is
more than the bytes left, and every frame takes one. -/
theorem collect_cut {text : String} {size : ℕ} (hsize : 0 < size)
    (hlarge : size < byteSize text.toList) {fuel start : ℕ} (hstart : start < byteSize text.toList)
    (hfuel : byteSize text.toList - start + 1 < fuel) :
    ∃ frames, Fragmenter.collect (some size) fuel ⟨text, start, false⟩ = some (frames.map .frame) ∧
      Cut text.toList size start frames := by
  induction fuel generalizing start with
  | zero => omega
  | succ fuel ih =>
    obtain ⟨hgt, hle, hlen, hbound⟩ := chunkEnd_spec hstart hsize
    have hfilter : (some size).filter (fun n => decide (0 < n)) = some size := by
      simp [Option.filter, hsize]
    have hnext : Fragmenter.next (some size) ⟨text, start, false⟩ =
        some (.frame (chunk text.toList start (chunkEnd text.toList start size)),
          ⟨text, chunkEnd text.toList start size,
            chunkEnd text.toList start size = byteSize text.toList⟩) := by
      simp only [Fragmenter.next, hfilter, Bool.false_eq_true, if_false]
      rw [if_neg (by omega)]
    rw [Fragmenter.collect, hnext]
    by_cases hdone : chunkEnd text.toList start size = byteSize text.toList
    · -- the last frame, and one more call that finds the iterator done
      obtain ⟨fuel, rfl⟩ : ∃ n, fuel = n + 1 := ⟨fuel - 1, by omega⟩
      refine ⟨[chunk text.toList start (byteSize text.toList)], ?_, .last hstart (by omega)⟩
      simp [Fragmenter.collect, Fragmenter.next, hdone]
    · have hstop : chunkEnd text.toList start size < byteSize text.toList := by omega
      have hleft : byteSize text.toList - chunkEnd text.toList start size + 1 < fuel := by omega
      obtain ⟨frames, hcollect, hcut⟩ := ih hstop hleft
      refine ⟨_, ?_, .more hgt hle (by omega) hbound hcut⟩
      simp [hdone, hcollect]

section

variable {cs : List Char} {size start : ℕ} {frames : List WsFrame}

theorem length_chunk {stop : ℕ} (h : stop ≤ byteSize cs) :
    (chunk cs start stop).payload.length = stop - start := by
  simp only [chunk, List.length_drop, List.length_take, length_utf8]
  omega

theorem Cut.length_pos (h : Cut cs size start frames) : 0 < frames.length := by
  cases h <;> simp

/-- Every frame carries something, and no more than it may. -/
theorem Cut.payload (h : Cut cs size start frames) {frame : WsFrame} (hf : frame ∈ frames) :
    frame.payload ≠ [] ∧ frame.payload.length ≤ size := by
  induction h with
  | @last start hstart hfits =>
    obtain rfl := List.mem_singleton.mp hf
    have hlen : (chunk cs start (byteSize cs)).payload.length = byteSize cs - start :=
      length_chunk (Nat.le_refl _)
    exact ⟨List.ne_nil_of_length_pos (by omega), by omega⟩
  | @more start stop frames hstart hfits hstop _ _ ih =>
    rcases List.mem_cons.mp hf with rfl | hf
    · have hlen : (chunk cs start stop).payload.length = stop - start :=
        length_chunk (Nat.le_of_lt hstop)
      exact ⟨List.ne_nil_of_length_pos (by omega), by omega⟩
    · exact ih hf

/-- The frame at the offset nought opens the message, the last one ends it. -/
theorem Cut.header (h : Cut cs size start frames) {i : ℕ} {frame : WsFrame}
    (hi : frames[i]? = some frame) :
    frame.opcode = (if start = 0 ∧ i = 0 then .text else .continue_) ∧
      (frame.isFinal = true ↔ i + 1 = frames.length) := by
  induction h generalizing i with
  | @last start hstart hfits =>
    rw [List.getElem?_singleton, Option.ite_none_right_eq_some, Option.some.injEq] at hi
    obtain ⟨rfl, rfl⟩ := hi
    simp [chunk]
  | @more start stop frames hstart hfits hstop hbound rest ih =>
    rcases i with - | i
    · obtain rfl : chunk cs start stop = frame := by simpa using hi
      have hpos := rest.length_pos
      have hnot : stop ≠ byteSize cs := by omega
      have hmore : frames ≠ [] := List.ne_nil_of_length_pos hpos
      simp [chunk, hnot, hmore]
    · obtain ⟨hop, hfin⟩ := ih (i := i) (by simpa using hi)
      have hnot : stop ≠ 0 := by omega
      simp [hop, hfin, hnot]

/-- Nothing is lost. -/
theorem Cut.concat (h : Cut cs size start frames) :
    frames.flatMap WsFrame.payload = (utf8 cs).drop start := by
  induction h with
  | last hstart hfits =>
    simp [chunk, List.take_of_length_le (Nat.le_of_eq (length_utf8 cs))]
  | @more start stop frames hstart hfits hstop hbound rest ih =>
    have hsplit : (utf8 cs).drop start =
        ((utf8 cs).take stop).drop start ++ (utf8 cs).drop stop := by
      conv_lhs => rw [← List.take_append_drop stop (utf8 cs)]
      rw [List.drop_append_of_le_length (by rw [List.length_take, length_utf8]; omega)]
    rw [List.flatMap_cons, ih, hsplit]
    rfl

/-- Where a frame begins: behind the bytes of the frames before it. -/
def offset (frames : List WsFrame) (i : ℕ) : ℕ :=
  ((frames.take i).flatMap WsFrame.payload).length

/-- A frame that ends inside a character had no boundary to end at. -/
theorem Cut.boundary (h : Cut cs size start frames) {i : ℕ} {frame : WsFrame}
    (hi : frames[i]? = some frame)
    (hinside : ¬ isCharBoundary (start + offset frames i + frame.payload.length) cs) {k : ℕ}
    (hk : start + offset frames i < k) (hle : k ≤ start + offset frames i + size) :
    ¬ isCharBoundary k cs := by
  induction h generalizing i with
  | @last start hstart hfits =>
    rw [List.getElem?_singleton, Option.ite_none_right_eq_some, Option.some.injEq] at hi
    obtain ⟨rfl, rfl⟩ := hi
    rw [length_chunk (Nat.le_refl _)] at hinside
    refine absurd ?_ hinside
    rw [offset, List.take_zero, List.flatMap_nil, List.length_nil, Nat.add_zero,
      Nat.add_sub_cancel' (by omega)]
    exact isCharBoundary_byteSize cs
  | @more start stop frames hstart hfits hstop hbound rest ih =>
    have hlen : (chunk cs start stop).payload.length = stop - start :=
      length_chunk (Nat.le_of_lt hstop)
    rcases i with - | i
    · obtain rfl : chunk cs start stop = frame := by simpa using hi
      simp only [offset, List.take_zero, List.flatMap_nil, List.length_nil, Nat.add_zero] at *
      rw [hlen, Nat.add_sub_cancel' (by omega)] at hinside
      exact hbound.resolve_left hinside k hk hle
    · -- the frames behind begin where the first one ends
      have hoffset : start + offset (chunk cs start stop :: frames) (i + 1) =
          stop + offset frames i := by
        simp only [offset, List.take_succ_cons, List.flatMap_cons, List.length_append, hlen]
        omega
      rw [hoffset] at hinside hk hle
      exact ih (i := i) (by simpa using hi) hinside hk hle

/-- **With four bytes or more every frame is a text by itself.** -/
theorem Cut.whole (h : Cut cs size start frames) (hsize : 4 ≤ size)
    (hstart : isCharBoundary start cs) {frame : WsFrame} (hf : frame ∈ frames) :
    ∃ part, frame.payload = utf8 part := by
  induction h with
  | last hlt hfits =>
    obtain rfl := List.mem_singleton.mp hf
    exact slice_utf8 hstart (isCharBoundary_byteSize cs) (Nat.le_of_lt hlt)
  | @more start stop frames hlt hfits hstop hbound rest ih =>
    -- a character is at most four bytes, so there was a boundary to end at
    have hend : isCharBoundary stop cs := by
      obtain ⟨k, hk, hle, hkb⟩ := exists_next_boundary hstart (by omega)
      exact hbound.resolve_right fun hno => hno k hk (by omega) hkb
    rcases List.mem_cons.mp hf with rfl | hf
    · exact slice_utf8 hstart hend (Nat.le_of_lt hlt)
    · exact ih hend hf

end

/-! ## Lossless and bounded -/

/-- **What the frames of a fragmented text are.** -/
structure Fragments (text : String) (size : ℕ) (frames : List WsFrame) : Prop where
  /-- Every frame carries at least a byte and at most `size`. -/
  payload : ∀ frame ∈ frames, frame.payload ≠ [] ∧ frame.payload.length ≤ size
  /-- The first opens the message, the others continue it. -/
  opcode : ∀ (i : ℕ) (frame : WsFrame), frames[i]? = some frame →
    frame.opcode = if i = 0 then .text else .continue_
  /-- The last one, and no other, is final. -/
  final : ∀ (i : ℕ) (frame : WsFrame), frames[i]? = some frame →
    (frame.isFinal = true ↔ i + 1 = frames.length)
  /-- Together they carry the bytes of the text. -/
  concat : frames.flatMap WsFrame.payload = utf8 text.toList
  /-- A frame ends inside a character only where none of the ends it may
  have is a boundary. -/
  boundary : ∀ (i : ℕ) (frame : WsFrame), frames[i]? = some frame →
    ¬ isCharBoundary (offset frames i + frame.payload.length) text.toList →
    ∀ k, offset frames i < k → k ≤ offset frames i + size → ¬ isCharBoundary k text.toList
  /-- With four bytes or more, each is the encoding of a text. -/
  whole : 4 ≤ size → ∀ frame ∈ frames, ∃ part, frame.payload = utf8 part

theorem Cut.fragments {text : String} {size : ℕ} {frames : List WsFrame}
    (h : Cut text.toList size 0 frames) : Fragments text size frames where
  payload _ hf := h.payload hf
  opcode i frame hi := by simpa using (h.header hi).1
  final i frame hi := (h.header hi).2
  concat := by simpa using h.concat
  boundary i frame hi hinside k hk hle :=
    h.boundary hi (by simpa using hinside) (by omega) (by omega)
  whole hsize _ hf := h.whole hsize (isCharBoundary_zero _) hf

/-- **Fragmentation is lossless and bounded.** The iterator ends for every
text and every size. Without a size, or with one the text fits in, it has
returned the text; else the frames of the text. -/
theorem messageFragments_spec (text : String) (fragmentSize : Option ℕ) :
    ∃ messages, messageFragments text fragmentSize = some messages ∧
      ((∀ size ∈ fragmentSize, 0 < size → byteSize text.toList ≤ size) → messages = [.text text]) ∧
      ∀ size ∈ fragmentSize, 0 < size → size < byteSize text.toList →
        ∃ frames, messages = frames.map .frame ∧ Fragments text size frames := by
  -- the iterator is done after a whole text
  have hwhole : Fragmenter.next fragmentSize ⟨text, 0, false⟩ =
      some (.text text, ⟨"", 0, true⟩) → messageFragments text fragmentSize = some [.text text] := by
    intro hnext
    rw [messageFragments, Fragmenter.collect, hnext]
    rfl
  rcases hfilter : fragmentSize.filter (fun n => decide (0 < n)) with - | size
  · have hnone : ∀ size ∈ fragmentSize, ¬ 0 < size := by
      intro size hsize hpos
      exact absurd (decide_eq_true hpos) (Option.filter_eq_none_iff.mp hfilter size hsize)
    refine ⟨[.text text], hwhole (by simp [Fragmenter.next, hfilter]), fun _ => rfl, ?_⟩
    intro size hsize hpos
    exact absurd hpos (hnone size hsize)
  · obtain ⟨rfl, hpos⟩ : fragmentSize = some size ∧ 0 < size := by
      simpa [Option.filter_eq_some_iff] using hfilter
    by_cases hfits : byteSize text.toList ≤ size
    · refine ⟨[.text text], hwhole ?_, fun _ => rfl, ?_⟩
      · simp only [Fragmenter.next, hfilter, Bool.false_eq_true, if_false]
        rw [if_pos hfits]
      · intro other hother _ hlarge
        obtain rfl := Option.some.inj hother
        omega
    · have hlarge : size < byteSize text.toList := by omega
      have hfuel : byteSize text.toList - 0 + 1 < byteSize text.toList + 2 := by omega
      obtain ⟨frames, hcollect, hcut⟩ := collect_cut hpos hlarge (Nat.zero_lt_of_lt hlarge) hfuel
      refine ⟨_, hcollect, fun hall => absurd (hall size rfl hpos) hfits, ?_⟩
      intro other hother _ _
      obtain rfl := Option.some.inj hother
      exact ⟨frames, rfl, hcut.fragments⟩

end Vcmp
