import Vcmp.Session.Stages
/-!
# Arrival numbers

The read loop numbers the frames it accepts, so the number of a frame is
how many of the texts up to it were frames: `arrivalAt` says it of a
position of the stream, and the numbers grow with the positions.
-/

namespace Vcmp

namespace Arrival

/-- By session, then by frame. -/
instance : LT Arrival where
  lt a b := a.session < b.session ∨ (a.session = b.session ∧ a.frame < b.frame)

theorem lt_iff {a b : Arrival} :
    a < b ↔ a.session < b.session ∨ (a.session = b.session ∧ a.frame < b.frame) := .rfl

instance (a b : Arrival) : Decidable (a < b) := decidable_of_iff _ lt_iff.symm

end Arrival

namespace Session

variable {J : JsonText} {s s' : Session} {e : Event J}

/-- Whether a text is one the read loop counts. -/
def counts (s : Session) (text : String) : Bool :=
  decide (text.utf8ByteSize ≤ s.limits.maxMessageBytes) && (Frame.parse text).toOption.isSome

/-- The frames among the texts up to a position, and the session. -/
def arrivalAt (s : Session) (position : ℕ) : Arrival :=
  ⟨s.id, (s.received.take (position + 1)).countP s.counts⟩

theorem counts_congr (hlimits : s'.limits = s.limits) : s'.counts = s.counts := by
  funext text
  rw [counts, counts, hlimits]

theorem counts_of_parse {text : String} {frame : Frame}
    (hsize : text.utf8ByteSize ≤ s.limits.maxMessageBytes)
    (hparse : Frame.parse text = .ok frame) : s.counts text = true := by
  simp [counts, hsize, hparse, Except.toOption]

/-- **The number of a text that was heard never changes.** -/
theorem arrivalAt_congr {position : ℕ} (hid : s'.id = s.id) (hlimits : s'.limits = s.limits)
    (hheard : s.received <+: s'.received) (hposition : position < s.received.length) :
    s'.arrivalAt position = s.arrivalAt position := by
  obtain ⟨more, hmore⟩ := hheard
  rw [arrivalAt, arrivalAt, hid, counts_congr hlimits, ← hmore, List.take_append_of_le_length]
  omega

/-- The texts heard only grow. -/
theorem Step.heard (h : Step J s e s') : s.received <+: s'.received := by
  rcases h.hears with ⟨h, -⟩ | ⟨text, -, h⟩
  · rw [h]
  · cases h <;> exact List.prefix_append _ _

/-- **The counter is the number of frames heard.** -/
theorem framesReceived_eq (h : (machine J).Reachable s) :
    s.framesReceived = s.received.countP s.counts := by
  refine h.invariant (P := fun s => s.framesReceived = s.received.countP s.counts) ?_ ?_
  · rintro s ⟨id, limits, handlers, budget, elsewhere, rfl⟩
    rfl
  · intro s e s' _ hn ih
    have h := step_of_next hn
    rw [counts_congr h.constant.2]
    have one : ∀ {text : String} {b : Bool}, s.counts text = b →
        (s.received ++ [text]).countP s.counts = s.framesReceived + if b then 1 else 0 := by
      intro text b hb
      simp [List.countP_append, List.countP_cons, hb, ih]
    rcases h.hears with ⟨hreceived, hframes⟩ | ⟨text, -, h⟩
    · rw [hreceived, hframes, ih]
    · cases h with
      | tooLarge hsize => exact (one (b := false) (by simp [counts, hsize])).symm
      | invalid hparse => exact (one (b := false) (by simp [counts, hparse, Except.toOption])).symm
      | ignored hsize hparse => exact (one (counts_of_parse hsize hparse)).symm
      | heartbeat hsize hparse => exact (one (counts_of_parse hsize hparse)).symm
      | answer hsize hparse => exact (one (counts_of_parse hsize hparse)).symm
      | late hsize hparse => exact (one (counts_of_parse hsize hparse)).symm
      | message hsize hparse => exact (one (counts_of_parse hsize hparse)).symm

/-- The place of a frame that is heard now. -/
theorem arrival_eq (h : (machine J).Reachable s) {text : String} (hid : s'.id = s.id)
    (hlimits : s'.limits = s.limits) (hheard : s'.received = s.received ++ [text])
    (hcounts : s.counts text = true) : s.arrival = s'.arrivalAt s.received.length := by
  rw [arrival, arrivalAt, hid, counts_congr hlimits, hheard, framesReceived_eq h]
  simp [List.countP_append, List.take_of_length_le, hcounts]

/-- **Arrivals follow the order of the stream**: a frame has a greater
number than another exactly when it was heard later. -/
theorem frame_arrivalAt_lt {i j : ℕ} {text text' : String} (hi : s.received[i]? = some text)
    (hj : s.received[j]? = some text') (hci : s.counts text = true) (hcj : s.counts text' = true) :
    (s.arrivalAt i).frame < (s.arrivalAt j).frame ↔ i < j := by
  have grows : ∀ {i j : ℕ} {text : String}, s.received[j]? = some text → s.counts text = true →
      i < j → (s.arrivalAt i).frame < (s.arrivalAt j).frame := by
    intro i j text hj hcj hij
    have hsub : (s.received.take (i + 1)) <+: (s.received.take j) :=
      List.take_prefix_take_left (by omega)
    have hle : (s.received.take (i + 1)).countP s.counts ≤ (s.received.take j).countP s.counts :=
      hsub.sublist.countP_le
    have hone : (s.received.take (j + 1)).countP s.counts =
        (s.received.take j).countP s.counts + 1 := by
      rw [List.take_add_one, hj]
      simp [List.countP_append, hcj]
    simp only [arrivalAt]
    omega
  constructor
  · intro hlt
    by_contra hge
    rcases Nat.lt_or_ge j i with hji | hij
    · have := grows hi hci hji
      omega
    · obtain rfl : i = j := by omega
      omega
  · exact grows hj hcj

/-- **The arrivals of two texts that were heard compare as their places do.** -/
theorem arrivalAt_lt {i j : ℕ} {text text' : String} (hi : s.received[i]? = some text)
    (hj : s.received[j]? = some text') (hci : s.counts text = true) (hcj : s.counts text' = true) :
    s.arrivalAt i < s.arrivalAt j ↔ i < j := by
  have hframe := frame_arrivalAt_lt hi hj hci hcj
  have hsession : (s.arrivalAt i).session = (s.arrivalAt j).session := rfl
  rw [Arrival.lt_iff, hframe]
  constructor
  · rintro (hlt | ⟨-, hlt⟩)
    · omega
    · exact hlt
  · exact fun hlt => .inr ⟨hsession, hlt⟩

end Session

end Vcmp
