import Vcmp.Json.Codec
import Vcmp.Session.Works
/-!
# No message is left unanswered

The read loop answers what it refuses, the task of a handler answers what
the handler returns, and an answer that cannot be queued closes the
session. One ending is missing from this: a handler that panics ends its
task, the loop that reaps the task drops what it is told about that, and
nothing is answered or closed. The condition is that this does not
happen while the session is open.
-/

namespace Vcmp

namespace Session

variable {J : JsonText} {s s' : Session} {e : Event J} {i : ℕ} {w : Work}

/-- **Exactly one answer with the id of the message** is on the control queue. -/
def AnsweredOnce (s : Session) (i : ℕ) (w : Work) : Prop :=
  ∃ a frame, s.sentBy (.work i) = [a] ∧ a.control = true ∧ Frame.parse a.text = .ok frame ∧
    ∃ payload, frame = .ack w.id payload ∨ frame = .nak w.id payload

/-- **No message is left unanswered**: where the work on one is over, it is
answered or the session is closed. -/
def NoneUnanswered (s : Session) : Prop :=
  ∀ (i : ℕ) (w : Work), s.works[i]? = some w → w.isDone = true →
    s.AnsweredOnce i w ∨ s.isOpen = false

/-- No task of a handler panics while the session is open. -/
def HandlersReturn (J : JsonText) (s : Session) (e : Event J) : Prop :=
  s.isOpen = true → ∀ i, e ≠ .workPanics i

/-- An answer written for a work is a frame with the id of its message. -/
theorem parse_of_wrote {text : String} {ending : Ending} (h : w.Wrote J text ending)
    (hid : Frame.IsId w.id) : ∃ frame, Frame.parse text = .ok frame ∧
      ∃ payload, frame = .ack w.id payload ∨ frame = .nak w.id payload := by
  cases ending with
  | ok =>
    obtain ⟨payload, v, rfl, -⟩ := h
    exact ⟨_, Frame.parse_mkAck hid payload, _, .inl rfl⟩
  | _ =>
    obtain ⟨payload, rfl⟩ := h
    exact ⟨_, Frame.parse_mkNak hid payload, _, .inr rfl⟩

/-- **A work that panicked has closed nothing and written nothing**, so the
session was closed before where it is closed now. -/
theorem notOpen_of_panicked (h : (machine J).ReachableBy (HandlersReturn J) s)
    (hi : s.works[i]? = some w) (hpc : w.pc = .done .panicked) : s.isOpen = false := by
  have key : ∀ (i : ℕ) (w : Work), s.works[i]? = some w → w.pc = .done .panicked →
      s.isOpen = false := by
    refine h.invariant_of (P := fun s => ∀ (i : ℕ) (w : Work), s.works[i]? = some w →
      w.pc = .done .panicked → s.isOpen = false) ?_ ?_
    · rintro s ⟨id, limits, handlers, budget, elsewhere, rfl⟩ i w hi
      simp [spawn] at hi
    · intro s e s' hreach hok hn ih i w hi hpc
      have h := step_of_next hn
      have hclosed : s.isOpen = false → s'.isOpen = false := by
        intro hs
        by_contra hopen
        rw [h.isOpen (by simpa using hopen)] at hs
        cases hs
      rcases h.works with ⟨hworks, -⟩ | ⟨text, id, payload, -, -, rfl⟩ | ⟨k, v, hk, hstep⟩
      · exact hclosed (ih i w (hworks ▸ hi) hpc)
      · rcases getElem?_concat_cases hi with ⟨rfl, rfl⟩ | hold
        · cases hpc
        · exact hclosed (ih i w hold hpc)
      · have hwrites : ∀ ending q, v.pc = .answering ending q → ending.writes = true :=
          fun ending q hv => (((worked_of_reachable hreach.reachable).kept hk).written.answering
            ending q hv).1
        have old : ∀ {v' : Work}, s'.works = s.works.set k v' → v'.pc ≠ .done .panicked →
            s'.isOpen = false := by
          intro v' hworks hne
          rcases getElem?_set_cases (hworks ▸ hi) with ⟨-, rfl⟩ | ⟨-, hold⟩
          · exact absurd hpc hne
          · exact hclosed (ih i w hold hpc)
        cases hstep with
        | panicked =>
          refine hclosed ?_
          by_contra hopen
          exact hok (by simpa using hopen) k rfl
        | closes => rfl
        | writes _ he => obtain ⟨_, _, _, _, _, rfl⟩ := he.frame; exact old rfl (by simp)
        | unwritten _ he => obtain ⟨_, _, _, _, _, rfl⟩ := he.frame; exact old rfl (by simp)
        | @written ending q _ hpcv he =>
          obtain ⟨_, _, _, _, _, rfl⟩ := he.frame
          refine old rfl fun heq => ?_
          cases heq
          exact absurd (hwrites _ _ hpcv) (by simp [Ending.writes])
        | aborted => exact old rfl (by simp)
        | _ => exact old rfl (by simp [Work.answer])
  exact key i w hi hpc

/-- **A run in which no handler panics leaves no message unanswered.** -/
theorem noneUnanswered_of_reachable (h : (machine J).ReachableBy (HandlersReturn J) s) :
    NoneUnanswered s := by
  intro i w hi hdone
  have hk := (worked_of_reachable h.reachable).kept hi
  obtain ⟨ending, hpc⟩ := Work.ending_of_isDone hdone
  rcases hk.written.done ending hpc with ⟨hwrites, text, hsent, hwrote⟩ | ⟨-, hclosed | rfl⟩
  · obtain ⟨heard, -, -, hparse⟩ := hk.heard
    obtain ⟨frame, hframe, hanswer⟩ := parse_of_wrote hwrote (Frame.isId_of_parse hparse rfl)
    exact .inl ⟨_, frame, hsent, rfl, hframe, hanswer⟩
  · exact .inr hclosed
  · exact .inr (notOpen_of_panicked h hi hpc)

/-- **A handler that panics leaves its message unanswered**, and the session open. -/
theorem unanswered_of_panic (h : (machine J).Reachable s) (hopen : s.isOpen = true)
    (hn : (machine J).next s (.workPanics i) = some s') : ¬ NoneUnanswered s' := by
  have hn' : s.next J (.workPanics i) = some s' := hn
  obtain ⟨w, hw, hpanics⟩ := Option.bind_eq_some_iff.mp hn'
  obtain ⟨hpc, rfl⟩ := workPanics_eq_some hpanics
  have hwritten := ((worked_of_reachable h).kept hw).written
  intro hnone
  have hnot : w.isDone = false := by
    unfold Work.isDone
    rcases hpc with hpc | hpc <;> rw [hpc]
  have hget : (s.finishWork i w .panicked).works[i]? =
      some { w with pc := .done .panicked, permit := none } := getElem?_set_self' hw
  rcases hnone i _ hget rfl with ⟨a, frame, hsent, -⟩ | hclosed
  · have hempty : (s.finishWork i w .panicked).sentBy (.work i) = [] := hwritten.before hnot
    rw [hempty] at hsent
    cases hsent
  · have hsame : (s.finishWork i w .panicked).isOpen = s.isOpen := rfl
    rw [hsame, hopen] at hclosed
    cases hclosed

/-- **Answering incoming messages.** In every run in which no task of a
handler panics while the session is open, each message heard is worked on
once and not left unanswered; and a task that does panic then leaves its
message unanswered at once. -/
theorem messages_answered (J : JsonText) :
    (∀ s, (machine J).ReachableBy (HandlersReturn J) s → NoneUnanswered s ∧
      ∀ (position : ℕ) (text id payload : String), s.received[position]? = some text →
        text.utf8ByteSize ≤ s.limits.maxMessageBytes →
        Frame.parse text = .ok (.message id payload) →
        ∃ i w, s.works[i]? = some w ∧ w.position = position ∧ w.id = id ∧
          ∀ (j : ℕ) (v : Work), s.works[j]? = some v → v.position = position → j = i) ∧
    ∀ s i s', (machine J).Reachable s → s.isOpen = true →
      (machine J).next s (.workPanics i) = some s' → ¬ NoneUnanswered s' := by
  refine ⟨fun s h => ⟨noneUnanswered_of_reachable h, ?_⟩,
    fun s i s' h hopen hn => unanswered_of_panic h hopen hn⟩
  intro position text id payload htext hsize hparse
  have hworked := worked_of_reachable h.reachable
  obtain ⟨i, w, hw, hposition, hid, -⟩ :=
    hworked.every htext (counts_of_parse hsize hparse) hparse
  refine ⟨i, w, hw, hposition, hid, fun j v hv hvp => ?_⟩
  rcases Nat.lt_trichotomy i j with hij | rfl | hji
  · have := hworked.order hw hv hij
    omega
  · rfl
  · have := hworked.order hv hw hji
    omega

/-- Whether a step keeps the condition. -/
def handlersReturn (s : Session) : Event J → Bool
  | .workPanics _ => !s.isOpen
  | _ => true

theorem handlersReturn_iff (h : handlersReturn s e = true) : HandlersReturn J s e := by
  rintro hopen i rfl
  simp [handlersReturn, hopen] at h

/-- A message nobody handles. -/
def unknownTypeRun : List (Event compactJson) :=
  .receive "MSGAAAAAAAAAAAA\x7b\"@type\":\"t\"\x7d" :: List.replicate 7 (.work 0)

theorem messages_answered_unknownType : ∃ s, (machine compactJson).run (small []) unknownTypeRun =
    some s ∧ s.isOpen = true ∧ s.works.length = 1 ∧ NoneUnanswered s := by
  have hrun : ((machine compactJson).run (small []) unknownTypeRun).any
      (fun s => decide (s.isOpen = true ∧ s.works.length = 1)) = true := by decide +kernel
  obtain ⟨s, hs, hend⟩ := Machine.exists_of_run hrun
  obtain ⟨hopen, hlen⟩ := of_decide_eq_true hend
  have hreach := Machine.reachableBy_of_run handlersReturn (fun _ _ => handlersReturn_iff)
    (init_small compactJson []) (by decide +kernel) hs
  exact ⟨s, hs, hopen, hlen, ((messages_answered compactJson).1 s hreach).1⟩

/-- A message whose handler panics when it is polled. -/
def panickingTask : List (Event compactJson) :=
  [.receive "MSGAAAAAAAAAAAA\x7b\"@type\":\"t\"\x7d", .work 0, .work 0, .work 0, .workStarts 0 none,
    .workPanics 0]

/-- **The message of that run is left unanswered.** -/
theorem unanswered_panickingTask : ∃ s, (machine compactJson).Reachable s ∧ ¬ NoneUnanswered s := by
  have hrun : ((machine compactJson).run (small [("t", ⟨0, false⟩)]) panickingTask).any
      (fun s => decide (s.isOpen = true ∧ s.accepted = []) && s.works.all Work.isDone &&
        decide (s.works.length = 1)) = true := by
    decide +kernel
  obtain ⟨s, hs, hend⟩ := Machine.exists_of_run hrun
  refine ⟨s, Machine.reachable_of_run (init_small _ _) hs, fun hnone => ?_⟩
  simp only [Bool.and_eq_true, decide_eq_true_eq, List.all_eq_true] at hend
  obtain ⟨⟨⟨hopen, hacc⟩, hdone⟩, hlen⟩ := hend
  have hw := List.getElem?_eq_getElem (l := s.works) (i := 0) (by omega)
  rcases hnone 0 _ hw (hdone _ (List.getElem_mem _)) with ⟨a, frame, hsent, -⟩ | hclosed
  · rw [sentBy, hacc] at hsent
    cases hsent
  · rw [hopen] at hclosed
    cases hclosed

end Session

end Vcmp
