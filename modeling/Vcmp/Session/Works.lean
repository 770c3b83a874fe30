import Vcmp.Session.Arrivals
/-!
# The work on an incoming message

Each message heard is worked on once, by the read loop and then by its
task. `Work.Kept` is what is known of such a work at any point: which
text it comes from, what it was dispatched by and invoked on, and what it
has written so far. Every work that ends writes one answer or finds the
session closed, but for the one whose task panics.
-/

namespace Vcmp

/-- Whether a work that ends this way writes an answer. -/
def Ending.writes : Ending → Bool
  | .panicked | .aborted => false
  | _ => true

/-- Before the handler's future is polled. -/
def WorkPc.waiting : WorkPc → Bool
  | .asking | .granted _ | .dispatching | .spawned => true
  | _ => false

namespace Work

/-- **What a work writes** when it ends this way: the value its handler
returned, or a refusal, under the id of the message. -/
def Wrote (J : JsonText) (w : Work) (text : String) : Ending → Prop
  | .ok => ∃ payload v, text = (Frame.mkAck w.id payload).serialize ∧ w.returned = some v ∧
      readAck J (Frame.normalize payload) = .ok v
  | _ => ∃ payload, text = (Frame.mkNak w.id payload).serialize

/-- What a work has written, by where it is. -/
structure Written (J : JsonText) (w : Work) (i : ℕ) (sent : List Accepted) (isOpen : Bool) :
    Prop where
  answering : ∀ ending q, w.pc = .answering ending q →
    ending.writes = true ∧ q.control = true ∧ w.Wrote J q.text ending
  failing : ∀ ending, w.pc = .failing ending → ending.writes = true
  /-- Before the end nothing is written. -/
  before : w.isDone = false → sent = []
  done : ∀ ending, w.pc = .done ending →
    (ending.writes = true ∧ ∃ text, sent = [⟨true, text, .work i⟩] ∧ w.Wrote J text ending) ∨
      (sent = [] ∧ (isOpen = false ∨ ending = .panicked))

/-- What a work was dispatched by, and invoked on. -/
structure Dispatched (J : JsonText) (w : Work) : Prop where
  /-- The handler is registered for the type of the message that was parsed, -/
  handler : ∀ handler, w.handler = some handler → ∃ message type_, w.message = some message ∧
    (w.payload ≠ "" → J.ofText w.payload = some message) ∧ messageType message = some type_ ∧
    (type_, handler) ∈ w.registry.entries
  /-- and it is invoked on that message, without the type where it was registered so. -/
  invoked : ∀ input, w.invoked = some input → ∃ handler message, w.handler = some handler ∧
    w.message = some message ∧ input = handler.input message
  waiting : w.pc.waiting = true → w.invoked = none
  /-- A result comes from a handler that was invoked. -/
  returns : w.pc = .running ∨ (∃ q, w.pc = .answering .ok q) ∨ w.pc = .failing .ok ∨
    w.pc = .done .ok → w.invoked.isSome = true

theorem ending_of_isDone {w : Work} (h : w.isDone = true) : ∃ ending, w.pc = .done ending := by
  unfold isDone at h
  split at h
  · exact ⟨_, ‹_›⟩
  · cases h

/-- **What is known of a work.** -/
structure Kept (J : JsonText) (s : Session) (i : ℕ) (w : Work) : Prop where
  /-- It comes from a text that was heard. -/
  heard : ∃ text, s.received[w.position]? = some text ∧ s.counts text = true ∧
    Frame.parse text = .ok (.message w.id w.payload)
  arrival : w.arrival = s.arrivalAt w.position
  dispatched : w.Dispatched J
  written : w.Written J i (s.sentBy (.work i)) s.isOpen

end Work

namespace Session

variable {J : JsonText} {s s' : Session} {e : Event J} {i j : ℕ} {w w' : Work}

/-- **What a step does to the works**: nothing, a new one for a message
heard, or a step of one of them. -/
theorem Step.works (h : Step J s e s') :
    (s'.works = s.works ∧ ∀ i, s'.sentBy (.work i) = s.sentBy (.work i)) ∨
    (∃ text id payload, text.utf8ByteSize ≤ s.limits.maxMessageBytes ∧
      Frame.parse text = .ok (.message id payload) ∧ s' = { (s.hear text).count with
        works := s.works ++ [{ id := id, payload := payload, arrival := s.arrival
                               position := s.received.length }]
        drive := .working s.works.length }) ∨
    ∃ i w, s.works[i]? = some w ∧ WorkStep J s i w e s' := by
  have other : ∀ {s₁ : Session} {o : Origin} {q : Enqueue} {r : EnqueueResult},
      EnqueueStep s o q s₁ r → (∀ i, o ≠ .work i) →
      ∀ i, s₁.sentBy (.work i) = s.sentBy (.work i) := fun he ho i => he.sentBy_ne (ho i)
  cases h with
  | exchange _ h =>
    cases h with
    | enqueues _ he =>
      have hs := other he fun i => by simp
      obtain ⟨_, _, _, _, _, rfl⟩ := he.frame
      exact .inl ⟨rfl, hs⟩
    | _ => exact .inl ⟨rfl, fun _ => rfl⟩
  | beat _ h =>
    cases h with
    | enqueues _ he =>
      have hs := other he fun i => by simp
      obtain ⟨_, _, _, _, _, rfl⟩ := he.frame
      exact .inl ⟨rfl, hs⟩
    | _ => exact .inl ⟨rfl, fun _ => rfl⟩
  | raw _ he =>
    have hs := other he fun i => by simp
    obtain ⟨_, _, _, _, _, rfl⟩ := he.frame
    exact .inl ⟨rfl, hs⟩
  | receive _ h =>
    cases h with
    | message hsize hparse => exact .inr (.inl ⟨_, _, _, hsize, hparse, rfl⟩)
    | _ => exact .inl ⟨rfl, fun _ => rfl⟩
  | drive h => cases h <;> exact .inl ⟨rfl, fun _ => rfl⟩
  | work hw h => exact .inr (.inr ⟨_, _, hw, h⟩)
  | writer h => cases h <;> exact .inl ⟨rfl, fun _ => rfl⟩
  | _ => exact .inl ⟨rfl, fun _ => rfl⟩

/-- A frame of a work is not one of another work. -/
theorem WorkStep.sentBy_ne (h : WorkStep J s i w e s') (hne : j ≠ i) :
    s'.sentBy (.work j) = s.sentBy (.work j) := by
  have hother : (Origin.work i) ≠ .work j := by simpa using hne.symm
  cases h with
  | writes _ he =>
    have hs := he.sentBy_ne hother
    obtain ⟨_, _, _, _, _, rfl⟩ := he.frame
    exact hs
  | unwritten _ he =>
    have hs := he.sentBy_ne hother
    obtain ⟨_, _, _, _, _, rfl⟩ := he.frame
    exact hs
  | written _ he =>
    have hs := he.sentBy_ne hother
    obtain ⟨_, _, _, _, _, rfl⟩ := he.frame
    exact hs
  | _ => rfl

/-- Every answer on the way to the handler and back is a refusal. -/
theorem Answers.wrote {ending : Ending} {frame : Frame} (h : Answers J s i w e ending frame) :
    ending.writes = true ∧ ending ≠ .ok ∧ (w.answer ending frame).Wrote J frame.serialize ending := by
  cases h <;> exact ⟨rfl, by simp, _, rfl⟩

/-- The work that writes its answer next. -/
theorem written_answer {ending : Ending} {frame : Frame} {sent : List Accepted} {isOpen : Bool}
    (hw : w.Written J i sent isOpen) (hnot : w.isDone = false) (hwrites : ending.writes = true)
    (hwrote : (w.answer ending frame).Wrote J frame.serialize ending) :
    (w.answer ending frame).Written J i sent isOpen where
  answering _ _ hpc := by
    cases hpc
    exact ⟨hwrites, rfl, hwrote⟩
  failing _ hpc := by cases hpc
  before _ := hw.before hnot
  done _ hpc := by cases hpc

/-- Where nothing is written yet and nothing is about to be. -/
theorem written_before {sent : List Accepted} {isOpen : Bool} (hnone : sent = [])
    (hanswering : ∀ ending q, w.pc ≠ .answering ending q) (hfailing : ∀ ending, w.pc ≠ .failing ending)
    (hdone : ∀ ending, w.pc ≠ .done ending) : w.Written J i sent isOpen :=
  ⟨fun _ _ h => absurd h (hanswering _ _), fun _ h => absurd h (hfailing _), fun _ => hnone,
    fun _ h => absurd h (hdone _)⟩

/-- The work that ended, with nothing written. -/
theorem written_done {sent : List Accepted} {isOpen : Bool} {ending : Ending} {permit : Option Permit}
    (hnone : sent = []) (hend : isOpen = false ∨ ending = .panicked) :
    { w with pc := .done ending, permit := permit : Work }.Written J i sent isOpen where
  answering _ _ hpc := by cases hpc
  failing _ hpc := by cases hpc
  before _ := hnone
  done _ hpc := by
    cases hpc
    exact .inr ⟨hnone, hend⟩

/-- **What a step makes of a work.** -/
structure WorkUpdate (J : JsonText) (s s' : Session) (i : ℕ) (w w' : Work) : Prop where
  works : s'.works = s.works.set i w'
  id : w'.id = w.id
  payload : w'.payload = w.payload
  arrival : w'.arrival = w.arrival
  position : w'.position = w.position
  received : s'.received = s.received
  dispatched : w.Dispatched J → w'.Dispatched J
  written : w.Written J i (s.sentBy (.work i)) s.isOpen →
    w'.Written J i (s'.sentBy (.work i)) s'.isOpen

/-- Neither the handler nor what it is invoked on is touched. -/
theorem dispatched_of_eq (hd : w.Dispatched J) (hpayload : w'.payload = w.payload)
    (hmessage : w'.message = w.message) (hregistry : w'.registry = w.registry)
    (hhandler : w'.handler = w.handler) (hinvoked : w'.invoked = w.invoked)
    (hwaiting : w'.pc.waiting = true → w.pc.waiting = true)
    (hok : w'.pc = .running ∨ (∃ q, w'.pc = .answering .ok q) ∨ w'.pc = .failing .ok ∨
      w'.pc = .done .ok → w.pc = .running ∨ (∃ q, w.pc = .answering .ok q) ∨
      w.pc = .failing .ok ∨ w.pc = .done .ok) : w'.Dispatched J where
  handler := by
    rw [hpayload, hmessage, hregistry, hhandler]
    exact hd.handler
  invoked := by
    rw [hmessage, hhandler, hinvoked]
    exact hd.invoked
  waiting h := by
    rw [hinvoked]
    exact hd.waiting (hwaiting h)
  returns h := by
    rw [hinvoked]
    exact hd.returns (hok h)

/-- **Every step of a work keeps what is known of it.** -/
theorem WorkStep.update (h : WorkStep J s i w e s') (hjoin : s.drive = .joining → s.isOpen = false) :
    ∃ w', WorkUpdate J s s' i w w' := by
  have notDone : ∀ {pc : WorkPc}, w.pc = pc → (∀ ending, pc ≠ .done ending) → w.isDone = false := by
    intro pc hpc hne
    unfold Work.isDone
    rw [hpc]
    cases pc <;> simp_all
  cases h with
  | granted hpc =>
    have hnot := notDone hpc (by simp)
    exact ⟨_, rfl, rfl, rfl, rfl, rfl, rfl,
      fun hd => dispatched_of_eq hd rfl rfl rfl rfl rfl (fun _ => by rw [hpc]; rfl) (by simp),
      fun hw => written_before (hw.before hnot) (by simp) (by simp) (by simp)⟩
  | refused hpc =>
    have hnot := notDone hpc (by simp)
    exact ⟨_, rfl, rfl, rfl, rfl, rfl, rfl,
      fun hd => dispatched_of_eq hd rfl rfl rfl rfl rfl (by simp [Work.answer, WorkPc.waiting])
        (by simp [Work.answer]),
      fun hw => written_answer hw hnot rfl ⟨_, rfl⟩⟩
  | admitted hpc =>
    have hnot := notDone hpc (by simp)
    exact ⟨_, rfl, rfl, rfl, rfl, rfl, rfl,
      fun hd => dispatched_of_eq hd rfl rfl rfl rfl rfl (fun _ => by rw [hpc]; rfl) (by simp),
      fun hw => written_before (hw.before hnot) (by simp) (by simp) (by simp)⟩
  | overloaded hpc =>
    have hnot := notDone hpc (by simp)
    exact ⟨_, rfl, rfl, rfl, rfl, rfl, rfl,
      fun hd => dispatched_of_eq hd rfl rfl rfl rfl rfl (by simp [Work.answer, WorkPc.waiting])
        (by simp [Work.answer]),
      fun hw => written_answer hw hnot rfl ⟨_, rfl⟩⟩
  | @answers _ ending frame ignored ha =>
    obtain ⟨hwrites, hne, hwrote⟩ := ha.wrote
    have hnot : w.isDone = false := by
      cases ha <;> exact notDone ‹w.pc = _› (by simp)
    exact ⟨_, rfl, rfl, rfl, rfl, rfl, rfl,
      fun hd => dispatched_of_eq hd rfl rfl rfl rfl rfl (by simp [Work.answer, WorkPc.waiting])
        (by simp [Work.answer, hne]),
      fun hw => written_answer hw hnot hwrites hwrote⟩
  | @spawned message type_ handler hpc hparse htype hresolve =>
    have hnot := notDone hpc (by simp)
    refine ⟨_, rfl, rfl, rfl, rfl, rfl, rfl, fun hd => ?_,
      fun hw => written_before (hw.before hnot) (by simp) (by simp) (by simp)⟩
    have hnone : w.invoked = none := hd.waiting (by rw [hpc]; rfl)
    refine ⟨?_, fun input hinput => ?_, fun _ => hnone, by simp⟩
    · rintro h hh
      cases hh
      exact ⟨message, type_, rfl, hparse, htype, HandlerMap.resolve_eq_some_iff.mp hresolve⟩
    · simp only [hnone] at hinput
      cases hinput
  | @starts message handler hpc hhandler hmessage =>
    have hnot := notDone hpc (by simp)
    refine ⟨_, rfl, rfl, rfl, rfl, rfl, rfl,
      fun hd => ⟨hd.handler, ?_, by simp [WorkPc.waiting], fun _ => rfl⟩,
      fun hw => written_before (hw.before hnot) (by simp) (by simp) (by simp)⟩
    rintro input hinput
    cases hinput
    exact ⟨handler, message, hhandler, hmessage, rfl⟩
  | @returns r payload hpc hr =>
    have hnot := notDone hpc (by simp)
    refine ⟨_, rfl, rfl, rfl, rfl, rfl, rfl,
      fun hd => dispatched_of_eq hd rfl rfl rfl rfl rfl (by simp [Work.answer, WorkPc.waiting])
        fun _ => .inl hpc, fun hw => ?_⟩
    cases r with
    | error error => cases hr
    | ok result =>
      obtain ⟨v, hv, hread⟩ := readAck_handlerPayload hr
      refine ⟨fun ending q hq => ?_, fun _ hq => ?_, fun _ => hw.before hnot, fun _ hq => ?_⟩
      · cases hq
        exact ⟨rfl, rfl, payload, v, rfl, hv, hread⟩
      · cases hq
      · cases hq
  | panicked hpc =>
    have hnot : w.isDone = false := by
      rcases hpc with hpc | hpc <;> exact notDone hpc (by simp)
    exact ⟨_, rfl, rfl, rfl, rfl, rfl, rfl,
      fun hd => dispatched_of_eq hd rfl rfl rfl rfl rfl (by simp [WorkPc.waiting]) (by simp),
      fun hw => written_done (hw.before hnot) (.inr rfl)⟩
  | aborted hpc hdrive =>
    have hnot : w.isDone = false := by
      rcases hpc with hpc | hpc <;> exact notDone hpc (by simp)
    exact ⟨_, rfl, rfl, rfl, rfl, rfl, rfl,
      fun hd => dispatched_of_eq hd rfl rfl rfl rfl rfl (by simp [WorkPc.waiting]) (by simp),
      fun hw => written_done (hw.before hnot) (.inl (hjoin hdrive))⟩
  | @writes ending q q' s₁ hpc he =>
    have hnot := notDone hpc (by simp)
    have hcases := he.cases
    obtain ⟨_, _, _, _, _, rfl⟩ := he.frame
    refine ⟨_, rfl, rfl, rfl, rfl, rfl, rfl,
      fun hd => dispatched_of_eq hd rfl rfl rfl rfl rfl (by simp [WorkPc.waiting])
        fun h => ?_, fun hw => ?_⟩
    · simp only [WorkPc.answering.injEq, reduceCtorEq, or_self, or_false, false_or] at h
      obtain ⟨_, rfl, -⟩ := h
      exact .inr (.inl ⟨q, hpc⟩)
    · obtain ⟨hwrites, hcontrol, hwrote⟩ := hw.answering ending q hpc
      rcases hcases with ⟨hr, -⟩ | ⟨pc, hr, hacc⟩ | ⟨error, hr, -⟩
      · cases hr
      · cases hr
        refine ⟨fun ending' q' hq => ?_, fun _ hq => ?_, fun _ => ?_, fun _ hq => ?_⟩
        · cases hq
          exact ⟨hwrites, hcontrol, hwrote⟩
        · cases hq
        · exact (congrArg (List.filter _) hacc).trans (hw.before hnot)
        · cases hq
      · cases hr
  | @unwritten ending q s₁ error hpc he =>
    have hnot := notDone hpc (by simp)
    have hcases := he.cases
    obtain ⟨_, _, _, _, _, rfl⟩ := he.frame
    refine ⟨_, rfl, rfl, rfl, rfl, rfl, rfl,
      fun hd => dispatched_of_eq hd rfl rfl rfl rfl rfl (by simp [WorkPc.waiting])
        fun h => ?_, fun hw => ?_⟩
    · simp only [WorkPc.failing.injEq, reduceCtorEq, exists_false, or_false, false_or] at h
      subst h
      exact .inr (.inl ⟨q, hpc⟩)
    · obtain ⟨hwrites, hcontrol, hwrote⟩ := hw.answering ending q hpc
      rcases hcases with ⟨hr, -⟩ | ⟨pc, hr, hacc⟩ | ⟨error, hr, hacc⟩
      · cases hr
      · cases hr
      · refine ⟨fun _ _ hq => ?_, fun _ hq => ?_, fun _ => ?_, fun _ hq => ?_⟩
        · cases hq
        · cases hq
          exact hwrites
        · exact (congrArg (List.filter _) hacc).trans (hw.before hnot)
        · cases hq
  | @written ending q s₁ hpc he =>
    have hnot := notDone hpc (by simp)
    have hcases := he.cases
    obtain ⟨_, _, _, _, _, rfl⟩ := he.frame
    refine ⟨_, rfl, rfl, rfl, rfl, rfl, rfl,
      fun hd => dispatched_of_eq hd rfl rfl rfl rfl rfl (by simp [WorkPc.waiting])
        fun h => ?_, fun hw => ?_⟩
    · simp only [WorkPc.done.injEq, reduceCtorEq, exists_false, false_or] at h
      subst h
      exact .inr (.inl ⟨q, hpc⟩)
    · obtain ⟨hwrites, hcontrol, hwrote⟩ := hw.answering ending q hpc
      rcases hcases with ⟨-, hacc⟩ | ⟨pc, hr, -⟩ | ⟨error, hr, -⟩
      · refine ⟨fun _ _ hq => ?_, fun _ hq => ?_, fun h => ?_, fun _ hq => ?_⟩
        · cases hq
        · cases hq
        · cases h
        · cases hq
          refine .inl ⟨hwrites, q.text, ?_, hwrote⟩
          refine (congrArg (List.filter _) hacc).trans ?_
          rw [List.filter_append]
          have hnone : s.accepted.filter (fun a => decide (a.origin = .work i)) = [] :=
            hw.before hnot
          rw [hnone, hcontrol]
          simp
      · cases hr
      · cases hr
  | @closes ending hpc =>
    have hnot := notDone hpc (by simp)
    refine ⟨_, rfl, rfl, rfl, rfl, rfl, rfl,
      fun hd => dispatched_of_eq hd rfl rfl rfl rfl rfl (by simp [WorkPc.waiting])
        fun h => ?_, fun hw => written_done (hw.before hnot) (.inl rfl)⟩
    simp only [WorkPc.done.injEq, reduceCtorEq, exists_false, false_or] at h
    subst h
    exact .inr (.inr (.inl hpc))

/-! ## In every run -/

/-- **What is known of the works of a session.** -/
structure Worked (J : JsonText) (s : Session) : Prop where
  kept : ∀ {i : ℕ} {w : Work}, s.works[i]? = some w → w.Kept J s i
  /-- Every message heard is worked on, -/
  every : ∀ {position : ℕ} {text id payload : String}, s.received[position]? = some text →
    s.counts text = true → Frame.parse text = .ok (.message id payload) →
    ∃ (i : ℕ) (w : Work), s.works[i]? = some w ∧ w.position = position ∧ w.id = id ∧
      w.payload = payload
  /-- and once. -/
  order : ∀ {i j : ℕ} {w w' : Work}, s.works[i]? = some w → s.works[j]? = some w' → i < j →
    w.position < w'.position
  /-- Nothing is written for a message that was not heard. -/
  beyond : ∀ i, s.works.length ≤ i → s.sentBy (.work i) = []

/-- A session closed meanwhile takes nothing back that was written. -/
theorem written_of_notOpen {sent : List Accepted} {isOpen isOpen' : Bool}
    (hw : w.Written J i sent isOpen) (hopen : isOpen = false → isOpen' = false) :
    w.Written J i sent isOpen' :=
  ⟨hw.answering, hw.failing, hw.before, fun ending hpc =>
    (hw.done ending hpc).imp_right (And.imp_right (Or.imp_left hopen))⟩

/-- What was heard for a work stays what it was. -/
theorem heard_of_step (h : Step J s e s') (hw : w.Kept J s i) (hid : w'.id = w.id)
    (hpayload : w'.payload = w.payload) (harrival : w'.arrival = w.arrival)
    (hposition : w'.position = w.position) :
    (∃ text, s'.received[w'.position]? = some text ∧ s'.counts text = true ∧
      Frame.parse text = .ok (.message w'.id w'.payload)) ∧
      w'.arrival = s'.arrivalAt w'.position := by
  obtain ⟨hsid, hlimits⟩ := h.constant
  obtain ⟨text, htext, hcounts, hparse⟩ := hw.heard
  have hlt := (List.getElem?_eq_some_iff.mp htext).1
  rw [hid, hpayload, harrival, hposition, hw.arrival, arrivalAt_congr hsid hlimits h.heard hlt,
    counts_congr hlimits]
  exact ⟨⟨text, getElem?_of_extends h.heard htext, hcounts, hparse⟩, rfl⟩

/-- A text heard before the step, or by it. -/
theorem received_cases {position : ℕ} {text : String} (h : Step J s e s')
    (htext : s'.received[position]? = some text) :
    s.received[position]? = some text ∨ (position = s.received.length ∧ ReceiveStep J s text s') := by
  rcases h.hears with ⟨hsame, -⟩ | ⟨heard, -, hstep⟩
  · rw [hsame] at htext
    exact .inl htext
  · have hreceived : s'.received = s.received ++ [heard] := by cases hstep <;> rfl
    rcases getElem?_concat_cases (hreceived ▸ htext) with ⟨rfl, rfl⟩ | hold
    · exact .inr ⟨rfl, hstep⟩
    · exact .inl hold

/-- A message heard makes a work of its own. -/
theorem works_of_message {text id payload : String} (h : ReceiveStep J s text s')
    (hparse : Frame.parse text = .ok (.message id payload)) (hcounts : s.counts text = true) :
    s'.works = s.works ++
      [{ id := id, payload := payload, arrival := s.arrival, position := s.received.length }] := by
  have hsize : text.utf8ByteSize ≤ s.limits.maxMessageBytes := by
    simp only [counts, Bool.and_eq_true, decide_eq_true_eq] at hcounts
    exact hcounts.1
  cases h with
  | tooLarge h => omega
  | invalid h => rw [hparse] at h; cases h
  | ignored _ h => rw [hparse] at h; cases h
  | heartbeat _ h => rw [hparse] at h; cases h
  | answer _ h ha => rw [hparse] at h; cases h; cases ha
  | late _ h ha => rw [hparse] at h; cases h; cases ha
  | message _ h => rw [hparse] at h; cases h; rfl

/-- **The works are known in every run.** -/
theorem worked_of_reachable (h : (machine J).Reachable s) : Worked J s := by
  refine h.invariant_of ?_ ?_
  · rintro s ⟨id, limits, handlers, budget, elsewhere, rfl⟩
    exact ⟨fun h => by simp [spawn] at h, fun h => by simp [spawn] at h,
      fun h => by simp [spawn] at h, fun _ _ => rfl⟩
  · intro s e s' hreach _ hn ih
    have h := step_of_next hn
    obtain ⟨hsid, hlimits⟩ := h.constant
    have hclosed : s.isOpen = false → s'.isOpen = false := by
      intro hs
      by_contra hopen
      rw [h.isOpen (by simpa using hopen)] at hs
      cases hs
    -- a message heard by the step makes a work of its own
    have every : (∀ {position : ℕ} {w : Work} {i : ℕ}, s.works[i]? = some w →
          w.position = position → ∃ (j : ℕ) (w' : Work), s'.works[j]? = some w' ∧
            w'.position = position ∧ w'.id = w.id ∧ w'.payload = w.payload) →
        (∀ {text id payload : String}, ReceiveStep J s text s' →
          Frame.parse text = .ok (.message id payload) → s'.counts text = true →
          ∃ (j : ℕ) (w' : Work), s'.works[j]? = some w' ∧
            w'.position = s.received.length ∧ w'.id = id ∧ w'.payload = payload) →
        ∀ {position : ℕ} {text id payload : String}, s'.received[position]? = some text →
          s'.counts text = true → Frame.parse text = .ok (.message id payload) →
          ∃ (j : ℕ) (w' : Work), s'.works[j]? = some w' ∧ w'.position = position ∧ w'.id = id ∧
            w'.payload = payload := by
      intro hold hnew position text id payload htext hcounts hparse
      rcases received_cases h htext with hbefore | ⟨rfl, hstep⟩
      · rw [counts_congr hlimits] at hcounts
        obtain ⟨i, w, hw, hposition, hid, hpayload⟩ := ih.every hbefore hcounts hparse
        obtain ⟨j, w', hw', hposition', hid', hpayload'⟩ := hold hw hposition
        exact ⟨j, w', hw', hposition', hid'.trans hid, hpayload'.trans hpayload⟩
      · exact hnew hstep hparse hcounts
    rcases h.works with ⟨hworks, hsent⟩ | ⟨text, id, payload, hsize, hparse, hs'⟩ |
      ⟨i, w, hi, hstep⟩
    · refine ⟨fun {i w} hw => ?_, every ?_ ?_, ?_, fun i hi => ?_⟩
      · rw [hworks] at hw
        obtain ⟨hheard, harrival⟩ := heard_of_step h (ih.kept hw) rfl rfl rfl rfl
        refine ⟨hheard, harrival, (ih.kept hw).dispatched, ?_⟩
        rw [hsent]
        exact written_of_notOpen (ih.kept hw).written hclosed
      · intro position w i hw hposition
        exact ⟨i, w, hworks ▸ hw, hposition, rfl, rfl⟩
      · intro text id payload hstep hparse hcounts
        rw [counts_congr hlimits] at hcounts
        have hone := congrArg List.length (works_of_message hstep hparse hcounts)
        rw [hworks, List.length_append, List.length_singleton] at hone
        omega
      · rw [hworks]
        exact ih.order
      · rw [hsent]
        rw [hworks] at hi
        exact ih.beyond i hi
    · have hworks : s'.works = s.works ++
          [{ id := id, payload := payload, arrival := s.arrival, position := s.received.length }] := by
        rw [hs']
      have hheard : s'.received = s.received ++ [text] := by rw [hs']; rfl
      have hsent : ∀ i, s'.sentBy (.work i) = s.sentBy (.work i) := by rw [hs']; exact fun _ => rfl
      have hcounts := counts_of_parse hsize hparse
      have hlast : ∀ {i : ℕ} {w : Work}, s.works[i]? = some w → w.position < s.received.length := by
        intro i w hw
        obtain ⟨text, htext, -⟩ := (ih.kept hw).heard
        exact (List.getElem?_eq_some_iff.mp htext).1
      refine ⟨fun {i w} hw => ?_, every ?_ ?_, fun {i j w w'} hw hw' hij => ?_, fun i hi => ?_⟩
      · rcases getElem?_concat_cases (hworks ▸ hw) with ⟨rfl, rfl⟩ | hold
        · have hnone := ih.beyond _ (le_refl s.works.length)
          refine ⟨⟨text, by simp [hheard], ?_, hparse⟩, arrival_eq hreach hsid hlimits hheard hcounts,
            ⟨(fun _ h => by cases h), (fun _ h => by cases h), fun _ => rfl, by simp⟩, ?_⟩
          · rw [counts_congr hlimits]
            exact hcounts
          · rw [hsent, hnone]
            exact written_before rfl (by simp) (by simp) (by simp)
        · obtain ⟨hheard, harrival⟩ := heard_of_step h (ih.kept hold) rfl rfl rfl rfl
          refine ⟨hheard, harrival, (ih.kept hold).dispatched, ?_⟩
          rw [hsent]
          exact written_of_notOpen (ih.kept hold).written hclosed
      · intro position w i hw hposition
        refine ⟨i, w, ?_, hposition, rfl, rfl⟩
        rw [hworks, getElem?_append_some hw]
      · intro text' id' payload' hstep hparse' hcounts'
        rw [counts_congr hlimits] at hcounts'
        have hnew := works_of_message hstep hparse' hcounts'
        have hget : s'.works[s.works.length]? = some { id := id', payload := payload'
                                                       arrival := s.arrival
                                                       position := s.received.length } := by
          simp [hnew]
        exact ⟨s.works.length, _, hget, rfl, rfl, rfl⟩
      · rcases getElem?_concat_cases (hworks ▸ hw) with ⟨rfl, rfl⟩ | hold <;>
          rcases getElem?_concat_cases (hworks ▸ hw') with ⟨rfl, rfl⟩ | hold'
        · omega
        · have := (List.getElem?_eq_some_iff.mp hold').1
          omega
        · exact hlast hold
        · exact ih.order hold hold' hij
      · rw [hsent]
        rw [hworks, List.length_append] at hi
        exact ih.beyond i (by omega)
    · have hjoin : s.drive = .joining → s.isOpen = false := fun hd =>
        notOpen_of_stage hreach (by simp [hd, DrivePc.stage])
      obtain ⟨w', hu⟩ := hstep.update hjoin
      have hworks := hu.works
      -- a work after the step is one before it, with the same message
      have back : ∀ {j : ℕ} {v : Work}, s'.works[j]? = some v →
          ∃ v₀, s.works[j]? = some v₀ ∧ v.position = v₀.position := by
        intro j v hv
        rcases getElem?_set_cases (hworks ▸ hv) with ⟨rfl, rfl⟩ | ⟨-, hold⟩
        · exact ⟨w, hi, hu.position⟩
        · exact ⟨v, hold, rfl⟩
      refine ⟨fun {j v} hv => ?_, every ?_ ?_, fun hv hv' hij => ?_, fun j hj => ?_⟩
      · rcases getElem?_set_cases (hworks ▸ hv) with ⟨rfl, rfl⟩ | ⟨hne, hold⟩
        · have hk := ih.kept hi
          obtain ⟨hheard, harrival⟩ := heard_of_step h hk hu.id hu.payload hu.arrival hu.position
          exact ⟨hheard, harrival, hu.dispatched hk.dispatched, hu.written hk.written⟩
        · have hk := ih.kept hold
          obtain ⟨hheard, harrival⟩ := heard_of_step h hk rfl rfl rfl rfl
          refine ⟨hheard, harrival, hk.dispatched, ?_⟩
          rw [hstep.sentBy_ne hne]
          exact written_of_notOpen hk.written hclosed
      · intro position v j hv hposition
        by_cases hji : j = i
        · subst hji
          rw [hi, Option.some.injEq] at hv
          subst hv
          exact ⟨j, w', by rw [hworks]; exact getElem?_set_self' hi, hu.position.trans hposition,
            hu.id, hu.payload⟩
        · exact ⟨j, v, by rw [hworks, List.getElem?_set_ne (Ne.symm hji), hv], hposition, rfl, rfl⟩
      · intro text id payload hreceive hparse hcounts
        have hheard : s'.received = s.received ++ [text] := by cases hreceive <;> rfl
        have hlen := congrArg List.length hheard
        rw [hu.received, List.length_append, List.length_singleton] at hlen
        omega
      · obtain ⟨v₀, hv₀, hp⟩ := back hv
        obtain ⟨v₁, hv₁, hp'⟩ := back hv'
        rw [hp, hp']
        exact ih.order hv₀ hv₁ hij
      · rw [hworks, List.length_set] at hj
        have hne : j ≠ i := by
          rintro rfl
          have := (List.getElem?_eq_some_iff.mp hi).1
          omega
        rw [hstep.sentBy_ne hne]
        exact ih.beyond j hj

end Session

end Vcmp
