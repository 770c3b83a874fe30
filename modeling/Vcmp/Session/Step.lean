import Vcmp.Session.Model
/-!
# What a step of a session can do

The step function read as a relation, party by party: the guard of each
branch and the state it leads to. Every invariant is derived from these.
-/

namespace Vcmp

namespace Session

/-- What a step of `enqueue` can do. -/
inductive EnqueueStep (s : Session) (origin : Origin) (e : Enqueue) :
    Session → EnqueueResult → Prop
  | notOpen (hpc : e.pc = .check) (hclosed : s.isOpen = false) :
      EnqueueStep s origin e s (.fails (.sessionNotOpen "The session is not open."))
  | tooLarge (hpc : e.pc = .check) (hopen : s.isOpen = true)
      (hsize : s.limits.maxMessageBytes < e.text.utf8ByteSize) :
      EnqueueStep s origin e s (.fails (.new 413 "Message too large"))
  | checked (hpc : e.pc = .check) (hopen : s.isOpen = true)
      (hsize : e.text.utf8ByteSize ≤ s.limits.maxMessageBytes) :
      EnqueueStep s origin e s (.goes { e with pc := .asking })
  | granted {p : Permit} {b : ResourceBudget} (hpc : e.pc = .asking)
      (hr : s.own.reserve (queueResource e.control) e.text.utf8ByteSize = (some p, b)) :
      EnqueueStep s origin e { s with own := b } (.goes { e with pc := .granted p })
  | refused {b : ResourceBudget} (hpc : e.pc = .asking)
      (hr : s.own.reserve (queueResource e.control) e.text.utf8ByteSize = (none, b)) :
      EnqueueStep s origin e { s with own := b } (.fails .transportOverloaded)
  | admitted {p q : Permit} {b : ResourceBudget} (hpc : e.pc = .granted p)
      (hr : s.budget.reserve p.resource p.bytes = (some q, b)) :
      EnqueueStep s origin e { s with budget := b } (.goes { e with pc := .pushing p })
  | overloaded {p : Permit} {b : ResourceBudget} (hpc : e.pc = .granted p)
      (hr : s.budget.reserve p.resource p.bytes = (none, b)) :
      EnqueueStep s origin e { s with own := s.own.release p, budget := b }
        (.fails .transportOverloaded)
  | full {p : Permit} (hpc : e.pc = .pushing p)
      (hfull : s.receivers = false ∨ s.capacity e.control ≤ (s.queue e.control).length) :
      EnqueueStep s origin e (s.release p) (.fails .transportOverloaded)
  | accepted {p : Permit} (hpc : e.pc = .pushing p) (hreceivers : s.receivers = true)
      (hroom : (s.queue e.control).length < s.capacity e.control) :
      EnqueueStep s origin e (s.push origin e p) .accepted

theorem enqueueStep (s : Session) (origin : Origin) (e : Enqueue) :
    EnqueueStep s origin e (s.enqueueNext origin e).1 (s.enqueueNext origin e).2 := by
  unfold enqueueNext
  split
  · rename_i hpc
    split_ifs with hclosed hsize
    · exact .notOpen hpc hclosed
    · exact .tooLarge hpc (by simpa using hclosed) hsize
    · exact .checked hpc (by simpa using hclosed) (by omega)
  · rename_i hpc
    split
    · exact .granted hpc ‹_›
    · exact .refused hpc ‹_›
  · rename_i hpc
    split
    · exact .admitted hpc ‹_›
    · exact .overloaded hpc ‹_›
  · rename_i hpc
    split_ifs with hfull
    · exact .full hpc hfull
    · simp only [not_or, Bool.not_eq_false, not_le] at hfull
      exact .accepted hpc hfull.1 hfull.2

/-- **A step of `enqueue` touches the budgets, the queues and the accepted
frames only.** -/
theorem EnqueueStep.frame {s s' : Session} {origin : Origin} {e : Enqueue} {r : EnqueueResult}
    (h : EnqueueStep s origin e s' r) : ∃ own budget data control accepted, s' = { s with
      own := own, budget := budget, data := data, control := control, accepted := accepted } := by
  refine ⟨s'.own, s'.budget, s'.data, s'.control, s'.accepted, ?_⟩
  cases h <;> rfl

/-- The frames of a party the queues accepted. -/
def sentBy (s : Session) (origin : Origin) : List Accepted :=
  s.accepted.filter (·.origin = origin)

/-- **A step of `enqueue` accepts the frame, goes on with it, or fails.** -/
theorem EnqueueStep.cases {s s' : Session} {origin : Origin} {e : Enqueue} {r : EnqueueResult}
    (h : EnqueueStep s origin e s' r) :
    (r = .accepted ∧ s'.accepted = s.accepted ++ [⟨e.control, e.text, origin⟩]) ∨
    (∃ pc, r = .goes { e with pc := pc } ∧ s'.accepted = s.accepted) ∨
    (∃ error, r = .fails error ∧ s'.accepted = s.accepted) := by
  cases h with
  | accepted => exact .inl ⟨rfl, rfl⟩
  | checked => exact .inr (.inl ⟨_, rfl, rfl⟩)
  | granted => exact .inr (.inl ⟨_, rfl, rfl⟩)
  | admitted => exact .inr (.inl ⟨_, rfl, rfl⟩)
  | notOpen => exact .inr (.inr ⟨_, rfl, rfl⟩)
  | tooLarge => exact .inr (.inr ⟨_, rfl, rfl⟩)
  | refused => exact .inr (.inr ⟨_, rfl, rfl⟩)
  | overloaded => exact .inr (.inr ⟨_, rfl, rfl⟩)
  | full => exact .inr (.inr ⟨_, rfl, rfl⟩)

/-- The frames of the others are the same. -/
theorem EnqueueStep.sentBy_ne {s s' : Session} {origin origin' : Origin} {e : Enqueue}
    {r : EnqueueResult} (h : EnqueueStep s origin e s' r) (hne : origin ≠ origin') :
    s'.sentBy origin' = s.sentBy origin' := by
  unfold sentBy
  rcases h.cases with ⟨-, ha⟩ | ⟨pc, -, ha⟩ | ⟨error, -, ha⟩ <;> rw [ha]
  simp [hne]

/-- What a step of a call of `exchange` can do. -/
inductive ExchangeStep (s : Session) (i : ℕ) (x : Exchange) : Session → Prop
  | tooLarge (hpc : x.pc = .start)
      (hsize : s.limits.maxMessageBytes < x.payload.utf8ByteSize + 15) :
      ExchangeStep s i x
        (s.setExchange i { x with pc := .done (.refused (.new 413 "Message too large")) })
  | granted {p : Permit} {b : ResourceBudget} (hpc : x.pc = .start)
      (hr : s.own.reserve .request 0 = (some p, b))
      (hsize : x.payload.utf8ByteSize + 15 ≤ s.limits.maxMessageBytes) :
      ExchangeStep s i x { s.setExchange i { x with pc := .granted p } with own := b }
  | refused {b : ResourceBudget} (hpc : x.pc = .start)
      (hr : s.own.reserve .request 0 = (none, b))
      (hsize : x.payload.utf8ByteSize + 15 ≤ s.limits.maxMessageBytes) :
      ExchangeStep s i x { s.setExchange i
        { x with pc := .done (.refused .transportOverloaded) } with own := b }
  | admitted {p q : Permit} {b : ResourceBudget} (hpc : x.pc = .granted p)
      (hr : s.budget.reserve p.resource p.bytes = (some q, b)) :
      ExchangeStep s i x { s.setExchange i { x with pc := .registering p } with budget := b }
  | overloaded {p : Permit} {b : ResourceBudget} (hpc : x.pc = .granted p)
      (hr : s.budget.reserve p.resource p.bytes = (none, b)) :
      ExchangeStep s i x { s.setExchange i
        { x with pc := .done (.refused .transportOverloaded) } with
        own := s.own.release p, budget := b }
  | notOpen {p : Permit} (hpc : x.pc = .registering p) (hclosed : s.isOpen = false) :
      ExchangeStep s i x ((s.setExchange i { x with pc := .done (.refused
        (.sessionNotOpen "Cannot send message: the WebSocket is not open.")) }).release p)
  | registered {p : Permit} (hpc : x.pc = .registering p) (hopen : s.isOpen = true) :
      ExchangeStep s i x { s.setExchange i { x with
          pc := .enqueuing ⟨(Frame.message x.id x.payload).serialize, false, .check⟩
          channel := .pending } with
        pending := ⟨x.id, i, p⟩ :: s.pending, marks := .registered i :: s.marks }
  | enqueues {e : Enqueue} {s₁ : Session} {r : EnqueueResult} (hpc : x.pc = .enqueuing e)
      (he : EnqueueStep s (.exchange i) e s₁ r) :
      ExchangeStep s i x (s₁.setExchange i (x.enqueued r))
  | settled {r : Settlement} (hpc : x.pc = .awaiting) (hchannel : x.channel = .sent r) :
      ExchangeStep s i x (s.setExchange i { x with pc := .cleaning (.settled r) })
  | orphaned (hpc : x.pc = .awaiting) (hchannel : x.channel = .gone) :
      ExchangeStep s i x (s.setExchange i { x with pc := .cleaning .closed })
  | removed {o : Outcome} {entry : PendingEntry} (hpc : x.pc = .cleaning o)
      (hfound : s.findPending x.id = some entry) :
      ExchangeStep s i x { (s.removePending entry).setExchange i
          { x with pc := .done o, channel := .gone } with
        marks := .ended i :: s.marks }
  | cleaned {o : Outcome} (hpc : x.pc = .cleaning o) (hnone : s.findPending x.id = none) :
      ExchangeStep s i x { s.setExchange i { x with pc := .done o } with
        marks := .ended i :: s.marks }

/-- How a waiting call leaves without an answer. -/
inductive Leaves (J : JsonText) (i : ℕ) : Event J → Outcome → Prop
  | timedOut : Leaves J i (.deadline i) .timedOut
  | abandoned : Leaves J i (.abandon i) .abandoned

/-- The answers of the work on a message on its way to the handler and back. -/
inductive Answers (J : JsonText) (s : Session) (i : ℕ) (w : Work) :
    Event J → Ending → Frame → Prop
  | invalidJson (hpc : w.pc = .dispatching) (hne : w.payload ≠ "")
      (hparse : J.ofText w.payload = none) :
      Answers J s i w (.work i) .invalidJson (nakFrame J w.id
        ((VcmpError.badRequest "Invalid message").withDetail
          "The message payload could not be parsed."))
  | missingType {message : Json} (hpc : w.pc = .dispatching)
      (htype : messageType message = none) :
      Answers J s i w (.work i) .missingType (nakFrame J w.id
        ((VcmpError.badRequest "Invalid message").withDetail
          "The message does not specify a type."))
  | unknownType {type_ : String} (hpc : w.pc = .dispatching)
      (hnone : s.handlers.resolve type_ = none) :
      Answers J s i w (.work i) .unknownType (Frame.mkNak w.id none)
  | badMessage {detail : String} (hpc : w.pc = .spawned) :
      Answers J s i w (.workStarts i (some detail)) .badMessage (nakFrame J w.id
        ((VcmpError.badRequest "Invalid message").withDetail
          ("The message could not be deserialized: " ++ detail)))
  | failed {r : Returned J} {error : VcmpError} (hpc : w.pc = .running)
      (hr : handlerPayload s.limits.maxMessageBytes r = .error error) :
      Answers J s i w (.workReturns i r) .failed (nakFrame J w.id error)
  | timedOut (hpc : w.pc = .running) :
      Answers J s i w (.workTimesOut i) .timedOut
        (nakFrame J w.id (.new 504 "Handler timed out"))

/-- What a step of the work on a message can do. -/
inductive WorkStep (J : JsonText) (s : Session) (i : ℕ) (w : Work) : Event J → Session → Prop
  | granted {p : Permit} {b : ResourceBudget} (hpc : w.pc = .asking)
      (hr : s.own.reserve .handler w.payload.utf8ByteSize = (some p, b)) :
      WorkStep J s i w (.work i) { s.setWork i { w with pc := .granted p } with own := b }
  | refused {b : ResourceBudget} (hpc : w.pc = .asking)
      (hr : s.own.reserve .handler w.payload.utf8ByteSize = (none, b)) :
      WorkStep J s i w (.work i) { s.setWork i
        (w.answer .refused (nakFrame J w.id .transportOverloaded)) with own := b }
  | admitted {p q : Permit} {b : ResourceBudget} (hpc : w.pc = .granted p)
      (hr : s.budget.reserve p.resource p.bytes = (some q, b)) :
      WorkStep J s i w (.work i)
        { s.setWork i { w with pc := .dispatching, permit := some p } with budget := b }
  | overloaded {p : Permit} {b : ResourceBudget} (hpc : w.pc = .granted p)
      (hr : s.budget.reserve p.resource p.bytes = (none, b)) :
      WorkStep J s i w (.work i) { s.setWork i
        (w.answer .refused (nakFrame J w.id .transportOverloaded)) with
        own := s.own.release p, budget := b }
  | answers {e : Event J} {ending : Ending} {frame : Frame} {ignored : ℕ}
      (ha : Answers J s i w e ending frame) :
      WorkStep J s i w e { s.setWork i (w.answer ending frame) with ignoredFrames := ignored }
  | spawned {message : Json} {type_ : String} {handler : Handler} (hpc : w.pc = .dispatching)
      (hparse : w.payload ≠ "" → J.ofText w.payload = some message)
      (htype : messageType message = some type_)
      (hresolve : s.handlers.resolve type_ = some handler) :
      WorkStep J s i w (.work i) { s.setWork i { w with
          pc := .spawned, message := some message, registry := s.handlers
          handler := some handler } with
        drive := s.drive.leaveWork i }
  | starts {message : Json} {handler : Handler} (hpc : w.pc = .spawned)
      (hhandler : w.handler = some handler) (hmessage : w.message = some message) :
      WorkStep J s i w (.workStarts i none) (s.setWork i { w with
        pc := .running, invoked := some (handler.input message) })
  | returns {r : Returned J} {payload : Option String} (hpc : w.pc = .running)
      (hr : handlerPayload s.limits.maxMessageBytes r = .ok payload) :
      WorkStep J s i w (.workReturns i r) (s.setWork i
        { w.answer .ok (Frame.mkAck w.id payload) with returned := r.value })
  | panicked (hpc : w.pc = .spawned ∨ w.pc = .running) :
      WorkStep J s i w (.workPanics i) (s.finishWork i w .panicked)
  | aborted (hpc : w.pc = .spawned ∨ w.pc = .running) (hdrive : s.drive = .joining) :
      WorkStep J s i w (.workAborted i) (s.finishWork i w .aborted)
  | writes {ending : Ending} {e e' : Enqueue} {s₁ : Session} (hpc : w.pc = .answering ending e)
      (he : EnqueueStep s (.work i) e s₁ (.goes e')) :
      WorkStep J s i w (.work i) (s₁.setWork i { w with pc := .answering ending e' })
  | unwritten {ending : Ending} {e : Enqueue} {s₁ : Session} {error : VcmpError}
      (hpc : w.pc = .answering ending e) (he : EnqueueStep s (.work i) e s₁ (.fails error)) :
      WorkStep J s i w (.work i) (s₁.setWork i { w with pc := .failing ending })
  | written {ending : Ending} {e : Enqueue} {s₁ : Session} (hpc : w.pc = .answering ending e)
      (he : EnqueueStep s (.work i) e s₁ .accepted) :
      WorkStep J s i w (.work i) (s₁.finishWork i w ending)
  | closes {ending : Ending} (hpc : w.pc = .failing ending) :
      WorkStep J s i w (.work i) (s.close.finishWork i w ending)

/-- What a step of a call of `send_heartbeat` can do. -/
inductive BeatStep (s : Session) (i : ℕ) (b : Beat) : Session → Prop
  | notOpen (hpc : b.pc = .start) (hclosed : s.isOpen = false) :
      BeatStep s i b (s.setBeat i { b with pc := .done })
  | checked (hpc : b.pc = .start) (hopen : s.isOpen = true) :
      BeatStep s i b (s.setBeat i { b with pc := .arming })
  | arms (hpc : b.pc = .arming) :
      BeatStep s i b { s.setBeat i { b with
        pc := .sending ⟨(Frame.heartbeat b.interval).serialize, true, .check⟩ } with
        heartbeat := { s.heartbeat with awaiting := true } }
  | enqueues {e : Enqueue} {s₁ : Session} {r : EnqueueResult} (hpc : b.pc = .sending e)
      (he : EnqueueStep s (.beat i) e s₁ r) : BeatStep s i b (s₁.setBeat i (b.enqueued r))
  | closes (hpc : b.pc = .closing) : BeatStep s i b (s.setBeat i { b with pc := .done }).close
  | installs (hpc : b.pc = .installing) :
      BeatStep s i b { s.setBeat i { b with pc := .done } with
        heartbeat := { s.heartbeat with watchdog := .armed (doubled b.interval) } }

/-- A text taken from the stream. -/
def hear (s : Session) (text : String) : Session := { s with received := s.received ++ [text] }

/-- A frame counted. -/
def count (s : Session) : Session := { s with framesReceived := s.framesReceived + 1 }

/-- The place of the next frame. -/
def arrival (s : Session) : Arrival := ⟨s.id, s.framesReceived + 1⟩

/-- What an answer with an id settles the exchange with. -/
inductive AnswerFrame (J : JsonText) (s : Session) : Frame → String → Settlement → Prop
  | ack (id : String) (payload : Option String) :
      AnswerFrame J s (.ack id payload) id (.ack payload s.arrival s.received.length)
  | nak (id : String) (payload : Option String) :
      AnswerFrame J s (.nak id payload) id (.nak (readNak J payload) s.received.length)

/-- What the arrival of a text can do. -/
inductive ReceiveStep (J : JsonText) (s : Session) (text : String) : Session → Prop
  | tooLarge (hsize : s.limits.maxMessageBytes < text.utf8ByteSize) :
      ReceiveStep J s text (s.hear text).close
  | invalid {error : FrameError} (hparse : Frame.parse text = .error error) :
      ReceiveStep J s text (s.hear text).diagnose
  | ignored {interval : ℕ} (hsize : text.utf8ByteSize ≤ s.limits.maxMessageBytes)
      (hparse : Frame.parse text = .ok (.heartbeat interval))
      (hno : interval = 0 ∨ s.heartbeat.awaiting = false) :
      ReceiveStep J s text (s.hear text).count.diagnose
  | heartbeat {interval : ℕ} (hsize : text.utf8ByteSize ≤ s.limits.maxMessageBytes)
      (hparse : Frame.parse text = .ok (.heartbeat interval))
      (hpos : interval ≠ 0) (hawaiting : s.heartbeat.awaiting = true) :
      ReceiveStep J s text { (s.hear text).count with
        heartbeat := ⟨false, .absent, .armed interval⟩
        heartbeatsReceived := s.heartbeatsReceived + 1 }
  | answer {frame : Frame} {id : String} {r : Settlement} {entry : PendingEntry}
      (hsize : text.utf8ByteSize ≤ s.limits.maxMessageBytes)
      (hparse : Frame.parse text = .ok frame) (hanswer : AnswerFrame J s frame id r)
      (hfound : s.findPending id = some entry) :
      ReceiveStep J s text { ((s.hear text).count).removePending entry with
        exchanges := holdSender s.exchanges entry
        drive := .settling entry.exchange r, marks := .answered entry.exchange :: s.marks }
  | late {frame : Frame} {id : String} {r : Settlement}
      (hsize : text.utf8ByteSize ≤ s.limits.maxMessageBytes)
      (hparse : Frame.parse text = .ok frame) (hanswer : AnswerFrame J s frame id r)
      (hnone : s.findPending id = none) :
      ReceiveStep J s text (s.hear text).count.diagnose
  | message {id payload : String} (hsize : text.utf8ByteSize ≤ s.limits.maxMessageBytes)
      (hparse : Frame.parse text = .ok (.message id payload)) :
      ReceiveStep J s text { (s.hear text).count with
        works := s.works ++ [{ id := id, payload := payload, arrival := s.arrival
                               position := s.received.length }]
        drive := .working s.works.length }

/-- What a step of the task driving the session can do. -/
inductive DriveStep (s : Session) : Session → Prop
  | requested (hpc : s.drive = .reading) (hrequest : s.closeRequested = true) :
      DriveStep s { s with closeRequested := false, drive := .leaving }
  | settles {i : ℕ} {r : Settlement} (hpc : s.drive = .settling i r) :
      DriveStep s { s.deliver i r with drive := .reading }
  | closes (hpc : s.drive = .leaving) : DriveStep s { s.close with drive := .aborting }
  | aborts (hpc : s.drive = .aborting) : DriveStep s { s with drive := .joining }
  | joined (hpc : s.drive = .joining) (hdone : ∀ w ∈ s.works, w.isDone = true) :
      DriveStep s { s with signalled := true, drive := .awaitingWriter }
  | awaited (hpc : s.drive = .awaitingWriter) (hwriter : s.writer = .ended) :
      DriveStep s { s with drive := .finishOpen }
  | aborted (hpc : s.drive = .abortingWriter) : DriveStep s { s.dropWriter with drive := .finishOpen }
  | finishOpen (hpc : s.drive = .finishOpen) :
      DriveStep s { s with isOpen := false, drive := .finishTimers }
  | finishTimers (hpc : s.drive = .finishTimers) :
      DriveStep s { s with
        heartbeat := { s.heartbeat with watchdog := .absent, echo := .absent }
        drive := .finishDrain }
  | drains (hpc : s.drive = .finishDrain) :
      DriveStep s { s with
        pending := [], drive := .finishSettle s.pending, marks := .drained :: s.marks
        exchanges := s.pending.foldl holdSender s.exchanges }
  | finishSettle {entry : PendingEntry} {left : List PendingEntry}
      (hpc : s.drive = .finishSettle (entry :: left)) :
      DriveStep s { (s.deliver entry.exchange .closed).release entry.permit with
        drive := .finishSettle left }
  | settledAll (hpc : s.drive = .finishSettle []) : DriveStep s { s with drive := .finishFlag }
  | finishFlag (hpc : s.drive = .finishFlag) :
      DriveStep s { s with closed := true, drive := .finished }

/-- What a step of the writer task can do. -/
inductive WriterStep (s : Session) : WriterMove → Session → Prop
  | stops (hpc : s.writer = .pollClosing) (hsignal : s.signalled = true) :
      WriterStep s .steps { s with writer := .closing none }
  | polls (hpc : s.writer = .pollClosing) : WriterStep s .steps { s with writer := .pollControl }
  | takesControl {o : Outgoing} {rest : List Outgoing} (hpc : s.writer = .pollControl)
      (hqueue : s.control = o :: rest) :
      WriterStep s .steps { s with
        control := rest, writer := .taken o, takenLog := s.takenLog ++ [o.position] }
  | noControl (hpc : s.writer = .pollControl) (hqueue : s.control = []) :
      WriterStep s .steps { s with writer := .pollData }
  | takesData {o : Outgoing} {rest : List Outgoing} (hpc : s.writer = .pollData)
      (hqueue : s.data = o :: rest) :
      WriterStep s .steps { s with
        data := rest, writer := .taken o, takenLog := s.takenLog ++ [o.position] }
  | noData (hpc : s.writer = .pollData) (hqueue : s.data = []) :
      WriterStep s .steps { s with writer := .pollClosing }
  | discards {o : Outgoing} (hpc : s.writer = .taken o) (hclosed : s.isOpen = false) :
      WriterStep s .steps { s.release o.permit with writer := .closing none }
  | sends {o : Outgoing} (hpc : s.writer = .taken o) (hopen : s.isOpen = true) :
      WriterStep s .steps { s with writer := .sending o false }
  | feeds {o : Outgoing} (hpc : s.writer = .sending o false) :
      WriterStep s .feeds { s with writer := .sending o true, written := s.written ++ [o.position] }
  | flushes {o : Outgoing} (hpc : s.writer = .sending o true) :
      WriterStep s .flushes { s.release o.permit with writer := .pollClosing }
  | cancels {o : Outgoing} {fed : Bool} (hpc : s.writer = .sending o fed)
      (hsignal : s.signalled = true) :
      WriterStep s .cancels { s with writer := .closing (some (o, fed)) }
  | fails {o : Outgoing} {fed : Bool} (hpc : s.writer = .sending o fed) :
      WriterStep s .fails { s.close with writer := .closing (some (o, fed)) }
  | ends {left : Option (Outgoing × Bool)} (hpc : s.writer = .closing left) :
      WriterStep s .ends s.dropWriter

/-- **What a step of a session can do.** -/
inductive Step (J : JsonText) (s : Session) : Event J → Session → Prop
  | unsendable {bytes : Vector UInt8 9} {message : Output J} : Step J s (.send bytes message) s
  | sent {bytes : Vector UInt8 9} {message : Output J} {payload : String}
      (hserial : serializeBounded message (s.limits.maxMessageBytes - 15) = .ok payload)
      (hfresh : ∀ x ∈ s.exchanges, x.id ≠ Frame.generateId bytes) :
      Step J s (.send bytes message) { s with
        exchanges := s.exchanges ++
          [⟨Frame.generateId bytes, payload, message.value, .start, .unregistered⟩] }
  | sentPayload {bytes : Vector UInt8 9} {payload : String}
      (hfresh : ∀ x ∈ s.exchanges, x.id ≠ Frame.generateId bytes) :
      Step J s (.sendPayload bytes payload) { s with
        exchanges := s.exchanges ++
          [⟨Frame.generateId bytes, payload, none, .start, .unregistered⟩] }
  | exchange {i : ℕ} {x : Exchange} {s' : Session} (hx : s.exchanges[i]? = some x)
      (h : ExchangeStep s i x s') : Step J s (.exchange i) s'
  | leaves {e : Event J} {i : ℕ} {x : Exchange} {o : Outcome} (hx : s.exchanges[i]? = some x)
      (hpc : x.pc = .awaiting) (ho : Leaves J i e o) :
      Step J s e (s.setExchange i { x with pc := .cleaning o })
  | initiates {millis : ℕ} :
      Step J s (.initiateHeartbeat millis)
        { s with beats := s.beats ++ [{ interval := min millis (u64Bound - 1) }] }
  | beat {i : ℕ} {b : Beat} {s' : Session} (hb : s.beats[i]? = some b)
      (h : BeatStep s i b s') : Step J s (.beat i) s'
  | sendRaw {text : String} :
      Step J s (.sendRaw text) { s with
        raws := s.raws ++ [.sending ⟨text, !"MSG".toList.isPrefixOf text.toList, .check⟩] }
  | raw {i : ℕ} {e : Enqueue} {s₁ : Session} {r : EnqueueResult}
      (hraw : s.raws[i]? = some (.sending e)) (he : EnqueueStep s (.raw i) e s₁ r) :
      Step J s (.raw i) { s₁ with raws := s₁.raws.set i (.enqueued r) }
  | expects {timeout : ℕ} (hopen : s.isOpen = true) (hnone : s.heartbeatsReceived = 0) :
      Step J s (.expectHeartbeat timeout)
        { s with heartbeat := { s.heartbeat with watchdog := .armed timeout } }
  | unexpected {timeout : ℕ} : Step J s (.expectHeartbeat timeout) s
  | watchdog {timeout : ℕ} (harmed : s.heartbeat.watchdog = .armed timeout) :
      Step J s .watchdogFires
        { s with heartbeat := { s.heartbeat with watchdog := .fired } }.close
  | echo {interval : ℕ} (harmed : s.heartbeat.echo = .armed interval) :
      Step J s .echoFires { s with
        heartbeat := { s.heartbeat with echo := .fired }
        beats := s.beats ++ [{ interval := interval }] }
  | close : Step J s .close s.close
  | on {type_ : String} {handler : Handler} :
      Step J s (.on type_ handler) { s with handlers := s.handlers.register type_ handler }
  | off {type_ : String} : Step J s (.off type_) { s with handlers := s.handlers.off type_ }
  | others {e : Event J} {budget : ResourceBudget} {elsewhere : List Permit} :
      Step J s e { s with budget := budget, elsewhere := elsewhere }
  | receive {text : String} {s' : Session} (hdrive : s.drive = .reading)
      (h : ReceiveStep J s text s') : Step J s (.receive text) s'
  | streamEnds (hdrive : s.drive = .reading) : Step J s .streamEnds { s with drive := .leaving }
  | drive {s' : Session} (h : DriveStep s s') : Step J s .drive s'
  | shutdownDeadline (hdrive : s.drive = .awaitingWriter) :
      Step J s .shutdownDeadline { s with drive := .abortingWriter }
  | work {e : Event J} {i : ℕ} {w : Work} {s' : Session} (hw : s.works[i]? = some w)
      (h : WorkStep J s i w e s') : Step J s e s'
  | writer {move : WriterMove} {s' : Session} (h : WriterStep s move s') :
      Step J s (.writer move) s'

/-! ## Every step is one of these -/

variable {J : JsonText} {s s' : Session} {i : ℕ}

theorem exchangeStep_of_next {x : Exchange} (h : s.exchangeNext i x = some s') :
    ExchangeStep s i x s' := by
  unfold exchangeNext at h
  split at h
  · rename_i hpc
    split at h
    · cases h
      exact .tooLarge hpc (by omega)
    · have hsize : x.payload.utf8ByteSize + 15 ≤ s.limits.maxMessageBytes := by omega
      split at h <;> cases h
      · exact .granted hpc ‹_› hsize
      · exact .refused hpc ‹_› hsize
  · rename_i hpc
    split at h <;> cases h
    · exact .admitted hpc ‹_›
    · exact .overloaded hpc ‹_›
  · rename_i hpc
    split at h <;> rename_i hopen <;> cases h
    · exact .notOpen hpc hopen
    · exact .registered hpc (by simpa using hopen)
  · rename_i hpc
    cases h
    exact .enqueues hpc (enqueueStep s _ _)
  · rename_i hpc
    split at h <;> cases h
    · exact .settled hpc ‹_›
    · exact .orphaned hpc ‹_›
  · rename_i hpc
    split at h <;> cases h
    · exact .removed hpc ‹_›
    · exact .cleaned hpc ‹_›
  · cases h

theorem beatStep_of_next {b : Beat} (h : s.beatNext i b = some s') : BeatStep s i b s' := by
  unfold beatNext at h
  split at h
  · rename_i hpc
    split at h <;> rename_i hopen <;> cases h
    · exact .notOpen hpc hopen
    · exact .checked hpc (by simpa using hopen)
  · rename_i hpc
    cases h
    exact .arms hpc
  · rename_i hpc
    cases h
    exact .enqueues hpc (enqueueStep s _ _)
  · rename_i hpc
    cases h
    exact .closes hpc
  · rename_i hpc
    cases h
    exact .installs hpc
  · cases h

theorem driveStep_of_next (h : s.driveNext = some s') : DriveStep s s' := by
  unfold driveNext at h
  split at h
  · rename_i hpc
    split at h <;> cases h
    exact .requested hpc ‹_›
  · rename_i hpc; cases h; exact .settles hpc
  · cases h
  · rename_i hpc; cases h; exact .closes hpc
  · rename_i hpc; cases h; exact .aborts hpc
  · rename_i hpc
    split at h <;> cases h
    exact .joined hpc (List.all_eq_true.mp ‹_›)
  · rename_i hpc
    split at h <;> cases h
    exact .awaited hpc ‹_›
  · rename_i hpc; cases h; exact .aborted hpc
  · rename_i hpc; cases h; exact .finishOpen hpc
  · rename_i hpc; cases h; exact .finishTimers hpc
  · rename_i hpc; cases h; exact .drains hpc
  · rename_i hpc; cases h; exact .settledAll hpc
  · rename_i hpc; cases h; exact .finishSettle hpc
  · rename_i hpc; cases h; exact .finishFlag hpc
  · cases h

theorem writerStep_of_next {move : WriterMove} (h : s.writerNext move = some s') :
    WriterStep s move s' := by
  unfold writerNext at h
  split at h
  · rename_i hpc
    split at h <;> cases h
    · exact .stops hpc ‹_›
    · exact .polls hpc
  · rename_i hpc
    split at h <;> cases h
    · exact .takesControl hpc ‹_›
    · exact .noControl hpc ‹_›
  · rename_i hpc
    split at h <;> cases h
    · exact .takesData hpc ‹_›
    · exact .noData hpc ‹_›
  · rename_i hpc
    split at h <;> rename_i hopen <;> cases h
    · exact .discards hpc hopen
    · exact .sends hpc (by simpa using hopen)
  · rename_i hpc; cases h; exact .feeds hpc
  · rename_i hpc; cases h; exact .flushes hpc
  · rename_i hpc
    split at h <;> cases h
    exact .cancels hpc ‹_›
  · rename_i hpc; cases h; exact .fails hpc
  · rename_i hpc; cases h; exact .ends hpc
  · cases h

theorem receiveStep (J : JsonText) (s : Session) (text : String) :
    ReceiveStep J s text (s.handleIncoming J text) := by
  simp only [handleIncoming]
  split_ifs with hsize
  · exact .tooLarge hsize
  · replace hsize : text.utf8ByteSize ≤ s.limits.maxMessageBytes := by omega
    split
    · exact .invalid ‹_›
    · rename_i frame hparse
      cases frame with
      | heartbeat interval =>
        simp only [handleHeartbeat]
        split_ifs with hzero hawaiting
        · exact .ignored hsize hparse (.inl hzero)
        · exact .ignored hsize hparse (.inr hawaiting)
        · exact .heartbeat hsize hparse hzero (by simpa using hawaiting)
      | ack id payload =>
        simp only [handleAnswer]
        split
        · exact .answer hsize hparse (.ack id payload) ‹_›
        · exact .late hsize hparse (.ack id payload) ‹_›
      | nak id payload =>
        simp only [handleAnswer]
        split
        · exact .answer hsize hparse (.nak id payload) ‹_›
        · exact .late hsize hparse (.nak id payload) ‹_›
      | message id payload => exact .message hsize hparse

theorem workStep_of_next {w : Work} (h : s.workNext J i w = some s') :
    WorkStep J s i w (.work i) s' := by
  unfold workNext at h
  split at h
  · rename_i hpc
    split at h <;> cases h
    · exact .granted hpc ‹_›
    · exact .refused hpc ‹_›
  · rename_i hpc
    split at h <;> cases h
    · exact .admitted hpc ‹_›
    · exact .overloaded hpc ‹_›
  · rename_i hpc
    split at h
    · rename_i hparse
      cases h
      have hne : w.payload ≠ "" := by
        intro heq
        simp [heq] at hparse
      rw [if_neg hne] at hparse
      exact .answers (.invalidJson hpc hne hparse)
    · rename_i message hparse
      split at h
      · cases h
        exact .answers (.missingType hpc ‹_›)
      · rename_i type_ htype
        split at h <;> cases h
        · have hanswer : Answers J s i w (.work i) .unknownType (Frame.mkNak w.id none) :=
            .unknownType hpc ‹_›
          exact .answers hanswer
        · refine .spawned hpc (fun hne => ?_) htype ‹_›
          rwa [if_neg hne] at hparse
  · rename_i ending e hpc
    have hstep := enqueueStep s (.work i) e
    split at h <;> rename_i heq <;> rw [heq] at hstep <;> cases h
    · exact .writes hpc hstep
    · exact .unwritten hpc hstep
    · exact .written hpc hstep
  · rename_i hpc
    cases h
    exact .closes hpc
  · cases h

theorem workStarts_step {w : Work} {failure : Option String}
    (h : s.workStarts J i w failure = some s') : WorkStep J s i w (.workStarts i failure) s' := by
  unfold workStarts at h
  split at h
  · rename_i handler message hpc hhandler hmessage
    cases failure with
    | some detail =>
      cases h
      have hanswer : Answers J s i w (.workStarts i (some detail)) .badMessage _ :=
        .badMessage hpc
      exact .answers hanswer
    | none =>
      cases h
      exact .starts hpc hhandler hmessage
  · cases h

theorem workReturns_step {w : Work} {r : Returned J} (h : s.workReturns J i w r = some s') :
    WorkStep J s i w (.workReturns i r) s' := by
  unfold workReturns at h
  split at h
  · rename_i hpc
    split at h <;> rename_i hpayload <;> cases h
    · exact .returns hpc hpayload
    · have hanswer : Answers J s i w (.workReturns i r) .failed _ := .failed hpc hpayload
      exact .answers hanswer
  · cases h

theorem workTimesOut_step {w : Work} (h : s.workTimesOut J i w = some s') :
    WorkStep J s i w (.workTimesOut i) s' := by
  unfold workTimesOut at h
  split at h
  · rename_i hpc
    cases h
    have hanswer : Answers J s i w (.workTimesOut i) .timedOut _ := .timedOut hpc
    exact .answers hanswer
  · cases h

theorem workPanics_eq_some {w : Work} (h : s.workPanics i w = some s') :
    (w.pc = .spawned ∨ w.pc = .running) ∧ s' = s.finishWork i w .panicked := by
  unfold workPanics at h
  split at h
  · rename_i hpc
    cases h
    exact ⟨.inl hpc, rfl⟩
  · rename_i hpc
    cases h
    exact ⟨.inr hpc, rfl⟩
  · cases h

theorem workAborted_step {w : Work} (h : s.workAborted i w = some s') :
    WorkStep J s i w (.workAborted i) s' := by
  unfold workAborted at h
  split at h
  · rename_i hpc hdrive
    cases h
    exact .aborted (.inl hpc) hdrive
  · rename_i hpc hdrive
    cases h
    exact .aborted (.inr hpc) hdrive
  · cases h

theorem leaves_step {e : Event J} {x : Exchange} {o : Outcome} (hx : s.exchanges[i]? = some x)
    (ho : Leaves J i e o) (h : s.exchangeLeaves i x o = some s') : Step J s e s' := by
  unfold exchangeLeaves at h
  split at h
  · rename_i hpc
    cases h
    exact .leaves hx hpc ho
  · cases h

theorem call_eq_some {bytes : Vector UInt8 9} {payload : String} {message : Option Json}
    (h : s.call bytes payload message = some s') :
    (∀ x ∈ s.exchanges, x.id ≠ Frame.generateId bytes) ∧ s' = { s with
      exchanges := s.exchanges ++
        [⟨Frame.generateId bytes, payload, message, .start, .unregistered⟩] } := by
  unfold call at h
  split at h
  · rename_i hfresh
    cases h
    exact ⟨by simpa using hfresh, rfl⟩
  · cases h

/-- **Every step of the machine is one of these.** -/
theorem step_of_next {e : Event J} (h : (machine J).next s e = some s') : Step J s e s' := by
  replace h : s.next J e = some s' := h
  cases e with
  | send bytes message =>
    simp only [next] at h
    split at h
    · rename_i payload hserial
      obtain ⟨hfresh, rfl⟩ := call_eq_some h
      exact .sent hserial hfresh
    · cases h
      exact .unsendable
  | sendPayload bytes payload =>
    obtain ⟨hfresh, rfl⟩ := call_eq_some h
    exact .sentPayload hfresh
  | exchange i =>
    obtain ⟨x, hx, h⟩ := Option.bind_eq_some_iff.mp h
    exact .exchange hx (exchangeStep_of_next h)
  | deadline i =>
    obtain ⟨x, hx, h⟩ := Option.bind_eq_some_iff.mp h
    exact leaves_step hx .timedOut h
  | abandon i =>
    obtain ⟨x, hx, h⟩ := Option.bind_eq_some_iff.mp h
    exact leaves_step hx .abandoned h
  | initiateHeartbeat millis => cases h; exact .initiates
  | beat i =>
    obtain ⟨b, hb, h⟩ := Option.bind_eq_some_iff.mp h
    exact .beat hb (beatStep_of_next h)
  | sendRaw text => cases h; exact .sendRaw
  | raw i =>
    simp only [next] at h
    split at h <;> cases h
    rename_i e hraw
    exact .raw hraw (enqueueStep s (.raw i) e)
  | expectHeartbeat timeout =>
    cases h
    unfold expectHeartbeat
    split_ifs with hno
    · exact .unexpected
    · simp only [not_or, Bool.not_eq_false, not_not] at hno
      exact .expects hno.1 hno.2
  | watchdogFires =>
    simp only [next] at h
    split at h <;> cases h
    exact .watchdog ‹_›
  | echoFires =>
    simp only [next] at h
    split at h <;> cases h
    exact .echo ‹_›
  | close => cases h; exact .close
  | on type_ handler => cases h; exact .on
  | off type_ => cases h; exact .off
  | othersReserve resource bytes =>
    simp only [next] at h
    split at h <;> cases h <;> exact .others
  | othersRelease p =>
    simp only [next] at h
    split at h <;> cases h
    exact .others
  | receive text =>
    simp only [next] at h
    split at h <;> cases h
    exact .receive ‹_› (receiveStep J s text)
  | streamEnds =>
    simp only [next] at h
    split at h <;> cases h
    exact .streamEnds ‹_›
  | drive => exact .drive (driveStep_of_next h)
  | shutdownDeadline =>
    simp only [next] at h
    split at h <;> cases h
    exact .shutdownDeadline ‹_›
  | work i =>
    obtain ⟨w, hw, h⟩ := Option.bind_eq_some_iff.mp h
    exact .work hw (workStep_of_next h)
  | workStarts i failure =>
    obtain ⟨w, hw, h⟩ := Option.bind_eq_some_iff.mp h
    exact .work hw (workStarts_step h)
  | workReturns i r =>
    obtain ⟨w, hw, h⟩ := Option.bind_eq_some_iff.mp h
    exact .work hw (workReturns_step h)
  | workTimesOut i =>
    obtain ⟨w, hw, h⟩ := Option.bind_eq_some_iff.mp h
    exact .work hw (workTimesOut_step h)
  | workPanics i =>
    obtain ⟨w, hw, h⟩ := Option.bind_eq_some_iff.mp h
    obtain ⟨hpc, rfl⟩ := workPanics_eq_some h
    exact .work hw (.panicked hpc)
  | workAborted i =>
    obtain ⟨w, hw, h⟩ := Option.bind_eq_some_iff.mp h
    exact .work hw (workAborted_step h)
  | writer move => exact .writer (writerStep_of_next h)

end Session

end Vcmp
