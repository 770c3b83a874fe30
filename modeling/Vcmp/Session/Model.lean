import Vcmp.Common.Machine
import Vcmp.Session.State
/-!
# The session machine

Everything a session does, one section between two points where another
thread may come in at a time: a lock section, an access to an atomic, a
channel operation.

What code outside the session decides is in the label of the step: the
nine random bytes of an id, the outcome of a handler, the text that
arrives, and when a deadline passes or a timer fires. Time is not
modelled, so a deadline may pass at any moment. A timer is started in the
section that installs it.
-/

namespace Vcmp

namespace Session

/-! ## Operations shared by the parties -/

/-- `Session::close`. -/
def close (s : Session) : Session :=
  { s with isOpen := false, closeRequested := s.closeRequested || s.isOpen }

/-- `Session::diagnose`. -/
def diagnose (s : Session) : Session := { s with ignoredFrames := s.ignoredFrames + 1 }

/-- A pair of permits dropped. -/
def release (s : Session) (p : Permit) : Session :=
  { s with own := s.own.release p, budget := s.budget.release p }

/-- Pairs of permits dropped one after another. -/
def releaseAll (s : Session) (ps : List Permit) : Session :=
  { s with own := ps.foldl .release s.own, budget := ps.foldl .release s.budget }

/-- The kind of permit a frame needs. -/
def queueResource (control : Bool) : Resource := if control then .control else .data

/-- The capacity of a queue. -/
def capacity (s : Session) (control : Bool) : ℕ :=
  max 1 (if control then s.limits.resources.controlMessages else s.limits.resources.queuedMessages)

/-- The frames in a queue. -/
def queue (s : Session) (control : Bool) : List Outgoing := if control then s.control else s.data

/-- `try_send` into a queue that has room. -/
def push (s : Session) (origin : Origin) (e : Enqueue) (p : Permit) : Session :=
  let o : Outgoing := ⟨s.accepted.length, e.text, p⟩
  { s with
    data := if e.control then s.data else s.data ++ [o]
    control := if e.control then s.control ++ [o] else s.control
    accepted := s.accepted ++ [⟨e.control, e.text, origin⟩] }

/-- A step of `Session::enqueue`. -/
def enqueueNext (s : Session) (origin : Origin) (e : Enqueue) : Session × EnqueueResult :=
  match e.pc with
  | .check =>
    if s.isOpen = false then (s, .fails (.sessionNotOpen "The session is not open."))
    else if e.text.utf8ByteSize > s.limits.maxMessageBytes then
      (s, .fails (.new 413 "Message too large"))
    else (s, .goes { e with pc := .asking })
  | .asking =>
    match s.own.reserve (queueResource e.control) e.text.utf8ByteSize with
    | (some p, b) => ({ s with own := b }, .goes { e with pc := .granted p })
    | (none, b) => ({ s with own := b }, .fails .transportOverloaded)
  | .granted p =>
    match s.budget.reserve p.resource p.bytes with
    | (some _, b) => ({ s with budget := b }, .goes { e with pc := .pushing p })
    -- the session's permit is dropped on the way out
    | (none, b) => ({ s with own := s.own.release p, budget := b }, .fails .transportOverloaded)
  | .pushing p =>
    if s.receivers = false ∨ s.capacity e.control ≤ (s.queue e.control).length then
      (s.release p, .fails .transportOverloaded)
    else (s.push origin e p, .accepted)

/-! ## Exchanges -/

/-- The exchange `i` replaced. -/
def setExchange (s : Session) (i : ℕ) (x : Exchange) : Session :=
  { s with exchanges := s.exchanges.set i x }

/-- The sender of the exchange `i` used. -/
def deliver (s : Session) (i : ℕ) (r : Settlement) : Session :=
  { s with exchanges := s.exchanges.modify i (·.deliver r) }

/-- `take_pending`: the entry of an id removed, its permits dropped. -/
def removePending (s : Session) (entry : PendingEntry) : Session :=
  { s.release entry.permit with pending := s.pending.filter (·.id ≠ entry.id) }

/-- The sender of an entry is out of the map. -/
def holdSender (exchanges : List Exchange) (entry : PendingEntry) : List Exchange :=
  exchanges.modify entry.exchange fun x => { x with channel := .held }

/-- The entry of an id. -/
def findPending (s : Session) (id : String) : Option PendingEntry := s.pending.find? (·.id = id)

/-- The next step of a call of `exchange`. -/
def exchangeNext (s : Session) (i : ℕ) (x : Exchange) : Option Session :=
  match x.pc with
  | .start =>
    if x.payload.utf8ByteSize + 15 > s.limits.maxMessageBytes then
      some (s.setExchange i { x with pc := .done (.refused (.new 413 "Message too large")) })
    else
      match s.own.reserve .request 0 with
      | (some p, b) => some { s.setExchange i { x with pc := .granted p } with own := b }
      | (none, b) => some { s.setExchange i
          { x with pc := .done (.refused .transportOverloaded) } with own := b }
  | .granted p =>
    match s.budget.reserve p.resource p.bytes with
    | (some _, b) => some { s.setExchange i { x with pc := .registering p } with budget := b }
    | (none, b) => some { s.setExchange i
        { x with pc := .done (.refused .transportOverloaded) } with
        own := s.own.release p, budget := b }
  | .registering p =>
    if s.isOpen = false then
      some ((s.setExchange i { x with pc := .done (.refused
        (.sessionNotOpen "Cannot send message: the WebSocket is not open.")) }).release p)
    else
      some { s.setExchange i { x with
          pc := .enqueuing ⟨(Frame.message x.id x.payload).serialize, false, .check⟩
          channel := .pending } with
        pending := ⟨x.id, i, p⟩ :: s.pending, marks := .registered i :: s.marks }
  | .enqueuing e =>
    let (s, r) := s.enqueueNext (.exchange i) e
    some (s.setExchange i (x.enqueued r))
  | .awaiting =>
    match x.channel with
    | .sent r => some (s.setExchange i { x with pc := .cleaning (.settled r) })
    | .gone => some (s.setExchange i { x with pc := .cleaning .closed })
    | _ => none
  | .cleaning o =>
    match s.findPending x.id with
    | some entry => some { (s.removePending entry).setExchange i
          { x with pc := .done o, channel := .gone } with
        marks := .ended i :: s.marks }
    | none => some { s.setExchange i { x with pc := .done o } with marks := .ended i :: s.marks }
  | .done _ => none

/-- The deadline passes, or the future is dropped, while the call waits. -/
def exchangeLeaves (s : Session) (i : ℕ) (x : Exchange) (o : Outcome) : Option Session :=
  match x.pc with
  | .awaiting => some (s.setExchange i { x with pc := .cleaning o })
  | _ => none

/-- A call of `exchange`, with an id no call before it has. -/
def call (s : Session) (bytes : Vector UInt8 9) (payload : String) (message : Option Json) :
    Option Session :=
  if s.exchanges.all fun x => x.id ≠ Frame.generateId bytes then
    some { s with exchanges := s.exchanges ++ [⟨Frame.generateId bytes, payload, message, .start,
      .unregistered⟩] }
  else none

/-! ## Incoming messages -/

/-- The work `i` replaced. -/
def setWork (s : Session) (i : ℕ) (w : Work) : Session := { s with works := s.works.set i w }

/-- The work over, its permits dropped; the read loop goes on where it was in it. -/
def finishWork (s : Session) (i : ℕ) (w : Work) (ending : Ending) : Session :=
  { (s.setWork i { w with pc := .done ending, permit := none }).releaseAll w.permit.toList with
    drive := s.drive.leaveWork i }

section

variable (J : JsonText)

/-- The next step of the work on a message, up to the handler's future
and behind it. -/
def workNext (s : Session) (i : ℕ) (w : Work) : Option Session :=
  match w.pc with
  | .asking =>
    match s.own.reserve .handler w.payload.utf8ByteSize with
    | (some p, b) => some { s.setWork i { w with pc := .granted p } with own := b }
    | (none, b) => some { s.setWork i
        (w.answer .refused (nakFrame J w.id .transportOverloaded)) with own := b }
  | .granted p =>
    match s.budget.reserve p.resource p.bytes with
    | (some _, b) => some { s.setWork i { w with pc := .dispatching, permit := some p } with
        budget := b }
    | (none, b) => some { s.setWork i
        (w.answer .refused (nakFrame J w.id .transportOverloaded)) with
        own := s.own.release p, budget := b }
  | .dispatching =>
    match if w.payload = "" then some (.obj []) else J.ofText w.payload with
    | none => some (s.setWork i (w.answer .invalidJson (nakFrame J w.id
        ((VcmpError.badRequest "Invalid message").withDetail
          "The message payload could not be parsed.")))).diagnose
    | some message =>
      match messageType message with
      | none => some (s.setWork i (w.answer .missingType (nakFrame J w.id
          ((VcmpError.badRequest "Invalid message").withDetail
            "The message does not specify a type.")))).diagnose
      | some type_ =>
        match s.handlers.resolve type_ with
        | none => some (s.setWork i (w.answer .unknownType (Frame.mkNak w.id none)))
        | some handler => some { s.setWork i { w with
            pc := .spawned, message := some message, registry := s.handlers
            handler := some handler } with
            drive := s.drive.leaveWork i }
  | .answering ending e =>
    match s.enqueueNext (.work i) e with
    | (s, .goes e) => some (s.setWork i { w with pc := .answering ending e })
    | (s, .fails _) => some (s.setWork i { w with pc := .failing ending })
    | (s, .accepted) => some (s.finishWork i w ending)
  | .failing ending => some (s.close.finishWork i w ending)
  | _ => none

/-- The task is polled first: the message is deserialized, or not, and the
handler invoked on it. -/
def workStarts (s : Session) (i : ℕ) (w : Work) (failure : Option String) : Option Session :=
  match w.pc, w.handler, w.message with
  | .spawned, some handler, some message =>
    match failure with
    | some detail => some (s.setWork i (w.answer .badMessage (nakFrame J w.id
        ((VcmpError.badRequest "Invalid message").withDetail
          ("The message could not be deserialized: " ++ detail)))))
    | none => some (s.setWork i { w with
        pc := .running, invoked := some (handler.input message) })
  | _, _, _ => none

/-- The handler's future resolves. -/
def workReturns (s : Session) (i : ℕ) (w : Work) (r : Returned J) : Option Session :=
  match w.pc with
  | .running =>
    match handlerPayload s.limits.maxMessageBytes r with
    | .ok payload => some (s.setWork i
        { w.answer .ok (Frame.mkAck w.id payload) with returned := r.value })
    | .error error => some (s.setWork i (w.answer .failed (nakFrame J w.id error)))
  | _ => none

/-- The handler's deadline passes. -/
def workTimesOut (s : Session) (i : ℕ) (w : Work) : Option Session :=
  match w.pc with
  | .running => some (s.setWork i
      (w.answer .timedOut (nakFrame J w.id (.new 504 "Handler timed out"))))
  | _ => none

/-- The task's future is dropped by a panic in it. -/
def workPanics (s : Session) (i : ℕ) (w : Work) : Option Session :=
  match w.pc with
  | .spawned | .running => some (s.finishWork i w .panicked)
  | _ => none

/-- The task's future is dropped by `abort_all`. -/
def workAborted (s : Session) (i : ℕ) (w : Work) : Option Session :=
  match w.pc, s.drive with
  | .spawned, .joining | .running, .joining => some (s.finishWork i w .aborted)
  | _, _ => none

/-! ## Heartbeats -/

/-- The beat `i` replaced. -/
def setBeat (s : Session) (i : ℕ) (b : Beat) : Session := { s with beats := s.beats.set i b }

/-- The next step of a call of `send_heartbeat`. -/
def beatNext (s : Session) (i : ℕ) (b : Beat) : Option Session :=
  match b.pc with
  | .start =>
    if s.isOpen = false then some (s.setBeat i { b with pc := .done })
    else some (s.setBeat i { b with pc := .arming })
  | .arming => some { s.setBeat i { b with
      pc := .sending ⟨(Frame.heartbeat b.interval).serialize, true, .check⟩ } with
      heartbeat := { s.heartbeat with awaiting := true } }
  | .sending e =>
    let (s, r) := s.enqueueNext (.beat i) e
    some (s.setBeat i (b.enqueued r))
  | .closing => some (s.setBeat i { b with pc := .done }).close
  -- neither `awaiting` nor the close is looked at again here
  | .installing => some { s.setBeat i { b with pc := .done } with
      heartbeat := { s.heartbeat with watchdog := .armed (doubled b.interval) } }
  | .done => none

/-- `Session::handle_heartbeat`. -/
def handleHeartbeat (s : Session) (interval : ℕ) : Session :=
  if interval = 0 then s.diagnose
  else if s.heartbeat.awaiting = false then s.diagnose
  else { s with
    heartbeat := ⟨false, .absent, .armed interval⟩
    heartbeatsReceived := s.heartbeatsReceived + 1 }

/-- `Session::expect_heartbeat`. -/
def expectHeartbeat (s : Session) (timeout : ℕ) : Session :=
  if s.isOpen = false ∨ s.heartbeatsReceived ≠ 0 then s
  else { s with heartbeat := { s.heartbeat with watchdog := .armed timeout } }

/-! ## The read loop -/

/-- `handle_ack` and `handle_nak` up to the use of the sender. -/
def handleAnswer (s : Session) (id : String) (r : Settlement) : Session :=
  match s.findPending id with
  | some entry => { s.removePending entry with
      exchanges := holdSender s.exchanges entry
      drive := .settling entry.exchange r, marks := .answered entry.exchange :: s.marks }
  | none => s.diagnose

/-- `handle_incoming`, up to the first step of the work on a message. -/
def handleIncoming (s : Session) (raw : String) : Session :=
  let position := s.received.length
  let s := { s with received := s.received ++ [raw] }
  if raw.utf8ByteSize > s.limits.maxMessageBytes then s.close
  else
    match Frame.parse raw with
    | .error _ => s.diagnose
    | .ok frame =>
      let s := { s with framesReceived := s.framesReceived + 1 }
      let arrival : Arrival := ⟨s.id, s.framesReceived⟩
      match frame with
      | .heartbeat interval => s.handleHeartbeat interval
      | .ack id payload => s.handleAnswer id (.ack payload arrival position)
      | .nak id payload => s.handleAnswer id (.nak (readNak J payload) position)
      | .message id payload => { s with
          works := s.works ++
            [{ id := id, payload := payload, arrival := arrival, position := position }]
          drive := .working s.works.length }

end

/-- The writer task gone: the sink dropped, the queues dropped with their
receivers, and every permit with them. -/
def dropWriter (s : Session) : Session :=
  { s.releaseAll (s.writer.held ++ (s.control ++ s.data).map Outgoing.permit) with
    writer := .ended, receivers := false, control := [], data := [] }

/-- The next step of the task driving the session. -/
def driveNext (s : Session) : Option Session :=
  match s.drive with
  | .reading =>
    if s.closeRequested then some { s with closeRequested := false, drive := .leaving } else none
  | .settling i r => some { s.deliver i r with drive := .reading }
  | .working _ => none
  | .leaving => some { s.close with drive := .aborting }
  | .aborting => some { s with drive := .joining }
  | .joining =>
    if s.works.all Work.isDone then some { s with signalled := true, drive := .awaitingWriter }
    else none
  | .awaitingWriter => if s.writer = .ended then some { s with drive := .finishOpen } else none
  | .abortingWriter => some { s.dropWriter with drive := .finishOpen }
  | .finishOpen => some { s with isOpen := false, drive := .finishTimers }
  | .finishTimers => some { s with
      heartbeat := { s.heartbeat with watchdog := .absent, echo := .absent }
      drive := .finishDrain }
  | .finishDrain => some { s with
      pending := [], drive := .finishSettle s.pending, marks := .drained :: s.marks
      exchanges := s.pending.foldl holdSender s.exchanges }
  | .finishSettle [] => some { s with drive := .finishFlag }
  | .finishSettle (entry :: left) =>
    some { (s.deliver entry.exchange .closed).release entry.permit with
      drive := .finishSettle left }
  | .finishFlag => some { s with closed := true, drive := .finished }
  | .finished => none

/-! ## The writer -/

/-- What the writer task does next. -/
inductive WriterMove where
  /-- It polls a branch of the select, or checks `open`. -/
  | steps
  /-- The sink takes the frame. -/
  | feeds
  /-- The write completes. -/
  | flushes
  /-- The close signal is selected. -/
  | cancels
  /-- The write fails or times out. -/
  | fails
  /-- The sink is closed, or its closing timed out. -/
  | ends
  deriving DecidableEq, Repr

/-- A step of the writer task. -/
def writerNext (s : Session) (move : WriterMove) : Option Session :=
  match move, s.writer with
  | .steps, .pollClosing =>
    if s.signalled then some { s with writer := .closing none }
    else some { s with writer := .pollControl }
  | .steps, .pollControl =>
    match s.control with
    | o :: rest => some { s with
        control := rest, writer := .taken o, takenLog := s.takenLog ++ [o.position] }
    | [] => some { s with writer := .pollData }
  | .steps, .pollData =>
    match s.data with
    | o :: rest => some { s with
        data := rest, writer := .taken o, takenLog := s.takenLog ++ [o.position] }
    | [] => some { s with writer := .pollClosing }
  | .steps, .taken o =>
    if s.isOpen = false then some { s.release o.permit with writer := .closing none }
    else some { s with writer := .sending o false }
  | .feeds, .sending o false =>
    some { s with writer := .sending o true, written := s.written ++ [o.position] }
  | .flushes, .sending o true => some { s.release o.permit with writer := .pollClosing }
  | .cancels, .sending o fed =>
    if s.signalled then some { s with writer := .closing (some (o, fed)) } else none
  | .fails, .sending o fed => some { s.close with writer := .closing (some (o, fed)) }
  | .ends, .closing _ => some s.dropWriter
  | _, _ => none

/-! ## The machine -/

/-- One step of one party. -/
inductive Event (J : JsonText) where
  /-- `send_value`, and all that build on it. -/
  | send (bytes : Vector UInt8 9) (message : Output J)
  | sendPayload (bytes : Vector UInt8 9) (payload : String)
  | exchange (i : ℕ)
  | deadline (i : ℕ)
  | abandon (i : ℕ)
  | initiateHeartbeat (millis : ℕ)
  | beat (i : ℕ)
  | sendRaw (text : String)
  | raw (i : ℕ)
  | expectHeartbeat (timeout : ℕ)
  | watchdogFires
  | echoFires
  | close
  | on (type_ : String) (handler : Handler)
  | off (type_ : String)
  /-- Others take and drop permits of the shared budget. -/
  | othersReserve (resource : Resource) (bytes : ℕ)
  | othersRelease (p : Permit)
  | receive (text : String)
  | streamEnds
  | drive
  /-- The shutdown deadline passes. -/
  | shutdownDeadline
  | work (i : ℕ)
  | workStarts (i : ℕ) (failure : Option String)
  | workReturns (i : ℕ) (r : Returned J)
  | workTimesOut (i : ℕ)
  | workPanics (i : ℕ)
  | workAborted (i : ℕ)
  | writer (move : WriterMove)

section

variable (J : JsonText)

/-- **The step of one party.** -/
def next (s : Session) : Event J → Option Session
  | .send bytes message =>
    match serializeBounded message (s.limits.maxMessageBytes - 15) with
    | .ok payload => s.call bytes payload message.value
    | .error _ => some s
  | .sendPayload bytes payload => s.call bytes payload none
  | .exchange i => s.exchanges[i]?.bind fun x => s.exchangeNext i x
  | .deadline i => s.exchanges[i]?.bind fun x => s.exchangeLeaves i x .timedOut
  | .abandon i => s.exchanges[i]?.bind fun x => s.exchangeLeaves i x .abandoned
  | .initiateHeartbeat millis =>
    some { s with beats := s.beats ++ [{ interval := min millis (u64Bound - 1) }] }
  | .beat i => s.beats[i]?.bind fun b => s.beatNext i b
  | .sendRaw text =>
    some { s with
      raws := s.raws ++ [.sending ⟨text, !"MSG".toList.isPrefixOf text.toList, .check⟩] }
  | .raw i =>
    match s.raws[i]? with
    | some (.sending e) =>
      let (s, r) := s.enqueueNext (.raw i) e
      some { s with raws := s.raws.set i (.enqueued r) }
    | _ => none
  | .expectHeartbeat timeout => some (s.expectHeartbeat timeout)
  -- the watchdog in the slot; its sleep, wake and abort are apart in `Session/Watchdog.lean`
  | .watchdogFires =>
    match s.heartbeat.watchdog with
    | .armed _ => some { s with heartbeat := { s.heartbeat with watchdog := .fired } }.close
    | _ => none
  | .echoFires =>
    match s.heartbeat.echo with
    | .armed interval => some { s with
        heartbeat := { s.heartbeat with echo := .fired }
        beats := s.beats ++ [{ interval := interval }] }
    | _ => none
  | .close => some s.close
  | .on type_ handler => some { s with handlers := s.handlers.register type_ handler }
  | .off type_ => some { s with handlers := s.handlers.off type_ }
  | .othersReserve resource bytes =>
    match s.budget.reserve resource bytes with
    | (some p, b) => some { s with budget := b, elsewhere := p :: s.elsewhere }
    | (none, b) => some { s with budget := b }
  | .othersRelease p =>
    if p ∈ s.elsewhere then
      some { s with budget := s.budget.release p, elsewhere := s.elsewhere.erase p }
    else none
  | .receive text =>
    match s.drive with
    | .reading => some (s.handleIncoming J text)
    | _ => none
  | .streamEnds =>
    match s.drive with
    | .reading => some { s with drive := .leaving }
    | _ => none
  | .drive => s.driveNext
  | .shutdownDeadline =>
    match s.drive with
    | .awaitingWriter => some { s with drive := .abortingWriter }
    | _ => none
  | .work i => s.works[i]?.bind fun w => s.workNext J i w
  | .workStarts i failure => s.works[i]?.bind fun w => s.workStarts J i w failure
  | .workReturns i r => s.works[i]?.bind fun w => s.workReturns J i w r
  | .workTimesOut i => s.works[i]?.bind fun w => s.workTimesOut J i w
  | .workPanics i => s.works[i]?.bind fun w => s.workPanics i w
  | .workAborted i => s.works[i]?.bind fun w => s.workAborted i w
  | .writer move => s.writerNext move

/-- `spawn_admitted`: a session over a shared budget in any state. -/
def spawn (id : ℕ) (limits : SessionLimits) (handlers : HandlerMap) (budget : ResourceBudget)
    (elsewhere : List Permit) : Session where
  id := id
  limits := limits
  handlers := handlers
  own := .new limits.resources
  budget := budget
  elsewhere := elsewhere

/-- **The session machine**: any limits, handlers and shared budget. -/
def machine : Machine Session (Event J) where
  init s := ∃ id limits handlers budget elsewhere, s = spawn id limits handlers budget elsewhere
  next s e := s.next J e

end

/-! ## A small session -/

/-- Room for two of a kind, and for frames of 64 bytes. -/
def smallLimits : SessionLimits := ⟨⟨1, 2, 100, 2, 100, 2, 2, 100⟩, 64⟩

/-- A session that runs are evaluated on. -/
def small (handlers : List (String × Handler)) : Session :=
  spawn 1 smallLimits (.ofList handlers) (.new smallLimits.resources) []

theorem init_small (J : JsonText) (handlers : List (String × Handler)) :
    (machine J).init (small handlers) :=
  ⟨1, smallLimits, .ofList handlers, .new smallLimits.resources, [], rfl⟩

/-- Nine random bytes. -/
def zeroBytes : Vector UInt8 9 := Vector.replicate 9 0

end Session

end Vcmp
