import Vcmp.Resources.Budget
import Vcmp.Session.Payload
/-!
# The state of a session

One session with everything that runs on it: any number of `exchange`
calls, the read loop, the work on each incoming message, the writer task,
heartbeats and their timers, and calls of `close`, `send_raw`,
`expect_heartbeat` and the handler map. Each is a program counter, and a
step is one section between two points where another thread may come in:
a lock section, an access to an atomic, a channel operation.

Beside the state the session keeps histories that no step reads: the
texts received, the frames the queues accepted, which of them the writer
took and which it handed to the transport, and `marks`, what happened to
the pending map.
-/

namespace Vcmp

/-- Where a received frame arrived. -/
structure Arrival where
  session : ℕ
  frame : ℕ
  deriving DecidableEq, Repr

/-- A registered handler: which one, and whether it is given the `@type`. -/
structure Handler where
  name : ℕ
  stripType : Bool
  deriving DecidableEq, Repr

/-- The handlers by `@type`: at most one for each. -/
structure HandlerMap where
  entries : List (String × Handler)
  unique : (entries.map Prod.fst).Nodup

namespace HandlerMap

/-- `HandlerMap::new`. -/
def empty : HandlerMap := ⟨[], .nil⟩

/-- `HandlerMap::off`. -/
def off (handlers : HandlerMap) (type_ : String) : HandlerMap where
  entries := handlers.entries.filter (·.1 ≠ type_)
  unique := handlers.unique.sublist (List.filter_sublist.map _)

/-- `HandlerMap::register`, replacing a previous handler. -/
def register (handlers : HandlerMap) (type_ : String) (handler : Handler) : HandlerMap where
  entries := (type_, handler) :: (handlers.off type_).entries
  unique := by
    refine List.nodup_cons.mpr ⟨fun hmem => ?_, (handlers.off type_).unique⟩
    obtain ⟨p, hp, rfl⟩ := List.mem_map.mp hmem
    simpa using (List.mem_filter.mp hp).2

/-- `HandlerMap::resolve`. -/
def resolve (handlers : HandlerMap) (type_ : String) : Option Handler :=
  (handlers.entries.find? (·.1 = type_)).map Prod.snd

/-- The handlers registered one after another. -/
def ofList : List (String × Handler) → HandlerMap
  | [] => empty
  | (type_, handler) :: rest => (ofList rest).register type_ handler

variable {handlers : HandlerMap} {type_ key : String} {handler h : Handler}

/-- **What is resolved is what is registered.** -/
theorem resolve_eq_some_iff :
    handlers.resolve type_ = some handler ↔ (type_, handler) ∈ handlers.entries := by
  constructor
  · intro hresolve
    obtain ⟨⟨key, h⟩, hfound, rfl⟩ := Option.map_eq_some_iff.mp hresolve
    obtain rfl : key = type_ := by simpa using List.find?_some hfound
    exact List.mem_of_find?_eq_some hfound
  · intro hmem
    have hsome : (handlers.entries.find? (·.1 = type_)).isSome = true :=
      List.find?_isSome.mpr ⟨_, hmem, by simp⟩
    obtain ⟨⟨key, h⟩, hfound⟩ := Option.isSome_iff_exists.mp hsome
    obtain rfl : key = type_ := by simpa using List.find?_some hfound
    -- no other entry has the key
    have hsame := List.inj_on_of_nodup_map handlers.unique (List.mem_of_find?_eq_some hfound) hmem rfl
    rw [resolve, hfound, hsame]
    rfl

/-- A handler taken off is gone, and the others stay. -/
@[simp] theorem mem_off :
    (key, h) ∈ (handlers.off type_).entries ↔ key ≠ type_ ∧ (key, h) ∈ handlers.entries := by
  simp [off, and_comm]

/-- **A handler registered is there in the place of the one before**, and the others stay. -/
@[simp] theorem mem_register : (key, h) ∈ (handlers.register type_ handler).entries ↔
    (key = type_ ∧ h = handler) ∨ (key ≠ type_ ∧ (key, h) ∈ handlers.entries) := by
  rw [register, List.mem_cons, mem_off, Prod.mk.injEq]

end HandlerMap

/-- Per-session capacity. -/
structure SessionLimits where
  resources : ResourceLimits
  /-- Maximum complete frame, including prefix and id. -/
  maxMessageBytes : ℕ
  deriving DecidableEq, Repr

/-- The party a frame comes from, by its place in the session's lists. -/
inductive Origin where
  | exchange (i : ℕ)
  | work (i : ℕ)
  | beat (i : ℕ)
  | raw (i : ℕ)
  deriving DecidableEq, Repr

/-- A frame accepted by one of the queues. -/
structure Accepted where
  control : Bool
  text : String
  origin : Origin
  deriving DecidableEq, Repr

/-- A queued frame, by its position among the accepted ones, with the
permit it holds on both levels. -/
structure Outgoing where
  position : ℕ
  text : String
  permit : Permit
  deriving DecidableEq, Repr

/-! ## Program counters -/

/-- Where a call of `enqueue` is. -/
inductive EnqueuePc where
  /-- Before `open` and the size are checked. -/
  | check
  /-- Before the session's budget is asked. -/
  | asking
  /-- Granted by the session, before the shared budget is asked. -/
  | granted (p : Permit)
  /-- Granted by both, before `try_send`. -/
  | pushing (p : Permit)
  deriving DecidableEq, Repr

/-- A call of `enqueue`. -/
structure Enqueue where
  text : String
  control : Bool
  pc : EnqueuePc := .check
  deriving DecidableEq, Repr

/-- What a step of `enqueue` comes to. -/
inductive EnqueueResult where
  | goes (e : Enqueue)
  | fails (error : VcmpError)
  | accepted

/-- What the oneshot channel of an exchange carries, with the position of
the answer among the received texts. -/
inductive Settlement where
  | ack (payload : Option String) (arrival : Arrival) (position : ℕ)
  | nak (error : VcmpError) (position : ℕ)
  /-- The session was closed before the message was acknowledged. -/
  | closed

/-- The oneshot channel of an exchange, by where its sender is. -/
inductive Channel where
  | unregistered
  /-- In the pending map. -/
  | pending
  /-- Taken from the map, not used yet. -/
  | held
  | sent (r : Settlement)
  /-- Dropped without use. -/
  | gone

/-- How a call of `exchange` ends. -/
inductive Outcome where
  /-- It fails before it waits. -/
  | refused (error : VcmpError)
  | settled (r : Settlement)
  /-- The sender was dropped. -/
  | closed
  | timedOut
  /-- The future was dropped. -/
  | abandoned

/-- Where a call of `exchange` is. -/
inductive ExchangePc where
  /-- Before the size check and the session's budget. -/
  | start
  | granted (p : Permit)
  /-- Before the section that checks `open` and registers. -/
  | registering (p : Permit)
  | enqueuing (e : Enqueue)
  | awaiting
  /-- Before `PendingCleanup` is dropped. -/
  | cleaning (o : Outcome)
  | done (o : Outcome)

/-- A call of `exchange`. -/
structure Exchange where
  id : String
  payload : String
  /-- The value `send_value` was given; none for `send_payload`. -/
  message : Option Json
  pc : ExchangePc := .start
  channel : Channel := .unregistered

namespace Exchange

/-- Whether the receiver of the channel is still there. -/
def listens (x : Exchange) : Bool :=
  match x.pc with
  | .enqueuing _ | .awaiting => true
  | _ => false

/-- The exchange after its sender was used. -/
def deliver (x : Exchange) (r : Settlement) : Exchange :=
  { x with channel := if x.listens then .sent r else .gone }

/-- The exchange after a step of its `enqueue`. -/
def enqueued (x : Exchange) (r : EnqueueResult) : Exchange :=
  { x with pc := match r with
      | .goes e => .enqueuing e
      | .fails error => .cleaning (.refused error)
      | .accepted => .awaiting }

end Exchange

/-- How the work on an incoming message ends. -/
inductive Ending where
  | refused
  | invalidJson
  | missingType
  | unknownType
  | badMessage
  | ok
  | failed
  | timedOut
  | panicked
  | aborted
  deriving DecidableEq, Repr

/-- Where the work on an incoming message is. -/
inductive WorkPc where
  /-- Before the session's budget is asked. -/
  | asking
  | granted (p : Permit)
  /-- Admitted, before the payload is parsed and the handler resolved. -/
  | dispatching
  /-- Spawned, before the first poll. -/
  | spawned
  /-- In the handler's future. -/
  | running
  /-- In `write`. -/
  | answering (ending : Ending) (e : Enqueue)
  /-- The answer was refused, before `close`. -/
  | failing (ending : Ending)
  | done (ending : Ending)
  deriving DecidableEq, Repr

/-- The work on an incoming message, by the read loop and then by its task. -/
structure Work where
  id : String
  payload : String
  arrival : Arrival
  /-- Its place among the received texts. -/
  position : ℕ
  pc : WorkPc := .asking
  /-- The handler permit held on both levels. -/
  permit : Option Permit := none
  /-- The parsed message, once it is dispatched. -/
  message : Option Json := none
  /-- The handlers it was dispatched by. -/
  registry : HandlerMap := .empty
  handler : Option Handler := none
  /-- What the handler was invoked on. -/
  invoked : Option Json := none
  /-- The value of the handler's result, where it was acknowledged. -/
  returned : Option Json := none

namespace Work

/-- The work about to write an answer. -/
def answer (w : Work) (ending : Ending) (frame : Frame) : Work :=
  { w with pc := .answering ending ⟨frame.serialize, true, .check⟩ }

/-- Whether the work is over. -/
def isDone (w : Work) : Bool :=
  match w.pc with
  | .done _ => true
  | _ => false

end Work

/-- What a handler is invoked on. -/
def Handler.input (handler : Handler) (message : Json) : Json :=
  if handler.stripType then message.remove "@type" else message

/-- Where a call of `send_heartbeat` is. -/
inductive BeatPc where
  /-- Before `open` is checked. -/
  | start
  /-- Before the section that sets `awaiting`. -/
  | arming
  | sending (e : Enqueue)
  /-- The frame was refused, before `close`. -/
  | closing
  /-- The frame was accepted, before the section that installs the watchdog. -/
  | installing
  | done
  deriving DecidableEq, Repr

/-- A call of `send_heartbeat`. -/
structure Beat where
  interval : ℕ
  pc : BeatPc := .start
  deriving DecidableEq, Repr

/-- How long the watchdog of a heartbeat waits: `interval.saturating_mul(2)`. -/
def doubled (interval : ℕ) : ℕ := min (interval * 2) (u64Bound - 1)

/-- The beat after a step of its `enqueue`. -/
def Beat.enqueued (b : Beat) (r : EnqueueResult) : Beat :=
  { b with pc := match r with
      | .goes e => .sending e
      | .fails _ => .closing
      | .accepted => .installing }

/-- A call of `send_raw`. -/
inductive RawPc where
  | sending (e : Enqueue)
  | done (handed : Bool)
  deriving DecidableEq, Repr

/-- The call after a step of its `enqueue`. -/
def RawPc.enqueued : EnqueueResult → RawPc
  | .goes e => .sending e
  | .fails _ => .done false
  | .accepted => .done true

/-- Where the writer task is. -/
inductive WriterPc where
  /-- The select, polling the close signal. -/
  | pollClosing
  /-- The select, polling the control queue. -/
  | pollControl
  /-- The select, polling the data queue. -/
  | pollData
  /-- A frame was received, before `open` is checked. -/
  | taken (o : Outgoing)
  /-- In `send`; the sink holds the frame once it is fed. -/
  | sending (o : Outgoing) (fed : Bool)
  /-- Closing the sink, with what an interrupted write left. -/
  | closing (left : Option (Outgoing × Bool))
  | ended
  deriving DecidableEq, Repr

/-- The permits the writer holds beside the queues. -/
def WriterPc.held : WriterPc → List Permit
  | .taken o | .sending o _ | .closing (some (o, _)) => [o.permit]
  | _ => []

/-- An entry of the pending map. -/
structure PendingEntry where
  id : String
  exchange : ℕ
  permit : Permit
  deriving DecidableEq, Repr

/-- Where the task driving the session is. -/
inductive DrivePc where
  | reading
  /-- A pending sender was taken for an answer, before it is used. -/
  | settling (i : ℕ) (r : Settlement)
  /-- In `handle_message`, for the work `i`. -/
  | working (i : ℕ)
  /-- The stream was dropped, before `close`. -/
  | leaving
  /-- Before `abort_all`. -/
  | aborting
  /-- Joining the aborted tasks. -/
  | joining
  | awaitingWriter
  | abortingWriter
  | finishOpen
  | finishTimers
  | finishDrain
  /-- Settling the drained entries. -/
  | finishSettle (left : List PendingEntry)
  | finishFlag
  | finished

/-- The read loop goes on where it was in the work `i`. -/
def DrivePc.leaveWork (d : DrivePc) (i : ℕ) : DrivePc :=
  match d with
  | .working j => if j = i then .reading else d
  | _ => d

/-- A timer slot: the timer in it runs, or has fired. -/
inductive Timer where
  | absent
  | armed (interval : ℕ)
  | fired
  deriving DecidableEq, Repr

/-- `HeartbeatState`. -/
structure HeartbeatState where
  awaiting : Bool := true
  watchdog : Timer := .absent
  echo : Timer := .absent
  deriving DecidableEq, Repr

/-- What happened to the pending map. -/
inductive Mark where
  | registered (i : ℕ)
  /-- An answer for it was taken. -/
  | answered (i : ℕ)
  | drained
  /-- The call ended. -/
  | ended (i : ℕ)
  deriving DecidableEq, Repr

/-! ## The state -/

/-- **A session.** -/
structure Session where
  id : ℕ
  limits : SessionLimits
  handlers : HandlerMap
  /-- The session's own budget. -/
  own : ResourceBudget
  /-- The shared budget. -/
  budget : ResourceBudget
  /-- The permits of the shared budget that others hold. -/
  elsewhere : List Permit
  /-- The queues. -/
  data : List Outgoing := []
  control : List Outgoing := []
  /-- Whether the writer still holds their receivers. -/
  receivers : Bool := true
  writer : WriterPc := .pollClosing
  /-- Whether the writer's close signal was sent. -/
  signalled : Bool := false
  pending : List PendingEntry := []
  isOpen : Bool := true
  /-- Whether `closed()` resolves. -/
  closed : Bool := false
  closeRequested : Bool := false
  heartbeat : HeartbeatState := {}
  /-- The counters, 64 bits wide in the source and unbounded here: they differ
  once a session has taken that many frames. -/
  heartbeatsReceived : ℕ := 0
  ignoredFrames : ℕ := 0
  framesReceived : ℕ := 0
  drive : DrivePc := .reading
  exchanges : List Exchange := []
  works : List Work := []
  beats : List Beat := []
  raws : List RawPc := []
  /-- The texts taken from the stream. -/
  received : List String := []
  /-- The frames the queues accepted. -/
  accepted : List Accepted := []
  /-- The positions of those the writer took, and of those it fed to the sink. -/
  takenLog : List ℕ := []
  written : List ℕ := []
  marks : List Mark := []

end Vcmp
