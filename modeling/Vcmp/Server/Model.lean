import Vcmp.Common.Machine
import Vcmp.Common.Tally
/-!
# The server

The endpoints of a server, the tasks of its connections, the accept loop
that spawns the bare ones and joins them, the calls of `close_sessions`
and the one `stop` of the listener. Everything that another task can see
happen is a step of its own: the read of `stopped`, the spawning of a
session and its insertion, the release of an accepted upgrade, each
endpoint that `close_sessions` waits for and collects.

A connection that axum accepted runs in a task of its own that nobody
joins, so it is told apart from a bare one by `upgrade`; behind the
insertion of its session both do the same.

The server has just been bound. A timer that matters here, of a
handshake, a hook or a `stop`, may fire whenever its owner waits.
-/

namespace Vcmp

/-- **An endpoint**: its accepted upgrades and its connected sessions. -/
structure Endpoint where
  pendingUpgrades : ℕ := 0
  sessions : List ℕ := []
  deriving DecidableEq, Repr

/-- A session of the server's, with the task that spawned it. -/
structure ServedSession where
  endpoint : ℕ
  task : ℕ
  isOpen : Bool := true
  /-- Whether `closed()` resolves. -/
  closed : Bool := false
  deriving DecidableEq, Repr

/-- **Where the task of a connection is**, with its endpoint and session. -/
inductive TaskPc where
  /-- Awaiting `registered`. -/
  | gated
  /-- In the handshake, before the request was matched and behind it. -/
  | handshaking
  | responding (i : ℕ)
  /-- Before `stopped` is read. -/
  | checking (i : ℕ)
  /-- In `begin_upgrade`, before the counter is raised. -/
  | reserved (i : ℕ)
  /-- Awaiting the HTTP upgrade. -/
  | upgrading (i : ℕ)
  /-- Before the session is spawned, and before it is inserted. -/
  | starting (i : ℕ)
  | inserting (i c : ℕ)
  /-- Before the `PendingUpgrade` is dropped. -/
  | releasing (i c : ℕ)
  /-- In `serve_session`, before the `on_connected` hook and in it. -/
  | preparing (i c : ℕ)
  | hooking (i c : ℕ)
  /-- Awaiting the session's close. -/
  | serving (i c : ℕ)
  | removing (i c : ℕ)
  /-- Before the `on_disconnected` hook and in it. -/
  | deciding (i c : ℕ)
  | notifying (i c : ℕ)
  /-- Dropping `SessionCleanup`: before it closes, and before it removes. -/
  | cleaning (i c : ℕ)
  | unlisting (i c : ℕ)
  | ended
  deriving DecidableEq, Repr

namespace TaskPc

def endpoint : TaskPc → Option ℕ
  | .gated | .handshaking | .ended => none
  | .responding i | .checking i | .reserved i | .upgrading i | .starting i => some i
  | .inserting i _ | .releasing i _ | .preparing i _ | .hooking i _ | .serving i _
  | .removing i _ | .deciding i _ | .notifying i _ | .cleaning i _ | .unlisting i _ => some i

def session : TaskPc → Option ℕ
  | .inserting _ c | .releasing _ c | .preparing _ c | .hooking _ c | .serving _ c
  | .removing _ c | .deciding _ c | .notifying _ c | .cleaning _ c | .unlisting _ c => some c
  | _ => none

/-- The endpoint whose `PendingUpgrade` the task of an upgrade holds. -/
def pending : TaskPc → Option ℕ
  | .upgrading i | .starting i | .inserting i _ | .releasing i _ => some i
  | _ => none

/-- In a hook of the application. -/
def inHook : TaskPc → Bool
  | .hooking _ _ | .notifying _ _ => true
  | _ => false

/-- The await points, where an abort takes effect. -/
def awaits : TaskPc → Bool
  | .gated | .handshaking | .responding _ | .hooking _ _ | .serving _ _ | .notifying _ _ => true
  | _ => false

/-- Where an unwinding task goes: with a session to clean up, or to its end. -/
def unwound : TaskPc → TaskPc
  | .preparing i c | .hooking i c | .serving i c | .removing i c | .deciding i c
  | .notifying i c => .cleaning i c
  | _ => .ended

end TaskPc

/-- The task of a connection. -/
structure ConnectionTask where
  /-- Spawned by `on_upgrade` and not by the accept loop. -/
  upgrade : Bool
  pc : TaskPc
  /-- Whether `ready` was sent. -/
  ready : Bool := false
  aborted : Bool := false
  /-- Whether the accept loop has joined it. -/
  joined : Bool := false
  deriving DecidableEq, Repr

namespace ConnectionTask

/-- The endpoint whose `PendingUpgrade` it holds. -/
def pending (t : ConnectionTask) : Option ℕ := if t.upgrade then t.pc.pending else none

end ConnectionTask

/-- **Where the accept loop is.** -/
inductive AcceptPc where
  /-- At the `select!`. -/
  | selecting
  /-- Before the spawned task is entered, and before it is told. -/
  | entering (k : ℕ)
  | readying (k : ℕ)
  /-- Before the joined task is taken out. -/
  | joined (k : ℕ)
  /-- Sleeping behind an accept error. -/
  | sleeping
  /-- Behind the loop: before the listener is dropped, and before that is told. -/
  | dropping
  | announcing
  /-- Joining what is left. -/
  | draining
  | drained (k : ℕ)
  | ended
  deriving DecidableEq, Repr

namespace AcceptPc

/-- Suspended at an await point. -/
def suspended : AcceptPc → Bool
  | .selecting | .sleeping | .draining => true
  | _ => false

/-- The task that was spawned and is not entered yet. -/
def fresh : AcceptPc → Option ℕ
  | .entering k => some k
  | _ => none

/-- The task that was joined and is entered still. -/
def recording : AcceptPc → Option ℕ
  | .joined k | .drained k => some k
  | _ => none

end AcceptPc

/-- What a stopping hook can see of the accept loop. -/
structure ConnectionTasks where
  accepting : Bool := true
  tasks : List ℕ := []
  deriving DecidableEq, Repr

namespace ConnectionTasks

def finished (c : ConnectionTasks) (k : ℕ) : ConnectionTasks :=
  { c with tasks := c.tasks.filter (fun j => j ≠ k) }

def finishedExcept (c : ConnectionTasks) (caller : ℕ) : Bool :=
  !c.accepting && c.tasks.all (fun k => k = caller)

end ConnectionTasks

/-- **Where a `close_sessions` call is.** -/
inductive ClosingPc where
  /-- Before the endpoints are listed. -/
  | listing
  /-- Waiting for the pending upgrades of the endpoint `i`, of `n`. -/
  | waiting (n i : ℕ)
  /-- Collecting the sessions of the endpoint `i`, of `n`. -/
  | collecting (n i : ℕ) (sessions : List ℕ)
  | closing (sessions left : List ℕ)
  | awaiting (sessions left : List ℕ)
  | returned (sessions : List ℕ)
  /-- Its future was dropped. -/
  | dropped
  deriving DecidableEq, Repr

/-- Where a `stop` is. -/
inductive StopPc where
  /-- Before the caller is looked up. -/
  | filtering
  /-- Before `stopped` is set. -/
  | storing
  /-- Before the accept loop is told. -/
  | sending
  /-- In `close_sessions`. -/
  | closing
  /-- Waiting, with the deadline. -/
  | waiting
  /-- Waiting for what was aborted. -/
  | reaping
  | returned
  | dropped
  deriving DecidableEq, Repr

/-- A `stop` of the listener. -/
structure StopCall where
  /-- The task that awaits it in a hook, if one does. -/
  awaiter : Option ℕ
  pc : StopPc := .filtering
  /-- The connection task of this listener that it found itself in. -/
  caller : Option ℕ := none
  /-- Its `close_sessions` call. -/
  call : Option ℕ := none
  deriving DecidableEq, Repr

/-- **The server.** -/
structure VcmpServer where
  stopped : Bool := false
  endpoints : List Endpoint := []
  sessions : List ServedSession := []
  tasks : List ConnectionTask := []
  closings : List ClosingPc := []
  /-- Whether the listener is there. -/
  listener : Bool := true
  accept : AcceptPc := .selecting
  /-- Whether the accept loop was told to stop, and whether it was aborted. -/
  stopSent : Bool := false
  acceptAborted : Bool := false
  connections : ConnectionTasks := {}
  /-- The one `stop` that the handle allows. -/
  stop : Option StopCall := none
  deriving DecidableEq, Repr

namespace VcmpServer

/-- What the task of a connection does next. -/
inductive TaskMove where
  /-- What it does without waiting for anything. -/
  | goes
  /-- The request is matched with an endpoint. -/
  | matched (i : ℕ)
  /-- The handshake or the HTTP upgrade succeeds. -/
  | succeeds
  /-- It fails or times out. -/
  | fails
  /-- The `on_connected` hook is there or not, and admitted or not. -/
  | prepare (hook : Bool) (admitted : Bool)
  /-- The hook completes or times out, or its session has closed. -/
  | hookEnds
  /-- `session.closed()` resolves. -/
  | closedSeen
  /-- The `on_disconnected` hook is there and admitted, or not. -/
  | decide (hook : Bool)
  | aborts
  | panics
  deriving DecidableEq, Repr

/-- What the accept loop does next. -/
inductive AcceptMove where
  /-- What it does without waiting for anything. -/
  | goes
  | stopSeen
  /-- A connection is accepted and admitted. -/
  | accepts
  | errs
  | wakes
  /-- A task that has ended is joined. -/
  | joins (k : ℕ)
  /-- No task is left to join. -/
  | drains
  | aborts
  deriving DecidableEq, Repr

/-- One step of one party. -/
inductive Event where
  /-- `endpoint()` adds an endpoint. -/
  | endpoint
  | accept (move : AcceptMove)
  /-- `on_upgrade` of the endpoint `i`, admitted or not. -/
  | onUpgrade (i : ℕ) (admitted : Bool)
  | task (k : ℕ) (move : TaskMove)
  | closeSessions
  | closing (q : ℕ)
  /-- `stop`, awaited in a hook of the task or elsewhere. -/
  | stop (awaiter : Option ℕ)
  | stopGoes
  /-- Its deadline passes. -/
  | stopDeadline
  /-- Anything closes a session. -/
  | close (c : ℕ)
  /-- A closed session's `closed()` resolves. -/
  | finish (c : ℕ)
  deriving DecidableEq, Repr

section Updates

variable (s : VcmpServer)

def setTask (k : ℕ) (t : ConnectionTask) : VcmpServer := { s with tasks := s.tasks.set k t }

def closeSession (c : ℕ) : VcmpServer :=
  { s with sessions := s.sessions.modify c fun x => { x with isOpen := false } }

/-- The counter of the endpoint `i` raised: a `PendingUpgrade` is there. -/
def beginUpgrade (i : ℕ) : VcmpServer :=
  { s with endpoints := s.endpoints.modify i fun p =>
      { p with pendingUpgrades := p.pendingUpgrades + 1 } }

/-- The `PendingUpgrade` of a task dropped, where it holds one. -/
def dropPending (i : Option ℕ) : VcmpServer :=
  match i with
  | some i => { s with endpoints := s.endpoints.modify i fun p =>
      { p with pendingUpgrades := p.pendingUpgrades - 1 } }
  | none => s

/-- The session inserted into its endpoint's. -/
def insert (i c : ℕ) : VcmpServer :=
  { s with endpoints := s.endpoints.modify i fun p => { p with sessions := p.sessions ++ [c] } }

/-- The session removed from its endpoint's. -/
def remove (i c : ℕ) : VcmpServer :=
  { s with endpoints := s.endpoints.modify i fun p =>
      { p with sessions := p.sessions.filter (fun d => d ≠ c) } }

/-- The `close_sessions` future dropped. -/
def dropClosing (q : Option ℕ) : VcmpServer :=
  match q with
  | some q => { s with closings := s.closings.set q .dropped }
  | none => s

/-- The hook of the task `k` over, and the `stop` it was awaiting dropped. -/
def leaveHook (k : ℕ) : VcmpServer :=
  match s.stop with
  | some c =>
    if c.awaiter = some k ∧ c.pc ≠ .returned then
      { s.dropClosing c.call with stop := some { c with pc := .dropped } }
    else s
  | none => s

/-- The tasks that a check selects told to abort. -/
def abortAll (p : ℕ → ConnectionTask → Bool) : VcmpServer :=
  { s with tasks := s.tasks.mapIdx fun k t => if p k t then { t with aborted := true } else t }

end Updates

/-- A step of the task `k`. -/
def taskNext (s : VcmpServer) (k : ℕ) (t : ConnectionTask) (move : TaskMove) : Option VcmpServer :=
  match move, t.pc with
  | .goes, .gated => if t.ready then some (s.setTask k { t with pc := .handshaking }) else none
  | .matched i, .handshaking =>
    if i < s.endpoints.length then some (s.setTask k { t with pc := .responding i }) else none
  | .fails, .handshaking => some (s.setTask k { t with pc := .ended })
  | .fails, .responding _ => some (s.setTask k { t with pc := .ended })
  | .succeeds, .responding i => some (s.setTask k { t with pc := .checking i })
  | .goes, .checking i =>
    if s.stopped then some (s.setTask k { t with pc := .ended })
    else some (s.setTask k { t with pc := .starting i })
  | .goes, .reserved i => some ((s.setTask k { t with pc := .upgrading i }).beginUpgrade i)
  | .succeeds, .upgrading i => some (s.setTask k { t with pc := .starting i })
  | .fails, .upgrading _ => some ((s.setTask k { t with pc := .ended }).dropPending t.pending)
  | .goes, .starting i => some { s.setTask k { t with pc := .inserting i s.sessions.length } with
      sessions := s.sessions ++ [{ endpoint := i, task := k }] }
  | .goes, .inserting i c =>
    some ((s.setTask k { t with
      pc := if t.upgrade then .releasing i c else .preparing i c }).insert i c)
  | .goes, .releasing i c =>
    some ((s.setTask k { t with pc := .preparing i c }).dropPending t.pending)
  | .prepare hook admitted, .preparing i c =>
    if hook = false then some (s.setTask k { t with pc := .serving i c })
    else if admitted then some (s.setTask k { t with pc := .hooking i c })
    else some ((s.setTask k { t with pc := .serving i c }).closeSession c)
  | .hookEnds, .hooking i c => some ((s.setTask k { t with pc := .serving i c }).leaveHook k)
  | .closedSeen, .serving i c =>
    if (s.sessions[c]?.map ServedSession.closed) = some true then
      some (s.setTask k { t with pc := .removing i c })
    else none
  | .goes, .removing i c => some ((s.setTask k { t with pc := .deciding i c }).remove i c)
  | .decide hook, .deciding i c =>
    if hook then some (s.setTask k { t with pc := .notifying i c })
    else some (s.setTask k { t with pc := .cleaning i c })
  | .hookEnds, .notifying i c => some ((s.setTask k { t with pc := .cleaning i c }).leaveHook k)
  | .goes, .cleaning i c => some ((s.setTask k { t with pc := .unlisting i c }).closeSession c)
  | .goes, .unlisting i c => some ((s.setTask k { t with pc := .ended }).remove i c)
  | .aborts, pc =>
    if t.aborted ∧ pc.awaits then
      some ((s.setTask k { t with pc := pc.unwound }).leaveHook k)
    else none
  | .panics, pc =>
    if pc.inHook then some ((s.setTask k { t with pc := pc.unwound }).leaveHook k) else none
  | _, _ => none

/-- A step of the accept loop. -/
def acceptNext (s : VcmpServer) (move : AcceptMove) : Option VcmpServer :=
  match move, s.accept with
  | .stopSeen, .selecting => if s.stopSent then some { s with accept := .dropping } else none
  | .accepts, .selecting => some { s with
      tasks := s.tasks ++ [{ upgrade := false, pc := .gated }]
      accept := .entering s.tasks.length }
  | .errs, .selecting => some { s with accept := .sleeping }
  | .wakes, .sleeping => some { s with accept := .selecting }
  | .goes, .entering k => some { s with
      connections := { s.connections with tasks := s.connections.tasks ++ [k] }
      accept := .readying k }
  | .goes, .readying k => some { s with
      tasks := s.tasks.modify k fun t => { t with ready := true }
      accept := .selecting }
  | .joins k, .selecting =>
    if (s.tasks[k]?.map fun t => !t.upgrade && !t.joined && decide (t.pc = .ended)) = some true then
      some { s with tasks := s.tasks.modify k fun t => { t with joined := true }, accept := .joined k }
    else none
  | .goes, .joined k => some { s with
      connections := s.connections.finished k, accept := .selecting }
  | .goes, .dropping => some { s with listener := false, accept := .announcing }
  | .goes, .announcing => some { s with
      connections := { s.connections with accepting := false }, accept := .draining }
  | .joins k, .draining =>
    if (s.tasks[k]?.map fun t => !t.upgrade && !t.joined && decide (t.pc = .ended)) = some true then
      some { s with tasks := s.tasks.modify k fun t => { t with joined := true }, accept := .drained k }
    else none
  | .goes, .drained k => some { s with
      connections := s.connections.finished k, accept := .draining }
  | .drains, .draining =>
    if s.tasks.all (fun t => t.upgrade || t.joined) then some { s with accept := .ended } else none
  | .aborts, pc =>
    -- the listener and the set of tasks are dropped with it
    if s.acceptAborted ∧ pc.suspended then
      some { s.abortAll (fun _ t => !t.upgrade && !t.joined) with accept := .ended, listener := false }
    else none
  | _, _ => none

/-- The next step of the `close_sessions` call `q`. -/
def closingNext (s : VcmpServer) (q : ℕ) : ClosingPc → Option VcmpServer
  | .listing => some { s with closings := s.closings.set q (.waiting s.endpoints.length 0) }
  | .waiting n i =>
    if i < n then
      if (s.endpoints[i]?.map Endpoint.pendingUpgrades) = some 0 then
        some { s with closings := s.closings.set q (.waiting n (i + 1)) }
      else none
    else some { s with closings := s.closings.set q (.collecting n 0 []) }
  | .collecting n i sessions =>
    if i < n then
      (s.endpoints[i]?).map fun p =>
        { s with closings := s.closings.set q (.collecting n (i + 1) (sessions ++ p.sessions)) }
    else some { s with closings := s.closings.set q (.closing sessions sessions) }
  | .closing sessions (c :: left) =>
    some { s.closeSession c with closings := s.closings.set q (.closing sessions left) }
  | .closing sessions [] => some { s with closings := s.closings.set q (.awaiting sessions sessions) }
  | .awaiting sessions (c :: left) =>
    if (s.sessions[c]?.map ServedSession.closed) = some true then
      some { s with closings := s.closings.set q (.awaiting sessions left) }
    else none
  | .awaiting sessions [] => some { s with closings := s.closings.set q (.returned sessions) }
  | .returned _ => none
  | .dropped => none

/-- **Whether a `stop` has nothing left to wait for**: the other tasks of
the listener where it is awaited in one of them, else the accept loop. -/
def quiet (s : VcmpServer) (c : StopCall) : Bool :=
  match c.caller with
  | some k => s.connections.finishedExcept k || decide (s.accept = .ended)
  | none => decide (s.accept = .ended)

/-- The next step of the `stop`. -/
def stopNext (s : VcmpServer) (c : StopCall) : Option VcmpServer :=
  match c.pc with
  | .filtering => some { s with stop := some { c with
      caller := c.awaiter.filter (fun k => k ∈ s.connections.tasks), pc := .storing } }
  | .storing => some { s with stopped := true, stop := some { c with pc := .sending } }
  | .sending => some { s with
      stopSent := true, closings := s.closings ++ [.listing]
      stop := some { c with pc := .closing, call := some s.closings.length } }
  | .closing =>
    match c.call.bind fun q => s.closings[q]? with
    | some (.returned _) => some { s with stop := some { c with pc := .waiting } }
    | _ => none
  | .waiting => if s.quiet c then some { s with stop := some { c with pc := .returned } } else none
  | .reaping => if s.quiet c then some { s with stop := some { c with pc := .returned } } else none
  | .returned => none
  | .dropped => none

/-- The deadline of the `stop` passes: the other tasks, or the accept loop, are aborted. -/
def deadlineNext (s : VcmpServer) (c : StopCall) : Option VcmpServer :=
  match c.pc, c.caller with
  | .waiting, some k => some { s.abortAll (fun j _ => j ∈ s.connections.tasks && j ≠ k) with
      stop := some { c with pc := .reaping } }
  | .waiting, none => some { s with acceptAborted := true, stop := some { c with pc := .reaping } }
  | _, _ => none

/-- Whether the task is in a hook. -/
def inHook (s : VcmpServer) (k : ℕ) : Bool := (s.tasks[k]?.map fun t => t.pc.inHook) = some true

/-- The step of one party. -/
def next (s : VcmpServer) : Event → Option VcmpServer
  | .endpoint => some { s with endpoints := s.endpoints ++ [{}] }
  | .accept move => s.acceptNext move
  | .onUpgrade i admitted =>
    if i < s.endpoints.length then
      if admitted then some { s with tasks := s.tasks ++ [{ upgrade := true, pc := .reserved i }] }
      else some s
    else none
  | .task k move => s.tasks[k]?.bind fun t => s.taskNext k t move
  | .closeSessions => some { s with closings := s.closings ++ [.listing] }
  | .closing q => s.closings[q]?.bind fun pc => s.closingNext q pc
  | .stop awaiter =>
    if s.stop = none ∧ (∀ k ∈ awaiter, s.inHook k = true) then
      some { s with stop := some { awaiter := awaiter } }
    else none
  | .stopGoes => s.stop.bind s.stopNext
  | .stopDeadline => s.stop.bind s.deadlineNext
  | .close c => some (s.closeSession c)
  | .finish c =>
    if (s.sessions[c]?.map ServedSession.isOpen) = some false then
      some { s with sessions := s.sessions.modify c fun x => { x with closed := true } }
    else none

/-- **The server machine**, from a server that was bound with some endpoints. -/
def machine : Machine VcmpServer Event where
  init s := ∃ n, s = { endpoints := List.replicate n {} }
  next := next

end VcmpServer

end Vcmp
