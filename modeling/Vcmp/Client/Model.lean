import Vcmp.Common.Machine
import Vcmp.Common.Tally
/-!
# The reconnecting client

One state under a lock, and a run task for each `start`. A lock section
of `start` or `stop` is taken apart into what others see of it: the
signal to the run task, the closing of the session, the aborting of the
task and, last, the new generation. While it runs the lock is held, so a
run task that wants to install or clear its session waits.

An aborted task goes on to its next await point, or past it where the
poll is still running, so being aborted only allows a task to end. A
panic of application code in the run task ends it there and unwinds it.

Tasks are numbered from zero, and the task `k` is the one of generation
`k + 1`.
-/

namespace Vcmp

/-- What the run task is told. -/
inductive Stop where
  | no
  /-- `stop()`: close the session, notify `on_disconnected`. -/
  | notify
  /-- `start()` replacing a running client: close the old session silently. -/
  | quiet
  deriving DecidableEq, Repr

/-- **Where a run task is**, with the session its guard closes on the way out. -/
inductive RunPc where
  /-- In the connection attempt, or before the first poll. -/
  | connecting
  /-- Before `set_session(generation, Some(session))`. -/
  | installing (c : ℕ)
  /-- Before the `on_connected` hook. -/
  | preparing (c : ℕ)
  /-- In the `on_connected` hook. -/
  | hooking (c : ℕ)
  /-- Awaiting the session's close, or the stop signal. -/
  | serving (c : ℕ)
  /-- Awaiting the close the stop signal asked for. -/
  | closing (c : ℕ)
  /-- Before `set_session(generation, None)`. -/
  | clearing (c : ℕ)
  /-- Before the stop value is read. -/
  | deciding (c : ℕ)
  /-- Before the `on_disconnected` hook, where that value was not `Quiet`. -/
  | calling (c : ℕ)
  /-- In the `on_disconnected` hook. -/
  | notifying (c : ℕ)
  /-- Behind the attempt, before the stop value is read and the delay computed. -/
  | checking
  /-- Awaiting the reconnect delay. -/
  | waiting
  | ended
  deriving DecidableEq, Repr

namespace RunPc

/-- The session held by `CloseOnDrop`. -/
def guarded : RunPc → Option ℕ
  | .installing c | .preparing c | .hooking c | .serving c | .closing c | .clearing c
  | .deciding c | .calling c | .notifying c => some c
  | .connecting | .checking | .waiting | .ended => none

/-- The await points, where an abort takes effect. -/
def awaits : RunPc → Bool
  | .connecting | .hooking _ | .serving _ | .closing _ | .notifying _ | .waiting => true
  | _ => false

/-- Where application code runs: the header factory, the hooks, and the
delay computed from the configured backoff. -/
def mayPanic : RunPc → Bool
  | .connecting | .hooking _ | .notifying _ | .checking => true
  | _ => false

end RunPc

/-- A run task. -/
structure RunTask where
  pc : RunPc := .connecting
  /-- The value of its stop channel. -/
  stop : Stop := .no
  aborted : Bool := false
  deriving DecidableEq, Repr

/-- A session some run task spawned. -/
structure Connection where
  generation : ℕ
  isOpen : Bool := true
  /-- Whether `closed()` resolves. -/
  closed : Bool := false
  /-- Whether it was the client's session. -/
  installed : Bool := false
  /-- How often `on_disconnected` was invoked with it. -/
  notified : ℕ := 0
  deriving DecidableEq, Repr

/-- A lock section of `start` or `stop_inner`, by what it does next. -/
inductive LockSection where
  | startSignal
  | startClose
  | startAbort
  | startSpawn
  | stopSignal (wait : Bool)
  | stopClose (wait : Bool)
  | stopFinish (wait : Bool)
  deriving DecidableEq, Repr

/-- **The client.** -/
structure VcmpClient where
  running : Bool := false
  generation : ℕ := 0
  session : Option ℕ := none
  /-- The watched connection flag. -/
  connected : Bool := false
  /-- The task whose stop sender is kept. -/
  stop : Option ℕ := none
  /-- The task that `state.task` controls. -/
  task : Option ℕ := none
  /-- The section holding the lock. -/
  lock : Option LockSection := none
  tasks : List RunTask := []
  sessions : List Connection := []
  /-- The tasks `stop_and_wait` callers await; a cancelled one stays silent. -/
  waiters : List ℕ := []
  deriving DecidableEq, Repr

namespace VcmpClient

/-- What a run task does next. -/
inductive Move where
  /-- The connection attempt succeeds. -/
  | connects
  /-- It fails or times out. -/
  | connectFails
  /-- `stop.changed()` is selected. -/
  | stopSeen
  /-- `set_session`. -/
  | setSession
  /-- The `on_connected` hook is there or not, and admitted or not. -/
  | prepare (hook : Bool) (admitted : Bool)
  /-- The hook completes, times out, or its session has closed. -/
  | hookEnds
  /-- `session.closed()` resolves. -/
  | closedSeen
  /-- The stop value is read. -/
  | decide
  /-- The `on_disconnected` hook is there and admitted, or not. -/
  | call (hook : Bool)
  | check
  | wake
  /-- The abort takes effect. -/
  | aborts
  | panics
  deriving DecidableEq, Repr

/-- One step of one party. -/
inductive Event where
  | start
  | stop (wait : Bool)
  /-- The section holding the lock goes on. -/
  | lockSection
  /-- A `stop_and_wait` deadline passes. -/
  | giveUp (k : ℕ)
  | run (k : ℕ) (move : Move)
  /-- Anything closes a session. -/
  | close (c : ℕ)
  /-- A closed session's `closed()` resolves. -/
  | finish (c : ℕ)
  deriving DecidableEq, Repr

/-- The session `c` closed. -/
def closeSession (s : VcmpClient) (c : ℕ) : VcmpClient :=
  { s with sessions := s.sessions.modify c fun x => { x with isOpen := false } }

/-- The guarded session closed, if there is one. -/
def dropGuard (s : VcmpClient) (c : Option ℕ) : VcmpClient :=
  match c with
  | some c => s.closeSession c
  | none => s

/-- The task `k` replaced. -/
def setTask (s : VcmpClient) (k : ℕ) (t : RunTask) : VcmpClient :=
  { s with tasks := s.tasks.set k t }

/-- The stop sender taken and used. -/
def signal (s : VcmpClient) (how : Stop) : VcmpClient :=
  match s.stop with
  | some k => { s with
      running := false, stop := none
      tasks := s.tasks.modify k fun t => { t with stop := how } }
  | none => { s with running := false }

/-- The session taken and closed. -/
def takeSession (s : VcmpClient) : VcmpClient :=
  { s.dropGuard s.session with session := none }

/-- The task `k` told to abort. -/
def abortTask (s : VcmpClient) (k : ℕ) : VcmpClient :=
  { s with tasks := s.tasks.modify k fun t => { t with aborted := true } }

/-- A step of the run task `k`. -/
def runNext (s : VcmpClient) (k : ℕ) (t : RunTask) (move : Move) : Option VcmpClient :=
  match move, t.pc with
  | .connects, .connecting =>
    some { s.setTask k { t with pc := .installing s.sessions.length } with
      sessions := s.sessions ++ [{ generation := k + 1 }] }
  | .connectFails, .connecting => some (s.setTask k { t with pc := .checking })
  | .stopSeen, .connecting =>
    if t.stop ≠ .no then some (s.setTask k { t with pc := .ended }) else none
  | .setSession, .installing c =>
    if s.lock ≠ none then none
    else if s.generation ≠ k + 1 ∨ s.running = false then
      some ((s.setTask k { t with pc := .ended }).closeSession c)
    else
      some { s.setTask k { t with pc := .preparing c } with
        session := some c, connected := true
        sessions := s.sessions.modify c fun x => { x with installed := true } }
  | .prepare hook admitted, .preparing c =>
    if hook = false then some (s.setTask k { t with pc := .serving c })
    else if admitted then some (s.setTask k { t with pc := .hooking c })
    else some ((s.setTask k { t with pc := .serving c }).closeSession c)
  | .hookEnds, .hooking c => some (s.setTask k { t with pc := .serving c })
  | .stopSeen, .hooking c =>
    if t.stop ≠ .no then some ((s.setTask k { t with pc := .serving c }).closeSession c) else none
  | .closedSeen, .serving c =>
    if (s.sessions[c]?.map Connection.closed) = some true then
      some (s.setTask k { t with pc := .clearing c })
    else none
  | .stopSeen, .serving c =>
    if t.stop ≠ .no then some ((s.setTask k { t with pc := .closing c }).closeSession c) else none
  | .closedSeen, .closing c =>
    if (s.sessions[c]?.map Connection.closed) = some true then
      some (s.setTask k { t with pc := .clearing c })
    else none
  | .setSession, .clearing c =>
    if s.lock ≠ none then none
    else if s.generation ≠ k + 1 then some (s.setTask k { t with pc := .deciding c })
    else some { s.setTask k { t with pc := .deciding c } with session := none, connected := false }
  | .decide, .deciding c =>
    if t.stop ≠ .quiet then some (s.setTask k { t with pc := .calling c })
    else some ((s.setTask k { t with pc := .checking }).closeSession c)
  | .call hook, .calling c =>
    if hook = true then
      some { s.setTask k { t with pc := .notifying c } with
        sessions := s.sessions.modify c fun x => { x with notified := x.notified + 1 } }
    else some ((s.setTask k { t with pc := .checking }).closeSession c)
  | .hookEnds, .notifying c => some ((s.setTask k { t with pc := .checking }).closeSession c)
  | .check, .checking =>
    if t.stop ≠ .no then some (s.setTask k { t with pc := .ended })
    else some (s.setTask k { t with pc := .waiting })
  | .wake, .waiting => some (s.setTask k { t with pc := .connecting })
  | .stopSeen, .waiting =>
    if t.stop ≠ .no then some (s.setTask k { t with pc := .ended }) else none
  | .aborts, pc =>
    if t.aborted ∧ pc.awaits then
      some ((s.setTask k { t with pc := .ended }).dropGuard pc.guarded)
    else none
  | .panics, pc =>
    if pc.mayPanic then some ((s.setTask k { t with pc := .ended }).dropGuard pc.guarded)
    else none
  | _, _ => none

/-- The step of the section that holds the lock. -/
def sectionNext (s : VcmpClient) : LockSection → VcmpClient
  | .startSignal => { s.signal .quiet with lock := some .startClose }
  | .startClose => { s.takeSession with lock := some .startAbort }
  | .startAbort =>
    match s.task with
    | some k => { s.abortTask k with task := none, lock := some .startSpawn }
    | none => { s with lock := some .startSpawn }
  | .startSpawn => { s with
      running := true, connected := false, generation := s.generation + 1
      stop := some s.tasks.length, task := some s.tasks.length
      tasks := s.tasks ++ [{}], lock := none }
  | .stopSignal wait => { s.signal .notify with lock := some (.stopClose wait) }
  | .stopClose wait => { s.takeSession with lock := some (.stopFinish wait) }
  | .stopFinish wait => { s with
      connected := false, lock := none
      waiters := if wait then s.waiters ++ s.task.toList else s.waiters }

/-- The step of one party. -/
def next (s : VcmpClient) : Event → Option VcmpClient
  | .start => if s.lock = none then some { s with lock := some .startSignal } else none
  | .stop wait => if s.lock = none then some { s with lock := some (.stopSignal wait) } else none
  | .lockSection => s.lock.map s.sectionNext
  | .giveUp k => if k ∈ s.waiters then some (s.abortTask k) else none
  | .run k move => s.tasks[k]?.bind fun t => s.runNext k t move
  | .close c => some (s.closeSession c)
  | .finish c =>
    if (s.sessions[c]?.map Connection.isOpen) = some false then
      some { s with sessions := s.sessions.modify c fun x => { x with closed := true } }
    else none

/-- **The client machine**, from a client that was never started. -/
def machine : Machine VcmpClient Event where
  init s := s = {}
  next := next

/-- What a step of the run task `k` can do. -/
inductive RunStep (s : VcmpClient) (k : ℕ) (t : RunTask) : Move → VcmpClient → Prop
  | connects (hpc : t.pc = .connecting) :
      RunStep s k t .connects { s.setTask k { t with pc := .installing s.sessions.length } with
        sessions := s.sessions ++ [{ generation := k + 1 }] }
  | connectFails (hpc : t.pc = .connecting) :
      RunStep s k t .connectFails (s.setTask k { t with pc := .checking })
  /-- The stop signal ends the attempt or the delay. -/
  | stopped (hpc : t.pc = .connecting ∨ t.pc = .waiting) (hstop : t.stop ≠ .no) :
      RunStep s k t .stopSeen (s.setTask k { t with pc := .ended })
  | refused {c : ℕ} (hpc : t.pc = .installing c) (hlock : s.lock = none)
      (hno : s.generation ≠ k + 1 ∨ s.running = false) :
      RunStep s k t .setSession ((s.setTask k { t with pc := .ended }).closeSession c)
  | installed {c : ℕ} (hpc : t.pc = .installing c) (hlock : s.lock = none)
      (hgen : s.generation = k + 1) (hrun : s.running = true) :
      RunStep s k t .setSession { s.setTask k { t with pc := .preparing c } with
        session := some c, connected := true
        sessions := s.sessions.modify c fun x => { x with installed := true } }
  | unhooked {c : ℕ} {admitted : Bool} (hpc : t.pc = .preparing c) :
      RunStep s k t (.prepare false admitted) (s.setTask k { t with pc := .serving c })
  | hooked {c : ℕ} (hpc : t.pc = .preparing c) :
      RunStep s k t (.prepare true true) (s.setTask k { t with pc := .hooking c })
  | overloaded {c : ℕ} (hpc : t.pc = .preparing c) :
      RunStep s k t (.prepare true false)
        ((s.setTask k { t with pc := .serving c }).closeSession c)
  | hookEnds {c : ℕ} (hpc : t.pc = .hooking c) :
      RunStep s k t .hookEnds (s.setTask k { t with pc := .serving c })
  | hookStopped {c : ℕ} (hpc : t.pc = .hooking c) (hstop : t.stop ≠ .no) :
      RunStep s k t .stopSeen ((s.setTask k { t with pc := .serving c }).closeSession c)
  | closes {c : ℕ} (hpc : t.pc = .serving c) (hstop : t.stop ≠ .no) :
      RunStep s k t .stopSeen ((s.setTask k { t with pc := .closing c }).closeSession c)
  | closedSeen {c : ℕ} (hpc : t.pc = .serving c ∨ t.pc = .closing c)
      (hclosed : (s.sessions[c]?.map Connection.closed) = some true) :
      RunStep s k t .closedSeen (s.setTask k { t with pc := .clearing c })
  | ignored {c : ℕ} (hpc : t.pc = .clearing c) (hlock : s.lock = none)
      (hgen : s.generation ≠ k + 1) :
      RunStep s k t .setSession (s.setTask k { t with pc := .deciding c })
  | cleared {c : ℕ} (hpc : t.pc = .clearing c) (hlock : s.lock = none)
      (hgen : s.generation = k + 1) :
      RunStep s k t .setSession { s.setTask k { t with pc := .deciding c } with
        session := none, connected := false }
  | decides {c : ℕ} (hpc : t.pc = .deciding c) (hstop : t.stop ≠ .quiet) :
      RunStep s k t .decide (s.setTask k { t with pc := .calling c })
  | silent {c : ℕ} (hpc : t.pc = .deciding c) :
      RunStep s k t .decide ((s.setTask k { t with pc := .checking }).closeSession c)
  | notifies {c : ℕ} (hpc : t.pc = .calling c) :
      RunStep s k t (.call true) { s.setTask k { t with pc := .notifying c } with
        sessions := s.sessions.modify c fun x => { x with notified := x.notified + 1 } }
  | unasked {c : ℕ} (hpc : t.pc = .calling c) :
      RunStep s k t (.call false) ((s.setTask k { t with pc := .checking }).closeSession c)
  | notified {c : ℕ} (hpc : t.pc = .notifying c) :
      RunStep s k t .hookEnds ((s.setTask k { t with pc := .checking }).closeSession c)
  | leaves (hpc : t.pc = .checking) (hstop : t.stop ≠ .no) :
      RunStep s k t .check (s.setTask k { t with pc := .ended })
  | delays (hpc : t.pc = .checking) :
      RunStep s k t .check (s.setTask k { t with pc := .waiting })
  | wakes (hpc : t.pc = .waiting) :
      RunStep s k t .wake (s.setTask k { t with pc := .connecting })
  | aborts (habort : t.aborted = true) :
      RunStep s k t .aborts ((s.setTask k { t with pc := .ended }).dropGuard t.pc.guarded)
  | panics (hpanic : t.pc.mayPanic = true) :
      RunStep s k t .panics ((s.setTask k { t with pc := .ended }).dropGuard t.pc.guarded)

/-- **Every step of a run task is one of these.** -/
theorem runStep_of_next {s s' : VcmpClient} {k : ℕ} {t : RunTask} {move : Move}
    (h : s.runNext k t move = some s') : RunStep s k t move s' := by
  cases move with
  | connects =>
    cases hpc : t.pc <;> simp only [runNext, hpc, reduceCtorEq, Option.some.injEq] at h
    exact h ▸ .connects hpc
  | connectFails =>
    cases hpc : t.pc <;> simp only [runNext, hpc, reduceCtorEq, Option.some.injEq] at h
    exact h ▸ .connectFails hpc
  | stopSeen =>
    cases hpc : t.pc <;> simp only [runNext, hpc, reduceCtorEq, Option.ite_none_right_eq_some,
      Option.some.injEq] at h <;> obtain ⟨hstop, rfl⟩ := h
    · exact .stopped (.inl hpc) hstop
    · exact .hookStopped hpc hstop
    · exact .closes hpc hstop
    · exact .stopped (.inr hpc) hstop
  | setSession =>
    cases hpc : t.pc <;> simp only [runNext, hpc, reduceCtorEq, Option.ite_none_left_eq_some,
      not_not] at h <;> obtain ⟨hlock, h⟩ := h <;> split at h <;> cases h
    · exact .refused hpc hlock ‹_›
    · rename_i hno
      simp only [not_or, not_not, Bool.not_eq_false] at hno
      exact .installed hpc hlock hno.1 hno.2
    · exact .ignored hpc hlock ‹_›
    · exact .cleared hpc hlock (not_not.mp ‹_›)
  | prepare hook admitted =>
    cases hpc : t.pc <;> simp only [runNext, hpc, reduceCtorEq] at h
    cases hook <;> cases admitted <;> simp at h <;> subst h
    · exact .unhooked hpc
    · exact .unhooked hpc
    · exact .overloaded hpc
    · exact .hooked hpc
  | hookEnds =>
    cases hpc : t.pc <;> simp only [runNext, hpc, reduceCtorEq, Option.some.injEq] at h
    · exact h ▸ .hookEnds hpc
    · exact h ▸ .notified hpc
  | closedSeen =>
    cases hpc : t.pc <;> simp only [runNext, hpc, reduceCtorEq, Option.ite_none_right_eq_some,
      Option.some.injEq] at h <;> obtain ⟨hclosed, rfl⟩ := h
    · exact .closedSeen (.inl hpc) hclosed
    · exact .closedSeen (.inr hpc) hclosed
  | decide =>
    cases hpc : t.pc <;> simp only [runNext, hpc, reduceCtorEq] at h
    split at h <;> cases h
    · exact .decides hpc ‹_›
    · exact .silent hpc
  | call hook =>
    cases hpc : t.pc <;> simp only [runNext, hpc, reduceCtorEq] at h
    cases hook <;> simp at h <;> subst h
    · exact .unasked hpc
    · exact .notifies hpc
  | check =>
    cases hpc : t.pc <;> simp only [runNext, hpc, reduceCtorEq] at h
    split at h <;> cases h
    · exact .leaves hpc ‹_›
    · exact .delays hpc
  | wake =>
    cases hpc : t.pc <;> simp only [runNext, hpc, reduceCtorEq, Option.some.injEq] at h
    exact h ▸ .wakes hpc
  | aborts =>
    simp only [runNext, Option.ite_none_right_eq_some, Option.some.injEq] at h
    obtain ⟨⟨habort, -⟩, rfl⟩ := h
    exact .aborts habort
  | panics =>
    simp only [runNext, Option.ite_none_right_eq_some, Option.some.injEq] at h
    obtain ⟨hpanic, rfl⟩ := h
    exact .panics hpanic

/-- **What a step can do**, party by party. -/
inductive Step (s : VcmpClient) : Event → VcmpClient → Prop
  | start (hlock : s.lock = none) : Step s .start { s with lock := some .startSignal }
  | stop {wait : Bool} (hlock : s.lock = none) :
      Step s (.stop wait) { s with lock := some (.stopSignal wait) }
  | lockSection {sec : LockSection} (hlock : s.lock = some sec) :
      Step s .lockSection (s.sectionNext sec)
  | giveUp {k : ℕ} (hk : k ∈ s.waiters) : Step s (.giveUp k) (s.abortTask k)
  | run {k : ℕ} {t : RunTask} {move : Move} {s' : VcmpClient} (ht : s.tasks[k]? = some t)
      (h : RunStep s k t move s') : Step s (.run k move) s'
  | close {c : ℕ} : Step s (.close c) (s.closeSession c)
  | finish {c : ℕ} (hshut : (s.sessions[c]?.map Connection.isOpen) = some false) :
      Step s (.finish c) { s with sessions := s.sessions.modify c fun x => { x with closed := true } }

/-- **Every step of the machine is one of these.** -/
theorem step_of_next {s s' : VcmpClient} {e : Event} (h : machine.next s e = some s') :
    Step s e s' := by
  change s.next e = some s' at h
  cases e with
  | start =>
    simp only [next, Option.ite_none_right_eq_some, Option.some.injEq] at h
    obtain ⟨hlock, rfl⟩ := h
    exact .start hlock
  | stop wait =>
    simp only [next, Option.ite_none_right_eq_some, Option.some.injEq] at h
    obtain ⟨hlock, rfl⟩ := h
    exact .stop hlock
  | lockSection =>
    simp only [next, Option.map_eq_some_iff] at h
    obtain ⟨sec, hlock, rfl⟩ := h
    exact .lockSection hlock
  | giveUp k =>
    simp only [next, Option.ite_none_right_eq_some, Option.some.injEq] at h
    obtain ⟨hk, rfl⟩ := h
    exact .giveUp hk
  | run k move =>
    obtain ⟨t, ht, hrun⟩ := Option.bind_eq_some_iff.mp h
    exact .run ht (runStep_of_next hrun)
  | close c => exact (Option.some.inj h) ▸ .close
  | finish c =>
    simp only [next, Option.ite_none_right_eq_some, Option.some.injEq] at h
    obtain ⟨hshut, rfl⟩ := h
    exact .finish hshut

/-- Taking the session changes that and the sessions. -/
theorem takeSession_eq (s : VcmpClient) :
    s.takeSession = { s with session := none, sessions := s.takeSession.sessions } := by
  unfold takeSession dropGuard
  split <;> rfl

end VcmpClient

end Vcmp
