import Vcmp.Session.Beats
import Vcmp.Session.Provenance
/-!
# Echoes

The session machine has a slot for the echo timer. Here the tasks behind
it are there one by one: a heartbeat accepted spawns one and aborts the
one whose handle the slot held, and a task that is not aborted in time
sends a heartbeat. That no two of them sleep at once is proved, and with
it that the slot is all there is to see of them. What a peer can make a
session send is then counted: a heartbeat is accepted once for each time
`awaiting` was set, and a timed echo is due to one heartbeat accepted.
-/

namespace Vcmp

/-- A task spawned by `handle_heartbeat`. -/
inductive EchoTask where
  | sleeping (interval : ℕ)
  /-- It calls `send_heartbeat`. -/
  | woken
  | aborted
  deriving DecidableEq, Repr

/-- `AbortHandle::abort`; a task that has woken runs on. -/
def EchoTask.abort : EchoTask → EchoTask
  | .sleeping _ => .aborted
  | task => task

/-- Who calls `send_heartbeat`. -/
inductive Caller where
  | initiate
  | echo (task : ℕ)
  deriving DecidableEq, Repr

/-- The task that calls. -/
def Caller.task : Caller → Option ℕ
  | .initiate => none
  | .echo k => some k

/-- **The echo tasks of a session**, with who made each of its calls of
`send_heartbeat` and which of these have set `awaiting`. -/
structure Echoes where
  tasks : List EchoTask := []
  /-- `HeartbeatState::echo`. -/
  handle : Option ℕ := none
  callers : List Caller := []
  armed : List ℕ := []
  deriving DecidableEq, Repr

namespace Echoes

/-- The task of a handle aborted. -/
def abortTask (tasks : List EchoTask) : Option ℕ → List EchoTask
  | none => tasks
  | some k => tasks.modify k EchoTask.abort

/-- The end of `handle_heartbeat`: a task is spawned, and the previous one aborted
under the same lock. -/
def spawn (t : Echoes) (interval : ℕ) : Echoes :=
  { t with
    tasks := abortTask (t.tasks ++ [.sleeping interval]) t.handle
    handle := some t.tasks.length }

/-- `finish_close` takes the handle and aborts the task. -/
def take (t : Echoes) : Echoes := { t with tasks := abortTask t.tasks t.handle, handle := none }

/-- What the slot of the session machine shows. -/
def slot (t : Echoes) : Timer :=
  match t.handle with
  | none => .absent
  | some k =>
    match t.tasks[k]? with
    | some (.sleeping interval) => .armed interval
    | _ => .fired

end Echoes

/-- The call of `send_heartbeat` a frame comes from. -/
def Origin.beatIndex : Origin → Option ℕ
  | .beat i => some i
  | _ => none

/-- Whether a frame is a heartbeat, and not the text of a call of `send_raw`. -/
def Accepted.isHeartbeat (acc : Accepted) : Bool :=
  "HBT".toList.isPrefixOf acc.text.toList &&
    match acc.origin with
    | .raw _ => false
    | _ => true

namespace Session

variable {J : JsonText} {s s' : Session} {t t' : Echoes}

/-! ## The machine with its echo tasks -/

/-- What a step of the session does to the echo tasks. -/
def follow (s : Session) (t : Echoes) : Event J → Echoes
  | .receive text =>
    match s.acceptedInterval text with
    | some interval => t.spawn interval
    | none => t
  | .drive =>
    match s.drive with
    | .finishTimers => t.take
    | _ => t
  | .initiateHeartbeat _ => { t with callers := t.callers ++ [.initiate] }
  | .beat i =>
    if s.beats[i]?.map Beat.pc = some .arming then { t with armed := t.armed ++ [i] } else t
  | _ => t

/-- A step of the session, or an echo task that wakes. -/
inductive EchoEvent (J : JsonText) where
  | step (e : Event J)
  | wakes (k : ℕ)

/-- An echo task wakes, whether or not its handle is still in the slot. -/
def wake (s : Session) (interval : ℕ) (held : Bool) : Session :=
  { s with
    heartbeat := if held then { s.heartbeat with echo := .fired } else s.heartbeat
    beats := s.beats ++ [{ interval := interval }] }

/-- **The session machine with its echo tasks**: in place of the timer in
the slot, any task that sleeps may wake. -/
def echoing (J : JsonText) : Machine (Session × Echoes) (EchoEvent J) where
  init p := (machine J).init p.1 ∧ p.2 = {}
  next p
    | .step .echoFires => none
    | .step e => ((machine J).next p.1 e).map fun s => (s, follow p.1 p.2 e)
    | .wakes k =>
      match p.2.tasks[k]? with
      | some (.sleeping interval) => some (p.1.wake interval (p.2.handle = some k),
          { p.2 with tasks := p.2.tasks.set k .woken, callers := p.2.callers ++ [.echo k] })
      | _ => none

/-- **What a step does to the echo tasks.** -/
inductive EchoStep (s : Session) (t : Echoes) (s' : Session) (t' : Echoes) : Prop
  | quiet (hbeats : s'.beats = s.beats) (hawaiting : s'.heartbeat.awaiting = s.heartbeat.awaiting)
      (hecho : s'.heartbeat.echo = s.heartbeat.echo)
      (hcount : s'.heartbeatsReceived = s.heartbeatsReceived) (ht : t' = t)
  | initiates {b : Beat} (hpc : b.pc = .start) (hbeats : s'.beats = s.beats ++ [b])
      (hheart : s'.heartbeat = s.heartbeat)
      (hcount : s'.heartbeatsReceived = s.heartbeatsReceived)
      (ht : t' = { t with callers := t.callers ++ [.initiate] })
  | wakes {k interval : ℕ} (htask : t.tasks[k]? = some (.sleeping interval))
      (hs : s' = s.wake interval (t.handle = some k))
      (ht : t' = { t with tasks := t.tasks.set k .woken, callers := t.callers ++ [.echo k] })
  | moves {i : ℕ} {b b' : Beat} (hb : s.beats[i]? = some b)
      (hpc : b.pc.waking = false → b'.pc.waking = false) (hbeats : s'.beats = s.beats.set i b')
      (hawaiting : s'.heartbeat.awaiting = s.heartbeat.awaiting)
      (hecho : s'.heartbeat.echo = s.heartbeat.echo)
      (hcount : s'.heartbeatsReceived = s.heartbeatsReceived) (ht : t' = t)
  | arms {i : ℕ} {b b' : Beat} (hb : s.beats[i]? = some b) (hpc : b.pc = .arming)
      (hpc' : b'.pc.waking = false) (hbeats : s'.beats = s.beats.set i b')
      (hawaiting : s'.heartbeat.awaiting = true) (hecho : s'.heartbeat.echo = s.heartbeat.echo)
      (hcount : s'.heartbeatsReceived = s.heartbeatsReceived)
      (ht : t' = { t with armed := t.armed ++ [i] })
  | accepts {interval : ℕ} (hbeats : s'.beats = s.beats) (hawaiting : s.heartbeat.awaiting = true)
      (hheart : s'.heartbeat = ⟨false, .absent, .armed interval⟩)
      (hcount : s'.heartbeatsReceived = s.heartbeatsReceived + 1) (ht : t' = t.spawn interval)
  | takes (hbeats : s'.beats = s.beats) (hawaiting : s'.heartbeat.awaiting = s.heartbeat.awaiting)
      (hecho : s'.heartbeat.echo = .absent)
      (hcount : s'.heartbeatsReceived = s.heartbeatsReceived) (ht : t' = t.take)

/-- Whether a step may be one of the heartbeat's own: all others leave
the calls of `send_heartbeat` and the echo alone. -/
def Event.echoes : Event J → Bool
  | .receive _ | .drive | .beat _ | .initiateHeartbeat _ | .echoFires => true
  | _ => false

/-- **What other steps leave of the heartbeat.** -/
theorem Step.calm {e : Event J} (h : Step J s e s') (hcalm : e.echoes = false) :
    s'.beats = s.beats ∧ s'.heartbeat.awaiting = s.heartbeat.awaiting ∧
      s'.heartbeat.echo = s.heartbeat.echo ∧ s'.heartbeatsReceived = s.heartbeatsReceived := by
  cases h with
  | exchange _ h =>
    cases h with
    | enqueues _ he => obtain ⟨_, _, _, _, _, rfl⟩ := he.frame; exact ⟨rfl, rfl, rfl, rfl⟩
    | _ => exact ⟨rfl, rfl, rfl, rfl⟩
  | raw _ he => obtain ⟨_, _, _, _, _, rfl⟩ := he.frame; exact ⟨rfl, rfl, rfl, rfl⟩
  | work _ h =>
    cases h with
    | writes _ he => obtain ⟨_, _, _, _, _, rfl⟩ := he.frame; exact ⟨rfl, rfl, rfl, rfl⟩
    | unwritten _ he => obtain ⟨_, _, _, _, _, rfl⟩ := he.frame; exact ⟨rfl, rfl, rfl, rfl⟩
    | written _ he => obtain ⟨_, _, _, _, _, rfl⟩ := he.frame; exact ⟨rfl, rfl, rfl, rfl⟩
    | _ => exact ⟨rfl, rfl, rfl, rfl⟩
  | writer h => cases h <;> exact ⟨rfl, rfl, rfl, rfl⟩
  | initiates => cases hcalm
  | beat => cases hcalm
  | echo => cases hcalm
  | receive => cases hcalm
  | drive => cases hcalm
  | _ => exact ⟨rfl, rfl, rfl, rfl⟩

/-- A call of `send_heartbeat` moves, or sets `awaiting`. -/
theorem echoStep_of_beat {i : ℕ} {b : Beat} (hb : s.beats[i]? = some b) (h : BeatStep s i b s') :
    EchoStep s t s' (follow s t (.beat i : Event J)) := by
  have hstays : b.pc ≠ .arming → follow s t (.beat i : Event J) = t := fun hne => by
    simp only [follow, hb, Option.map_some, Option.some.injEq, if_neg hne]
  cases h with
  | notOpen hpc => exact .moves hb (fun _ => rfl) rfl rfl rfl rfl (hstays (by simp [hpc]))
  | checked hpc =>
    refine .moves hb (fun hw => ?_) rfl rfl rfl rfl (hstays (by simp [hpc]))
    rw [hpc] at hw
    cases hw
  | arms hpc =>
    refine .arms hb hpc rfl rfl rfl rfl rfl ?_
    simp only [follow, hb, Option.map_some, hpc, if_true]
  | @enqueues q s₁ r hpc he =>
    have hwaking : (b.enqueued r).pc.waking = false := by cases r <;> rfl
    obtain ⟨_, _, _, _, _, rfl⟩ := he.frame
    exact .moves hb (fun _ => hwaking) rfl rfl rfl rfl (hstays (by simp [hpc]))
  | closes hpc => exact .moves hb (fun _ => rfl) rfl rfl rfl rfl (hstays (by simp [hpc]))
  | installs hpc => exact .moves hb (fun _ => rfl) rfl rfl rfl rfl (hstays (by simp [hpc]))

/-- The driving task takes the handle in one section only. -/
theorem echoStep_of_drive (h : DriveStep s s') :
    EchoStep s t s' (follow s t (.drive : Event J)) := by
  cases h with
  | finishTimers hpc =>
    refine .takes rfl rfl rfl rfl ?_
    simp only [follow, hpc]
  | _ => exact .quiet rfl rfl rfl rfl (by simp only [follow, *])

/-- An incoming text spawns a task where it is a heartbeat that is accepted. -/
theorem echoStep_of_receive (text : String) :
    EchoStep s t (s.handleIncoming J text) (follow s t (.receive text : Event J)) := by
  obtain ⟨hbeats, hheart⟩ := heartbeat_of_receive (J := J) (s := s) text
  cases hinterval : s.acceptedInterval text with
  | some interval =>
    rw [hinterval] at hheart
    obtain ⟨hawaiting, hheart, hcount⟩ := hheart
    exact .accepts hbeats hawaiting hheart hcount (by simp only [follow, hinterval])
  | none =>
    rw [hinterval] at hheart
    obtain ⟨hheart, hcount⟩ := hheart
    exact .quiet hbeats (by rw [hheart]) (by rw [hheart]) hcount (by simp only [follow, hinterval])

/-- **Every step of the session is one of these**, but for the timer in the slot. -/
theorem echoStep_of_step {e : Event J} (hn : (machine J).next s e = some s') (he : e ≠ .echoFires) :
    EchoStep s t s' (follow s t e) := by
  have hstep := step_of_next hn
  have others : e.echoes = false → follow s t e = t → EchoStep s t s' (follow s t e) := by
    intro hcalm hsame
    obtain ⟨hbeats, hawaiting, hecho, hcount⟩ := hstep.calm hcalm
    exact .quiet hbeats hawaiting hecho hcount hsame
  cases e with
  | receive text =>
    replace hn : s.next J (.receive text) = some s' := hn
    simp only [next] at hn
    split at hn <;> cases hn
    exact echoStep_of_receive text
  | drive => exact echoStep_of_drive (driveStep_of_next hn)
  | initiateHeartbeat millis =>
    cases hn
    exact .initiates rfl rfl rfl rfl rfl
  | beat i =>
    obtain ⟨b, hb, hn⟩ := Option.bind_eq_some_iff.mp hn
    exact echoStep_of_beat hb (beatStep_of_next hn)
  | echoFires => exact absurd rfl he
  | _ => exact others rfl rfl

theorem next_step {e : Event J} (he : e ≠ .echoFires) : (echoing J).next (s, t) (.step e) =
    ((machine J).next s e).map fun s' => (s', follow s t e) := by
  cases e <;> first | rfl | exact absurd rfl he

/-- A step of the machine is one of the session, or a task that wakes. -/
theorem next_echoing {e : EchoEvent J} (hn : (echoing J).next (s, t) e = some (s', t')) :
    (∃ d : Event J, e = .step d ∧ d ≠ .echoFires ∧ (machine J).next s d = some s' ∧
      t' = follow s t d) ∨
    ∃ k interval, e = .wakes k ∧ t.tasks[k]? = some (.sleeping interval) ∧
      s' = s.wake interval (t.handle = some k) ∧
      t' = { t with tasks := t.tasks.set k .woken, callers := t.callers ++ [.echo k] } := by
  cases e with
  | wakes k =>
    simp only [echoing] at hn
    split at hn
    · rename_i interval htask
      cases hn
      exact .inr ⟨k, interval, rfl, htask, rfl, rfl⟩
    · cases hn
  | step d =>
    have hnot : d ≠ .echoFires := by
      rintro rfl
      cases hn
    rw [next_step hnot] at hn
    obtain ⟨u, hu, heq⟩ := Option.map_eq_some_iff.mp hn
    cases heq
    exact .inl ⟨d, rfl, hnot, hu, rfl⟩

/-- **Every step of the machine is one of these.** -/
theorem echoStep_of_next {e : EchoEvent J} (hn : (echoing J).next (s, t) e = some (s', t')) :
    EchoStep s t s' t' := by
  rcases next_echoing hn with ⟨d, -, hnot, hd, rfl⟩ | ⟨k, interval, -, htask, hs, ht⟩
  · exact echoStep_of_step hd hnot
  · exact .wakes htask hs ht

/-! ## One task sleeps at a time -/

theorem getElem?_abortTask (tasks : List EchoTask) (handle : Option ℕ) (k : ℕ) :
    (Echoes.abortTask tasks handle)[k]? =
      if handle = some k then tasks[k]?.map EchoTask.abort else tasks[k]? := by
  cases handle with
  | none => rfl
  | some j =>
    rw [Echoes.abortTask, List.getElem?_modify]
    by_cases hjk : j = k
    · simp [hjk]
    · simp [hjk]

@[simp] theorem length_abortTask (tasks : List EchoTask) (handle : Option ℕ) :
    (Echoes.abortTask tasks handle).length = tasks.length := by
  cases handle with
  | none => rfl
  | some j => exact List.length_modify ..

/-- A task that sleeps after an abort was there and is not the one aborted. -/
theorem sleeping_of_abortTask {tasks : List EchoTask} {handle : Option ℕ} {k interval : ℕ}
    (h : (Echoes.abortTask tasks handle)[k]? = some (.sleeping interval)) :
    handle ≠ some k ∧ tasks[k]? = some (.sleeping interval) := by
  rw [getElem?_abortTask] at h
  split at h
  · obtain ⟨task, -, habort⟩ := Option.map_eq_some_iff.mp h
    cases task <;> cases habort
  · exact ⟨‹_›, h⟩

/-- A task that has woken is not touched by an abort. -/
theorem woken_of_abortTask {tasks : List EchoTask} {handle : Option ℕ} {k : ℕ}
    (h : tasks[k]? = some .woken) : (Echoes.abortTask tasks handle)[k]? = some .woken := by
  rw [getElem?_abortTask, h]
  split <;> rfl

/-- **The tasks and the slot.** -/
structure Tasked (s : Session) (t : Echoes) : Prop where
  /-- A task that sleeps is the one whose handle is in the slot. -/
  sleeping : ∀ k interval : ℕ, t.tasks[k]? = some (.sleeping interval) → t.handle = some k
  handle : ∀ k, t.handle = some k → k < t.tasks.length
  slot : s.heartbeat.echo = t.slot
  /-- There is one task for every heartbeat accepted. -/
  spawned : t.tasks.length = s.heartbeatsReceived

theorem EchoStep.tasked (h : EchoStep s t s' t') (ht : Tasked s t) : Tasked s' t' := by
  cases h with
  | quiet _ _ hecho hcount h =>
    subst h
    exact ⟨ht.sleeping, ht.handle, hecho.trans ht.slot, by rw [hcount, ht.spawned]⟩
  | initiates _ _ hheart hcount h =>
    subst h
    exact ⟨ht.sleeping, ht.handle, by rw [hheart]; exact ht.slot, by rw [hcount, ← ht.spawned]⟩
  | moves _ _ _ _ hecho hcount h =>
    subst h
    exact ⟨ht.sleeping, ht.handle, hecho.trans ht.slot, by rw [hcount, ht.spawned]⟩
  | arms _ _ _ _ _ hecho hcount h =>
    subst h
    exact ⟨ht.sleeping, ht.handle, hecho.trans ht.slot, by rw [hcount, ← ht.spawned]⟩
  | @wakes k interval htask hs h =>
    subst hs h
    have hhandle := ht.sleeping k interval htask
    have hwoken : (t.tasks.set k .woken)[k]? = some .woken := getElem?_set_self' htask
    refine ⟨fun j n hj => ?_, fun j hj => ?_, ?_, ?_⟩
    · -- the task that woke was the only one that slept
      rcases getElem?_set_cases hj with ⟨-, hcase⟩ | ⟨-, hold⟩
      · cases hcase
      · exact ht.sleeping j n hold
    · simpa using ht.handle j hj
    · simp only [wake, hhandle, decide_true, if_true, Echoes.slot, hwoken]
    · rw [List.length_set]
      exact ht.spawned
  | @accepts interval _ _ hheart hcount h =>
    subst h
    have hnew : (Echoes.abortTask (t.tasks ++ [.sleeping interval]) t.handle)[t.tasks.length]? =
        some (.sleeping interval) := by
      rw [getElem?_abortTask, if_neg fun hhandle => (ht.handle _ hhandle).ne rfl]
      simp
    refine ⟨fun j n hj => ?_, fun j hj => ?_, ?_, ?_⟩
    · obtain ⟨hne, hj⟩ := sleeping_of_abortTask hj
      rcases getElem?_concat_cases hj with ⟨rfl, -⟩ | hold
      · rfl
      · exact absurd (ht.sleeping j n hold) hne
    · cases hj
      simp [Echoes.spawn]
    · simp only [hheart, Echoes.slot, Echoes.spawn, hnew]
    · simp [Echoes.spawn, hcount, ht.spawned]
  | takes _ _ hecho hcount h =>
    subst h
    refine ⟨fun j n hj => ?_, (fun j hj => by cases hj), hecho, ?_⟩
    · obtain ⟨hne, hj⟩ := sleeping_of_abortTask hj
      exact absurd (ht.sleeping j n hj) hne
    · simpa [Echoes.take, hcount] using ht.spawned

/-- **The tasks are as the slot shows**, in every run. -/
theorem tasked_of_reachable (h : (echoing J).Reachable (s, t)) : Tasked s t := by
  refine h.invariant (P := fun p => Tasked p.1 p.2) ?_ ?_
  · rintro ⟨s, t⟩ ⟨⟨id, limits, handlers, budget, elsewhere, rfl⟩, rfl⟩
    exact ⟨(fun k n h => by simp at h), (fun k h => by cases h), rfl, rfl⟩
  · rintro ⟨s, t⟩ e ⟨s', t'⟩ - hn ht
    exact (echoStep_of_next hn).tasked ht

/-! ## The two machines -/

/-- A task that wakes is the timer in the slot that fires. -/
theorem next_echoFires {k interval : ℕ} (ht : Tasked s t)
    (htask : t.tasks[k]? = some (.sleeping interval)) :
    (machine J).next s .echoFires = some (s.wake interval (t.handle = some k)) := by
  have hhandle := ht.sleeping k interval htask
  have hslot : s.heartbeat.echo = .armed interval := by
    rw [ht.slot, Echoes.slot, hhandle]
    simp only [htask]
  show s.next J .echoFires = _
  simp only [next, hslot, wake, hhandle, decide_true, if_true]

/-- The timer in the slot that fires is a task that sleeps. -/
theorem exists_sleeping (ht : Tasked s t) (hn : (machine J).next s .echoFires = some s') :
    ∃ k interval : ℕ, t.tasks[k]? = some (.sleeping interval) := by
  have hslot : ∃ interval, t.slot = .armed interval := by
    rw [← ht.slot]
    replace hn : s.next J .echoFires = some s' := hn
    simp only [next] at hn
    split at hn
    · exact ⟨_, ‹_›⟩
    · cases hn
  obtain ⟨interval, hslot⟩ := hslot
  unfold Echoes.slot at hslot
  split at hslot
  · cases hslot
  · split at hslot
    · exact ⟨_, _, ‹_›⟩
    · cases hslot

/-- Without its tasks it is the session machine. -/
theorem reachable_of_echoing (h : (echoing J).Reachable (s, t)) : (machine J).Reachable s := by
  refine h.project (N := machine J) (f := Prod.fst) (fun _ (hp : _ ∧ _) => hp.1) ?_
  rintro ⟨s, t⟩ e ⟨s', t'⟩ hreach - hn
  rcases next_echoing hn with ⟨d, -, -, hd, -⟩ | ⟨k, interval, -, htask, rfl, -⟩
  · exact .single trivial hd
  · exact .single trivial (next_echoFires (tasked_of_reachable hreach) htask)

/-- Every run of a session has its tasks. -/
theorem exists_echoing (h : (machine J).Reachable s) : ∃ t, (echoing J).Reachable (s, t) := by
  refine h.invariant (P := fun s => ∃ t, (echoing J).Reachable (s, t)) ?_ ?_
  · intro s hs
    exact ⟨{}, .of_init ⟨hs, rfl⟩⟩
  · rintro s e s' - hn ⟨t, hreach⟩
    by_cases he : e = .echoFires
    · subst he
      obtain ⟨k, interval, htask⟩ := exists_sleeping (tasked_of_reachable hreach) hn
      have hs : s' = s.wake interval (t.handle = some k) :=
        Option.some.inj (hn.symm.trans (next_echoFires (tasked_of_reachable hreach) htask))
      have hwakes : (echoing J).next (s, t) (.wakes k) = some (s', { t with
          tasks := t.tasks.set k .woken, callers := t.callers ++ [.echo k] }) := by
        simp only [echoing, htask, hs]
      exact ⟨_, hreach.step trivial hwakes⟩
    · have hsteps : (echoing J).next (s, t) (.step e) = some (s', follow s t e) := by
        rw [next_step he, hn]
        rfl
      exact ⟨_, hreach.step trivial hsteps⟩

/-- **The tasks are there in every run of a session, and make no other runs.** -/
theorem reachable_iff_echoing : (machine J).Reachable s ↔ ∃ t, (echoing J).Reachable (s, t) :=
  ⟨exists_echoing, fun ⟨_, h⟩ => reachable_of_echoing h⟩

/-! ## What is counted -/

/-- The tasks that called `send_heartbeat`. -/
def callingTasks (t : Echoes) : List ℕ := t.callers.filterMap Caller.task

/-- **What the heartbeats of a session add up to.** -/
structure Counted (s : Session) (t : Echoes) : Prop where
  callers : t.callers.length = s.beats.length
  /-- A task calls `send_heartbeat` once. -/
  once : (callingTasks t).Nodup
  woken : ∀ k ∈ callingTasks t, t.tasks[k]? = some .woken
  /-- A call sets `awaiting` once. -/
  armedOnce : t.armed.Nodup
  past : ∀ i ∈ t.armed, ∃ b, s.beats[i]? = some b ∧ b.pc.waking = false
  /-- Every heartbeat accepted used up one time that `awaiting` was set. -/
  accepted : s.heartbeatsReceived + (if s.heartbeat.awaiting then 1 else 0) ≤ 1 + t.armed.length

/-- What was past `awaiting` stays so. -/
theorem past_of_set {armed : List ℕ} {i : ℕ} {b b' : Beat} (hb : s.beats[i]? = some b)
    (hpc : b.pc.waking = false → b'.pc.waking = false) (hbeats : s'.beats = s.beats.set i b')
    (hpast : ∀ j ∈ armed, ∃ c, s.beats[j]? = some c ∧ c.pc.waking = false) :
    ∀ j ∈ armed, ∃ c, s'.beats[j]? = some c ∧ c.pc.waking = false := by
  intro j hj
  rw [hbeats]
  exact exists_getElem?_set (hpast j hj) hb hpc

theorem past_of_concat {armed : List ℕ} {b : Beat} (hbeats : s'.beats = s.beats ++ [b])
    (hpast : ∀ j ∈ armed, ∃ c, s.beats[j]? = some c ∧ c.pc.waking = false) :
    ∀ j ∈ armed, ∃ c, s'.beats[j]? = some c ∧ c.pc.waking = false := by
  intro j hj
  obtain ⟨c, hc, hwaking⟩ := hpast j hj
  exact ⟨c, by rw [hbeats, getElem?_append_some hc], hwaking⟩

theorem EchoStep.counted (h : EchoStep s t s' t') (hc : Counted s t) : Counted s' t' := by
  cases h with
  | quiet hbeats hawaiting _ hcount h =>
    subst h
    refine ⟨by rw [hbeats]; exact hc.callers, hc.once, hc.woken, hc.armedOnce, ?_, ?_⟩
    · rw [hbeats]
      exact hc.past
    · rw [hcount, hawaiting]
      exact hc.accepted
  | initiates _ hbeats hheart hcount h =>
    subst h
    have htasks : callingTasks { t with callers := t.callers ++ [.initiate] } = callingTasks t := by
      simp [callingTasks, Caller.task]
    refine ⟨by simp [hbeats, hc.callers], ?_, ?_, hc.armedOnce, past_of_concat hbeats hc.past, ?_⟩
    · rw [htasks]
      exact hc.once
    · rw [htasks]
      exact hc.woken
    · rw [hcount, hheart]
      exact hc.accepted
  | @wakes k interval htask hs h =>
    subst hs h
    have htasks : callingTasks { t with
        tasks := t.tasks.set k .woken, callers := t.callers ++ [.echo k] } =
        callingTasks t ++ [k] := by
      simp [callingTasks, Caller.task]
    have hfresh : k ∉ callingTasks t := fun hk => by
      rw [hc.woken k hk] at htask
      cases htask
    refine ⟨by simp [wake, hc.callers], ?_, ?_, hc.armedOnce, past_of_concat rfl hc.past, ?_⟩
    · rw [htasks, ← List.concat_eq_append]
      exact hc.once.concat hfresh
    · rw [htasks]
      intro j hj
      by_cases hkj : k = j
      · subst hkj
        exact getElem?_set_self' htask
      · rw [List.getElem?_set_ne hkj]
        refine hc.woken j ?_
        rcases List.mem_append.mp hj with hj | hj
        · exact hj
        · exact absurd (List.mem_singleton.mp hj).symm hkj
    · have hawaiting : (s.wake interval (t.handle = some k)).heartbeat.awaiting =
          s.heartbeat.awaiting := by
        unfold wake
        split <;> rfl
      rw [hawaiting]
      exact hc.accepted
  | moves hb hpc hbeats hawaiting _ hcount h =>
    subst h
    refine ⟨by rw [hbeats, List.length_set]; exact hc.callers, hc.once, hc.woken, hc.armedOnce,
      past_of_set hb hpc hbeats hc.past, ?_⟩
    rw [hcount, hawaiting]
    exact hc.accepted
  | @arms i b b' hb hpc hpc' hbeats hawaiting _ hcount h =>
    subst h
    have hfresh : i ∉ t.armed := fun hi => by
      obtain ⟨c, hget, hwaking⟩ := hc.past i hi
      obtain rfl : c = b := Option.some.inj (hget.symm.trans hb)
      rw [hpc] at hwaking
      cases hwaking
    refine ⟨by rw [hbeats, List.length_set]; exact hc.callers, hc.once, hc.woken, ?_, ?_, ?_⟩
    · show (t.armed ++ [i]).Nodup
      rw [← List.concat_eq_append]
      exact hc.armedOnce.concat hfresh
    · intro j hj
      rcases List.mem_append.mp hj with hj | hj
      · exact past_of_set hb (fun _ => hpc') hbeats hc.past j hj
      · rw [List.mem_singleton.mp hj, hbeats]
        exact ⟨b', getElem?_set_self' hb, hpc'⟩
    · have haccepted := hc.accepted
      rw [hcount, hawaiting, List.length_append, List.length_singleton]
      simp only [if_true]
      omega
  | @accepts interval hbeats hawaiting hheart hcount h =>
    subst h
    have haccepted := hc.accepted
    rw [hawaiting] at haccepted
    refine ⟨by rw [hbeats]; exact hc.callers, hc.once, fun k hk => ?_, hc.armedOnce, ?_, ?_⟩
    · refine woken_of_abortTask ?_
      have hwoken := hc.woken k hk
      rw [getElem?_append_some hwoken]
    · rw [hbeats]
      exact hc.past
    · have hsame : (t.spawn interval).armed = t.armed := rfl
      rw [hheart, hcount, hsame]
      simpa using haccepted
  | takes hbeats hawaiting _ hcount h =>
    subst h
    refine ⟨by rw [hbeats]; exact hc.callers, hc.once,
      fun k hk => woken_of_abortTask (hc.woken k hk), hc.armedOnce, ?_, ?_⟩
    · rw [hbeats]
      exact hc.past
    · rw [hcount, hawaiting]
      exact hc.accepted

/-- **The heartbeats add up**, in every run. -/
theorem counted_of_reachable (h : (echoing J).Reachable (s, t)) : Counted s t := by
  refine h.invariant (P := fun p => Counted p.1 p.2) ?_ ?_
  · rintro ⟨s, t⟩ ⟨⟨id, limits, handlers, budget, elsewhere, rfl⟩, rfl⟩
    exact ⟨rfl, List.nodup_nil, (fun k hk => by cases hk), List.nodup_nil,
      (fun i hi => by cases hi), le_refl _⟩
  · rintro ⟨s, t⟩ e ⟨s', t'⟩ - hn hc
    exact (echoStep_of_next hn).counted hc

/-! ## The frames sent -/

/-- The calls of `send_heartbeat` whose frame was queued. -/
def beatsSent (s : Session) : List ℕ := s.accepted.filterMap fun acc => acc.origin.beatIndex

/-- **A call of `send_heartbeat` queues one frame.** -/
structure BeatsSent (s : Session) : Prop where
  once : s.beatsSent.Nodup
  sent : ∀ i ∈ s.beatsSent, ∃ b, s.beats[i]? = some b ∧ b.pc.unsent = false

/-- A beat whose frame was queued does not go back. -/
theorem Step.beat_sent {e : Event J} (h : Step J s e s') {i : ℕ} {b : Beat}
    (hb : s.beats[i]? = some b) (hsent : b.pc.unsent = false) :
    ∃ b', s'.beats[i]? = some b' ∧ b'.pc.unsent = false := by
  have same : s'.beats = s.beats → ∃ b', s'.beats[i]? = some b' ∧ b'.pc.unsent = false :=
    fun hbeats => ⟨b, hbeats ▸ hb, hsent⟩
  have concat : ∀ {c : Beat}, s'.beats = s.beats ++ [c] →
      ∃ b', s'.beats[i]? = some b' ∧ b'.pc.unsent = false := fun hbeats =>
    ⟨b, by rw [hbeats, getElem?_append_some hb], hsent⟩
  cases h.heart with
  | quiet _ _ hbeats => exact same hbeats
  | initiates hs' => exact concat (by rw [hs'])
  | echoes _ hs' => exact concat (by rw [hs'])
  | expects _ _ hs' => exact same (by rw [hs'])
  | fires _ hs' => exact same (by rw [hs']; rfl)
  | accepts _ _ _ _ hs' => exact same (by rw [hs']; rfl)
  | takes _ hs' => exact same (by rw [hs'])
  | @beat j c hc hbeat =>
    have set : ∀ {c' : Beat}, (c.pc.unsent = false → c'.pc.unsent = false) →
        s'.beats = s.beats.set j c' → ∃ b', s'.beats[i]? = some b' ∧ b'.pc.unsent = false := by
      intro c' hpc hbeats
      rw [hbeats]
      exact exists_getElem?_set ⟨b, hb, hsent⟩ hc hpc
    cases hbeat with
    | notOpen => exact set (fun _ => rfl) rfl
    | checked hpc => exact set (by rw [hpc]; intro hno; cases hno) rfl
    | arms hpc => exact set (by rw [hpc]; intro hno; cases hno) rfl
    | enqueues hpc he =>
      obtain ⟨_, _, _, _, _, rfl⟩ := he.frame
      exact set (by rw [hpc]; intro hno; cases hno) rfl
    | closes => exact set (fun _ => rfl) rfl
    | installs => exact set (fun _ => rfl) rfl

/-- A beat that queues its frame has done so. -/
theorem beat_of_accepted {i : ℕ} {b : Beat} (hb : s.beats[i]? = some b) (h : BeatStep s i b s')
    {acc : Accepted} (hacc : s'.accepted = s.accepted ++ [acc]) :
    ∃ b', s'.beats[i]? = some b' ∧ b'.pc.unsent = false := by
  have hne : s'.accepted ≠ s.accepted := by
    rw [hacc]
    simp
  cases h with
  | enqueues hpc he =>
    rcases he.cases with ⟨rfl, -⟩ | ⟨pc, rfl, hsame⟩ | ⟨error, rfl, hsame⟩
    · obtain ⟨_, _, _, _, _, rfl⟩ := he.frame
      exact ⟨_, getElem?_set_self' hb, rfl⟩
    · exact absurd hsame hne
    · exact absurd hsame hne
  | _ => exact absurd rfl hne

/-- **Every call of `send_heartbeat` queues one frame**, in every run. -/
theorem beatsSent_of_reachable (h : (machine J).Reachable s) : BeatsSent s := by
  refine h.invariant (P := fun s => BeatsSent s) ?_ ?_
  · rintro s ⟨id, limits, handlers, budget, elsewhere, rfl⟩
    exact ⟨List.nodup_nil, fun i hi => by cases hi⟩
  · intro s e s' _ hn ih
    have hstep := step_of_next hn
    have same : s'.beatsSent = s.beatsSent → BeatsSent s' := fun hsame => by
      refine ⟨hsame ▸ ih.once, fun i hi => ?_⟩
      obtain ⟨b, hb, hsent⟩ := ih.sent i (hsame ▸ hi)
      exact hstep.beat_sent hb hsent
    obtain hsame | ⟨origin, q, p, he, hfor, hpc, hacc⟩ := hstep.flow.accepts
    · exact same (by rw [beatsSent, beatsSent, hsame])
    cases origin with
    | beat i =>
      obtain rfl : e = .beat i := by cases e <;> simp_all [Event.origin]
      have hsent' : s'.beatsSent = s.beatsSent ++ [i] := by
        simp [beatsSent, hacc, Origin.beatIndex]
      obtain ⟨b, hb, hnext⟩ := Option.bind_eq_some_iff.mp hn
      have hfresh : i ∉ s.beatsSent := fun hi => by
        obtain ⟨c, hc, hsent⟩ := ih.sent i hi
        obtain rfl : c = b := Option.some.inj (hc.symm.trans hb)
        cases hpc : c.pc <;> simp_all [enqueueOf, Beat.enqueue, BeatPc.unsent]
      refine ⟨?_, fun j hj => ?_⟩
      · rw [hsent', ← List.concat_eq_append]
        exact ih.once.concat hfresh
      · rw [hsent'] at hj
        rcases List.mem_append.mp hj with hj | hj
        · obtain ⟨c, hc, hsent⟩ := ih.sent j hj
          exact hstep.beat_sent hc hsent
        · rw [List.mem_singleton.mp hj]
          exact beat_of_accepted hb (beatStep_of_next hnext) hacc
    | _ => exact same (by simp [beatsSent, hacc, Origin.beatIndex])

/-- **A heartbeat comes from a call of `send_heartbeat`.** -/
theorem beatIndex_of_isHeartbeat (h : (machine J).Reachable s) {acc : Accepted}
    (hacc : acc ∈ s.accepted) (hheart : acc.isHeartbeat = true) :
    acc.origin.beatIndex.isSome = true := by
  simp only [Accepted.isHeartbeat, Bool.and_eq_true, List.isPrefixOf_iff_prefix] at hheart
  obtain ⟨hkind, hraw⟩ := hheart
  -- every other frame has another type
  have other : ∀ frame : Frame, Frame.parse acc.text = .ok frame → frame.kind = "HBT" :=
    fun frame hparse => Frame.kind_of_prefix (by decide) hkind (Frame.kind_of_parse hparse)
  cases ho : acc.origin with
  | beat i => rfl
  | raw k =>
    rw [ho] at hraw
    cases hraw
  | exchange i =>
    obtain ⟨x, hx, htext, -⟩ := call_of_accepted h hacc ho
    have hkind := other _ (htext ▸ parse_of_call (made_of_reachable h hx))
    exact absurd hkind (by simp [Frame.kind])
  | work j =>
    obtain ⟨w, ending, -, -, hwrote, hid⟩ := work_of_accepted h hacc ho
    obtain ⟨frame, hparse, payload, hanswer⟩ := parse_of_wrote hwrote hid
    have hkind := other frame hparse
    rcases hanswer with rfl | rfl <;> exact absurd hkind (by simp [Frame.kind])

/-- The frames that are heartbeats are no more than the calls of `send_heartbeat`. -/
theorem heartbeats_le_beats (h : (machine J).Reachable s) :
    s.accepted.countP Accepted.isHeartbeat ≤ s.beats.length := by
  have hbeats := beatsSent_of_reachable h
  have hcount : s.accepted.countP Accepted.isHeartbeat ≤ s.beatsSent.length := by
    rw [beatsSent, List.length_filterMap_eq_countP]
    exact List.countP_mono_left fun acc hacc => beatIndex_of_isHeartbeat h hacc
  refine hcount.trans (length_le_of_lt hbeats.once fun i hi => ?_)
  obtain ⟨b, hb, -⟩ := hbeats.sent i hi
  exact (List.getElem?_eq_some_iff.mp hb).1

/-- The calls of `send_heartbeat` are the initiations and the echoes. -/
theorem length_callers (callers : List Caller) :
    callers.length = callers.count .initiate + (callers.filterMap Caller.task).length := by
  induction callers with
  | nil => rfl
  | cons caller callers ih =>
    cases caller with
    | initiate =>
      simp only [List.length_cons, List.count_cons_self, List.filterMap_cons, Caller.task]
      omega
    | echo k =>
      simp only [List.length_cons, List.filterMap_cons, Caller.task]
      rw [List.count_cons_of_ne (by simp)]
      omega

/-! ## A peer cannot amplify heartbeats -/

/-- The heartbeats handed to the transport, by their places. -/
def writtenHeartbeats (s : Session) : ℕ :=
  s.written.countP fun p => (s.accepted[p]?).any Accepted.isHeartbeat

/-- **A peer cannot amplify heartbeats.** -/
structure NotAmplified (J : JsonText) (s : Session) (t : Echoes) : Prop where
  /-- The heartbeats accepted are at most one more than the calls that have set `awaiting`, -/
  accepted : s.heartbeatsReceived ≤ 1 + t.armed.length
  /-- each of which is a call of its own. -/
  armed : t.armed.Nodup ∧ ∀ i ∈ t.armed, i < s.beats.length
  /-- At most one echo task sleeps, and it is the timer in the slot. -/
  pending : ∀ j k m n : ℕ, t.tasks[j]? = some (.sleeping m) → t.tasks[k]? = some (.sleeping n) →
    j = k
  slot : ∀ k n : ℕ, t.tasks[k]? = some (.sleeping n) → s.heartbeat.echo = .armed n
  /-- There is a task for every heartbeat accepted, and an echo for no more than one of its own. -/
  spawned : t.tasks.length = s.heartbeatsReceived
  distinct : ∀ i j k : ℕ, t.callers[i]? = some (.echo k) → t.callers[j]? = some (.echo k) → i = j
  echoes : ∀ i k : ℕ, t.callers[i]? = some (.echo k) → k < s.heartbeatsReceived
  callers : t.callers.length = s.beats.length
  /-- So the heartbeats queued, and sent, are no more than the initiations and the heartbeats
  accepted. -/
  queued : s.accepted.countP Accepted.isHeartbeat ≤
    t.callers.count .initiate + s.heartbeatsReceived
  sent : s.writtenHeartbeats ≤ t.callers.count .initiate + s.heartbeatsReceived
  /-- A heartbeat with no interval, or while none is awaited, is not accepted, -/
  ignores : ∀ (text : String) (interval : ℕ), Frame.parse text = .ok (.heartbeat interval) →
    interval = 0 ∨ s.heartbeat.awaiting = false → s.acceptedInterval text = none
  /-- and a text that is not accepted as a heartbeat changes nothing of it. -/
  ignored : ∀ (text : String) (s' : Session) (t' : Echoes),
    (echoing J).next (s, t) (.step (.receive text)) = some (s', t') →
    s.acceptedInterval text = none →
      s'.heartbeat = s.heartbeat ∧ s'.heartbeatsReceived = s.heartbeatsReceived ∧ t' = t

/-- **A peer cannot amplify heartbeats**, whatever it sends and whenever the
tasks wake. -/
theorem heartbeats_not_amplified (h : (echoing J).Reachable (s, t)) : NotAmplified J s t := by
  have hreach := reachable_of_echoing h
  have htasked := tasked_of_reachable h
  have hcounted := counted_of_reachable h
  have hechoes : (callingTasks t).length ≤ s.heartbeatsReceived := by
    rw [← htasked.spawned]
    exact length_le_of_lt hcounted.once fun k hk =>
      (List.getElem?_eq_some_iff.mp (hcounted.woken k hk)).1
  have hqueued : s.accepted.countP Accepted.isHeartbeat ≤
      t.callers.count .initiate + s.heartbeatsReceived := by
    have hbeats := heartbeats_le_beats hreach
    rw [← hcounted.callers, length_callers] at hbeats
    exact hbeats.trans (Nat.add_le_add_left hechoes _)
  refine ⟨?_, ⟨hcounted.armedOnce, fun i hi => ?_⟩, ?_, ?_, htasked.spawned, ?_, ?_,
    hcounted.callers, hqueued, ?_, ?_, ?_⟩
  · exact (Nat.le_add_right _ _).trans hcounted.accepted
  · obtain ⟨b, hb, -⟩ := hcounted.past i hi
    exact (List.getElem?_eq_some_iff.mp hb).1
  · intro j k m n hj hk
    exact Option.some.inj ((htasked.sleeping j m hj).symm.trans (htasked.sleeping k n hk))
  · intro k n hk
    rw [htasked.slot, Echoes.slot, htasked.sleeping k n hk]
    simp only [hk]
  · intro i j k hi hj
    exact index_eq_of_filterMap hcounted.once hi hj rfl rfl
  · intro i k hi
    rw [← htasked.spawned]
    have hmem : k ∈ callingTasks t :=
      List.mem_filterMap.mpr ⟨.echo k, List.mem_of_getElem? hi, rfl⟩
    exact (List.getElem?_eq_some_iff.mp (hcounted.woken k hmem)).1
  · have hflow := flow_of_reachable hreach
    have hnodup : s.written.Nodup :=
      hflow.sent.sublist.nodup (List.nodup_append.mp hflow.once).1
    exact (countP_positions_le Accepted.isHeartbeat hnodup fun p hp =>
      hflow.taken p (hflow.sent.subset hp)).trans hqueued
  · intro text interval hparse hno
    simp [acceptedInterval, hparse, hno]
  · intro text s' t' hn hnone
    rw [next_step (by simp)] at hn
    obtain ⟨u, hu, heq⟩ := Option.map_eq_some_iff.mp hn
    cases heq
    replace hu : s.next J (.receive text) = some s' := hu
    simp only [next] at hu
    split at hu <;> cases hu
    obtain ⟨-, hheart⟩ := heartbeat_of_receive (J := J) (s := s) text
    rw [hnone] at hheart
    exact ⟨hheart.1, hheart.2, by simp only [follow, hnone]⟩

/-- Two heartbeats are accepted, the second after one of the session's own,
and a third is ignored; the task of the second echoes. -/
def floodedRun : List (EchoEvent compactJson) :=
  [.step (.receive "HBT5"), .step (.receive "HBT6"), .step (.initiateHeartbeat 7),
    .step (.beat 0), .step (.beat 0), .step (.receive "HBT8"), .wakes 1]

theorem heartbeats_not_amplified_floodedRun : ∃ s t,
    (echoing compactJson).run (small [], {}) floodedRun = some (s, t) ∧
    t.tasks = [.aborted, .woken] ∧ t.callers = [.initiate, .echo 1] ∧ s.ignoredFrames = 1 ∧
    NotAmplified compactJson s t := by
  have hrun : ((echoing compactJson).run (small [], {}) floodedRun).any
      (fun p => decide (p.2.tasks = [.aborted, .woken] ∧ p.2.callers = [.initiate, .echo 1] ∧
        p.1.ignoredFrames = 1)) = true := by decide +kernel
  obtain ⟨⟨s, t⟩, hs, hend⟩ := Machine.exists_of_run hrun
  obtain ⟨htasks, hcallers, hignored⟩ := of_decide_eq_true hend
  exact ⟨s, t, hs, htasks, hcallers, hignored,
    heartbeats_not_amplified (Machine.reachable_of_run ⟨init_small _ [], rfl⟩ hs)⟩

end Session

end Vcmp
