import Vcmp.Common.Clock
import Vcmp.Session.Beats
import Vcmp.Session.Provenance
/-!
# The times of a session's heartbeats

When each heartbeat was begun and each frame queued, and when the timer in
either slot was started. Of all a session does only some steps touch these
or the heartbeat, and `PulseStep` says what they do while the session stays
open.
-/

namespace Vcmp

/-- What an armed timer was started for. -/
def Timer.millis : Timer → Option ℕ
  | .armed n => some n
  | _ => none

theorem doubled_le (n : ℕ) : doubled n ≤ 2 * n := by
  unfold doubled
  omega

/-- An interval that can be doubled is. -/
theorem doubled_eq {n : ℕ} (h : 2 * n < u64Bound) : doubled n = 2 * n := by
  unfold doubled
  omega

/-- **How long things may take**, in units of which a millisecond has `perMilli`. -/
structure Pace where
  perMilli : ℕ
  /-- How late a timer may fire. -/
  timer : ℕ
  /-- How long a call of `send_heartbeat` may take. -/
  send : ℕ
  /-- How long a heartbeat that is queued may take until it is heard. -/
  transport : ℕ
  /-- By when the server initiates the heartbeat. -/
  start : ℕ
  deriving DecidableEq, Repr

/-- **When the steps of a heartbeat were taken.** -/
structure Marks where
  /-- The calls of `send_heartbeat` begun, and the frames queued, each in its place. -/
  begun : List ℕ := []
  queued : List ℕ := []
  /-- The timers started last. -/
  watchdog : ℕ := 0
  echo : ℕ := 0
  deriving DecidableEq, Repr

namespace Session

variable {J : JsonText} {s s' : Session} {e : Event J} {now : ℕ} {m : Marks}

/-- Whether a step installs a watchdog. -/
def installs (s : Session) : Event J → Bool
  | .beat i => s.beats[i]?.any fun b => b.pc = .installing
  | .expectHeartbeat _ => s.isOpen && s.heartbeatsReceived = 0
  | _ => false

/-- Whether a step asks for a heartbeat: initiates it, or expects the first. -/
def asks (s : Session) : Event J → Bool
  | .initiateHeartbeat _ => true
  | .expectHeartbeat _ => s.isOpen && s.heartbeatsReceived = 0
  | _ => false

/-- The marks after a step. -/
def mark (now : ℕ) (m : Marks) (s : Session) (e : Event J) (s' : Session) : Marks where
  begun := m.begun ++ List.replicate (s'.beats.length - s.beats.length) now
  queued := m.queued ++ List.replicate (s'.accepted.length - s.accepted.length) now
  watchdog := if s.installs e then now else m.watchdog
  echo := if s'.heartbeatsReceived = s.heartbeatsReceived then m.echo else now

/-- There is a mark for each call begun and each frame queued. -/
structure Marked (s : Session) (m : Marks) : Prop where
  begun : m.begun.length = s.beats.length
  queued : m.queued.length = s.accepted.length

theorem Marked.mark (h : Marked s m) (hbeats : s.beats.length ≤ s'.beats.length)
    (haccepted : s.accepted.length ≤ s'.accepted.length) : Marked s' (mark now m s e s') := by
  refine ⟨?_, ?_⟩
  · simp only [Session.mark, List.length_append, List.length_replicate, h.begun]
    omega
  · simp only [Session.mark, List.length_append, List.length_replicate, h.queued]
    omega

/-! ## Heartbeats are queued by `send_heartbeat` -/

/-- **A heartbeat a session sent is one of its own.** -/
theorem beat_of_heartbeat (h : (machine J).ReachableBy NoRaw s) {acc : Accepted}
    (hacc : acc ∈ s.accepted) (htext : HeartbeatText acc.text) : ∃ i, acc.origin = .beat i := by
  obtain ⟨n, hparse, -⟩ := htext
  cases ho : acc.origin with
  | exchange i =>
    obtain ⟨x, hx, hsame, -⟩ := call_of_accepted h.reachable hacc ho
    rw [hsame, parse_of_call (made_of_reachable h.reachable hx)] at hparse
    cases hparse
  | work j =>
    obtain ⟨w, ending, -, -, hwrote, hid⟩ := work_of_accepted h.reachable hacc ho
    obtain ⟨frame, hframe, payload, hanswer⟩ := parse_of_wrote hwrote hid
    rw [hframe] at hparse
    rcases hanswer with rfl | rfl <;> cases hparse
  | beat i => exact ⟨i, rfl⟩
  | raw k => exact absurd ho (origin_ne_raw h hacc k)

/-- **A heartbeat is queued by the last step of a call's `enqueue`.** -/
theorem call_of_queues (hr : (machine J).ReachableBy NoRaw s) (hok : NoRaw s e)
    (hn : (machine J).next s e = some s') (hq : QueuesHeartbeat s s') :
    ∃ (i : ℕ) (b : Beat) (q : Enqueue), e = .beat i ∧ s.beats[i]? = some b ∧ b.pc = .sending q := by
  obtain ⟨acc, hacc, htext⟩ := hq
  have hmem : acc ∈ s'.accepted := by simp [hacc]
  obtain ⟨i, ho⟩ := beat_of_heartbeat (hr.step hok hn) hmem htext
  rcases (step_of_next hn).flow.accepts with hsame | ⟨origin, q, p, he, hfor, -, hnew⟩
  · simp [hsame] at hacc
  · obtain rfl : acc = ⟨q.control, q.text, origin⟩ := by simpa [hacc] using hnew
    obtain rfl : origin = .beat i := ho
    simp only [enqueueOf, Option.bind_eq_some_iff] at hfor
    obtain ⟨b, hb, hfor⟩ := hfor
    refine ⟨i, b, q, ?_, hb, ?_⟩
    · cases e <;> simp only [Event.origin, Option.some.injEq, reduceCtorEq, Origin.beat.injEq] at he
      rw [he]
    · unfold Beat.enqueue at hfor
      split at hfor
      · cases hfor
        assumption
      · cases hfor

/-! ## What a step does to the pulse -/

/-- **What a step does to the heartbeat and its times**, while the session stays open. -/
inductive PulseStep (now : ℕ) (s : Session) (m : Marks) (s' : Session) (m' : Marks) : Event J → Prop
  /-- A text that is heard is no heartbeat, or one is not awaited. -/
  | quiet {e : Event J} (hheart : s'.heartbeat = s.heartbeat)
      (hcount : s'.heartbeatsReceived = s.heartbeatsReceived) (hbeats : s'.beats = s.beats)
      (hmarks : m'.begun = m.begun ∧ m'.watchdog = m.watchdog ∧ m'.echo = m.echo)
      (hqueue : ¬ QueuesHeartbeat s s')
      (hhears : ∀ text, e = .receive text → HeartbeatText text → s.heartbeat.awaiting = false)
      (hasks : s.asks e = false) :
      PulseStep now s m s' m' e
  | initiates {millis : ℕ} (hheart : s'.heartbeat = s.heartbeat)
      (hcount : s'.heartbeatsReceived = s.heartbeatsReceived)
      (hbeats : s'.beats = s.beats ++ [{ interval := min millis (u64Bound - 1) }])
      (hmarks : m'.begun = m.begun ++ [now] ∧ m'.watchdog = m.watchdog ∧ m'.echo = m.echo)
      (hqueue : ¬ QueuesHeartbeat s s') : PulseStep now s m s' m' (.initiateHeartbeat millis)
  | echoes {n : ℕ} (harmed : s.heartbeat.echo = .armed n)
      (hheart : s'.heartbeat = { s.heartbeat with echo := .fired })
      (hcount : s'.heartbeatsReceived = s.heartbeatsReceived)
      (hbeats : s'.beats = s.beats ++ [{ interval := n }])
      (hmarks : m'.begun = m.begun ++ [now] ∧ m'.watchdog = m.watchdog ∧ m'.echo = m.echo)
      (hqueue : ¬ QueuesHeartbeat s s') : PulseStep now s m s' m' .echoFires
  /-- A call goes on, before its frame is queued or because it was refused. -/
  | moves {i : ℕ} {b : Beat} {c : BeatPc} (hb : s.beats[i]? = some b)
      (hpc : b.pc.unsent = true) (hpc' : c.unsent = true)
      (hheart : s'.heartbeat = s.heartbeat ∨ s'.heartbeat = { s.heartbeat with awaiting := true })
      (harms : ∀ q, c = .sending q → (∃ q, b.pc = .sending q) ∨ s'.heartbeat.awaiting = true)
      (hcount : s'.heartbeatsReceived = s.heartbeatsReceived)
      (hbeats : s'.beats = s.beats.set i { b with pc := c })
      (hmarks : m'.begun = m.begun ∧ m'.watchdog = m.watchdog ∧ m'.echo = m.echo)
      (hqueue : ¬ QueuesHeartbeat s s') : PulseStep now s m s' m' (.beat i)
  /-- Its frame is queued, -/
  | queues {i : ℕ} {b : Beat} {q : Enqueue} (hb : s.beats[i]? = some b) (hpc : b.pc = .sending q)
      (hheart : s'.heartbeat = s.heartbeat) (hcount : s'.heartbeatsReceived = s.heartbeatsReceived)
      (hbeats : s'.beats = s.beats.set i { b with pc := .installing })
      (hmarks : m'.begun = m.begun ∧ m'.watchdog = m.watchdog ∧ m'.echo = m.echo)
      (haccepted : s'.accepted = s.accepted ++ [⟨q.control, q.text, .beat i⟩]) :
      PulseStep now s m s' m' (.beat i)
  /-- and its watchdog installed. -/
  | installs {i : ℕ} {b : Beat} (hb : s.beats[i]? = some b) (hpc : b.pc = .installing)
      (hheart : s'.heartbeat = { s.heartbeat with watchdog := .armed (doubled b.interval) })
      (hcount : s'.heartbeatsReceived = s.heartbeatsReceived)
      (hbeats : s'.beats = s.beats.set i { b with pc := .done })
      (hmarks : m'.begun = m.begun ∧ m'.watchdog = now ∧ m'.echo = m.echo)
      (hqueue : ¬ QueuesHeartbeat s s') : PulseStep now s m s' m' (.beat i)
  | expects {timeout : ℕ} (hnone : s.heartbeatsReceived = 0)
      (hheart : s'.heartbeat = { s.heartbeat with watchdog := .armed timeout })
      (hcount : s'.heartbeatsReceived = s.heartbeatsReceived) (hbeats : s'.beats = s.beats)
      (hmarks : m'.begun = m.begun ∧ m'.watchdog = now ∧ m'.echo = m.echo)
      (hqueue : ¬ QueuesHeartbeat s s') (hasks : s.asks (.expectHeartbeat timeout : Event J) = true) :
      PulseStep now s m s' m' (.expectHeartbeat timeout)
  /-- A heartbeat that is awaited is heard. -/
  | hears {text : String} {n : ℕ} (hparse : Frame.parse text = .ok (.heartbeat n)) (hpos : n ≠ 0)
      (hawaiting : s.heartbeat.awaiting = true)
      (hheart : s'.heartbeat = ⟨false, .absent, .armed n⟩)
      (hcount : s'.heartbeatsReceived = s.heartbeatsReceived + 1) (hbeats : s'.beats = s.beats)
      (hmarks : m'.begun = m.begun ∧ m'.watchdog = m.watchdog ∧ m'.echo = now)
      (hqueue : ¬ QueuesHeartbeat s s') : PulseStep now s m s' m' (.receive text)

/-- The marks of a step that begins no heartbeat and hears none. -/
theorem mark_of_same (now : ℕ) (m : Marks) (e : Event J) (hbeats : s'.beats.length = s.beats.length)
    (hcount : s'.heartbeatsReceived = s.heartbeatsReceived) :
    (mark now m s e s').begun = m.begun ∧
      (mark now m s e s').watchdog = (if s.installs e then now else m.watchdog) ∧
      (mark now m s e s').echo = m.echo := by
  simp [mark, hbeats, hcount]

/-- The marks of a step that begins one. -/
theorem mark_of_begins {b : Beat} (hbeats : s'.beats = s.beats ++ [b])
    (hcount : s'.heartbeatsReceived = s.heartbeatsReceived) (hinstalls : s.installs e = false) :
    (mark now m s e s').begun = m.begun ++ [now] ∧ (mark now m s e s').watchdog = m.watchdog ∧
      (mark now m s e s').echo = m.echo := by
  simp [mark, hbeats, hcount, hinstalls]

/-- A call of `send_heartbeat` goes on. -/
theorem pulse_of_beat {i : ℕ} {b : Beat} (hb : s.beats[i]? = some b) (h : BeatStep s i b s')
    (hopen : s'.isOpen = true) (hqueue : QueuesHeartbeat s s' → ∃ q, b.pc = .sending q) :
    PulseStep now s m s' (mark now m s (.beat i : Event J) s') (.beat i : Event J) := by
  have marked : ∀ pc, s'.beats = s.beats.set i { b with pc := pc } →
      s'.heartbeatsReceived = s.heartbeatsReceived →
      (mark now m s (.beat i : Event J) s').begun = m.begun ∧
        (mark now m s (.beat i : Event J) s').watchdog = (if b.pc = .installing then now else m.watchdog) ∧
        (mark now m s (.beat i : Event J) s').echo = m.echo := by
    intro pc hbeats hcount
    have hmarks := mark_of_same now m (.beat i : Event J)
      (by rw [hbeats, List.length_set]) hcount
    simpa [Session.installs, hb] using hmarks
  have silent : (∀ q, b.pc ≠ .sending q) → ¬ QueuesHeartbeat s s' := by
    intro hno hq
    obtain ⟨q, hpc⟩ := hqueue hq
    exact hno q hpc
  cases h with
  | notOpen hpc hclosed =>
    rw [show s.isOpen = true from hopen] at hclosed
    cases hclosed
  | checked hpc =>
    exact .moves hb (by rw [hpc]; rfl) (c := .arming) rfl (.inl rfl) (fun q hq => by cases hq) rfl rfl
      (by simpa [hpc] using marked .arming rfl rfl) (silent fun q => by rw [hpc]; simp)
  | arms hpc =>
    exact .moves hb (by rw [hpc]; rfl)
      (c := .sending ⟨(Frame.heartbeat b.interval).serialize, true, .check⟩) rfl (.inr rfl)
      (fun _ _ => .inr rfl) rfl rfl (by simpa [hpc] using marked _ rfl rfl)
      (silent fun q => by rw [hpc]; simp)
  | @enqueues q s₁ r hpc he =>
    rcases he.cases with ⟨rfl, hacc⟩ | ⟨pc, rfl, hacc⟩ | ⟨error, rfl, hacc⟩
    · obtain ⟨_, _, _, _, _, rfl⟩ := he.frame
      exact .queues hb hpc rfl rfl rfl (by simpa [hpc] using marked .installing rfl rfl) hacc
    · obtain ⟨_, _, _, _, _, rfl⟩ := he.frame
      refine .moves hb (by rw [hpc]; rfl) (c := .sending { q with pc := pc }) rfl (.inl rfl)
        (fun _ _ => .inl ⟨q, hpc⟩) rfl rfl (by simpa [hpc] using marked _ rfl rfl) ?_
      rintro ⟨acc, hnew, -⟩
      simp only [setBeat] at hnew hacc
      simp [hnew] at hacc
    · obtain ⟨_, _, _, _, _, rfl⟩ := he.frame
      refine .moves hb (by rw [hpc]; rfl) (c := .closing) rfl (.inl rfl)
        (fun q hq => by cases hq) rfl rfl (by simpa [hpc] using marked _ rfl rfl) ?_
      rintro ⟨acc, hnew, -⟩
      simp only [setBeat] at hnew hacc
      simp [hnew] at hacc
  | closes => cases hopen
  | installs hpc =>
    exact .installs hb hpc rfl rfl rfl (by simpa [hpc] using marked .done rfl rfl)
      (silent fun q => by rw [hpc]; simp)

/-- A text arrives. -/
theorem pulse_of_receive {text : String} (h : ReceiveStep J s text s') (hopen : s'.isOpen = true)
    (hqueue : ¬ QueuesHeartbeat s s') :
    PulseStep now s m s' (mark now m s (.receive text : Event J) s') (.receive text : Event J) := by
  have other : s'.heartbeat = s.heartbeat → s'.heartbeatsReceived = s.heartbeatsReceived →
      s'.beats = s.beats → (HeartbeatText text → s.heartbeat.awaiting = false) →
      PulseStep now s m s' (mark now m s (.receive text : Event J) s') (.receive text : Event J) := by
    intro hheart hcount hbeats hno
    refine .quiet hheart hcount hbeats (mark_of_same now m _ (by rw [hbeats]) hcount) hqueue ?_ rfl
    rintro _ htext hheard
    cases htext
    exact hno hheard
  cases h with
  | tooLarge => cases hopen
  | invalid hparse =>
    refine other rfl rfl rfl fun htext => ?_
    obtain ⟨n, hread, -⟩ := htext
    rw [hread] at hparse
    cases hparse
  | ignored _ hparse hno =>
    refine other rfl rfl rfl fun htext => hno.resolve_left fun hzero => ?_
    obtain ⟨n, hread, hpos⟩ := htext
    rw [hread] at hparse
    cases hparse
    omega
  | heartbeat _ hparse hpos hawaiting =>
    refine .hears hparse hpos hawaiting rfl rfl rfl ⟨?_, ?_, ?_⟩ hqueue
    · simp [mark, hear, count]
    · simp [mark, Session.installs]
    · simp [mark, hear, count]
  | answer _ hparse hanswer | late _ hparse hanswer =>
    refine other rfl rfl rfl fun htext => ?_
    obtain ⟨n, hread, -⟩ := htext
    rw [hread] at hparse
    cases hparse
    cases hanswer
  | message _ hparse =>
    refine other rfl rfl rfl fun htext => ?_
    obtain ⟨n, hread, -⟩ := htext
    rw [hread] at hparse
    cases hparse

/-- **Every step that leaves a session open is one of these to its pulse.** -/
theorem pulse_of_next (hr : (machine J).ReachableBy NoRaw s) (hok : NoRaw s e)
    (hn : (machine J).next s e = some s') (hopen : s'.isOpen = true) :
    PulseStep now s m s' (mark now m s e s') e := by
  have hqueue : QueuesHeartbeat s s' → ∃ (i : ℕ) (b : Beat) (q : Enqueue), e = .beat i ∧
      s.beats[i]? = some b ∧ b.pc = .sending q := call_of_queues hr hok hn
  have silent : (∀ i, e ≠ .beat i) → ¬ QueuesHeartbeat s s' := by
    intro hne hq
    obtain ⟨i, -, -, he, -⟩ := hqueue hq
    exact hne i he
  have quiet : s.installs e = false → s.asks e = false → (∀ i, e ≠ .beat i) → (∀ text, e ≠ .receive text) →
      s'.heartbeat = s.heartbeat → s'.heartbeatsReceived = s.heartbeatsReceived →
      s'.beats = s.beats → PulseStep now s m s' (mark now m s e s') e := by
    intro hinstalls hasks hnobeat hnoreceive hheart hcount hbeats
    have hmarks := mark_of_same now m e (by rw [hbeats]) hcount
    rw [hinstalls] at hmarks
    exact .quiet hheart hcount hbeats hmarks (silent hnobeat)
      (fun text he => absurd he (hnoreceive text)) hasks
  -- whoever takes the timers has found the session not open
  have taken : s.drive ≠ .finishTimers := by
    intro hdrive
    have hclosed := notOpen_of_stage hr.reachable (by rw [hdrive]; decide)
    rw [(step_of_next hn).isOpen hopen] at hclosed
    cases hclosed
  cases e with
  | beat i =>
    have hnext : s.next J (.beat i) = some s' := hn
    obtain ⟨b, hb, hstep⟩ := Option.bind_eq_some_iff.mp hnext
    refine pulse_of_beat hb (beatStep_of_next hstep) hopen fun hq => ?_
    obtain ⟨j, b', q, he, hb', hpc⟩ := hqueue hq
    cases he
    obtain rfl := Option.some.inj (hb.symm.trans hb')
    exact ⟨q, hpc⟩
  | initiateHeartbeat millis =>
    cases hn
    exact .initiates rfl rfl rfl (mark_of_begins rfl rfl rfl) (silent (by simp))
  | echoFires =>
    have hnext : s.next J .echoFires = some s' := hn
    simp only [next] at hnext
    split at hnext
    · rename_i n harmed
      cases hnext
      exact .echoes harmed rfl rfl rfl (mark_of_begins rfl rfl rfl) (silent (by simp))
    · cases hnext
  | expectHeartbeat timeout =>
    have hnext : some (s.expectHeartbeat timeout) = some s' := hn
    obtain rfl := Option.some.inj hnext
    by_cases hno : s.isOpen = false ∨ s.heartbeatsReceived ≠ 0
    · have hsame : s.expectHeartbeat timeout = s := if_pos hno
      have hoff : (s.isOpen && decide (s.heartbeatsReceived = 0)) = false := by
        rcases hno with hclosed | hcount
        · simp [hclosed]
        · simp [hcount]
      refine quiet hoff hoff (by simp) (by simp) ?_ ?_ ?_
      all_goals rw [hsame]
    · have hset : s.expectHeartbeat timeout =
          { s with heartbeat := { s.heartbeat with watchdog := .armed timeout } } := if_neg hno
      have hinstalls : s.installs (.expectHeartbeat timeout : Event J) = true := by
        simpa [Session.installs] using hno
      have hmarks := mark_of_same now m (.expectHeartbeat timeout : Event J)
        (show (s.expectHeartbeat timeout).beats.length = s.beats.length by rw [hset])
        (show (s.expectHeartbeat timeout).heartbeatsReceived = s.heartbeatsReceived by rw [hset])
      rw [if_pos hinstalls] at hmarks
      have hzero : s.heartbeatsReceived = 0 := by
        by_contra hne
        exact hno (.inr hne)
      exact .expects hzero (by rw [hset]) (by rw [hset]) (by rw [hset]) hmarks (silent (by simp))
        hinstalls
  | receive text =>
    have hnext : s.next J (.receive text) = some s' := hn
    simp only [next] at hnext
    split at hnext
    · cases hnext
      exact pulse_of_receive (receiveStep J s text) hopen (silent (by simp))
    · cases hnext
  | watchdogFires =>
    have hnext : s.next J .watchdogFires = some s' := hn
    simp only [next] at hnext
    split at hnext
    · cases hnext
      cases hopen
    · cases hnext
  | drive =>
    cases (step_of_next hn).heart with
    | quiet hheart hcount hbeats => exact quiet rfl rfl (by simp) (by simp) hheart hcount hbeats
    | takes hdrive => exact absurd hdrive taken
  | _ =>
    cases (step_of_next hn).heart with
    | quiet hheart hcount hbeats => exact quiet rfl rfl (by simp) (by simp) hheart hcount hbeats

/-- No call of `send_heartbeat` is forgotten. -/
theorem PulseStep.beats_le {m' : Marks} (h : PulseStep now s m s' m' e) :
    s.beats.length ≤ s'.beats.length := by
  cases h <;> simp [*]

theorem PulseStep.beats_ne_nil {m' : Marks} (h : PulseStep now s m s' m' e) (hne : s.beats ≠ []) :
    s'.beats ≠ [] := by
  have hle := h.beats_le
  have hpos := List.length_pos_iff.mpr hne
  exact List.length_pos_iff.mp (by omega)

/-- Nor is a heartbeat heard. -/
theorem PulseStep.count_le {m' : Marks} (h : PulseStep now s m s' m' e) :
    s.heartbeatsReceived ≤ s'.heartbeatsReceived := by
  cases h <;> omega

/-- **A heartbeat that is awaited and heard** starts the echo timer. -/
theorem PulseStep.heard {m' : Marks} {text : String} {n : ℕ} (h : PulseStep now s m s' m' e)
    (he : e = .receive text) (hparse : Frame.parse text = .ok (.heartbeat n)) (hpos : 1 ≤ n)
    (hawaiting : s.heartbeat.awaiting = true) : s'.heartbeat = ⟨false, .absent, .armed n⟩ ∧
      s'.heartbeatsReceived = s.heartbeatsReceived + 1 ∧ s'.beats = s.beats ∧ m'.echo = now ∧
      ¬ QueuesHeartbeat s s' := by
  cases h with
  | quiet _ _ _ _ _ hhears =>
    rw [hhears text he ⟨n, hparse, hpos⟩] at hawaiting
    cases hawaiting
  | hears hparse' _ _ hheart hcount hbeats hmarks hqueue =>
    cases he
    rw [hparse] at hparse'
    cases hparse'
    exact ⟨hheart, hcount, hbeats, hmarks.2.2, hqueue⟩
  | _ => cases he

end Session

end Vcmp
