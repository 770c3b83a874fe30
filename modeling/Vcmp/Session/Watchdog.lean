import Vcmp.Json.Codec
import Vcmp.Session.Heartbeat
/-!
# The watchdogs of a session

A watchdog is a task that sleeps, wakes and closes the session, and once
it has woken an abort comes too late. `send_heartbeat` spawns one, puts it
in the slot under the lock and aborts the one it found there behind the
lock. The session machine keeps the slot only; in `Watched` every watchdog
is a task of its own and each of these is a step.

A watchdog belongs to a heartbeat: the first accepted since its call set
`awaiting`. `InTime` says that no call comes too late with its watchdog,
and that no heartbeat overtakes one, and under it none is ever stale.
-/

namespace Vcmp

/-- Where a watchdog is. -/
inductive WatchdogPc where
  | sleeping
  /-- In its last poll, before `close`. -/
  | woken
  | closed
  | aborted
  deriving DecidableEq, Repr

/-- The task of a watchdog. -/
structure Watchdog where
  /-- How many heartbeats had been accepted when `awaiting` was set for it. -/
  since : ℕ
  timeout : ℕ
  pc : WatchdogPc := .sleeping
  deriving DecidableEq, Repr

namespace Watchdog

variable {w : Watchdog}

/-- Whether the task has not ended. -/
def runs (w : Watchdog) : Bool :=
  match w.pc with
  | .sleeping | .woken => true
  | .closed | .aborted => false

/-- `AbortHandle::abort`. -/
def abort (w : Watchdog) : Watchdog :=
  match w.pc with
  | .sleeping => { w with pc := .aborted }
  | _ => w

@[simp] theorem since_abort : w.abort.since = w.since := by
  unfold abort
  split <;> rfl

/-- Only a watchdog that sleeps is aborted. -/
theorem runs_abort : w.abort.runs = true ↔ w.pc = .woken := by
  rcases w with ⟨since, timeout, pc⟩
  cases pc <;> simp [abort, runs]

theorem runs_of_abort (h : w.abort.runs = true) : w.runs = true := by
  simp [runs, runs_abort.mp h]

end Watchdog

/-- What a call of `send_heartbeat` keeps to itself. -/
structure BeatLocals where
  /-- How many heartbeats had been accepted when it set `awaiting`. -/
  since : ℕ := 0
  /-- The watchdog it has spawned. -/
  watchdog : Option ℕ := none
  /-- The watchdog it took from the slot, until that is aborted. -/
  previous : Option ℕ := none
  deriving DecidableEq, Repr

/-- **A session with its watchdogs.** -/
structure Watched where
  session : Session
  watchdogs : List Watchdog := []
  /-- The watchdog in the slot. -/
  slot : Option ℕ := none
  /-- What each call of `send_heartbeat` keeps. -/
  calls : ℕ → BeatLocals := fun _ => {}

namespace Watched

open Session (TimersTaken)

/-! ## The machine -/

/-- A watchdog aborted, where there is one. -/
def abort (p : Watched) : Option ℕ → Watched
  | some d => { p with watchdogs := p.watchdogs.modify d .abort }
  | none => p

/-- A watchdog spawned. -/
def spawn (p : Watched) (since timeout : ℕ) : Watched :=
  { p with watchdogs := p.watchdogs ++ [{ since := since, timeout := timeout }] }

section

variable {J : JsonText}

/-- One step of the session, of a call of `send_heartbeat` behind its
frame, or of a watchdog. -/
inductive Event (J : JsonText) where
  | session (e : Session.Event J)
  | spawns (i : ℕ)
  | installs (i : ℕ)
  | aborts (i : ℕ)
  | wakes (d : ℕ)
  | closes (d : ℕ)

/-- The steps of the session that are steps of their own here. -/
def apart (s : Session) : Session.Event J → Bool
  | .watchdogFires => true
  | .beat i => s.beats[i]?.any (·.pc = .installing)
  | _ => false

/-- Whether the step takes the watchdog from the slot for good:
`handle_heartbeat` and `finish_close` do. -/
def takes (s : Session) : Session.Event J → Bool
  | .receive text => (s.acceptedInterval text).isSome
  | .drive =>
    match s.drive with
    | .finishTimers => true
    | _ => false
  | _ => false

/-- What a step of the session to `s` does to the watchdogs. -/
def follow (p : Watched) (e : Session.Event J) (s : Session) : Watched :=
  match e with
  | .beat i =>
    match p.session.beats[i]? with
    | some ⟨_, .arming⟩ => { p with
        session := s
        calls := Function.update p.calls i { since := p.session.heartbeatsReceived } }
    | _ => { p with session := s }
  | .expectHeartbeat timeout =>
    if p.session.isOpen = false ∨ p.session.heartbeatsReceived ≠ 0 then { p with session := s }
    else { (p.abort p.slot).spawn 0 timeout with session := s, slot := some p.watchdogs.length }
  | e =>
    if takes p.session e then { p.abort p.slot with session := s, slot := none }
    else { p with session := s }

/-- **The step.** -/
def next (J : JsonText) (p : Watched) : Event J → Option Watched
  | .session e => if apart p.session e then none else (p.session.next J e).map (p.follow e)
  | .spawns i =>
    match p.session.beats[i]?, (p.calls i).watchdog with
    | some ⟨interval, .installing⟩, none => some { p.spawn (p.calls i).since (doubled interval) with
        calls := Function.update p.calls i
          { p.calls i with watchdog := some p.watchdogs.length } }
    | _, _ => none
  | .installs i =>
    match p.session.beats[i]?, (p.calls i).watchdog with
    | some ⟨_, .installing⟩, some d => (p.session.next J (.beat i)).map fun s => { p with
        session := s
        slot := some d
        calls := Function.update p.calls i { p.calls i with previous := p.slot } }
    | _, _ => none
  | .aborts i =>
    match (p.calls i).previous with
    | some d => some { p.abort (some d) with
        calls := Function.update p.calls i { p.calls i with previous := none } }
    | none => none
  | .wakes d =>
    match p.watchdogs[d]? with
    | some ⟨since, timeout, .sleeping⟩ => some { p with
        watchdogs := p.watchdogs.set d ⟨since, timeout, .woken⟩ }
    | _ => none
  | .closes d =>
    match p.watchdogs[d]? with
    | some ⟨since, timeout, .woken⟩ => some { p with
        session := p.session.close
        watchdogs := p.watchdogs.set d ⟨since, timeout, .closed⟩ }
    | _ => none

/-- **The machine**: any session at its start, with no watchdog. -/
def machine (J : JsonText) : Machine Watched (Event J) where
  init p := ∃ s, (Session.machine J).init s ∧ p = { session := s }
  next := next J

/-! ## What a step does -/

variable {p p' : Watched} {s s' : Session} {e : Session.Event J} {w : Watchdog} {i d n : ℕ}

/-- **What a step does to the watchdogs.** -/
inductive WatchStep (J : JsonText) (p : Watched) : Event J → Watched → Prop
  | quiet {e : Session.Event J} {s : Session} (hapart : apart p.session e = false)
      (hn : (Session.machine J).next p.session e = some s) (htakes : takes p.session e = false)
      (hexpects : ∀ timeout, e = .expectHeartbeat timeout →
        p.session.isOpen = false ∨ p.session.heartbeatsReceived ≠ 0) :
      WatchStep J p (.session e) { p with session := s }
  | arms {i interval : ℕ} {s : Session} (hb : p.session.beats[i]? = some ⟨interval, .arming⟩)
      (hn : (Session.machine J).next p.session (.beat i) = some s) :
      WatchStep J p (.session (.beat i)) { p with
        session := s
        calls := Function.update p.calls i { since := p.session.heartbeatsReceived } }
  | expects {timeout : ℕ} {s : Session} (hopen : p.session.isOpen = true)
      (hnone : p.session.heartbeatsReceived = 0)
      (hn : (Session.machine J).next p.session (.expectHeartbeat timeout) = some s) :
      WatchStep J p (.session (.expectHeartbeat timeout))
        { (p.abort p.slot).spawn 0 timeout with session := s, slot := some p.watchdogs.length }
  | takes {e : Session.Event J} {s : Session} (htakes : takes p.session e = true)
      (hn : (Session.machine J).next p.session e = some s) :
      WatchStep J p (.session e) { p.abort p.slot with session := s, slot := none }
  | spawns {i interval : ℕ} (hb : p.session.beats[i]? = some ⟨interval, .installing⟩) :
      WatchStep J p (.spawns i) { p.spawn (p.calls i).since (doubled interval) with
        calls := Function.update p.calls i { p.calls i with watchdog := some p.watchdogs.length } }
  | installs {i interval d : ℕ} {s : Session}
      (hb : p.session.beats[i]? = some ⟨interval, .installing⟩)
      (hn : (Session.machine J).next p.session (.beat i) = some s) :
      WatchStep J p (.installs i) { p with
        session := s
        slot := some d
        calls := Function.update p.calls i { p.calls i with previous := p.slot } }
  | aborts {i d : ℕ} : WatchStep J p (.aborts i) { p.abort (some d) with
        calls := Function.update p.calls i { p.calls i with previous := none } }
  | wakes {d : ℕ} {w : Watchdog} (hw : p.watchdogs[d]? = some w) (hpc : w.pc = .sleeping) :
      WatchStep J p (.wakes d) { p with watchdogs := p.watchdogs.set d { w with pc := .woken } }
  | closes {d : ℕ} {w : Watchdog} (hw : p.watchdogs[d]? = some w) (hpc : w.pc = .woken) :
      WatchStep J p (.closes d) { p with
        session := p.session.close
        watchdogs := p.watchdogs.set d { w with pc := .closed } }

/-- A step of the session is one of the first four. -/
theorem watchStep_of_session (hapart : apart p.session e = false)
    (hn : (Session.machine J).next p.session e = some s) :
    WatchStep J p (.session e) (p.follow e s) := by
  have others : (∀ i, e ≠ .beat i) → (∀ timeout, e ≠ .expectHeartbeat timeout) →
      p.follow e s = (if takes p.session e then { p.abort p.slot with session := s, slot := none }
        else { p with session := s }) → WatchStep J p (.session e) (p.follow e s) := by
    intro _ hexpects hfollow
    rw [hfollow]
    split_ifs with htakes
    · exact .takes htakes hn
    · exact .quiet hapart hn (by simpa using htakes) fun timeout he => absurd he (hexpects timeout)
  cases e with
  | beat i =>
    simp only [follow]
    split
    · rename_i interval hb
      exact .arms hb hn
    · exact .quiet hapart hn rfl (by simp)
  | expectHeartbeat timeout =>
    simp only [follow]
    split_ifs with hno
    · exact .quiet hapart hn rfl fun _ _ => hno
    · push Not at hno
      exact .expects (by simpa using hno.1) hno.2 hn
  | _ => exact others (by simp) (by simp) rfl

/-- **Every step is one of these.** -/
theorem watchStep_of_next {e : Event J} (hn : (machine J).next p e = some p') :
    WatchStep J p e p' := by
  have hnext : p.next J e = some p' := hn
  cases e with
  | session e =>
    simp only [next] at hnext
    split_ifs at hnext with hapart
    obtain ⟨s, hs, rfl⟩ := Option.map_eq_some_iff.mp hnext
    exact watchStep_of_session (by simpa using hapart) hs
  | spawns i =>
    simp only [next] at hnext
    split at hnext
    · rename_i hb _
      cases hnext
      exact .spawns hb
    · cases hnext
  | installs i =>
    simp only [next] at hnext
    split at hnext
    · rename_i hb hd
      obtain ⟨s, hs, rfl⟩ := Option.map_eq_some_iff.mp hnext
      exact .installs hb hs
    · cases hnext
  | aborts i =>
    simp only [next] at hnext
    split at hnext
    · cases hnext
      exact .aborts
    · cases hnext
  | wakes d =>
    simp only [next] at hnext
    split at hnext
    · rename_i hw
      cases hnext
      exact .wakes hw rfl
    · cases hnext
  | closes d =>
    simp only [next] at hnext
    split at hnext
    · rename_i hw
      cases hnext
      exact .closes hw rfl
    · cases hnext

/-- **A session with its watchdogs is a session**: one that closes is a call of `close`. -/
theorem reachable_session {ok : Watched → Event J → Prop} (h : (machine J).ReachableBy ok p) :
    (Session.machine J).Reachable p.session := by
  refine h.project (f := Watched.session) ?_ ?_
  · rintro p ⟨s, hs, rfl⟩
    exact hs
  · intro p e p' _ _ hn
    cases watchStep_of_next hn with
    | quiet _ hs => exact .single trivial hs
    | arms _ hs => exact .single trivial hs
    | expects _ _ hs => exact .single trivial hs
    | takes _ hs => exact .single trivial hs
    | spawns => exact .refl _
    | installs _ hs => exact .single trivial hs
    | aborts => exact .refl _
    | wakes => exact .refl _
    | closes => exact .single (e := .close) trivial rfl

/-! ## Which heartbeat a watchdog is for -/

/-- A watchdog of number `n` is for a heartbeat that was accepted, or for one that is awaited. -/
def Awaits (s : Session) (n : ℕ) : Prop :=
  n ≤ s.heartbeatsReceived ∧ (n = s.heartbeatsReceived → s.heartbeat.awaiting = true)

/-- **It stays so**: whoever clears `awaiting` counts a heartbeat. -/
theorem Awaits.step (h : Awaits s n) (hn : (Session.machine J).next s e = some s') :
    Awaits s' n := by
  cases (Session.step_of_next hn).heart with
  | quiet hheart hcount =>
    unfold Awaits
    rw [hheart, hcount]
    exact h
  | initiates hs' => subst hs'; exact h
  | echoes _ hs' => subst hs'; exact h
  | beat _ hb =>
    cases hb with
    | arms => exact ⟨h.1, fun _ => rfl⟩
    | enqueues _ he => obtain ⟨_, _, _, _, _, rfl⟩ := he.frame; exact h
    | _ => exact h
  | expects _ _ hs' => subst hs'; exact h
  | fires _ hs' => subst hs'; exact h
  | accepts _ _ _ _ hs' =>
    subst hs'
    exact ⟨Nat.le_succ_of_le h.1, fun heq => absurd heq (Nat.ne_of_lt (Nat.lt_succ_of_le h.1))⟩
  | takes _ hs' => subst hs'; exact h

/-- Before a heartbeat is accepted the first one is awaited. -/
theorem awaits_zero (h : (Session.machine J).Reachable s) : Awaits s 0 :=
  ⟨Nat.zero_le _, fun hzero => Session.awaiting_of_none h hzero.symm⟩

/-- The section that sets `awaiting` accepts none. -/
theorem awaits_of_arms {interval : ℕ} (hb : s.beats[i]? = some ⟨interval, .arming⟩)
    (hn : (Session.machine J).next s (.beat i) = some s') : Awaits s' s.heartbeatsReceived := by
  have hnext : s.next J (.beat i) = some s' := hn
  simp only [Session.next, hb, Option.bind_some, Session.beatNext, Option.some.injEq] at hnext
  subst hnext
  exact ⟨le_refl _, fun _ => rfl⟩

/-! ## The watchdogs a step leaves -/

@[simp] theorem session_abort (o : Option ℕ) : (p.abort o).session = p.session := by
  cases o <;> rfl

/-- A watchdog aborted is for the same heartbeat. -/
theorem of_mem_abort {o : Option ℕ} (h : w ∈ (p.abort o).watchdogs) :
    ∃ v ∈ p.watchdogs, v.since = w.since ∧ (w.runs = true → v.runs = true) := by
  cases o with
  | none => exact ⟨w, h, rfl, id⟩
  | some d =>
    obtain ⟨k, hk⟩ := List.mem_iff_getElem?.mp h
    simp only [abort, List.getElem?_modify] at hk
    obtain ⟨v, hv, rfl⟩ := Option.map_eq_some_iff.mp hk
    refine ⟨v, List.mem_of_getElem? hv, ?_⟩
    split_ifs
    · exact ⟨(Watchdog.since_abort).symm, Watchdog.runs_of_abort⟩
    · exact ⟨rfl, id⟩

/-- So is one that is at another place. -/
theorem of_mem_set {pc : WatchdogPc} (hw : p.watchdogs[d]? = some w) (hruns : w.runs = true)
    {v : Watchdog} (h : v ∈ p.watchdogs.set d { w with pc := pc }) :
    ∃ u ∈ p.watchdogs, u.since = v.since ∧ (v.runs = true → u.runs = true) := by
  rcases List.mem_or_eq_of_mem_set h with hmem | rfl
  · exact ⟨v, hmem, rfl, id⟩
  · exact ⟨w, List.mem_of_getElem? hw, rfl, fun _ => hruns⟩

/-- **Every watchdog after a step was there before**, or is the one that is spawned. -/
theorem WatchStep.mem {e : Event J} (h : WatchStep J p e p') (hw : w ∈ p'.watchdogs) :
    (∃ v ∈ p.watchdogs, v.since = w.since ∧ (w.runs = true → v.runs = true)) ∨
      (∃ i, e = .spawns i ∧ w.since = (p.calls i).since) ∨
      ∃ timeout, e = .session (.expectHeartbeat timeout) ∧ p.session.isOpen = true ∧
        p.session.heartbeatsReceived = 0 ∧ w.since = 0 := by
  cases h with
  | quiet => exact .inl ⟨w, hw, rfl, id⟩
  | arms => exact .inl ⟨w, hw, rfl, id⟩
  | @expects timeout _ hopen hnone =>
    rcases List.mem_append.mp hw with hmem | hmem
    · exact .inl (of_mem_abort hmem)
    · obtain rfl := List.mem_singleton.mp hmem
      exact .inr (.inr ⟨timeout, rfl, hopen, hnone, rfl⟩)
  | takes => exact .inl (of_mem_abort hw)
  | @spawns i =>
    rcases List.mem_append.mp hw with hmem | hmem
    · exact .inl ⟨w, hmem, rfl, id⟩
    · obtain rfl := List.mem_singleton.mp hmem
      exact .inr (.inl ⟨i, rfl, rfl⟩)
  | installs => exact .inl ⟨w, hw, rfl, id⟩
  | aborts => exact .inl (of_mem_abort hw)
  | wakes hv hpc => exact .inl (of_mem_set hv (by simp [Watchdog.runs, hpc]) hw)
  | closes hv hpc => exact .inl (of_mem_set hv (by simp [Watchdog.runs, hpc]) hw)

/-- A call of `send_heartbeat` is numbered in the section that sets `awaiting`. -/
theorem WatchStep.since {e : Event J} (h : WatchStep J p e p') (i : ℕ) :
    (p'.calls i).since = (p.calls i).since ∨
      ((p'.calls i).since = p.session.heartbeatsReceived ∧ Awaits p'.session (p'.calls i).since) := by
  have kept : ∀ {k : ℕ} {c : BeatLocals}, c.since = (p.calls k).since →
      (Function.update p.calls k c i).since = (p.calls i).since := by
    intro k c hc
    rw [Function.update_apply]
    split_ifs with hk
    · rw [hc, hk]
    · rfl
  cases h with
  | @arms k interval s hb hn =>
    by_cases hk : i = k
    · subst hk
      refine .inr ?_
      simp only [Function.update_self]
      exact ⟨trivial, awaits_of_arms hb hn⟩
    · exact .inl (by simp [Function.update_of_ne hk])
  | quiet => exact .inl rfl
  | expects => cases hslot : p.slot <;> exact .inl rfl
  | takes => cases hslot : p.slot <;> exact .inl rfl
  | spawns => exact .inl (kept rfl)
  | installs => exact .inl (kept rfl)
  | aborts => exact .inl (kept rfl)
  | wakes => exact .inl rfl
  | closes => exact .inl rfl

/-- What a step leaves of the session: it is the same, or made a step. -/
theorem WatchStep.session {e : Event J} (h : WatchStep J p e p') :
    p'.session = p.session ∨ ∃ e', (Session.machine J).next p.session e' = some p'.session := by
  cases h with
  | quiet _ hs => exact .inr ⟨_, hs⟩
  | arms _ hs => exact .inr ⟨_, hs⟩
  | expects _ _ hs => exact .inr ⟨_, hs⟩
  | takes _ hs => exact .inr ⟨_, hs⟩
  | spawns => exact .inl rfl
  | installs _ hs => exact .inr ⟨_, hs⟩
  | aborts => exact .inl rfl
  | wakes => exact .inl rfl
  | closes => exact .inr ⟨.close, rfl⟩

/-- **Every watchdog and every call awaits its heartbeat**, or it was accepted. -/
theorem awaits_of_reachable (h : (machine J).Reachable p) :
    (∀ w ∈ p.watchdogs, Awaits p.session w.since) ∧
      ∀ i, Awaits p.session (p.calls i).since := by
  refine h.invariant_of (P := fun p => (∀ w ∈ p.watchdogs, Awaits p.session w.since) ∧
    ∀ i, Awaits p.session (p.calls i).since) ?_ ?_
  · rintro p ⟨s, hs, rfl⟩
    exact ⟨fun w hw => absurd hw List.not_mem_nil, fun _ => awaits_zero (.of_init hs)⟩
  · rintro p e p' hr - hn ⟨hwatchdogs, hcalls⟩
    have hstep := watchStep_of_next hn
    have stays : ∀ {k : ℕ}, Awaits p.session k → Awaits p'.session k := by
      intro k hk
      rcases hstep.session with hsame | ⟨e', hs⟩
      · rw [hsame]
        exact hk
      · exact hk.step hs
    refine ⟨fun w hw => ?_, fun i => ?_⟩
    · rcases hstep.mem hw with ⟨v, hv, hsince, -⟩ | ⟨i, -, hsince⟩ | ⟨-, -, -, -, hsince⟩
      · exact hsince ▸ stays (hwatchdogs v hv)
      · exact hsince ▸ stays (hcalls i)
      · exact hsince ▸ stays (awaits_zero (reachable_session hr))
    · rcases hstep.since i with hsince | ⟨-, hawaits⟩
      · exact hsince ▸ stays (hcalls i)
      · exact hawaits

/-! ## Who takes the watchdog -/

/-- Whoever takes it has accepted a heartbeat, or has taken the timers. -/
theorem taken_of_takes (hn : (Session.machine J).next s e = some s') (h : takes s e = true) :
    s'.heartbeat.watchdog = .absent ∧
      (s'.heartbeatsReceived = s.heartbeatsReceived + 1 ∨ s'.TimersTaken) := by
  cases e with
  | receive text =>
    have hnext : s.next J (.receive text) = some s' := hn
    obtain ⟨interval, hsome⟩ := Option.isSome_iff_exists.mp h
    have hheard := (Session.heartbeat_of_receive (J := J) (s := s) text).2
    rw [hsome] at hheard
    simp only [Session.next] at hnext
    split at hnext
    · cases hnext
      exact ⟨by rw [hheard.2.1], .inl hheard.2.2⟩
    · cases hnext
  | drive =>
    have hnext : s.driveNext = some s' := hn
    simp only [takes] at h
    split at h
    · rename_i hdrive
      simp only [Session.driveNext, hdrive, Option.some.injEq] at hnext
      subst hnext
      exact ⟨rfl, .inr (by simp [TimersTaken, DrivePc.stage])⟩
    · cases h
  | _ => cases h

/-- No heartbeat was accepted and the timers were not taken. -/
structure Kept (s s' : Session) : Prop where
  count : s'.heartbeatsReceived = s.heartbeatsReceived
  awaiting : s.heartbeat.awaiting = true → s'.heartbeat.awaiting = true
  timers : ¬ s.TimersTaken → ¬ s'.TimersTaken

theorem Kept.refl (s : Session) : Kept s s := ⟨rfl, id, id⟩

/-- All others leave a heartbeat awaited, and the timers in their slots. -/
theorem kept_of_not_takes (hn : (Session.machine J).next s e = some s') (h : takes s e = false) :
    Kept s s' := by
  cases (Session.step_of_next hn).heart with
  | quiet hheart hcount _ htaken => exact ⟨hcount, by rw [hheart]; exact id, htaken⟩
  | initiates hs' => subst hs'; exact ⟨rfl, id, id⟩
  | echoes _ hs' => subst hs'; exact ⟨rfl, id, id⟩
  | beat _ hb =>
    cases hb with
    | arms => exact ⟨rfl, fun _ => rfl, id⟩
    | enqueues _ he => obtain ⟨_, _, _, _, _, rfl⟩ := he.frame; exact ⟨rfl, id, id⟩
    | _ => exact ⟨rfl, id, id⟩
  | expects _ _ hs' => subst hs'; exact ⟨rfl, id, id⟩
  | fires _ hs' => subst hs'; exact ⟨rfl, id, id⟩
  | @accepts text interval hdrive hparse hpos hawaiting hs' =>
    have hnext : s.next J (.receive text) = some s' := hn
    simp only [Session.next, hdrive, Option.some.injEq] at hnext
    have hheard := (Session.heartbeat_of_receive (J := J) (s := s) text).2
    have hnone : s.acceptedInterval text = none := by simpa [takes] using h
    rw [hnone, hnext, hs'] at hheard
    exact absurd hheard.2 (by simp)
  | takes hdrive => simp [takes, hdrive] at h

/-- Nor do they touch the slot, but for the two that put a watchdog there. -/
theorem watchdog_of_quiet (hn : (Session.machine J).next s e = some s')
    (hapart : apart s e = false) (htakes : takes s e = false)
    (hexpects : ∀ timeout, e = .expectHeartbeat timeout →
      s.isOpen = false ∨ s.heartbeatsReceived ≠ 0) :
    s'.heartbeat.watchdog = s.heartbeat.watchdog := by
  have hcount := (kept_of_not_takes hn htakes).count
  cases (Session.step_of_next hn).heart with
  | quiet hheart => rw [hheart]
  | initiates hs' => subst hs'; rfl
  | echoes _ hs' => subst hs'; rfl
  | beat hb hstep =>
    cases hstep with
    | enqueues _ he => obtain ⟨_, _, _, _, _, rfl⟩ := he.frame; rfl
    | installs hpc => simp [apart, hb, hpc] at hapart
    | _ => rfl
  | expects hopen hnone =>
    rcases hexpects _ rfl with hclosed | hsome
    · simp [hopen] at hclosed
    · exact absurd hnone hsome
  | fires => cases hapart
  | accepts _ _ _ _ hs' =>
    subst hs'
    exact absurd hcount (Nat.succ_ne_self _)
  | takes hdrive => simp [takes, hdrive] at htakes

/-- The section that fills the slot leaves `awaiting` and the driving task as they are. -/
theorem next_installing {interval : ℕ} (hb : s.beats[i]? = some ⟨interval, .installing⟩)
    (hn : (Session.machine J).next s (.beat i) = some s') :
    s'.heartbeat.watchdog ≠ .absent ∧ s'.heartbeat.awaiting = s.heartbeat.awaiting ∧
      s'.drive = s.drive := by
  have hnext : s.next J (.beat i) = some s' := hn
  simp only [Session.next, hb, Option.bind_some, Session.beatNext, Option.some.injEq] at hnext
  subst hnext
  exact ⟨by simp, rfl, rfl⟩

/-- **The slot is the session machine's**: there is a watchdog in both or in neither. -/
theorem slot_isSome_iff (h : (machine J).Reachable p) :
    p.slot.isSome = true ↔ p.session.heartbeat.watchdog ≠ .absent := by
  refine h.invariant (P := fun p => p.slot.isSome = true ↔
    p.session.heartbeat.watchdog ≠ .absent) ?_ ?_
  · rintro p ⟨s, ⟨id, limits, handlers, budget, elsewhere, rfl⟩, rfl⟩
    simp [Session.spawn]
  · intro p e p' _ hn ih
    cases watchStep_of_next hn with
    | @quiet e s hapart hs htakes hexpects =>
      have hsame := watchdog_of_quiet hs hapart htakes hexpects
      rw [hsame]
      exact ih
    | arms hb hs =>
      have hsame := watchdog_of_quiet hs (by simp [apart, hb]) rfl (by simp)
      rw [hsame]
      exact ih
    | expects hopen hnone hs =>
      obtain rfl := Option.some.inj hs
      simp [Session.expectHeartbeat, hopen, hnone]
    | takes htakes hs => simp [(taken_of_takes hs htakes).1]
    | spawns => exact ih
    | installs hb hs => simp [(next_installing hb hs).1]
    | aborts => exact ih
    | wakes => exact ih
    | closes => exact ih

/-! ## No stale watchdog -/

/-- **In time.** A call of `send_heartbeat` spawns its watchdog before the
heartbeat it is for is accepted and before the timers are taken, and puts it
in the slot while a heartbeat is awaited; and when a heartbeat is accepted,
or the timers are taken, every watchdog that runs is in the slot and sleeps. -/
def InTime (p : Watched) : Event J → Prop
  | .spawns i => (p.calls i).since = p.session.heartbeatsReceived ∧ ¬ p.session.TimersTaken
  | .installs _ => p.session.heartbeat.awaiting = true ∧ ¬ p.session.TimersTaken
  | .session e => takes p.session e = true → ∀ (d : ℕ) (w : Watchdog), p.watchdogs[d]? = some w →
      w.runs = true → p.slot = some d ∧ w.pc = .sleeping
  | _ => True

/-- **No stale watchdog.** -/
structure NoStaleWatchdog (J : JsonText) (p : Watched) : Prop where
  /-- A watchdog is in the slot while a heartbeat is awaited and the timers are not taken. -/
  installed : p.slot.isSome = true →
    p.session.heartbeat.awaiting = true ∧ ¬ p.session.TimersTaken
  /-- The heartbeat that is accepted disarms every watchdog that is for it. -/
  disarmed : ∀ w ∈ p.watchdogs, w.since < p.session.heartbeatsReceived → w.runs = false
  /-- A watchdog closes the session while its heartbeat is awaited. -/
  closes : ∀ {d : ℕ} {p' : Watched}, (machine J).next p (.closes d) = some p' →
    ∃ w, p.watchdogs[d]? = some w ∧ w.since = p.session.heartbeatsReceived ∧
      p.session.heartbeat.awaiting = true
  /-- No timer outlives the session. -/
  timers : p.session.TimersTaken ∨ p.session.closed = true →
    (∀ w ∈ p.watchdogs, w.runs = false) ∧ p.session.heartbeat.echo = .absent

/-- What runs is for a heartbeat that is still to come, before the close. -/
structure WatchdogsFit (p : Watched) : Prop where
  installed : p.slot.isSome = true →
    p.session.heartbeat.awaiting = true ∧ ¬ p.session.TimersTaken
  runs : ∀ w ∈ p.watchdogs, w.runs = true →
    w.since = p.session.heartbeatsReceived ∧ ¬ p.session.TimersTaken

/-- A session that is open has its timers. -/
theorem not_timersTaken_of_isOpen (h : (Session.machine J).Reachable s) (hopen : s.isOpen = true) :
    ¬ s.TimersTaken := by
  intro htaken
  have hstage : DrivePc.finishTimers.stage = 7 := rfl
  unfold TimersTaken at htaken
  rw [Session.notOpen_of_stage h (by omega)] at hopen
  cases hopen

/-- Once the watchdog in the slot is aborted none runs, if none else ran or had woken. -/
theorem not_runs_of_abort (hall : ∀ (d : ℕ) (w : Watchdog), p.watchdogs[d]? = some w →
    w.runs = true → p.slot = some d ∧ w.pc = .sleeping) (hw : w ∈ (p.abort p.slot).watchdogs) :
    w.runs = false := by
  by_contra hruns
  rw [Bool.not_eq_false] at hruns
  obtain ⟨k, hk⟩ := List.mem_iff_getElem?.mp hw
  cases hslot : p.slot with
  | none =>
    rw [hslot] at hk
    have hnone := (hall k w hk hruns).1
    rw [hslot] at hnone
    cases hnone
  | some d =>
    rw [hslot] at hk
    simp only [abort, List.getElem?_modify] at hk
    obtain ⟨v, hv, rfl⟩ := Option.map_eq_some_iff.mp hk
    split_ifs at hruns with hd
    · have hsleeps := (hall k v hv (Watchdog.runs_of_abort hruns)).2
      rw [Watchdog.runs_abort.mp hruns] at hsleeps
      cases hsleeps
    · have hhere := (hall k v hv hruns).1
      rw [hslot] at hhere
      exact hd (Option.some.inj hhere)

/-- One that had woken, or was not in the slot, runs on behind that abort. -/
theorem runs_of_abort (hw : p.watchdogs[d]? = some w) (hruns : w.runs = true)
    (hnot : ¬ (p.slot = some d ∧ w.pc = .sleeping)) :
    ∃ v ∈ (p.abort p.slot).watchdogs, v.since = w.since ∧ v.runs = true := by
  cases hslot : p.slot with
  | none => exact ⟨w, List.mem_of_getElem? hw, rfl, hruns⟩
  | some k =>
    have hget : (p.abort (some k)).watchdogs[d]? = some (if k = d then w.abort else w) := by
      simp [abort, List.getElem?_modify, hw]
    refine ⟨_, List.mem_of_getElem? hget, ?_⟩
    split_ifs with hk
    · refine ⟨Watchdog.since_abort, Watchdog.runs_abort.mpr ?_⟩
      rw [hslot, hk] at hnot
      cases hpc : w.pc with
      | sleeping => exact absurd ⟨rfl, hpc⟩ hnot
      | woken => rfl
      | closed => simp [Watchdog.runs, hpc] at hruns
      | aborted => simp [Watchdog.runs, hpc] at hruns
    · exact ⟨rfl, hruns⟩

/-- They fit on where the slot is not filled and what runs ran before. -/
theorem WatchdogsFit.kept (h : WatchdogsFit p) (hs : Kept p.session p'.session)
    (hslot : p'.slot.isSome = true → p.slot.isSome = true)
    (hwatchdogs : ∀ w ∈ p'.watchdogs,
      ∃ v ∈ p.watchdogs, v.since = w.since ∧ (w.runs = true → v.runs = true)) :
    WatchdogsFit p' where
  installed hsome := by
    obtain ⟨hawaiting, hnot⟩ := h.installed (hslot hsome)
    exact ⟨hs.awaiting hawaiting, hs.timers hnot⟩
  runs w hw hruns := by
    obtain ⟨v, hv, hsince, hback⟩ := hwatchdogs w hw
    obtain ⟨hcount, hnot⟩ := h.runs v hv (hback hruns)
    exact ⟨by rw [← hsince, hcount, hs.count], hs.timers hnot⟩

/-- **One step in time** keeps the watchdogs fitting. -/
theorem WatchdogsFit.step {e : Event J} (h : WatchdogsFit p) (hr : (machine J).Reachable p)
    (hok : InTime p e) (hn : (machine J).next p e = some p') : WatchdogsFit p' := by
  have hsession := reachable_session hr
  cases watchStep_of_next hn with
  | quiet _ hs htakes =>
    exact h.kept (kept_of_not_takes hs htakes) id fun w hw => ⟨w, hw, rfl, id⟩
  | arms _ hs => exact h.kept (kept_of_not_takes hs rfl) id fun w hw => ⟨w, hw, rfl, id⟩
  | expects hopen hnone hs =>
    have hkept := kept_of_not_takes hs rfl
    have hnot := hkept.timers (not_timersTaken_of_isOpen hsession hopen)
    refine ⟨fun _ => ⟨hkept.awaiting (Session.awaiting_of_none hsession hnone), hnot⟩,
      fun w hw hruns => ?_⟩
    rcases List.mem_append.mp hw with hmem | hmem
    · obtain ⟨v, hv, hsince, hback⟩ := of_mem_abort hmem
      exact ⟨by rw [← hsince, (h.runs v hv (hback hruns)).1, ← hkept.count], hnot⟩
    · obtain rfl := List.mem_singleton.mp hmem
      exact ⟨by rw [← hnone, ← hkept.count], hnot⟩
  | takes htakes =>
    refine ⟨fun hslot => absurd hslot (by simp), fun w hw hruns => ?_⟩
    rw [not_runs_of_abort (hok htakes) hw] at hruns
    cases hruns
  | spawns =>
    refine ⟨h.installed, fun w hw hruns => ?_⟩
    rcases List.mem_append.mp hw with hmem | hmem
    · exact h.runs w hmem hruns
    · obtain rfl := List.mem_singleton.mp hmem
      exact hok
  | installs hb hs =>
    have hkept := kept_of_not_takes hs rfl
    refine ⟨fun _ => ⟨hkept.awaiting hok.1, hkept.timers hok.2⟩, fun w hw hruns => ?_⟩
    obtain ⟨hsince, hnot⟩ := h.runs w hw hruns
    exact ⟨hsince.trans hkept.count.symm, hkept.timers hnot⟩
  | aborts => exact h.kept (.refl _) id fun w hw => of_mem_abort hw
  | wakes hv hpc =>
    exact h.kept (.refl _) id fun w hw => of_mem_set hv (by simp [Watchdog.runs, hpc]) hw
  | closes hv hpc =>
    exact h.kept ⟨rfl, id, id⟩ id fun w hw => of_mem_set hv (by simp [Watchdog.runs, hpc]) hw

/-- **In time, always**: the watchdogs fit in every run whose steps are in time. -/
theorem watchdogsFit_of_reachable (h : (machine J).ReachableBy InTime p) : WatchdogsFit p := by
  refine h.invariant_of ?_ fun p e p' hr hok hn hfit => hfit.step hr.reachable hok hn
  rintro p ⟨s, -, rfl⟩
  exact ⟨fun hslot => absurd hslot (by simp), fun w hw => absurd hw List.not_mem_nil⟩

theorem noStaleWatchdog_of_fit (h : (machine J).Reachable p) (hfit : WatchdogsFit p) :
    NoStaleWatchdog J p where
  installed := hfit.installed
  disarmed w hw hlt := by
    by_contra hruns
    have hsince := (hfit.runs w hw (by simpa using hruns)).1
    omega
  closes {d p'} hn := by
    have hawaits := (awaits_of_reachable h).1
    cases watchStep_of_next hn with
    | @closes _ w hw hpc =>
      have hmem := List.mem_of_getElem? hw
      have hsince := (hfit.runs w hmem (by simp [Watchdog.runs, hpc])).1
      exact ⟨w, hw, hsince, (hawaits w hmem).2 hsince⟩
  timers hover := by
    have hsession := reachable_session h
    have htaken : p.session.TimersTaken := by
      rcases hover with htaken | hclosed
      · exact htaken
      · have hstage := Session.finished_of_closed hsession hclosed
        have hseven : DrivePc.finishTimers.stage = 7 := rfl
        unfold TimersTaken
        omega
    refine ⟨fun w hw => ?_, ?_⟩
    · by_contra hruns
      exact (hfit.runs w hw (by simpa using hruns)).2 htaken
    · by_contra hecho
      exact Session.not_timersTaken_of_echo hsession hecho htaken

/-- **A step that is too late leaves a watchdog stale.** -/
theorem stale_of_late {e : Event J} (h : (machine J).Reachable p)
    (hn : (machine J).next p e = some p') (hlate : ¬ InTime p e) : ¬ NoStaleWatchdog J p' := by
  intro hsafe
  obtain ⟨hwatchdogs, hcalls⟩ := awaits_of_reachable h
  cases watchStep_of_next hn with
  | @spawns i interval hb =>
    -- the watchdog that is spawned is the last one
    have hmem : (⟨(p.calls i).since, doubled interval, .sleeping⟩ : Watchdog) ∈
        (p.spawn (p.calls i).since (doubled interval)).watchdogs :=
      List.mem_append_right _ (List.mem_singleton_self _)
    by_cases htaken : p.session.TimersTaken
    · cases (hsafe.timers (.inl htaken)).1 _ hmem
    · have hlt : (p.calls i).since < p.session.heartbeatsReceived :=
        lt_of_le_of_ne (hcalls i).1 fun heq => hlate ⟨heq, htaken⟩
      cases hsafe.disarmed _ hmem hlt
  | installs hb hs =>
    obtain ⟨-, hawaiting, hdrive⟩ := next_installing hb hs
    obtain ⟨hsome, hnot⟩ := hsafe.installed rfl
    refine hlate ⟨hawaiting ▸ hsome, ?_⟩
    unfold TimersTaken at hnot ⊢
    rw [← hdrive]
    exact hnot
  | takes htakes hs =>
    refine hlate fun _ d w hw hruns => ?_
    by_contra hnot
    obtain ⟨v, hv, hsince, hstill⟩ := runs_of_abort hw hruns hnot
    rcases (taken_of_takes hs htakes).2 with hcount | htaken
    · have hle := (hwatchdogs w (List.mem_of_getElem? hw)).1
      have hover := hsafe.disarmed v hv (by rw [hsince, hcount]; omega)
      rw [hover] at hstill
      cases hstill
    · have hover := (hsafe.timers (.inl htaken)).1 v hv
      rw [hover] at hstill
      cases hstill
  | quiet _ _ htakes => exact hlate fun htrue => absurd htrue (by simp [htakes])
  | arms => exact hlate fun htrue => absurd htrue (by simp [takes])
  | expects => exact hlate fun htrue => absurd htrue (by simp [takes])
  | aborts => exact hlate trivial
  | wakes => exact hlate trivial
  | closes => exact hlate trivial

/-- **Stale watchdogs**: there are none in a run whose steps are all in
time, and one that is not leaves one at once. -/
theorem watchdogs_in_time (J : JsonText) :
    (∀ p, (machine J).ReachableBy InTime p → NoStaleWatchdog J p) ∧
      ∀ p e p', (machine J).Reachable p → (machine J).next p e = some p' → ¬ InTime p e →
        ¬ NoStaleWatchdog J p' :=
  ⟨fun _ h => noStaleWatchdog_of_fit h.reachable (watchdogsFit_of_reachable h),
    fun _ _ _ => stale_of_late⟩

/-- Whether a step is in time. -/
def inTime (p : Watched) : Event J → Bool
  | .spawns i => decide ((p.calls i).since = p.session.heartbeatsReceived) &&
      decide (p.session.drive.stage ≤ DrivePc.finishTimers.stage)
  | .installs _ => p.session.heartbeat.awaiting &&
      decide (p.session.drive.stage ≤ DrivePc.finishTimers.stage)
  | .session e => !takes p.session e || (List.range p.watchdogs.length).all fun d =>
      p.watchdogs[d]?.all fun w => !w.runs || decide (p.slot = some d ∧ w.pc = .sleeping)
  | _ => true

theorem inTime_of_check {e : Event J} (h : inTime p e = true) : InTime p e := by
  have hstage : p.session.drive.stage ≤ DrivePc.finishTimers.stage → ¬ p.session.TimersTaken := by
    unfold TimersTaken
    omega
  cases e with
  | spawns i =>
    simp only [inTime, Bool.and_eq_true, decide_eq_true_eq] at h
    exact ⟨h.1, hstage h.2⟩
  | installs i =>
    simp only [inTime, Bool.and_eq_true, decide_eq_true_eq] at h
    exact ⟨h.1, hstage h.2⟩
  | session e =>
    intro htakes d w hw hruns
    have hlt : d < p.watchdogs.length := (List.getElem?_eq_some_iff.mp hw).1
    simp only [inTime, htakes, Bool.not_true, Bool.false_or, List.all_eq_true, List.mem_range] at h
    have hd := h d hlt
    rw [hw, Option.all_some, hruns] at hd
    simpa using hd
  | _ => trivial

/-- A session without handlers, with no watchdog. -/
def small : Watched := { session := .small [] }

theorem init_smallWatched (J : JsonText) : (machine J).init small :=
  ⟨.small [], Session.init_small J [], rfl⟩

/-- A heartbeat sent, its watchdog installed, and the peer's accepted. -/
def echoedRun : List (Event compactJson) :=
  .session (.initiateHeartbeat 5) :: List.replicate 6 (.session (.beat 0)) ++
    [.spawns 0, .installs 0, .session (.receive "HBT5")]

theorem watchdogs_in_time_echoedRun : ∃ p, (machine compactJson).run small echoedRun = some p ∧
    p.session.heartbeatsReceived = 1 ∧ p.watchdogs = [⟨0, 10, .aborted⟩] ∧
    NoStaleWatchdog compactJson p := by
  have hrun : ((machine compactJson).run small echoedRun).any (fun p =>
      decide (p.session.heartbeatsReceived = 1 ∧ p.watchdogs = [⟨0, 10, .aborted⟩])) = true := by
    decide +kernel
  obtain ⟨p, hp, hend⟩ := Machine.exists_of_run hrun
  obtain ⟨hcount, hwatchdogs⟩ := of_decide_eq_true hend
  have hreach := Machine.reachableBy_of_run inTime (fun _ _ => inTime_of_check)
    (init_smallWatched _) (by decide +kernel) hp
  exact ⟨p, hp, hcount, hwatchdogs, (watchdogs_in_time compactJson).1 p hreach⟩

/-- The peer's heartbeat is accepted between the frame and the watchdog. -/
def overtakenRun : List (Event compactJson) :=
  .session (.initiateHeartbeat 5) :: List.replicate 6 (.session (.beat 0)) ++
    [.session (.receive "HBT60000"), .spawns 0, .installs 0, .wakes 0]

/-- **The watchdog of that run is stale**, and closes a session whose heartbeat was accepted. -/
theorem stale_overtakenRun : ∃ p q, (machine compactJson).Reachable p ∧
    ¬ NoStaleWatchdog compactJson p ∧ p.session.heartbeatsReceived = 1 ∧
    p.session.heartbeat.awaiting = false ∧ p.session.isOpen = true ∧
    (machine compactJson).next p (.closes 0) = some q ∧ q.session.isOpen = false := by
  have hrun : ((machine compactJson).run small overtakenRun).any (fun p =>
      decide (p.session.heartbeatsReceived = 1 ∧ p.session.heartbeat.awaiting = false ∧
        p.session.isOpen = true ∧ p.watchdogs = [⟨0, 10, .woken⟩])) = true := by decide +kernel
  obtain ⟨p, hp, hend⟩ := Machine.exists_of_run hrun
  obtain ⟨hcount, hawaiting, hopen, hwatchdogs⟩ := of_decide_eq_true hend
  have hreach : (machine compactJson).Reachable p :=
    Machine.reachable_of_run (init_smallWatched _) hp
  refine ⟨p, _, hreach, fun hsafe => ?_, hcount, hawaiting, hopen,
    by simp only [machine, next, hwatchdogs, List.getElem?_cons_zero]; rfl, rfl⟩
  cases hsafe.disarmed ⟨0, 10, .woken⟩ (by simp [hwatchdogs]) (by rw [hcount]; exact one_pos)

end

end Watched

end Vcmp
