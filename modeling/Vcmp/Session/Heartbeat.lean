import Vcmp.Json.Codec
import Vcmp.Session.Stages
/-!
# The heartbeat

A heartbeat sent sets `awaiting`, and a heartbeat accepted clears it,
drops the watchdog and starts the echo timer, all under one lock. Of all a
session does only some steps touch these, and `HeartStep` says how.
-/

namespace Vcmp

namespace Session

variable {J : JsonText} {s s' : Session} {e : Event J} {i : ℕ} {b : Beat}

/-- The interval of a heartbeat that `handle_incoming` accepts. -/
def acceptedInterval (s : Session) (raw : String) : Option ℕ :=
  if raw.utf8ByteSize > s.limits.maxMessageBytes then none
  else
    match Frame.parse raw with
    | .ok (.heartbeat interval) =>
      if interval = 0 ∨ s.heartbeat.awaiting = false then none else some interval
    | _ => none

/-- `finish_close` has taken the timers. -/
def TimersTaken (s : Session) : Prop := DrivePc.finishTimers.stage < s.drive.stage

/-- **What a step does to the heartbeat**, and where it comes to. -/
inductive HeartStep (J : JsonText) (s s' : Session) : Event J → Prop
  | quiet {e : Event J} (hheart : s'.heartbeat = s.heartbeat)
      (hcount : s'.heartbeatsReceived = s.heartbeatsReceived) (hbeats : s'.beats = s.beats)
      (htaken : ¬ s.TimersTaken → ¬ s'.TimersTaken) : HeartStep J s s' e
  | initiates {millis : ℕ} (hs' : s' = { s with
      beats := s.beats ++ [{ interval := min millis (u64Bound - 1) }] }) :
      HeartStep J s s' (.initiateHeartbeat millis)
  | echoes {interval : ℕ} (harmed : s.heartbeat.echo = .armed interval) (hs' : s' = { s with
      heartbeat := { s.heartbeat with echo := .fired }
      beats := s.beats ++ [{ interval := interval }] }) : HeartStep J s s' .echoFires
  | beat {i : ℕ} {b : Beat} (hb : s.beats[i]? = some b) (h : BeatStep s i b s') :
      HeartStep J s s' (.beat i)
  | expects {timeout : ℕ} (hopen : s.isOpen = true) (hnone : s.heartbeatsReceived = 0)
      (hs' : s' = { s with heartbeat := { s.heartbeat with watchdog := .armed timeout } }) :
      HeartStep J s s' (.expectHeartbeat timeout)
  | fires {timeout : ℕ} (harmed : s.heartbeat.watchdog = .armed timeout)
      (hs' : s' = { s with heartbeat := { s.heartbeat with watchdog := .fired } }.close) :
      HeartStep J s s' .watchdogFires
  | accepts {text : String} {interval : ℕ} (hdrive : s.drive = .reading)
      (hparse : Frame.parse text = .ok (.heartbeat interval)) (hpos : interval ≠ 0)
      (hawaiting : s.heartbeat.awaiting = true) (hs' : s' = { (s.hear text).count with
        heartbeat := ⟨false, .absent, .armed interval⟩
        heartbeatsReceived := s.heartbeatsReceived + 1 }) : HeartStep J s s' (.receive text)
  | takes (hdrive : s.drive = .finishTimers) (hs' : s' = { s with
      heartbeat := { s.heartbeat with watchdog := .absent, echo := .absent }
      drive := .finishDrain }) : HeartStep J s s' .drive

theorem not_timersTaken_of_drive (hd : s'.drive = s.drive) (h : ¬ s.TimersTaken) :
    ¬ s'.TimersTaken := by
  unfold TimersTaken at h ⊢
  rw [hd]
  exact h

theorem not_timersTaken_of_stage (h : s'.drive.stage ≤ 7) : ¬ s'.TimersTaken := by
  unfold TimersTaken
  have hstage : DrivePc.finishTimers.stage = 7 := rfl
  omega

/-- The read loop takes no timers. -/
theorem not_timersTaken_of_leaveWork {k : ℕ} (hd : s'.drive = s.drive.leaveWork k)
    (h : ¬ s.TimersTaken) : ¬ s'.TimersTaken := by
  unfold TimersTaken at h ⊢
  rw [hd, DrivePc.stage_leaveWork]
  exact h

theorem heartStep_of_drive (h : DriveStep s s') : HeartStep J s s' .drive := by
  have late : ∀ {t : Session}, 7 < s.drive.stage → t.heartbeat = s.heartbeat →
      t.heartbeatsReceived = s.heartbeatsReceived → t.beats = s.beats → HeartStep J s t .drive :=
    fun hs hh hc hb => .quiet hh hc hb fun hnot => absurd hs hnot
  cases h with
  | finishTimers hpc => exact .takes hpc rfl
  | drains hpc => exact late (by rw [hpc]; decide) rfl rfl rfl
  | finishSettle hpc => exact late (by rw [hpc]; simp [DrivePc.stage]) rfl rfl rfl
  | settledAll hpc => exact late (by rw [hpc]; simp [DrivePc.stage]) rfl rfl rfl
  | finishFlag hpc => exact late (by rw [hpc]; decide) rfl rfl rfl
  | _ =>
    refine .quiet rfl rfl rfl fun _ => not_timersTaken_of_stage ?_
    simp [DrivePc.stage]

/-- **Every step is one of these to the heartbeat.** -/
theorem Step.heart (h : Step J s e s') : HeartStep J s s' e := by
  have quiet : ∀ {t : Session}, t.heartbeat = s.heartbeat →
      t.heartbeatsReceived = s.heartbeatsReceived → t.beats = s.beats → t.drive = s.drive →
      HeartStep J s t e := fun hh hc hb hd => .quiet hh hc hb (not_timersTaken_of_drive hd)
  have leaves : ∀ {t : Session} (k : ℕ), t.heartbeat = s.heartbeat →
      t.heartbeatsReceived = s.heartbeatsReceived → t.beats = s.beats →
      t.drive = s.drive.leaveWork k → HeartStep J s t e :=
    fun k hh hc hb hd => .quiet hh hc hb (not_timersTaken_of_leaveWork hd)
  have early : ∀ {t : Session}, t.heartbeat = s.heartbeat →
      t.heartbeatsReceived = s.heartbeatsReceived → t.beats = s.beats → t.drive.stage ≤ 7 →
      HeartStep J s t e := fun hh hc hb hd => .quiet hh hc hb fun _ => not_timersTaken_of_stage hd
  cases h with
  | exchange _ h =>
    cases h with
    | enqueues _ he => obtain ⟨_, _, _, _, _, rfl⟩ := he.frame; exact quiet rfl rfl rfl rfl
    | _ => exact quiet rfl rfl rfl rfl
  | initiates => exact .initiates rfl
  | beat hb h => exact .beat hb h
  | raw _ he => obtain ⟨_, _, _, _, _, rfl⟩ := he.frame; exact quiet rfl rfl rfl rfl
  | expects hopen hnone => exact .expects hopen hnone rfl
  | watchdog harmed => exact .fires harmed rfl
  | echo harmed => exact .echoes harmed rfl
  | receive hdrive h =>
    cases h with
    | heartbeat _ hparse hpos hawaiting => exact .accepts hdrive hparse hpos hawaiting rfl
    | answer => exact early rfl rfl rfl (by simp [DrivePc.stage])
    | message => exact early rfl rfl rfl (by simp [DrivePc.stage])
    | _ => exact quiet rfl rfl rfl rfl
  | streamEnds => exact early rfl rfl rfl (by simp [DrivePc.stage])
  | drive h => exact heartStep_of_drive h
  | shutdownDeadline => exact early rfl rfl rfl (by simp [DrivePc.stage])
  | @work _ k _ _ _ h =>
    cases h with
    | writes _ he => obtain ⟨_, _, _, _, _, rfl⟩ := he.frame; exact quiet rfl rfl rfl rfl
    | unwritten _ he => obtain ⟨_, _, _, _, _, rfl⟩ := he.frame; exact quiet rfl rfl rfl rfl
    | written _ he => obtain ⟨_, _, _, _, _, rfl⟩ := he.frame; exact leaves k rfl rfl rfl rfl
    | spawned => exact leaves k rfl rfl rfl rfl
    | panicked => exact leaves k rfl rfl rfl rfl
    | aborted => exact leaves k rfl rfl rfl rfl
    | closes => exact leaves k rfl rfl rfl rfl
    | _ => exact quiet rfl rfl rfl rfl
  | writer h => cases h <;> exact quiet rfl rfl rfl rfl
  | _ => exact quiet rfl rfl rfl rfl

/-- **What an incoming text does to the heartbeat**: nothing where it is
no heartbeat that is accepted. -/
theorem heartbeat_of_receive (text : String) :
    (s.handleIncoming J text).beats = s.beats ∧
      match s.acceptedInterval text with
      | some interval => s.heartbeat.awaiting = true ∧
        (s.handleIncoming J text).heartbeat = ⟨false, .absent, .armed interval⟩ ∧
        (s.handleIncoming J text).heartbeatsReceived = s.heartbeatsReceived + 1
      | none => (s.handleIncoming J text).heartbeat = s.heartbeat ∧
        (s.handleIncoming J text).heartbeatsReceived = s.heartbeatsReceived := by
  have hstep := receiveStep J s text
  revert hstep
  generalize s.handleIncoming J text = s'
  intro hstep
  have quiet : s.acceptedInterval text = none → s'.beats = s.beats → s'.heartbeat = s.heartbeat →
      s'.heartbeatsReceived = s.heartbeatsReceived → s'.beats = s.beats ∧
      match s.acceptedInterval text with
      | some interval => s.heartbeat.awaiting = true ∧
        s'.heartbeat = ⟨false, .absent, .armed interval⟩ ∧
        s'.heartbeatsReceived = s.heartbeatsReceived + 1
      | none => s'.heartbeat = s.heartbeat ∧ s'.heartbeatsReceived = s.heartbeatsReceived := by
    intro hnone hbeats hheart hcount
    rw [hnone]
    exact ⟨hbeats, hheart, hcount⟩
  cases hstep with
  | tooLarge hsize => exact quiet (if_pos hsize) rfl rfl rfl
  | @heartbeat interval hsize hparse hpos hawaiting =>
    have hnot : ¬ text.utf8ByteSize > s.limits.maxMessageBytes := by omega
    have hsome : s.acceptedInterval text = some interval := by
      rw [acceptedInterval, if_neg hnot, hparse]
      exact if_neg (by simp [hpos, hawaiting])
    rw [hsome]
    exact ⟨rfl, hawaiting, rfl, rfl⟩
  | invalid hparse => exact quiet (by simp [acceptedInterval, hparse]) rfl rfl rfl
  | ignored _ hparse hno => exact quiet (by simp [acceptedInterval, hparse, hno]) rfl rfl rfl
  | answer _ hparse hanswer =>
    exact quiet (by cases hanswer <;> simp [acceptedInterval, hparse]) rfl rfl rfl
  | late _ hparse hanswer =>
    exact quiet (by cases hanswer <;> simp [acceptedInterval, hparse]) rfl rfl rfl
  | message _ hparse => exact quiet (by simp [acceptedInterval, hparse]) rfl rfl rfl

/-! ## While a heartbeat is awaited -/

/-- Until a heartbeat is accepted, one is awaited. -/
theorem awaiting_of_none (h : (machine J).Reachable s) (hnone : s.heartbeatsReceived = 0) :
    s.heartbeat.awaiting = true := by
  refine h.invariant (P := fun s => s.heartbeatsReceived = 0 → s.heartbeat.awaiting = true)
    ?_ ?_ hnone
  · rintro s ⟨id, limits, handlers, budget, elsewhere, rfl⟩ -
    rfl
  · intro s e s' _ hn ih hzero
    cases (step_of_next hn).heart with
    | quiet hheart hcount =>
      rw [hheart]
      exact ih (hcount ▸ hzero)
    | initiates hs' => subst hs'; exact ih hzero
    | echoes _ hs' => subst hs'; exact ih hzero
    | beat _ h =>
      cases h with
      | arms => rfl
      | enqueues _ he => obtain ⟨_, _, _, _, _, rfl⟩ := he.frame; exact ih hzero
      | _ => exact ih hzero
    | expects _ _ hs' => subst hs'; exact ih hzero
    | fires _ hs' => subst hs'; exact ih hzero
    | accepts _ _ _ _ hs' => subst hs'; cases hzero
    | takes _ hs' => subst hs'; exact ih hzero

/-- **An echo timer runs only before the close takes it.** -/
theorem not_timersTaken_of_echo (h : (machine J).Reachable s) (hecho : s.heartbeat.echo ≠ .absent) :
    ¬ s.TimersTaken := by
  refine h.invariant (P := fun s => s.heartbeat.echo ≠ .absent → ¬ s.TimersTaken) ?_ ?_ hecho
  · rintro s ⟨id, limits, handlers, budget, elsewhere, rfl⟩ hecho
    exact absurd rfl hecho
  · intro s e s' _ hn ih hecho
    cases (step_of_next hn).heart with
    | quiet hheart _ _ htaken =>
      rw [hheart] at hecho
      exact htaken (ih hecho)
    | initiates hs' => subst hs'; exact ih hecho
    | echoes harmed hs' => subst hs'; exact ih (by simp [harmed])
    | beat _ h =>
      cases h with
      | enqueues _ he => obtain ⟨_, _, _, _, _, rfl⟩ := he.frame; exact ih hecho
      | _ => exact ih hecho
    | expects _ _ hs' => subst hs'; exact ih hecho
    | fires _ hs' => subst hs'; exact ih hecho
    | accepts hdrive _ _ _ hs' =>
      subst hs'
      refine not_timersTaken_of_stage ?_
      show s.drive.stage ≤ 7
      rw [hdrive]
      simp [DrivePc.stage]
    | takes _ hs' => subst hs'; exact absurd rfl hecho

/-- A heartbeat sent, its watchdog installed, and the peer's accepted. -/
def echoedRun : List (Event compactJson) :=
  .initiateHeartbeat 5 :: List.replicate 7 (.beat 0) ++ [.receive "HBT5"]

end Session

end Vcmp
