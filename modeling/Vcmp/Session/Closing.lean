import Vcmp.Common.Progress
import Vcmp.Json.Codec
import Vcmp.Session.Stages
/-!
# A shutdown comes to its end

Once a session is not open its driving task is on its way to the end, by
steps of its own and of the works it waits for, and by the shutdown
deadline where the transport does not let go. `rank` counts what is left
of them. Each takes it down, nothing another party does puts anything on
it but a text that is still taken from the stream, and until `closed()`
resolves one of them can be taken.
-/

namespace Vcmp

/-- What is left of a call of `enqueue`. -/
def EnqueuePc.rank : EnqueuePc → ℕ
  | .check => 3
  | .asking => 2
  | .granted _ => 1
  | .pushing _ => 0

/-- What is left of the work on a message, where no handler runs on. -/
def WorkPc.rank : WorkPc → ℕ
  | .asking => 10
  | .granted _ => 9
  | .dispatching => 8
  | .spawned => 7
  | .running => 6
  | .answering _ q => q.pc.rank + 2
  | .failing _ => 1
  | .done _ => 0

/-- Whether the read loop is in the work, or its task in an answer. -/
def WorkPc.steps : WorkPc → Bool
  | .spawned | .running | .done _ => false
  | _ => true

/-- What is left of the driving task, with so many entries in the pending map. -/
def DrivePc.rank (pending : ℕ) : DrivePc → ℕ
  | .settling _ _ => pending + 12
  | .reading | .working _ => pending + 11
  | .leaving => pending + 10
  | .aborting => pending + 9
  | .joining => pending + 8
  | .awaitingWriter => pending + 7
  | .abortingWriter => pending + 6
  | .finishOpen => pending + 5
  | .finishTimers => pending + 4
  | .finishDrain => pending + 3
  | .finishSettle left => left.length + 2
  | .finishFlag => 1
  | .finished => 0

theorem DrivePc.rank_mono {m n : ℕ} (h : m ≤ n) (d : DrivePc) : d.rank m ≤ d.rank n := by
  cases d <;> simp only [DrivePc.rank] <;> omega

@[simp] theorem DrivePc.rank_leaveWork (n : ℕ) (d : DrivePc) (i : ℕ) :
    (d.leaveWork i).rank n = d.rank n := by
  rcases d.leaveWork_eq i with h | ⟨rfl, h⟩
  · rw [h]
  · rw [h]
    rfl

namespace Session

variable {J : JsonText} {s s' : Session} {e : Event J}

/-- What is left of the shutdown. -/
def rank (s : Session) : ℕ :=
  s.drive.rank s.pending.length + total (fun w => w.pc.rank) s.works

/-- The steps of the session's own tasks, and its shutdown deadline. -/
def Event.own : Event J → Bool
  | .drive | .shutdownDeadline | .work _ | .workAborted _ => true
  | _ => false

/-- Whether a text is taken from the stream. -/
def Event.takes : Event J → Bool
  | .receive _ => true
  | _ => false

/-! ## What a step does to the rank -/

theorem EnqueueStep.rank_lt {o : Origin} {q q' : Enqueue} (h : EnqueueStep s o q s' (.goes q')) :
    q'.pc.rank < q.pc.rank := by
  cases h with
  | checked hpc => simp [EnqueuePc.rank, hpc]
  | granted hpc => simp [EnqueuePc.rank, hpc]
  | admitted hpc => simp [EnqueuePc.rank, hpc]

/-- The driving task. -/
theorem DriveStep.rank_lt (h : DriveStep s s') : s'.rank < s.rank := by
  cases h <;> simp_all [rank, DrivePc.rank, deliver, release, close, dropWriter, releaseAll]

/-- A work replaced by one of which less is left. -/
theorem rank_setWork_lt {i : ℕ} {w w' : Work} (hw : s.works[i]? = some w)
    (hworks : s'.works = s.works.set i w') (hpending : s'.pending = s.pending)
    (hdrive : s'.drive = s.drive ∨ s'.drive = s.drive.leaveWork i)
    (hlt : w'.pc.rank < w.pc.rank) : s'.rank < s.rank := by
  have htotal := total_set (f := fun w : Work => w.pc.rank) (b := w') hw
  have hsame : s'.drive.rank s'.pending.length = s.drive.rank s.pending.length := by
    rw [hpending]
    rcases hdrive with h | h
    · rw [h]
    · rw [h, DrivePc.rank_leaveWork]
  unfold rank
  rw [hsame, hworks]
  omega

/-- An answer is nearer to the end than what it answers. -/
theorem Answers.rank_lt {i : ℕ} {w : Work} {ending : Ending} {frame : Frame}
    (h : Answers J s i w e ending frame) : (w.answer ending frame).pc.rank < w.pc.rank := by
  cases h <;> simp [Work.answer, WorkPc.rank, EnqueuePc.rank, *]

/-- A work that is over. -/
theorem rank_finishWork_lt {i : ℕ} {w : Work} {s₁ : Session} (hw : s.works[i]? = some w)
    (ending : Ending) (hworks : s₁.works = s.works) (hpending : s₁.pending = s.pending)
    (hdrive : s₁.drive = s.drive) (hpos : 0 < w.pc.rank) :
    (s₁.finishWork i w ending).rank < s.rank := by
  refine rank_setWork_lt hw (?_ : _ = s.works.set i { w with pc := .done ending, permit := none }) hpending
    (.inr ?_) hpos
  · simp [finishWork, setWork, releaseAll, hworks]
  · simp [finishWork, hdrive]

/-- A work. -/
theorem WorkStep.rank_lt {i : ℕ} {w : Work} (hw : s.works[i]? = some w)
    (h : WorkStep J s i w e s') : s'.rank < s.rank := by
  have answers : ∀ {w' : Work} {s₁ : Session}, s₁.works = s.works.set i w' →
      s₁.pending = s.pending → s₁.drive = s.drive → w'.pc.rank < w.pc.rank → s₁.rank < s.rank :=
    fun hworks hpending hdrive hlt => rank_setWork_lt hw hworks hpending (.inl hdrive) hlt
  cases h with
  | granted hpc => exact answers rfl rfl rfl (by simp [WorkPc.rank, hpc])
  | refused hpc => exact answers rfl rfl rfl (by simp [Work.answer, WorkPc.rank, EnqueuePc.rank, hpc])
  | admitted hpc => exact answers rfl rfl rfl (by simp [WorkPc.rank, hpc])
  | overloaded hpc =>
    exact answers rfl rfl rfl (by simp [Work.answer, WorkPc.rank, EnqueuePc.rank, hpc])
  | answers ha => exact answers rfl rfl rfl ha.rank_lt
  | spawned hpc => exact rank_setWork_lt hw rfl rfl (.inr rfl) (by simp [WorkPc.rank, hpc])
  | starts hpc => exact answers rfl rfl rfl (by simp [WorkPc.rank, hpc])
  | returns hpc => exact answers rfl rfl rfl (by simp [Work.answer, WorkPc.rank, EnqueuePc.rank, hpc])
  | panicked hpc =>
    refine rank_finishWork_lt hw _ rfl rfl rfl ?_
    rcases hpc with hpc | hpc <;> simp [WorkPc.rank, hpc]
  | aborted hpc =>
    refine rank_finishWork_lt hw _ rfl rfl rfl ?_
    rcases hpc with hpc | hpc <;> simp [WorkPc.rank, hpc]
  | writes hpc he =>
    have hlt := he.rank_lt
    obtain ⟨_, _, _, _, _, rfl⟩ := he.frame
    exact answers rfl rfl rfl (by simpa [WorkPc.rank, hpc] using hlt)
  | unwritten hpc he =>
    obtain ⟨_, _, _, _, _, rfl⟩ := he.frame
    exact answers rfl rfl rfl (by simp [WorkPc.rank, hpc])
  | written hpc he =>
    obtain ⟨_, _, _, _, _, rfl⟩ := he.frame
    exact rank_finishWork_lt hw _ rfl rfl rfl (by simp [WorkPc.rank, hpc])
  | closes hpc => exact rank_finishWork_lt hw _ rfl rfl rfl (by simp [WorkPc.rank, hpc])

/-- A text that is taken: at most a work is new. -/
theorem ReceiveStep.rank_le {text : String} (h : ReceiveStep J s text s')
    (hdrive : s.drive = .reading) : s'.rank ≤ s.rank + 10 := by
  cases h with
  | @answer _ _ _ entry =>
    have hlen := List.length_filter_le (fun p : PendingEntry => decide (p.id ≠ entry.id)) s.pending
    simp only [rank, hdrive, DrivePc.rank, removePending, release, hear, count]
    omega
  | message =>
    have hnew : WorkPc.asking.rank = 10 := rfl
    simp only [rank, hdrive, DrivePc.rank, hear, count, total_append, total_cons, total_nil, hnew]
    omega
  | _ => simp [rank, hear, count, close, diagnose]

/-- Parties that leave the works and the driving task alone. -/
theorem rank_le_of_pending (hworks : s'.works = s.works) (hdrive : s'.drive = s.drive)
    (hpending : s'.pending.length ≤ s.pending.length) : s'.rank ≤ s.rank := by
  have hmono := s.drive.rank_mono hpending
  unfold rank
  rw [hworks, hdrive]
  omega

/-- **No step but a receipt puts anything on the rank** of a session that is not open. -/
theorem Step.rank_le (h : Step J s e s') (hno : s.isOpen = false) (htakes : e.takes = false) :
    s'.rank ≤ s.rank := by
  have same : ∀ {s₁ : Session}, s₁.works = s.works → s₁.drive = s.drive → s₁.pending = s.pending →
      s₁.rank ≤ s.rank := fun hworks hdrive hpending =>
    rank_le_of_pending hworks hdrive (by rw [hpending])
  cases h with
  | exchange hx h =>
    cases h with
    | enqueues _ he => obtain ⟨_, _, _, _, _, rfl⟩ := he.frame; exact same rfl rfl rfl
    | registered _ hopen => rw [hno] at hopen; cases hopen
    | removed => exact rank_le_of_pending rfl rfl (List.length_filter_le _ _)
    | _ => exact same rfl rfl rfl
  | beat hb h =>
    cases h with
    | enqueues _ he => obtain ⟨_, _, _, _, _, rfl⟩ := he.frame; exact same rfl rfl rfl
    | _ => exact same rfl rfl rfl
  | raw _ he => obtain ⟨_, _, _, _, _, rfl⟩ := he.frame; exact same rfl rfl rfl
  | receive => cases htakes
  | streamEnds hdrive => simp [rank, hdrive, DrivePc.rank]
  | drive h => exact Nat.le_of_lt h.rank_lt
  | shutdownDeadline hdrive => simp [rank, hdrive, DrivePc.rank]
  | work hw h => exact Nat.le_of_lt (h.rank_lt hw)
  | writer h => cases h <;> exact same rfl rfl rfl
  | _ => exact same rfl rfl rfl

/-- **A step of the session's own takes something off.** -/
theorem rank_lt_of_own (hn : (machine J).next s e = some s') (hown : e.own = true) :
    s'.rank < s.rank := by
  cases e with
  | drive => exact (driveStep_of_next hn).rank_lt
  | shutdownDeadline =>
    simp only [machine, next] at hn
    split at hn <;> cases hn
    simp [rank, DrivePc.rank, *]
  | work i =>
    obtain ⟨w, hw, h⟩ := Option.bind_eq_some_iff.mp hn
    exact (workStep_of_next h).rank_lt hw
  | workAborted i =>
    obtain ⟨w, hw, h⟩ := Option.bind_eq_some_iff.mp hn
    exact (workAborted_step h : WorkStep J s i w _ s').rank_lt hw
  | _ => cases hown

/-- What a receipt puts on the rank. -/
theorem rank_receive {text : String} (hn : (machine J).next s (.receive text) = some s') :
    s'.rank ≤ s.rank + 10 := by
  simp only [machine, next] at hn
  split at hn
  · next hdrive =>
    cases hn
    exact (receiveStep J s text).rank_le hdrive
  · cases hn

/-- What a step of a session that is not open does to the rank. -/
theorem rank_step (hno : s.isOpen = false) (hn : (machine J).next s e = some s') :
    s'.rank + (if e.own then 1 else 0) ≤ s.rank + if e.takes then 10 else 0 := by
  cases hown : e.own with
  | true =>
    have hlt := rank_lt_of_own hn hown
    rw [if_pos rfl]
    omega
  | false =>
    rw [if_neg Bool.false_ne_true, Nat.add_zero]
    cases htakes : e.takes with
    | true =>
      cases e with
      | receive text => exact rank_receive hn
      | _ => cases htakes
    | false => exact (step_of_next hn).rank_le hno htakes

/-! ## There is a next step -/

/-- **A close that is requested is not forgotten**: until the read loop ends
the session is open, or its close is waiting to be noticed. -/
theorem requested_of_reachable (h : (machine J).Reachable s) (hstage : s.drive.stage = 0)
    (hno : s.isOpen = false) : s.closeRequested = true := by
  have key : s.drive.stage = 0 → (s.isOpen || s.closeRequested) = true := by
    refine h.invariant (P := fun s => s.drive.stage = 0 → (s.isOpen || s.closeRequested) = true)
      ?_ ?_
    · rintro s ⟨id, limits, handlers, budget, elsewhere, rfl⟩ _
      rfl
    · intro s e s' _ hn ih hstage'
      have h := step_of_next hn
      have hle := h.stage_le
      have hs := ih (by omega)
      have closes : ∀ {s₁ : Session}, s₁.isOpen = s.isOpen → s₁.closeRequested = s.closeRequested →
          (s₁.close.isOpen || s₁.close.closeRequested) = true := by
        intro s₁ hopen hrequested
        simpa [close, hopen, hrequested, Bool.or_comm] using hs
      cases h with
      | exchange hx h =>
        cases h with
        | enqueues _ he => obtain ⟨_, _, _, _, _, rfl⟩ := he.frame; exact hs
        | _ => exact hs
      | beat hb h =>
        cases h with
        | enqueues _ he => obtain ⟨_, _, _, _, _, rfl⟩ := he.frame; exact hs
        | closes => exact closes rfl rfl
        | _ => exact hs
      | raw _ he => obtain ⟨_, _, _, _, _, rfl⟩ := he.frame; exact hs
      | receive _ h =>
        cases h with
        | tooLarge => exact closes rfl rfl
        | _ => exact hs
      | drive h =>
        cases h with
        | settles => exact hs
        | _ => simp_all [DrivePc.stage]
      | work hw h =>
        cases h with
        | writes _ he => obtain ⟨_, _, _, _, _, rfl⟩ := he.frame; exact hs
        | unwritten _ he => obtain ⟨_, _, _, _, _, rfl⟩ := he.frame; exact hs
        | written _ he => obtain ⟨_, _, _, _, _, rfl⟩ := he.frame; exact hs
        | closes => exact closes rfl rfl
        | _ => exact hs
      | writer h =>
        cases h with
        | fails => exact closes rfl rfl
        | _ => exact hs
      | watchdog => exact closes rfl rfl
      | close => exact closes rfl rfl
      | _ => exact hs
  simpa [hno] using key hstage

/-- **A work leaves the read loop with the last of its steps there.** -/
theorem WorkStep.leaves {i : ℕ} {w : Work} (h : WorkStep J s i w e s') :
    ∃ w', s'.works = s.works.set i w' ∧ (w.pc.steps = true →
      s'.drive = s.drive.leaveWork i ∨ (s'.drive = s.drive ∧ w'.pc.steps = true)) := by
  cases h with
  | granted => exact ⟨_, rfl, fun _ => .inr ⟨rfl, rfl⟩⟩
  | refused => exact ⟨_, rfl, fun _ => .inr ⟨rfl, rfl⟩⟩
  | admitted => exact ⟨_, rfl, fun _ => .inr ⟨rfl, rfl⟩⟩
  | overloaded => exact ⟨_, rfl, fun _ => .inr ⟨rfl, rfl⟩⟩
  | answers => exact ⟨_, rfl, fun _ => .inr ⟨rfl, rfl⟩⟩
  | spawned => exact ⟨_, rfl, fun _ => .inl rfl⟩
  | starts hpc => exact ⟨_, rfl, fun hsteps => by rw [hpc] at hsteps; cases hsteps⟩
  | returns => exact ⟨_, rfl, fun _ => .inr ⟨rfl, rfl⟩⟩
  | panicked => exact ⟨_, rfl, fun _ => .inl rfl⟩
  | aborted => exact ⟨_, rfl, fun _ => .inl rfl⟩
  | writes _ he =>
    obtain ⟨_, _, _, _, _, rfl⟩ := he.frame
    exact ⟨_, rfl, fun _ => .inr ⟨rfl, rfl⟩⟩
  | unwritten _ he =>
    obtain ⟨_, _, _, _, _, rfl⟩ := he.frame
    exact ⟨_, rfl, fun _ => .inr ⟨rfl, rfl⟩⟩
  | written _ he =>
    obtain ⟨_, _, _, _, _, rfl⟩ := he.frame
    exact ⟨_, rfl, fun _ => .inl rfl⟩
  | closes => exact ⟨_, rfl, fun _ => .inl rfl⟩

/-- A work of another does not put the read loop into one. -/
theorem WorkStep.working {i j : ℕ} {w : Work} (h : WorkStep J s j w e s')
    (hdrive : s'.drive = .working i) : s.drive = .working i := by
  have leaves : s.drive.leaveWork j = .working i → s.drive = .working i := by
    intro h
    rcases s.drive.leaveWork_eq j with hsame | ⟨-, hread⟩
    · rwa [← hsame]
    · rw [hread] at h
      cases h
  cases h with
  | writes _ he => obtain ⟨_, _, _, _, _, rfl⟩ := he.frame; exact hdrive
  | unwritten _ he => obtain ⟨_, _, _, _, _, rfl⟩ := he.frame; exact hdrive
  | written _ he => obtain ⟨_, _, _, _, _, rfl⟩ := he.frame; exact leaves hdrive
  | spawned => exact leaves hdrive
  | panicked => exact leaves hdrive
  | aborted => exact leaves hdrive
  | closes => exact leaves hdrive
  | _ => exact hdrive

/-- The works are not touched by the other parties. -/
theorem Step.working {i : ℕ} (h : Step J s e s') (hdrive : s'.drive = .working i) :
    (s.drive = .working i ∧ s'.works = s.works) ∨
      (∃ w, s'.works[i]? = some w ∧ w.pc = .asking) ∨
      ∃ j w, s.works[j]? = some w ∧ WorkStep J s j w e s' := by
  cases h with
  | exchange hx h =>
    cases h with
    | enqueues _ he => obtain ⟨_, _, _, _, _, rfl⟩ := he.frame; exact .inl ⟨hdrive, rfl⟩
    | _ => exact .inl ⟨hdrive, rfl⟩
  | beat hb h =>
    cases h with
    | enqueues _ he => obtain ⟨_, _, _, _, _, rfl⟩ := he.frame; exact .inl ⟨hdrive, rfl⟩
    | _ => exact .inl ⟨hdrive, rfl⟩
  | raw _ he => obtain ⟨_, _, _, _, _, rfl⟩ := he.frame; exact .inl ⟨hdrive, rfl⟩
  | receive _ h =>
    cases h with
    | message =>
      obtain rfl : s.works.length = i := by simpa using hdrive
      exact .inr (.inl ⟨_, List.getElem?_concat_length, rfl⟩)
    | answer => cases hdrive
    | _ => exact .inl ⟨hdrive, rfl⟩
  | streamEnds => cases hdrive
  | drive h => cases h <;> cases hdrive
  | shutdownDeadline => cases hdrive
  | work hw h => exact .inr (.inr ⟨_, _, hw, h⟩)
  | writer h => cases h <;> exact .inl ⟨hdrive, rfl⟩
  | _ => exact .inl ⟨hdrive, rfl⟩

/-- **The work the read loop is in can go on.** -/
theorem steps_of_working (h : (machine J).Reachable s) {i : ℕ} (hdrive : s.drive = .working i) :
    ∃ w, s.works[i]? = some w ∧ w.pc.steps = true := by
  refine h.invariant (P := fun s => ∀ i, s.drive = .working i →
    ∃ w, s.works[i]? = some w ∧ w.pc.steps = true) ?_ ?_ i hdrive
  · rintro s ⟨id, limits, handlers, budget, elsewhere, rfl⟩ i hdrive
    cases hdrive
  · intro s e s' _ hn ih i hdrive
    rcases (step_of_next hn).working hdrive with ⟨hold, hworks⟩ | ⟨w, hw, hpc⟩ | ⟨j, v, hv, hstep⟩
    · rw [hworks]
      exact ih i hold
    · exact ⟨w, hw, by rw [hpc]; rfl⟩
    · have hold := hstep.working hdrive
      obtain ⟨w, hw, hsteps⟩ := ih i hold
      obtain ⟨v', hworks, hleaves⟩ := hstep.leaves
      rw [hworks]
      by_cases hij : j = i
      · subst hij
        obtain rfl : v = w := Option.some.inj (hv.symm.trans hw)
        rcases hleaves hsteps with hleft | ⟨-, hsteps'⟩
        · -- it has left the read loop
          rw [hdrive, hold, DrivePc.leaveWork, if_pos rfl] at hleft
          cases hleft
        · exact ⟨v', getElem?_set_self' hv, hsteps'⟩
      · exact ⟨w, (List.getElem?_set_ne hij).trans hw, hsteps⟩

/-- A work with steps of its own has one. -/
theorem exists_next_work {i : ℕ} {w : Work} (hw : s.works[i]? = some w)
    (hsteps : w.pc.steps = true) : ∃ s', (machine J).next s (.work i) = some s' := by
  have hnext : (machine J).next s (.work i) = s.workNext J i w := by
    simp [machine, next, hw]
  rw [hnext, ← Option.isSome_iff_exists]
  unfold workNext
  cases hpc : w.pc with
  | spawned => simp [hpc, WorkPc.steps] at hsteps
  | running => simp [hpc, WorkPc.steps] at hsteps
  | done ending => simp [hpc, WorkPc.steps] at hsteps
  | dispatching =>
    simp only
    split
    · rfl
    · split
      · rfl
      · split <;> rfl
  | _ =>
    simp only
    first
      | rfl
      | split <;> rfl

/-- `closed()` resolves where the driving task has ended. -/
theorem closed_of_finished (h : (machine J).Reachable s) (hdrive : s.drive = .finished) :
    s.closed = true := by
  refine h.invariant (P := fun s => s.drive = .finished → s.closed = true) ?_ ?_ hdrive
  · rintro s ⟨id, limits, handlers, budget, elsewhere, rfl⟩ hdrive
    cases hdrive
  · intro s e s' _ hn ih hdrive
    have h := step_of_next hn
    rcases h.drives with hsame | ⟨-, hle⟩ | hstep | ⟨-, rfl⟩
    · have hold := ih (hsame.symm.trans hdrive)
      rcases h.closed with hclosed | ⟨-, -, hset⟩
      · exact hclosed.trans hold
      · exact hset
    · rw [hdrive] at hle
      simp [DrivePc.stage] at hle
    · cases hstep with
      | finishFlag => rfl
      | _ => cases hdrive
    · cases hdrive

/-- **Until the session is closed one of its own tasks can go on.** -/
theorem exists_own (h : (machine J).Reachable s) (hno : s.isOpen = false)
    (hclosed : s.closed = false) :
    ∃ (e : Event J) (s' : Session), e.own = true ∧ (machine J).next s e = some s' := by
  have drives : ∀ {s' : Session}, s.driveNext = some s' →
      ∃ (e : Event J) (s' : Session), e.own = true ∧ (machine J).next s e = some s' :=
    fun hs => ⟨.drive, _, rfl, hs⟩
  cases hdrive : s.drive with
  | reading =>
    have hrequested := requested_of_reachable h (by rw [hdrive]; rfl) hno
    exact drives (by simp only [driveNext, hdrive, hrequested, if_true]; rfl)
  | working i =>
    obtain ⟨w, hw, hsteps⟩ := steps_of_working h hdrive
    obtain ⟨s', hs'⟩ := exists_next_work (J := J) hw hsteps
    exact ⟨.work i, s', rfl, hs'⟩
  | joining =>
    by_cases hdone : s.works.all Work.isDone = true
    · exact drives (by simp only [driveNext, hdrive, hdone, if_true]; rfl)
    · -- a task that is not over steps on, or is aborted
      obtain ⟨w, hmem, hnot⟩ : ∃ w ∈ s.works, w.isDone = false := by simpa using hdone
      obtain ⟨i, hw⟩ := List.getElem?_of_mem hmem
      by_cases hsteps : w.pc.steps = true
      · obtain ⟨s', hs'⟩ := exists_next_work (J := J) hw hsteps
        exact ⟨.work i, s', rfl, hs'⟩
      · refine ⟨.workAborted i, s.finishWork i w .aborted, rfl, ?_⟩
        have hnext : (machine J).next s (.workAborted i) = s.workAborted i w := by
          simp [machine, next, hw]
        rw [hnext]
        cases hpc : w.pc with
        | spawned => simp [workAborted, hpc, hdrive]
        | running => simp [workAborted, hpc, hdrive]
        | done ending => simp [Work.isDone, hpc] at hnot
        | _ => simp [hpc, WorkPc.steps] at hsteps
  | awaitingWriter =>
    exact ⟨.shutdownDeadline, { s with drive := .abortingWriter }, rfl, by
      simp [machine, next, hdrive]⟩
  | finishSettle left =>
    cases left with
    | nil => exact drives (by simp only [driveNext, hdrive]; rfl)
    | cons entry left => exact drives (by simp only [driveNext, hdrive]; rfl)
  | finished =>
    have hset := closed_of_finished h hdrive
    rw [hclosed] at hset
    cases hset
  | _ => exact drives (by simp only [driveNext, hdrive]; rfl)

/-- **A close comes to its end.** From any state in which the session is not
open, whatever other parties do meanwhile, its own tasks take no more
steps than `rank` says, but for the texts that are still taken from the
stream, and until `closed()` resolves one of them can go on. So some run of
them resolves it, and none goes on for ever. -/
theorem shutdown_completes (h : (machine J).Reachable s) (hno : s.isOpen = false) :
    (∀ es t, (machine J).run s es = some t →
      es.countP Event.own + t.rank ≤ s.rank + 10 * es.countP Event.takes ∧
        (t.closed = true ∨
          ∃ (e : Event J) (t' : Session), e.own = true ∧ (machine J).next t e = some t')) ∧
    ∃ es t, (machine J).run s es = some t ∧ (∀ e ∈ es, e.own = true) ∧ t.closed = true ∧
      es.length ≤ s.rank := by
  have goesOn : ∀ t, (machine J).Reachable t ∧ t.isOpen = false → t.closed = true ∨
      ∃ (e : Event J) (t' : Session), e.own = true ∧ (machine J).next t e = some t' := by
    rintro t ⟨hreach, hno⟩
    by_cases hclosed : t.closed = true
    · exact .inl hclosed
    · exact .inr (exists_own hreach hno (by simpa using hclosed))
  have stays : ∀ t e t', (machine J).Reachable t ∧ t.isOpen = false →
      (machine J).next t e = some t' → (machine J).Reachable t' ∧ t'.isOpen = false := by
    rintro t e t' ⟨hreach, hno⟩ hn
    exact ⟨hreach.step trivial hn, notOpen_of_path (.single trivial hn) hno⟩
  constructor
  · intro es t hrun
    have hbound := Machine.run_bounds rank Event.own Event.takes
      (fun t e t' ht hn => ⟨stays t e t' ht hn, rank_step ht.2 hn⟩) (⟨h, hno⟩ :
        (machine J).Reachable s ∧ s.isOpen = false) hrun
    exact ⟨hbound.2, goesOn t hbound.1⟩
  · refine Machine.exists_run_of_rank (P := fun s => (machine J).Reachable s ∧ s.isOpen = false)
      rank (fun e : Event J => e.own = true) (fun t => t.closed = true) ?_ ⟨h, hno⟩
    intro t ht
    rcases goesOn t ht with hclosed | ⟨e, t', hown, hn⟩
    · exact .inl hclosed
    · exact .inr ⟨e, t', hown, hn, stays t e t' ht hn, rank_lt_of_own hn hown⟩

/-- A handler runs, and a call waits for its answer, when the session is closed. -/
def busyRun : List (Event compactJson) :=
  [.receive "MSGAAAAAAAAAAAA\x7b\"@type\":\"t\"\x7d"] ++ List.replicate 3 (.work 0) ++
    [.workStarts 0 none, .sendPayload zeroBytes ""] ++ List.replicate 3 (.exchange 0) ++ [.close]

theorem shutdown_completes_busyRun : ∃ s,
    (machine compactJson).run (small [("t", ⟨0, false⟩)]) busyRun = some s ∧
      s.pending.length = 1 ∧ ∃ es t, (machine compactJson).run s es = some t ∧
        (∀ e ∈ es, e.own = true) ∧ t.closed = true ∧ es.length ≤ 18 := by
  have hrun : ((machine compactJson).run (small [("t", ⟨0, false⟩)]) busyRun).any
      (fun s => decide (s.isOpen = false ∧ s.pending.length = 1 ∧ s.rank = 18)) = true := by
    decide +kernel
  obtain ⟨s, hs, hend⟩ := Machine.exists_of_run hrun
  obtain ⟨hno, hpending, hrank⟩ := of_decide_eq_true hend
  obtain ⟨-, hcloses⟩ := shutdown_completes (Machine.reachable_of_run (init_small _ _) hs) hno
  rw [hrank] at hcloses
  exact ⟨s, hs, hpending, hcloses⟩

end Session

end Vcmp
