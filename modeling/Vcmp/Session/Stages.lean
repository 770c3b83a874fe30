import Vcmp.Session.Step
/-!
# The stages of a shutdown

The task driving a session goes through its stages in order and never
back: it reads, closes, aborts and joins the handler tasks, waits for
the writer, and finishes. `open` is given up before the second of these
ends and is never set again, so whatever a later stage cleared, no
admission behind the flag can fill again.
-/

namespace Vcmp

namespace DrivePc

/-- The stage of the shutdown; everything the read loop does is the first. -/
def stage : DrivePc → ℕ
  | .reading | .settling _ _ | .working _ => 0
  | .leaving => 1
  | .aborting => 2
  | .joining => 3
  | .awaitingWriter => 4
  | .abortingWriter => 5
  | .finishOpen => 6
  | .finishTimers => 7
  | .finishDrain => 8
  | .finishSettle _ => 9
  | .finishFlag => 10
  | .finished => 11

theorem leaveWork_eq (d : DrivePc) (i : ℕ) :
    d.leaveWork i = d ∨ (d = .working i ∧ d.leaveWork i = .reading) := by
  unfold leaveWork
  split
  · split_ifs with h
    · exact .inr ⟨by rw [h], rfl⟩
    · exact .inl rfl
  · exact .inl rfl

@[simp] theorem stage_leaveWork (d : DrivePc) (i : ℕ) : (d.leaveWork i).stage = d.stage := by
  rcases d.leaveWork_eq i with h | ⟨rfl, h⟩
  · rw [h]
  · rw [h]; rfl

end DrivePc

namespace Session

variable {J : JsonText} {s s' : Session} {e : Event J}

/-- **How a step moves the driving task**: not at all, within the read
loop or out of it, or by a step of its own. -/
theorem Step.drives (h : Step J s e s') :
    s'.drive = s.drive ∨ (s.drive.stage = 0 ∧ s'.drive.stage ≤ 1) ∨ DriveStep s s' ∨
      (s.drive = .awaitingWriter ∧ s' = { s with drive := .abortingWriter }) := by
  have leaves : ∀ i, s.drive.leaveWork i = s.drive ∨
      (s.drive.stage = 0 ∧ (s.drive.leaveWork i).stage ≤ 1) := by
    intro i
    rcases s.drive.leaveWork_eq i with h | ⟨hpc, h⟩
    · exact .inl h
    · exact .inr ⟨by rw [hpc]; rfl, by rw [h]; simp [DrivePc.stage]⟩
  have finishes : ∀ i, s.drive.leaveWork i = s.drive ∨
      (s.drive.stage = 0 ∧ (s.drive.leaveWork i).stage ≤ 1) ∨ DriveStep s s' ∨
      (s.drive = .awaitingWriter ∧ s' = { s with drive := .abortingWriter }) :=
    fun i => (leaves i).imp_right .inl
  cases h with
  | exchange hx h =>
    cases h with
    | enqueues _ he => obtain ⟨_, _, _, _, _, rfl⟩ := he.frame; exact .inl rfl
    | _ => exact .inl rfl
  | beat hb h =>
    cases h with
    | enqueues _ he => obtain ⟨_, _, _, _, _, rfl⟩ := he.frame; exact .inl rfl
    | _ => exact .inl rfl
  | raw _ he => obtain ⟨_, _, _, _, _, rfl⟩ := he.frame; exact .inl rfl
  | receive hdrive h =>
    cases h with
    | answer => exact .inr (.inl ⟨by rw [hdrive]; rfl, by simp [DrivePc.stage]⟩)
    | message => exact .inr (.inl ⟨by rw [hdrive]; rfl, by simp [DrivePc.stage]⟩)
    | _ => exact .inl rfl
  | streamEnds hdrive => exact .inr (.inl ⟨by rw [hdrive]; rfl, by simp [DrivePc.stage]⟩)
  | drive h => exact .inr (.inr (.inl h))
  | shutdownDeadline hdrive => exact .inr (.inr (.inr ⟨hdrive, rfl⟩))
  | work hw h =>
    cases h with
    | writes _ he => obtain ⟨_, _, _, _, _, rfl⟩ := he.frame; exact .inl rfl
    | unwritten _ he => obtain ⟨_, _, _, _, _, rfl⟩ := he.frame; exact .inl rfl
    | written _ he => obtain ⟨_, _, _, _, _, rfl⟩ := he.frame; exact finishes _
    | spawned => exact finishes _
    | panicked => exact finishes _
    | aborted => exact finishes _
    | closes => exact finishes _
    | _ => exact .inl rfl
  | writer h => cases h <;> exact .inl rfl
  | _ => exact .inl rfl

/-- **The stages are gone through in order.** -/
theorem Step.stage_le (h : Step J s e s') : s.drive.stage ≤ s'.drive.stage := by
  rcases h.drives with h | ⟨hpc, -⟩ | h | ⟨hpc, rfl⟩
  · rw [h]
  · omega
  · cases h <;> simp [DrivePc.stage, *]
  · simp [hpc, DrivePc.stage]

/-- **`open` is never set again.** -/
theorem Step.isOpen (h : Step J s e s') (hopen : s'.isOpen = true) : s.isOpen = true := by
  cases h with
  | exchange hx h =>
    cases h with
    | enqueues _ he => obtain ⟨_, _, _, _, _, rfl⟩ := he.frame; exact hopen
    | _ => exact hopen
  | beat hb h =>
    cases h with
    | enqueues _ he => obtain ⟨_, _, _, _, _, rfl⟩ := he.frame; exact hopen
    | closes => cases hopen
    | _ => exact hopen
  | raw _ he => obtain ⟨_, _, _, _, _, rfl⟩ := he.frame; exact hopen
  | receive hdrive h =>
    cases h with
    | tooLarge => cases hopen
    | _ => exact hopen
  | drive h =>
    cases h with
    | closes => cases hopen
    | finishOpen => cases hopen
    | _ => exact hopen
  | work hw h =>
    cases h with
    | writes _ he => obtain ⟨_, _, _, _, _, rfl⟩ := he.frame; exact hopen
    | unwritten _ he => obtain ⟨_, _, _, _, _, rfl⟩ := he.frame; exact hopen
    | written _ he => obtain ⟨_, _, _, _, _, rfl⟩ := he.frame; exact hopen
    | closes => cases hopen
    | _ => exact hopen
  | writer h =>
    cases h with
    | fails => cases hopen
    | _ => exact hopen
  | watchdog => cases hopen
  | close => cases hopen
  | _ => exact hopen

/-- What only the driving task can change. -/
structure Undriven (s s' : Session) : Prop where
  id : s'.id = s.id
  limits : s'.limits = s.limits
  closed : s'.closed = s.closed
  signalled : s'.signalled = s.signalled

/-- **A step is the driving task's or leaves it all as it is.** -/
theorem Step.undriven (h : Step J s e s') : Undriven s s' ∨ DriveStep s s' := by
  cases h with
  | exchange hx h =>
    cases h with
    | enqueues _ he => obtain ⟨_, _, _, _, _, rfl⟩ := he.frame; exact .inl ⟨rfl, rfl, rfl, rfl⟩
    | _ => exact .inl ⟨rfl, rfl, rfl, rfl⟩
  | beat hb h =>
    cases h with
    | enqueues _ he => obtain ⟨_, _, _, _, _, rfl⟩ := he.frame; exact .inl ⟨rfl, rfl, rfl, rfl⟩
    | _ => exact .inl ⟨rfl, rfl, rfl, rfl⟩
  | raw _ he => obtain ⟨_, _, _, _, _, rfl⟩ := he.frame; exact .inl ⟨rfl, rfl, rfl, rfl⟩
  | work hw h =>
    cases h with
    | writes _ he => obtain ⟨_, _, _, _, _, rfl⟩ := he.frame; exact .inl ⟨rfl, rfl, rfl, rfl⟩
    | unwritten _ he => obtain ⟨_, _, _, _, _, rfl⟩ := he.frame; exact .inl ⟨rfl, rfl, rfl, rfl⟩
    | written _ he => obtain ⟨_, _, _, _, _, rfl⟩ := he.frame; exact .inl ⟨rfl, rfl, rfl, rfl⟩
    | _ => exact .inl ⟨rfl, rfl, rfl, rfl⟩
  | receive _ h => cases h <;> exact .inl ⟨rfl, rfl, rfl, rfl⟩
  | drive h => exact .inr h
  | writer h => cases h <;> exact .inl ⟨rfl, rfl, rfl, rfl⟩
  | _ => exact .inl ⟨rfl, rfl, rfl, rfl⟩

/-- **A session keeps its id and its limits.** -/
theorem Step.constant (h : Step J s e s') : s'.id = s.id ∧ s'.limits = s.limits := by
  rcases h.undriven with hsame | hdrive
  · exact ⟨hsame.id, hsame.limits⟩
  · cases hdrive <;> exact ⟨rfl, rfl⟩

/-- **`closed` is set by the last step of the driving task**, and by no other. -/
theorem Step.closed (h : Step J s e s') :
    s'.closed = s.closed ∨ (s.drive = .finishFlag ∧ s'.drive = .finished ∧ s'.closed = true) := by
  rcases h.undriven with hsame | hdrive
  · exact .inl hsame.closed
  · cases hdrive with
    | finishFlag hpc => exact .inr ⟨hpc, rfl, rfl⟩
    | _ => exact .inl rfl

/-- The writer is told to stop by the driving task only. -/
theorem Step.signalled (h : Step J s e s') : s'.signalled = s.signalled ∨ DriveStep s s' :=
  h.undriven.imp_left Undriven.signalled

/-- The writer is told to stop when the handler tasks have been joined. -/
theorem stage_of_signalled (h : (machine J).Reachable s) (hsignal : s.signalled = true) :
    4 ≤ s.drive.stage := by
  refine h.invariant (P := fun s => s.signalled = true → 4 ≤ s.drive.stage) ?_ ?_ hsignal
  · rintro s ⟨id, limits, handlers, budget, elsewhere, rfl⟩ hs
    cases hs
  · intro s e s' _ hn ih hs'
    have h := step_of_next hn
    have hmono := h.stage_le
    rcases h.signalled with hsame | hdrive
    · have hstage := ih (hsame ▸ hs')
      omega
    · cases hdrive with
      | joined => exact le_refl 4
      | _ =>
        have hstage := ih hs'
        omega

/-- **A session is closed at the end of the last stage.** -/
theorem finished_of_closed (h : (machine J).Reachable s) (hclosed : s.closed = true) :
    s.drive.stage = 11 := by
  have hle : ∀ d : DrivePc, d.stage ≤ 11 := by
    intro d
    cases d <;> simp [DrivePc.stage]
  refine h.invariant (P := fun s => s.closed = true → s.drive.stage = 11) ?_ ?_ hclosed
  · rintro s ⟨id, limits, handlers, budget, elsewhere, rfl⟩ hclosed
    cases hclosed
  · intro s e s' _ hn ih hs'
    have h := step_of_next hn
    rcases h.closed with hsame | ⟨-, hdrive, -⟩
    · have hstage := ih (hsame ▸ hs')
      have hmono := h.stage_le
      have hbound := hle s'.drive
      omega
    · rw [hdrive]
      rfl

/-- **What a step does to the texts heard**: one more, or none. -/
theorem Step.hears (h : Step J s e s') :
    (s'.received = s.received ∧ s'.framesReceived = s.framesReceived) ∨
      ∃ text, e = .receive text ∧ ReceiveStep J s text s' := by
  cases h with
  | exchange hx h =>
    cases h with
    | enqueues _ he => obtain ⟨_, _, _, _, _, rfl⟩ := he.frame; exact .inl ⟨rfl, rfl⟩
    | _ => exact .inl ⟨rfl, rfl⟩
  | beat hb h =>
    cases h with
    | enqueues _ he => obtain ⟨_, _, _, _, _, rfl⟩ := he.frame; exact .inl ⟨rfl, rfl⟩
    | _ => exact .inl ⟨rfl, rfl⟩
  | raw _ he => obtain ⟨_, _, _, _, _, rfl⟩ := he.frame; exact .inl ⟨rfl, rfl⟩
  | work hw h =>
    cases h with
    | writes _ he => obtain ⟨_, _, _, _, _, rfl⟩ := he.frame; exact .inl ⟨rfl, rfl⟩
    | unwritten _ he => obtain ⟨_, _, _, _, _, rfl⟩ := he.frame; exact .inl ⟨rfl, rfl⟩
    | written _ he => obtain ⟨_, _, _, _, _, rfl⟩ := he.frame; exact .inl ⟨rfl, rfl⟩
    | _ => exact .inl ⟨rfl, rfl⟩
  | receive _ h => exact .inr ⟨_, rfl, h⟩
  | drive h => cases h <;> exact .inl ⟨rfl, rfl⟩
  | writer h => cases h <;> exact .inl ⟨rfl, rfl⟩
  | _ => exact .inl ⟨rfl, rfl⟩

/-- A text that arrives is heard. -/
theorem ReceiveStep.received {text : String} (h : ReceiveStep J s text s') :
    s'.received = s.received ++ [text] := by
  cases h <;> rfl

/-- A session that is not open has been closed for good. -/
theorem notOpen_of_path (h : (machine J).Path Machine.free s s') (hno : s.isOpen = false) :
    s'.isOpen = false := by
  refine h.preserves (P := fun s => s.isOpen = false) (fun s e t _ hn hs => ?_) hno
  by_contra hopen
  have hback := (step_of_next hn).isOpen (by simpa using hopen)
  rw [hs] at hback
  exact absurd hback (by simp)

/-- **A session is not open from the moment its handler tasks are aborted.** -/
theorem notOpen_of_stage (h : (machine J).Reachable s) (hstage : 2 ≤ s.drive.stage) :
    s.isOpen = false := by
  refine h.invariant (P := fun s => 2 ≤ s.drive.stage → s.isOpen = false) ?_ ?_ hstage
  · rintro s ⟨id, limits, handlers, budget, elsewhere, rfl⟩ hs
    simp [spawn, DrivePc.stage] at hs
  · intro s e s' _ hn ih hs'
    have h := step_of_next hn
    have stays : 2 ≤ s.drive.stage → s'.isOpen = false := by
      intro hs
      by_contra hopen
      rw [h.isOpen (by simpa using hopen)] at ih
      exact absurd (ih hs) (by simp)
    rcases h.drives with hd | ⟨-, hd⟩ | hd | ⟨hd, rfl⟩
    · exact stays (by rw [← hd]; exact hs')
    · omega
    · cases hd with
      | closes => rfl
      | finishOpen => rfl
      | requested => simp [DrivePc.stage] at hs'
      | settles => simp [DrivePc.stage] at hs'
      | _ => exact stays (by simp [DrivePc.stage, *])
    · exact stays (by simp [hd, DrivePc.stage])

end Session

end Vcmp
