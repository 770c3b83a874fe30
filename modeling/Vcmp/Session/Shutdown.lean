import Vcmp.Session.Covers
import Vcmp.Session.Held
/-!
# What `closed()` guarantees

The stages of the shutdown release one kind of resource after the other:
the handler tasks are joined, the writer has ended and with it the queues
and the sink are gone, the pending map is drained. Each stays released,
since the session is not open any more, so the accounts at the end show
only what calls that are still executing hold.
-/

namespace Vcmp

/-- The frame the sink holds. -/
def WriterPc.sink : WriterPc → Option Outgoing
  | .sending o true | .closing (some (o, true)) => some o
  | _ => none

/-- The counter of the bytes of a queue. -/
def Counter.bytesOf (control : Bool) : Counter := if control then .controlBytes else .queuedBytes

/-- The counter of the frames of a queue. -/
def Counter.framesOf (control : Bool) : Counter :=
  if control then .controlMessages else .queuedMessages

namespace Session

variable {J : JsonText} {s s' : Session} {e : Event J}

/-! ## The stages -/

/-- **From the join on no handler task exists**, in any run. -/
theorem worksDone_of_reachable (h : (machine J).Reachable s) (hstage : 4 ≤ s.drive.stage) :
    ∀ w ∈ s.works, w.isDone = true := by
  refine h.invariant (P := fun s => 4 ≤ s.drive.stage → ∀ w ∈ s.works, w.isDone = true) ?_ ?_ hstage
  · rintro s ⟨id, limits, handlers, budget, elsewhere, rfl⟩ hs
    simp [spawn, DrivePc.stage] at hs
  · intro s e s' _ hn ih hs'
    have h := step_of_next hn
    -- the join has been passed before, or by this step
    have hcases : 4 ≤ s.drive.stage ∨ (s'.works = s.works ∧ ∀ w ∈ s.works, w.isDone = true) := by
      rcases h.drives with hd | ⟨-, hd⟩ | hd | ⟨hd, -⟩
      · exact .inl (by rw [← hd]; exact hs')
      · omega
      · cases hd with
        | joined hpc hdone => exact .inr ⟨rfl, hdone⟩
        | _ => exact .inl (by simp_all [DrivePc.stage])
      · exact .inl (by rw [hd]; exact le_refl 4)
    rcases hcases with hs | ⟨hsame, hdone⟩
    · have hdone := ih hs
      rcases h.works with ⟨hsame, -⟩ | ⟨text, id, payload, -, -, rfl⟩ | ⟨i, w, hw, hstep⟩
      · rw [hsame]
        exact hdone
      · simp [DrivePc.stage] at hs'
      · -- a work that is over takes no step
        have hover := hdone w (List.mem_of_getElem? hw)
        unfold Work.isDone at hover
        cases hstep with
        | answers ha => cases ha <;> simp_all
        | panicked hpc => rcases hpc with hpc | hpc <;> simp_all
        | aborted hpc => rcases hpc with hpc | hpc <;> simp_all
        | _ => simp_all
    · rw [hsame]
      exact hdone

/-- A writer that has ended takes no step. -/
theorem Step.ended (h : Step J s e s') (hended : s.writer = .ended) : s'.writer = .ended := by
  cases h.flow with
  | quiet hpipe => exact (congrArg Pipe.writer hpipe).trans hended
  | pushes _ _ _ _ hpipe => exact (congrArg Pipe.writer hpipe).trans hended
  | drops hpipe => exact congrArg Pipe.writer hpipe
  | writes hstep => cases hstep <;> simp_all

/-- **From the end of its wait on the writer is gone**, in any run. -/
theorem writerEnded_of_reachable (h : (machine J).Reachable s) (hstage : 6 ≤ s.drive.stage) :
    s.writer = .ended := by
  refine h.invariant (P := fun s => 6 ≤ s.drive.stage → s.writer = .ended) ?_ ?_ hstage
  · rintro s ⟨id, limits, handlers, budget, elsewhere, rfl⟩ hs
    simp [spawn, DrivePc.stage] at hs
  · intro s e s' _ hn ih hs'
    have h := step_of_next hn
    rcases h.drives with hd | ⟨-, hd⟩ | hd | ⟨hd, rfl⟩
    · exact h.ended (ih (by rw [← hd]; exact hs'))
    · omega
    · cases hd with
      | awaited hpc hended => exact hended
      | aborted => rfl
      | _ => exact h.ended (ih (by simp_all [DrivePc.stage]))
    · simp [DrivePc.stage] at hs'

/-- **Once the writer has ended the queues are empty, and nobody can fill them.** -/
theorem queuesEmpty_of_reachable (h : (machine J).Reachable s) (hended : s.writer = .ended) :
    s.receivers = false ∧ s.control = [] ∧ s.data = [] := by
  refine h.invariant (P := fun s => s.writer = .ended →
    s.receivers = false ∧ s.control = [] ∧ s.data = []) ?_ ?_ hended
  · rintro s ⟨id, limits, handlers, budget, elsewhere, rfl⟩ hs
    cases hs
  · intro s e s' _ hn ih hended
    cases (step_of_next hn).flow with
    | quiet hpipe =>
      obtain ⟨hreceivers, hcontrol, hdata⟩ :=
        ih ((congrArg Pipe.writer hpipe).symm.trans hended)
      exact ⟨(congrArg Pipe.receivers hpipe).trans hreceivers,
        (congrArg Pipe.control hpipe).trans hcontrol, (congrArg Pipe.data hpipe).trans hdata⟩
    | pushes _ _ _ hreceivers hpipe =>
      have hnone := (ih ((congrArg Pipe.writer hpipe).symm.trans hended)).1
      rw [hreceivers] at hnone
      cases hnone
    | drops hpipe =>
      exact ⟨congrArg Pipe.receivers hpipe, congrArg Pipe.control hpipe, congrArg Pipe.data hpipe⟩
    | writes hstep =>
      cases hstep with
      | ends => exact ⟨rfl, rfl, rfl⟩
      | _ => cases hended

/-- A session that is closed stays so. -/
theorem closed_of_path (h : (machine J).Path Machine.free s s') (hclosed : s.closed = true) :
    s'.closed = true := by
  refine h.preserves (P := fun s => s.closed = true) (fun s e t _ hn hs => ?_) hclosed
  rcases (step_of_next hn).closed with hsame | ⟨-, -, hset⟩
  · exact hsame.trans hs
  · exact hset

/-! ## The end -/

/-- **What holds of a session whose `closed` flag is set.** -/
structure Released (J : JsonText) (s : Session) : Prop where
  notOpen : s.isOpen = false
  pending : s.pending = []
  /-- Every call that registered has its outcome, or one in its channel. -/
  settled : ∀ (i : ℕ) (x : Exchange), s.exchanges[i]? = some x → .registered i ∈ s.marks →
    x.outcome.isSome = true ∨ ∃ r, x.channel = .sent r ∧ SettledBy J s x.id r
  /-- No handler task exists. -/
  works : ∀ w ∈ s.works, w.isDone = true
  queues : s.control = [] ∧ s.data = []
  /-- The sink has been dropped. -/
  sink : s.writer = .ended
  /-- What is counted is held by calls that are executing, -/
  counted : ∀ c : Counter, c.value s.own.usage = s.executing c
  /-- and they give it back. -/
  returned : (∀ x ∈ s.exchanges, ∃ o, x.pc = .done o) → (∀ b ∈ s.beats, b.pc = .done) →
    (∀ r ∈ s.raws, ∃ handed, r = .done handed) → ∀ c : Counter, c.value s.own.usage = 0

/-- A work that is over holds nothing. -/
theorem held_of_isDone (h : (machine J).Reachable s) {w : Work} (hw : w ∈ s.works)
    (hdone : w.isDone = true) : w.held = [] := by
  obtain ⟨i, hi⟩ := List.getElem?_of_mem hw
  have hpermit : w.permit = none := by
    refine permit_none_of_reachable h hi ?_
    cases hpc : w.pc <;> simp_all [Work.isDone, WorkPc.permitless]
  unfold Work.held
  rw [hpermit]
  cases hpc : w.pc <;> simp_all [Work.isDone]

/-- **At the end only executing calls hold permits.** -/
theorem usage_of_closed (h : (machine J).Reachable s) (hclosed : s.closed = true) (c : Counter) :
    c.value s.own.usage = s.executing c := by
  have hstage := finished_of_closed h hclosed
  have hended := writerEnded_of_reachable h (by omega)
  obtain ⟨-, hcontrol, hdata⟩ := queuesEmpty_of_reachable h hended
  have hdone := worksDone_of_reachable h (by omega)
  have hworks : total (fun w : Work => total c.weight w.held) s.works = 0 := by
    refine total_eq_zero fun w hw => ?_
    rw [held_of_isDone h hw (hdone w hw), total_nil]
  have hdrive : s.drive = .finished := by
    cases hd : s.drive <;> simp_all [DrivePc.stage]
  have hpending : s.pending = [] :=
    (registry_of_reachable h).table.empty (by rw [hdrive]; rfl)
  have hacc := accounts_of_reachable h c
  unfold held queued at hacc
  rw [hcontrol, hdata, hended, hpending, hdrive, hworks] at hacc
  simpa [WriterPc.held, DrivePc.held] using hacc

/-- Calls that are over hold nothing. -/
theorem executing_of_done (hexchanges : ∀ x ∈ s.exchanges, ∃ o, x.pc = .done o)
    (hbeats : ∀ b ∈ s.beats, b.pc = .done) (hraws : ∀ r ∈ s.raws, ∃ handed, r = .done handed)
    (c : Counter) : s.executing c = 0 := by
  have hx : total (fun x : Exchange => total c.weight x.held) s.exchanges = 0 := by
    refine total_eq_zero fun x hx => ?_
    obtain ⟨o, hpc⟩ := hexchanges x hx
    simp [Exchange.held, hpc]
  have hb : total (fun b : Beat => total c.weight b.held) s.beats = 0 := by
    refine total_eq_zero fun b hb => ?_
    simp [Beat.held, hbeats b hb]
  have hr : total (fun r : RawPc => total c.weight r.held) s.raws = 0 := by
    refine total_eq_zero fun r hr => ?_
    obtain ⟨handed, rfl⟩ := hraws r hr
    rfl
  unfold executing
  omega

theorem released_of_closed (h : (machine J).Reachable s) (hclosed : s.closed = true) :
    Released J s := by
  have hstage := finished_of_closed h hclosed
  have hended := writerEnded_of_reachable h (by omega)
  have hdrive : s.drive = .finished := by
    cases hd : s.drive <;> simp_all [DrivePc.stage]
  have htable := (registry_of_reachable h).table
  have hdrained : s.drive.drained = true := by rw [hdrive]; rfl
  have husage := usage_of_closed h hclosed
  refine ⟨notOpen_of_stage h (by omega), htable.empty hdrained, fun i x hx hreg => ?_,
    worksDone_of_reachable h (by omega), (queuesEmpty_of_reachable h hended).2, hended, husage,
    fun hexchanges hbeats hraws c => ?_⟩
  · -- the drain is over, so nobody is left on its list
    rcases settled_of_drained h (htable.drained.mpr hdrained) hx hreg with ho | hr | ⟨left, hd, -⟩
    · exact .inl ho
    · exact .inr hr
    · rw [hdrive] at hd
      cases hd
  · rw [husage c, executing_of_done hexchanges hbeats hraws c]

/-! ## The sink -/

/-- **The frame in the sink is counted**: it and its bytes. -/
def SinkCounted (s : Session) (o : Outgoing) : Prop :=
  ∃ a, s.accepted[o.position]? = some a ∧ a.text = o.text ∧
    a.text.utf8ByteSize ≤ (Counter.bytesOf a.control).value s.own.usage ∧
    1 ≤ (Counter.framesOf a.control).value s.own.usage

theorem sinkCounted_of_reachable (h : (machine J).Reachable s) {o : Outgoing}
    (ho : s.writer.frame = some o) : SinkCounted s o := by
  obtain ⟨a, ha, htext, hpermit⟩ := frames_covered h (mem_onTheirWay.mpr (.inr ho))
  have hheld : s.writer.held = [o.permit] := by
    unfold WriterPc.frame at ho
    unfold WriterPc.held
    split at ho <;> simp_all
  have hle : ∀ c : Counter, c.weight o.permit ≤ c.value s.own.usage := by
    intro c
    have hacc := accounts_of_reachable h c
    unfold held at hacc
    rw [hheld, total_cons] at hacc
    omega
  refine ⟨a, ha, htext, ?_, ?_⟩
  · have hbytes := hle (Counter.bytesOf a.control)
    rw [hpermit] at hbytes
    cases hcontrol : a.control <;> simpa [hcontrol, Counter.bytesOf, Counter.weight, need,
      queueResource] using hbytes
  · have hframes := hle (Counter.framesOf a.control)
    rw [hpermit] at hframes
    cases hcontrol : a.control <;> simpa [hcontrol, Counter.framesOf, Counter.weight, need,
      queueResource] using hframes

/-- **The sink keeps a frame until it has flushed it or is dropped.** -/
theorem Step.sink (h : Step J s e s') {o : Outgoing} (ho : s.writer.sink = some o) :
    s'.writer.sink = some o ∨ e = .writer .flushes ∨ s'.writer = .ended := by
  cases h with
  | writer h =>
    cases h with
    | flushes => exact .inr (.inl rfl)
    | ends => exact .inr (.inr rfl)
    | @cancels q fed hpc =>
      rw [hpc] at ho
      exact .inl (by cases fed <;> exact ho)
    | @fails q fed hpc =>
      rw [hpc] at ho
      exact .inl (by cases fed <;> exact ho)
    | _ => simp_all [WriterPc.sink]
  | drive h =>
    cases h with
    | aborted => exact .inr (.inr rfl)
    | _ => exact .inl ho
  | exchange _ h =>
    cases h with
    | enqueues _ he => obtain ⟨_, _, _, _, _, rfl⟩ := he.frame; exact .inl ho
    | _ => exact .inl ho
  | beat _ h =>
    cases h with
    | enqueues _ he => obtain ⟨_, _, _, _, _, rfl⟩ := he.frame; exact .inl ho
    | _ => exact .inl ho
  | raw _ he => obtain ⟨_, _, _, _, _, rfl⟩ := he.frame; exact .inl ho
  | work _ h =>
    cases h with
    | writes _ he => obtain ⟨_, _, _, _, _, rfl⟩ := he.frame; exact .inl ho
    | unwritten _ he => obtain ⟨_, _, _, _, _, rfl⟩ := he.frame; exact .inl ho
    | written _ he => obtain ⟨_, _, _, _, _, rfl⟩ := he.frame; exact .inl ho
    | _ => exact .inl ho
  | receive _ h => cases h <;> exact .inl ho
  | _ => exact .inl ho

/-- The steps but a flush of the sink. -/
def NoFlush (_ : Session) (e : Event J) : Prop := e ≠ .writer .flushes

/-- **From the moment it is fed a frame stays counted**, until the sink has
flushed it or is dropped. -/
theorem counted_of_fed (h : (machine J).Reachable s)
    (hfed : (machine J).next s (.writer .feeds) = some s')
    {t : Session} (hp : (machine J).Path NoFlush s' t) : t.writer = .ended ∨ ∃ o,
      t.writer.sink = some o ∧ s'.written = s.written ++ [o.position] ∧ SinkCounted t o := by
  have hreach : (machine J).Reachable t :=
    (h.step trivial hfed).trans (hp.mono fun _ _ _ => trivial)
  have hsink : t.writer = .ended ∨ ∃ o, t.writer.sink = some o ∧
      s'.written = s.written ++ [o.position] := by
    refine hp.preserves (P := fun t => t.writer = .ended ∨ ∃ o, t.writer.sink = some o ∧
      s'.written = s.written ++ [o.position]) ?_ ?_
    · rintro u e u' hne hn (hended | ⟨o, ho, hwritten⟩)
      · exact .inl ((step_of_next hn).ended hended)
      · rcases (step_of_next hn).sink ho with hsame | hflush | hended
        · exact .inr ⟨o, hsame, hwritten⟩
        · exact absurd hflush hne
        · exact .inl hended
    · cases writerStep_of_next hfed with
      | feeds hpc => exact .inr ⟨_, rfl, rfl⟩
  refine hsink.imp_right ?_
  rintro ⟨o, ho, hwritten⟩
  refine ⟨o, ho, hwritten, sinkCounted_of_reachable hreach ?_⟩
  unfold WriterPc.sink at ho
  unfold WriterPc.frame
  split at ho <;> simp_all

/-- **What `closed()` guarantees**, in every run: from the state on where the
flag is set everything of the session is released, and what is counted is
held by calls that are executing. Until then, too, a frame in the sink is
counted. -/
theorem closed_guarantees {s : Session} (h : (machine J).Reachable s) :
    (s.closed = true → ∀ t, (machine J).Path Machine.free s t →
      t.closed = true ∧ Released J t) ∧
    (∀ s' t, (machine J).next s (.writer .feeds) = some s' → (machine J).Path NoFlush s' t →
      t.writer = .ended ∨ ∃ o, t.writer.sink = some o ∧
        s'.written = s.written ++ [o.position] ∧ SinkCounted t o) := by
  refine ⟨fun hclosed t hp => ?_, fun s' t hfed hp => counted_of_fed h hfed hp⟩
  have hstays := closed_of_path hp hclosed
  exact ⟨hstays, released_of_closed (h.trans hp) hstays⟩

/-- A call whose write is cancelled by the shutdown. -/
def cancelledRun : List (Event compactJson) :=
  [.sendPayload zeroBytes "\x7b\x7d"] ++ List.replicate 7 (.exchange 0) ++
    [.writer .steps, .writer .steps, .writer .steps, .writer .steps, .writer .feeds, .close] ++
    List.replicate 4 .drive ++ [.writer .cancels, .writer .ends] ++ List.replicate 7 .drive

/-- Its frame was in the sink, and everything is released. -/
theorem closed_guarantees_cancelledRun : ∃ s,
    (machine compactJson).run (small []) cancelledRun = some s ∧ s.written = [0] ∧
      s.closed = true ∧ Released compactJson s := by
  have hrun : ((machine compactJson).run (small []) cancelledRun).any
      (fun s => decide (s.written = [0] ∧ s.closed = true)) = true := by decide +kernel
  obtain ⟨s, hs, hend⟩ := Machine.exists_of_run hrun
  obtain ⟨hwritten, hclosed⟩ := of_decide_eq_true hend
  have hreach := Machine.reachable_of_run (init_small compactJson []) hs
  exact ⟨s, hs, hwritten, hclosed, ((closed_guarantees hreach).1 hclosed s (.refl s)).2⟩

end Session

end Vcmp
