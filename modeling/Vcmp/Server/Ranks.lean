import Vcmp.Common.Progress
import Vcmp.Server.Shown
import Vcmp.Server.Shutdown
import Vcmp.Server.Supervised
/-!
# How far a `stop` is from its end

What the accept loop, the tasks, the sessions that have not closed and the
`stop` itself have still before them, counted together. Every step of one
of them takes that down. A step may move work from one to another: a task
leaves its joining to the accept loop, and its session to the
`close_sessions` call that has still to close it and wait for it, so a
place weighs what is left of it for the others too.

Only what comes from outside puts something on it: a connection, an
accepted upgrade, an endpoint.
-/

namespace Vcmp

/-- How many steps a task has before it, with what its session costs a call. -/
def TaskPc.rank : TaskPc → ℕ
  | .gated => 18
  | .handshaking => 17
  | .responding _ | .reserved _ => 16
  | .checking _ | .upgrading _ => 15
  -- the session that it spawns has still to close
  | .starting _ => 14
  -- the call has to close the session that is inserted, and to wait for it
  | .inserting _ _ => 12
  | .releasing _ _ => 9
  | .preparing _ _ => 8
  | .hooking _ _ => 7
  | .serving _ _ => 6
  | .removing _ _ => 5
  | .deciding _ _ => 4
  | .notifying _ _ => 3
  | .cleaning _ _ => 2
  | .unlisting _ _ => 1
  | .ended => 0

/-- With its joining, where the accept loop has still to join it. -/
def ConnectionTask.rank (t : ConnectionTask) : ℕ := t.pc.rank + if t.upgrade || t.joined then 0 else 2

def AcceptPc.rank : AcceptPc → ℕ
  | .ended => 0
  | pc => pc.left + 1

def StopPc.rank : StopPc → ℕ
  | .filtering => 6
  | .storing => 5
  | .sending => 4
  | .closing => 3
  | .waiting => 2
  | .reaping => 1
  | .returned | .dropped => 0

theorem TaskPc.unwound_rank {pc : TaskPc} (h : pc.awaits = true) : pc.unwound.rank + 1 ≤ pc.rank := by
  cases pc <;> first | simp [unwound, rank]; done | cases h

namespace VcmpServer

variable {s s' : VcmpServer} {k q i : ℕ} {t : ConnectionTask} {pc : ClosingPc} {e : Event}

/-- How many sessions the endpoints list, from `i` on. -/
def listed (s : VcmpServer) (i : ℕ) : ℕ := total (fun p => p.sessions.length) (s.endpoints.drop i)

/-- How many steps a `close_sessions` call has before it. -/
def closingRank (s : VcmpServer) : ClosingPc → ℕ
  | .listing => 2 * s.listed 0 + 2 * s.endpoints.length + 5
  | .waiting n i => 2 * s.listed 0 + (n - i) + n + 4
  | .collecting n i sessions => 2 * (sessions.length + s.listed i) + (n - i) + 3
  | .closing sessions left => left.length + sessions.length + 2
  | .awaiting _ left => left.length + 1
  | .returned _ | .dropped => 0

/-- How many sessions have not closed. -/
def unclosed (s : VcmpServer) : ℕ := total (fun x => if x.closed then 0 else 1) s.sessions

def stopRank (s : VcmpServer) : ℕ := (s.stop.map fun c => c.pc.rank).getD 0

/-- **How many steps are left before the `stop` has returned**, at most. -/
def rank (s : VcmpServer) : ℕ :=
  s.accept.rank + total ConnectionTask.rank s.tasks + s.unclosed + s.stopRank + s.closingRank s.stage

/-! ## What moves it -/

/-- Endpoints that list no more than before, but for `n` sessions. -/
theorem closingRank_le {n : ℕ} (hlisted : ∀ i, s'.listed i ≤ s.listed i + n)
    (hlength : s'.endpoints.length = s.endpoints.length) (pc : ClosingPc) :
    s'.closingRank pc ≤ s.closingRank pc + 2 * n := by
  cases pc with
  | listing | waiting =>
    have hle := hlisted 0
    simp only [closingRank, hlength]
    omega
  | collecting m i sessions =>
    have hle := hlisted i
    simp only [closingRank]
    omega
  | _ => exact Nat.le_add_right _ _

theorem closingRank_congr (h : s'.endpoints = s.endpoints) (pc : ClosingPc) :
    s'.closingRank pc = s.closingRank pc := by
  cases pc <;> simp only [closingRank, listed, h]

theorem stage_congr (hstop : s'.stop = s.stop) (hclosings : s'.closings = s.closings) :
    s'.stage = s.stage := by
  unfold stage stopCall closingAt
  rw [hstop, hclosings]

/-- A change of one endpoint. -/
theorem closingRank_modify {n : ℕ} {g : Endpoint → Endpoint}
    (hg : ∀ p, (g p).sessions.length ≤ p.sessions.length + n) (i : ℕ)
    (h : s'.endpoints = s.endpoints.modify i g) (pc : ClosingPc) :
    s'.closingRank pc ≤ s.closingRank pc + 2 * n := by
  refine closingRank_le (fun j => ?_) (by rw [h, List.length_modify]) pc
  unfold listed
  rw [h]
  exact total_drop_modify_le hg i j

/-- A session that is closed, or whose `closed()` resolves. -/
theorem unclosed_modify {g : ServedSession → ServedSession}
    (hg : ∀ x, x.closed = true → (g x).closed = true) (c : ℕ) (h : s'.sessions = s.sessions.modify c g) : s'.unclosed ≤ s.unclosed := by
  have hle : ∀ x : ServedSession, (if (g x).closed then 0 else 1) ≤ (if x.closed then 0 else 1) + 0 := by
    intro x
    cases hx : x.closed with
    | true => simp [hg x hx]
    | false => cases (g x).closed <;> simp
  have hmodify := total_drop_modify_le (f := fun x : ServedSession => if x.closed then 0 else 1)
    (l := s.sessions) hle c 0
  unfold unclosed
  rw [h]
  simpa only [List.drop_zero, Nat.add_zero] using hmodify

theorem unclosed_closeSession (s : VcmpServer) (c : ℕ) : (s.closeSession c).unclosed ≤ s.unclosed :=
  unclosed_modify (g := fun x => { x with isOpen := false }) (fun _ hx => hx) c rfl

theorem rank_abortAll (s : VcmpServer) (p : ℕ → ConnectionTask → Bool) :
    total ConnectionTask.rank (s.abortAll p).tasks = total ConnectionTask.rank s.tasks := by
  refine total_congr fun j => ?_
  simp only [abortAll, List.getElem?_mapIdx, Option.map_map]
  refine congrArg (fun g => Option.map g s.tasks[j]?) (funext fun t => ?_)
  simp only [Function.comp_apply]
  split <;> rfl

/-- The end of a hook leaves the call where it is, or drops it. -/
theorem stage_leaveHook (s : VcmpServer) (k : ℕ) :
    (s.leaveHook k).stage = s.stage ∨ (s.leaveHook k).stage = .dropped := by
  have hleft := left_leaveHook s k
  generalize s.leaveHook k = u at hleft
  cases hleft with
  | same => exact .inl rfl
  | @dropped c hc =>
    cases hq : c.call with
    | none => exact .inl (by simp [stage, stopCall, hc, hq])
    | some q =>
      simp only [stage, stopCall, hc, hq, Option.bind_some]
      exact (closingAt_set rfl).imp_right And.right

theorem rank_leaveHook (s : VcmpServer) (k : ℕ) : (s.leaveHook k).stopRank ≤ s.stopRank ∧
    (s.leaveHook k).closingRank (s.leaveHook k).stage ≤ s.closingRank s.stage := by
  constructor
  · rcases stop_leaveHook s k with ⟨hsame, -⟩ | ⟨c, hc, hdropped⟩
    · exact le_of_eq (by rw [stopRank, hsame, stopRank])
    · simp [stopRank, hdropped, StopPc.rank]
  · rcases stage_leaveHook s k with hsame | hdropped
    · rw [hsame]
      exact le_of_eq (closingRank_congr (by rw [leaveHook_eq]) _)
    · rw [hdropped]
      exact Nat.zero_le _

/-! ## The steps of the tasks -/

/-- Where a task moves, and leaves of its work `a` to a session and `b` to the call. -/
theorem rank_of_task {a b : ℕ} (ht : s.tasks[k]? = some t) (pc : TaskPc)
    (htasks : s'.tasks = s.tasks.set k { t with pc := pc }) (haccept : s'.accept = s.accept)
    (hunclosed : s'.unclosed ≤ s.unclosed + a) (hstop : s'.stopRank ≤ s.stopRank)
    (hclosing : s'.closingRank s'.stage ≤ s.closingRank s.stage + b)
    (hpc : pc.rank + a + b + 1 ≤ t.pc.rank) : s'.rank + 1 ≤ s.rank := by
  have hset : total ConnectionTask.rank (s.tasks.set k { t with pc := pc }) + t.rank =
      total ConnectionTask.rank s.tasks + ConnectionTask.rank { t with pc := pc } := total_set ht
  simp only [ConnectionTask.rank] at hset
  unfold rank
  rw [htasks, haccept]
  omega

/-- **Every step of a task takes the rank down.** -/
theorem rank_taskStep (ht : s.tasks[k]? = some t) {move : TaskMove} (h : TaskStep s k t move s') :
    s'.rank + 1 ≤ s.rank := by
  have goes : ∀ (w : VcmpServer) (pc : TaskPc), w.tasks = s.tasks.set k { t with pc := pc } →
      w.accept = s.accept → w.stop = s.stop → w.closings = s.closings → w.endpoints = s.endpoints →
      w.unclosed ≤ s.unclosed → pc.rank + 1 ≤ t.pc.rank → w.rank + 1 ≤ s.rank := by
    intro w pc htasks haccept hstop hclosings hendpoints hunclosed hpc
    refine rank_of_task (a := 0) (b := 0) ht pc htasks haccept hunclosed ?_ ?_ hpc
    · unfold stopRank
      rw [hstop]
    · rw [stage_congr hstop hclosings]
      exact le_of_eq (closingRank_congr hendpoints _)
  have lists : ∀ (w : VcmpServer) (pc : TaskPc) (i n : ℕ) (g : Endpoint → Endpoint),
      w = { s with tasks := s.tasks.set k { t with pc := pc }, endpoints := s.endpoints.modify i g } →
      (∀ p, (g p).sessions.length ≤ p.sessions.length + n) → pc.rank + 2 * n + 1 ≤ t.pc.rank →
      w.rank + 1 ≤ s.rank := by
    rintro w pc i n g rfl hg hpc
    exact rank_of_task (a := 0) (b := 2 * n) ht pc rfl rfl le_rfl le_rfl
      (closingRank_modify hg i rfl _) hpc
  have drops : ∀ (w : VcmpServer) (pc : TaskPc),
      w = (s.setTask k { t with pc := pc }).dropPending t.pending → pc.rank + 1 ≤ t.pc.rank →
      w.rank + 1 ≤ s.rank := by
    rintro w pc rfl hpc
    cases hi : t.pending with
    | none => exact goes _ pc rfl rfl rfl rfl rfl le_rfl hpc
    | some i => exact lists _ pc i 0 _ rfl (fun _ => le_rfl) hpc
  have leaves : ∀ (w : VcmpServer) (pc : TaskPc), w = (s.setTask k { t with pc := pc }).leaveHook k →
      pc.rank + 1 ≤ t.pc.rank → w.rank + 1 ≤ s.rank := by
    rintro w pc rfl hpc
    obtain ⟨hstop, hclosing⟩ := rank_leaveHook (s.setTask k { t with pc := pc }) k
    refine rank_of_task (a := 0) (b := 0) ht pc (by rw [leaveHook_eq]; rfl) (by rw [leaveHook_eq]; rfl)
      (le_of_eq ?_) hstop hclosing hpc
    rw [unclosed, leaveHook_eq]
    rfl
  cases h with
  | spawned hpc =>
    refine rank_of_task (a := 1) (b := 0) ht (.inserting _ s.sessions.length) rfl rfl ?_ le_rfl le_rfl
      (by rw [hpc]; simp [TaskPc.rank])
    simp [unclosed]
  | @inserted i c hpc =>
    refine lists _ _ i 1 (fun p => { p with sessions := p.sessions ++ [c] }) rfl (fun p => by simp) ?_
    rw [hpc]
    cases t.upgrade <;> simp [TaskPc.rank]
  | @removed i c hpc | @unlisted i c hpc =>
    refine lists _ _ i 0 (fun p => { p with sessions := p.sessions.filter (fun d => d ≠ c) }) rfl
      (fun p => List.length_filter_le _ _) ?_
    rw [hpc]
    simp [TaskPc.rank]
  | @counted i hpc => exact lists _ _ i 0 _ rfl (fun _ => le_rfl) (by rw [hpc]; simp [TaskPc.rank])
  | failed hpc | released hpc => exact drops _ _ rfl (by rw [hpc]; simp [TaskPc.rank])
  | hookEnds hpc | notified hpc => exact leaves _ _ rfl (by rw [hpc]; simp [TaskPc.rank])
  | aborts _ hawaits => exact leaves _ _ rfl (TaskPc.unwound_rank hawaits)
  | panics hhook => exact leaves _ _ rfl (TaskPc.unwound_rank (TaskPc.awaits_of_inHook hhook))
  | lost hpc =>
    refine goes _ _ rfl rfl rfl rfl rfl le_rfl ?_
    rcases hpc with hpc | ⟨i, hpc⟩ <;> rw [hpc] <;> simp [TaskPc.rank]
  | overloaded hpc | cleaned hpc =>
    exact goes _ _ rfl rfl rfl rfl rfl (unclosed_closeSession _ _) (by rw [hpc]; simp [TaskPc.rank])
  | _ hpc => exact goes _ _ rfl rfl rfl rfl rfl le_rfl (by rw [hpc]; simp [TaskPc.rank])

/-! ## The steps of the accept loop -/

/-- What a connection that is accepted puts on the rank, an accept error, an
accepted upgrade, an endpoint, and a `stop` that begins. -/
def Event.brings : Event → ℕ
  | .accept .accepts => 22
  | .accept .errs => 1
  | .onUpgrade _ true => 16
  | .endpoint => 2
  | .stop _ => 6
  | _ => 0

/-- **The steps that bring a `stop` on**: those of the accept loop and of the
tasks, its own and those of its `close_sessions` call. -/
def serves (s : VcmpServer) : Event → ℕ
  | .accept .accepts | .accept .errs => 0
  | .accept _ | .task _ _ | .stopGoes | .stopDeadline => 1
  | .closing q => if s.stopCall = some q then 1 else 0
  | _ => 0

/-- Where the accept loop goes on, and the tasks weigh what they did, but for what it does to one. -/
theorem rank_of_accept {a b : ℕ} (hstop : s'.stop = s.stop) (hclosings : s'.closings = s.closings)
    (hendpoints : s'.endpoints = s.endpoints) (hsessions : s'.sessions = s.sessions)
    (htasks : total ConnectionTask.rank s'.tasks + s'.accept.rank + a ≤
      total ConnectionTask.rank s.tasks + s.accept.rank + b) : s'.rank + a ≤ s.rank + b := by
  unfold rank unclosed stopRank
  rw [stage_congr hstop hclosings, closingRank_congr hendpoints, hsessions, hstop]
  omega

theorem rank_acceptStep {move : AcceptMove} (h : AcceptStep s move s') :
    s'.rank + s.serves (.accept move) ≤ s.rank + Event.brings (.accept move) := by
  have joins : ∀ (k : ℕ), s.Joinable k →
      total ConnectionTask.rank (s.tasks.modify k fun t => { t with joined := true }) + 2 =
        total ConnectionTask.rank s.tasks := by
    rintro k ⟨t, ht, hbare, hunjoined, -⟩
    rw [modify_eq_set ht]
    have hset : total ConnectionTask.rank (s.tasks.set k { t with joined := true }) + t.rank =
        total ConnectionTask.rank s.tasks + ConnectionTask.rank { t with joined := true } := total_set ht
    have hbefore : t.rank = t.pc.rank + 2 := by simp [ConnectionTask.rank, hbare, hunjoined]
    have hbehind : ConnectionTask.rank { t with joined := true } = t.pc.rank := by
      simp [ConnectionTask.rank]
    omega
  cases h with
  | joins hpc hk | joinsLast hpc hk =>
    have htasks := joins _ hk
    refine rank_of_accept rfl rfl rfl rfl ?_
    simp only [hpc, AcceptPc.rank, AcceptPc.left, serves, Event.brings]
    omega
  | @readies k hpc =>
    refine rank_of_accept rfl rfl rfl rfl ?_
    have htasks : total ConnectionTask.rank (s.tasks.modify k fun t => { t with ready := true }) =
        total ConnectionTask.rank s.tasks := total_modify fun _ => rfl
    simp only [htasks, hpc, AcceptPc.rank, AcceptPc.left, serves, Event.brings]
    omega
  | aborts habort hpc =>
    refine rank_of_accept rfl rfl rfl rfl ?_
    have hpos : 1 ≤ s.accept.rank := by
      cases hat : s.accept <;> rw [hat] at hpc <;> first | simp [AcceptPc.rank]; done | cases hpc
    change total ConnectionTask.rank (s.abortAll _).tasks + 0 + 1 ≤ _ + 0
    rw [rank_abortAll]
    omega
  | accepts hpc =>
    refine rank_of_accept rfl rfl rfl rfl ?_
    simp [hpc, AcceptPc.rank, AcceptPc.left, serves, Event.brings, ConnectionTask.rank, TaskPc.rank]
  | _ hpc =>
    refine rank_of_accept rfl rfl rfl rfl ?_
    simp only [hpc, AcceptPc.rank, AcceptPc.left, serves, Event.brings]
    omega

/-! ## The steps of the call and of the `stop` -/

/-- **A call that goes on has less before it.** -/
theorem rank_of_closingStep (h : ClosingStep s q pc s') : ∃ pc',
    s' = { s with sessions := s'.sessions, closings := s.closings.set q pc' } ∧
      s'.unclosed ≤ s.unclosed ∧ s.closingRank pc' + 1 ≤ s.closingRank pc := by
  cases h with
  | lists =>
    refine ⟨_, rfl, le_rfl, ?_⟩
    simp only [closingRank]
    omega
  | passes =>
    refine ⟨_, rfl, le_rfl, ?_⟩
    simp only [closingRank]
    omega
  | waited =>
    refine ⟨_, rfl, le_rfl, ?_⟩
    simp only [closingRank, List.length_nil]
    omega
  | @collects n i sessions p hi hp =>
    refine ⟨_, rfl, le_rfl, ?_⟩
    obtain ⟨hlt, rfl⟩ := List.getElem?_eq_some_iff.mp hp
    have hlisted : s.listed i = s.endpoints[i].sessions.length + s.listed (i + 1) := by
      unfold listed
      rw [List.drop_eq_getElem_cons hlt, total_cons]
    simp only [closingRank, List.length_append]
    omega
  | collected =>
    refine ⟨_, rfl, le_rfl, ?_⟩
    simp only [closingRank]
    omega
  | closes =>
    refine ⟨_, rfl, unclosed_closeSession _ _, ?_⟩
    simp only [closingRank, List.length_cons]
    omega
  | closed | awaits | returns =>
    refine ⟨_, rfl, le_rfl, ?_⟩
    simp only [closingRank, List.length_cons, List.length_nil]
    omega

theorem rank_closingStep (hq : s.closings[q]? = some pc) (h : ClosingStep s q pc s') :
    s'.rank + s.serves (.closing q) ≤ s.rank := by
  obtain ⟨pc', heq, hunclosed, hless⟩ := rank_of_closingStep h
  have hclosings : s'.closings = s.closings.set q pc' := by rw [heq]
  have hcall : s'.stopCall = s.stopCall := by rw [heq]; rfl
  have hstop : s'.stopRank = s.stopRank := by rw [heq]; rfl
  have hendpoints : ∀ pc, s'.closingRank pc = s.closingRank pc := closingRank_congr (by rw [heq])
  have hclosing : s'.closingRank s'.stage + s.serves (.closing q) ≤ s.closingRank s.stage := by
    rw [hendpoints]
    by_cases hours : s.stopCall = some q
    · have hstage : s'.stage = pc' := by
        rw [stage_of_stopCall (hcall.trans hours)]
        exact closingAt_of_getElem? (by rw [hclosings]; exact getElem?_set_self' hq)
      rw [hstage, stage_of_stopCall hours, closingAt_of_getElem? hq]
      simpa [serves, hours] using hless
    · -- another call than that of the `stop`
      have hstage : s'.stage = s.stage := by
        cases hp : s.stopCall with
        | none => rw [stage_of_none (hcall.trans hp), stage_of_none hp]
        | some p =>
          rw [stage_of_stopCall (hcall.trans hp), stage_of_stopCall hp]
          refine (closingAt_set hclosings).resolve_right fun hand => hours ?_
          rw [hp, hand.1]
      rw [hstage]
      simp [serves, hours]
  have haccept : s'.accept = s.accept ∧ s'.tasks = s.tasks := by rw [heq]; exact ⟨rfl, rfl⟩
  unfold rank
  rw [haccept.1, haccept.2, hstop]
  omega

/-- **A `stop` and its call**: it has none before it makes it, and then it has it
until both are dropped. -/
structure Called (s : VcmpServer) : Prop where
  uncalled : ∀ c, s.stop = some c → c.pc = .filtering ∨ c.pc = .storing ∨ c.pc = .sending → c.call = none
  called : ∀ c, s.stop = some c → c.pc = .closing → ∃ q pc, c.call = some q ∧
    s.closings[q]? = some pc ∧ pc ≠ .dropped

theorem Called.congr (h : s.Called) (hstop : s'.stop = s.stop) (hclosings : s'.closings = s.closings) :
    s'.Called := by
  refine ⟨fun c hc => h.uncalled c (hstop ▸ hc), fun c hc hpc => ?_⟩
  rw [hclosings]
  exact h.called c (hstop ▸ hc) hpc

/-- Where the calls that are there go on, or stay. -/
theorem Called.of_closings (h : s.Called) (hstop : s'.stop = s.stop)
    (hforth : ∀ (q : ℕ) (pc : ClosingPc), s.closings[q]? = some pc → pc ≠ .dropped →
      ∃ pc', s'.closings[q]? = some pc' ∧ pc' ≠ .dropped) : s'.Called := by
  refine ⟨fun c hc => h.uncalled c (hstop ▸ hc), fun c hc hpc => ?_⟩
  obtain ⟨q, pc, hcall, hq, hne⟩ := h.called c (hstop ▸ hc) hpc
  obtain ⟨pc', hq', hne'⟩ := hforth q pc hq hne
  exact ⟨q, pc', hcall, hq', hne'⟩

/-- Where the `stop` is behind its call, or was dropped. -/
theorem called_of_behind {c : StopCall} (hstop : s'.stop = some c)
    (hpc : c.pc = .waiting ∨ c.pc = .reaping ∨ c.pc = .returned ∨ c.pc = .dropped) : s'.Called := by
  constructor
  all_goals
    intro d hd hdpc
    obtain rfl := Option.some.inj (hstop.symm.trans hd)
  · rcases hpc with hpc | hpc | hpc | hpc <;> rw [hpc] at hdpc <;> simp at hdpc
  · rw [hdpc] at hpc
    simp at hpc

theorem Called.leaveHook (h : s.Called) (k : ℕ) : (s.leaveHook k).Called := by
  have hleft := left_leaveHook s k
  generalize s.leaveHook k = u at hleft
  cases hleft with
  | same => exact h
  | dropped => exact called_of_behind rfl (.inr (.inr (.inr rfl)))

theorem Called.step (h : s.Called) (hn : machine.next s e = some s') : s'.Called := by
  have more : ∀ (q : ℕ) (pc : ClosingPc), s.closings[q]? = some pc → pc ≠ .dropped →
      ∃ pc', (s.closings ++ [.listing])[q]? = some pc' ∧ pc' ≠ .dropped :=
    fun q pc hq hne => ⟨pc, getElem?_append_some hq, hne⟩
  cases step_of_next hn with
  | accept hs => cases hs <;> exact h.congr rfl rfl
  | @task k t _ _ _ hs =>
    have moved : ∀ v, (s.setTask k v).Called := fun v => h.congr rfl rfl
    cases hs with
    | hookEnds | notified | aborts | panics => exact (moved _).leaveHook k
    | failed | released => exact h.congr (by rw [dropPending_eq]; rfl) (by rw [dropPending_eq]; rfl)
    | _ => exact h.congr rfl rfl
  | closeSessions => exact h.of_closings rfl more
  | @closing r pc _ hr hs =>
    have goes : ∀ pc', s'.closings = s.closings.set r pc' → pc' ≠ .dropped →
        s'.stop = s.stop → s'.Called := by
      intro pc' hclosings hne hstop
      refine h.of_closings hstop fun q pc hq hpc => ?_
      rw [hclosings]
      by_cases hqr : r = q
      · subst hqr
        exact ⟨pc', getElem?_set_self' hq, hne⟩
      · exact ⟨pc, (List.getElem?_set_ne hqr).trans hq, hpc⟩
    cases hs <;> exact goes _ rfl (by simp) rfl
  | stop hnone =>
    constructor
    · intro c hc _
      obtain rfl := Option.some.inj hc
      rfl
    · intro c hc hpc
      obtain rfl := Option.some.inj hc
      cases hpc
  | @stopGoes c _ hc hs =>
    cases hs with
    | filters hpc | stores hpc =>
      constructor
      · intro d hd _
        obtain rfl := Option.some.inj hd
        exact h.uncalled c hc (by simp [hpc])
      · intro d hd hdpc
        obtain rfl := Option.some.inj hd
        cases hdpc
    | sends =>
      constructor
      · intro d hd hdpc
        obtain rfl := Option.some.inj hd
        rcases hdpc with hdpc | hdpc | hdpc <;> cases hdpc
      · intro d hd _
        obtain rfl := Option.some.inj hd
        exact ⟨s.closings.length, .listing, rfl, by simp, by simp⟩
    | closed => exact called_of_behind rfl (.inl rfl)
    | returns => exact called_of_behind rfl (.inr (.inr (.inl rfl)))
  | stopDeadline _ hs => cases hs <;> exact called_of_behind rfl (.inr (.inl rfl))
  | _ => exact h.congr rfl rfl

theorem called_of_reachable (h : machine.Reachable s) : s.Called := by
  have hinit : ∀ s, machine.init s → s.Called := by
    rintro s ⟨n, rfl⟩
    constructor <;> simp
  exact h.invariant hinit fun s e s' _ hn hs => hs.step hn

/-- A `stop` that goes on with the call it has. -/
theorem stage_of_call {c d : StopCall} (hc : s.stop = some c) (hd : s'.stop = some d)
    (hcall : d.call = c.call) (hclosings : s'.closings = s.closings) : s'.stage = s.stage := by
  unfold stage stopCall closingAt
  rw [hc, hd, hclosings]
  simp only [Option.bind_some, hcall]

theorem rank_of_stop {c d : StopCall} (hc : s.stop = some c) (hd : s'.stop = some d)
    (hstage : s'.stage = s.stage) (hendpoints : s'.endpoints = s.endpoints)
    (hsessions : s'.sessions = s.sessions) (haccept : s'.accept = s.accept)
    (htasks : total ConnectionTask.rank s'.tasks = total ConnectionTask.rank s.tasks)
    (hpc : d.pc.rank + 1 ≤ c.pc.rank) : s'.rank + 1 ≤ s.rank := by
  unfold rank unclosed stopRank
  rw [hstage, closingRank_congr hendpoints, hsessions, haccept, htasks, hc, hd]
  simp only [Option.map_some, Option.getD_some]
  omega

theorem rank_stopStep {c : StopCall} (h : s.Called) (hc : s.stop = some c) (hs : StopStep s c s') :
    s'.rank + 1 ≤ s.rank := by
  cases hs with
  | sends hpc =>
    have hnone := h.uncalled c hc (.inr (.inr hpc))
    refine rank_of_stop hc rfl ?_ rfl rfl rfl rfl (by simp [hpc, StopPc.rank])
    have hbefore : s.stage = .listing := stage_of_none (by simp [stopCall, hc, hnone])
    rw [hbefore, stage_of_stopCall (q := s.closings.length) rfl, closingAt_concat (s := s) rfl]
    simp [closingAt]
  | filters hpc | stores hpc | closed hpc =>
    exact rank_of_stop hc rfl (stage_of_call hc rfl rfl rfl) rfl rfl rfl rfl (by simp [hpc, StopPc.rank])
  | returns hpc =>
    refine rank_of_stop hc rfl (stage_of_call hc rfl rfl rfl) rfl rfl rfl rfl ?_
    rcases hpc with hpc | hpc <;> simp [hpc, StopPc.rank]

theorem rank_deadlineStep {c : StopCall} (hc : s.stop = some c) (hs : DeadlineStep s c s') :
    s'.rank + 1 ≤ s.rank := by
  cases hs with
  | others hpc =>
    exact rank_of_stop hc rfl (stage_of_call hc rfl rfl rfl) rfl rfl rfl (rank_abortAll s _)
      (by simp [hpc, StopPc.rank])
  | loop hpc =>
    exact rank_of_stop hc rfl (stage_of_call hc rfl rfl rfl) rfl rfl rfl rfl (by simp [hpc, StopPc.rank])

/-- **A session whose `closed()` resolves is one less to wait for.** -/
theorem rank_finish {d : ℕ} {x : ServedSession} (hx : s.sessions[d]? = some x) (hno : x.closed = false) :
    rank { s with sessions := s.sessions.modify d fun x => { x with closed := true } } < s.rank := by
  have hset := total_set (f := fun x : ServedSession => if x.closed then 0 else 1)
    (b := { x with closed := true }) hx
  simp only [hno, Bool.false_eq_true, if_false, if_true] at hset
  have hunclosed :
      unclosed { s with sessions := s.sessions.modify d fun x => { x with closed := true } } + 1 =
        s.unclosed := by
    unfold unclosed
    rw [modify_eq_set hx]
    omega
  have hclosing : closingRank { s with sessions := s.sessions.modify d fun x => { x with closed := true } }
      s.stage = s.closingRank s.stage := closingRank_congr rfl _
  change s.accept.rank + total ConnectionTask.rank s.tasks + unclosed _ + s.stopRank +
    closingRank _ s.stage < s.rank
  rw [hclosing]
  unfold rank
  omega

/-! ## Every step -/

/-- Where nothing moves but what an endpoint or a session is. -/
theorem rank_of_rest {n : ℕ} (haccept : s'.accept = s.accept) (hstop : s'.stop = s.stop)
    (hunclosed : s'.unclosed ≤ s.unclosed)
    (htasks : total ConnectionTask.rank s'.tasks + s'.closingRank s'.stage ≤
      total ConnectionTask.rank s.tasks + s.closingRank s.stage + n) : s'.rank ≤ s.rank + n := by
  unfold rank stopRank
  rw [haccept, hstop]
  omega

/-- An endpoint more is one that a call which begins waits for and collects. -/
theorem closingRank_adds (s : VcmpServer) (pc : ClosingPc) :
    closingRank { s with endpoints := s.endpoints ++ [{}] } pc ≤ s.closingRank pc + 2 := by
  have hlisted : ∀ i, listed { s with endpoints := s.endpoints ++ [{}] } i ≤ s.listed i := by
    intro i
    unfold listed
    rw [List.drop_append, total_append]
    rcases i - s.endpoints.length with - | d <;> simp
  cases pc with
  | listing | waiting =>
    have hle := hlisted 0
    simp only [closingRank, List.length_append, List.length_singleton]
    omega
  | collecting m i sessions =>
    have hle := hlisted i
    simp only [closingRank]
    omega
  | _ => exact Nat.le_add_right _ _

/-- **Every step of those that bring a `stop` on takes the rank down**, and only
what comes from outside puts something on it. -/
theorem rank_step (h : machine.Reachable s) (hn : machine.next s e = some s') :
    s'.rank + s.serves e ≤ s.rank + e.brings := by
  cases step_of_next hn with
  | endpoint => exact rank_of_rest rfl rfl le_rfl (Nat.add_le_add_left (closingRank_adds s _) _)
  | accept hs => exact rank_acceptStep hs
  | upgrade =>
    refine rank_of_rest rfl rfl le_rfl ?_
    simp only [total_append, total_cons, total_nil, ConnectionTask.rank, TaskPc.rank, Event.brings]
    exact le_of_eq (Nat.add_right_comm _ _ _)
  | overload => exact Nat.le_add_right _ _
  | task ht hs => exact rank_taskStep ht hs
  | closeSessions =>
    refine rank_of_rest (n := 0) rfl rfl le_rfl (Nat.add_le_add_left (le_of_eq ?_) _)
    have hstage : stage { s with closings := s.closings ++ [.listing] } = s.stage := by
      cases hq : s.stopCall with
      | none =>
        rw [stage_of_none (s := { s with closings := s.closings ++ [.listing] }) hq, stage_of_none hq]
      | some q =>
        rw [stage_of_stopCall (s := { s with closings := s.closings ++ [.listing] }) hq,
          stage_of_stopCall hq]
        exact closingAt_concat rfl
    rw [hstage]
    exact closingRank_congr rfl _
  | closing hq hs => exact rank_closingStep hq hs
  | @stop awaiter hnone =>
    have hstage : stage { s with stop := some { awaiter := awaiter } } = s.stage := by
      rw [stage_of_none rfl, stage_of_none (by simp [stopCall, hnone])]
    have hclosing : closingRank { s with stop := some { awaiter := awaiter } } s.stage =
        s.closingRank s.stage := closingRank_congr rfl _
    unfold rank
    rw [hstage, hclosing]
    simp only [stopRank, hnone, serves, Event.brings, StopPc.rank, Option.map_some, Option.map_none,
      Option.getD_some, Option.getD_none, unclosed]
    omega
  | stopGoes hc hs => exact rank_stopStep (called_of_reachable h) hc hs
  | stopDeadline hc hs => exact rank_deadlineStep hc hs
  | close => exact rank_of_rest (n := 0) rfl rfl (unclosed_closeSession _ _) le_rfl
  | finish =>
    exact rank_of_rest (n := 0) rfl rfl
      (unclosed_modify (g := fun x => { x with closed := true }) (fun _ _ => rfl) _ rfl) le_rfl

end VcmpServer

end Vcmp
