import Vcmp.Client.System
import Vcmp.Common.Progress
import Vcmp.Session.Closing
/-!
# A run task that was told to stop ends

Every step of such a task brings it nearer its end, whatever it finds:
a connection attempt that succeeds all the same is refused when its session
is to be installed. It waits for three things only. The hooks are ended by
their deadline, the lock by the section that holds it, and the closing of
its session by the session's own tasks, so a `stop_and_wait` returns.
-/

namespace Vcmp

/-- What is left of a run task that was told to stop. -/
def RunPc.rank : RunPc → ℕ
  | .preparing _ => 9
  | .hooking _ => 8
  | .serving _ => 7
  | .closing _ => 6
  | .clearing _ => 5
  | .deciding _ => 4
  | .calling _ | .waiting => 3
  | .notifying _ | .connecting => 2
  | .installing _ | .checking => 1
  | .ended => 0

/-- Where a run task asks for the lock. -/
def RunPc.locks : RunPc → Bool
  | .installing _ | .clearing _ => true
  | _ => false

/-- What is left of a lock section. -/
def LockSection.rank : LockSection → ℕ
  | .startSignal => 4
  | .startClose | .stopSignal _ => 3
  | .startAbort | .stopClose _ => 2
  | .startSpawn | .stopFinish _ => 1

namespace VcmpClient

variable {s s' : VcmpClient} {k c : ℕ} {t : RunTask} {e : Event}

/-- What is left of the section holding the lock. -/
def lockRank (s : VcmpClient) : ℕ := (s.lock.map LockSection.rank).getD 0

/-- The run task `k` was told to stop. -/
def ToldToStop (s : VcmpClient) (k : ℕ) : Prop :=
  ∃ t : RunTask, s.tasks[k]? = some t ∧ t.stop ≠ .no

/-- Where the run task `k` is. -/
def pcOf (s : VcmpClient) (k : ℕ) : RunPc := (s.tasks[k]?.map RunTask.pc).getD .ended

theorem pcOf_of_getElem? (ht : s.tasks[k]? = some t) : s.pcOf k = t.pc := by
  simp [pcOf, ht]

/-! ## The steps of the task -/

/-- **A task that was told to stop comes nearer its end with each of its steps.** -/
theorem rank_runNext (hinv : s.Inv) (ht : s.tasks[k]? = some t) (hstop : t.stop ≠ .no) {move : Move}
    (h : s.runNext k t move = some s') : (s'.pcOf k).rank < t.pc.rank := by
  have lower : ∀ {u : VcmpClient} (pc : RunPc), u.tasks = (s.setTask k { t with pc := pc }).tasks →
      pc.rank < t.pc.rank → (u.pcOf k).rank < t.pc.rank := by
    intro u pc htasks hlt
    have hu : u.tasks[k]? = some { t with pc := pc } := htasks ▸ getElem?_set_self' ht
    rwa [pcOf_of_getElem? hu]
  have ends : ∀ o, t.pc ≠ .ended →
      (((s.setTask k { t with pc := .ended }).dropGuard o).pcOf k).rank < t.pc.rank := by
    intro o hpc
    refine lower .ended (by cases o <;> rfl) ?_
    cases hat : t.pc <;> simp [hat, RunPc.rank] at hpc ⊢
  cases runStep_of_next h with
  | stopped hpc => exact lower _ rfl (by rcases hpc with hpc | hpc <;> rw [hpc] <;> simp [RunPc.rank])
  | closedSeen hpc =>
    exact lower _ rfl (by rcases hpc with hpc | hpc <;> rw [hpc] <;> simp [RunPc.rank])
  | installed hpc _ hgen hrun =>
    -- the current generation's task of a running client was not told to stop
    obtain ⟨j, u, -, hu, hno, hj⟩ := hinv.current hrun
    obtain rfl : j = k := by omega
    obtain rfl := Option.some.inj (ht.symm.trans hu)
    exact absurd hno hstop
  | delays hpc =>
    simp only [runNext, hpc, if_pos hstop, Option.some.injEq] at h
    rw [← h]
    exact lower _ rfl (by rw [hpc]; simp [RunPc.rank])
  | aborts =>
    simp only [runNext, Option.ite_none_right_eq_some] at h
    refine ends _ fun hpc => ?_
    simp [hpc, RunPc.awaits] at h
  | panics hpanic =>
    refine ends _ fun hpc => ?_
    rw [hpc] at hpanic
    cases hpanic
  | connects hpc | connectFails hpc | refused hpc | unhooked hpc | hooked hpc | overloaded hpc
  | hookEnds hpc | hookStopped hpc | closes hpc | ignored hpc | cleared hpc | decides hpc | silent hpc
  | notifies hpc | unasked hpc | notified hpc | leaves hpc | wakes hpc =>
    exact lower _ rfl (by rw [hpc]; simp [RunPc.rank])

/-- No other party moves the task. -/
theorem pcOf_of_other (hn : machine.next s e = some s') (ht : s.tasks[k]? = some t)
    (hne : ∀ move, e ≠ .run k move) : s'.pcOf k = t.pc := by
  have aborted : ∀ j, s'.tasks = (s.abortTask j).tasks → s'.pcOf k = t.pc := by
    intro j htasks
    have hu : s'.tasks[k]? = some (if j = k then { t with aborted := true } else t) := by
      simp [htasks, abortTask, List.getElem?_modify, ht]
    rw [pcOf_of_getElem? hu]
    split <;> rfl
  have kept : s'.tasks = s.tasks → s'.pcOf k = t.pc :=
    fun htasks => pcOf_of_getElem? (htasks ▸ ht)
  have signalled : ∀ how, s'.tasks = (s.signal how).tasks → s'.pcOf k = t.pc := by
    intro how htasks
    obtain ⟨u, hu, hpc⟩ := tasks_of_signal how ht
    rw [pcOf_of_getElem? (htasks ▸ hu), hpc]
  cases step_of_next hn with
  | start | stop | finish | close => exact kept rfl
  | giveUp => exact aborted _ rfl
  | @lockSection sec _ =>
    cases sec with
    | startSignal => exact signalled .quiet rfl
    | stopSignal => exact signalled .notify rfl
    | startClose | stopClose => exact kept (by rw [sectionNext, takeSession_eq])
    | startAbort =>
      cases htask : s.task with
      | some j => exact aborted j (by simp only [sectionNext, htask])
      | none => exact kept (by simp only [sectionNext, htask])
    | startSpawn => exact pcOf_of_getElem? (getElem?_append_some ht)
    | stopFinish => exact kept rfl
  | @run j v move _ hv hs =>
    obtain ⟨-, -, -, -, pc, htasks⟩ := runStep_tasks hs
    have hj : j ≠ k := fun hj => hne move (by rw [hj])
    exact pcOf_of_getElem? (by rw [htasks, List.getElem?_set_ne hj, ht])

/-- What a step asks of the lock. -/
def Event.asks : Event → ℕ
  | .start => 4
  | .stop _ => 3
  | _ => 0

/-- **The section that holds the lock comes to its end**, and only a free lock is taken. -/
theorem lockRank_step (hn : machine.next s e = some s') :
    s'.lockRank + (if e = .lockSection then 1 else 0) ≤ s.lockRank + e.asks := by
  have kept : s'.lock = s.lock → s'.lockRank = s.lockRank := fun hlock => by rw [lockRank, hlock, lockRank]
  cases step_of_next hn with
  | start hlock | stop hlock => simp [lockRank, hlock, LockSection.rank, Event.asks]
  | finish | giveUp | close => simp [lockRank, abortTask, VcmpClient.closeSession]
  | @lockSection sec hlock =>
    have hrank : s.lockRank = sec.rank := by simp [lockRank, hlock]
    rw [hrank]
    cases sec with
    | startAbort =>
      simp only [sectionNext]
      split <;> simp [lockRank, LockSection.rank, Event.asks]
    | _ => simp [lockRank, sectionNext, LockSection.rank, Event.asks]
  | run _ hs =>
    obtain ⟨-, -, -, hlock, -⟩ := runStep_tasks hs
    simp [lockRank, hlock, Event.asks]

/-- The session whose close is awaited was closed. -/
theorem shut_of_closing (h : machine.Reachable s) (ht : s.tasks[k]? = some t) (hpc : t.pc = .closing c) :
    ∃ x, s.sessions[c]? = some x ∧ x.isOpen = false := by
  refine h.invariant_of (P := fun s => ∀ (k c : ℕ) (t : RunTask), s.tasks[k]? = some t →
    t.pc = .closing c → ∃ x, s.sessions[c]? = some x ∧ x.isOpen = false) ?_ ?_ k c t ht hpc
  · rintro s rfl k c t ht
    cases ht
  · intro s e s' hr _ hn ih k c u hu hpc
    have stays : ∀ x, s.sessions[c]? = some x → x.isOpen = false →
        ∃ y, s'.sessions[c]? = some y ∧ y.isOpen = false := by
      intro x hx hno
      obtain ⟨y, hy, haged⟩ := connection_step hn hx
      refine ⟨y, hy, ?_⟩
      by_contra hopen
      rw [haged.isOpen (by simpa using hopen)] at hno
      cases hno
    rcases task_back hn hu with rfl | ⟨t, ht, hsame⟩ | ⟨t, move, ht, hs⟩
    · cases hpc
    · obtain ⟨x, hx, hno⟩ := ih k c t ht (hsame ▸ hpc)
      exact stays x hx hno
    · have other : ∀ pc, s'.tasks = (s.setTask k { t with pc := pc }).tasks → pc ≠ .closing c →
          ∃ y, s'.sessions[c]? = some y ∧ y.isOpen = false := by
        intro pc htasks hne
        have hat : s'.tasks[k]? = some { t with pc := pc } := htasks ▸ getElem?_set_self' ht
        obtain rfl := Option.some.inj (hat.symm.trans hu)
        exact absurd hpc hne
      cases hs with
      | @closes d hat =>
        have hu' := getElem?_set_self' (b := { t with pc := .closing d }) ht
        obtain rfl := Option.some.inj (hu'.symm.trans hu)
        obtain rfl : d = c := by simpa using hpc
        obtain ⟨x, hx, -⟩ := (inv_of_reachable hr).guarded k t d ht (by rw [hat]; rfl)
        refine ⟨{ x with isOpen := false }, ?_, rfl⟩
        simp [VcmpClient.closeSession, setTask, hx]
      | aborts | panics =>
        refine other .ended ?_ (by simp)
        unfold dropGuard
        split <;> rfl
      | _ => exact other _ rfl (by simp)

/-- **A task that was told to stop goes on**, but for the lock and the close it waits for. -/
theorem exists_runNext (hstop : t.stop ≠ .no) (hended : t.pc ≠ .ended)
    (hlock : t.pc.locks = true → s.lock = none)
    (hclosed : ∀ c, t.pc = .closing c → (s.sessions[c]?.map Connection.closed) = some true) :
    ∃ move s', move ≠ .connects ∧ move ≠ .panics ∧ s.runNext k t move = some s' := by
  cases hpc : t.pc with
  | connecting | waiting =>
    exact ⟨.stopSeen, s.setTask k { t with pc := .ended }, by simp, by simp, by simp [runNext, hpc, hstop]⟩
  | installing c =>
    have hfree := hlock (by rw [hpc]; rfl)
    by_cases hno : s.generation ≠ k + 1 ∨ s.running = false
    · exact ⟨.setSession, (s.setTask k { t with pc := .ended }).closeSession c, by simp, by simp,
        by simp [runNext, hpc, hfree, hno]⟩
    · exact ⟨.setSession, _, by simp, by simp, by
        simp only [runNext, hpc, hfree, ne_eq, not_true_eq_false, if_false, if_neg hno]; rfl⟩
  | preparing c =>
    exact ⟨.prepare false false, s.setTask k { t with pc := .serving c }, by simp, by simp,
      by simp [runNext, hpc]⟩
  | hooking c =>
    exact ⟨.hookEnds, s.setTask k { t with pc := .serving c }, by simp, by simp, by simp [runNext, hpc]⟩
  | serving c =>
    exact ⟨.stopSeen, (s.setTask k { t with pc := .closing c }).closeSession c, by simp, by simp,
      by simp [runNext, hpc, hstop]⟩
  | closing c =>
    exact ⟨.closedSeen, s.setTask k { t with pc := .clearing c }, by simp, by simp,
      by simp only [runNext, hpc, hclosed c hpc, if_true]⟩
  | clearing c =>
    have hfree := hlock (by rw [hpc]; rfl)
    by_cases hgen : s.generation ≠ k + 1
    · exact ⟨.setSession, s.setTask k { t with pc := .deciding c }, by simp, by simp,
        by simp [runNext, hpc, hfree, hgen]⟩
    · exact ⟨.setSession, _, by simp, by simp, by
        simp only [runNext, hpc, hfree, ne_eq, not_true_eq_false, if_false, if_neg hgen]; rfl⟩
  | deciding c =>
    by_cases hquiet : t.stop ≠ .quiet
    · exact ⟨.decide, s.setTask k { t with pc := .calling c }, by simp, by simp,
        by simp [runNext, hpc, hquiet]⟩
    · exact ⟨.decide, (s.setTask k { t with pc := .checking }).closeSession c, by simp, by simp,
        by simp only [runNext, hpc, if_neg hquiet]⟩
  | calling c =>
    exact ⟨.call false, (s.setTask k { t with pc := .checking }).closeSession c, by simp, by simp,
      by simp [runNext, hpc]⟩
  | notifying c =>
    exact ⟨.hookEnds, (s.setTask k { t with pc := .checking }).closeSession c, by simp, by simp,
      by simp [runNext, hpc]⟩
  | checking =>
    exact ⟨.check, s.setTask k { t with pc := .ended }, by simp, by simp, by simp [runNext, hpc, hstop]⟩
  | ended => exact absurd hpc hended

end VcmpClient

namespace ClientSystem

variable {J : JsonText} {p q : ClientSystem} {k c : ℕ} {t : RunTask} {e : Event J}

/-- What a step of the system is to the client's machine, where it is a step of the client. -/
def Event.inner : Event J → Option VcmpClient.Event
  | .client e => some e
  | .connects k .. => some (.run k .connects)
  | .session .. => none

/-- The steps of the run task `k`. -/
def Event.moves (k : ℕ) (e : Event J) : Bool :=
  match e.inner with
  | some (.run j _) => j = k
  | _ => false

/-- The steps of the section that holds the lock. -/
def Event.locks (e : Event J) : Bool := e.inner = some .lockSection

/-- What a step asks of the lock. -/
def Event.asks (e : Event J) : ℕ := (e.inner.map VcmpClient.Event.asks).getD 0

/-- **The steps that bring the end of the run task `k` nearer**: its own, but for a
panic, those of a section it waits for, and those of the session it has
closed. -/
def brings (p : ClientSystem) (k : ℕ) : Event J → Bool
  | .client (.run j move) => j = k && move ≠ .panics
  | .connects j .. => j = k
  | .client .lockSection => (p.client.pcOf k).locks
  | .session c e => p.client.pcOf k = .closing c && e.own
  | _ => false

/-- A step of the system is one of the client's, or leaves its tasks and its lock alone. -/
theorem inner_of_next (hn : (machine J).next p e = some q) :
    (∃ e', e.inner = some e' ∧ VcmpClient.machine.next p.client e' = some q.client) ∨
      e.inner = none ∧ q.client.tasks = p.client.tasks ∧ q.client.lock = p.client.lock := by
  change p.next J e = some q at hn
  cases e with
  | client e =>
    simp only [next, Option.ite_none_right_eq_some, Option.map_eq_some_iff] at hn
    obtain ⟨-, client, hclient, rfl⟩ := hn
    exact .inl ⟨e, rfl, hclient⟩
  | connects k =>
    simp only [next, Option.map_eq_some_iff] at hn
    obtain ⟨client, hclient, rfl⟩ := hn
    exact .inl ⟨.run k .connects, rfl, hclient⟩
  | session c e =>
    simp only [next, Option.map_eq_some_iff] at hn
    obtain ⟨s, -, rfl⟩ := hn
    exact .inr ⟨rfl, rfl, rfl⟩

/-- A task that was told to stop stays told, -/
theorem toldToStop_step (h : (machine J).Reachable p) (hk : p.client.ToldToStop k)
    (hn : (machine J).next p e = some q) : q.client.ToldToStop k := by
  obtain ⟨t, ht, hstop⟩ := hk
  have hreach := client_of_reachable h
  rcases inner_of_next hn with ⟨e', -, hclient⟩ | ⟨-, htasks, -⟩
  · obtain ⟨u, hu, hsame⟩ := VcmpClient.task_step (VcmpClient.inv_of_reachable hreach)
      (VcmpClient.told_of_reachable hreach).kept hclient ht hstop
    exact ⟨u, hu, hsame ▸ hstop⟩
  · exact ⟨t, htasks ▸ ht, hstop⟩

/-- and what is left of it only its own steps change, and they bring it down. -/
theorem rank_step (h : (machine J).Reachable p) (hk : p.client.ToldToStop k)
    (hn : (machine J).next p e = some q) :
    (q.client.pcOf k).rank + (if e.moves k then 1 else 0) ≤ (p.client.pcOf k).rank := by
  obtain ⟨t, ht, hstop⟩ := hk
  have hpc := VcmpClient.pcOf_of_getElem? ht
  rcases inner_of_next hn with ⟨e', he, hclient⟩ | ⟨he, htasks, -⟩
  · by_cases hrun : ∃ move, e' = .run k move
    · obtain ⟨move, rfl⟩ := hrun
      have hstep : p.client.runNext k t move = some q.client := by
        have hbind : (p.client.tasks[k]?.bind fun t => p.client.runNext k t move) = some q.client := hclient
        rwa [ht, Option.bind_some] at hbind
      have hlt :=
        VcmpClient.rank_runNext (VcmpClient.inv_of_reachable (client_of_reachable h)) ht hstop hstep
      rw [hpc]
      split <;> omega
    · push Not at hrun
      have hother : e.moves k = false := by
        unfold Event.moves
        rw [he]
        cases e' with
        | run j move => simpa using fun hj : j = k => hrun move (by rw [hj])
        | _ => rfl
      rw [VcmpClient.pcOf_of_other hclient ht hrun, hpc, hother]
      simp
  · have hother : e.moves k = false := by simp [Event.moves, he]
    rw [VcmpClient.pcOf_of_getElem? (htasks ▸ ht), hpc, hother]
    simp

theorem lockRank_step (hn : (machine J).next p e = some q) :
    q.client.lockRank + (if e.locks then 1 else 0) ≤ p.client.lockRank + e.asks := by
  rcases inner_of_next hn with ⟨e', he, hclient⟩ | ⟨he, -, hlock⟩
  · simpa [Event.locks, Event.asks, he] using VcmpClient.lockRank_step hclient
  · simp [Event.locks, Event.asks, he, VcmpClient.lockRank, hlock]

/-! ## What can be done -/

/-- The same, as a condition on the steps of a run. -/
def Bringing (k : ℕ) (p : ClientSystem) (e : Event J) : Prop := p.brings k e = true

/-- One of these steps can be taken. -/
def Nearer (J : JsonText) (p : ClientSystem) (k : ℕ) : Prop :=
  ∃ (e : Event J) (q : ClientSystem), p.brings k e = true ∧ (machine J).next p e = some q

/-- The client takes a step of its own. -/
theorem exists_next_client {e' : VcmpClient.Event} {client : VcmpClient} (hown : own e' = true)
    (hn : VcmpClient.machine.next p.client e' = some client) :
    ∃ q, (machine J).next p (.client e') = some q ∧ q.client = client := by
  have hnext : p.client.next e' = some client := hn
  exact ⟨⟨client, closeAll client.sessions p.sessions⟩, by simp [machine, next, hown, hnext], rfl⟩

/-- The section that holds the lock goes on. -/
theorem exists_next_lock {sec : LockSection} (hlock : p.client.lock = some sec) :
    ∃ q, (machine J).next p (.client .lockSection) = some q :=
  have hn : VcmpClient.machine.next p.client .lockSection = some (p.client.sectionNext sec) := by
    simp [VcmpClient.machine, VcmpClient.next, hlock]
  (exists_next_client rfl hn).imp fun _ hq => hq.1

/-- The task goes on, where it waits for neither the lock nor a close. -/
theorem exists_next_task (hk : p.client.ToldToStop k) (hended : p.client.pcOf k ≠ .ended)
    (hlock : (p.client.pcOf k).locks = true → p.client.lock = none)
    (hclosed : ∀ c, p.client.pcOf k = .closing c →
      (p.client.sessions[c]?.map Connection.closed) = some true) :
    ∃ (e : Event J) (q : ClientSystem), p.brings k e = true ∧ e.moves k = true ∧
      (machine J).next p e = some q := by
  obtain ⟨t, ht, hstop⟩ := hk
  rw [VcmpClient.pcOf_of_getElem? ht] at hended hlock
  obtain ⟨move, client, hconnects, hpanics, hs⟩ := VcmpClient.exists_runNext (k := k) hstop hended hlock
    fun c hpc => hclosed c ((VcmpClient.pcOf_of_getElem? ht).trans hpc)
  have hown : own (.run k move) = true := by
    cases move <;> first | rfl | exact absurd rfl hconnects
  have hn : VcmpClient.machine.next p.client (.run k move) = some client := by
    simp [VcmpClient.machine, VcmpClient.next, ht, hs]
  obtain ⟨q, hq, -⟩ := exists_next_client (J := J) hown hn
  exact ⟨.client (.run k move), q, by simp [brings, hpanics], by simp [Event.moves, Event.inner], hq⟩

/-- **A session the task waits for goes on** until it has closed. -/
theorem exists_next_session (h : (machine J).Reachable p) (hk : p.client.ToldToStop k)
    (hpc : p.client.pcOf k = .closing c)
    (hclosed : (p.client.sessions[c]?.map Connection.closed) ≠ some true) :
    ∃ (e : Session.Event J) (s s' : Session), p.sessions[c]? = some s ∧ e.own = true ∧
      s'.rank < s.rank ∧
      (machine J).next p (.session c e) = some ⟨observe p.client c s', p.sessions.set c s'⟩ := by
  obtain ⟨t, ht, -⟩ := hk
  rw [VcmpClient.pcOf_of_getElem? ht] at hpc
  obtain ⟨x, hx, hno⟩ := VcmpClient.shut_of_closing (client_of_reachable h) ht hpc
  obtain ⟨s, hs, hreach, hopen, hsame⟩ := (synced_of_reachable h).get hx
  have hnot : s.closed = false := by
    rw [hx] at hclosed
    simpa [hsame] using hclosed
  obtain ⟨e, s', hown, hn⟩ := Session.exists_own hreach (hopen.symm.trans hno) hnot
  have hnext : s.next J e = some s' := hn
  exact ⟨e, s, s', hs, hown, Session.rank_lt_of_own hn hown, by simp [machine, next, hs, hnext]⟩

/-- **Until the task has ended** one of the steps that bring its end nearer can be taken. -/
theorem nearer_of_toldToStop (h : (machine J).Reachable p) (hk : p.client.ToldToStop k)
    (hended : p.client.pcOf k ≠ .ended) : Nearer J p k := by
  by_cases hlock : (p.client.pcOf k).locks = true → p.client.lock = none
  · by_cases hclosed : ∀ c, p.client.pcOf k = .closing c →
        (p.client.sessions[c]?.map Connection.closed) = some true
    · obtain ⟨e, q, hbrings, -, hn⟩ := exists_next_task hk hended hlock hclosed
      exact ⟨e, q, hbrings, hn⟩
    · push Not at hclosed
      obtain ⟨c, hpc, hclosed⟩ := hclosed
      obtain ⟨e, s, s', -, hown, -, hn⟩ := exists_next_session h hk hpc hclosed
      exact ⟨.session c e, _, by simp [brings, hpc, hown], hn⟩
  · push Not at hlock
    obtain ⟨sec, hsec⟩ := Option.ne_none_iff_exists'.mp hlock.2
    obtain ⟨q, hn⟩ := exists_next_lock (J := J) hsec
    exact ⟨.client .lockSection, q, hlock.1, hn⟩

/-! ## Runs -/

/-- A run of these steps that frees the lock, -/
theorem exists_free (h : (machine J).Reachable p) (hk : p.client.ToldToStop k)
    (hlocks : (p.client.pcOf k).locks = true) :
    ∃ q, (machine J).Path (Bringing k) p q ∧ ((machine J).Reachable q ∧ q.client.ToldToStop k ∧
      q.client.pcOf k = p.client.pcOf k) ∧ q.client.lock = none := by
  refine Machine.exists_path_of_rank (P := fun r : ClientSystem => (machine J).Reachable r ∧
      r.client.ToldToStop k ∧ r.client.pcOf k = p.client.pcOf k)
    (fun r => r.client.lockRank) (fun r => r.client.lock = none) (fun r hr => ?_) ⟨h, hk, rfl⟩
  obtain ⟨hreach, hk, hpc⟩ := hr
  cases hlock : r.client.lock with
  | none => exact .inl rfl
  | some sec =>
    obtain ⟨q, hn⟩ := exists_next_lock (J := J) hlock
    have hbrings : r.brings k (.client .lockSection : Event J) = true := by
      change (r.client.pcOf k).locks = true
      rwa [hpc]
    have hle := lockRank_step hn
    simp only [Event.locks, Event.asks, Event.inner, VcmpClient.Event.asks, Option.map_some,
      Option.getD_some, decide_true, if_true] at hle
    refine .inr ⟨q, .single hbrings hn,
      ⟨hreach.step trivial hn, toldToStop_step hreach hk hn, ?_⟩, by omega⟩
    obtain ⟨t, ht, -⟩ := hk
    rcases inner_of_next hn with ⟨e', he, hclient⟩ | ⟨he, -⟩
    · obtain rfl := Option.some.inj he
      rw [VcmpClient.pcOf_of_other hclient ht (by simp), ← hpc, VcmpClient.pcOf_of_getElem? ht]
    · cases he

/-- and one that closes the session the task waits for. -/
theorem exists_closed (h : (machine J).Reachable p) (hk : p.client.ToldToStop k)
    (hpc : p.client.pcOf k = .closing c) :
    ∃ q, (machine J).Path (Bringing k) p q ∧ ((machine J).Reachable q ∧ q.client.ToldToStop k ∧
      q.client.pcOf k = .closing c) ∧ (q.client.sessions[c]?.map Connection.closed) = some true := by
  refine Machine.exists_path_of_rank (P := fun r : ClientSystem => (machine J).Reachable r ∧
      r.client.ToldToStop k ∧ r.client.pcOf k = .closing c)
    (fun r => (r.sessions[c]?.map Session.rank).getD 0)
    (fun r => (r.client.sessions[c]?.map Connection.closed) = some true) (fun r hr => ?_) ⟨h, hk, hpc⟩
  obtain ⟨hreach, hk, hpc⟩ := hr
  by_cases hclosed : (r.client.sessions[c]?.map Connection.closed) = some true
  · exact .inl hclosed
  · obtain ⟨e, s, s', hs, hown, hlt, hn⟩ := exists_next_session hreach hk hpc hclosed
    refine .inr ⟨_, .single (e := .session c e) (by simp [Bringing, brings, hpc, hown]) hn,
      ⟨hreach.step trivial hn, toldToStop_step hreach hk hn, hpc⟩, ?_⟩
    have hs' : (r.sessions.set c s')[c]? = some s' := getElem?_set_self' hs
    simpa [hs, hs'] using hlt

/-- **A task that has not ended comes nearer its end** behind some run of these steps. -/
theorem exists_nearer (h : (machine J).Reachable p) (hk : p.client.ToldToStop k)
    (hended : p.client.pcOf k ≠ .ended) :
    ∃ q, (machine J).Path (Bringing k) p q ∧ ((machine J).Reachable q ∧ q.client.ToldToStop k) ∧
      (q.client.pcOf k).rank < (p.client.pcOf k).rank := by
  -- a run to where the task waits for nothing, and then its own step
  have steps : ∀ r, (machine J).Path (Bringing k) p r → (machine J).Reachable r → r.client.ToldToStop k →
      r.client.pcOf k = p.client.pcOf k → ((r.client.pcOf k).locks = true → r.client.lock = none) →
      (∀ c, r.client.pcOf k = .closing c → (r.client.sessions[c]?.map Connection.closed) = some true) →
      ∃ q, (machine J).Path (Bringing k) p q ∧ ((machine J).Reachable q ∧ q.client.ToldToStop k) ∧
        (q.client.pcOf k).rank < (p.client.pcOf k).rank := by
    intro r hpath hreach hk hpc hlock hclosed
    obtain ⟨e, q, hbrings, hmoves, hn⟩ := exists_next_task hk (hpc ▸ hended) hlock hclosed
    have hle := rank_step hreach hk hn
    rw [if_pos hmoves, hpc] at hle
    exact ⟨q, hpath.trans (.single hbrings hn),
      ⟨hreach.step trivial hn, toldToStop_step hreach hk hn⟩, by omega⟩
  by_cases hlocks : (p.client.pcOf k).locks = true
  · obtain ⟨r, hpath, ⟨hreach, hk', hpc⟩, hfree⟩ := exists_free h hk hlocks
    refine steps r hpath hreach hk' hpc (fun _ => hfree) fun c hat => ?_
    rw [hpc] at hat
    rw [hat] at hlocks
    cases hlocks
  · by_cases hclosing : ∃ c, p.client.pcOf k = .closing c
    · obtain ⟨c, hpc⟩ := hclosing
      obtain ⟨r, hpath, ⟨hreach, hk', hpc'⟩, hclosed⟩ := exists_closed h hk hpc
      refine steps r hpath hreach hk' (hpc'.trans hpc.symm) (fun hl => ?_) fun d hd => ?_
      · rw [hpc'] at hl
        cases hl
      · obtain rfl : c = d := by simpa [hpc'] using hd
        exact hclosed
    · exact steps p (.refl p) h hk rfl (fun hl => absurd hl hlocks) fun c hc => absurd ⟨c, hc⟩ hclosing

/-- **A run task that was told to stop ends**, and every one a `stop_and_wait`
awaits was told. In every run it takes no more steps than `rank` says, the
sections of the lock no more than were begun, and until it has ended one of
the steps that bring its end nearer can be taken, so some run of these
ends it. -/
theorem stop_ends (h : (machine J).Reachable p) :
    (∀ k ∈ p.client.waiters, p.client.ToldToStop k) ∧
    ∀ k, p.client.ToldToStop k →
      (∀ es q, (machine J).run p es = some q →
        es.countP (Event.moves k) + (q.client.pcOf k).rank ≤ (p.client.pcOf k).rank ∧
        es.countP Event.locks + q.client.lockRank ≤ p.client.lockRank + total Event.asks es ∧
        (q.client.pcOf k = .ended ∨ Nearer J q k)) ∧
      ∃ q, (machine J).Path (Bringing k) p q ∧ q.client.pcOf k = .ended := by
  refine ⟨(VcmpClient.inv_of_reachable (client_of_reachable h)).waiters,
    fun k hk => ⟨fun es q hrun => ?_, ?_⟩⟩
  · obtain ⟨⟨hreach, hk'⟩, hmoves⟩ := Machine.run_bounds
      (P := fun p => (machine J).Reachable p ∧ p.client.ToldToStop k) (n := 0)
      (fun p => (p.client.pcOf k).rank) (Event.moves k) (fun _ => false)
      (fun p e q hp hn => ⟨⟨hp.1.step trivial hn, toldToStop_step hp.1 hp.2 hn⟩, by
        simpa using rank_step hp.1 hp.2 hn⟩) ⟨h, hk⟩ hrun
    have hlocks := (Machine.cost_le (P := fun _ => True) (fun p : ClientSystem => p.client.lockRank)
      (fun _ e => if Event.locks e then 1 else 0) Event.asks
      (fun p e q _ hn => ⟨trivial, lockRank_step hn⟩) trivial hrun).2
    rw [Machine.cost_of_kind Event.locks hrun] at hlocks
    refine ⟨by simpa using hmoves, hlocks, ?_⟩
    by_cases hended : q.client.pcOf k = .ended
    · exact .inl hended
    · exact .inr (nearer_of_toldToStop hreach hk' hended)
  · obtain ⟨q, hpath, -, hended⟩ := Machine.exists_path_of_rank
      (P := fun p => (machine J).Reachable p ∧ p.client.ToldToStop k)
      (fun p => (p.client.pcOf k).rank) (fun p => p.client.pcOf k = .ended) (fun r hr => by
        by_cases hended : r.client.pcOf k = .ended
        · exact .inl hended
        · exact .inr (exists_nearer hr.1 hr.2 hended)) ⟨h, hk⟩
    exact ⟨q, hpath, hended⟩

/-- A client is stopped while its `on_connected` hook runs. -/
def hookedRun : List (Event compactJson) := List.flatten [
  .client .start :: List.replicate 4 (.client .lockSection),
  [.connects 0 1 Session.smallLimits .empty (.new Session.smallLimits.resources) [],
    .client (.run 0 .setSession), .client (.run 0 (.prepare true true)), .client (.stop true)],
  List.replicate 3 (.client .lockSection)]

/-- The task that is awaited there ends. -/
theorem stop_ends_hookedRun : ∃ p, (machine compactJson).run {} hookedRun = some p ∧
    p.client.waiters = [0] ∧ p.client.pcOf 0 = .hooking 0 ∧
      ∃ q, (machine compactJson).Path (Bringing 0) p q ∧ q.client.pcOf 0 = .ended := by
  have hrun : ((machine compactJson).run {} hookedRun).any
      (fun p => decide (p.client.waiters = [0] ∧ p.client.pcOf 0 = .hooking 0)) = true := by
    decide +kernel
  obtain ⟨p, hp, hend⟩ := Machine.exists_of_run hrun
  obtain ⟨hwaiters, hpc⟩ := of_decide_eq_true hend
  obtain ⟨htold, hends⟩ := stop_ends (Machine.reachable_of_run rfl hp)
  exact ⟨p, hp, hwaiters, hpc, (hends 0 (htold 0 (by simp [hwaiters]))).2⟩

end ClientSystem

end Vcmp
