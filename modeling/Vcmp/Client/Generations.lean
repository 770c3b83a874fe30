import Vcmp.Client.Model
/-!
# Generations of the client

The lock orders what `start`, `stop` and `set_session` do to the shared
state, and the generation check keeps a replaced task from doing
anything to it. What remains to see is the sessions: one is open only
while the task that spawned it still holds its guard.
-/

namespace Vcmp

namespace LockSection

/-- The sections that have signalled and not yet taken the session. -/
def closing : LockSection → Bool
  | .startClose | .stopClose _ => true
  | _ => false

/-- The sections that have taken the session. -/
def late : LockSection → Bool
  | .startAbort | .startSpawn | .stopFinish _ => true
  | _ => false

end LockSection

namespace VcmpClient

/-- **The invariant of the client.** -/
structure Inv (s : VcmpClient) : Prop where
  count : s.generation = s.tasks.length
  /-- A task that was not told to stop is the current one of a running client. -/
  unstopped : ∀ (k : ℕ) (t : RunTask), s.tasks[k]? = some t → t.stop = .no →
    s.running = true ∧ s.stop = some k ∧ k + 1 = s.generation
  /-- A running client's current task was not told to stop. -/
  current : s.running = true →
    ∃ (k : ℕ) (t : RunTask), s.stop = some k ∧ s.tasks[k]? = some t ∧ t.stop = .no ∧ k + 1 = s.generation
  aborted : ∀ (k : ℕ) (t : RunTask), s.tasks[k]? = some t → t.aborted = true → t.stop ≠ .no
  task : ∀ k, s.task = some k → k + 1 = s.generation
  waiters : ∀ k ∈ s.waiters, ∃ t : RunTask, s.tasks[k]? = some t ∧ t.stop ≠ .no
  /-- A section that has signalled found the client running and stopped it. -/
  signalled : ∀ sec, s.lock = some sec → sec.closing = true ∨ sec.late = true →
    s.running = false
  session : ∀ c, s.session = some c →
    (∃ x, s.sessions[c]? = some x ∧ x.generation = s.generation) ∧
      (s.running = true ∨ ∃ sec, s.lock = some sec ∧ sec.closing = true)
  late : ∀ sec, s.lock = some sec → sec.late = true → s.session = none
  connected : (∀ sec, s.lock = some sec → sec.late = false) → s.connected = s.session.isSome
  /-- An open session is guarded by the task that spawned it. -/
  owned : ∀ c x, s.sessions[c]? = some x → x.isOpen = true →
    ∃ (k : ℕ) (t : RunTask), x.generation = k + 1 ∧ s.tasks[k]? = some t ∧ t.pc.guarded = some c
  guarded : ∀ (k : ℕ) (t : RunTask) (c : ℕ), s.tasks[k]? = some t → t.pc.guarded = some c →
    ∃ x, s.sessions[c]? = some x ∧ x.generation = k + 1

variable {s s' : VcmpClient} {k c : ℕ} {t : RunTask} {pc : RunPc}

theorem inv_start : Inv ({} : VcmpClient) := by
  constructor <;> simp

/-! ## Sessions and guards -/

/-- What a session was before one was closed. -/
theorem sessions_closeSession {j : ℕ} {x : Connection}
    (h : (s.closeSession c).sessions[j]? = some x) :
    ∃ y, s.sessions[j]? = some y ∧ x.generation = y.generation ∧
      (x.isOpen = true → y.isOpen = true ∧ j ≠ c) := by
  obtain ⟨y, hy, rfl⟩ := getElem?_modify_cases h
  refine ⟨y, hy, ?_, ?_⟩
  · split <;> rfl
  · split
    · simp
    · rename_i hne
      exact fun ho => ⟨ho, fun he => hne he.symm⟩

theorem sessions_of_closeSession {j : ℕ} {y : Connection} (h : s.sessions[j]? = some y) :
    ∃ x, (s.closeSession c).sessions[j]? = some x ∧ x.generation = y.generation := by
  refine ⟨if c = j then { y with isOpen := false } else y, ?_, by split <;> rfl⟩
  simp [closeSession, List.getElem?_modify, h]

/-- Closing a session breaks nothing. -/
theorem Inv.closeSession (h : s.Inv) (c : ℕ) : (s.closeSession c).Inv where
  count := h.count
  unstopped := h.unstopped
  current := h.current
  aborted := h.aborted
  task := h.task
  waiters := h.waiters
  signalled := h.signalled
  session := by
    intro d hd
    obtain ⟨⟨x, hx, hgen⟩, hrun⟩ := h.session d hd
    obtain ⟨y, hy, hygen⟩ := sessions_of_closeSession (c := c) hx
    exact ⟨⟨y, hy, hygen.trans hgen⟩, hrun⟩
  late := h.late
  connected := h.connected
  owned := by
    intro d x hx hopen
    obtain ⟨y, hy, hgen, hyopen⟩ := sessions_closeSession hx
    obtain ⟨k, t, hk, ht, hguard⟩ := h.owned d y hy (hyopen hopen).1
    exact ⟨k, t, hgen.trans hk, ht, hguard⟩
  guarded := by
    intro k t d ht hguard
    obtain ⟨x, hx, hgen⟩ := h.guarded k t d ht hguard
    obtain ⟨y, hy, hygen⟩ := sessions_of_closeSession (c := c) hx
    exact ⟨y, hy, hygen.trans hgen⟩

theorem Inv.dropGuard (h : s.Inv) (c : Option ℕ) : (s.dropGuard c).Inv := by
  cases c with
  | none => exact h
  | some c => exact h.closeSession c

/-- What a task was before another counter of it was set. -/
theorem tasks_setTask {j : ℕ} {u : RunTask} (ht : s.tasks[k]? = some t)
    (h : (s.setTask k { t with pc := pc }).tasks[j]? = some u) :
    ∃ v, s.tasks[j]? = some v ∧ u.stop = v.stop ∧ u.aborted = v.aborted ∧
      (j ≠ k → u = v) ∧ (j = k → u.pc = pc) := by
  rcases getElem?_set_cases h with ⟨rfl, rfl⟩ | ⟨hne, hu⟩
  · exact ⟨t, ht, rfl, rfl, fun hj => absurd rfl hj, fun _ => rfl⟩
  · exact ⟨u, hu, rfl, rfl, fun _ => rfl, fun hj => absurd hj hne⟩

theorem tasks_of_setTask (pc : RunPc) {j : ℕ} {v : RunTask} (ht : s.tasks[k]? = some t)
    (h : s.tasks[j]? = some v) : ∃ u, (s.setTask k { t with pc := pc }).tasks[j]? = some u ∧
      u.stop = v.stop ∧ (j ≠ k → u = v) ∧ (j = k → u.pc = pc) := by
  by_cases hj : j = k
  · subst hj
    obtain rfl := Option.some.inj (ht.symm.trans h)
    exact ⟨_, getElem?_set_self' ht, rfl, fun hj => absurd rfl hj, fun _ => rfl⟩
  · refine ⟨v, ?_, rfl, fun _ => rfl, fun h => absurd h hj⟩
    simpa [setTask, List.getElem?_set, Ne.symm hj] using h

/-- **A task that moves on keeps the invariant**, where it keeps its guard
or leaves its session closed. -/
theorem Inv.move (h : s.Inv) (pc : RunPc) (ht : s.tasks[k]? = some t)
    (hguard : pc.guarded = t.pc.guarded ∨ pc.guarded = none ∧
      ∀ c, t.pc.guarded = some c → ∀ x, s.sessions[c]? = some x → x.isOpen = false) :
    (s.setTask k { t with pc := pc }).Inv where
  count := by simpa [setTask] using h.count
  unstopped := by
    intro j u hu hstop
    obtain ⟨v, hv, heq, -⟩ := tasks_setTask ht hu
    exact h.unstopped j v hv (heq ▸ hstop)
  current := by
    intro hrun
    obtain ⟨j, v, hs, hv, hstop, hgen⟩ := h.current hrun
    obtain ⟨u, hu, heq, -⟩ := tasks_of_setTask pc ht hv
    exact ⟨j, u, hs, hu, heq.trans hstop, hgen⟩
  aborted := by
    intro j u hu habort
    obtain ⟨v, hv, heq, hab, -⟩ := tasks_setTask ht hu
    exact heq ▸ h.aborted j v hv (hab ▸ habort)
  task := h.task
  waiters := by
    intro j hj
    obtain ⟨v, hv, hstop⟩ := h.waiters j hj
    obtain ⟨u, hu, heq, -⟩ := tasks_of_setTask pc ht hv
    exact ⟨u, hu, heq ▸ hstop⟩
  signalled := h.signalled
  session := h.session
  late := h.late
  connected := h.connected
  owned := by
    intro c x hx hopen
    obtain ⟨j, v, hgen, hv, hv'⟩ := h.owned c x hx hopen
    obtain ⟨u, hu, -, hother, hself⟩ := tasks_of_setTask pc ht hv
    refine ⟨j, u, hgen, hu, ?_⟩
    by_cases hj : j = k
    · obtain rfl := hj
      obtain rfl := Option.some.inj (ht.symm.trans hv)
      rcases hguard with heq | ⟨-, hclosed⟩
      · rw [hself rfl, heq, hv']
      · rw [hclosed c hv' x hx] at hopen
        cases hopen
    · rw [hother hj, hv']
  guarded := by
    intro j u c hu hu'
    obtain ⟨v, hv, -, -, hother, hself⟩ := tasks_setTask ht hu
    by_cases hj : j = k
    · obtain rfl := hj
      obtain rfl := Option.some.inj (ht.symm.trans hv)
      rw [hself rfl] at hu'
      rcases hguard with heq | ⟨hnone, -⟩
      · exact h.guarded j t c ht (heq ▸ hu')
      · rw [hnone] at hu'
        cases hu'
    · rw [hother hj] at hu'
      exact h.guarded j v c hv hu'

/-- A task that gives up its guard closes the session it held. -/
theorem Inv.release (h : s.Inv) (pc : RunPc) (ht : s.tasks[k]? = some t) (hnone : pc.guarded = none) :
    ((s.setTask k { t with pc := pc }).dropGuard t.pc.guarded).Inv := by
  cases hg : t.pc.guarded with
  | none => exact h.move pc ht (.inl (hnone.trans hg.symm))
  | some c =>
    have hmove := (h.closeSession c).move (k := k) (t := t) pc ht (.inr ⟨hnone, ?_⟩)
    · exact hmove
    · intro d hd x hx
      obtain rfl := Option.some.inj (hg.symm.trans hd)
      by_contra hopen
      exact ((sessions_closeSession hx).choose_spec.2.2 (by simpa using hopen)).2 rfl

/-- What a run task does to a session besides closing it is not seen by
the invariant. -/
theorem Inv.modify (h : s.Inv) (c : ℕ) {g : Connection → Connection}
    (hgen : ∀ x, (g x).generation = x.generation) (hopen : ∀ x, (g x).isOpen = x.isOpen) :
    Inv { s with sessions := s.sessions.modify c g } where
  count := h.count
  unstopped := h.unstopped
  current := h.current
  aborted := h.aborted
  task := h.task
  waiters := h.waiters
  signalled := h.signalled
  session := by
    intro d hd
    obtain ⟨⟨x, hx, hxgen⟩, hrun⟩ := h.session d hd
    refine ⟨⟨if c = d then g x else x, by simp [List.getElem?_modify, hx], ?_⟩, hrun⟩
    split <;> simp [hgen, hxgen]
  late := h.late
  connected := h.connected
  owned := by
    intro d x hx ho
    obtain ⟨y, hy, rfl⟩ := getElem?_modify_cases hx
    have hyo : y.isOpen = true := by
      split at ho
      · rwa [hopen] at ho
      · exact ho
    obtain ⟨k, t, hk, ht⟩ := h.owned d y hy hyo
    refine ⟨k, t, ?_, ht⟩
    split <;> simp [hgen, hk]
  guarded := by
    intro k t d ht hguard
    obtain ⟨x, hx, hxgen⟩ := h.guarded k t d ht hguard
    refine ⟨if c = d then g x else x, by simp [List.getElem?_modify, hx], ?_⟩
    split <;> simp [hgen, hxgen]

/-- A task that connects guards the session it spawned. -/
theorem Inv.connects (h : s.Inv) (ht : s.tasks[k]? = some t) (hpc : t.pc = .connecting) :
    Inv { s.setTask k { t with pc := .installing s.sessions.length } with
      sessions := s.sessions ++ [{ generation := k + 1 }] } := by
  -- the session comes first, closed, so that no guard is missing in between
  have hgrow : ∀ (j : ℕ) (y : Connection), s.sessions[j]? = some y →
      (s.sessions ++ [{ generation := k + 1 }])[j]? = some y := by
    intro j y hy
    rw [getElem?_append_some hy]
  have hnone : t.pc.guarded = none := by rw [hpc]; rfl
  refine
    { count := by simpa [setTask] using h.count
      unstopped := ?_, current := ?_, aborted := ?_, task := h.task, waiters := ?_
      signalled := h.signalled, session := ?_, late := h.late, connected := h.connected
      owned := ?_, guarded := ?_ }
  · intro j u hu hstop
    obtain ⟨v, hv, heq, -⟩ := tasks_setTask ht hu
    exact h.unstopped j v hv (heq ▸ hstop)
  · intro hrun
    obtain ⟨j, v, hs, hv, hstop, hgen⟩ := h.current hrun
    obtain ⟨u, hu, heq, -⟩ := tasks_of_setTask (.installing s.sessions.length) ht hv
    exact ⟨j, u, hs, hu, heq.trans hstop, hgen⟩
  · intro j u hu habort
    obtain ⟨v, hv, heq, hab, -⟩ := tasks_setTask ht hu
    exact heq ▸ h.aborted j v hv (hab ▸ habort)
  · intro j hj
    obtain ⟨v, hv, hstop⟩ := h.waiters j hj
    obtain ⟨u, hu, heq, -⟩ := tasks_of_setTask (.installing s.sessions.length) ht hv
    exact ⟨u, hu, heq ▸ hstop⟩
  · intro c hc
    obtain ⟨⟨x, hx, hgen⟩, hrun⟩ := h.session c hc
    exact ⟨⟨x, hgrow c x hx, hgen⟩, hrun⟩
  · intro c x hx hopen
    rcases getElem?_concat_cases hx with ⟨rfl, rfl⟩ | hx
    · exact ⟨k, _, rfl, getElem?_set_self' ht, rfl⟩
    · obtain ⟨j, v, hgen, hv, hv'⟩ := h.owned c x hx hopen
      obtain ⟨u, hu, -, hother, -⟩ := tasks_of_setTask (.installing s.sessions.length) ht hv
      have hj : j ≠ k := by
        rintro rfl
        obtain rfl := Option.some.inj (ht.symm.trans hv)
        rw [hnone] at hv'
        cases hv'
      exact ⟨j, u, hgen, hu, by rw [hother hj, hv']⟩
  · intro j u c hu hu'
    obtain ⟨v, hv, -, -, hother, hself⟩ := tasks_setTask ht hu
    by_cases hj : j = k
    · subst hj
      rw [hself rfl, RunPc.guarded, Option.some.injEq] at hu'
      subst hu'
      exact ⟨{ generation := j + 1 }, by simp, rfl⟩
    · rw [hother hj] at hu'
      obtain ⟨x, hx, hgen⟩ := h.guarded j v c hv hu'
      exact ⟨x, hgrow c x hx, hgen⟩

/-- The session of the state may be set to one of the current generation,
with the flag, while the client runs and no section is in progress. -/
theorem Inv.setSession (h : s.Inv) (hlock : s.lock = none) (hrun : s.running = true) {x : Connection}
    (hx : s.sessions[c]? = some x) (hgen : x.generation = s.generation) :
    Inv { s with session := some c, connected := true } where
  count := h.count
  unstopped := h.unstopped
  current := h.current
  aborted := h.aborted
  task := h.task
  waiters := h.waiters
  signalled := h.signalled
  session := by
    rintro d hd
    obtain rfl := Option.some.inj hd
    exact ⟨⟨x, hx, hgen⟩, .inl hrun⟩
  late := by
    intro sec hsec
    rw [hlock] at hsec
    cases hsec
  connected _ := rfl
  owned := h.owned
  guarded := h.guarded

/-- The session of the state may be cleared, with the flag. -/
theorem Inv.clearSession (h : s.Inv) : Inv { s with session := none, connected := false } where
  count := h.count
  unstopped := h.unstopped
  current := h.current
  aborted := h.aborted
  task := h.task
  waiters := h.waiters
  signalled := h.signalled
  session := by simp
  late _ _ _ := rfl
  connected _ := rfl
  owned := h.owned
  guarded := h.guarded

/-- **Every step of a run task keeps the invariant.** -/
theorem Inv.runStep (h : s.Inv) {move : Move} (ht : s.tasks[k]? = some t)
    (hs : RunStep s k t move s') : s'.Inv := by
  cases hs with
  | connects hpc => exact h.connects ht hpc
  | connectFails hpc => exact h.move _ ht (.inl (by rw [hpc]; rfl))
  | stopped hpc _ => exact h.move _ ht (.inl (by rcases hpc with hpc | hpc <;> rw [hpc] <;> rfl))
  | refused hpc _ _ =>
    have hrel := h.release .ended ht rfl
    rwa [hpc] at hrel
  | @installed c hpc hlock hgen hrun =>
    obtain ⟨x, hx, hxgen⟩ := h.guarded k t c ht (by rw [hpc]; rfl)
    have hset := h.setSession hlock hrun hx (hxgen.trans hgen.symm)
    have hmove := hset.move (k := k) (t := t) (.preparing c) ht (.inl (by rw [hpc]; rfl))
    exact hmove.modify c (fun _ => rfl) fun _ => rfl
  | unhooked hpc | hooked hpc | hookEnds hpc | decides hpc _ =>
    exact h.move _ ht (.inl (by rw [hpc]; rfl))
  | overloaded hpc | hookStopped hpc _ | closes hpc _ =>
    exact (h.move _ ht (.inl (by rw [hpc]; rfl))).closeSession _
  | closedSeen hpc _ => exact h.move _ ht (.inl (by rcases hpc with hpc | hpc <;> rw [hpc] <;> rfl))
  | ignored hpc _ _ => exact h.move _ ht (.inl (by rw [hpc]; rfl))
  | @cleared c hpc _ _ =>
    exact h.clearSession.move (k := k) (t := t) (.deciding c) ht (.inl (by rw [hpc]; rfl))
  | @notifies c hpc =>
    have hmove := h.move (.notifying c) ht (.inl (by rw [hpc]; rfl))
    exact hmove.modify c (fun _ => rfl) fun _ => rfl
  | silent hpc | unasked hpc | notified hpc =>
    have hrel := h.release .checking ht rfl
    rwa [hpc] at hrel
  | leaves hpc _ | delays hpc | wakes hpc => exact h.move _ ht (.inl (by rw [hpc]; rfl))
  | aborts _ | panics _ => exact h.release _ ht rfl

/-- A step of the run task `k` changes the stop value of no task and the
counter of no other, and leaves the client to itself. -/
theorem runStep_tasks {move : Move} (hs : RunStep s k t move s') :
    s'.running = s.running ∧ s'.generation = s.generation ∧ s'.stop = s.stop ∧ s'.lock = s.lock ∧
      ∃ pc, s'.tasks = s.tasks.set k { t with pc := pc } := by
  have hdrop : ∀ o, (s.setTask k { t with pc := .ended }).dropGuard o =
      { s.setTask k { t with pc := .ended } with
        sessions := ((s.setTask k { t with pc := .ended }).dropGuard o).sessions } := by
    intro o
    cases o <;> rfl
  cases hs with
  | aborts | panics => rw [hdrop]; exact ⟨rfl, rfl, rfl, rfl, _, rfl⟩
  | _ => exact ⟨rfl, rfl, rfl, rfl, _, rfl⟩

/-! ## The lock sections -/

/-- Where another section goes on, one may begin. -/
theorem Inv.acquire (h : s.Inv) {sec : LockSection} (hlock : s.lock = none)
    (hsec : sec.closing = false ∧ sec.late = false) : Inv { s with lock := some sec } where
  count := h.count
  unstopped := h.unstopped
  current := h.current
  aborted := h.aborted
  task := h.task
  waiters := h.waiters
  signalled := by
    intro sec' heq hor
    obtain rfl := Option.some.inj heq
    simp [hsec] at hor
  session := by
    intro c hc
    obtain ⟨hx, hrun | ⟨sec', hsec', -⟩⟩ := h.session c hc
    · exact ⟨hx, .inl hrun⟩
    · rw [hlock] at hsec'
      cases hsec'
  late := by
    intro sec' heq hlate
    obtain rfl := Option.some.inj heq
    rw [hsec.2] at hlate
    cases hlate
  connected _ := h.connected (by simp [hlock])
  owned := h.owned
  guarded := h.guarded

/-- The tasks after the stop signal. -/
theorem tasks_signal {how : Stop} {j : ℕ} {u : RunTask} (h : s.Inv)
    (hu : (s.signal how).tasks[j]? = some u) :
    ∃ v, s.tasks[j]? = some v ∧ u.pc = v.pc ∧ u.aborted = v.aborted ∧
      (u.stop = how ∨ u.stop = v.stop ∧ v.stop ≠ .no) := by
  unfold signal at hu
  split at hu
  · rename_i k hk
    obtain ⟨v, hv, rfl⟩ := getElem?_modify_cases hu
    refine ⟨v, hv, by split <;> rfl, by split <;> rfl, ?_⟩
    split
    · exact .inl rfl
    · rename_i hne
      refine .inr ⟨rfl, fun hno => hne ?_⟩
      have hstop := (h.unstopped j v hv hno).2.1
      exact Option.some.inj (hk.symm.trans hstop)
  · rename_i hk
    refine ⟨u, hu, rfl, rfl, .inr ⟨rfl, fun hno => ?_⟩⟩
    rw [(h.unstopped j u hu hno).2.1] at hk
    cases hk

theorem tasks_of_signal (how : Stop) {j : ℕ} {v : RunTask} (hv : s.tasks[j]? = some v) :
    ∃ u, (s.signal how).tasks[j]? = some u ∧ u.pc = v.pc := by
  unfold signal
  split
  · rename_i k hk
    refine ⟨if k = j then { v with stop := how } else v, ?_, by split <;> rfl⟩
    simp [List.getElem?_modify, hv]
  · exact ⟨v, hv, rfl⟩

@[simp] theorem signal_fields (s : VcmpClient) (how : Stop) :
    (s.signal how).running = false ∧ (s.signal how).generation = s.generation ∧
      (s.signal how).session = s.session ∧ (s.signal how).connected = s.connected ∧
      (s.signal how).task = s.task ∧ (s.signal how).sessions = s.sessions ∧
      (s.signal how).waiters = s.waiters ∧ (s.signal how).tasks.length = s.tasks.length := by
  unfold signal
  split <;> simp

/-- **The stop signal**: no task is left that was not told to stop. -/
theorem Inv.signal (h : s.Inv) {how : Stop} (hhow : how ≠ .no) {sec sec' : LockSection}
    (hlock : s.lock = some sec') (hsec' : sec'.closing = false ∧ sec'.late = false)
    (hsec : sec.closing = true ∧ sec.late = false) :
    Inv { s.signal how with lock := some sec } := by
  have hno : ∀ (j : ℕ) (u : RunTask), (s.signal how).tasks[j]? = some u → u.stop ≠ .no := by
    intro j u hu
    obtain ⟨v, -, -, -, heq | ⟨heq, hne⟩⟩ := tasks_signal h hu
    · rwa [heq]
    · rwa [heq]
  obtain ⟨hrun, hgen, hses, hcon, htask, hsess, hwait, hlen⟩ := signal_fields s how
  refine
    { count := by simpa [hgen, hlen] using h.count
      unstopped := fun j u hu hstop => absurd hstop (hno j u hu)
      current := fun hr => by simp at hr
      aborted := fun j u hu _ => hno j u hu
      task := by simpa only [htask, hgen] using h.task
      waiters := ?_
      signalled := fun _ _ _ => hrun
      session := ?_, late := ?_, connected := ?_, owned := ?_, guarded := ?_ }
  · intro j hj
    simp only [hwait] at hj
    obtain ⟨v, hv, -⟩ := h.waiters j hj
    obtain ⟨u, hu, -⟩ := tasks_of_signal how hv
    exact ⟨u, hu, hno j u hu⟩
  · intro c hc
    simp only [hses] at hc
    obtain ⟨⟨x, hx, hxgen⟩, -⟩ := h.session c hc
    exact ⟨⟨x, by simpa only [hsess] using hx, hxgen.trans hgen.symm⟩, .inr ⟨sec, rfl, hsec.1⟩⟩
  · intro sec'' heq hlate
    obtain rfl := Option.some.inj heq
    rw [hsec.2] at hlate
    cases hlate
  · intro _
    have hc := h.connected fun sec'' heq => by
      obtain rfl := Option.some.inj (hlock.symm.trans heq)
      exact hsec'.2
    simpa only [hcon, hses] using hc
  · intro c x hx hopen
    simp only [hsess] at hx
    obtain ⟨j, v, hxgen, hv, hguard⟩ := h.owned c x hx hopen
    obtain ⟨u, hu, hpc⟩ := tasks_of_signal how hv
    exact ⟨j, u, hxgen, hu, by rw [hpc, hguard]⟩
  · intro j u c hu hguard
    obtain ⟨v, hv, hpc, -⟩ := tasks_signal h hu
    obtain ⟨x, hx, hxgen⟩ := h.guarded j v c hv (hpc ▸ hguard)
    exact ⟨x, by simpa only [hsess] using hx, hxgen⟩

/-- Once the session is taken there is none. -/
theorem Inv.takeSession (h : s.Inv) {sec sec' : LockSection} (hlock : s.lock = some sec')
    (hsec' : sec'.closing = true) (hsec : sec.late = true) :
    Inv { s.takeSession with lock := some sec } := by
  have hd := h.dropGuard s.session
  have hrun : (s.dropGuard s.session).running = false := by
    have := h.signalled sec' hlock (.inl hsec')
    unfold VcmpClient.dropGuard
    split <;> exact this
  refine
    { count := hd.count, unstopped := hd.unstopped, current := hd.current, aborted := hd.aborted
      task := hd.task, waiters := hd.waiters, signalled := fun _ _ _ => hrun
      session := by simp [VcmpClient.takeSession]
      late := fun _ _ _ => rfl
      connected := ?_, owned := hd.owned, guarded := hd.guarded }
  intro hnot
  exact absurd (hnot sec rfl) (by simp [hsec])

/-- Telling a task to abort is harmless once it was told to stop. -/
theorem Inv.abortTask (h : s.Inv) (hk : ∀ t, s.tasks[k]? = some t → t.stop ≠ .no) :
    (s.abortTask k).Inv := by
  have hback : ∀ (j : ℕ) (u : RunTask), (s.abortTask k).tasks[j]? = some u →
      ∃ v, s.tasks[j]? = some v ∧ u.pc = v.pc ∧ u.stop = v.stop ∧ (j = k ∨ u = v) := by
    intro j u hu
    obtain ⟨v, hv, rfl⟩ := getElem?_modify_cases hu
    by_cases hj : k = j
    · exact ⟨v, hv, by simp [hj], by simp [hj], .inl hj.symm⟩
    · exact ⟨v, hv, by simp [hj], by simp [hj], .inr (by simp [hj])⟩
  have hforth : ∀ (j : ℕ) (v : RunTask), s.tasks[j]? = some v →
      ∃ u, (s.abortTask k).tasks[j]? = some u ∧ u.pc = v.pc ∧ u.stop = v.stop := by
    intro j v hv
    refine ⟨if k = j then { v with aborted := true } else v, ?_, by split <;> rfl, by split <;> rfl⟩
    simp [VcmpClient.abortTask, List.getElem?_modify, hv]
  refine
    { count := by simpa [VcmpClient.abortTask] using h.count
      unstopped := ?_, current := ?_, aborted := ?_, task := h.task, waiters := ?_
      signalled := h.signalled, session := h.session, late := h.late, connected := h.connected
      owned := ?_, guarded := ?_ }
  · intro j u hu hstop
    obtain ⟨v, hv, -, heq, -⟩ := hback j u hu
    exact h.unstopped j v hv (heq ▸ hstop)
  · intro hrun
    obtain ⟨j, v, hs, hv, hstop, hgen⟩ := h.current hrun
    obtain ⟨u, hu, -, heq⟩ := hforth j v hv
    exact ⟨j, u, hs, hu, heq.trans hstop, hgen⟩
  · intro j u hu habort
    obtain ⟨v, hv, -, heq, rfl | rfl⟩ := hback j u hu
    · exact heq ▸ hk v hv
    · exact h.aborted j u hv habort
  · intro j hj
    obtain ⟨v, hv, hstop⟩ := h.waiters j hj
    obtain ⟨u, hu, -, heq⟩ := hforth j v hv
    exact ⟨u, hu, heq ▸ hstop⟩
  · intro c x hx hopen
    obtain ⟨j, v, hgen, hv, hguard⟩ := h.owned c x hx hopen
    obtain ⟨u, hu, hpc, -⟩ := hforth j v hv
    exact ⟨j, u, hgen, hu, by rw [hpc, hguard]⟩
  · intro j u c hu hguard
    obtain ⟨v, hv, hpc, -⟩ := hback j u hu
    exact h.guarded j v c hv (hpc ▸ hguard)

/-- In a stopped client every task was told to stop. -/
theorem Inv.stop_ne (h : s.Inv) (hrun : s.running = false) (ht : s.tasks[k]? = some t) :
    t.stop ≠ .no := by
  intro hno
  rw [(h.unstopped k t ht hno).1] at hrun
  cases hrun

theorem Inv.startSpawn (h : s.Inv) (hlock : s.lock = some .startSpawn) :
    (s.sectionNext .startSpawn).Inv := by
  have hrun := h.signalled _ hlock (.inr rfl)
  have hsession := h.late _ hlock rfl
  have hold : ∀ (j : ℕ) (u : RunTask), (s.tasks ++ [({} : RunTask)])[j]? = some u →
      (j = s.tasks.length ∧ u = {}) ∨ s.tasks[j]? = some u :=
    fun j u hu => getElem?_concat_cases hu
  have hgrow : ∀ (j : ℕ) (v : RunTask), s.tasks[j]? = some v →
      (s.tasks ++ [({} : RunTask)])[j]? = some v := by
    intro j v hv
    rw [getElem?_append_some hv]
  refine
    { count := by simp [sectionNext, h.count]
      unstopped := ?_, current := ?_, aborted := ?_
      task := by simp [sectionNext, h.count]
      waiters := ?_
      signalled := by simp [sectionNext]
      session := by simp [sectionNext, hsession]
      late := by simp [sectionNext]
      connected := by simp [sectionNext, hsession]
      owned := ?_, guarded := ?_ }
  · intro j u hu hstop
    rcases hold j u hu with ⟨rfl, rfl⟩ | hu
    · exact ⟨rfl, rfl, by simp [sectionNext, h.count]⟩
    · exact absurd hstop (h.stop_ne hrun hu)
  · intro _
    exact ⟨s.tasks.length, {}, rfl, by simp [sectionNext], rfl, by simp [sectionNext, h.count]⟩
  · intro j u hu habort
    rcases hold j u hu with ⟨rfl, rfl⟩ | hu
    · cases habort
    · exact h.aborted j u hu habort
  · intro j hj
    obtain ⟨v, hv, hstop⟩ := h.waiters j hj
    exact ⟨v, hgrow j v hv, hstop⟩
  · intro c x hx hopen
    obtain ⟨j, v, hgen, hv, hguard⟩ := h.owned c x hx hopen
    exact ⟨j, v, hgen, hgrow j v hv, hguard⟩
  · intro j u c hu hguard
    rcases hold j u hu with ⟨rfl, rfl⟩ | hu
    · cases hguard
    · exact h.guarded j u c hu hguard

/-- **Every step of a lock section keeps the invariant.** -/
theorem Inv.sectionNext (h : s.Inv) {sec : LockSection} (hlock : s.lock = some sec) :
    (s.sectionNext sec).Inv := by
  cases sec with
  | startSignal => exact h.signal (by simp) hlock ⟨rfl, rfl⟩ ⟨rfl, rfl⟩
  | stopSignal wait => exact h.signal (by simp) hlock ⟨rfl, rfl⟩ ⟨rfl, rfl⟩
  | startClose => exact h.takeSession hlock rfl rfl
  | stopClose wait => exact h.takeSession hlock rfl rfl
  | startSpawn => exact h.startSpawn hlock
  | startAbort =>
    have hrun := h.signalled _ hlock (.inr rfl)
    have hsession := h.late _ hlock rfl
    simp only [VcmpClient.sectionNext]
    split
    · rename_i k hk
      have ha := h.abortTask (k := k) fun t ht => h.stop_ne hrun ht
      exact
        { count := ha.count, unstopped := ha.unstopped, current := ha.current
          aborted := ha.aborted, task := by simp, waiters := ha.waiters
          signalled := fun _ _ _ => hrun
          session := by simp [VcmpClient.abortTask, hsession]
          late := fun _ _ _ => hsession
          connected := fun hnot => absurd (hnot _ rfl) (by simp [LockSection.late])
          owned := ha.owned, guarded := ha.guarded }
    · exact
        { count := h.count, unstopped := h.unstopped, current := h.current, aborted := h.aborted
          task := h.task, waiters := h.waiters, signalled := fun _ _ _ => hrun
          session := by simp [hsession]
          late := fun _ _ _ => hsession
          connected := fun hnot => absurd (hnot _ rfl) (by simp [LockSection.late])
          owned := h.owned, guarded := h.guarded }
  | stopFinish wait =>
    have hrun := h.signalled _ hlock (.inr rfl)
    have hsession := h.late _ hlock rfl
    refine
      { count := h.count, unstopped := h.unstopped, current := h.current, aborted := h.aborted
        task := h.task, waiters := ?_
        signalled := by simp [VcmpClient.sectionNext]
        session := by simp [VcmpClient.sectionNext, hsession]
        late := by simp [VcmpClient.sectionNext]
        connected := by simp [VcmpClient.sectionNext, hsession]
        owned := h.owned, guarded := h.guarded }
    intro k hk
    simp only [VcmpClient.sectionNext] at hk
    have hmem : k ∈ s.waiters ∨ s.task = some k := by
      split at hk
      · simpa using hk
      · exact .inl hk
    rcases hmem with hk | hk
    · exact h.waiters k hk
    · have hlt : k < s.tasks.length := by have := h.task k hk; have := h.count; omega
      exact ⟨s.tasks[k], by simp [VcmpClient.sectionNext], h.stop_ne hrun (List.getElem?_eq_getElem hlt)⟩

/-- **Every step keeps the invariant.** -/
theorem Inv.step (h : s.Inv) {e : Event} (hn : machine.next s e = some s') : s'.Inv := by
  cases step_of_next hn with
  | start hlock | stop hlock => exact h.acquire hlock ⟨rfl, rfl⟩
  | lockSection hlock => exact h.sectionNext hlock
  | giveUp hk =>
    obtain ⟨v, hv, hstop⟩ := h.waiters _ hk
    exact h.abortTask fun t ht => by obtain rfl := Option.some.inj (hv.symm.trans ht); exact hstop
  | run ht hs => exact h.runStep ht hs
  | @close c => exact h.closeSession c
  | @finish c =>
    exact h.modify c (fun _ => rfl) fun _ => rfl

theorem inv_of_reachable (h : machine.Reachable s) : s.Inv := by
  have hinit : ∀ s, machine.init s → s.Inv := by
    rintro s rfl
    exact inv_start
  exact h.invariant hinit fun s e s' _ hn hs => hs.step hn

/-! ## What the generations guarantee -/

/-- A stopped client with the lock free, or with a section of `stop` in it. -/
def Stopped (s : VcmpClient) : Prop :=
  s.running = false ∧ s.session = none ∧
    ∀ sec, s.lock = some sec → sec ≠ .startSignal ∧ sec ≠ .startClose ∧ sec ≠ .startAbort ∧
      sec ≠ .startSpawn

/-- **Nothing but `start` leaves the stopped state.** -/
theorem Stopped.step (h : s.Stopped) {e : Event} (he : e ≠ .start)
    (hn : machine.next s e = some s') : s'.Stopped := by
  obtain ⟨hrun, hsession, hlock⟩ := h
  have hclose : ∀ c, (s.closeSession c).Stopped := fun c => ⟨hrun, hsession, hlock⟩
  cases step_of_next hn with
  | start => exact absurd rfl he
  | stop => exact ⟨hrun, hsession, by simp⟩
  | @lockSection sec hsec =>
    have hne := hlock sec hsec
    obtain ⟨hr, -, hses, -⟩ := signal_fields s .notify
    cases sec with
    | stopSignal wait => exact ⟨hr, hses.trans hsession, by simp [sectionNext]⟩
    | stopClose wait =>
      refine ⟨?_, rfl, by simp [sectionNext]⟩
      simp [sectionNext, takeSession, hsession, dropGuard, hrun]
    | stopFinish wait => exact ⟨hrun, hsession, by simp [sectionNext]⟩
    | _ => simp at hne
  | giveUp => exact ⟨hrun, hsession, hlock⟩
  | @run k t _ _ ht hs =>
    have hdrop : ∀ o, ((s.setTask k { t with pc := .ended }).dropGuard o).Stopped := by
      intro o
      cases o <;> exact ⟨hrun, hsession, hlock⟩
    cases hs with
    | installed _ _ _ hr => rw [hr] at hrun; cases hrun
    | cleared => exact ⟨hrun, rfl, hlock⟩
    | aborts | panics => exact hdrop _
    | _ => exact ⟨hrun, hsession, hlock⟩
  | @close c => exact hclose c
  | finish => exact ⟨hrun, hsession, hlock⟩

/-- A task of another generation changes neither the session nor the flag. -/
theorem unchanged_of_other {move : Move} (hgen : k + 1 ≠ s.generation)
    (hn : machine.next s (.run k move) = some s') :
    s'.session = s.session ∧ s'.connected = s.connected := by
  have hstep := step_of_next hn
  cases hstep with
  | run _ hs =>
    cases hs with
    | installed _ _ heq | cleared _ _ heq => exact absurd heq.symm hgen
    | aborts | panics =>
      unfold dropGuard
      split <;> exact ⟨rfl, rfl⟩
    | _ => exact ⟨rfl, rfl⟩

/-- An ended task guards nothing, so its sessions are closed. -/
theorem Inv.closed_of_ended (h : s.Inv) (ht : s.tasks[k]? = some t) (hpc : t.pc = .ended)
    {x : Connection} (hx : s.sessions[c]? = some x) (hgen : x.generation = k + 1) :
    x.isOpen = false := by
  by_contra hopen
  obtain ⟨j, u, hj, hu, hguard⟩ := h.owned c x hx (by simpa using hopen)
  obtain rfl : j = k := by omega
  obtain rfl := Option.some.inj (ht.symm.trans hu)
  rw [hpc] at hguard
  cases hguard

/-- **What the generations guarantee in a state.** -/
structure Generational (s : VcmpClient) : Prop where
  /-- With the lock free an installed session belongs to a running client
  and was spawned by the current generation's task. -/
  session : s.lock = none → ∀ c, s.session = some c → s.running = true ∧
    ∃ x : Connection, s.sessions[c]? = some x ∧ x.generation = s.generation
  /-- And the flag says whether there is one. -/
  connected : s.lock = none → s.connected = s.session.isSome
  /-- A task of another generation changes neither. -/
  other : ∀ k move s', k + 1 ≠ s.generation → machine.next s (.run k move) = some s' →
    s'.session = s.session ∧ s'.connected = s.connected
  /-- Once `stop` is done, no session is installed before the next `start`. -/
  stopped : ∀ wait s', s.lock = some (.stopFinish wait) → machine.next s .lockSection = some s' →
    ∀ u, machine.Path (fun _ e => e ≠ .start) s' u → u.session = none
  /-- The sessions of an ended task are closed. -/
  ended : ∀ (k : ℕ) (t : RunTask), s.tasks[k]? = some t → t.pc = .ended →
    ∀ (c : ℕ) (x : Connection), s.sessions[c]? = some x → x.generation = k + 1 → x.isOpen = false

/-- **Client generations**: the guarantees hold in every reachable state. -/
theorem client_generations (h : machine.Reachable s) : s.Generational := by
  have hinv := inv_of_reachable h
  refine ⟨fun hlock c hc => ?_, fun hlock => hinv.connected (by simp [hlock]),
    fun k move s' => unchanged_of_other, fun wait s' hlock hn u hp => ?_,
    fun k t ht hpc c x => hinv.closed_of_ended ht hpc⟩
  · obtain ⟨hx, hrun | ⟨sec, hsec, -⟩⟩ := hinv.session c hc
    · exact ⟨hrun, hx⟩
    · rw [hlock] at hsec
      cases hsec
  · have hstopped : s.Stopped :=
      ⟨hinv.signalled _ hlock (.inr rfl), hinv.late _ hlock rfl, by simp [hlock]⟩
    have hstep : ∀ s e t, e ≠ Event.start → machine.next s e = some t → s.Stopped → t.Stopped :=
      fun s e t he hn hs => hs.step he hn
    exact (hp.preserves (P := Stopped) hstep (hstopped.step (by simp) hn)).2.1

/-- A client that is started, connects and installs its session, is
started again and stopped, while the first task ends. -/
def generationsRun : List Event :=
  [.start, .lockSection, .lockSection, .lockSection, .lockSection, .run 0 .connects,
    .run 0 .setSession, .start, .lockSection, .lockSection, .lockSection, .lockSection,
    .run 0 (.prepare false true), .run 0 .aborts, .run 1 .connects, .run 1 .setSession,
    .stop false, .lockSection, .lockSection]

theorem client_generations_run :
    ∃ s, machine.run {} generationsRun = some s ∧ s.Generational := by
  obtain ⟨s, hs⟩ := Option.isSome_iff_exists.mp
    (show (machine.run {} generationsRun).isSome = true by decide)
  exact ⟨s, hs, client_generations (Machine.reachable_of_run rfl hs)⟩

end VcmpClient

end Vcmp
