import Vcmp.Client.Generations
/-!
# The client keeps trying

A run task ends where it was told to stop, where it was aborted, where
its session was refused and where application code panics in it. The
first three need the client to be stopped or replaced. The last does
not: the task unwinds, nothing observes it, and the client goes on
calling itself running.
-/

namespace Vcmp

namespace VcmpClient

variable {s s' : VcmpClient} {k : ℕ} {t : RunTask} {e : Event}

/-- The run task that panics. -/
def Event.panicking : Event → Option ℕ
  | .run k .panics => some k
  | _ => none

/-- No panic in the run task of the current generation while the client runs. -/
def Behaves (s : VcmpClient) (e : Event) : Prop :=
  ∀ k ∈ e.panicking, ¬ (s.running = true ∧ k + 1 = s.generation)

instance (s : VcmpClient) (e : Event) : Decidable (s.Behaves e) :=
  inferInstanceAs (Decidable (∀ k ∈ e.panicking, ¬ (s.running = true ∧ k + 1 = s.generation)))

/-- Every task that has ended was told to stop. -/
def EndedStopped (s : VcmpClient) : Prop :=
  ∀ (k : ℕ) (t : RunTask), s.tasks[k]? = some t → t.pc = .ended → t.stop ≠ .no

/-- A task that was not told to stop ends by a panic only. -/
theorem runStep_ended (h : s.Inv) (ht : s.tasks[k]? = some t) (hno : t.stop = .no) {move : Move}
    (hs : RunStep s k t move s') : move = .panics ∨ ∃ u, s'.tasks[k]? = some u ∧ u.pc ≠ .ended := by
  obtain ⟨hrun, -, hgen⟩ := h.unstopped k t ht hno
  have hset : ∀ u, (s.tasks.set k u)[k]? = some u := fun u => getElem?_set_self' ht
  cases hs with
  | stopped _ hstop | leaves _ hstop => exact absurd hno hstop
  | refused _ _ hrefused =>
    rcases hrefused with hne | hfalse
    · exact absurd hgen.symm hne
    · rw [hrun] at hfalse
      cases hfalse
  | aborts habort => exact absurd hno (h.aborted k t ht habort)
  | panics _ => exact .inl rfl
  | _ => exact .inr ⟨_, hset _, by simp⟩

/-- What a step of another party leaves of a task. -/
theorem EndedStopped.of_tasks (h : s.EndedStopped)
    (hback : ∀ (j : ℕ) (u : RunTask), s'.tasks[j]? = some u → u.pc = .ended →
      u.stop ≠ .no ∨ ∃ v : RunTask, s.tasks[j]? = some v ∧ v.pc = .ended ∧ u.stop = v.stop) :
    s'.EndedStopped := by
  intro j u hu hpc
  rcases hback j u hu hpc with hstop | ⟨v, hv, hvpc, heq⟩
  · exact hstop
  · exact heq ▸ h j v hv hvpc

theorem EndedStopped.step (h : s.EndedStopped) (hinv : s.Inv) (he : s.Behaves e)
    (hn : machine.next s e = some s') : s'.EndedStopped := by
  cases step_of_next hn with
  | start | stop | finish | close => exact h
  | giveUp =>
    refine h.of_tasks fun j u hu hpc => ?_
    obtain ⟨v, hv, rfl⟩ := getElem?_modify_cases hu
    exact .inr ⟨v, hv, by split at hpc <;> exact hpc, by split <;> rfl⟩
  | @lockSection sec _ =>
    have hsignal : ∀ how : Stop, how ≠ .no → (s.signal how).EndedStopped := by
      intro how hhow
      refine h.of_tasks fun j u hu hpc => ?_
      obtain ⟨v, hv, hvpc, -, heq | ⟨heq, -⟩⟩ := tasks_signal hinv hu
      · exact .inl (heq ▸ hhow)
      · exact .inr ⟨v, hv, hvpc ▸ hpc, heq⟩
    cases sec with
    | startSignal => exact hsignal .quiet (by simp)
    | stopSignal wait => exact hsignal .notify (by simp)
    | startClose | stopClose wait =>
      intro j u hu
      rw [VcmpClient.sectionNext, takeSession_eq] at hu
      exact h j u hu
    | startAbort =>
      simp only [sectionNext]
      split
      · refine h.of_tasks fun j u hu hpc => ?_
        obtain ⟨v, hv, rfl⟩ := getElem?_modify_cases hu
        exact .inr ⟨v, hv, by split at hpc <;> exact hpc, by split <;> rfl⟩
      · exact h
    | startSpawn =>
      intro j u hu hpc
      rcases getElem?_concat_cases hu with ⟨-, rfl⟩ | hu
      · cases hpc
      · exact h j u hu hpc
    | stopFinish wait => exact h
  | @run k t move _ ht hs =>
    obtain ⟨-, -, -, -, pc, htasks⟩ := runStep_tasks hs
    intro j u hu hpc
    rw [htasks] at hu
    rcases getElem?_set_cases hu with ⟨rfl, rfl⟩ | ⟨-, hu⟩
    · intro hno
      change t.stop = .no at hno
      rcases runStep_ended hinv ht hno hs with rfl | ⟨v, hv, hvpc⟩
      · obtain ⟨hrun, -, hgen⟩ := hinv.unstopped j t ht hno
        exact he j rfl ⟨hrun, hgen⟩
      · rw [htasks] at hv
        obtain rfl := Option.some.inj (hv.symm.trans hu)
        exact hvpc hpc
    · exact h j u hu hpc

theorem endedStopped_of_reachable (h : machine.ReachableBy Behaves s) : s.EndedStopped := by
  have hinit : ∀ s, machine.init s → s.EndedStopped := by
    rintro s rfl
    simp [EndedStopped]
  exact h.invariant_of hinit fun s e s' hr he hn hs =>
    hs.step (inv_of_reachable hr.reachable) he hn

/-- The current generation's task is there and has not ended. -/
def Trying (s : VcmpClient) : Prop :=
  ∃ (k : ℕ) (t : RunTask), k + 1 = s.generation ∧ s.tasks[k]? = some t ∧ t.pc ≠ .ended

instance (s : VcmpClient) : Decidable s.Trying :=
  decidable_of_iff (∃ k, k < s.tasks.length ∧ k + 1 = s.generation ∧
      (s.tasks[k]?.map fun t => decide (t.pc ≠ .ended)) = some true) <| by
    constructor
    · rintro ⟨k, -, hgen, hk⟩
      simp only [Option.map_eq_some_iff, decide_eq_true_eq] at hk
      obtain ⟨t, ht, hpc⟩ := hk
      exact ⟨k, t, hgen, ht, hpc⟩
    · rintro ⟨k, t, hgen, ht, hpc⟩
      exact ⟨k, (List.getElem?_eq_some_iff.mp ht).1, hgen, by simp [ht, hpc]⟩

/-- **The client does not give up by itself**, in every run in which no
application code panics in the run task of the current generation: while
it is running that task has not ended, and a task that has ended was told
to stop by `stop` or by a replacing `start`. A panic breaks it at once. -/
theorem client_keeps_trying (s : VcmpClient) :
    (machine.ReachableBy Behaves s → (s.running = true → s.Trying) ∧ s.EndedStopped) ∧
    ∀ k s', machine.Reachable s → ¬ s.Behaves (.run k .panics) →
      machine.next s (.run k .panics) = some s' → s'.running = true ∧ ¬ s'.Trying := by
  refine ⟨fun h => ?_, fun k s' _ hpanic hn => ?_⟩
  · have hended := endedStopped_of_reachable h
    refine ⟨fun hrun => ?_, hended⟩
    obtain ⟨k, t, -, ht, hno, hgen⟩ := (inv_of_reachable h.reachable).current hrun
    exact ⟨k, t, hgen, ht, fun hpc => hended k t ht hpc hno⟩
  · simp only [Behaves, Event.panicking, Option.mem_def, Option.some.injEq, forall_eq',
      not_not] at hpanic
    obtain ⟨hrun, hgen⟩ := hpanic
    change s.next (.run k .panics) = some s' at hn
    simp only [next, Option.bind_eq_some_iff] at hn
    obtain ⟨t, ht, hnext⟩ := hn
    obtain ⟨hrun', hgen', -⟩ := runStep_tasks (runStep_of_next hnext)
    refine ⟨hrun'.trans hrun, ?_⟩
    rintro ⟨i, u, hi, hu, hpc⟩
    obtain rfl : i = k := by omega
    cases runStep_of_next hnext with
    | panics _ =>
      have htasks : ((s.setTask i { t with pc := .ended }).dropGuard t.pc.guarded).tasks =
          s.tasks.set i { t with pc := .ended } := by
        unfold dropGuard
        split <;> rfl
      rw [htasks, getElem?_set_self' ht] at hu
      obtain rfl := Option.some.inj hu
      exact hpc rfl

/-- A client that fails to connect and tries again. -/
def retryingRun : List Event :=
  [.start, .lockSection, .lockSection, .lockSection, .lockSection, .run 0 .connectFails,
    .run 0 .check, .run 0 .wake]

theorem client_keeps_trying_run :
    ∃ s, machine.run {} retryingRun = some s ∧ s.running = true ∧ s.Trying := by
  obtain ⟨s, hs, hrun⟩ := Machine.exists_of_run (M := machine)
    (show (machine.run {} retryingRun).any (fun s => s.running) = true by decide)
  have hreach : machine.ReachableBy Behaves s :=
    Machine.reachableBy_of_run (fun s e => decide (s.Behaves e))
      (fun _ _ => of_decide_eq_true) rfl (by decide) hs
  exact ⟨s, hs, hrun, ((client_keeps_trying s).1 hreach).1 hrun⟩

/-- A client whose `on_connected` hook panics. -/
def panickingRun : List Event :=
  [.start, .lockSection, .lockSection, .lockSection, .lockSection, .run 0 .connects,
    .run 0 .setSession, .run 0 (.prepare true true), .run 0 .panics]

/-- **A panic leaves a running client that tries nothing.** -/
theorem client_gives_up :
    ¬ ∀ s, machine.Reachable s → s.running = true → s.Trying := by
  intro hall
  obtain ⟨s, hs, hcheck⟩ := Machine.exists_of_run (M := machine)
    (show (machine.run {} panickingRun).any (fun s => s.running && !decide s.Trying) = true by
      decide)
  simp only [Bool.and_eq_true, Bool.not_eq_true', decide_eq_false_iff_not] at hcheck
  exact hcheck.2 (hall s (Machine.reachable_of_run rfl hs) hcheck.1)

end VcmpClient

end Vcmp
