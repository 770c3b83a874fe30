import Vcmp.Server.Stop
/-!
# What a `stop` in a hook waits for, and what it comes to

It waits for the other tasks of its listener and for nothing else. Once
they have ended the accept loop joins them without a step of any task,
and the `stop` returns. The loop comes to its drain in a few moves, and
there every joining leaves one task less.
-/

namespace Vcmp

/-- How many moves the accept loop is from its drain. -/
def AcceptPc.left : AcceptPc → ℕ
  | .entering _ => 5
  | .readying _ | .joined _ | .sleeping => 4
  | .selecting => 3
  | .dropping => 2
  | .announcing | .drained _ => 1
  | .draining | .ended => 0

namespace VcmpServer

variable {s s' : VcmpServer} {k : ℕ} {c : StopCall} {e : Event}

/-- Every task that the accept loop has spawned has ended, but for `k`. -/
def Settled (s : VcmpServer) (k : ℕ) : Prop :=
  ∀ (j : ℕ) (t : ConnectionTask), s.tasks[j]? = some t → t.upgrade = false → j ≠ k → t.pc = .ended

/-! ## What has returned -/

/-- At its await points the accept loop has entered what it has not joined. -/
theorem Tracked.of_suspended (h : s.Tracked) (hs : s.accept.suspended = true) (k : ℕ) :
    k ∈ s.connections.tasks ↔
      ∃ t : ConnectionTask, s.tasks[k]? = some t ∧ t.upgrade = false ∧ t.joined = false := by
  obtain ⟨hfresh, hrecording⟩ := suspended_cases hs
  simp [h.entered, hfresh, hrecording]

/-- **A task that is not entered any more has ended.** -/
theorem Tracked.settled (h : s.Tracked) (hf : s.connections.finishedExcept k = true) :
    s.Settled k := by
  intro j t ht hbare hj
  obtain ⟨haccepting, hall⟩ := finishedExcept_iff.mp hf
  have hfresh : s.accept.fresh = none := by
    have hlast := h.accepting haccepting
    cases hpc : s.accept <;> rw [hpc] at hlast <;> first | rfl | cases hlast
  have hnot : j ∉ s.connections.tasks := fun hmem => hj (hall j hmem)
  by_contra hended
  have hunjoined : t.joined = false := by
    by_contra hjoined
    exact hended (h.joined j t ht hbare (by simpa using hjoined))
  exact hnot ((h.entered j).mpr ⟨t, ht, hbare, by simp [hfresh], .inl hunjoined⟩)

theorem Tracked.gone (h : s.Tracked) (ha : s.connections.accepting = false) : s.listener = false := by
  have hlast := h.accepting ha
  refine h.listener ?_
  cases hpc : s.accept <;> rw [hpc] at hlast <;> first | rfl | cases hlast

/-! ## Nothing is added -/

/-- What the end of the accepting settles. -/
structure Shrinks (s s' : VcmpServer) : Prop where
  accepting : s'.connections.accepting = false
  tasks : ∀ k ∈ s'.connections.tasks, k ∈ s.connections.tasks
  spawned : ∀ k, s'.Bare k → s.Bare k

theorem Shrinks.congr (hconnections : s'.connections = s.connections)
    (ha : s.connections.accepting = false)
    (hback : ∀ (k : ℕ) (u : ConnectionTask), s'.tasks[k]? = some u →
      u.upgrade = true ∨ ∃ t, s.tasks[k]? = some t ∧ u.upgrade = t.upgrade) : Shrinks s s' where
  accepting := by rw [hconnections]; exact ha
  tasks := by rw [hconnections]; exact fun _ hk => hk
  spawned := by
    rintro k ⟨u, hu, hbare⟩
    rcases hback k u hu with hup | ⟨t, ht, hup⟩
    · rw [hup] at hbare
      cases hbare
    · exact ⟨t, ht, hup.symm.trans hbare⟩

/-- **No step adds a task once the accepting is over.** -/
theorem shrinks_of_next (htracked : s.Tracked) (ha : s.connections.accepting = false)
    (hn : machine.next s e = some s') : Shrinks s s' := by
  have hlast := htracked.accepting ha
  have hsame : ∀ (i : ℕ) (u : ConnectionTask), s.tasks[i]? = some u → u.upgrade = true ∨
      ∃ t, s.tasks[i]? = some t ∧ u.upgrade = t.upgrade := fun i u hu => .inr ⟨u, hu, rfl⟩
  have habort : ∀ (p : ℕ → ConnectionTask → Bool) (i : ℕ) (u : ConnectionTask),
      (s.abortAll p).tasks[i]? = some u → u.upgrade = true ∨
        ∃ t, s.tasks[i]? = some t ∧ u.upgrade = t.upgrade := by
    intro p i u hu
    obtain ⟨t, ht, rfl⟩ := abortAll_back hu
    exact .inr ⟨t, ht, rfl⟩
  have hmodify : ∀ (j : ℕ) (g : ConnectionTask → ConnectionTask),
      (∀ t, (g t).upgrade = t.upgrade ∧ (g t).pc = t.pc) → ∀ (i : ℕ) (u : ConnectionTask),
        (s.tasks.modify j g)[i]? = some u → u.upgrade = true ∨
          ∃ t, s.tasks[i]? = some t ∧ u.upgrade = t.upgrade := by
    intro j g hg i u hu
    obtain ⟨t, ht, hup, -⟩ := modify_back hu hg
    exact .inr ⟨t, ht, hup⟩
  have hkeeps : ∀ j, ∀ i ∈ (s.connections.finished j).tasks, i ∈ s.connections.tasks :=
    fun j i hi => List.mem_of_mem_filter hi
  cases step_of_next hn with
  | accept hs =>
    cases hs with
    | accepts hpc | enters hpc =>
      rw [hpc] at hlast
      cases hlast
    | readies | joins | joinsLast => exact .congr rfl ha (hmodify _ _ fun _ => ⟨rfl, rfl⟩)
    | records | recordsLast => exact ⟨ha, hkeeps _, fun _ hb => hb⟩
    | announces => exact ⟨rfl, fun _ hj => hj, fun _ hb => hb⟩
    | aborts => exact .congr rfl ha (habort _)
    | _ => exact .congr rfl ha hsame
  | upgrade =>
    refine .congr rfl ha fun i u hu => ?_
    rcases getElem?_concat_cases hu with ⟨-, rfl⟩ | hu
    · exact .inl rfl
    · exact .inr ⟨u, hu, rfl⟩
  | @task j t move _ ht hs =>
    obtain ⟨pc, heq⟩ := taskStep_eq hs
    refine .congr (by rw [heq]) ha fun i u hu => .inr ?_
    rw [heq] at hu
    rcases getElem?_set_cases hu with ⟨rfl, rfl⟩ | ⟨-, hu⟩
    · exact ⟨t, ht, rfl⟩
    · exact ⟨u, hu, rfl⟩
  | closing _ hs => cases hs <;> exact .congr rfl ha hsame
  | stopGoes _ hs => cases hs <;> exact .congr rfl ha hsame
  | stopDeadline _ hs =>
    cases hs with
    | others => exact .congr rfl ha (habort _)
    | loop => exact .congr rfl ha hsame
  | _ => exact .congr rfl ha hsame

/-- **And so no run does.** -/
theorem shrinks_of_path (h : machine.Reachable s) (ha : s.connections.accepting = false)
    (hp : machine.Path Machine.free s s') : Shrinks s s' := by
  induction hp with
  | refl => exact ⟨ha, fun _ hk => hk, fun _ hb => hb⟩
  | tail hp _ hn ih =>
    have hstep := shrinks_of_next (tracked_of_reachable (h.trans hp)) ih.accepting hn
    exact ⟨hstep.accepting, fun j hj => ih.tasks j (hstep.tasks j hj),
      fun j hb => ih.spawned j (hstep.spawned j hb)⟩

/-! ## What the accept loop does alone -/

/-- A move of the accept loop that accepts nothing. -/
def Joins (_ : VcmpServer) (e : Event) : Prop :=
  ∃ move, move ≠ AcceptMove.accepts ∧ e = .accept move

/-- What the accept loop cannot change by such moves. -/
structure Joined (s s' : VcmpServer) : Prop where
  stop : s'.stop = s.stop
  stopSent : s'.stopSent = s.stopSent
  settled : ∀ k, s.Settled k → s'.Settled k

theorem Joined.congr (hstop : s'.stop = s.stop) (hsent : s'.stopSent = s.stopSent)
    (hback : ∀ (k : ℕ) (u : ConnectionTask), s'.tasks[k]? = some u →
      ∃ t, s.tasks[k]? = some t ∧ u.upgrade = t.upgrade ∧ u.pc = t.pc) : Joined s s' where
  stop := hstop
  stopSent := hsent
  settled := by
    intro k hk j u hu hbare hj
    obtain ⟨t, ht, hup, hpc⟩ := hback j u hu
    exact hpc.trans (hk j t ht (hup.symm.trans hbare) hj)

theorem joined_of_next (hj : Joins s e) (hn : machine.next s e = some s') : Joined s s' := by
  obtain ⟨move, hmove, rfl⟩ := hj
  have hsame : ∀ (i : ℕ) (u : ConnectionTask), s.tasks[i]? = some u →
      ∃ t, s.tasks[i]? = some t ∧ u.upgrade = t.upgrade ∧ u.pc = t.pc :=
    fun i u hu => ⟨u, hu, rfl, rfl⟩
  have hstep := step_of_next hn
  cases hstep with
  | accept hs =>
    cases hs with
    | accepts => exact absurd rfl hmove
    | readies | joins | joinsLast =>
      exact .congr rfl rfl fun _ _ hu => modify_back hu fun _ => ⟨rfl, rfl⟩
    | aborts =>
      refine .congr rfl rfl fun i u hu => ?_
      obtain ⟨t, ht, rfl⟩ := abortAll_back hu
      exact ⟨t, ht, rfl, rfl⟩
    | _ => exact .congr rfl rfl hsame

theorem joined_of_path (hp : machine.Path Joins s s') : Joined s s' := by
  refine hp.relates (R := Joined) (fun s => ⟨rfl, rfl, fun _ hk => hk⟩) ?_ fun s e t hj hn =>
    joined_of_next hj hn
  intro s t u hst htu
  exact ⟨htu.stop.trans hst.stop, htu.stopSent.trans hst.stopSent,
    fun k hk => htu.settled k (hst.settled k hk)⟩

/-- **The accept loop comes nearer its drain** by every move it then makes. -/
theorem exists_nearer (hsent : s.stopSent = true) (hnot : s.accept ≠ .draining ∧ s.accept ≠ .ended) :
    ∃ e s', Joins s e ∧ machine.next s e = some s' ∧ s'.accept ≠ .ended ∧
      s'.accept.left < s.accept.left := by
  have hgoes : Joins s (.accept .goes) := ⟨.goes, by simp, rfl⟩
  have hstep : ∀ move, machine.next s (.accept move) = s.acceptNext move := fun _ => rfl
  cases hpc : s.accept with
  | selecting =>
    refine ⟨.accept .stopSeen, { s with accept := .dropping }, ⟨.stopSeen, by simp, rfl⟩, ?_, by simp,
      by simp [AcceptPc.left]⟩
    simp [hstep, acceptNext, hpc, hsent]
  | sleeping =>
    refine ⟨.accept .wakes, { s with accept := .selecting }, ⟨.wakes, by simp, rfl⟩, ?_, by simp,
      by simp [AcceptPc.left]⟩
    simp [hstep, acceptNext, hpc]
  | draining => exact absurd hpc hnot.1
  | ended => exact absurd hpc hnot.2
  | entering j | readying j | joined j | dropping | announcing | drained j =>
    refine ⟨.accept .goes, _, hgoes, by simp only [hstep, acceptNext, hpc]; rfl, by simp,
      by simp [AcceptPc.left]⟩

/-- **It comes to its drain.** -/
theorem exists_draining (hsent : s.stopSent = true) (hnot : s.accept ≠ .ended) :
    ∃ s', machine.Path Joins s s' ∧ s'.accept = .draining := by
  generalize hn : s.accept.left = n
  induction n using Nat.strong_induction_on generalizing s with
  | _ n ih =>
    by_cases hpc : s.accept = .draining
    · exact ⟨s, .refl s, hpc⟩
    · obtain ⟨e, u, hj, hstep, hu, hlt⟩ := exists_nearer hsent ⟨hpc, hnot⟩
      have hsent' : u.stopSent = true := (joined_of_next hj hstep).stopSent.trans hsent
      obtain ⟨s', hp, hs'⟩ := ih _ (hn ▸ hlt) hsent' hu rfl
      exact ⟨s', (Machine.Path.single hj hstep).trans hp, hs'⟩

/-- In its drain the accept loop has told that the accepting is over. -/
theorem accepting_of_draining (h : machine.Reachable s)
    (hpc : s.accept = .draining ∨ ∃ j, s.accept = .drained j) : s.connections.accepting = false := by
  have hinv : (s.accept = .draining ∨ ∃ j, s.accept = .drained j) →
      s.connections.accepting = false := by
    refine h.invariant (P := fun s => (s.accept = .draining ∨ ∃ j, s.accept = .drained j) →
      s.connections.accepting = false) (fun s hs => ?_) fun s e s' _ hn ih => ?_
    · obtain ⟨n, rfl⟩ := hs
      simp
    · cases step_of_next hn with
      | accept hs =>
        cases hs with
        | joinsLast hpc => exact fun _ => ih (.inl hpc)
        | recordsLast hpc => exact fun _ => ih (.inr ⟨_, hpc⟩)
        | announces => exact fun _ => rfl
        | _ => simp
      | task _ hs =>
        obtain ⟨pc, heq⟩ := taskStep_eq hs
        rw [heq]
        exact ih
      | closing _ hs => cases hs <;> exact ih
      | stopGoes _ hs => cases hs <;> exact ih
      | stopDeadline _ hs => cases hs <;> exact ih
      | _ => exact ih
  exact hinv hpc

/-- How many of the others are entered still. -/
def others (s : VcmpServer) (k : ℕ) : ℕ := (s.connections.tasks.filter fun j => j ≠ k).length

/-- **In its drain it joins them one by one.** -/
theorem exists_finished (h : machine.Reachable s) (hpc : s.accept = .draining) (hk : s.Settled k) :
    ∃ s', machine.Path Joins s s' ∧ s'.connections.finishedExcept k = true := by
  generalize hn : s.others k = n
  induction n using Nat.strong_induction_on generalizing s with
  | _ n ih =>
    have haccepting := accepting_of_draining h (.inl hpc)
    by_cases hall : ∀ j ∈ s.connections.tasks, j = k
    · exact ⟨s, .refl s, finishedExcept_iff.mpr ⟨haccepting, hall⟩⟩
    · push Not at hall
      obtain ⟨j, hmem, hj⟩ := hall
      have hsuspended : s.accept.suspended = true := by rw [hpc]; rfl
      obtain ⟨t, ht, hbare, hunjoined⟩ := ((tracked_of_reachable h).of_suspended hsuspended j).mp hmem
      have hended := hk j t ht hbare hj
      -- it is joined and taken out
      have hjoin : machine.next s (.accept (.joins j)) = some { s with
          tasks := s.tasks.modify j (fun t => { t with joined := true }), accept := .drained j } := by
        simp [machine, next, acceptNext, hpc, ht, hbare, hunjoined, hended]
      have htake : machine.next { s with
          tasks := s.tasks.modify j (fun t => { t with joined := true }), accept := .drained j }
          (.accept .goes) = some { s with
            tasks := s.tasks.modify j (fun t => { t with joined := true })
            connections := s.connections.finished j, accept := .draining } := rfl
      have hp : machine.Path Joins s _ :=
        (Machine.Path.single ⟨.joins j, by simp, rfl⟩ hjoin).trans
          (.single ⟨.goes, by simp, rfl⟩ htake)
      have hfewer : (List.filter (fun i => decide (i ≠ k)) (s.connections.finished j).tasks).length
          < s.others k := by
        have hin : j ∈ s.connections.tasks.filter fun i => decide (i ≠ k) := by simp [hmem, hj]
        have hlt := List.length_filter_lt_length_iff_exists.mpr
          (⟨j, hin, by simp⟩ : ∃ i ∈ s.connections.tasks.filter (fun i => decide (i ≠ k)),
            ¬ decide (i ≠ j) = true)
        simp only [ConnectionTasks.finished, others, List.filter_filter] at hlt ⊢
        simpa only [Bool.and_comm] using hlt
      obtain ⟨s', hp', hs'⟩ := ih _ (hn ▸ hfewer) (h.trans (hp.mono fun _ _ _ => trivial)) rfl
        ((joined_of_path hp).settled k hk) rfl
      exact ⟨s', hp.trans hp', hs'⟩

/-! ## The `stop` -/

/-- **What a `stop` in a hook of the task `k` waits for, and what it comes to.** -/
structure AwaitedIn (s : VcmpServer) (k : ℕ) (c : StopCall) : Prop where
  /-- It finds itself in its task. -/
  found : c.pc = .filtering ∨ c.pc = .dropped ∨ c.caller = some k
  /-- It waits for the end of the accepting and for the other tasks, -/
  waits : c.pc = .waiting ∨ c.pc = .reaping → ((∃ s', machine.next s .stopGoes = some s') ↔
    s.connections.accepting = false ∧ ∀ j ∈ s.connections.tasks, j = k)
  /-- and behind their end the accept loop alone lets it return. -/
  returns : c.pc = .waiting ∨ c.pc = .reaping → s.Settled k → ∃ u s', machine.Path Joins s u ∧
    machine.next u .stopGoes = some s' ∧ s'.stop = some { c with pc := .returned }
  /-- Its deadline aborts the others only. -/
  spares : ∀ s', machine.next s .stopDeadline = some s' →
    s'.tasks[k]? = s.tasks[k]? ∧ s'.acceptAborted = false
  /-- When it has returned the listener is gone and the others have ended. -/
  returned : c.pc = .returned → s.listener = false ∧ s.Settled k

/-- **What the accept loop and its tasks let a hook rely on.** -/
structure Supervised (s : VcmpServer) : Prop where
  suspended : s.accept.suspended = true → ∀ k, k ∈ s.connections.tasks ↔
    ∃ t : ConnectionTask, s.tasks[k]? = some t ∧ t.upgrade = false ∧ t.joined = false
  /-- Whatever a task does it does where it is entered, but to be aborted at its gate. -/
  entered : ∀ k t move s', s.tasks[k]? = some t → t.upgrade = false →
    machine.next s (.task k move) = some s' → k ∈ s.connections.tasks ∨
      move = .aborts ∧ t.pc = .gated
  gone : s.connections.accepting = false → s.listener = false
  /-- Behind that nothing is entered or spawned. -/
  shrinks : s.connections.accepting = false → ∀ s', machine.Path Machine.free s s' → Shrinks s s'
  stops : ∀ c k, s.stop = some c → c.awaiter = some k → s.Bare k → s.AwaitedIn k c

/-- A task that has ended does nothing. -/
theorem taskStep_not_ended {t : ConnectionTask} {move : TaskMove} (h : TaskStep s k t move s') :
    t.pc ≠ .ended := by
  intro hend
  cases h with
  | lost hpc => rcases hpc with hpc | ⟨i, hpc⟩ <;> rw [hend] at hpc <;> cases hpc
  | aborts _ hpc =>
    rw [hend] at hpc
    cases hpc
  | _ hpc =>
    rw [hend] at hpc
    cases hpc

/-- **A task of the accept loop runs where it is entered.** -/
theorem Tracked.mem_of_next (h : s.Tracked) {t : ConnectionTask} {move : TaskMove}
    (ht : s.tasks[k]? = some t) (hbare : t.upgrade = false)
    (hn : machine.next s (.task k move) = some s') :
    k ∈ s.connections.tasks ∨ move = .aborts ∧ t.pc = .gated := by
  cases step_of_next hn with
  | task hv hs =>
    obtain rfl := Option.some.inj (ht.symm.trans hv)
    obtain ⟨pc, heq⟩ := taskStep_eq hs
    have hu : s'.tasks[k]? = some { t with pc := pc } := by rw [heq]; exact getElem?_set_self' ht
    have hended := taskStep_not_ended hs
    have hunjoined : t.joined = false := by
      by_contra hjoined
      exact hended (h.joined k t ht hbare (by simpa using hjoined))
    have hmem : t.ready = true → k ∈ s.connections.tasks := fun hready =>
      (h.entered k).mpr ⟨t, ht, hbare, h.told k t ht hbare hready, .inl hunjoined⟩
    by_cases hgated : t.pc = .gated
    · cases hs with
      | opens _ hready => exact .inl (hmem hready)
      | aborts => exact .inr ⟨rfl, hgated⟩
      | panics hpc =>
        rw [hgated] at hpc
        cases hpc
      | lost hpc => rcases hpc with hpc | ⟨i, hpc⟩ <;> rw [hgated] at hpc <;> cases hpc
      | _ hpc =>
        rw [hgated] at hpc
        cases hpc
    · exact .inl (hmem (h.ready k t ht hbare hgated hended))

/-- What the `stop` sees of the accept loop is what it waits for. -/
theorem quiet_iff (hcaller : c.caller = some k) (hnot : s.accept ≠ .ended) :
    s.quiet c = true ↔ s.connections.accepting = false ∧ ∀ j ∈ s.connections.tasks, j = k := by
  simp [quiet, hcaller, hnot, finishedExcept_iff]

theorem stopNext_of_waiting (hpc : c.pc = .waiting ∨ c.pc = .reaping) : s.stopNext c =
    if s.quiet c then some { s with stop := some { c with pc := .returned } } else none := by
  rcases hpc with hpc | hpc <;> simp only [stopNext, hpc]

theorem awaitedIn_of_reachable (h : machine.Reachable s) (hc : s.stop = some c)
    (hk : c.awaiter = some k) (hb : s.Bare k) : s.AwaitedIn k c := by
  have htracked := tracked_of_reachable h
  have hstopping := stopping_of_reachable h
  have hfound := hstopping.found c k hc hk hb
  have hgoes : machine.next s .stopGoes = s.stopNext c := by
    change s.stop.bind s.stopNext = _
    rw [hc]
    rfl
  have hcaller : c.pc = .waiting ∨ c.pc = .reaping → c.caller = some k ∧ s.accept ≠ .ended := by
    intro hpc
    have hnot : c.pc ≠ .filtering ∧ c.pc ≠ .returned ∧ c.pc ≠ .dropped := by
      rcases hpc with hpc | hpc <;> rw [hpc] <;> simp
    have hcaller := (hfound.resolve_left hnot.1).resolve_left hnot.2.2
    exact ⟨hcaller, hstopping.not_ended htracked hc hcaller hnot.2⟩
  refine
    { found := hfound, waits := fun hpc => ?_, returns := fun hpc hsettled => ?_
      spares := fun s' hn => ?_, returned := fun hret => ?_ }
  · obtain ⟨hcall, hnot⟩ := hcaller hpc
    rw [hgoes, stopNext_of_waiting hpc, ← quiet_iff hcall hnot]
    simp
  · obtain ⟨hcall, hnot⟩ := hcaller hpc
    have hsent := hstopping.sent c hc (.inr hpc)
    -- the loop comes to its drain, and joins the others there
    obtain ⟨u, hpu, hdraining⟩ := exists_draining hsent hnot
    have hu : machine.Reachable u := h.trans (hpu.mono fun _ _ _ => trivial)
    obtain ⟨v, hpv, hfinished⟩ := exists_finished hu hdraining ((joined_of_path hpu).settled k hsettled)
    have hp := hpu.trans hpv
    have hstop : v.stop = some c := (joined_of_path hp).stop.trans hc
    refine ⟨v, { v with stop := some { c with pc := .returned } }, hp, ?_, rfl⟩
    change v.stop.bind v.stopNext = _
    rw [hstop]
    change v.stopNext c = _
    rw [stopNext_of_waiting hpc, if_pos]
    simp [quiet, hcall, hfinished]
  · cases step_of_next hn with
    | stopDeadline hd hs =>
      obtain rfl := Option.some.inj (hc.symm.trans hd)
      cases hs with
      | @others j hpc hj =>
        obtain ⟨hcall, -⟩ := hcaller (.inl hpc)
        obtain rfl := Option.some.inj (hcall.symm.trans hj)
        refine ⟨by simp [abortAll, List.getElem?_mapIdx], ?_⟩
        by_contra haborted
        obtain ⟨d, hd, hnone, -⟩ := hstopping.aborted (by simpa [abortAll] using haborted)
        obtain rfl := Option.some.inj (hc.symm.trans hd)
        rw [hcall] at hnone
        cases hnone
      | loop hpc hnone =>
        rw [(hcaller (.inl hpc)).1] at hnone
        cases hnone
  · have hcall := (hfound.resolve_left (by rw [hret]; simp)).resolve_left (by rw [hret]; simp)
    have hfinished := hstopping.returned c k hc hret hcall
    exact ⟨htracked.gone (finishedExcept_iff.mp hfinished).1, htracked.settled hfinished⟩

/-- **In every run a hook can rely on all of that.** -/
theorem supervised_of_reachable (h : machine.Reachable s) : s.Supervised where
  suspended hs := (tracked_of_reachable h).of_suspended hs
  entered _ _ _ _ ht hbare hn := (tracked_of_reachable h).mem_of_next ht hbare hn
  gone ha := (tracked_of_reachable h).gone ha
  shrinks ha _ hp := shrinks_of_path h ha hp
  stops _ _ hc hk hb := awaitedIn_of_reachable h hc hk hb

/-- Two connections, the first of which stops the server in its
disconnect hook while the second fails in its handshake. -/
def hookRun : List Event := List.flatten [
  [.accept .accepts, .accept .goes, .accept .goes, .accept .accepts, .accept .goes, .accept .goes],
  [.task 0 .goes, .task 0 (.matched 0), .task 0 .succeeds, .task 0 .goes, .task 0 .goes,
    .task 0 .goes, .task 0 (.prepare false true), .close 0, .finish 0, .task 0 .closedSeen,
    .task 0 .goes, .task 0 (.decide true)],
  [.stop (some 0), .stopGoes, .stopGoes, .stopGoes, .task 1 .goes, .task 1 .fails],
  List.replicate 7 (.closing 0),
  [.stopGoes, .accept .stopSeen, .accept .goes, .accept .goes, .accept (.joins 1), .accept .goes,
    .stopGoes]]

/-- The `stop` returns, and the hook goes on. -/
theorem supervised_of_reachable_hookRun : ∃ s,
    machine.run { endpoints := List.replicate 1 {} } hookRun = some s ∧
      (s.stop.map fun c => (c.pc, c.caller)) = some (.returned, some 0) ∧
      s.tasks.map ConnectionTask.pc = [.notifying 0 0, .ended] ∧ s.Supervised := by
  have hrun : (machine.run { endpoints := List.replicate 1 {} } hookRun).any (fun s =>
      decide ((s.stop.map fun c => (c.pc, c.caller)) = some (.returned, some 0) ∧
        s.tasks.map ConnectionTask.pc = [.notifying 0 0, .ended])) = true := by
    decide +kernel
  obtain ⟨s, hs, hend⟩ := Machine.exists_of_run hrun
  obtain ⟨hstop, htasks⟩ := of_decide_eq_true hend
  exact ⟨s, hs, hstop, htasks, supervised_of_reachable (Machine.reachable_of_run ⟨1, rfl⟩ hs)⟩

end VcmpServer

end Vcmp
