import Vcmp.Server.Ranks
/-!
# A `stop` comes to its end

Whatever it waits for can go on without anything from outside: an accepted
upgrade that a call waits for times out or registers its session, a session
that was closed closes, and behind the deadline what was aborted ends. A
task that was not there to be aborted is turned away at its check. Each of
these steps brings the end nearer, so a `stop` that is not dropped with the
hook it is awaited in returns.
-/

namespace Vcmp

/-- Where a task has not passed its check of `stopped`, or has ended. -/
def TaskPc.unchecked : TaskPc → Bool
  | .gated | .handshaking | .responding _ | .checking _ | .ended => true
  | _ => false

namespace VcmpServer

variable {s s' : VcmpServer} {k q i : ℕ} {t u : ConnectionTask} {c : StopCall} {pc : ClosingPc} {e : Event}

/-! ## What is there stays there -/

theorem length_endpoints_le (hn : machine.next s e = some s') :
    s.endpoints.length ≤ s'.endpoints.length := by
  by_cases he : e = .endpoint
  · subst he
    cases step_of_next hn with
    | endpoint => simp
  · exact le_of_eq (length_endpoints_of_next hn he).symm

/-- A session stays in its place, and stays closed. -/
theorem session_stays (hn : machine.next s e = some s') {d : ℕ} {x : ServedSession}
    (hx : s.sessions[d]? = some x) :
    ∃ y, s'.sessions[d]? = some y ∧ (x.isOpen = false → y.isOpen = false) := by
  have hlt := (List.getElem?_eq_some_iff.mp hx).1
  have hy := List.getElem?_eq_getElem (Nat.lt_of_lt_of_le hlt (length_sessions_le hn))
  refine ⟨_, hy, ?_⟩
  rcases session_of_next hn hy with ⟨z, hz, hages⟩ | ⟨rfl, -⟩
  · obtain rfl := Option.some.inj (hx.symm.trans hz)
    exact hages.shut
  · exact absurd hlt (Nat.lt_irrefl _)

/-- What a task was told, and whose it is. -/
structure Told (t u : ConnectionTask) : Prop where
  upgrade : u.upgrade = t.upgrade
  aborted : t.aborted = true → u.aborted = true
  ready : t.ready = true → u.ready = true

theorem Told.refl (t : ConnectionTask) : Told t t := ⟨rfl, id, id⟩

theorem told_of_next (hn : machine.next s e = some s') (ht : s.tasks[k]? = some t) :
    ∃ u, s'.tasks[k]? = some u ∧ Told t u := by
  have concat : ∀ v, ∃ u, (s.tasks ++ [v])[k]? = some u ∧ Told t u :=
    fun v => ⟨t, getElem?_append_some ht, .refl t⟩
  have modified : ∀ (j : ℕ) (g : ConnectionTask → ConnectionTask), (∀ t, Told t (g t)) →
      ∃ u, (s.tasks.modify j g)[k]? = some u ∧ Told t u := by
    intro j g hg
    refine ⟨_, tasks_of_modify g ht, ?_⟩
    split
    · exact hg t
    · exact .refl t
  have abort : ∀ p, ∃ u, (s.abortAll p).tasks[k]? = some u ∧ Told t u :=
    fun p => ⟨_, abortAll_forth p ht, rfl, fun ha => by simp [ha], id⟩
  cases step_of_next hn with
  | accept hs =>
    cases hs with
    | accepts => exact concat _
    | readies => exact modified _ _ fun t => ⟨rfl, id, fun _ => rfl⟩
    | joins | joinsLast => exact modified _ _ fun t => ⟨rfl, id, id⟩
    | aborts => exact abort _
    | _ => exact ⟨t, ht, .refl t⟩
  | upgrade => exact concat _
  | @task j v _ _ hv hs =>
    obtain ⟨pc, heq⟩ := taskStep_eq hs
    rw [heq]
    by_cases hj : j = k
    · subst hj
      obtain rfl := Option.some.inj (ht.symm.trans hv)
      exact ⟨_, getElem?_set_self' ht, rfl, id, id⟩
    · exact ⟨t, (List.getElem?_set_ne hj).trans ht, .refl t⟩
  | closing _ hs => cases hs <;> exact ⟨t, ht, .refl t⟩
  | stopGoes _ hs => cases hs <;> exact ⟨t, ht, .refl t⟩
  | stopDeadline _ hs =>
    cases hs with
    | others => exact abort _
    | loop => exact ⟨t, ht, .refl t⟩
  | _ => exact ⟨t, ht, .refl t⟩

/-- A task that was not there is one of an upgrade, or the accept loop has just spawned it. -/
theorem spawned_of_next (hn : machine.next s e = some s') (hu : s'.tasks[k]? = some u)
    (hk : s.tasks.length ≤ k) : u.upgrade = true ∨ s'.accept = .entering k ∧ u.pc = .gated := by
  have gone : s'.tasks.length = s.tasks.length → False := by
    intro hlength
    have hlt := (List.getElem?_eq_some_iff.mp hu).1
    omega
  have hnone : s.tasks[k]? = none := List.getElem?_eq_none hk
  cases step_of_next hn with
  | accept hs =>
    cases hs with
    | accepts =>
      rcases getElem?_concat_cases hu with ⟨rfl, rfl⟩ | hu
      · exact .inr ⟨rfl, rfl⟩
      · rw [hnone] at hu
        cases hu
    | readies | joins | joinsLast => exact (gone (List.length_modify ..)).elim
    | aborts => exact (gone (List.length_mapIdx ..)).elim
    | _ => exact (gone rfl).elim
  | upgrade =>
    rcases getElem?_concat_cases hu with ⟨-, rfl⟩ | hu
    · exact .inl rfl
    · rw [hnone] at hu
      cases hu
  | task _ hs =>
    obtain ⟨pc, heq⟩ := taskStep_eq hs
    exact (gone (by rw [heq]; exact List.length_set ..)).elim
  | closing _ hs => cases hs <;> exact (gone rfl).elim
  | stopGoes _ hs => cases hs <;> exact (gone rfl).elim
  | stopDeadline _ hs =>
    cases hs with
    | others => exact (gone (List.length_mapIdx ..)).elim
    | loop => exact (gone rfl).elim
  | _ => exact (gone rfl).elim

/-! ## What a call waits for -/

/-- **What a `close_sessions` call looks at is there**, and what it waits for is not open. -/
def Sound (s : VcmpServer) : ClosingPc → Prop
  | .waiting n _ => n ≤ s.endpoints.length
  | .collecting n _ sessions => n ≤ s.endpoints.length ∧ ∀ d ∈ sessions, d < s.sessions.length
  | .closing sessions left => ∀ d ∈ sessions, ∃ x, s.sessions[d]? = some x ∧ (d ∈ left ∨ x.isOpen = false)
  | .awaiting _ left => ∀ d ∈ left, ∃ x, s.sessions[d]? = some x ∧ x.isOpen = false
  | _ => True

theorem Sound.stays (h : s.Sound pc) (hn : machine.next s e = some s') : s'.Sound pc := by
  have hendpoints := length_endpoints_le hn
  cases pc with
  | waiting n i => exact Nat.le_trans h hendpoints
  | collecting n i sessions =>
    exact ⟨Nat.le_trans h.1 hendpoints, fun d hd => Nat.lt_of_lt_of_le (h.2 d hd) (length_sessions_le hn)⟩
  | closing sessions left =>
    intro d hd
    obtain ⟨x, hx, hor⟩ := h d hd
    obtain ⟨y, hy, hshut⟩ := session_stays hn hx
    exact ⟨y, hy, hor.imp_right hshut⟩
  | awaiting sessions left =>
    intro d hd
    obtain ⟨x, hx, hno⟩ := h d hd
    obtain ⟨y, hy, hshut⟩ := session_stays hn hx
    exact ⟨y, hy, hshut hno⟩
  | listing | returned | dropped => trivial

/-- A call that goes on is sound where it comes to. -/
theorem Sound.goes (h : s.Sound pc) (hregistry : s.Registry) (hq : s.closings[q]? = some pc)
    (hs : ClosingStep s q pc s') : s'.Sound (s'.closingAt q) := by
  have moves : ∀ pc', s'.closings = s.closings.set q pc' → s'.Sound pc' → s'.Sound (s'.closingAt q) := by
    intro pc' hset hsound
    rwa [closingAt_of_getElem? (by rw [hset]; exact getElem?_set_self' hq)]
  cases hs with
  | lists => exact moves _ rfl le_rfl
  | passes => exact moves _ rfl h
  | waited => exact moves _ rfl ⟨h, by simp⟩
  | @collects n i sessions p hi hp =>
    refine moves _ rfl ⟨h.1, fun d hd => ?_⟩
    rcases List.mem_append.mp hd with hd | hd
    · exact h.2 d hd
    · exact hregistry.listed i d (by simpa [registered, hp] using hd)
  | collected =>
    refine moves _ rfl fun d hd => ⟨_, List.getElem?_eq_getElem (h.2 d hd), .inl hd⟩
  | @closes c sessions left =>
    refine moves _ rfl fun d hd => ?_
    obtain ⟨x, hx, hor⟩ := h d hd
    have hy : (s.closeSession c).sessions[d]? = some (if c = d then { x with isOpen := false } else x) := by
      simp [closeSession, List.getElem?_modify, hx]
    refine ⟨_, hy, ?_⟩
    by_cases hcd : c = d
    · exact .inr (by rw [if_pos hcd])
    · rw [if_neg hcd]
      exact hor.imp_left fun hmem => (List.mem_cons.mp hmem).resolve_left (Ne.symm hcd)
  | closed =>
    refine moves _ rfl fun d hd => ?_
    obtain ⟨x, hx, hor⟩ := h d hd
    exact ⟨x, hx, hor.resolve_left (by simp)⟩
  | awaits => exact moves _ rfl fun d hd => h d (List.mem_cons_of_mem _ hd)
  | returns => exact moves _ rfl trivial

theorem sound_closingAt (h : machine.Reachable s) (q : ℕ) : s.Sound (s.closingAt q) := by
  refine h.invariant_of (P := fun s => s.Sound (s.closingAt q)) ?_ fun s e s' hr _ hn hs => ?_
  · rintro s ⟨n, rfl⟩
    exact trivial
  rcases closingAt_of_next hn q with hsame | hdropped | ⟨pc, -, hq, hstep⟩
  · rw [hsame]
    exact hs.stays hn
  · rw [hdropped]
    exact trivial
  · exact Sound.goes (closingAt_of_getElem? hq ▸ hs) (registry_of_reachable hr) hq hstep

/-! ## What was aborted, and what was not there to be -/

/-- **A task that was not told to go on is about to be.** -/
theorem ready_of_reachable (h : machine.Reachable s) (ht : s.tasks[k]? = some t)
    (hbare : t.upgrade = false) :
    t.ready = true ∨ s.accept = .entering k ∨ s.accept = .readying k := by
  refine h.invariant (P := fun s => ∀ (k : ℕ) (t : ConnectionTask), s.tasks[k]? = some t →
    t.upgrade = false → t.ready = true ∨ s.accept = .entering k ∨ s.accept = .readying k) ?_ ?_ k t ht hbare
  · rintro s ⟨n, rfl⟩ k t ht
    simp at ht
  · intro s e s' _ hn ih k u hu hbare
    by_cases hlt : k < s.tasks.length
    · obtain ⟨v, hv, htold⟩ := told_of_next hn (List.getElem?_eq_getElem hlt)
      obtain rfl := Option.some.inj (hu.symm.trans hv)
      have hold := (ih k _ (List.getElem?_eq_getElem hlt) (htold.upgrade.symm.trans hbare)).imp_left htold.ready
      refine hold.elim .inl fun hat => ?_
      cases step_of_next hn with
      | accept hs =>
        cases hs with
        | enters hpc =>
          have hj := hat.resolve_right (by rw [hpc]; simp)
          rw [hpc] at hj
          cases hj
          exact .inr (.inr rfl)
        | readies hpc =>
          have hj := hat.resolve_left (by rw [hpc]; simp)
          rw [hpc] at hj
          cases hj
          obtain ⟨w, -, rfl⟩ := getElem?_modify_cases hu
          exact .inl (by rw [if_pos rfl])
        | aborts _ hpc => rcases hat with hat | hat <;> rw [hat] at hpc <;> cases hpc
        | _ hpc => rcases hat with hat | hat <;> rw [hpc] at hat <;> cases hat
      | task _ hs =>
        obtain ⟨pc, heq⟩ := taskStep_eq hs
        exact .inr (by rw [heq]; exact hat)
      | closing _ hs => cases hs <;> exact .inr hat
      | stopGoes _ hs => cases hs <;> exact .inr hat
      | stopDeadline _ hs => cases hs <;> exact .inr hat
      | _ => exact .inr hat
    · -- it is new, and the accept loop has spawned it
      rcases spawned_of_next hn hu (Nat.not_lt.mp hlt) with hup | haccept
      · rw [hup] at hbare
        cases hbare
      · exact .inr (.inl haccept.1)

theorem acceptAborted_of_next (hn : machine.next s e = some s') (h : s.acceptAborted = true) :
    s'.acceptAborted = true := by
  cases step_of_next hn with
  | accept hs => cases hs <;> exact h
  | task _ hs =>
    obtain ⟨pc, heq⟩ := taskStep_eq hs
    rw [heq]
    exact h
  | closing _ hs => cases hs <;> exact h
  | stopGoes _ hs => cases hs <;> exact h
  | stopDeadline _ hs =>
    cases hs with
    | others => exact h
    | loop => rfl
  | _ => exact h

/-- **Where the server has stopped no task passes its check.** -/
theorem unchecked_of_next (hcounted : s.Counted) (hstopped : s.stopped = true)
    (hn : machine.next s e = some s') (ht : s.tasks[k]? = some t) (hbare : t.upgrade = false)
    (hunchecked : t.pc.unchecked = true) (hu : s'.tasks[k]? = some u) : u.pc.unchecked = true := by
  by_cases hown : ∃ move, e = .task k move
  · obtain ⟨move, rfl⟩ := hown
    cases step_of_next hn with
    | task hv hs =>
      obtain rfl := Option.some.inj (ht.symm.trans hv)
      have moves : ∀ pc, s'.tasks = s.tasks.set k { t with pc := pc } → pc.unchecked = true →
          u.pc.unchecked = true := by
        intro pc htasks hpc
        rw [htasks, getElem?_set_self' ht] at hu
        obtain rfl := Option.some.inj hu
        exact hpc
      cases hs with
      | opens | matched | lost | shaken | turnedAway => exact moves _ rfl rfl
      | letIn _ hopen =>
        rw [hstopped] at hopen
        cases hopen
      | aborts _ hawaits =>
        refine moves _ (by rw [leaveHook_eq]; rfl) ?_
        cases hpc : t.pc <;> rw [hpc] at hunchecked hawaits <;> first | rfl | cases hunchecked
      | panics hhook =>
        cases hpc : t.pc <;> rw [hpc] at hunchecked hhook <;> first
          | exact absurd hhook Bool.false_ne_true
          | exact absurd hunchecked Bool.false_ne_true
      | counted hpc =>
        have hup := hcounted.sided k t ht true (by rw [hpc]; rfl)
        rw [hbare] at hup
        cases hup
      | _ hpc =>
        rw [hpc] at hunchecked
        cases hunchecked
  · obtain ⟨v, hv, -, hpc⟩ := task_of_next hn ht fun move hmove => hown ⟨move, hmove⟩
    obtain rfl := Option.some.inj (hu.symm.trans hv)
    rw [hpc]
    exact hunchecked

/-- **What a `stop` can rely on behind its deadline.** -/
structure Reaped (s : VcmpServer) : Prop where
  stopped : ∀ c, s.stop = some c → c.pc ≠ .filtering ∧ c.pc ≠ .storing ∧ c.pc ≠ .dropped →
    s.stopped = true
  /-- The accept loop was aborted, -/
  loop : ∀ c, s.stop = some c → c.pc = .reaping → c.caller = none → s.acceptAborted = true
  /-- or the other tasks were, but for those that will be turned away. -/
  others : ∀ c k, s.stop = some c → c.pc = .reaping → c.caller = some k →
    ∀ (j : ℕ) (t : ConnectionTask), s.tasks[j]? = some t → t.upgrade = false → j ≠ k →
      t.aborted = true ∨ t.pc.unchecked = true

/-- The deadline aborts what is entered, and what is not is before its gate. -/
theorem Tracked.aborts_or_unchecked (h : s.Tracked) (ht : s.tasks[k]? = some t)
    (hbare : t.upgrade = false) : k ∈ s.connections.tasks ∨ t.pc.unchecked = true := by
  by_cases hmem : k ∈ s.connections.tasks
  · exact .inl hmem
  · refine .inr ?_
    by_cases hgated : t.pc = .gated
    · rw [hgated]
      rfl
    · by_cases hended : t.pc = .ended
      · rw [hended]
        rfl
      · have hready := h.ready k t ht hbare hgated hended
        have hunjoined : t.joined = false := by
          by_contra hjoined
          exact hended (h.joined k t ht hbare (by simpa using hjoined))
        exact absurd ((h.entered k).mpr ⟨t, ht, hbare, h.told k t ht hbare hready, .inl hunjoined⟩) hmem

/-- Before the deadline. -/
theorem reaped_of_pc {d : StopCall} (hd : s'.stop = some d) (hne : d.pc ≠ .reaping)
    (hstopped : d.pc ≠ .filtering ∧ d.pc ≠ .storing ∧ d.pc ≠ .dropped → s'.stopped = true) :
    s'.Reaped := by
  constructor
  · intro c hc hpc
    obtain rfl := Option.some.inj (hd.symm.trans hc)
    exact hstopped hpc
  · intro c hc hpc
    obtain rfl := Option.some.inj (hd.symm.trans hc)
    exact absurd hpc hne
  · intro c k hc hpc
    obtain rfl := Option.some.inj (hd.symm.trans hc)
    exact absurd hpc hne

theorem Reaped.step (h : s.Reaped) (hr : machine.Reachable s) (hn : machine.next s e = some s') :
    s'.Reaped := by
  rcases stop_of_next hn with hsame | ⟨c, -, hdropped⟩ | ⟨-, awaiter, hbegins⟩ | ⟨c, hc, hs⟩ | ⟨c, hc, hs⟩
  · refine ⟨fun c hc hpc => stopped_of_next hn (h.stopped c (hsame ▸ hc) hpc),
      fun c hc hpc hnone => acceptAborted_of_next hn (h.loop c (hsame ▸ hc) hpc hnone),
      fun c k hc hpc hk j u hu hbare hj => ?_⟩
    rw [hsame] at hc
    have hstopped := h.stopped c hc (by rw [hpc]; simp)
    by_cases hlt : j < s.tasks.length
    · have ht := List.getElem?_eq_getElem hlt
      obtain ⟨v, hv, htold⟩ := told_of_next hn ht
      obtain rfl := Option.some.inj (hu.symm.trans hv)
      have hbare' := htold.upgrade.symm.trans hbare
      exact (h.others c k hc hpc hk j _ ht hbare' hj).imp htold.aborted fun hunchecked =>
        unchecked_of_next (counted_of_reachable hr) hstopped hn ht hbare' hunchecked hu
    · rcases spawned_of_next hn hu (Nat.not_lt.mp hlt) with hup | ⟨-, hgated⟩
      · rw [hup] at hbare
        cases hbare
      · exact .inr (by rw [hgated]; rfl)
  · exact reaped_of_pc hdropped (by simp) fun hpc => absurd rfl hpc.2.2
  · exact reaped_of_pc hbegins (by simp) fun hpc => absurd rfl hpc.1
  · have hstopped := h.stopped c hc
    cases hs with
    | filters => exact reaped_of_pc rfl (by simp) fun hpc => absurd rfl hpc.2.1
    | stores => exact reaped_of_pc rfl (by simp) fun _ => rfl
    | sends hpc | closed hpc => exact reaped_of_pc rfl (by simp) fun _ => hstopped (by rw [hpc]; simp)
    | returns hpc =>
      refine reaped_of_pc rfl (by simp) fun _ => hstopped ?_
      rcases hpc with hpc | hpc <;> rw [hpc] <;> simp
  · cases hs with
    | @others k hpc hcaller =>
      refine ⟨fun _ _ _ => h.stopped c hc (by rw [hpc]; simp), fun d hd _ hnone => ?_,
        fun d k' hd _ hk' j u hu hbare hj => ?_⟩
      · obtain rfl := Option.some.inj hd
        rw [hcaller] at hnone
        cases hnone
      · obtain rfl := Option.some.inj hd
        obtain rfl : k = k' := Option.some.inj (hcaller.symm.trans hk')
        obtain ⟨t, ht, rfl⟩ := abortAll_back hu
        refine ((tracked_of_reachable hr).aborts_or_unchecked ht hbare).imp_left fun hmem => ?_
        simp [hmem, hj]
    | loop hpc hcaller =>
      refine ⟨fun _ _ _ => h.stopped c hc (by rw [hpc]; simp), fun _ _ _ _ => rfl, fun d k hd _ hk => ?_⟩
      obtain rfl := Option.some.inj hd
      rw [hcaller] at hk
      cases hk

theorem reaped_of_reachable (h : machine.Reachable s) : s.Reaped := by
  have hinit : ∀ s, machine.init s → s.Reaped := by
    rintro s ⟨n, rfl⟩
    constructor <;> simp
  exact h.invariant_of hinit fun s e s' hr _ hn hs => hs.step hr hn

/-! ## What can go on -/

/-- The steps of the server's own, and the end of a session that was closed. -/
def Event.inner : Event → Bool
  | .accept .accepts | .accept .errs => false
  | .accept _ | .task _ _ | .closing _ | .stopGoes | .stopDeadline | .finish _ => true
  | _ => false

/-- **Such a step that brings the `stop` nearer its end**, and does not drop it. -/
def Nearer (s : VcmpServer) : Prop :=
  ∃ e s' d, e.inner = true ∧ machine.next s e = some s' ∧ s'.stop = some d ∧ d.pc ≠ .dropped ∧
    s'.rank < s.rank

theorem nearer_of_next {d : StopCall} (hr : machine.Reachable s) (hn : machine.next s e = some s')
    (hinner : e.inner = true) (hserves : s.serves e = 1) (hd : s'.stop = some d) (hpc : d.pc ≠ .dropped) :
    s.Nearer := by
  have hle := rank_step hr hn
  have hbrings : e.brings = 0 := by
    cases e with
    | accept move => cases move <;> first | rfl | cases hinner
    | onUpgrade | endpoint | stop => cases hinner
    | _ => rfl
  exact ⟨e, s', d, hinner, hn, hd, hpc, by omega⟩

/-- A hook that no `stop` is awaited in. -/
theorem leaveHook_of_ne (h : ∀ c, s.stop = some c → c.awaiter ≠ some k) : s.leaveHook k = s := by
  unfold leaveHook
  split
  · rename_i c hc
    rw [if_neg fun hand => h c hc hand.1]
  · rfl

/-- **What keeps a task from going on**: it has ended, it was not told to begin,
or its session has not closed. -/
theorem exists_taskNext (hne : ∀ c, s.stop = some c → c.awaiter ≠ some k) (hended : t.pc ≠ .ended)
    (hgated : t.pc = .gated → t.ready = true)
    (hserving : ∀ i c, t.pc = .serving i c → t.aborted = true) :
    ∃ move s', s.taskNext k t move = some s' ∧ s'.stop = s.stop := by
  have left : ∀ v, ((s.setTask k v).leaveHook k).stop = s.stop := by
    intro v
    rw [leaveHook_of_ne (s := s.setTask k v) hne]
    rfl
  have goes : ∀ (move : TaskMove) (pc : TaskPc),
      s.taskNext k t move = some (s.setTask k { t with pc := pc }) →
      ∃ move s', s.taskNext k t move = some s' ∧ s'.stop = s.stop :=
    fun move _ hs => ⟨move, _, hs, rfl⟩
  cases hpc : t.pc with
  | gated => exact goes .goes .handshaking (by simp [taskNext, hpc, hgated hpc])
  | handshaking => exact goes .fails .ended (by simp [taskNext, hpc])
  | responding i => exact goes .fails .ended (by simp [taskNext, hpc])
  | checking i =>
    by_cases hstopped : s.stopped = true
    · exact goes .goes .ended (by simp [taskNext, hpc, hstopped])
    · exact goes .goes (.starting i) (by simp [taskNext, hpc, hstopped])
  | reserved i =>
    exact ⟨.goes, (s.setTask k { t with pc := .upgrading i }).beginUpgrade i, by simp [taskNext, hpc], rfl⟩
  | upgrading i =>
    exact ⟨.fails, (s.setTask k { t with pc := .ended }).dropPending t.pending, by simp [taskNext, hpc],
      by rw [dropPending_eq]; rfl⟩
  | starting i =>
    exact ⟨.goes, { s.setTask k { t with pc := .inserting i s.sessions.length } with
      sessions := s.sessions ++ [{ endpoint := i, task := k }] }, by simp [taskNext, hpc], rfl⟩
  | inserting i c =>
    exact ⟨.goes, (s.setTask k { t with
      pc := if t.upgrade then .releasing i c else .preparing i c }).insert i c,
      by simp [taskNext, hpc], rfl⟩
  | releasing i c =>
    exact ⟨.goes, (s.setTask k { t with pc := .preparing i c }).dropPending t.pending,
      by simp [taskNext, hpc], by rw [dropPending_eq]; rfl⟩
  | preparing i c => exact goes (.prepare false true) (.serving i c) (by simp [taskNext, hpc])
  | hooking i c =>
    exact ⟨.hookEnds, (s.setTask k { t with pc := .serving i c }).leaveHook k,
      by simp [taskNext, hpc], left _⟩
  | serving i c =>
    exact ⟨.aborts, (s.setTask k { t with pc := t.pc.unwound }).leaveHook k,
      by simp [taskNext, hserving i c hpc, hpc, TaskPc.awaits], left _⟩
  | removing i c =>
    exact ⟨.goes, (s.setTask k { t with pc := .deciding i c }).remove i c, by simp [taskNext, hpc], rfl⟩
  | deciding i c => exact goes (.decide false) (.cleaning i c) (by simp [taskNext, hpc])
  | notifying i c =>
    exact ⟨.hookEnds, (s.setTask k { t with pc := .cleaning i c }).leaveHook k,
      by simp [taskNext, hpc], left _⟩
  | cleaning i c =>
    exact ⟨.goes, (s.setTask k { t with pc := .unlisting i c }).closeSession c,
      by simp [taskNext, hpc], rfl⟩
  | unlisting i c =>
    exact ⟨.goes, (s.setTask k { t with pc := .ended }).remove i c, by simp [taskNext, hpc], rfl⟩
  | ended => exact absurd hpc hended

theorem nearer_of_task (hr : machine.Reachable s) (hc : s.stop = some c) (hnot : c.pc ≠ .dropped)
    (ht : s.tasks[k]? = some t) (hne : c.awaiter ≠ some k) (hended : t.pc ≠ .ended)
    (hgated : t.pc = .gated → t.ready = true)
    (hserving : ∀ i c, t.pc = .serving i c → t.aborted = true) : s.Nearer := by
  have hnone : ∀ d, s.stop = some d → d.awaiter ≠ some k := by
    intro d hd
    obtain rfl := Option.some.inj (hc.symm.trans hd)
    exact hne
  obtain ⟨move, s', hs', hstop⟩ := exists_taskNext hnone hended hgated hserving
  have hn : machine.next s (.task k move) = some s' := by
    change (s.tasks[k]?.bind fun t => s.taskNext k t move) = some s'
    rw [ht]
    exact hs'
  exact nearer_of_next hr hn rfl rfl (hstop.trans hc) hnot

/-- The accept loop goes on to its drain by itself, and ends where it was aborted. -/
theorem nearer_of_accept (hr : machine.Reachable s) (hc : s.stop = some c) (hnot : c.pc ≠ .dropped)
    (hended : s.accept ≠ .ended)
    (hsent : s.acceptAborted = true ∨ s.stopSent = true ∧ s.accept ≠ .draining) : s.Nearer := by
  have goes : ∀ move s', move ≠ .accepts → move ≠ .errs → s.acceptNext move = some s' → s.Nearer := by
    intro move s' hno hne hs'
    have hstop : s'.stop = s.stop := by cases acceptStep_of_next hs' <;> rfl
    refine nearer_of_next (e := .accept move) hr hs' ?_ ?_ (hstop.trans hc) hnot
    · cases move <;> first | rfl | exact absurd rfl hno | exact absurd rfl hne
    · cases move <;> first | rfl | exact absurd rfl hno | exact absurd rfl hne
  by_cases hsuspended : s.accept.suspended = true
  · rcases hsent with haborted | ⟨hsent, hdraining⟩
    · exact goes .aborts _ (by simp) (by simp) (by
        simp only [acceptNext, haborted, hsuspended, and_self, if_true]; rfl)
    · cases hpc : s.accept with
      | selecting => exact goes .stopSeen _ (by simp) (by simp) (by
          simp only [acceptNext, hpc, hsent, if_true]; rfl)
      | sleeping => exact goes .wakes _ (by simp) (by simp) (by simp only [acceptNext, hpc]; rfl)
      | draining => exact absurd hpc hdraining
      | _ =>
        rw [hpc] at hsuspended
        cases hsuspended
  · cases hpc : s.accept with
    | selecting | sleeping | draining =>
      rw [hpc] at hsuspended
      exact absurd rfl hsuspended
    | ended => exact absurd hpc hended
    | _ => exact goes .goes _ (by simp) (by simp) (by simp only [acceptNext, hpc]; rfl)

/-! ## Where the `stop` waits -/

theorem nearer_of_stopGoes {d : StopCall} (hr : machine.Reachable s) (hc : s.stop = some c)
    (hs : s.stopNext c = some s') (hd : s'.stop = some d) (hpc : d.pc ≠ .dropped) : s.Nearer := by
  refine nearer_of_next (e := .stopGoes) hr ?_ rfl rfl hd hpc
  change s.stop.bind s.stopNext = some s'
  rw [hc]
  exact hs

/-- **Its call can go on**, or what the call waits for can. -/
theorem nearer_of_closing (hr : machine.Reachable s) (hc : s.stop = some c) (hpc : c.pc = .closing) :
    s.Nearer := by
  obtain ⟨q, pc, hcall, hq, hnot⟩ := (called_of_reachable hr).called c hc hpc
  have hne : c.pc ≠ .dropped := by rw [hpc]; simp
  have hours : s.stopCall = some q := by simp [stopCall, hc, hcall]
  have hsound : s.Sound pc := closingAt_of_getElem? hq ▸ sound_closingAt hr q
  have goes : ∀ s', s.closingNext q pc = some s' → s.Nearer := by
    intro s' hs'
    have hn : machine.next s (.closing q) = some s' := by
      change (s.closings[q]?.bind fun pc => s.closingNext q pc) = some s'
      rw [hq]
      exact hs'
    have hstop : s'.stop = s.stop := by cases closingStep_of_next hs' <;> rfl
    exact nearer_of_next hr hn rfl (by simp [serves, hours]) (hstop.trans hc) hne
  cases pc with
  | listing => exact goes _ rfl
  | waiting n i =>
    by_cases hi : i < n
    · have hlt : i < s.endpoints.length := Nat.lt_of_lt_of_le hi hsound
      have hp := List.getElem?_eq_getElem hlt
      by_cases hzero : s.endpoints[i].pendingUpgrades = 0
      · exact goes _ (by simp only [closingNext, if_pos hi, hp, Option.map_some, hzero, if_true]; rfl)
      · -- a task holds a `PendingUpgrade` of the endpoint
        have hcount := (counted_of_reachable hr).counter i _ hp
        obtain ⟨t, hmem, hholds⟩ : ∃ t ∈ s.tasks, t.holds i ≠ 0 := by
          by_contra hall
          push Not at hall
          exact hzero (hcount.trans (total_eq_zero hall))
        obtain ⟨k, ht⟩ := List.getElem?_of_mem hmem
        have hpending : t.pending = some i := by
          by_contra hnone
          exact hholds (by simp [ConnectionTask.holds, hnone])
        have hholding : t.pc.pending = some i := by
          unfold ConnectionTask.pending at hpending
          split at hpending
          · exact hpending
          · cases hpending
        have hplain : t.pc.inHook = false ∧ t.pc ≠ .ended ∧ t.pc ≠ .gated ∧
            ∀ i c, t.pc ≠ .serving i c := by
          cases hat : t.pc <;> rw [hat] at hholding <;> first | simp [TaskPc.inHook]; done | cases hholding
        refine nearer_of_task hr hc hne ht (fun hawaits => ?_) hplain.2.1
          (fun hgated => absurd hgated hplain.2.2.1) fun i c hserving => absurd hserving (hplain.2.2.2 i c)
        rcases (stopping_of_reachable hr).hook c k hc hawaits with hret | hdrop | hin
        · rw [hpc] at hret
          cases hret
        · exact hne hdrop
        · obtain ⟨u, hu, hhook⟩ := inHook_iff.mp hin
          obtain rfl := Option.some.inj (ht.symm.trans hu)
          rw [hplain.1] at hhook
          cases hhook
    · exact goes _ (by simp only [closingNext, if_neg hi]; rfl)
  | collecting n i sessions =>
    by_cases hi : i < n
    · have hp := List.getElem?_eq_getElem (Nat.lt_of_lt_of_le hi hsound.1)
      exact goes _ (by simp only [closingNext, if_pos hi, hp, Option.map_some]; rfl)
    · exact goes _ (by simp only [closingNext, if_neg hi]; rfl)
  | closing sessions left =>
    cases left with
    | nil => exact goes _ rfl
    | cons d left => exact goes _ rfl
  | awaiting sessions left =>
    cases left with
    | nil => exact goes _ rfl
    | cons d left =>
      obtain ⟨x, hx, hno⟩ := hsound d List.mem_cons_self
      by_cases hclosed : x.closed = true
      · exact goes _ (by simp only [closingNext, hx, Option.map_some, hclosed, if_true]; rfl)
      · -- it was closed, and its `closed()` resolves
        have hn : machine.next s (.finish d) = some { s with
            sessions := s.sessions.modify d fun x => { x with closed := true } } := by
          change (if (s.sessions[d]?.map ServedSession.isOpen) = some false then _ else _) = _
          rw [hx, if_pos (by simp [hno])]
        exact ⟨.finish d, _, c, rfl, hn, hc, hne, rank_finish hx (by simpa using hclosed)⟩
  | returned sessions =>
    have hs : s.stopNext c = some { s with stop := some { c with pc := .waiting } } := by
      simp [stopNext, hpc, hcall, hq]
    exact nearer_of_stopGoes hr hc hs rfl (by simp)
  | dropped => exact absurd rfl hnot

/-- Its deadline passes. -/
theorem nearer_of_waiting (hr : machine.Reachable s) (hc : s.stop = some c) (hpc : c.pc = .waiting) :
    s.Nearer := by
  have goes : ∀ s', s.deadlineNext c = some s' → s'.stop = some { c with pc := .reaping } → s.Nearer := by
    intro s' hs' hstop
    refine nearer_of_next (e := .stopDeadline) hr ?_ rfl rfl hstop (by simp)
    change s.stop.bind s.deadlineNext = some s'
    rw [hc]
    exact hs'
  cases hcaller : c.caller with
  | none =>
    exact goes { s with acceptAborted := true, stop := some { c with pc := .reaping } }
      (by simp [deadlineNext, hpc, hcaller]) rfl
  | some k =>
    exact goes { s.abortAll (fun j _ => j ∈ s.connections.tasks && j ≠ k) with
      stop := some { c with pc := .reaping } } (by simp [deadlineNext, hpc, hcaller]) rfl

/-- **Behind its deadline what was aborted ends**, and what was not is turned away. -/
theorem nearer_of_reaping (hr : machine.Reachable s) (hc : s.stop = some c) (hpc : c.pc = .reaping) :
    s.Nearer := by
  have hstopping := stopping_of_reachable hr
  have htracked := tracked_of_reachable hr
  have hreaped := reaped_of_reachable hr
  have hne : c.pc ≠ .dropped := by rw [hpc]; simp
  have returns : s.quiet c = true → s.Nearer := by
    intro hquiet
    have hs : s.stopNext c = some { s with stop := some { c with pc := .returned } } := by
      simp [stopNext, hpc, hquiet]
    exact nearer_of_stopGoes hr hc hs rfl (by simp)
  cases hcaller : c.caller with
  | none =>
    by_cases hended : s.accept = .ended
    · exact returns (by simp [quiet, hcaller, hended])
    · exact nearer_of_accept hr hc hne hended (.inl (hreaped.loop c hc hpc hcaller))
  | some k =>
    have hended := hstopping.not_ended htracked hc hcaller (by rw [hpc]; simp)
    have hsent := hstopping.sent c hc (.inr (.inr hpc))
    by_cases hdraining : s.accept = .draining
    · by_cases hall : ∀ j ∈ s.connections.tasks, j = k
      · have hfinished := finishedExcept_iff.mpr ⟨accepting_of_draining hr (.inl hdraining), hall⟩
        exact returns (by simp [quiet, hcaller, hfinished])
      · push Not at hall
        obtain ⟨j, hmem, hj⟩ := hall
        obtain ⟨t, ht, hbare, hunjoined⟩ := (htracked.of_suspended (by rw [hdraining]; rfl) j).mp hmem
        by_cases hover : t.pc = .ended
        · have hn : machine.next s (.accept (.joins j)) = some { s with
              tasks := s.tasks.modify j (fun t => { t with joined := true }), accept := .drained j } := by
            simp [machine, next, acceptNext, hdraining, ht, hbare, hunjoined, hover]
          exact nearer_of_next hr hn rfl rfl hc hne
        · have hawaiter := (hstopping.caller c k hc hcaller).1
          refine nearer_of_task hr hc hne ht ?_ hover (fun hgated => ?_) fun i d hserving => ?_
          · rw [hawaiter]
            exact fun heq => hj (Option.some.inj heq).symm
          · refine (ready_of_reachable hr ht hbare).resolve_right ?_
            rw [hdraining]
            simp
          · refine (hreaped.others c k hc hpc hcaller j t ht hbare hj).resolve_right ?_
            rw [hserving]
            exact Bool.false_ne_true
    · exact nearer_of_accept hr hc hne hended (.inr ⟨hsent, hdraining⟩)

/-- **A `stop` that has not returned comes nearer its end.** -/
theorem nearer_of_reachable (hr : machine.Reachable s) (hc : s.stop = some c) (hnot : c.pc ≠ .returned)
    (hne : c.pc ≠ .dropped) : s.Nearer := by
  cases hpc : c.pc with
  | filtering => exact nearer_of_stopGoes hr hc (by simp only [stopNext, hpc]; rfl) rfl (by simp)
  | storing => exact nearer_of_stopGoes hr hc (by simp only [stopNext, hpc]; rfl) rfl (by simp)
  | sending => exact nearer_of_stopGoes hr hc (by simp only [stopNext, hpc]; rfl) rfl (by simp)
  | closing => exact nearer_of_closing hr hc hpc
  | waiting => exact nearer_of_waiting hr hc hpc
  | reaping => exact nearer_of_reaping hr hc hpc
  | returned => exact absurd hpc hnot
  | dropped => exact absurd hpc hne

/-! ## Every run -/

/-- Nothing takes a `stop` away. -/
theorem stop_stays (hn : machine.next s e = some s') (hc : s.stop = some c) : ∃ d, s'.stop = some d := by
  rcases stop_of_next hn with hsame | ⟨d, -, hdropped⟩ | ⟨hnone, -⟩ | ⟨d, -, hs⟩ | ⟨d, -, hs⟩
  · exact ⟨c, hsame.trans hc⟩
  · exact ⟨_, hdropped⟩
  · rw [hc] at hnone
    cases hnone
  · cases hs <;> exact ⟨_, rfl⟩
  · cases hs <;> exact ⟨_, rfl⟩

/-- **A `stop` comes to its end.** From any state in which one was called,
whatever comes from outside meanwhile, the steps that bring it on are no
more than `rank` says, but for what each accept error and each connection,
upgrade and endpoint that is added costs; and until it has returned, or was dropped with the
hook it is awaited in, one of the server's own steps brings it nearer. So
where it is not dropped some run of these returns, and none goes on for ever. -/
theorem stop_returns (h : machine.Reachable s) (hc : s.stop = some c) :
    (∀ es t, machine.run s es = some t →
      machine.cost serves s es + t.rank ≤ s.rank + total Event.brings es ∧
        ∃ d, t.stop = some d ∧ (d.pc = .returned ∨ d.pc = .dropped ∨ t.Nearer)) ∧
    (c.pc ≠ .dropped → ∃ es t d, machine.run s es = some t ∧ (∀ e ∈ es, e.inner = true) ∧
      t.stop = some d ∧ d.pc = .returned ∧ es.length ≤ s.rank) := by
  constructor
  · intro es t hrun
    obtain ⟨⟨hreach, d, hd⟩, hle⟩ := Machine.cost_le
      (P := fun s => machine.Reachable s ∧ ∃ d, s.stop = some d) rank serves Event.brings
      (fun s e s' hs hn => ⟨⟨hs.1.step trivial hn, hs.2.elim fun _ hd => stop_stays hn hd⟩,
        rank_step hs.1 hn⟩) ⟨h, c, hc⟩ hrun
    refine ⟨hle, d, hd, ?_⟩
    by_cases hret : d.pc = .returned
    · exact .inl hret
    · by_cases hdropped : d.pc = .dropped
      · exact .inr (.inl hdropped)
      · exact .inr (.inr (nearer_of_reachable hreach hd hret hdropped))
  · intro hne
    obtain ⟨es, t, hrun, hinner, ⟨d, hd, hret⟩, hlength⟩ := Machine.exists_run_of_rank
      (P := fun s => machine.Reachable s ∧ ∃ d, s.stop = some d ∧ d.pc ≠ .dropped) rank
      (fun e : Event => e.inner = true) (fun t => ∃ d, t.stop = some d ∧ d.pc = .returned)
      (fun s hs => by
        obtain ⟨hr, d, hd, hne⟩ := hs
        by_cases hret : d.pc = .returned
        · exact .inl ⟨d, hd, hret⟩
        · obtain ⟨e, s', d', hinner, hn, hd', hne', hlt⟩ := nearer_of_reachable hr hd hret hne
          exact .inr ⟨e, s', hinner, hn, ⟨hr.step trivial hn, d', hd', hne'⟩, hlt⟩)
      (s := s) ⟨h, c, hc, hne⟩
    exact ⟨es, t, d, hrun, hinner, hd, hret, hlength⟩

/-- A connection stops the server in its `on_connected` hook, while another
is served and an upgrade was accepted. -/
def busyStop : List Event := List.flatten [
  accepted 0, List.replicate 3 (.task 0 .goes), [.task 0 (.prepare true true)],
  accepted 1, List.replicate 3 (.task 1 .goes), [.task 1 (.prepare false true)],
  [.onUpgrade 0 true, .task 2 .goes, .stop (some 0)]]

theorem stop_returns_busyStop : ∃ s,
    machine.run { endpoints := List.replicate 1 {} } busyStop = some s ∧
      s.tasks.map ConnectionTask.pc = [.hooking 0 0, .serving 0 1, .upgrading 0] ∧
      ∃ es t d, machine.run s es = some t ∧ (∀ e ∈ es, e.inner = true) ∧ t.stop = some d ∧
        d.pc = .returned ∧ es.length ≤ 55 := by
  have hrun : (machine.run { endpoints := List.replicate 1 {} } busyStop).any (fun s =>
      decide (s.tasks.map ConnectionTask.pc = [.hooking 0 0, .serving 0 1, .upgrading 0] ∧
        s.rank = 55 ∧ s.stop = some { awaiter := some 0 })) = true := by
    decide +kernel
  obtain ⟨s, hs, hend⟩ := Machine.exists_of_run hrun
  obtain ⟨htasks, hrank, hstop⟩ := of_decide_eq_true hend
  obtain ⟨-, hreturns⟩ := stop_returns (Machine.reachable_of_run ⟨1, rfl⟩ hs) hstop
  obtain ⟨es, t, d, hes⟩ := hreturns (by simp)
  exact ⟨s, hs, htasks, es, t, d, hrank ▸ hes⟩

end VcmpServer

end Vcmp
