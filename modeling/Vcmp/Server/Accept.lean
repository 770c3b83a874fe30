import Vcmp.Server.Step
/-!
# The accept loop and its tasks

A task is entered before it is told to go on and taken out behind its
joining, so at the await points of the accept loop exactly the tasks that
were spawned and not joined are entered, and whatever runs is. The
listener is gone before that is told, and nothing is spawned behind it.
-/

namespace Vcmp

/-- Behind the loop, where the listener is gone. -/
def AcceptPc.unlistening : AcceptPc → Bool
  | .announcing | .draining | .drained _ | .ended => true
  | _ => false

/-- Behind the telling of that. -/
def AcceptPc.last : AcceptPc → Bool
  | .draining | .drained _ | .ended => true
  | _ => false

namespace VcmpServer

variable {s s' : VcmpServer} {k : ℕ} {t u : ConnectionTask} {e : Event}

/-- **What the accept loop knows of its tasks.** -/
structure Tracked (s : VcmpServer) : Prop where
  entered : ∀ k, k ∈ s.connections.tasks ↔ ∃ t : ConnectionTask, s.tasks[k]? = some t ∧
    t.upgrade = false ∧ s.accept.fresh ≠ some k ∧ (t.joined = false ∨ s.accept.recording = some k)
  fresh : ∀ k, s.accept.fresh = some k → ∃ t : ConnectionTask, s.tasks[k]? = some t ∧
    t.upgrade = false ∧ t.joined = false
  recording : ∀ k, s.accept.recording = some k → ∃ t : ConnectionTask, s.tasks[k]? = some t ∧
    t.upgrade = false ∧ t.joined = true
  /-- A task that runs was told to, -/
  ready : ∀ (k : ℕ) (t : ConnectionTask), s.tasks[k]? = some t → t.upgrade = false →
    t.pc ≠ .gated → t.pc ≠ .ended → t.ready = true
  /-- and was entered before that. -/
  told : ∀ (k : ℕ) (t : ConnectionTask), s.tasks[k]? = some t → t.upgrade = false →
    t.ready = true → s.accept.fresh ≠ some k
  joined : ∀ (k : ℕ) (t : ConnectionTask), s.tasks[k]? = some t → t.upgrade = false →
    t.joined = true → t.pc = .ended
  listener : s.accept.unlistening = true → s.listener = false
  accepting : s.connections.accepting = false → s.accept.last = true
  ended : s.accept = .ended → s.acceptAborted = true ∨
    ∀ (k : ℕ) (t : ConnectionTask), s.tasks[k]? = some t → t.upgrade = false → t.joined = true

theorem tracked_start (n : ℕ) : Tracked { endpoints := List.replicate n {} } := by
  constructor <;> simp [AcceptPc.fresh, AcceptPc.recording, AcceptPc.unlistening]

/-! ## The steps of the others -/

/-- What the others make of a task. -/
structure Kept (t u : ConnectionTask) : Prop where
  upgrade : u.upgrade = t.upgrade
  joined : u.joined = t.joined
  ready : u.ready = t.ready
  moves : u.pc = t.pc ∨ t.pc ≠ .ended ∧ (t.pc = .gated → t.ready = true ∨ u.pc = .ended)

theorem Kept.refl (t : ConnectionTask) : Kept t t := ⟨rfl, rfl, rfl, .inl rfl⟩

/-- **Where the accept loop does not move** it goes on knowing what it knew. -/
theorem Tracked.of_tasks (h : s.Tracked) (haccept : s'.accept = s.accept)
    (hconnections : s'.connections = s.connections) (hlistener : s'.listener = s.listener)
    (haborted : s.acceptAborted = true → s'.acceptAborted = true)
    (hback : ∀ (k : ℕ) (u : ConnectionTask), s'.tasks[k]? = some u →
      u.upgrade = true ∨ ∃ t, s.tasks[k]? = some t ∧ Kept t u)
    (hforth : ∀ (k : ℕ) (t : ConnectionTask), s.tasks[k]? = some t →
      ∃ u, s'.tasks[k]? = some u ∧ Kept t u) : s'.Tracked where
  entered := by
    intro k
    rw [hconnections, h.entered, haccept]
    constructor
    · rintro ⟨t, ht, hbare, hfresh, hjoined⟩
      obtain ⟨u, hu, hkept⟩ := hforth k t ht
      exact ⟨u, hu, hkept.upgrade.trans hbare, hfresh, hjoined.imp_left hkept.joined.trans⟩
    · rintro ⟨u, hu, hbare, hfresh, hjoined⟩
      rcases hback k u hu with hup | ⟨t, ht, hkept⟩
      · rw [hup] at hbare
        cases hbare
      · exact ⟨t, ht, hkept.upgrade.symm.trans hbare, hfresh, hjoined.imp_left hkept.joined.symm.trans⟩
  fresh := by
    intro k hk
    obtain ⟨t, ht, hbare, hjoined⟩ := h.fresh k (haccept ▸ hk)
    obtain ⟨u, hu, hkept⟩ := hforth k t ht
    exact ⟨u, hu, hkept.upgrade.trans hbare, hkept.joined.trans hjoined⟩
  recording := by
    intro k hk
    obtain ⟨t, ht, hbare, hjoined⟩ := h.recording k (haccept ▸ hk)
    obtain ⟨u, hu, hkept⟩ := hforth k t ht
    exact ⟨u, hu, hkept.upgrade.trans hbare, hkept.joined.trans hjoined⟩
  ready := by
    intro k u hu hbare hgated hended
    rcases hback k u hu with hup | ⟨t, ht, hkept⟩
    · rw [hup] at hbare
      cases hbare
    · rw [hkept.ready]
      have hbare' := hkept.upgrade.symm.trans hbare
      rcases hkept.moves with hsame | ⟨hne, hmoves⟩
      · exact h.ready k t ht hbare' (hsame ▸ hgated) (hsame ▸ hended)
      · by_cases hpc : t.pc = .gated
        · exact (hmoves hpc).resolve_right hended
        · exact h.ready k t ht hbare' hpc hne
  told := by
    intro k u hu hbare hready
    rcases hback k u hu with hup | ⟨t, ht, hkept⟩
    · rw [hup] at hbare
      cases hbare
    · rw [haccept]
      exact h.told k t ht (hkept.upgrade.symm.trans hbare) (hkept.ready.symm.trans hready)
  joined := by
    intro k u hu hbare hjoined
    rcases hback k u hu with hup | ⟨t, ht, hkept⟩
    · rw [hup] at hbare
      cases hbare
    · have hended := h.joined k t ht (hkept.upgrade.symm.trans hbare) (hkept.joined.symm.trans hjoined)
      rcases hkept.moves with hsame | ⟨hne, -⟩
      · exact hsame.trans hended
      · exact absurd hended hne
  listener hl := hlistener.trans (h.listener (haccept ▸ hl))
  accepting ha := haccept.symm ▸ h.accepting (hconnections ▸ ha)
  ended := by
    intro hend
    refine (h.ended (haccept ▸ hend)).imp haborted fun hall k u hu hbare => ?_
    rcases hback k u hu with hup | ⟨t, ht, hkept⟩
    · rw [hup] at hbare
      cases hbare
    · exact hkept.joined.trans (hall k t ht (hkept.upgrade.symm.trans hbare))

/-- Where the tasks stay as they are. -/
theorem Tracked.same (h : s.Tracked) (haccept : s'.accept = s.accept)
    (hconnections : s'.connections = s.connections) (hlistener : s'.listener = s.listener)
    (haborted : s.acceptAborted = true → s'.acceptAborted = true) (htasks : s'.tasks = s.tasks) :
    s'.Tracked :=
  h.of_tasks haccept hconnections hlistener haborted
    (fun _ u hu => .inr ⟨u, htasks ▸ hu, .refl u⟩) fun _ t ht => ⟨t, htasks.symm ▸ ht, .refl t⟩

/-- Where a task moves, it does not come from its end, and to go on it was told. -/
theorem taskStep_kept {move : TaskMove} (ht : s.tasks[k]? = some t) (h : TaskStep s k t move s')
    (hu : s'.tasks[k]? = some u) : Kept t u := by
  have hset : ∀ v : ConnectionTask, (s.tasks.set k v)[k]? = some u → v = u := by
    intro v hv
    rwa [getElem?_set_self' ht, Option.some.injEq] at hv
  have hleave : ∀ v, ((s.setTask k v).leaveHook k).tasks = s.tasks.set k v :=
    fun v => by rw [leaveHook_eq]; rfl
  have hdrop : ∀ v o, ((s.setTask k v).dropPending o).tasks = s.tasks.set k v :=
    fun v o => by rw [dropPending_eq]; rfl
  have hmoves : ∀ pc, { t with pc := pc } = u → t.pc ≠ .ended →
      (t.pc = .gated → t.ready = true ∨ u.pc = .ended) → Kept t u := by
    rintro pc rfl hne hgated
    exact ⟨rfl, rfl, rfl, .inr ⟨hne, hgated⟩⟩
  cases h with
  | opens hpc hready => exact hmoves _ (hset _ hu) (by rw [hpc]; simp) fun _ => .inl hready
  | lost hpc =>
    have heq := hset _ hu
    refine hmoves _ heq ?_ fun _ => .inr (by rw [← heq])
    rcases hpc with hpc | ⟨i, hpc⟩ <;> rw [hpc] <;> simp
  | failed hpc | released hpc =>
    rw [hdrop] at hu
    exact hmoves _ (hset _ hu) (by rw [hpc]; simp) fun hg => (by rw [hpc] at hg; cases hg)
  | hookEnds hpc | notified hpc =>
    rw [hleave] at hu
    exact hmoves _ (hset _ hu) (by rw [hpc]; simp) fun hg => (by rw [hpc] at hg; cases hg)
  | aborts _ hawaits =>
    rw [hleave] at hu
    have heq := hset _ hu
    refine hmoves _ heq (fun hend => by rw [hend] at hawaits; cases hawaits) fun hg => .inr ?_
    rw [← heq]
    simp [hg, TaskPc.unwound]
  | panics hhook =>
    rw [hleave] at hu
    have hne : t.pc ≠ .gated := fun hg => by rw [hg] at hhook; cases hhook
    exact hmoves _ (hset _ hu) (fun hend => by rw [hend] at hhook; cases hhook) fun hg => absurd hg hne
  | _ hpc => exact hmoves _ (hset _ hu) (by rw [hpc]; simp) fun hg => (by rw [hpc] at hg; cases hg)

theorem Tracked.task (h : s.Tracked) {move : TaskMove} (ht : s.tasks[k]? = some t)
    (hs : TaskStep s k t move s') : s'.Tracked := by
  obtain ⟨pc, heq⟩ := taskStep_eq hs
  have htasks : s'.tasks = s.tasks.set k { t with pc := pc } := by rw [heq]
  refine h.of_tasks (by rw [heq]) (by rw [heq]) (by rw [heq]) (fun ha => by rw [heq]; exact ha)
    (fun j u hu => .inr ?_) fun j v hv => ?_
  · by_cases hj : j = k
    · subst hj
      exact ⟨t, ht, taskStep_kept ht hs hu⟩
    · rw [htasks, List.getElem?_set_ne (Ne.symm hj)] at hu
      exact ⟨u, hu, .refl u⟩
  · by_cases hj : j = k
    · subst hj
      obtain rfl := Option.some.inj (ht.symm.trans hv)
      have hu : s'.tasks[j]? = some { t with pc := pc } := by rw [htasks]; exact getElem?_set_self' ht
      exact ⟨_, hu, taskStep_kept ht hs hu⟩
    · refine ⟨v, ?_, .refl v⟩
      rw [htasks, List.getElem?_set_ne (Ne.symm hj)]
      exact hv

/-! ## The steps of the accept loop -/

/-- A task before its `ready` was sent, or before it was joined. -/
theorem tasks_modify {g : ConnectionTask → ConnectionTask} {j : ℕ}
    (hu : (s.tasks.modify k g)[j]? = some u) :
    ∃ t, s.tasks[j]? = some t ∧ (j = k → u = g t) ∧ (j ≠ k → u = t) := by
  obtain ⟨t, ht, rfl⟩ := getElem?_modify_cases hu
  refine ⟨t, ht, fun hj => by rw [if_pos hj.symm], fun hj => by rw [if_neg (Ne.symm hj)]⟩

theorem tasks_of_modify (g : ConnectionTask → ConnectionTask) {j : ℕ} (ht : s.tasks[j]? = some t) :
    (s.tasks.modify k g)[j]? = some (if k = j then g t else t) := by
  simp [List.getElem?_modify, ht]

/-- The accept loop goes to another place, and only that and the listener change. -/
theorem Tracked.goTo (h : s.Tracked) {pc : AcceptPc} {listener : Bool}
    (hfresh : pc.fresh = s.accept.fresh) (hrecording : pc.recording = s.accept.recording)
    (hlistener : pc.unlistening = true → listener = false)
    (hlast : s.accept.last = true → pc.last = true) (hend : pc ≠ .ended) :
    Tracked { s with accept := pc, listener := listener } where
  entered := by simpa only [hfresh, hrecording] using h.entered
  fresh := by simpa only [hfresh] using h.fresh
  recording := by simpa only [hrecording] using h.recording
  ready := h.ready
  told := by simpa only [hfresh] using h.told
  joined := h.joined
  listener := hlistener
  accepting ha := hlast (h.accepting ha)
  ended he := absurd he hend

/-- **A connection is accepted**: its task is spawned and not entered. -/
theorem Tracked.accepts (h : s.Tracked) (hpc : s.accept = .selecting) : Tracked { s with
    tasks := s.tasks ++ [{ upgrade := false, pc := .gated }], accept := .entering s.tasks.length } := by
  have hold : ∀ (j : ℕ) (v : ConnectionTask), s.tasks[j]? = some v →
      (s.tasks ++ [{ upgrade := false, pc := .gated }])[j]? = some v ∧ j ≠ s.tasks.length := by
    intro j v hv
    have hlt := (List.getElem?_eq_some_iff.mp hv).1
    exact ⟨by rw [List.getElem?_append_left hlt, hv], by omega⟩
  refine
    { entered := fun j => ?_, fresh := fun j hj => ?_, recording := fun j hj => (by cases hj)
      ready := fun j v hv => ?_, told := fun j v hv => ?_, joined := fun j v hv => ?_
      listener := fun hl => (by cases hl), accepting := fun ha => ?_
      ended := fun he => (by cases he) }
  · rw [h.entered]
    constructor
    · rintro ⟨v, hv, hbare, -, hjoined⟩
      obtain ⟨hv', hne⟩ := hold j v hv
      refine ⟨v, hv', hbare, fun hj => hne (Option.some.inj hj).symm, .inl ?_⟩
      rcases hjoined with hjoined | hrec
      · exact hjoined
      · rw [hpc] at hrec
        cases hrec
    · rintro ⟨v, hv, hbare, hne, hjoined⟩
      rcases getElem?_concat_cases hv with ⟨rfl, -⟩ | hv
      · exact absurd rfl hne
      · refine ⟨v, hv, hbare, by rw [hpc]; simp [AcceptPc.fresh], .inl ?_⟩
        rcases hjoined with hjoined | hrec
        · exact hjoined
        · cases hrec
  · obtain rfl : s.tasks.length = j := Option.some.inj hj
    exact ⟨{ upgrade := false, pc := .gated }, by simp, rfl, rfl⟩
  · rcases getElem?_concat_cases hv with ⟨rfl, rfl⟩ | hv
    · exact fun _ hgated => absurd rfl hgated
    · exact h.ready j v hv
  · rcases getElem?_concat_cases hv with ⟨rfl, rfl⟩ | hv
    · exact fun _ hready => by cases hready
    · exact fun _ _ hj => (hold j v hv).2 (Option.some.inj hj).symm
  · rcases getElem?_concat_cases hv with ⟨rfl, rfl⟩ | hv
    · exact fun _ hjoined => by cases hjoined
    · exact h.joined j v hv
  · have hlast := h.accepting ha
    rw [hpc] at hlast
    cases hlast

/-- The task that was spawned is entered. -/
theorem Tracked.enters (h : s.Tracked) (hpc : s.accept = .entering k) : Tracked { s with
    connections := { s.connections with tasks := s.connections.tasks ++ [k] }, accept := .readying k } where
  entered := by
    intro j
    have hfresh : s.accept.fresh = some k := by rw [hpc]; rfl
    have hrecording : s.accept.recording = none := by rw [hpc]; rfl
    simp only [List.mem_append, List.mem_singleton, h.entered, hfresh, hrecording]
    constructor
    · rintro (⟨v, hv, hbare, -, hjoined⟩ | rfl)
      · exact ⟨v, hv, hbare, by simp [AcceptPc.fresh], .inl (hjoined.resolve_right (by simp))⟩
      · obtain ⟨v, hv, hbare, hjoined⟩ := h.fresh j hfresh
        exact ⟨v, hv, hbare, by simp [AcceptPc.fresh], .inl hjoined⟩
    · rintro ⟨v, hv, hbare, -, hjoined⟩
      by_cases hj : j = k
      · exact .inr hj
      · refine .inl ⟨v, hv, hbare, fun heq => hj (Option.some.inj heq).symm, .inl ?_⟩
        exact hjoined.resolve_right (by simp [AcceptPc.recording])
  fresh j hj := by cases hj
  recording j hj := by cases hj
  ready := h.ready
  told _ _ _ _ _ hj := by cases hj
  joined := h.joined
  listener hl := by cases hl
  accepting ha := by
    have hlast := h.accepting ha
    rw [hpc] at hlast
    cases hlast
  ended he := by cases he

/-- It is told to go on. -/
theorem Tracked.readies (h : s.Tracked) (hpc : s.accept = .readying k) : Tracked { s with
    tasks := s.tasks.modify k (fun t => { t with ready := true }), accept := .selecting } where
  entered := by
    intro j
    have hfresh : s.accept.fresh = none := by rw [hpc]; rfl
    have hrecording : s.accept.recording = none := by rw [hpc]; rfl
    simp only [h.entered, hfresh, hrecording]
    constructor
    · rintro ⟨v, hv, hbare, -, hjoined⟩
      refine ⟨_, tasks_of_modify _ hv, ?_, by simp [AcceptPc.fresh], .inl ?_⟩
      · split <;> exact hbare
      · split <;> exact hjoined.resolve_right (by simp)
    · rintro ⟨u, hu, hbare, -, hjoined⟩
      obtain ⟨v, hv, hself, hother⟩ := tasks_modify hu
      have hjoined' := hjoined.resolve_right (by simp [AcceptPc.recording])
      by_cases hj : j = k
      · rw [hself hj] at hbare hjoined'
        exact ⟨v, hv, hbare, by simp, .inl hjoined'⟩
      · rw [hother hj] at hbare hjoined'
        exact ⟨v, hv, hbare, by simp, .inl hjoined'⟩
  fresh j hj := by cases hj
  recording j hj := by cases hj
  ready := by
    intro j u hu hbare hgated hended
    obtain ⟨v, hv, hself, hother⟩ := tasks_modify hu
    by_cases hj : j = k
    · rw [hself hj]
    · rw [hother hj] at hbare hgated hended ⊢
      exact h.ready j v hv hbare hgated hended
  told _ _ _ _ _ hj := by cases hj
  joined := by
    intro j u hu hbare hjoined
    obtain ⟨v, hv, hself, hother⟩ := tasks_modify hu
    by_cases hj : j = k
    · rw [hself hj] at hbare hjoined ⊢
      exact h.joined j v hv hbare hjoined
    · rw [hother hj] at hbare hjoined ⊢
      exact h.joined j v hv hbare hjoined
  listener hl := by cases hl
  accepting ha := by
    have hlast := h.accepting ha
    rw [hpc] at hlast
    cases hlast
  ended he := by cases he

/-- **A task that has ended is joined**, and is entered still. -/
theorem Tracked.joins (h : s.Tracked) (hk : s.Joinable k) {pc : AcceptPc}
    (hfrom : s.accept.fresh = none ∧ s.accept.recording = none)
    (hto : pc.fresh = none ∧ pc.recording = some k)
    (hlistener : pc.unlistening = true → s.listener = false)
    (hlast : s.accept.last = true → pc.last = true) (hend : pc ≠ .ended) : Tracked { s with
      tasks := s.tasks.modify k (fun t => { t with joined := true }), accept := pc } := by
  obtain ⟨t, ht, hbare, hunjoined, hpc⟩ := hk
  refine
    { entered := fun j => ?_, fresh := fun j hj => ?_, recording := fun j hj => ?_
      ready := fun j u hu => ?_, told := fun j u hu _ _ hj => ?_, joined := fun j u hu => ?_
      listener := hlistener, accepting := fun ha => hlast (h.accepting ha)
      ended := fun he => absurd he hend }
  · simp only [h.entered, hfrom.1, hfrom.2, hto.1, hto.2]
    constructor
    · rintro ⟨v, hv, hvbare, -, hjoined⟩
      have hvjoined := hjoined.resolve_right (by simp)
      by_cases hj : k = j
      · subst hj
        exact ⟨_, tasks_of_modify _ hv, by rw [if_pos rfl]; exact hvbare, by simp, .inr rfl⟩
      · exact ⟨v, by rw [tasks_of_modify _ hv, if_neg hj], hvbare, by simp, .inl hvjoined⟩
    · rintro ⟨u, hu, hubare, -, hjoined⟩
      obtain ⟨v, hv, hself, hother⟩ := tasks_modify hu
      by_cases hj : j = k
      · subst hj
        obtain rfl := Option.some.inj (ht.symm.trans hv)
        exact ⟨t, ht, hbare, by simp, .inl hunjoined⟩
      · rw [hother hj] at hubare hjoined
        have hvjoined := hjoined.resolve_right fun heq => hj (Option.some.inj heq).symm
        exact ⟨v, hv, hubare, by simp, .inl hvjoined⟩
  · rw [hto.1] at hj
    cases hj
  · obtain rfl : k = j := Option.some.inj (hto.2.symm.trans hj)
    exact ⟨_, tasks_of_modify _ ht, by rw [if_pos rfl]; exact hbare, by rw [if_pos rfl]⟩
  · obtain ⟨v, hv, hself, hother⟩ := tasks_modify hu
    by_cases hj : j = k
    · rw [hself hj]
      exact h.ready j v hv
    · rw [hother hj]
      exact h.ready j v hv
  · rw [hto.1] at hj
    cases hj
  · obtain ⟨v, hv, hself, hother⟩ := tasks_modify hu
    by_cases hj : j = k
    · subst hj
      obtain rfl := Option.some.inj (ht.symm.trans hv)
      rw [hself rfl]
      exact fun _ _ => hpc
    · rw [hother hj]
      exact h.joined j v hv

/-- The task that was joined is taken out. -/
theorem Tracked.records (h : s.Tracked) {pc : AcceptPc}
    (hfrom : s.accept.fresh = none ∧ s.accept.recording = some k)
    (hto : pc.fresh = none ∧ pc.recording = none)
    (hlistener : pc.unlistening = true → s.listener = false)
    (hlast : s.accept.last = true → pc.last = true) (hend : pc ≠ .ended) :
    Tracked { s with connections := s.connections.finished k, accept := pc } where
  entered := by
    intro j
    simp only [ConnectionTasks.finished, List.mem_filter, h.entered, hfrom.1, hfrom.2, hto.1, hto.2,
      decide_eq_true_eq]
    constructor
    · rintro ⟨⟨v, hv, hbare, -, hjoined⟩, hne⟩
      have hvjoined := hjoined.resolve_right fun heq => hne (Option.some.inj heq).symm
      exact ⟨v, hv, hbare, by simp, .inl hvjoined⟩
    · rintro ⟨v, hv, hbare, -, hjoined⟩
      have hvjoined := hjoined.resolve_right (by simp)
      refine ⟨⟨v, hv, hbare, by simp, .inl hvjoined⟩, ?_⟩
      rintro rfl
      -- the one that is recorded was joined
      obtain ⟨w, hw, -, hwjoined⟩ := h.recording j hfrom.2
      obtain rfl := Option.some.inj (hv.symm.trans hw)
      rw [hvjoined] at hwjoined
      cases hwjoined
  fresh j hj := by
    rw [hto.1] at hj
    cases hj
  recording j hj := by
    rw [hto.2] at hj
    cases hj
  ready := h.ready
  told _ _ _ _ _ hj := by
    rw [hto.1] at hj
    cases hj
  joined := h.joined
  listener := hlistener
  accepting ha := hlast (h.accepting ha)
  ended he := absurd he hend

/-- The accept loop ends, with every task joined or aborted with it. -/
theorem Tracked.ends (h : s.Tracked) {listener : Bool}
    (hpc : s.accept.fresh = none ∧ s.accept.recording = none) (hlistener : listener = false)
    (hend : s.acceptAborted = true ∨
      ∀ (k : ℕ) (t : ConnectionTask), s.tasks[k]? = some t → t.upgrade = false → t.joined = true) :
    Tracked { s with accept := .ended, listener := listener } where
  entered := by
    intro j
    have hto : AcceptPc.ended.fresh = none ∧ AcceptPc.ended.recording = none := ⟨rfl, rfl⟩
    simp only [h.entered, hpc.1, hpc.2, hto.1, hto.2]
  fresh j hj := by cases hj
  recording j hj := by cases hj
  ready := h.ready
  told _ _ _ _ _ hj := by cases hj
  joined := h.joined
  listener _ := hlistener
  accepting _ := rfl
  ended _ := hend

/-- Aborting tasks leaves them where they are. -/
theorem Tracked.abortAll (h : s.Tracked) (p : ℕ → ConnectionTask → Bool) :
    (s.abortAll p).Tracked := by
  refine h.of_tasks rfl rfl rfl (fun ha => ha) (fun j u hu => .inr ?_) fun j v hv => ?_
  · obtain ⟨v, hv, rfl⟩ := abortAll_back hu
    exact ⟨v, hv, rfl, rfl, rfl, .inl rfl⟩
  · exact ⟨_, abortAll_forth p hv, rfl, rfl, rfl, .inl rfl⟩

theorem suspended_cases {pc : AcceptPc} (h : pc.suspended = true) :
    pc.fresh = none ∧ pc.recording = none := by
  cases pc <;> first | exact ⟨rfl, rfl⟩ | cases h

/-- **Every step of the accept loop keeps track.** -/
theorem Tracked.accept (h : s.Tracked) {move : AcceptMove} (hs : AcceptStep s move s') :
    s'.Tracked := by
  cases hs with
  | stopSeen hpc _ | errs hpc | wakes hpc =>
    refine h.goTo (by rw [hpc]; rfl) (by rw [hpc]; rfl) (fun hl => by cases hl) ?_ (by simp)
    rw [hpc]
    exact fun hl => by cases hl
  | accepts hpc => exact h.accepts hpc
  | enters hpc => exact h.enters hpc
  | readies hpc => exact h.readies hpc
  | joins hpc hk =>
    refine h.joins hk (by rw [hpc]; exact ⟨rfl, rfl⟩) ⟨rfl, rfl⟩ (fun hl => by cases hl) ?_ (by simp)
    rw [hpc]
    exact fun hl => by cases hl
  | records hpc =>
    refine h.records (by rw [hpc]; exact ⟨rfl, rfl⟩) ⟨rfl, rfl⟩ (fun hl => by cases hl) ?_ (by simp)
    rw [hpc]
    exact fun hl => by cases hl
  | drops hpc =>
    refine h.goTo (by rw [hpc]; rfl) (by rw [hpc]; rfl) (fun _ => rfl) ?_ (by simp)
    rw [hpc]
    exact fun hl => by cases hl
  | announces hpc =>
    have hlistener := h.listener (by rw [hpc]; rfl)
    have hto : Tracked { s with accept := .draining, listener := s.listener } :=
      h.goTo (by rw [hpc]; rfl) (by rw [hpc]; rfl) (fun _ => hlistener) (fun _ => rfl) (by simp)
    exact
      { entered := hto.entered, fresh := hto.fresh, recording := hto.recording, ready := hto.ready
        told := hto.told, joined := hto.joined, listener := hto.listener
        accepting := fun _ => rfl, ended := hto.ended }
  | joinsLast hpc hk =>
    refine h.joins hk (by rw [hpc]; exact ⟨rfl, rfl⟩) ⟨rfl, rfl⟩ (fun _ => ?_) (fun _ => rfl) (by simp)
    exact h.listener (by rw [hpc]; rfl)
  | recordsLast hpc =>
    refine h.records (by rw [hpc]; exact ⟨rfl, rfl⟩) ⟨rfl, rfl⟩ (fun _ => ?_) (fun _ => rfl) (by simp)
    exact h.listener (by rw [hpc]; rfl)
  | drains hpc hall =>
    exact h.ends (by rw [hpc]; exact ⟨rfl, rfl⟩) (h.listener (by rw [hpc]; rfl)) (.inr hall)
  | aborts habort hpc => exact (h.abortAll _).ends (suspended_cases hpc) rfl (.inl habort)

/-- **Every step keeps track.** -/
theorem Tracked.step (h : s.Tracked) (hn : machine.next s e = some s') : s'.Tracked := by
  cases step_of_next hn with
  | accept hs => exact h.accept hs
  | task ht hs => exact h.task ht hs
  | upgrade _ =>
    refine h.of_tasks rfl rfl rfl (fun ha => ha) (fun j u hu => ?_) fun j v hv => ⟨v, ?_, .refl v⟩
    · rcases getElem?_concat_cases hu with ⟨-, rfl⟩ | hu
      · exact .inl rfl
      · exact .inr ⟨u, hu, .refl u⟩
    · change (s.tasks ++ _)[j]? = some v
      rw [getElem?_append_some hv]
  | closing _ hs => cases hs <;> exact h.same rfl rfl rfl (fun ha => ha) rfl
  | stopGoes _ hs => cases hs <;> exact h.same rfl rfl rfl (fun ha => ha) rfl
  | stopDeadline _ hs =>
    cases hs with
    | others => exact (h.abortAll _).same rfl rfl rfl (fun ha => ha) rfl
    | loop => exact h.same rfl rfl rfl (fun _ => rfl) rfl
  | _ => exact h.same rfl rfl rfl (fun ha => ha) rfl

theorem tracked_of_reachable (h : machine.Reachable s) : s.Tracked := by
  have hinit : ∀ s, machine.init s → s.Tracked := by
    rintro s ⟨n, rfl⟩
    exact tracked_start n
  exact h.invariant hinit fun s e s' _ hn hs => hs.step hn

end VcmpServer

end Vcmp
