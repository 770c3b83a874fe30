import Vcmp.Server.Accept
import Vcmp.Server.Registry
/-!
# A `stop` in a hook

A `stop` that is awaited in a hook of a connection finds itself in the
task of that connection, since what runs is entered, and waits for the
others only. When it returns the listener is gone and the others have
ended. It comes to that with no step of its own task: the accept loop
joins the others without it.
-/

namespace Vcmp

namespace VcmpServer

variable {s s' : VcmpServer} {k : ℕ} {t : ConnectionTask} {e : Event} {c : StopCall}

/-- A task that the accept loop has spawned. -/
def Bare (s : VcmpServer) (k : ℕ) : Prop :=
  ∃ t : ConnectionTask, s.tasks[k]? = some t ∧ t.upgrade = false

/-- **What a `stop` knows of where it is awaited.** -/
structure Stopping (s : VcmpServer) : Prop where
  here : ∀ c k, s.stop = some c → c.awaiter = some k → k < s.tasks.length
  /-- It is dropped with the hook it is awaited in. -/
  hook : ∀ c k, s.stop = some c → c.awaiter = some k →
    c.pc = .returned ∨ c.pc = .dropped ∨ s.inHook k = true
  caller : ∀ c k, s.stop = some c → c.caller = some k → c.awaiter = some k ∧ s.Bare k
  found : ∀ c k, s.stop = some c → c.awaiter = some k → s.Bare k →
    c.pc = .filtering ∨ c.pc = .dropped ∨ c.caller = some k
  /-- The accept loop is aborted by a `stop` from elsewhere. -/
  aborted : s.acceptAborted = true → ∃ c, s.stop = some c ∧ c.caller = none ∧ c.pc ≠ .filtering
  returned : ∀ c k, s.stop = some c → c.pc = .returned → c.caller = some k →
    s.connections.finishedExcept k = true
  sent : ∀ c, s.stop = some c → c.pc = .closing ∨ c.pc = .waiting ∨ c.pc = .reaping →
    s.stopSent = true

theorem stopping_start (n : ℕ) : Stopping { endpoints := List.replicate n {} } := by
  constructor <;> simp

theorem inHook_iff : s.inHook k = true ↔ ∃ t, s.tasks[k]? = some t ∧ t.pc.inHook = true := by
  simp [inHook]

/-! ## The steps of the others -/

/-- **Where the `stop` stays as it is** it goes on knowing what it knew. -/
theorem Stopping.same (h : s.Stopping) (hstop : s'.stop = s.stop)
    (haborted : s'.acceptAborted = s.acceptAborted) (hsent : s.stopSent = true → s'.stopSent = true)
    (hforth : ∀ (k : ℕ) (t : ConnectionTask), s.tasks[k]? = some t →
      ∃ u, s'.tasks[k]? = some u ∧ u.upgrade = t.upgrade)
    (hhook : ∀ c k, s.stop = some c → c.awaiter = some k → s.inHook k = true →
      c.pc = .returned ∨ s'.inHook k = true)
    (hfinished : ∀ k, s.connections.finishedExcept k = true → s'.connections.finishedExcept k = true) :
    s'.Stopping := by
  have hgrow : ∀ k, k < s.tasks.length → k < s'.tasks.length := by
    intro k hk
    obtain ⟨u, hu, -⟩ := hforth k _ (List.getElem?_eq_getElem hk)
    exact (List.getElem?_eq_some_iff.mp hu).1
  have hbare : ∀ k, s.Bare k → s'.Bare k := by
    rintro k ⟨t, ht, hbare⟩
    obtain ⟨u, hu, hup⟩ := hforth k t ht
    exact ⟨u, hu, hup.trans hbare⟩
  have hback : ∀ k, k < s.tasks.length → s'.Bare k → s.Bare k := by
    rintro k hk ⟨u, hu, hbare⟩
    obtain ⟨v, hv, hup⟩ := hforth k _ (List.getElem?_eq_getElem hk)
    obtain rfl := Option.some.inj (hu.symm.trans hv)
    exact ⟨_, List.getElem?_eq_getElem hk, hup.symm.trans hbare⟩
  refine
    { here := fun c k hc hk => hgrow k (h.here c k (hstop ▸ hc) hk)
      hook := fun c k hc hk => ?_, caller := fun c k hc hk => ?_, found := fun c k hc hk hb => ?_
      aborted := by rw [haborted, hstop]; exact h.aborted
      returned := fun c k hc hret hk => hfinished k (h.returned c k (hstop ▸ hc) hret hk)
      sent := fun c hc hpc => hsent (h.sent c (hstop ▸ hc) hpc) }
  · rw [hstop] at hc
    rcases h.hook c k hc hk with hret | hdrop | hin
    · exact .inl hret
    · exact .inr (.inl hdrop)
    · exact (hhook c k hc hk hin).imp_right .inr
  · obtain ⟨hawaits, hb⟩ := h.caller c k (hstop ▸ hc) hk
    exact ⟨hawaits, hbare k hb⟩
  · rw [hstop] at hc
    exact h.found c k hc hk (hback k (h.here c k hc hk) hb)

/-- Where neither the `stop` nor the tasks move. -/
theorem Stopping.congr (h : s.Stopping) (hstop : s'.stop = s.stop)
    (haborted : s'.acceptAborted = s.acceptAborted) (hsent : s.stopSent = true → s'.stopSent = true)
    (htasks : s'.tasks = s.tasks)
    (hfinished : ∀ k, s.connections.finishedExcept k = true → s'.connections.finishedExcept k = true) :
    s'.Stopping := by
  refine h.same hstop haborted hsent (fun k t ht => ⟨t, htasks.symm ▸ ht, rfl⟩)
      (fun _ k _ _ hin => .inr ?_)
    hfinished
  unfold inHook
  rw [htasks]
  exact hin

/-- Where the tasks change in other respects. -/
theorem Stopping.of_pcs (h : s.Stopping) (hstop : s'.stop = s.stop)
    (haborted : s'.acceptAborted = s.acceptAborted) (hsent : s.stopSent = true → s'.stopSent = true)
    (hforth : ∀ (k : ℕ) (t : ConnectionTask), s.tasks[k]? = some t →
      ∃ u, s'.tasks[k]? = some u ∧ u.upgrade = t.upgrade ∧ u.pc = t.pc)
    (hfinished : ∀ k, s.connections.finishedExcept k = true → s'.connections.finishedExcept k = true) :
    s'.Stopping := by
  refine h.same hstop haborted hsent (fun k t ht => ?_) (fun _ k _ _ hin => .inr ?_) hfinished
  · obtain ⟨u, hu, hup, -⟩ := hforth k t ht
    exact ⟨u, hu, hup⟩
  · obtain ⟨t, ht, hpc⟩ := inHook_iff.mp hin
    obtain ⟨u, hu, -, hsame⟩ := hforth k t ht
    exact inHook_iff.mpr ⟨u, hu, hsame ▸ hpc⟩

/-- The `stop` of a hook that is over is dropped. -/
theorem Stopping.drop (h : s.Stopping) (hc : s.stop = some c)
    (hstop : s'.stop = some { c with pc := .dropped }) (haborted : s'.acceptAborted = s.acceptAborted)
    (hforth : ∀ (k : ℕ) (t : ConnectionTask), s.tasks[k]? = some t →
      ∃ u, s'.tasks[k]? = some u ∧ u.upgrade = t.upgrade) : s'.Stopping where
  here := by
    intro d k hd hk
    obtain rfl := Option.some.inj (hstop.symm.trans hd)
    obtain ⟨u, hu, -⟩ := hforth k _ (List.getElem?_eq_getElem (h.here c k hc hk))
    exact (List.getElem?_eq_some_iff.mp hu).1
  hook := by
    intro d k hd _
    obtain rfl := Option.some.inj (hstop.symm.trans hd)
    exact .inr (.inl rfl)
  caller := by
    intro d k hd hk
    obtain rfl := Option.some.inj (hstop.symm.trans hd)
    obtain ⟨hawaits, t, ht, hbare⟩ := h.caller c k hc hk
    obtain ⟨u, hu, hup⟩ := hforth k t ht
    exact ⟨hawaits, u, hu, hup.trans hbare⟩
  found := by
    intro d k hd _ _
    obtain rfl := Option.some.inj (hstop.symm.trans hd)
    exact .inr (.inl rfl)
  aborted := by
    intro ha
    obtain ⟨d, hd, hcaller, -⟩ := h.aborted (haborted ▸ ha)
    obtain rfl := Option.some.inj (hc.symm.trans hd)
    exact ⟨_, hstop, hcaller, by simp⟩
  returned := by
    intro d k hd hret
    obtain rfl := Option.some.inj (hstop.symm.trans hd)
    cases hret
  sent := by
    intro d hd hpc
    obtain rfl := Option.some.inj (hstop.symm.trans hd)
    rcases hpc with hpc | hpc | hpc <;> cases hpc

/-! ## The steps of the tasks -/

theorem Stopping.task (h : s.Stopping) {move : TaskMove} (ht : s.tasks[k]? = some t)
    (hs : TaskStep s k t move s') : s'.Stopping := by
  obtain ⟨pc, heq⟩ := taskStep_eq hs
  have htasks : s'.tasks = s.tasks.set k { t with pc := pc } := by rw [heq]
  have hforth : ∀ (j : ℕ) (v : ConnectionTask), s.tasks[j]? = some v →
      ∃ u, s'.tasks[j]? = some u ∧ u.upgrade = v.upgrade ∧ (j ≠ k → u = v) := by
    intro j v hv
    rw [htasks]
    by_cases hj : j = k
    · subst hj
      obtain rfl := Option.some.inj (ht.symm.trans hv)
      exact ⟨_, getElem?_set_self' ht, rfl, fun hne => absurd rfl hne⟩
    · exact ⟨v, by rw [List.getElem?_set_ne (Ne.symm hj)]; exact hv, rfl, fun _ => rfl⟩
  have hups : ∀ (j : ℕ) (v : ConnectionTask), s.tasks[j]? = some v →
      ∃ u, s'.tasks[j]? = some u ∧ u.upgrade = v.upgrade := by
    intro j v hv
    obtain ⟨u, hu, hup, -⟩ := hforth j v hv
    exact ⟨u, hu, hup⟩
  rcases taskStep_stop hs with ⟨hsame, hreturned⟩ | ⟨c, hc, hdropped⟩
  · refine h.same hsame (by rw [heq]) (fun hsent => by rw [heq]; exact hsent) hups (fun c j hc hj hin => ?_)
      (fun j hf => by rw [heq]; exact hf)
    obtain ⟨v, hv, hvpc⟩ := inHook_iff.mp hin
    by_cases hjk : j = k
    · subst hjk
      obtain rfl := Option.some.inj (ht.symm.trans hv)
      exact .inl (hreturned hvpc c hc hj)
    · obtain ⟨u, hu, -, hother⟩ := hforth j v hv
      exact .inr (inHook_iff.mpr ⟨u, hu, by rw [hother hjk]; exact hvpc⟩)
  · exact h.drop hc hdropped (by rw [heq]) hups

/-! ## The steps of the `stop` -/

theorem finishedExcept_iff {tasks : ConnectionTasks} : tasks.finishedExcept k = true ↔
    tasks.accepting = false ∧ ∀ j ∈ tasks.tasks, j = k := by
  simp [ConnectionTasks.finishedExcept]

/-- **A `stop` in a hook does not see the accept loop end.** -/
theorem Stopping.not_ended (h : s.Stopping) (htracked : s.Tracked) (hc : s.stop = some c)
    (hcaller : c.caller = some k) (hpc : c.pc ≠ .returned ∧ c.pc ≠ .dropped) : s.accept ≠ .ended := by
  intro hend
  obtain ⟨hawaits, -⟩ := h.caller c k hc hcaller
  obtain ⟨v, hv, hbare⟩ := (h.caller c k hc hcaller).2
  rcases htracked.ended hend with haborted | hall
  · -- that would be a `stop` from elsewhere
    obtain ⟨d, hd, hnone, -⟩ := h.aborted haborted
    obtain rfl := Option.some.inj (hc.symm.trans hd)
    rw [hcaller] at hnone
    cases hnone
  · have hended := htracked.joined k v hv hbare (hall k v hv hbare)
    rcases h.hook c k hc hawaits with hret | hdrop | hin
    · exact hpc.1 hret
    · exact hpc.2 hdrop
    · obtain ⟨w, hw, hwpc⟩ := inHook_iff.mp hin
      obtain rfl := Option.some.inj (hv.symm.trans hw)
      rw [hended] at hwpc
      cases hwpc

/-- The `stop` goes on, keeping where it is awaited. -/
theorem Stopping.goes (h : s.Stopping) (hc : s.stop = some c) {d : StopCall}
    (hstop : s'.stop = some d) (htasks : s'.tasks = s.tasks) (hawaiter : d.awaiter = c.awaiter)
    (hpc : c.pc ≠ .returned ∧ c.pc ≠ .dropped)
    (hcaller : ∀ k, d.caller = some k → c.awaiter = some k ∧ s.Bare k)
    (hfound : ∀ k, c.awaiter = some k → s.Bare k → d.pc = .filtering ∨ d.caller = some k)
    (haborted : s'.acceptAborted = true → d.caller = none ∧ d.pc ≠ .filtering)
    (hreturned : d.pc = .returned → ∀ k, d.caller = some k → s'.connections.finishedExcept k = true)
    (hsent : d.pc = .closing ∨ d.pc = .waiting ∨ d.pc = .reaping → s'.stopSent = true) :
    s'.Stopping where
  here := by
    intro d' k hd hk
    obtain rfl := Option.some.inj (hstop.symm.trans hd)
    rw [htasks]
    exact h.here c k hc (hawaiter ▸ hk)
  hook := by
    intro d' k hd hk
    obtain rfl := Option.some.inj (hstop.symm.trans hd)
    refine .inr (.inr ?_)
    have hin := (h.hook c k hc (hawaiter ▸ hk)).resolve_left hpc.1 |>.resolve_left hpc.2
    unfold inHook
    rw [htasks]
    exact hin
  caller := by
    intro d' k hd hk
    obtain rfl := Option.some.inj (hstop.symm.trans hd)
    obtain ⟨hawaits, v, hv, hbare⟩ := hcaller k hk
    exact ⟨hawaiter.trans hawaits, v, by rw [htasks]; exact hv, hbare⟩
  found := by
    rintro d' k hd hk ⟨v, hv, hbare⟩
    obtain rfl := Option.some.inj (hstop.symm.trans hd)
    exact (hfound k (hawaiter ▸ hk) ⟨v, htasks ▸ hv, hbare⟩).imp_right .inr
  aborted ha := ⟨d, hstop, haborted ha⟩
  returned := by
    intro d' k hd hret hk
    obtain rfl := Option.some.inj (hstop.symm.trans hd)
    exact hreturned hret k hk
  sent := by
    intro d' hd hor
    obtain rfl := Option.some.inj (hstop.symm.trans hd)
    exact hsent hor

/-- A `stop` behind its first step knows its caller. -/
theorem Stopping.found_caller (h : s.Stopping) (hc : s.stop = some c) (hpc : c.pc ≠ .filtering)
    (hnot : c.pc ≠ .dropped) (k : ℕ) (hk : c.awaiter = some k) (hb : s.Bare k) : c.caller = some k :=
  ((h.found c k hc hk hb).resolve_left hpc).resolve_left hnot

theorem Stopping.stopStep (h : s.Stopping) (htracked : s.Tracked) (hc : s.stop = some c)
    (hs : StopStep s c s') : s'.Stopping := by
  -- a loop that was aborted was aborted by this `stop`
  have haborted : s.acceptAborted = true → c.caller = none ∧ c.pc ≠ .filtering := by
    intro ha
    obtain ⟨d, hd, hnone, hne⟩ := h.aborted ha
    obtain rfl := Option.some.inj (hc.symm.trans hd)
    exact ⟨hnone, hne⟩
  cases hs with
  | filters hpc =>
    refine h.goes hc rfl rfl rfl (by rw [hpc]; simp) (fun k hk => ?_) (fun k hk hb => .inr ?_)
      (fun ha => absurd hpc (haborted ha).2) (fun hret => by cases hret)
      (fun hor => by rcases hor with hor | hor | hor <;> cases hor)
    · simp only [Option.filter_eq_some_iff, decide_eq_true_eq] at hk
      obtain ⟨t, ht, hbare, -⟩ := (htracked.entered k).mp hk.2
      exact ⟨hk.1, t, ht, hbare⟩
    · -- the task it is awaited in runs, so it is entered
      obtain ⟨t, ht, hbare⟩ := hb
      have hin := ((h.hook c k hc hk).resolve_left (by rw [hpc]; simp)).resolve_left (by rw [hpc]; simp)
      obtain ⟨u, hu, hupc⟩ := inHook_iff.mp hin
      obtain rfl := Option.some.inj (ht.symm.trans hu)
      have hgated : t.pc ≠ .gated := fun heq => by rw [heq] at hupc; cases hupc
      have hended : t.pc ≠ .ended := fun heq => by rw [heq] at hupc; cases hupc
      have hready := htracked.ready k t ht hbare hgated hended
      have hunjoined : t.joined = false := by
        by_contra hj
        exact hended (htracked.joined k t ht hbare (by simpa using hj))
      have hmem : k ∈ s.connections.tasks :=
        (htracked.entered k).mpr ⟨t, ht, hbare, htracked.told k t ht hbare hready, .inl hunjoined⟩
      simp [hk, hmem]
  | stores hpc =>
    have hne : c.pc ≠ .returned ∧ c.pc ≠ .dropped := by rw [hpc]; simp
    have hfound := h.found_caller hc (by rw [hpc]; simp) hne.2
    refine h.goes hc rfl rfl rfl hne (fun k hk => h.caller c k hc hk)
      (fun k hk hb => .inr (hfound k hk hb)) (fun ha => ⟨(haborted ha).1, by simp⟩)
      (fun hret => by cases hret) (fun hor => by rcases hor with hor | hor | hor <;> cases hor)
  | sends hpc =>
    have hne : c.pc ≠ .returned ∧ c.pc ≠ .dropped := by rw [hpc]; simp
    have hfound := h.found_caller hc (by rw [hpc]; simp) hne.2
    exact h.goes hc rfl rfl rfl hne (fun k hk => h.caller c k hc hk)
      (fun k hk hb => .inr (hfound k hk hb)) (fun ha => ⟨(haborted ha).1, by simp⟩)
      (fun hret => by cases hret) fun _ => rfl
  | closed hpc _ _ =>
    have hne : c.pc ≠ .returned ∧ c.pc ≠ .dropped := by rw [hpc]; simp
    have hfound := h.found_caller hc (by rw [hpc]; simp) hne.2
    exact h.goes hc rfl rfl rfl hne (fun k hk => h.caller c k hc hk)
      (fun k hk hb => .inr (hfound k hk hb)) (fun ha => ⟨(haborted ha).1, by simp⟩)
      (fun hret => by cases hret) fun _ => h.sent c hc (.inl hpc)
  | returns hpc hquiet =>
    have hne : c.pc ≠ .returned ∧ c.pc ≠ .dropped := by rcases hpc with hpc | hpc <;> rw [hpc] <;> simp
    have hfound := h.found_caller hc (by rcases hpc with hpc | hpc <;> rw [hpc] <;> simp) hne.2
    refine h.goes hc rfl rfl rfl hne (fun k hk => h.caller c k hc hk)
      (fun k hk hb => .inr (hfound k hk hb)) (fun ha => ⟨(haborted ha).1, by simp⟩)
      (fun _ k hk => ?_) (fun hor => by rcases hor with hor | hor | hor <;> cases hor)
    have hcaller : c.caller = some k := hk
    have hnot := h.not_ended htracked hc hcaller hne
    simpa [quiet, hcaller, hnot] using hquiet

theorem Stopping.deadline (h : s.Stopping) (hc : s.stop = some c) (hs : DeadlineStep s c s') :
    s'.Stopping := by
  have hsent := h.sent c hc
  cases hs with
  | @others k hpc hcaller =>
    have hall : (s.abortAll fun j _ => j ∈ s.connections.tasks && j ≠ k).Stopping :=
      h.of_pcs rfl rfl (fun hs => hs) (fun j v hv => ⟨_, abortAll_forth _ hv, rfl, rfl⟩)
        fun _ hf => hf
    have hne : c.pc ≠ .returned ∧ c.pc ≠ .dropped := by rw [hpc]; simp
    have hfound := hall.found_caller hc (by rw [hpc]; simp) hne.2
    refine hall.goes hc rfl rfl rfl hne (fun j hj => hall.caller c j hc hj)
      (fun j hj hb => .inr (hfound j hj hb)) (fun ha => ?_)
      (fun hret => by cases hret) fun _ => hsent (.inr (.inl hpc))
    obtain ⟨d, hd, hnone, -⟩ := h.aborted ha
    obtain rfl := Option.some.inj (hc.symm.trans hd)
    exact ⟨hnone, by simp⟩
  | loop hpc hcaller =>
    have hne : c.pc ≠ .returned ∧ c.pc ≠ .dropped := by rw [hpc]; simp
    have hfound := h.found_caller hc (by rw [hpc]; simp) hne.2
    exact h.goes hc rfl rfl rfl hne (fun j hj => h.caller c j hc hj)
      (fun j hj hb => .inr (hfound j hj hb)) (fun _ => ⟨hcaller, by simp⟩)
      (fun hret => by cases hret) fun _ => hsent (.inr (.inl hpc))

/-! ## Every step -/

/-- A task is spawned. -/
theorem Stopping.spawn (h : s.Stopping) (v : ConnectionTask) (hstop : s'.stop = s.stop)
    (haborted : s'.acceptAborted = s.acceptAborted) (hsent : s'.stopSent = s.stopSent)
    (hconnections : s'.connections = s.connections) (htasks : s'.tasks = s.tasks ++ [v]) :
    s'.Stopping := by
  have hold : ∀ (j : ℕ) (t : ConnectionTask), s.tasks[j]? = some t → s'.tasks[j]? = some t := by
    intro j t ht
    rw [htasks, getElem?_append_some ht]
  exact h.of_pcs hstop haborted (fun hs => hsent.trans hs) (fun j t ht => ⟨t, hold j t ht, rfl, rfl⟩)
    fun j hj => by rw [hconnections]; exact hj

theorem finishedExcept_finished {tasks : ConnectionTasks} (j : ℕ)
    (h : tasks.finishedExcept k = true) : (tasks.finished j).finishedExcept k = true := by
  rw [finishedExcept_iff] at h ⊢
  exact ⟨h.1, fun i hi => h.2 i (List.mem_of_mem_filter hi)⟩

theorem Stopping.accept (h : s.Stopping) (htracked : s.Tracked) {move : AcceptMove}
    (hs : AcceptStep s move s') : s'.Stopping := by
  cases hs with
  | accepts => exact h.spawn _ rfl rfl rfl rfl rfl
  | enters hpc =>
    -- nothing is entered once the accepting is over
    refine h.congr rfl rfl (fun hs => hs) rfl fun k hk => ?_
    have hlast := htracked.accepting (finishedExcept_iff.mp hk).1
    rw [hpc] at hlast
    cases hlast
  | readies =>
    exact h.of_pcs rfl rfl (fun hs => hs) (fun _ _ ht => modify_forth (fun _ => ⟨rfl, rfl⟩) ht)
      fun _ hf => hf
  | joins | joinsLast =>
    exact h.of_pcs rfl rfl (fun hs => hs) (fun _ _ ht => modify_forth (fun _ => ⟨rfl, rfl⟩) ht)
      fun _ hf => hf
  | @records j | @recordsLast j =>
    exact h.congr rfl rfl (fun hs => hs) rfl fun k hk => finishedExcept_finished j hk
  | announces =>
    refine h.congr rfl rfl (fun hs => hs) rfl fun k hk => ?_
    exact finishedExcept_iff.mpr ⟨rfl, (finishedExcept_iff.mp hk).2⟩
  | aborts =>
    exact h.of_pcs rfl rfl (fun hs => hs) (fun i t ht => ⟨_, abortAll_forth _ ht, rfl, rfl⟩)
      fun _ hf => hf
  | _ => exact h.congr rfl rfl (fun hs => hs) rfl fun _ hf => hf

/-- A `stop` begins. -/
theorem Stopping.begins (h : s.Stopping) {awaiter : Option ℕ} (hnone : s.stop = none)
    (hhook : ∀ k ∈ awaiter, s.inHook k = true) :
    Stopping { s with stop := some { awaiter := awaiter } } where
  here := by
    intro c k hc hk
    obtain rfl := Option.some.inj hc
    obtain ⟨t, ht, -⟩ := inHook_iff.mp (hhook k hk)
    exact (List.getElem?_eq_some_iff.mp ht).1
  hook := by
    intro c k hc hk
    obtain rfl := Option.some.inj hc
    exact .inr (.inr (hhook k hk))
  caller := by
    intro c k hc hk
    obtain rfl := Option.some.inj hc
    cases hk
  found := by
    intro c k hc _ _
    obtain rfl := Option.some.inj hc
    exact .inl rfl
  aborted := by
    intro ha
    obtain ⟨c, hc, -⟩ := h.aborted ha
    rw [hnone] at hc
    cases hc
  returned := by
    intro c k hc hret
    obtain rfl := Option.some.inj hc
    cases hret
  sent := by
    intro c hc hor
    obtain rfl := Option.some.inj hc
    rcases hor with hor | hor | hor <;> cases hor

/-- **Every step keeps what a `stop` knows.** -/
theorem Stopping.step (h : s.Stopping) (htracked : s.Tracked) (hn : machine.next s e = some s') :
    s'.Stopping := by
  cases step_of_next hn with
  | accept hs => exact h.accept htracked hs
  | upgrade => exact h.spawn _ rfl rfl rfl rfl rfl
  | task ht hs => exact h.task ht hs
  | closing _ hs => cases hs <;> exact h.congr rfl rfl (fun hs => hs) rfl fun _ hf => hf
  | stop hnone hhook => exact h.begins hnone hhook
  | stopGoes hc hs => exact h.stopStep htracked hc hs
  | stopDeadline hc hs => exact h.deadline hc hs
  | _ => exact h.congr rfl rfl (fun hs => hs) rfl fun _ hf => hf

theorem stopping_of_reachable (h : machine.Reachable s) : s.Stopping := by
  have hinit : ∀ s, machine.init s → s.Stopping := by
    rintro s ⟨n, rfl⟩
    exact stopping_start n
  exact h.invariant_of hinit fun s e s' hr _ hn hs => hs.step (tracked_of_reachable hr) hn

end VcmpServer

end Vcmp
