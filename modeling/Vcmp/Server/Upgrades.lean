import Vcmp.Server.Registry
/-!
# The pending upgrades of an endpoint

The counter of an endpoint is the number of the `PendingUpgrade`s of it
that tasks hold. A task takes one where its upgrade is accepted and gives
it back once, where the upgrade fails or behind the insertion of its
session, so the counter is there to be lowered whenever it is.
-/

namespace Vcmp

/-- Whose task it is, of an upgrade or of the accept loop, where the place tells. -/
def TaskPc.side : TaskPc → Option Bool
  | .gated | .handshaking | .responding _ | .checking _ => some false
  | .reserved _ | .upgrading _ | .releasing _ _ => some true
  | _ => none

/-- A task that unwinds holds no `PendingUpgrade`, before and behind that. -/
theorem TaskPc.unwound_plain (pc : TaskPc) : pc.unwound.pending = none ∧ pc.unwound.side = none := by
  cases pc <;> exact ⟨rfl, rfl⟩

theorem TaskPc.pending_of_awaits {pc : TaskPc} (h : pc.awaits = true) : pc.pending = none := by
  cases pc <;> first | rfl | cases h

theorem TaskPc.awaits_of_inHook {pc : TaskPc} (h : pc.inHook = true) : pc.awaits = true := by
  cases pc <;> first | rfl | cases h

/-- One where the task holds a `PendingUpgrade` of the endpoint. -/
def ConnectionTask.holds (i : ℕ) (t : ConnectionTask) : ℕ := if t.pending = some i then 1 else 0

namespace VcmpServer

variable {s s' : VcmpServer} {k i c : ℕ} {t : ConnectionTask} {e : Event}

/-- How many tasks hold a `PendingUpgrade` of an endpoint. -/
def holders (s : VcmpServer) (i : ℕ) : ℕ := total (ConnectionTask.holds i) s.tasks

/-- **What holds of the counters.** -/
structure Counted (s : VcmpServer) : Prop where
  counter : ∀ (i : ℕ) (p : Endpoint), s.endpoints[i]? = some p → p.pendingUpgrades = s.holders i
  sided : ∀ (k : ℕ) (t : ConnectionTask), s.tasks[k]? = some t →
    ∀ b, t.pc.side = some b → t.upgrade = b

theorem counted_start (n : ℕ) : Counted { endpoints := List.replicate n {} } := by
  refine ⟨fun i p hp => ?_, by simp⟩
  simp only [List.getElem?_replicate] at hp
  split at hp
  · obtain rfl := Option.some.inj hp
    rfl
  · cases hp

/-- What a task holds is of its endpoint. -/
theorem endpoint_of_pending (h : t.pending = some i) : t.pc.endpoint = some i := by
  unfold ConnectionTask.pending at h
  split at h
  · cases hpc : t.pc <;> rw [hpc] at h <;> first | exact h | cases h
  · cases h

/-- **Where a task holds a `PendingUpgrade` the counter is not zero.** -/
theorem Counted.pos (h : s.Counted) (ht : s.tasks[k]? = some t) (hi : t.pending = some i)
    {p : Endpoint} (hp : s.endpoints[i]? = some p) : 0 < p.pendingUpgrades := by
  have hle : t.holds i ≤ s.holders i := le_total (List.mem_of_getElem? ht)
  have hone : t.holds i = 1 := by simp [ConnectionTask.holds, hi]
  have hcounter := h.counter i p hp
  omega

/-! ## The steps of the tasks -/

/-- The task `k` moves, and the counters as what it holds does. -/
def Recounts (s s' : VcmpServer) (k : ℕ) (t : ConnectionTask) : Prop :=
  ∃ pc, s'.tasks = s.tasks.set k { t with pc := pc } ∧ (∀ b, pc.side = some b → t.upgrade = b) ∧
    ∀ (j : ℕ) (p' : Endpoint), s'.endpoints[j]? = some p' → ∃ p, s.endpoints[j]? = some p ∧
      p'.pendingUpgrades + t.holds j = p.pendingUpgrades + ConnectionTask.holds j { t with pc := pc }

/-- Where it holds what it held and no counter moves. -/
theorem recounts_of_same (pc : TaskPc) (htasks : s'.tasks = s.tasks.set k { t with pc := pc })
    (hside : ∀ b, pc.side = some b → t.upgrade = b)
    (hsame : ConnectionTask.pending { t with pc := pc } = t.pending)
    (hcounter : ∀ (j : ℕ) (p' : Endpoint), s'.endpoints[j]? = some p' → ∃ p, s.endpoints[j]? = some p ∧
      p'.pendingUpgrades = p.pendingUpgrades) : Recounts s s' k t := by
  refine ⟨pc, htasks, hside, fun j p' hp' => ?_⟩
  obtain ⟨p, hp, heq⟩ := hcounter j p' hp'
  exact ⟨p, hp, by simp only [ConnectionTask.holds, hsame, heq]⟩

/-- **Where it gives back what it held** the counter goes down by that. -/
theorem recounts_of_drop (pc : TaskPc) (hside : pc.side = none) (hnone : pc.pending = none)
    (hpos : ∀ (i : ℕ) (p : Endpoint), t.pending = some i → s.endpoints[i]? = some p →
      0 < p.pendingUpgrades) :
    Recounts s ((s.setTask k { t with pc := pc }).dropPending t.pending) k t := by
  have hgone : ∀ j, ConnectionTask.holds j { t with pc := pc } = 0 := by
    intro j
    simp [ConnectionTask.holds, ConnectionTask.pending, hnone]
  refine ⟨pc, by rw [dropPending_eq]; rfl, fun b hb => (by rw [hside] at hb; cases hb),
    fun j p' hp' => ?_⟩
  rw [hgone]
  cases hi : t.pending with
  | none =>
    rw [hi] at hp'
    exact ⟨p', hp', by simp [ConnectionTask.holds, hi]⟩
  | some i =>
    rw [hi] at hp'
    obtain ⟨p, hp, rfl⟩ := getElem?_modify_cases hp'
    refine ⟨p, hp, ?_⟩
    by_cases hij : i = j
    · subst hij
      have hone := hpos i p hi hp
      simp only [if_pos, ConnectionTask.holds, hi]
      omega
    · have hne : t.pending ≠ some j := fun heq => hij (Option.some.inj (hi.symm.trans heq))
      simp [hij, ConnectionTask.holds, hne]

/-- **A step of a task moves the counters as it moves what the task holds.** -/
theorem recounts_of_taskStep {move : TaskMove} (h : TaskStep s k t move s')
    (hsided : ∀ b, t.pc.side = some b → t.upgrade = b)
    (hpos : ∀ (i : ℕ) (p : Endpoint), t.pending = some i → s.endpoints[i]? = some p →
      0 < p.pendingUpgrades) : Recounts s s' k t := by
  have hsame : ∀ (j : ℕ) (p' : Endpoint), s.endpoints[j]? = some p' → ∃ p, s.endpoints[j]? = some p ∧
      p'.pendingUpgrades = p.pendingUpgrades := fun j p' hp' => ⟨p', hp', rfl⟩
  have hsessions : ∀ (i : ℕ) (g : Endpoint → Endpoint), (∀ p, (g p).pendingUpgrades = p.pendingUpgrades) →
      ∀ (j : ℕ) (p' : Endpoint), (s.endpoints.modify i g)[j]? = some p' →
        ∃ p, s.endpoints[j]? = some p ∧ p'.pendingUpgrades = p.pendingUpgrades := by
    intro i g hg j p' hp'
    obtain ⟨p, hp, rfl⟩ := getElem?_modify_cases hp'
    refine ⟨p, hp, ?_⟩
    split
    · exact hg p
    · rfl
  have hunwinds : t.pc.awaits = true →
      Recounts s ((s.setTask k { t with pc := t.pc.unwound }).leaveHook k) k t := by
    intro hawaits
    obtain ⟨hnone, hside⟩ := t.pc.unwound_plain
    refine recounts_of_same t.pc.unwound (by rw [leaveHook_eq]; rfl) (fun b hb => ?_) ?_
      (by rw [leaveHook_eq]; exact hsame)
    · rw [hside] at hb
      cases hb
    · simp [ConnectionTask.pending, hnone, TaskPc.pending_of_awaits hawaits]
  cases h with
  | @counted i hpc =>
    have hup : t.upgrade = true := hsided true (by rw [hpc]; rfl)
    refine ⟨.upgrading i, rfl, fun b hb => (by cases hb; exact hup), fun j p' hp' => ?_⟩
    obtain ⟨p, hp, rfl⟩ := getElem?_modify_cases hp'
    refine ⟨p, hp, ?_⟩
    by_cases hij : i = j <;>
      simp [hij, ConnectionTask.holds, ConnectionTask.pending, hup, hpc, TaskPc.pending]
  | failed => exact recounts_of_drop .ended rfl rfl hpos
  | @released i c hpc => exact recounts_of_drop (.preparing i c) rfl rfl hpos
  | @inserted i c hpc =>
    refine recounts_of_same (if t.upgrade then .releasing i c else .preparing i c) rfl ?_ ?_
      (hsessions i _ fun _ => rfl)
    · intro b hb
      split at hb <;> cases hb
      assumption
    · cases hup : t.upgrade <;> simp [ConnectionTask.pending, hup, hpc, TaskPc.pending]
  | @removed i c hpc | @unlisted i c hpc =>
    exact recounts_of_same _ rfl (fun b hb => (by cases hb))
      (by simp [ConnectionTask.pending, hpc, TaskPc.pending]) (hsessions i _ fun _ => rfl)
  | hookEnds hpc | notified hpc =>
    exact recounts_of_same _ (by rw [leaveHook_eq]; rfl) (fun b hb => (by cases hb))
      (by simp [ConnectionTask.pending, hpc, TaskPc.pending]) (by rw [leaveHook_eq]; exact hsame)
  | aborts _ hawaits => exact hunwinds hawaits
  | panics hhook => exact hunwinds (TaskPc.awaits_of_inHook hhook)
  | @letIn i hpc _ =>
    have hbare : t.upgrade = false := hsided false (by rw [hpc]; rfl)
    exact recounts_of_same (.starting i) rfl (fun b hb => (by cases hb))
      (by simp [ConnectionTask.pending, hbare]) hsame
  | lost hpc =>
    refine recounts_of_same .ended rfl (fun b hb => (by cases hb)) ?_ hsame
    rcases hpc with hpc | ⟨i, hpc⟩ <;> simp [ConnectionTask.pending, hpc, TaskPc.pending]
  | opens hpc | matched hpc | shaken hpc =>
    exact recounts_of_same _ rfl (fun b hb => hsided b (by rw [hpc]; exact hb))
      (by simp [ConnectionTask.pending, hpc, TaskPc.pending]) hsame
  | _ hpc =>
    exact recounts_of_same _ rfl (fun b hb => (by cases hb))
      (by simp [ConnectionTask.pending, hpc, TaskPc.pending]) hsame

theorem Counted.task (h : s.Counted) {move : TaskMove} (ht : s.tasks[k]? = some t)
    (hs : TaskStep s k t move s') : s'.Counted := by
  obtain ⟨pc, htasks, hside, hcounter⟩ :=
    recounts_of_taskStep hs (h.sided k t ht) fun i p hi hp => h.pos ht hi hp
  refine ⟨fun i p' hp' => ?_, fun j u hu => ?_⟩
  · obtain ⟨p, hp, hmoves⟩ := hcounter i p' hp'
    have hold := h.counter i p hp
    have hset : total (ConnectionTask.holds i) (s.tasks.set k { t with pc := pc }) + t.holds i =
      total (ConnectionTask.holds i) s.tasks + ConnectionTask.holds i { t with pc := pc } := total_set ht
    simp only [holders, htasks] at hold ⊢
    omega
  · rw [htasks] at hu
    rcases getElem?_set_cases hu with ⟨rfl, rfl⟩ | ⟨-, hu⟩
    · exact hside
    · exact h.sided j u hu

/-! ## Every step -/

/-- Where no counter moves, and what tasks hold does not. -/
theorem Counted.of_tasks (h : s.Counted) (hendpoints : s'.endpoints = s.endpoints)
    (htotal : ∀ i, s'.holders i = s.holders i)
    (hback : ∀ (j : ℕ) (u : ConnectionTask), s'.tasks[j]? = some u →
      (∀ b, u.pc.side = some b → u.upgrade = b) ∨
        ∃ v, s.tasks[j]? = some v ∧ u.pc = v.pc ∧ u.upgrade = v.upgrade) : s'.Counted := by
  refine ⟨fun i p hp => ?_, fun j u hu b hb => ?_⟩
  · rw [htotal]
    exact h.counter i p (hendpoints ▸ hp)
  · rcases hback j u hu with hside | ⟨v, hv, hpc, hup⟩
    · exact hside b hb
    · exact hup.trans (h.sided j v hv b (hpc ▸ hb))

theorem Counted.congr (h : s.Counted) (hendpoints : s'.endpoints = s.endpoints)
    (htasks : s'.tasks = s.tasks) : s'.Counted := by
  refine h.of_tasks hendpoints (fun i => ?_) fun j u hu => .inr ⟨u, htasks ▸ hu, rfl, rfl⟩
  unfold holders
  rw [htasks]

/-- A field of a task that says nothing of an upgrade. -/
theorem Counted.modifyTask (h : s.Counted) (hendpoints : s'.endpoints = s.endpoints) (k : ℕ)
    {g : ConnectionTask → ConnectionTask} (htasks : s'.tasks = s.tasks.modify k g)
    (hg : ∀ t, (g t).pc = t.pc ∧ (g t).upgrade = t.upgrade) : s'.Counted := by
  refine h.of_tasks hendpoints (fun i => ?_) fun j u hu => .inr ?_
  · unfold holders
    rw [htasks, total_modify]
    intro t
    simp [ConnectionTask.holds, ConnectionTask.pending, hg]
  · rw [htasks] at hu
    obtain ⟨v, hv, hup, hpc⟩ := modify_back hu fun t => ⟨(hg t).2, (hg t).1⟩
    exact ⟨v, hv, hpc, hup⟩

theorem Counted.abortAll (h : s.Counted) (p : ℕ → ConnectionTask → Bool) : (s.abortAll p).Counted := by
  refine h.of_tasks rfl (fun i => total_congr fun j => ?_) fun j u hu => .inr ?_
  · simp only [VcmpServer.abortAll, List.getElem?_mapIdx, Option.map_map]
    refine congrArg (fun g => Option.map g s.tasks[j]?) (funext fun t => ?_)
    simp only [Function.comp_apply]
    split <;> rfl
  · obtain ⟨v, hv, rfl⟩ := abortAll_back hu
    exact ⟨v, hv, rfl, rfl⟩

/-- A task is spawned. -/
theorem Counted.spawn (h : s.Counted) (hendpoints : s'.endpoints = s.endpoints)
    (htasks : s'.tasks = s.tasks ++ [t]) (hnone : t.pc.pending = none)
    (hside : ∀ b, t.pc.side = some b → t.upgrade = b) : s'.Counted := by
  refine h.of_tasks hendpoints (fun i => ?_) fun j u hu => ?_
  · simp [holders, htasks, ConnectionTask.holds, ConnectionTask.pending, hnone]
  · rw [htasks] at hu
    rcases getElem?_concat_cases hu with ⟨-, rfl⟩ | hu
    · exact .inl hside
    · exact .inr ⟨u, hu, rfl, rfl⟩

/-- An endpoint that was just added has no upgrades. -/
theorem Counted.adds (h : s.Counted) (hregistry : s.Registry) :
    Counted { s with endpoints := s.endpoints ++ [{}] } := by
  refine ⟨fun i p hp => ?_, h.sided⟩
  rcases getElem?_concat_cases hp with ⟨rfl, rfl⟩ | hp
  · refine (total_eq_zero fun t ht => ?_).symm
    obtain ⟨k, hk⟩ := List.getElem?_of_mem ht
    have hne : t.pending ≠ some s.endpoints.length := by
      intro hpending
      have hlt := hregistry.endpoint k _ t hk (endpoint_of_pending hpending)
      omega
    simp [ConnectionTask.holds, hne]
  · exact h.counter i p hp

/-- **Every step keeps the counters.** -/
theorem Counted.step (h : s.Counted) (hregistry : s.Registry) (hn : machine.next s e = some s') :
    s'.Counted := by
  cases step_of_next hn with
  | endpoint => exact h.adds hregistry
  | accept hs =>
    cases hs with
    | accepts =>
      exact h.spawn (t := { upgrade := false, pc := .gated }) rfl rfl rfl fun b hb => (by cases hb; rfl)
    | readies | joins | joinsLast => exact h.modifyTask rfl _ rfl fun _ => ⟨rfl, rfl⟩
    | aborts => exact (h.abortAll _).congr rfl rfl
    | _ => exact h.congr rfl rfl
  | @upgrade i => exact h.spawn (t := { upgrade := true, pc := .reserved i }) rfl rfl rfl fun b hb => (by cases hb; rfl)
  | task ht hs => exact h.task ht hs
  | closing _ hs => cases hs <;> exact h.congr rfl rfl
  | stopGoes _ hs => cases hs <;> exact h.congr rfl rfl
  | stopDeadline _ hs =>
    cases hs with
    | others => exact (h.abortAll _).congr rfl rfl
    | loop => exact h.congr rfl rfl
  | _ => exact h.congr rfl rfl

theorem counted_of_reachable (h : machine.Reachable s) : s.Counted := by
  have hinit : ∀ s, machine.init s → s.Counted := by
    rintro s ⟨n, rfl⟩
    exact counted_start n
  exact h.invariant_of hinit fun s e s' hr _ hn hs => hs.step (registry_of_reachable hr) hn

end VcmpServer

end Vcmp
