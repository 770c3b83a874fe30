import Vcmp.Server.Upgrades
/-!
# What an endpoint shows

The sessions of an endpoint are what `sessions()` hands to the
application, and what a broadcast goes to. A session is among them from
its insertion until its task takes it out, at its own endpoint and once;
it is gone for good before `on_disconnected` is called, and however its
task ends.
-/

namespace Vcmp

namespace TaskPc

/-- Behind the insertion of its session, and before its removal. -/
def shows : TaskPc → Bool
  | .releasing _ _ | .preparing _ _ | .hooking _ _ | .serving _ _ | .removing _ _ => true
  | _ => false

/-- Where its session may be inserted still. -/
def mayShow : TaskPc → Bool
  | .cleaning _ _ | .unlisting _ _ => true
  | pc => pc.shows

end TaskPc

namespace VcmpServer

variable {s s' : VcmpServer} {k i c : ℕ} {t : ConnectionTask} {e : Event}

/-- **What the endpoints show is what their tasks serve.** -/
structure Shown (s : VcmpServer) : Prop where
  nodup : ∀ i, (s.registered i).Nodup
  /-- A session that is shown belongs to a task at that endpoint, -/
  task : ∀ i, ∀ c ∈ s.registered i, ∃ (k : ℕ) (t : ConnectionTask), s.tasks[k]? = some t ∧
    t.pc.session = some c ∧ t.pc.endpoint = some i ∧ t.pc.mayShow = true
  /-- and what a task serves is shown. -/
  shown : ∀ (k i c : ℕ) (t : ConnectionTask), s.tasks[k]? = some t → t.pc.shows = true →
    t.pc.session = some c → t.pc.endpoint = some i → c ∈ s.registered i

theorem registered_start (n i : ℕ) :
    registered { endpoints := List.replicate n {} } i = [] := by
  simp only [registered, List.getElem?_replicate]
  split <;> rfl

theorem shown_start (n : ℕ) : Shown { endpoints := List.replicate n {} } := by
  refine ⟨fun i => ?_, fun i c hc => ?_, fun k i c t ht => by simp at ht⟩
  · rw [registered_start]
    exact List.nodup_nil
  · rw [registered_start] at hc
    cases hc

/-- Two tasks with one session are one. -/
theorem Registry.task_unique (h : s.Registry) {j : ℕ} {u : ConnectionTask}
    (ht : s.tasks[k]? = some t) (hc : t.pc.session = some c) (hu : s.tasks[j]? = some u)
    (hd : u.pc.session = some c) : j = k := by
  obtain ⟨x, hx, hk⟩ := h.spawned k c t ht hc
  obtain ⟨y, hy, hj⟩ := h.spawned j c u hu hd
  obtain rfl := Option.some.inj (hx.symm.trans hy)
  exact hj.symm.trans hk

/-- **Where the listings stay**, and a task only goes on with what it has. -/
theorem Shown.of_pcs (h : s.Shown) (hregistered : ∀ i, s'.registered i = s.registered i)
    (hback : ∀ (j : ℕ) (u : ConnectionTask), s'.tasks[j]? = some u → u.pc.shows = true →
      ∃ v : ConnectionTask, s.tasks[j]? = some v ∧ v.pc.shows = true ∧
        u.pc.session = v.pc.session ∧ u.pc.endpoint = v.pc.endpoint)
    (hforth : ∀ (j : ℕ) (v : ConnectionTask), s.tasks[j]? = some v → v.pc.mayShow = true →
      ∃ u : ConnectionTask, s'.tasks[j]? = some u ∧ u.pc.mayShow = true ∧
        u.pc.session = v.pc.session ∧ u.pc.endpoint = v.pc.endpoint) : s'.Shown where
  nodup i := by
    rw [hregistered]
    exact h.nodup i
  task := by
    intro i c hc
    rw [hregistered] at hc
    obtain ⟨j, v, hv, hsession, hendpoint, hmay⟩ := h.task i c hc
    obtain ⟨u, hu, hmay', hsession', hendpoint'⟩ := hforth j v hv hmay
    exact ⟨j, u, hu, hsession'.trans hsession, hendpoint'.trans hendpoint, hmay'⟩
  shown := by
    intro j i c u hu hshows hsession hendpoint
    obtain ⟨v, hv, hshows', hsession', hendpoint'⟩ := hback j u hu hshows
    rw [hregistered]
    exact h.shown j i c v hv hshows' (hsession' ▸ hsession) (hendpoint' ▸ hendpoint)

/-- The tasks are where they were. -/
theorem Shown.same (h : s.Shown) (hregistered : ∀ i, s'.registered i = s.registered i)
    (hback : ∀ (j : ℕ) (u : ConnectionTask), s'.tasks[j]? = some u → u.pc.shows = true →
      ∃ v : ConnectionTask, s.tasks[j]? = some v ∧ u.pc = v.pc)
    (hforth : ∀ (j : ℕ) (v : ConnectionTask), s.tasks[j]? = some v →
      ∃ u : ConnectionTask, s'.tasks[j]? = some u ∧ u.pc = v.pc) : s'.Shown := by
  refine h.of_pcs hregistered (fun j u hu hshows => ?_) fun j v hv hmay => ?_
  · obtain ⟨v, hv, hpc⟩ := hback j u hu hshows
    exact ⟨v, hv, hpc ▸ hshows, by rw [hpc], by rw [hpc]⟩
  · obtain ⟨u, hu, hpc⟩ := hforth j v hv
    exact ⟨u, hu, hpc ▸ hmay, by rw [hpc], by rw [hpc]⟩

/-- A task moves, and the listings stay. -/
theorem Shown.move (h : s.Shown) (ht : s.tasks[k]? = some t) (pc : TaskPc)
    (htasks : s'.tasks = s.tasks.set k { t with pc := pc })
    (hregistered : ∀ i, s'.registered i = s.registered i)
    (hmay : t.pc.mayShow = true → pc.mayShow = true ∧ pc.session = t.pc.session ∧
      pc.endpoint = t.pc.endpoint)
    (hshows : pc.shows = true → t.pc.shows = true ∧ pc.session = t.pc.session ∧
      pc.endpoint = t.pc.endpoint) : s'.Shown := by
  refine h.of_pcs hregistered (fun j u hu hu' => ?_) fun j v hv hv' => ?_
  · rw [htasks] at hu
    rcases getElem?_set_cases hu with ⟨rfl, rfl⟩ | ⟨-, hu⟩
    · exact ⟨t, ht, hshows hu'⟩
    · exact ⟨u, hu, hu', rfl, rfl⟩
  · rw [htasks]
    by_cases hj : k = j
    · subst hj
      obtain rfl := Option.some.inj (ht.symm.trans hv)
      exact ⟨_, getElem?_set_self' ht, hmay hv'⟩
    · exact ⟨v, by rwa [List.getElem?_set_ne hj], hv', rfl, rfl⟩

/-- A task inserts its session. -/
theorem Shown.inserts (h : s.Shown) (hregistry : s.Registry) (ht : s.tasks[k]? = some t)
    (hpc : t.pc = .inserting i c) (pc : TaskPc) (hpc' : pc = .releasing i c ∨ pc = .preparing i c) :
    ((s.setTask k { t with pc := pc }).insert i c).Shown := by
  have hsession : t.pc.session = some c := by rw [hpc]; rfl
  have hlt : i < s.endpoints.length := hregistry.endpoint k i t ht (by rw [hpc]; rfl)
  obtain ⟨hsession', hendpoint', hmay, hshows⟩ : pc.session = some c ∧ pc.endpoint = some i ∧
      pc.mayShow = true ∧ pc.shows = true := by
    rcases hpc' with rfl | rfl <;> exact ⟨rfl, rfl, rfl, rfl⟩
  -- what is shown is not what this task has
  have hother : ∀ {i' d : ℕ}, d ∈ s.registered i' → ∃ (j : ℕ) (v : ConnectionTask), j ≠ k ∧
      s.tasks[j]? = some v ∧ v.pc.session = some d ∧ v.pc.endpoint = some i' ∧ v.pc.mayShow = true := by
    intro i' d hd
    obtain ⟨j, v, hv, hvs, hve, hvm⟩ := h.task i' d hd
    refine ⟨j, v, ?_, hv, hvs, hve, hvm⟩
    rintro rfl
    obtain rfl := Option.some.inj (ht.symm.trans hv)
    rw [hpc] at hvm
    cases hvm
  have hnew : c ∉ s.registered i := by
    intro hc
    obtain ⟨j, v, hne, hv, hvs, -⟩ := hother hc
    exact hne (hregistry.task_unique ht hsession hv hvs)
  refine ⟨fun i' => ?_, fun i' d hd => ?_, fun j i' d u hu hus hud hue => ?_⟩
  · have hlist : ((s.setTask k { t with pc := pc }).insert i c).registered i' =
        if i = i' then s.registered i ++ [c] else s.registered i' := by
      rw [VcmpServer.insert, registered_modify]
      simp [registered, setTask, hlt]
    rw [hlist]
    split
    · rw [List.nodup_append]
      refine ⟨h.nodup i, by simp, fun a ha b hb => ?_⟩
      rw [List.mem_singleton] at hb
      subst hb
      rintro rfl
      exact hnew ha
    · exact h.nodup i'
  · rcases mem_registered_insert.mp hd with hd | ⟨rfl, rfl, -⟩
    · obtain ⟨j, v, hne, hv, hrest⟩ := hother hd
      refine ⟨j, v, ?_, hrest⟩
      exact (List.getElem?_set_ne (Ne.symm hne)).trans hv
    · exact ⟨k, _, getElem?_set_self' ht, hsession', hendpoint', hmay⟩
  · rw [mem_registered_insert]
    rcases getElem?_set_cases hu with ⟨rfl, rfl⟩ | ⟨-, hu⟩
    · obtain rfl := Option.some.inj (hsession'.symm.trans hud)
      obtain rfl := Option.some.inj (hendpoint'.symm.trans hue)
      exact .inr ⟨rfl, rfl, hlt⟩
    · exact .inl (h.shown j i' d u hu hus hud hue)

/-- **A task takes its session out**, and does not serve it any more. -/
theorem Shown.removes (h : s.Shown) (hregistry : s.Registry) (ht : s.tasks[k]? = some t)
    (hsession : t.pc.session = some c) (hendpoint : t.pc.endpoint = some i) (pc : TaskPc)
    (hno : pc.shows = false) : ((s.setTask k { t with pc := pc }).remove i c).Shown := by
  refine ⟨fun i' => ?_, fun i' d hd => ?_, fun j i' d u hu hus hud hue => ?_⟩
  · have hlist : ((s.setTask k { t with pc := pc }).remove i c).registered i' =
        if i = i' then (s.registered i).filter (fun d => d ≠ c) else s.registered i' := by
      rw [VcmpServer.remove, registered_modify]
      split
      · cases hp : s.endpoints[i]? <;> simp [registered, setTask, hp]
      · rfl
    rw [hlist]
    split
    · exact (h.nodup i).filter _
    · exact h.nodup i'
  · obtain ⟨hd, hnot⟩ := mem_registered_remove.mp hd
    obtain ⟨j, v, hv, hvs, hve, hvm⟩ := h.task i' d hd
    refine ⟨j, v, ?_, hvs, hve, hvm⟩
    have hne : k ≠ j := by
      rintro rfl
      obtain rfl := Option.some.inj (ht.symm.trans hv)
      exact hnot ⟨Option.some.inj (hendpoint.symm.trans hve), Option.some.inj (hvs.symm.trans hsession)⟩
    exact (List.getElem?_set_ne hne).trans hv
  · rw [mem_registered_remove]
    rcases getElem?_set_cases hu with ⟨rfl, rfl⟩ | ⟨hne, hold⟩
    · rw [hno] at hus
      cases hus
    · refine ⟨h.shown j i' d u hold hus hud hue, ?_⟩
      rintro ⟨-, rfl⟩
      exact hne (hregistry.task_unique ht hsession hold hud)

/-! ## What the listings do not show -/

theorem registered_counter (s : VcmpServer) (j : ℕ) (g : ℕ → ℕ) (i : ℕ) : registered { s with
    endpoints := s.endpoints.modify j fun p => { p with pendingUpgrades := g p.pendingUpgrades } } i =
      s.registered i := by
  rw [registered_modify]
  split
  · rename_i hji
    subst hji
    cases hp : s.endpoints[j]? <;> simp [registered, hp]
  · rfl

theorem registered_dropPending (s : VcmpServer) (o : Option ℕ) (i : ℕ) :
    (s.dropPending o).registered i = s.registered i := by
  cases o with
  | none => rfl
  | some j => exact s.registered_counter j (fun n => n - 1) i

theorem registered_leaveHook (s : VcmpServer) (k i : ℕ) :
    (s.leaveHook k).registered i = s.registered i := by
  rw [leaveHook_eq]
  rfl

/-- A new endpoint lists nothing. -/
theorem registered_adds (s : VcmpServer) (i : ℕ) :
    registered { s with endpoints := s.endpoints ++ [{}] } i = s.registered i := by
  unfold registered
  by_cases hi : i < s.endpoints.length
  · rw [List.getElem?_append_left hi]
  · have hnone : s.endpoints[i]? = none := List.getElem?_eq_none (Nat.not_lt.mp hi)
    rw [List.getElem?_append_right (Nat.not_lt.mp hi), hnone]
    rcases hd : i - s.endpoints.length with - | d <;> simp

/-- Where a task unwinds to. -/
theorem TaskPc.unwound_cases {pc : TaskPc} (h : pc.awaits = true) :
    (pc.unwound = .ended ∧ pc.mayShow = false) ∨
      ∃ i c, pc.unwound = .cleaning i c ∧ pc.session = some c ∧ pc.endpoint = some i := by
  cases pc <;> first
    | exact .inl ⟨rfl, rfl⟩
    | exact .inr ⟨_, _, rfl, rfl, rfl⟩
    | cases h

/-- **Every step of a task keeps what the endpoints show.** -/
theorem Shown.taskStep (h : s.Shown) (hregistry : s.Registry) {move : TaskMove}
    (ht : s.tasks[k]? = some t) (hs : TaskStep s k t move s') : s'.Shown := by
  have goes : ∀ {u : VcmpServer} (pc : TaskPc), u.tasks = s.tasks.set k { t with pc := pc } →
      (∀ i, u.registered i = s.registered i) →
      (t.pc.mayShow = true → pc.mayShow = true ∧ pc.session = t.pc.session ∧
        pc.endpoint = t.pc.endpoint) →
      (pc.shows = true → t.pc.shows = true ∧ pc.session = t.pc.session ∧
        pc.endpoint = t.pc.endpoint) → u.Shown :=
    fun pc htasks hreg hmay hshows => h.move ht pc htasks hreg hmay hshows
  -- before the insertion and behind the removal nothing is shown
  have hidden : ∀ {u : VcmpServer} (pc : TaskPc), u.tasks = s.tasks.set k { t with pc := pc } →
      (∀ i, u.registered i = s.registered i) → t.pc.mayShow = false → pc.shows = false → u.Shown :=
    fun pc htasks hreg hmay hshows => goes pc htasks hreg
      (fun hm => by rw [hmay] at hm; cases hm) fun hm => by rw [hshows] at hm; cases hm
  have unwinds : t.pc.awaits = true →
      ((s.setTask k { t with pc := t.pc.unwound }).leaveHook k).Shown := by
    intro hawaits
    have htasks : ((s.setTask k { t with pc := t.pc.unwound }).leaveHook k).tasks =
        s.tasks.set k { t with pc := t.pc.unwound } := by
      rw [leaveHook_eq]
      rfl
    rcases TaskPc.unwound_cases hawaits with ⟨hpc, hno⟩ | ⟨i, c, hpc, hsession, hendpoint⟩
    · exact hidden _ htasks (registered_leaveHook _ k) hno (by rw [hpc]; rfl)
    · refine goes _ htasks (registered_leaveHook _ k) (fun _ => ?_) fun hm => ?_
      · rw [hpc, hsession, hendpoint]
        exact ⟨rfl, rfl, rfl⟩
      · rw [hpc] at hm
        cases hm
  cases hs with
  | opens hpc | matched hpc | shaken hpc | turnedAway hpc | letIn hpc | upgraded hpc | spawned hpc
  | notifies hpc | silent hpc =>
    exact hidden _ rfl (fun _ => rfl) (by rw [hpc]; rfl) rfl
  | lost hpc =>
    refine hidden .ended rfl (fun _ => rfl) ?_ rfl
    rcases hpc with hpc | ⟨i, hpc⟩ <;> rw [hpc] <;> rfl
  | counted hpc =>
    exact hidden _ rfl (fun i => registered_counter _ _ (fun n => n + 1) i) (by rw [hpc]; rfl) rfl
  | failed hpc =>
    exact hidden .ended (by rw [dropPending_eq]; rfl) (registered_dropPending _ _)
      (by rw [hpc]; rfl) rfl
  | inserted hpc =>
    refine h.inserts hregistry ht hpc _ ?_
    split
    · exact .inl rfl
    · exact .inr rfl
  | @released i c hpc =>
    refine goes (.preparing i c) (by rw [dropPending_eq]; rfl) (registered_dropPending _ _) ?_ ?_ <;>
    · rw [hpc]
      exact fun _ => ⟨rfl, rfl, rfl⟩
  | unhooked hpc | hooked hpc | overloaded hpc | closedSeen hpc | cleaned hpc =>
    refine goes _ rfl (fun _ => rfl) ?_ ?_ <;>
    · rw [hpc]
      first
        | exact fun _ => ⟨rfl, rfl, rfl⟩
        | exact fun hm => nomatch hm
  | @hookEnds i c hpc =>
    refine goes (.serving i c) (by rw [leaveHook_eq]; rfl) (registered_leaveHook _ k) ?_ ?_ <;>
    · rw [hpc]
      exact fun _ => ⟨rfl, rfl, rfl⟩
  | notified hpc =>
    exact hidden _ (by rw [leaveHook_eq]; rfl) (registered_leaveHook _ k) (by rw [hpc]; rfl) rfl
  | removed hpc => exact h.removes hregistry ht (by rw [hpc]; rfl) (by rw [hpc]; rfl) _ rfl
  | unlisted hpc => exact h.removes hregistry ht (by rw [hpc]; rfl) (by rw [hpc]; rfl) _ rfl
  | aborts _ hawaits => exact unwinds hawaits
  | panics hhook => exact unwinds (TaskPc.awaits_of_inHook hhook)

/-- The tasks in another respect. -/
theorem Shown.of_tasks (h : s.Shown) (hendpoints : s'.endpoints = s.endpoints)
    (hback : ∀ (j : ℕ) (u : ConnectionTask), s'.tasks[j]? = some u → u.pc.shows = true →
      ∃ v : ConnectionTask, s.tasks[j]? = some v ∧ u.pc = v.pc)
    (hforth : ∀ (j : ℕ) (v : ConnectionTask), s.tasks[j]? = some v →
      ∃ u : ConnectionTask, s'.tasks[j]? = some u ∧ u.pc = v.pc) : s'.Shown := by
  refine h.same (fun i => ?_) hback hforth
  unfold registered
  rw [hendpoints]

theorem Shown.congr (h : s.Shown) (hendpoints : s'.endpoints = s.endpoints)
    (htasks : s'.tasks = s.tasks) : s'.Shown :=
  h.of_tasks hendpoints (fun _ u hu _ => ⟨u, htasks ▸ hu, rfl⟩) fun _ v hv => ⟨v, htasks.symm ▸ hv, rfl⟩

theorem Shown.modifyTask (h : s.Shown) (hendpoints : s'.endpoints = s.endpoints) (j : ℕ)
    {g : ConnectionTask → ConnectionTask} (htasks : s'.tasks = s.tasks.modify j g)
    (hg : ∀ t, (g t).upgrade = t.upgrade ∧ (g t).pc = t.pc) : s'.Shown := by
  refine h.of_tasks hendpoints (fun i u hu _ => ?_) fun i v hv => ?_
  · obtain ⟨v, hv, -, hpc⟩ := modify_back (htasks ▸ hu) hg
    exact ⟨v, hv, hpc⟩
  · obtain ⟨u, hu, -, hpc⟩ := modify_forth hg hv
    exact ⟨u, htasks.symm ▸ hu, hpc⟩

theorem Shown.spawn (h : s.Shown) (hendpoints : s'.endpoints = s.endpoints) (t : ConnectionTask)
    (htasks : s'.tasks = s.tasks ++ [t]) (hno : t.pc.shows = false) : s'.Shown := by
  refine h.of_tasks hendpoints (fun i u hu hshows => ?_) fun i v hv => ⟨v, ?_, rfl⟩
  · rw [htasks] at hu
    rcases getElem?_concat_cases hu with ⟨-, rfl⟩ | hu
    · rw [hno] at hshows
      cases hshows
    · exact ⟨u, hu, rfl⟩
  · rw [htasks, getElem?_append_some hv]

theorem Shown.abortAll (h : s.Shown) (p : ℕ → ConnectionTask → Bool) : (s.abortAll p).Shown := by
  refine h.of_tasks rfl (fun i u hu _ => ?_) fun i v hv => ⟨_, abortAll_forth p hv, rfl⟩
  obtain ⟨v, hv, rfl⟩ := abortAll_back hu
  exact ⟨v, hv, rfl⟩

/-- **Every step keeps what the endpoints show.** -/
theorem Shown.step (h : s.Shown) (hregistry : s.Registry) (hn : machine.next s e = some s') :
    s'.Shown := by
  cases step_of_next hn with
  | endpoint =>
    exact h.same s.registered_adds (fun _ u hu _ => ⟨u, hu, rfl⟩) fun _ v hv => ⟨v, hv, rfl⟩
  | accept hs =>
    cases hs with
    | accepts => exact h.spawn rfl _ rfl rfl
    | readies | joins | joinsLast => exact h.modifyTask rfl _ rfl fun _ => ⟨rfl, rfl⟩
    | aborts => exact (h.abortAll _).congr rfl rfl
    | _ => exact h.congr rfl rfl
  | upgrade => exact h.spawn rfl _ rfl rfl
  | task ht hs => exact h.taskStep hregistry ht hs
  | closing _ hs => cases hs <;> exact h.congr rfl rfl
  | stopGoes _ hs => cases hs <;> exact h.congr rfl rfl
  | stopDeadline _ hs =>
    cases hs with
    | others => exact (h.abortAll _).congr rfl rfl
    | loop => exact h.congr rfl rfl
  | _ => exact h.congr rfl rfl

theorem shown_of_reachable (h : machine.Reachable s) : s.Shown := by
  have hinit : ∀ s, machine.init s → s.Shown := by
    rintro s ⟨n, rfl⟩
    exact shown_start n
  exact h.invariant_of hinit fun s e s' hr _ hn hs => hs.step (registry_of_reachable hr) hn

/-! ## What is gone stays away -/

/-- **What is listed was listed, or its task has just inserted it.** -/
theorem mem_registered_of_next (hn : machine.next s e = some s') (hc : c ∈ s'.registered i) :
    c ∈ s.registered i ∨ ∃ (k : ℕ) (t : ConnectionTask), s.tasks[k]? = some t ∧
      t.pc = .inserting i c := by
  have same : (∀ j, s'.registered j = s.registered j) → c ∈ s.registered i := fun h => h i ▸ hc
  have hsame : s'.endpoints = s.endpoints → c ∈ s.registered i := by
    intro hendpoints
    refine same fun j => ?_
    unfold registered
    rw [hendpoints]
  cases step_of_next hn with
  | endpoint => exact .inl (same s.registered_adds)
  | accept hs => cases hs <;> exact .inl (hsame rfl)
  | @task k t _ _ ht hs =>
    cases hs with
    | inserted hpc =>
      rcases mem_registered_insert.mp hc with hc | ⟨rfl, rfl, -⟩
      · exact .inl hc
      · exact .inr ⟨k, t, ht, hpc⟩
    | removed | unlisted => exact .inl (mem_registered_remove.mp hc).1
    | counted => exact .inl (same fun j => registered_counter _ _ (fun n => n + 1) j)
    | failed | released => exact .inl (same (registered_dropPending _ _))
    | hookEnds | notified | aborts | panics => exact .inl (same (registered_leaveHook _ k))
    | _ => exact .inl (hsame rfl)
  | closing _ hs => cases hs <;> exact .inl (hsame rfl)
  | stopGoes _ hs => cases hs <;> exact .inl (hsame rfl)
  | stopDeadline _ hs => cases hs <;> exact .inl (hsame rfl)
  | _ => exact .inl (hsame rfl)

/-- A session that is behind its insertion and is listed nowhere. -/
structure Gone (s : VcmpServer) (c : ℕ) : Prop where
  there : c < s.sessions.length
  unlisted : ∀ i, c ∉ s.registered i
  inserted : ∀ (k i : ℕ) (t : ConnectionTask), s.tasks[k]? = some t → t.pc ≠ .inserting i c

theorem length_sessions_le (hn : machine.next s e = some s') :
    s.sessions.length ≤ s'.sessions.length := by
  cases step_of_next hn with
  | accept hs => cases hs <;> exact Nat.le_refl _
  | @task k _ _ _ _ hs =>
    cases hs with
    | spawned => simp
    | overloaded | cleaned => simp [closeSession, setTask]
    | failed | released => rw [dropPending_eq]; exact Nat.le_refl _
    | hookEnds | notified | aborts | panics => rw [leaveHook_eq]; exact Nat.le_refl _
    | _ => exact Nat.le_refl _
  | closing _ hs => cases hs <;> simp [closeSession]
  | stopGoes _ hs => cases hs <;> exact Nat.le_refl _
  | stopDeadline _ hs => cases hs <;> exact Nat.le_refl _
  | close | finish => simp [closeSession]
  | _ => exact Nat.le_refl _

/-- A task is about to insert a session that it has just spawned. -/
theorem spawned_of_taskStep {move : TaskMove} {u : ConnectionTask} (ht : s.tasks[k]? = some t)
    (hs : TaskStep s k t move s') (hu : s'.tasks[k]? = some u) (hpc' : u.pc = .inserting i c) :
    c = s.sessions.length := by
  have moved : ∀ pc, s'.tasks = s.tasks.set k { t with pc := pc } → pc = .inserting i c := by
    intro pc htasks
    rw [htasks, getElem?_set_self' ht] at hu
    obtain rfl := Option.some.inj hu
    exact hpc'
  cases hs with
  | spawned => exact (TaskPc.inserting.inj (moved _ rfl)).2.symm
  | inserted =>
    have hmoved := moved _ rfl
    split at hmoved <;> cases hmoved
  | failed => exact nomatch moved .ended (by rw [dropPending_eq]; rfl)
  | @released i c => exact nomatch moved (.preparing i c) (by rw [dropPending_eq]; rfl)
  | @hookEnds i c => exact nomatch moved (.serving i c) (by rw [leaveHook_eq]; rfl)
  | @notified i c => exact nomatch moved (.cleaning i c) (by rw [leaveHook_eq]; rfl)
  | aborts _ hawaits =>
    have hmoved := moved t.pc.unwound (by rw [leaveHook_eq]; rfl)
    rcases TaskPc.unwound_cases hawaits with ⟨hpc, -⟩ | ⟨_, _, hpc, -⟩ <;> rw [hpc] at hmoved <;>
      cases hmoved
  | panics hhook =>
    have hmoved := moved t.pc.unwound (by rw [leaveHook_eq]; rfl)
    rcases TaskPc.unwound_cases (TaskPc.awaits_of_inHook hhook) with ⟨hpc, -⟩ | ⟨_, _, hpc, -⟩ <;>
      rw [hpc] at hmoved <;> cases hmoved
  | _ => exact nomatch moved _ rfl

theorem Gone.step (h : s.Gone c) (hn : machine.next s e = some s') : s'.Gone c where
  there := Nat.lt_of_lt_of_le h.there (length_sessions_le hn)
  unlisted := by
    intro i hc
    rcases mem_registered_of_next hn hc with hc | ⟨k, t, ht, hpc⟩
    · exact h.unlisted i hc
    · exact h.inserted k i t ht hpc
  inserted := by
    intro k i u hu hpc
    rcases task_before hn hu with ⟨t, ht, -, hsame⟩ | ⟨move, t, rfl, ht, hs⟩ | rfl | ⟨j, -, -, rfl⟩
    · exact h.inserted k i t ht (hsame ▸ hpc)
    · have hnew := spawned_of_taskStep ht hs hu hpc
      have hlt := h.there
      omega
    · cases hpc
    · cases hpc

/-- **What an endpoint shows**, in every run: each session once, at the
endpoint it came to, for as long as its task serves it. A task that has
ended, however it did, leaves its session closed and shown by none, and
what was taken out never comes back. -/
theorem endpoints_show (h : machine.Reachable s) :
    (∀ i, (s.registered i).Nodup) ∧
    ∀ (c : ℕ) (x : ServedSession) (t : ConnectionTask), s.sessions[c]? = some x →
      s.tasks[x.task]? = some t →
      (t.pc.shows = true → c ∈ s.registered x.endpoint) ∧
      (∀ i, c ∈ s.registered i → i = x.endpoint ∧ t.pc.session = some c ∧ t.pc.mayShow = true) ∧
      (t.pc = .ended → x.isOpen = false ∧ ∀ i, c ∉ s.registered i) ∧
      ((∀ i, c ∉ s.registered i) → t.pc ≠ .inserting x.endpoint c →
        ∀ s', machine.Path Machine.free s s' → ∀ i, c ∉ s'.registered i) := by
  have hshown := shown_of_reachable h
  have hregistry := registry_of_reachable h
  refine ⟨hshown.nodup, fun c x t hx ht => ?_⟩
  obtain ⟨u, hu, howned⟩ := hregistry.sessions c x hx
  obtain rfl := Option.some.inj (ht.symm.trans hu)
  have hlisted : ∀ i, c ∈ s.registered i →
      i = x.endpoint ∧ t.pc.session = some c ∧ t.pc.mayShow = true := by
    intro i hc
    obtain ⟨k, v, hv, hvs, hve, hvm⟩ := hshown.task i c hc
    obtain ⟨y, hy, hyk, rfl, -⟩ := hregistry.own hv hvs hve
    obtain rfl := Option.some.inj (hx.symm.trans hy)
    rw [hyk, hv] at ht
    obtain rfl := Option.some.inj ht
    exact ⟨rfl, hvs, hvm⟩
  refine ⟨fun hshows => ?_, hlisted, fun hended => ⟨?_, fun i hc => ?_⟩, fun hnone hpc s' hp => ?_⟩
  · have hsession : ∃ d, t.pc.session = some d := by
      cases hpc : t.pc <;> rw [hpc] at hshows <;> first
        | exact ⟨_, rfl⟩
        | cases hshows
    obtain ⟨d, hd⟩ := hsession
    obtain ⟨rfl, hendpoint⟩ := howned.held d hd
    exact hshown.shown _ _ _ t ht hshows hd hendpoint
  · cases hopen : x.isOpen with
    | false => rfl
    | true =>
      have hheld := howned.isOpen hopen
      rw [hended] at hheld
      cases hheld
  · obtain ⟨-, -, hmay⟩ := hlisted i hc
    rw [hended] at hmay
    cases hmay
  · have hgone : s.Gone c := by
      refine ⟨(List.getElem?_eq_some_iff.mp hx).1, hnone, fun k i v hv hvpc => hpc ?_⟩
      obtain ⟨y, hy, hyk, rfl, -⟩ := hregistry.own hv (by rw [hvpc]; rfl) (by rw [hvpc]; rfl)
      obtain rfl := Option.some.inj (hx.symm.trans hy)
      rw [hyk, hv] at ht
      obtain rfl := Option.some.inj ht
      exact hvpc
    exact (hp.preserves (P := fun s : VcmpServer => s.Gone c) (fun _ _ _ _ hn hg => hg.step hn) hgone).unlisted

/-- A connection whose `on_connected` hook panics. -/
def panickingHook : List Event :=
  [.accept .accepts, .accept .goes, .accept .goes, .task 0 .goes, .task 0 (.matched 0),
    .task 0 .succeeds, .task 0 .goes, .task 0 .goes, .task 0 .goes, .task 0 (.prepare true true),
    .task 0 .panics, .task 0 .goes, .task 0 .goes]

/-- Its session is closed and shown nowhere. -/
theorem endpoints_show_panickingHook : ∃ s x,
    machine.run { endpoints := List.replicate 1 {} } panickingHook = some s ∧
      s.sessions[0]? = some x ∧ x.isOpen = false ∧ ∀ i, 0 ∉ s.registered i := by
  have hrun : (machine.run { endpoints := List.replicate 1 {} } panickingHook).any
      (fun s => decide (s.sessions.map ServedSession.task = [0] ∧
        s.tasks.map ConnectionTask.pc = [.ended])) = true := by
    decide +kernel
  obtain ⟨s, hs, hend⟩ := Machine.exists_of_run hrun
  obtain ⟨hsessions, htasks⟩ := of_decide_eq_true hend
  obtain ⟨x, hx, hk⟩ := List.map_eq_singleton_iff.mp hsessions
  obtain ⟨t, ht, hpc⟩ := List.map_eq_singleton_iff.mp htasks
  have hreach : machine.Reachable s := Machine.reachable_of_run ⟨1, rfl⟩ hs
  obtain ⟨-, hshow⟩ := endpoints_show hreach
  obtain ⟨-, -, hended, -⟩ := hshow 0 x t (by rw [hx]; rfl) (by rw [ht, hk]; rfl)
  exact ⟨s, x, hs, by rw [hx]; rfl, (hended hpc).1, (hended hpc).2⟩

end VcmpServer

end Vcmp
