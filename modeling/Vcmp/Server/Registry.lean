import Vcmp.Server.Step
/-!
# Sessions, their tasks and their endpoints

A session belongs to the task that spawned it until that task ends, and
it is closed by then. While it is open it stands among the sessions of
its endpoint, but for the moment between its spawning and its insertion.
-/

namespace Vcmp

/-- Where a task has seen its session closed. -/
def TaskPc.seesClosed : TaskPc → Bool
  | .removing _ _ | .deciding _ _ | .notifying _ _ => true
  | _ => false

/-- Behind the spawning of its session. -/
def TaskPc.started : TaskPc → Bool
  | .gated | .handshaking | .responding _ | .checking _ | .reserved _ | .upgrading _
  | .starting _ => false
  | _ => true

namespace VcmpServer

variable {s s' : VcmpServer} {k i c : ℕ} {t : ConnectionTask} {e : Event}

/-- The sessions of an endpoint. -/
def registered (s : VcmpServer) (i : ℕ) : List ℕ := (s.endpoints[i]?.map Endpoint.sessions).getD []

/-- **A session and the task that spawned it.** -/
structure Owned (s : VcmpServer) (c : ℕ) (x : ServedSession) (t : ConnectionTask) : Prop where
  shut : x.closed = true → x.isOpen = false
  started : t.pc.started = true
  /-- A task that has a session has this one, at its endpoint. -/
  held : ∀ d, t.pc.session = some d → d = c ∧ t.pc.endpoint = some x.endpoint
  /-- An open session is held, -/
  isOpen : x.isOpen = true → t.pc.session = some c
  /-- and stands at its endpoint unless it is about to be inserted. -/
  listed : x.isOpen = true → t.pc = .inserting x.endpoint c ∨ c ∈ s.registered x.endpoint
  seen : t.pc.seesClosed = true → x.closed = true
  unlisting : t.pc = .unlisting x.endpoint c → x.isOpen = false

/-- **What holds of the sessions and the endpoints.** -/
structure Registry (s : VcmpServer) : Prop where
  sessions : ∀ (c : ℕ) (x : ServedSession), s.sessions[c]? = some x → ∃ t : ConnectionTask,
    s.tasks[x.task]? = some t ∧ Owned s c x t
  /-- A task that has a session spawned it. -/
  spawned : ∀ (k c : ℕ) (t : ConnectionTask), s.tasks[k]? = some t → t.pc.session = some c →
    ∃ x, s.sessions[c]? = some x ∧ x.task = k
  /-- The endpoints the tasks are at exist, -/
  endpoint : ∀ (k i : ℕ) (t : ConnectionTask), s.tasks[k]? = some t → t.pc.endpoint = some i →
    i < s.endpoints.length
  /-- and so do the sessions they list. -/
  listed : ∀ i, ∀ c ∈ s.registered i, c < s.sessions.length

theorem registry_start (n : ℕ) : Registry { endpoints := List.replicate n {} } := by
  refine ⟨by simp, by simp, by simp, fun i c hc => ?_⟩
  simp only [registered, List.getElem?_replicate] at hc
  split at hc <;> simp at hc

/-! ## What becomes of one part -/

/-- A change of one endpoint. -/
theorem registered_modify (s : VcmpServer) (i j : ℕ) (g : Endpoint → Endpoint) :
    registered { s with endpoints := s.endpoints.modify i g } j =
      if i = j then ((s.endpoints[i]?.map g).map Endpoint.sessions).getD [] else s.registered j := by
  simp only [registered, List.getElem?_modify]
  by_cases hij : i = j
  · subst hij
    simp
  · simp [hij]

theorem mem_registered_insert {j d : ℕ} : d ∈ (s.insert i c).registered j ↔
    d ∈ s.registered j ∨ i = j ∧ d = c ∧ i < s.endpoints.length := by
  rw [insert, registered_modify]
  by_cases hij : i = j
  · subst hij
    by_cases hlt : i < s.endpoints.length
    · simp [registered, hlt]
    · simp [registered, hlt]
  · simp [hij]

theorem mem_registered_remove {j d : ℕ} : d ∈ (s.remove i c).registered j ↔
    d ∈ s.registered j ∧ ¬ (i = j ∧ d = c) := by
  rw [remove, registered_modify]
  by_cases hij : i = j
  · subst hij
    cases hp : s.endpoints[i]? <;> simp [registered, hp]
  · simp [hij]

/-- A session sees of the server its own endpoint. -/
theorem Owned.congr {x : ServedSession} (h : Owned s c x t)
    (hlisted : x.isOpen = true → c ∈ s.registered x.endpoint → c ∈ s'.registered x.endpoint) :
    Owned s' c x t where
  shut := h.shut
  started := h.started
  held := h.held
  isOpen := h.isOpen
  listed ho := (h.listed ho).imp_right (hlisted ho)
  seen := h.seen
  unlisting := h.unlisting

theorem Owned.close {x : ServedSession} (h : Owned s c x t) :
    Owned s c { x with isOpen := false } t where
  shut _ := rfl
  started := h.started
  held := h.held
  isOpen ho := by cases ho
  listed ho := by cases ho
  seen := h.seen
  unlisting _ := rfl

theorem Owned.finish {x : ServedSession} (h : Owned s c x t) (hshut : x.isOpen = false) :
    Owned s c { x with closed := true } t where
  shut _ := hshut
  started := h.started
  held := h.held
  isOpen := h.isOpen
  listed := h.listed
  seen _ := rfl
  unlisting _ := hshut

/-- **Where tasks, sessions and listings stay** nothing is to be seen. -/
theorem Registry.congr (h : s.Registry) (htasks : s'.tasks = s.tasks)
    (hsessions : s'.sessions = s.sessions) (hregistered : ∀ i, s'.registered i = s.registered i)
    (hlength : s.endpoints.length ≤ s'.endpoints.length) : s'.Registry where
  sessions := by
    intro c x hx
    obtain ⟨t, ht, howned⟩ := h.sessions c x (hsessions ▸ hx)
    exact ⟨t, htasks.symm ▸ ht, howned.congr fun _ hc => by rw [hregistered]; exact hc⟩
  spawned := by rw [htasks, hsessions]; exact h.spawned
  endpoint := by
    intro k i t ht hi
    have hlt := h.endpoint k i t (htasks ▸ ht) hi
    omega
  listed := by
    intro i c hc
    rw [hsessions]
    exact h.listed i c (hregistered i ▸ hc)

/-- A change of one session that its owner does not mind. -/
theorem Registry.modify (h : s.Registry) (c : ℕ) {g : ServedSession → ServedSession}
    (htask : ∀ x, (g x).task = x.task)
    (howned : ∀ x t, s.sessions[c]? = some x → Owned s c x t → Owned s c (g x) t) :
    Registry { s with sessions := s.sessions.modify c g } where
  sessions := by
    intro d y hy
    obtain ⟨x, hx, rfl⟩ := getElem?_modify_cases hy
    obtain ⟨t, ht, hold⟩ := h.sessions d x hx
    by_cases hd : c = d
    · subst hd
      rw [if_pos rfl]
      exact ⟨t, by rw [htask]; exact ht, (howned x t hx hold).congr fun _ hc => hc⟩
    · rw [if_neg hd]
      exact ⟨t, ht, hold.congr fun _ hc => hc⟩
  spawned := by
    intro k d t ht hd
    obtain ⟨x, hx, hk⟩ := h.spawned k d t ht hd
    refine ⟨if c = d then g x else x, by simp [List.getElem?_modify, hx], ?_⟩
    split <;> simp [htask, hk]
  endpoint := h.endpoint
  listed := by
    intro i d hd
    rw [List.length_modify]
    exact h.listed i d hd

theorem Registry.closeSession (h : s.Registry) (c : ℕ) : (s.closeSession c).Registry :=
  h.modify c (fun _ => rfl) fun _ _ _ howned => howned.close

/-- A session is inserted. -/
theorem Registry.insert (h : s.Registry) (i : ℕ) (hc : c < s.sessions.length) :
    (s.insert i c).Registry where
  sessions := by
    intro d x hx
    obtain ⟨t, ht, howned⟩ := h.sessions d x hx
    exact ⟨t, ht, howned.congr fun _ hd => mem_registered_insert.mpr (.inl hd)⟩
  spawned := h.spawned
  endpoint := by
    intro k j t ht hj
    have hlt := h.endpoint k j t ht hj
    simpa [VcmpServer.insert] using hlt
  listed := by
    intro j d hd
    rcases mem_registered_insert.mp hd with hd | ⟨-, rfl, -⟩
    · exact h.listed j d hd
    · exact hc

/-- **A session that is not open is removed.** -/
theorem Registry.remove (h : s.Registry) (i : ℕ)
    (hshut : ∀ x, s.sessions[c]? = some x → x.isOpen = false) : (s.remove i c).Registry where
  sessions := by
    intro d x hx
    obtain ⟨t, ht, howned⟩ := h.sessions d x hx
    refine ⟨t, ht, howned.congr fun ho hd => mem_registered_remove.mpr ⟨hd, ?_⟩⟩
    rintro ⟨-, rfl⟩
    rw [hshut x hx] at ho
    cases ho
  spawned := h.spawned
  endpoint := by
    intro k j t ht hj
    have hlt := h.endpoint k j t ht hj
    simpa [VcmpServer.remove] using hlt
  listed := fun j d hd => h.listed j d (mem_registered_remove.mp hd).1

/-- **A task moves**, with what becomes of a session of its own. -/
theorem Registry.move (h : s.Registry) (ht : s.tasks[k]? = some t) (pc : TaskPc)
    (hspawned : ∀ c, pc.session = some c → t.pc.session = some c)
    (hendpoint : ∀ i, pc.endpoint = some i → i < s.endpoints.length)
    (hown : ∀ c x, s.sessions[c]? = some x → Owned s c x t → Owned s c x { t with pc := pc }) :
    (s.setTask k { t with pc := pc }).Registry where
  sessions := by
    intro c x hx
    obtain ⟨u, hu, howned⟩ := h.sessions c x hx
    by_cases hk : x.task = k
    · rw [hk] at hu ⊢
      obtain rfl := Option.some.inj (ht.symm.trans hu)
      exact ⟨_, getElem?_set_self' ht, (hown c x hx howned).congr fun _ hc => hc⟩
    · refine ⟨u, ?_, howned.congr fun _ hc => hc⟩
      simp only [setTask]
      rw [List.getElem?_set_ne (Ne.symm hk)]
      exact hu
  spawned := by
    intro j c u hu hc
    rcases getElem?_set_cases hu with ⟨rfl, rfl⟩ | ⟨hne, hu⟩
    · exact h.spawned j c t ht (hspawned c hc)
    · exact h.spawned j c u hu hc
  endpoint := by
    intro j i u hu hi
    rcases getElem?_set_cases hu with ⟨rfl, rfl⟩ | ⟨hne, hu⟩
    · exact hendpoint i hi
    · exact h.endpoint j i u hu hi
  listed := h.listed

/-- A task moves before it has a session. -/
theorem Registry.early (h : s.Registry) (ht : s.tasks[k]? = some t) (pc : TaskPc)
    (hstarted : t.pc.started = false) (hnone : pc.session = none)
    (hendpoint : ∀ i, pc.endpoint = some i → i < s.endpoints.length) :
    (s.setTask k { t with pc := pc }).Registry := by
  refine h.move ht pc (fun c hc => ?_) hendpoint fun c x _ howned => ?_
  · rw [hnone] at hc
    cases hc
  · rw [howned.started] at hstarted
    cases hstarted

/-- **A task goes on with its session.** -/
theorem Registry.goesOn (h : s.Registry) (ht : s.tasks[k]? = some t) (pc : TaskPc)
    (hsession : t.pc.session = some c) (hsame : pc.session = t.pc.session)
    (hendpoint : pc.endpoint = t.pc.endpoint) (hstarted : pc.started = true)
    (hlisted : ∀ x, s.sessions[c]? = some x → x.isOpen = true → c ∈ s.registered x.endpoint)
    (hseen : ∀ x, s.sessions[c]? = some x → pc.seesClosed = true → x.closed = true)
    (hunlisting : ∀ x, s.sessions[c]? = some x → pc = .unlisting x.endpoint c → x.isOpen = false) :
    (s.setTask k { t with pc := pc }).Registry := by
  refine h.move ht pc (fun d hd => hsame ▸ hd) (fun i hi => ?_) fun d x hx howned => ?_
  · exact h.endpoint k i t ht (hendpoint ▸ hi)
  · obtain ⟨rfl, -⟩ := howned.held c hsession
    exact
      { shut := howned.shut, started := hstarted
        held := fun d hd => by
          have hheld := howned.held d (hsame ▸ hd)
          exact ⟨hheld.1, hendpoint.trans hheld.2⟩
        isOpen := fun ho => hsame.trans (howned.isOpen ho)
        listed := fun ho => .inr (hlisted x hx ho)
        seen := hseen x hx, unlisting := hunlisting x hx }

/-- A task leaves its session, which is closed. -/
theorem Registry.ends (h : s.Registry) (ht : s.tasks[k]? = some t)
    (hshut : ∀ (c : ℕ) (x : ServedSession), s.sessions[c]? = some x → x.task = k → x.isOpen = false) :
    (s.setTask k { t with pc := .ended }).Registry where
  sessions := by
    intro c x hx
    obtain ⟨u, hu, howned⟩ := h.sessions c x hx
    by_cases hk : x.task = k
    · have hclosed := hshut c x hx hk
      rw [hk] at hu ⊢
      refine ⟨_, getElem?_set_self' ht, ?_⟩
      exact
        { shut := fun _ => hclosed, started := rfl, held := fun d hd => (by cases hd)
          isOpen := fun ho => by rw [hclosed] at ho; cases ho
          listed := fun ho => by rw [hclosed] at ho; cases ho
          seen := fun hs => (by cases hs), unlisting := fun _ => hclosed }
    · refine ⟨u, ?_, howned.congr fun _ hc => hc⟩
      simp only [setTask]
      rw [List.getElem?_set_ne (Ne.symm hk)]
      exact hu
  spawned := by
    intro j c u hu hc
    rcases getElem?_set_cases hu with ⟨rfl, rfl⟩ | ⟨hne, hu⟩
    · cases hc
    · exact h.spawned j c u hu hc
  endpoint := by
    intro j i u hu hi
    rcases getElem?_set_cases hu with ⟨rfl, rfl⟩ | ⟨hne, hu⟩
    · cases hi
    · exact h.endpoint j i u hu hi
  listed := h.listed

/-! ## Steps -/

/-- **A session is spawned.** -/
theorem Registry.spawns (h : s.Registry) (ht : s.tasks[k]? = some t) (hpc : t.pc = .starting i) :
    Registry { s.setTask k { t with pc := .inserting i s.sessions.length } with
      sessions := s.sessions ++ [{ endpoint := i, task := k }] } where
  sessions := by
    intro d x hx
    rcases getElem?_concat_cases hx with ⟨rfl, rfl⟩ | hx
    · refine ⟨_, getElem?_set_self' ht, ?_⟩
      exact
        { shut := fun hc => (by cases hc), started := rfl
          held := fun d hd => ⟨(Option.some.inj hd).symm, rfl⟩
          isOpen := fun _ => rfl, listed := fun _ => .inl rfl
          seen := fun hs => (by cases hs), unlisting := fun hu => (by cases hu) }
    · obtain ⟨u, hu, howned⟩ := h.sessions d x hx
      have hk : x.task ≠ k := by
        -- a task that is about to start has no session
        rintro rfl
        obtain rfl := Option.some.inj (ht.symm.trans hu)
        have hstarted := howned.started
        rw [hpc] at hstarted
        cases hstarted
      refine ⟨u, ?_, howned.congr fun _ hd => hd⟩
      simp only [setTask]
      rw [List.getElem?_set_ne (Ne.symm hk)]
      exact hu
  spawned := by
    intro j c u hu hc
    rcases getElem?_set_cases hu with ⟨rfl, rfl⟩ | ⟨hne, hu⟩
    · obtain rfl : s.sessions.length = c := Option.some.inj hc
      exact ⟨{ endpoint := i, task := j }, by simp, rfl⟩
    · obtain ⟨x, hx, hj⟩ := h.spawned j c u hu hc
      refine ⟨x, ?_, hj⟩
      change (s.sessions ++ _)[c]? = some x
      rw [getElem?_append_some hx]
  endpoint := by
    intro j d u hu hd
    rcases getElem?_set_cases hu with ⟨rfl, rfl⟩ | ⟨hne, hu⟩
    · exact h.endpoint j d t ht (by rw [hpc]; exact hd)
    · exact h.endpoint j d u hu hd
  listed := by
    intro j d hd
    have hlt := h.listed j d hd
    simp only [List.length_append, List.length_singleton]
    omega

/-- The session of a task. -/
theorem Registry.own (h : s.Registry) (ht : s.tasks[k]? = some t) (hsession : t.pc.session = some c)
    (hendpoint : t.pc.endpoint = some i) :
    ∃ x, s.sessions[c]? = some x ∧ x.task = k ∧ x.endpoint = i ∧ Owned s c x t := by
  obtain ⟨x, hx, hk⟩ := h.spawned k c t ht hsession
  obtain ⟨u, hu, howned⟩ := h.sessions c x hx
  rw [hk] at hu
  obtain rfl := Option.some.inj (ht.symm.trans hu)
  have hheld := (howned.held c hsession).2
  exact ⟨x, hx, hk, Option.some.inj (hheld.symm.trans hendpoint), howned⟩

/-- The sessions of a task that has one are that one. -/
theorem Registry.own_eq (h : s.Registry) (ht : s.tasks[k]? = some t)
    (hsession : t.pc.session = some c) {d : ℕ} {x : ServedSession} (hx : s.sessions[d]? = some x)
    (hk : x.task = k) : d = c := by
  obtain ⟨u, hu, howned⟩ := h.sessions d x hx
  rw [hk] at hu
  obtain rfl := Option.some.inj (ht.symm.trans hu)
  exact (howned.held c hsession).1.symm

/-- Dropping a `stop` or a `PendingUpgrade` is not seen. -/
theorem Registry.leaveHook (h : s.Registry) (k : ℕ) : (s.leaveHook k).Registry := by
  have heq := leaveHook_eq s k
  refine h.congr (by rw [heq]) (by rw [heq]) (fun i => ?_) (by rw [heq])
  unfold registered
  rw [heq]

/-- A counter moves. -/
theorem Registry.counter (h : s.Registry) (i : ℕ) (g : ℕ → ℕ) : Registry { s with
    endpoints := s.endpoints.modify i fun p => { p with pendingUpgrades := g p.pendingUpgrades } } := by
  refine h.congr rfl rfl (fun j => ?_) (by simp)
  rw [registered_modify]
  split
  · rename_i hij
    subst hij
    cases hp : s.endpoints[i]? <;> simp [registered, hp]
  · rfl

theorem Registry.dropPending (h : s.Registry) (o : Option ℕ) : (s.dropPending o).Registry := by
  cases o with
  | none => exact h
  | some i => exact h.counter i (fun n => n - 1)

/-- **A task goes on in `serve_session`**, to where its session may be as it is. -/
theorem Registry.serves (h : s.Registry) (ht : s.tasks[k]? = some t) (pc : TaskPc)
    (hsession : t.pc.session = some c) (hendpoint : t.pc.endpoint = some i)
    (hnot : t.pc ≠ .inserting i c) (hsession' : pc.session = some c) (hendpoint' : pc.endpoint = some i)
    (hstarted : pc.started = true)
    (hseen : ∀ x, s.sessions[c]? = some x → pc.seesClosed = true → x.closed = true)
    (hunlisting : ∀ x, s.sessions[c]? = some x → pc = .unlisting i c → x.isOpen = false) :
    (s.setTask k { t with pc := pc }).Registry := by
  obtain ⟨x, hx, -, rfl, howned⟩ := h.own ht hsession hendpoint
  refine h.goesOn ht pc hsession (hsession'.trans hsession.symm) (hendpoint'.trans hendpoint.symm)
    hstarted (fun y hy ho => ?_) hseen fun y hy hpc => hunlisting y hy ?_
  · obtain rfl := Option.some.inj (hx.symm.trans hy)
    exact (howned.listed ho).resolve_left hnot
  · obtain rfl := Option.some.inj (hx.symm.trans hy)
    exact hpc

/-- A task inserts its session and goes on. -/
theorem Registry.inserts (h : s.Registry) (ht : s.tasks[k]? = some t) (hpc : t.pc = .inserting i c)
    (pc : TaskPc) (hpc' : pc = .releasing i c ∨ pc = .preparing i c) :
    ((s.setTask k { t with pc := pc }).insert i c).Registry := by
  have hsession : t.pc.session = some c := by rw [hpc]; rfl
  have hendpoint : t.pc.endpoint = some i := by rw [hpc]; rfl
  obtain ⟨x, hx, -, rfl, -⟩ := h.own ht hsession hendpoint
  have hlt : x.endpoint < s.endpoints.length := h.endpoint k _ t ht hendpoint
  -- it is listed before the task goes on
  have hins := h.insert x.endpoint (List.getElem?_eq_some_iff.mp hx).1
  have hlisted : ∀ y, s.sessions[c]? = some y → y.isOpen = true →
      c ∈ (s.insert x.endpoint c).registered y.endpoint := by
    intro y hy _
    obtain rfl := Option.some.inj (hx.symm.trans hy)
    exact mem_registered_insert.mpr (.inr ⟨rfl, rfl, hlt⟩)
  have hplace : pc.session = some c ∧ pc.endpoint = some x.endpoint ∧ pc.started = true ∧
      pc.seesClosed = false := by
    rcases hpc' with rfl | rfl <;> exact ⟨rfl, rfl, rfl, rfl⟩
  obtain ⟨hsession', hendpoint', hstarted, hseen⟩ := hplace
  have hmove := hins.goesOn (k := k) (t := t) ht pc hsession (hsession'.trans hsession.symm)
    (hendpoint'.trans hendpoint.symm) hstarted hlisted
    (fun _ _ hs => by rw [hseen] at hs; cases hs)
    (fun _ _ hu => by rw [hu] at hpc'; rcases hpc' with hp | hp <;> cases hp)
  exact hmove

/-- A task closes its session and goes on. -/
theorem Registry.cleans (h : s.Registry) (ht : s.tasks[k]? = some t) (hpc : t.pc = .cleaning i c) :
    ((s.setTask k { t with pc := .unlisting i c }).closeSession c).Registry := by
  have hshut : ∀ x, (s.closeSession c).sessions[c]? = some x → x.isOpen = false := by
    intro x hx
    obtain ⟨y, -, rfl⟩ := getElem?_modify_cases hx
    rw [if_pos rfl]
  have hmove := (h.closeSession c).serves (k := k) (t := t) (c := c) (i := i) ht (.unlisting i c)
    (by rw [hpc]; rfl) (by rw [hpc]; rfl) (by rw [hpc]; simp) rfl rfl rfl
    (fun _ _ hs => (by cases hs)) fun x hx _ => hshut x hx
  exact hmove

/-- A task takes its closed session out and ends. -/
theorem Registry.unlists (h : s.Registry) (ht : s.tasks[k]? = some t) (hpc : t.pc = .unlisting i c) :
    ((s.setTask k { t with pc := .ended }).remove i c).Registry := by
  have hsession : t.pc.session = some c := by rw [hpc]; rfl
  obtain ⟨x, hx, -, rfl, howned⟩ := h.own ht hsession (by rw [hpc]; rfl)
  have hshut : ∀ y, s.sessions[c]? = some y → y.isOpen = false := by
    intro y hy
    obtain rfl := Option.some.inj (hx.symm.trans hy)
    exact howned.unlisting hpc
  have hends := h.ends ht fun d y hy hk => by
    obtain rfl := h.own_eq ht hsession hy hk
    exact hshut y hy
  exact hends.remove x.endpoint hshut

/-- **Every step of a task keeps the registry.** -/
theorem Registry.task (h : s.Registry) {move : TaskMove} (ht : s.tasks[k]? = some t)
    (hs : TaskStep s k t move s') : s'.Registry := by
  -- a task in `serve_session` goes on there
  have hserves : ∀ i c pc, t.pc.session = some c → t.pc.endpoint = some i →
      t.pc ≠ .inserting i c → TaskPc.session pc = some c → pc.endpoint = some i →
      pc.started = true → pc.seesClosed = false → pc ≠ .unlisting i c →
      (s.setTask k { t with pc := pc }).Registry := by
    intro i c pc hsession hendpoint hnot hsession' hendpoint' hstarted hseen hunlisting
    exact h.serves ht pc hsession hendpoint hnot hsession' hendpoint' hstarted
      (fun _ _ hs => by rw [hseen] at hs; cases hs) fun _ _ hu => absurd hu hunlisting
  -- where it has seen its session closed, that is
  have hsees : ∀ i c pc, t.pc.session = some c → t.pc.endpoint = some i → t.pc.seesClosed = true →
      TaskPc.session pc = some c → pc.endpoint = some i → pc.started = true → pc ≠ .unlisting i c →
      (s.setTask k { t with pc := pc }).Registry ∧
        ∀ x, s.sessions[c]? = some x → x.isOpen = false := by
    intro i c pc hsession hendpoint hsees hsession' hendpoint' hstarted hunlisting
    obtain ⟨x, hx, -, -, howned⟩ := h.own ht hsession hendpoint
    have hclosed : ∀ y, s.sessions[c]? = some y → y.closed = true ∧ y.isOpen = false := by
      intro y hy
      obtain rfl := Option.some.inj (hx.symm.trans hy)
      exact ⟨howned.seen hsees, howned.shut (howned.seen hsees)⟩
    refine ⟨h.serves ht pc hsession hendpoint ?_ hsession' hendpoint' hstarted
      (fun y hy _ => (hclosed y hy).1) fun _ _ hu => absurd hu hunlisting, fun y hy => (hclosed y hy).2⟩
    intro heq
    rw [heq] at hsees
    cases hsees
  -- one that has not started has none
  have hearly : ∀ pc, t.pc.started = false → TaskPc.session pc = none →
      (∀ i, pc.endpoint = some i → i < s.endpoints.length) →
      (s.setTask k { t with pc := pc }).Registry := fun pc => h.early ht pc
  have hat : ∀ i, t.pc.endpoint = some i → i < s.endpoints.length := fun i => h.endpoint k i t ht
  have hunwinds : t.pc.awaits = true → (s.setTask k { t with pc := t.pc.unwound }).Registry := by
    intro hawaits
    cases hpc : t.pc <;> rw [hpc] at hawaits <;> try cases hawaits
    case gated | handshaking | responding =>
      exact hearly .ended (by rw [hpc]; rfl) rfl (fun i hi => by cases hi)
    all_goals
      exact hserves _ _ (.cleaning _ _) (by rw [hpc]; rfl) (by rw [hpc]; rfl) (by rw [hpc]; simp) rfl rfl
        rfl rfl (by simp)
  cases hs with
  | opens hpc hready => exact hearly .handshaking (by rw [hpc]; rfl) rfl (fun i hi => by cases hi)
  | @matched i hpc hi =>
    refine hearly (.responding i) (by rw [hpc]; rfl) rfl fun j hj => ?_
    obtain rfl : i = j := Option.some.inj hj
    exact hi
  | lost hpc =>
    have hstarted : t.pc.started = false := by rcases hpc with hpc | ⟨i, hpc⟩ <;> rw [hpc] <;> rfl
    exact hearly .ended hstarted rfl (fun i hi => by cases hi)
  | @shaken i hpc => exact hearly (.checking i) (by rw [hpc]; rfl) rfl (by rw [hpc] at hat; exact hat)
  | turnedAway hpc _ => exact hearly .ended (by rw [hpc]; rfl) rfl (fun i hi => by cases hi)
  | @letIn i hpc _ | @upgraded i hpc =>
    exact hearly (.starting i) (by rw [hpc]; rfl) rfl (by rw [hpc] at hat; exact hat)
  | @counted i hpc =>
    have hmove := hearly (.upgrading i) (by rw [hpc]; rfl) rfl (by rw [hpc] at hat; exact hat)
    exact hmove.counter i (fun n => n + 1)
  | failed hpc =>
    exact (hearly .ended (by rw [hpc]; rfl) rfl (fun i hi => by cases hi)).dropPending _
  | spawned hpc => exact h.spawns ht hpc
  | inserted hpc =>
    refine h.inserts ht hpc _ ?_
    split
    · exact .inl rfl
    · exact .inr rfl
  | @released i c hpc =>
    refine Registry.dropPending ?_ _
    exact hserves i c (.preparing i c) (by rw [hpc]; rfl) (by rw [hpc]; rfl) (by rw [hpc]; simp) rfl rfl
      rfl rfl (by simp)
  | @unhooked i c _ hpc =>
    exact hserves i c (.serving i c) (by rw [hpc]; rfl) (by rw [hpc]; rfl) (by rw [hpc]; simp) rfl rfl rfl
      rfl (by simp)
  | @hooked i c hpc =>
    exact hserves i c (.hooking i c) (by rw [hpc]; rfl) (by rw [hpc]; rfl) (by rw [hpc]; simp) rfl rfl rfl
      rfl (by simp)
  | @overloaded i c hpc =>
    refine Registry.closeSession ?_ c
    exact hserves i c (.serving i c) (by rw [hpc]; rfl) (by rw [hpc]; rfl) (by rw [hpc]; simp) rfl rfl rfl
      rfl (by simp)
  | @hookEnds i c hpc =>
    refine Registry.leaveHook ?_ k
    exact hserves i c (.serving i c) (by rw [hpc]; rfl) (by rw [hpc]; rfl) (by rw [hpc]; simp) rfl rfl rfl
      rfl (by simp)
  | @closedSeen i c hpc hclosed =>
    refine h.serves ht (.removing i c) (by rw [hpc]; rfl) (by rw [hpc]; rfl) (by rw [hpc]; simp) rfl rfl
      rfl (fun x hx _ => ?_) (fun _ _ hu => by cases hu)
    simpa [hx] using hclosed
  | @removed i c hpc =>
    obtain ⟨hmove, hshut⟩ := hsees i c (.deciding i c) (by rw [hpc]; rfl) (by rw [hpc]; rfl)
      (by rw [hpc]; rfl) rfl rfl rfl (by simp)
    exact hmove.remove i hshut
  | @notifies i c hpc =>
    exact (hsees i c (.notifying i c) (by rw [hpc]; rfl) (by rw [hpc]; rfl) (by rw [hpc]; rfl) rfl rfl rfl
      (by simp)).1
  | @silent i c hpc =>
    exact hserves i c (.cleaning i c) (by rw [hpc]; rfl) (by rw [hpc]; rfl) (by rw [hpc]; simp) rfl rfl rfl
      rfl (by simp)
  | @notified i c hpc =>
    refine Registry.leaveHook ?_ k
    exact hserves i c (.cleaning i c) (by rw [hpc]; rfl) (by rw [hpc]; rfl) (by rw [hpc]; simp) rfl rfl rfl
      rfl (by simp)
  | cleaned hpc => exact h.cleans ht hpc
  | unlisted hpc => exact h.unlists ht hpc
  | aborts _ hawaits => exact (hunwinds hawaits).leaveHook k
  | panics hhook =>
    have hawaits : t.pc.awaits = true := by
      cases hpc : t.pc <;> rw [hpc] at hhook <;> first | rfl | cases hhook
    exact (hunwinds hawaits).leaveHook k

/-- A task in another respect: the places are the same. -/
theorem Registry.of_pcs (h : s.Registry) (hsessions : s'.sessions = s.sessions)
    (hendpoints : s'.endpoints = s.endpoints)
    (hback : ∀ (j : ℕ) (u : ConnectionTask), s'.tasks[j]? = some u →
      u.pc.session = none ∧ (∀ i, u.pc.endpoint = some i → i < s.endpoints.length) ∨
        ∃ v : ConnectionTask, s.tasks[j]? = some v ∧ u.pc = v.pc)
    (hforth : ∀ (j : ℕ) (v : ConnectionTask), s.tasks[j]? = some v →
      ∃ u : ConnectionTask, s'.tasks[j]? = some u ∧ u.pc = v.pc) : s'.Registry where
  sessions := by
    intro c x hx
    obtain ⟨t, ht, howned⟩ := h.sessions c x (hsessions ▸ hx)
    obtain ⟨u, hu, hpc⟩ := hforth _ t ht
    have hlisted : c ∈ s.registered x.endpoint → c ∈ s'.registered x.endpoint := by
      unfold registered
      rw [hendpoints]
      exact fun hc => hc
    exact ⟨u, hu,
      { shut := howned.shut, started := hpc ▸ howned.started, held := hpc ▸ howned.held
        isOpen := hpc ▸ howned.isOpen, listed := fun ho => hpc ▸ (howned.listed ho).imp_right hlisted
        seen := hpc ▸ howned.seen, unlisting := hpc ▸ howned.unlisting }⟩
  spawned := by
    intro j c u hu hc
    rw [hsessions]
    rcases hback j u hu with ⟨hnone, -⟩ | ⟨v, hv, hpc⟩
    · rw [hnone] at hc
      cases hc
    · exact h.spawned j c v hv (hpc ▸ hc)
  endpoint := by
    intro j i u hu hi
    rw [hendpoints]
    rcases hback j u hu with ⟨-, hlt⟩ | ⟨v, hv, hpc⟩
    · exact hlt i hi
    · exact h.endpoint j i v hv (hpc ▸ hi)
  listed := by
    intro i c hc
    rw [hsessions]
    refine h.listed i c ?_
    unfold registered at hc ⊢
    rwa [hendpoints] at hc

theorem Registry.abortAll (h : s.Registry) (p : ℕ → ConnectionTask → Bool) :
    (s.abortAll p).Registry := by
  refine h.of_pcs rfl rfl (fun j u hu => .inr ?_) fun j v hv => ⟨_, abortAll_forth p hv, rfl⟩
  obtain ⟨v, hv, rfl⟩ := abortAll_back hu
  exact ⟨v, hv, rfl⟩

/-- A field of a task that the registry does not look at. -/
theorem Registry.modifyTask (h : s.Registry) (k : ℕ) {g : ConnectionTask → ConnectionTask}
    (hpc : ∀ t, (g t).pc = t.pc) : Registry { s with tasks := s.tasks.modify k g } := by
  refine h.of_pcs rfl rfl (fun j u hu => .inr ?_) fun j v hv => ?_
  · obtain ⟨v, hv, rfl⟩ := getElem?_modify_cases hu
    exact ⟨v, hv, by split <;> simp [hpc]⟩
  · refine ⟨if k = j then g v else v, by simp [List.getElem?_modify, hv], by split <;> simp [hpc]⟩

/-- A task is spawned. -/
theorem Registry.spawn (h : s.Registry) (t : ConnectionTask) (hnone : t.pc.session = none)
    (hendpoint : ∀ i, t.pc.endpoint = some i → i < s.endpoints.length) :
    Registry { s with tasks := s.tasks ++ [t] } := by
  refine h.of_pcs rfl rfl (fun j u hu => ?_) fun j v hv => ⟨v, ?_, rfl⟩
  · rcases getElem?_concat_cases hu with ⟨-, rfl⟩ | hu
    · exact .inl ⟨hnone, hendpoint⟩
    · exact .inr ⟨u, hu, rfl⟩
  · change (s.tasks ++ _)[j]? = some v
    rw [getElem?_append_some hv]

/-- **Every step keeps the registry.** -/
theorem Registry.step (h : s.Registry) (hn : machine.next s e = some s') : s'.Registry := by
  have hsame : ∀ {u v : VcmpServer}, u.Registry → v.tasks = u.tasks → v.sessions = u.sessions →
      v.endpoints = u.endpoints → v.Registry := by
    intro u v hu htasks hsessions hendpoints
    refine hu.congr htasks hsessions (fun i => ?_) (by rw [hendpoints])
    unfold registered
    rw [hendpoints]
  cases step_of_next hn with
  | endpoint =>
    refine h.congr rfl rfl (fun i => ?_) (by simp)
    unfold registered
    by_cases hi : i < s.endpoints.length
    · rw [List.getElem?_append_left hi]
    · have hnone : s.endpoints[i]? = none := List.getElem?_eq_none (Nat.not_lt.mp hi)
      rw [List.getElem?_append_right (Nat.not_lt.mp hi), hnone]
      rcases hd : i - s.endpoints.length with - | d <;> simp
  | accept hs =>
    cases hs with
    | accepts =>
      exact hsame (h.spawn { upgrade := false, pc := .gated } rfl (fun i hi => by cases hi)) rfl rfl rfl
    | @readies k =>
      exact hsame (h.modifyTask k (g := fun t => { t with ready := true }) fun _ => rfl) rfl rfl rfl
    | @joins k | @joinsLast k =>
      exact hsame (h.modifyTask k (g := fun t => { t with joined := true }) fun _ => rfl) rfl rfl rfl
    | aborts => exact hsame (h.abortAll _) rfl rfl rfl
    | _ => exact hsame h rfl rfl rfl
  | @upgrade i hi =>
    refine h.spawn _ rfl fun j hj => ?_
    obtain rfl : i = j := Option.some.inj hj
    exact hi
  | task ht hs => exact h.task ht hs
  | closing _ hs =>
    cases hs with
    | closes => exact hsame (h.closeSession _) rfl rfl rfl
    | _ => exact hsame h rfl rfl rfl
  | stopGoes _ hs => cases hs <;> exact hsame h rfl rfl rfl
  | stopDeadline _ hs =>
    cases hs with
    | others => exact hsame (h.abortAll _) rfl rfl rfl
    | loop => exact hsame h rfl rfl rfl
  | close => exact h.closeSession _
  | @finish c hshut =>
    refine h.modify c (fun _ => rfl) fun x t hx howned => howned.finish ?_
    simpa [hx] using hshut
  | _ => exact hsame h rfl rfl rfl

theorem registry_of_reachable (h : machine.Reachable s) : s.Registry := by
  have hinit : ∀ s, machine.init s → s.Registry := by
    rintro s ⟨n, rfl⟩
    exact registry_start n
  exact h.invariant hinit fun s e s' _ hn hs => hs.step hn

end VcmpServer

end Vcmp
