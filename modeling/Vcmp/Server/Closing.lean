import Vcmp.Server.Upgrades
/-!
# What a `close_sessions` call catches

The call looks at one endpoint after the other, at the counter of each
first and at its sessions behind that. A session is caught where it is
not open, where its endpoint is still to be collected, or where it is
among the collected ones that are still to be closed. What is caught
stays caught, so what is caught when the call returns is not open.

An upgrade whose `PendingUpgrade` the call has still to wait for cannot
get away: it gives that up behind the insertion of its session, and then
its endpoint is still to be collected.
-/

namespace Vcmp

namespace ClosingPc

/-- Whether the call has still to look at the counter of the endpoint. -/
def counts : ClosingPc → ℕ → Bool
  | .listing, _ | .dropped, _ => true
  | .waiting n j, i => j ≤ i && i < n
  | _, _ => false

/-- Whether it has still to collect the sessions of the endpoint. -/
def collects : ClosingPc → ℕ → Bool
  | .listing, _ | .dropped, _ => true
  | .waiting n _, i => i < n
  | .collecting n j _, i => j ≤ i && i < n
  | _, _ => false

/-- The sessions that it has collected and still to close. -/
def held : ClosingPc → List ℕ
  | .collecting _ _ sessions => sessions
  | .closing _ left => left
  | _ => []

/-- **Whether the call catches a session.** -/
def Catches (pc : ClosingPc) (c : ℕ) (x : ServedSession) : Prop :=
  x.isOpen = false ∨ pc.collects x.endpoint = true ∨ c ∈ pc.held

theorem collects_of_counts {pc : ClosingPc} {i : ℕ} (h : pc.counts i = true) : pc.collects i = true := by
  cases pc <;> simp_all [counts, collects]

end ClosingPc

/-- Where an accepted upgrade has neither registered its session nor failed. -/
def TaskPc.unregistered : TaskPc → Option ℕ
  | .upgrading i | .starting i | .inserting i _ => some i
  | _ => none

/-- Where it has just registered it. -/
def TaskPc.registers : TaskPc → Option ℕ
  | .releasing i _ => some i
  | _ => none

namespace VcmpServer

variable {s s' : VcmpServer} {k q i c : ℕ} {t u : ConnectionTask} {x y : ServedSession} {e : Event}

/-- Where the call `q` is, which lists no endpoints before it begins. -/
def closingAt (s : VcmpServer) (q : ℕ) : ClosingPc := (s.closings[q]?).getD .listing

theorem closingAt_of_getElem? {pc : ClosingPc} (h : s.closings[q]? = some pc) : s.closingAt q = pc := by
  simp [closingAt, h]

/-- A call that was moved. -/
theorem closingAt_set {r : ℕ} {pc : ClosingPc} (h : s'.closings = s.closings.set r pc) :
    s'.closingAt q = s.closingAt q ∨ q = r ∧ s'.closingAt q = pc := by
  by_cases hlt : r < s.closings.length
  · by_cases hq : q = r
    · subst hq
      exact .inr ⟨rfl, by simp [closingAt, h, hlt]⟩
    · refine .inl ?_
      unfold closingAt
      rw [h, List.getElem?_set_ne (Ne.symm hq)]
  · refine .inl ?_
    unfold closingAt
    rw [h, List.set_eq_of_length_le (Nat.not_lt.mp hlt)]

/-- A call that begins. -/
theorem closingAt_concat (h : s'.closings = s.closings ++ [.listing]) :
    s'.closingAt q = s.closingAt q := by
  unfold closingAt
  rw [h]
  rcases Nat.lt_trichotomy q s.closings.length with hlt | rfl | hgt
  · rw [List.getElem?_append_left hlt]
  · simp
  · have hnone : s.closings[q]? = none := List.getElem?_eq_none (Nat.le_of_lt hgt)
    have hnone' : (s.closings ++ [ClosingPc.listing])[q]? = none :=
      List.getElem?_eq_none (by simp only [List.length_append, List.length_singleton]; omega)
    rw [hnone, hnone']

/-- **What a step makes of the call `q`**: nothing, or it drops it, or it is the call's own. -/
theorem closingAt_of_next (hn : machine.next s e = some s') (q : ℕ) :
    s'.closingAt q = s.closingAt q ∨ s'.closingAt q = .dropped ∨
      ∃ pc, e = .closing q ∧ s.closings[q]? = some pc ∧ ClosingStep s q pc s' := by
  have hleave : ∀ k v, s'.closings = ((s.setTask k v).leaveHook k).closings →
      s'.closingAt q = s.closingAt q ∨ s'.closingAt q = .dropped := by
    intro k v hsame
    have hleft := left_leaveHook (s.setTask k v) k
    generalize (s.setTask k v).leaveHook k = w at hleft hsame
    cases hleft with
    | same => exact .inl (by unfold closingAt; rw [hsame]; rfl)
    | @dropped c =>
      cases hcall : c.call with
      | none =>
        rw [hcall] at hsame
        exact .inl (by unfold closingAt; rw [hsame]; rfl)
      | some r =>
        rw [hcall] at hsame
        have hset : s'.closings = s.closings.set r .dropped := hsame
        exact (closingAt_set hset).imp_right And.right
  cases step_of_next hn with
  | accept hs => cases hs <;> exact .inl rfl
  | task _ hs =>
    cases hs with
    | failed | released =>
      refine .inl ?_
      rw [dropPending_eq]
      rfl
    | hookEnds | notified | aborts | panics => exact (hleave _ _ rfl).imp_right .inl
    | _ => exact .inl rfl
  | closeSessions => exact .inl (closingAt_concat rfl)
  | @closing r pc _ hr hs =>
    by_cases hq : q = r
    · subst hq
      exact .inr (.inr ⟨pc, rfl, hr, hs⟩)
    · have hset : ∃ pc', s'.closings = s.closings.set r pc' := by cases hs <;> exact ⟨_, rfl⟩
      obtain ⟨pc', hset⟩ := hset
      exact .inl ((closingAt_set hset).resolve_right fun hand => hq hand.1)
  | stopGoes _ hs =>
    cases hs with
    | sends => exact .inl (closingAt_concat rfl)
    | _ => exact .inl rfl
  | stopDeadline _ hs => cases hs <;> exact .inl rfl
  | _ => exact .inl rfl

/-! ## Sessions -/

/-- What becomes of a session: it may close, and stays closed. -/
structure Ages (x y : ServedSession) : Prop where
  endpoint : y.endpoint = x.endpoint
  task : y.task = x.task
  shut : x.isOpen = false → y.isOpen = false

theorem Ages.refl (x : ServedSession) : Ages x x := ⟨rfl, rfl, fun hx => hx⟩

theorem ages_modify {g : ServedSession → ServedSession} (hg : ∀ x, Ages x (g x))
    (hy : (s.sessions.modify i g)[c]? = some y) : ∃ x, s.sessions[c]? = some x ∧ Ages x y := by
  obtain ⟨x, hx, rfl⟩ := getElem?_modify_cases hy
  refine ⟨x, hx, ?_⟩
  split
  · exact hg x
  · exact .refl x

theorem ages_close (x : ServedSession) : Ages x { x with isOpen := false } := ⟨rfl, rfl, fun _ => rfl⟩

/-- **A session was there before, or a task at `starting` has spawned it.** -/
theorem session_of_next (hn : machine.next s e = some s') (hy : s'.sessions[c]? = some y) :
    (∃ x, s.sessions[c]? = some x ∧ Ages x y) ∨ c = s.sessions.length ∧
      ∃ k i, e = .task k .goes ∧ y = { endpoint := i, task := k } ∧
        ∃ t, s.tasks[k]? = some t ∧ t.pc = .starting i := by
  have hsame : ∀ {w : VcmpServer}, s' = w → w.sessions = s.sessions →
      ∃ x, s.sessions[c]? = some x ∧ Ages x y := by
    rintro _ rfl hsessions
    exact ⟨y, hsessions ▸ hy, .refl y⟩
  cases step_of_next hn with
  | accept hs => cases hs <;> exact .inl (hsame rfl rfl)
  | @task k t _ _ ht hs =>
    cases hs with
    | @spawned i hpc =>
      rcases getElem?_concat_cases hy with ⟨rfl, rfl⟩ | hy
      · exact .inr ⟨rfl, k, i, rfl, rfl, t, ht, hpc⟩
      · exact .inl ⟨y, hy, .refl y⟩
    | overloaded | cleaned => exact .inl (ages_modify ages_close hy)
    | failed | released => exact .inl (hsame rfl (by rw [dropPending_eq]; rfl))
    | hookEnds | notified | aborts | panics => exact .inl (hsame rfl (by rw [leaveHook_eq]; rfl))
    | _ => exact .inl (hsame rfl rfl)
  | closing _ hs =>
    cases hs with
    | closes => exact .inl (ages_modify ages_close hy)
    | _ => exact .inl (hsame rfl rfl)
  | stopGoes _ hs => cases hs <;> exact .inl (hsame rfl rfl)
  | stopDeadline _ hs => cases hs <;> exact .inl (hsame rfl rfl)
  | close => exact .inl (ages_modify ages_close hy)
  | finish =>
    exact .inl (ages_modify (g := fun x => { x with closed := true })
      (fun x => ⟨rfl, rfl, fun hx => hx⟩) hy)
  | _ => exact .inl (hsame rfl rfl)

/-- An open session is at an endpoint that is there. -/
theorem Registry.endpoint_of_open (h : s.Registry) (hx : s.sessions[c]? = some x) (ho : x.isOpen = true) :
    x.endpoint < s.endpoints.length := by
  obtain ⟨t, ht, howned⟩ := h.sessions c x hx
  obtain ⟨-, hendpoint⟩ := howned.held c (howned.isOpen ho)
  exact h.endpoint _ _ t ht hendpoint

/-- **What a call catches it has caught behind its own step**, where the
session is in its place when its endpoint is collected. -/
theorem catches_of_closing {pc : ClosingPc} (h : s.Registry) (hq : s.closings[q]? = some pc)
    (hs : ClosingStep s q pc s') (hx : s.sessions[c]? = some x) (hcatches : pc.Catches c x)
    (hplace : ∀ n sessions, pc = .collecting n x.endpoint sessions → x.endpoint < n → x.isOpen = true →
      c ∈ s.registered x.endpoint) (hy : s'.sessions[c]? = some y) : (s'.closingAt q).Catches c y := by
  have hmoves : ∀ pc', s'.closings = s.closings.set q pc' → s'.closingAt q = pc' := by
    intro pc' hset
    exact closingAt_of_getElem? (by rw [hset]; exact getElem?_set_self' hq)
  have hsame : s'.sessions = s.sessions → y = x := by
    intro hsessions
    rw [hsessions, hx] at hy
    exact (Option.some.inj hy).symm
  by_cases ho : x.isOpen = true
  · have hlt := h.endpoint_of_open hx ho
    have hcatches := hcatches.resolve_left (by rw [ho]; simp)
    cases hs with
    | lists =>
      rw [hsame rfl, hmoves _ rfl]
      exact .inr (.inl (by simpa [ClosingPc.collects] using hlt))
    | passes | waited =>
      have hin := hcatches.resolve_right (by simp [ClosingPc.held])
      rw [hsame rfl, hmoves _ rfl]
      exact .inr (.inl (by simpa [ClosingPc.collects] using hin))
    | @collects n j sessions p hj hp =>
      rw [hsame rfl, hmoves _ rfl]
      rcases hcatches with hin | hmem
      · simp only [ClosingPc.collects, Bool.and_eq_true, decide_eq_true_eq] at hin
        by_cases hij : x.endpoint = j
        · subst hij
          -- its own endpoint is the one that is collected
          have hlisted := hplace n sessions rfl hj ho
          simp only [registered, hp, Option.map_some, Option.getD_some] at hlisted
          exact .inr (.inr (List.mem_append_right _ hlisted))
        · have hlater : j + 1 ≤ x.endpoint := by omega
          exact .inr (.inl (by simp [ClosingPc.collects, hlater, hin.2]))
      · exact .inr (.inr (List.mem_append_left _ hmem))
    | @collected n j sessions hj =>
      rw [hsame rfl, hmoves _ rfl]
      rcases hcatches with hin | hmem
      · simp only [ClosingPc.collects, Bool.and_eq_true, decide_eq_true_eq] at hin
        omega
      · exact .inr (.inr hmem)
    | @closes d sessions left =>
      rw [hmoves _ rfl]
      obtain ⟨z, hz, rfl⟩ := getElem?_modify_cases hy
      have hmem := hcatches.resolve_left (by simp [ClosingPc.collects])
      rcases List.mem_cons.mp hmem with rfl | hmem
      · exact .inl (by rw [if_pos rfl])
      · exact .inr (.inr hmem)
    | closed | awaits | returns =>
      rcases hcatches with hin | hmem
      · cases hin
      · cases hmem
  · have hage : ∃ z, s.sessions[c]? = some z ∧ Ages z y := by
      cases hs with
      | closes => exact ages_modify ages_close hy
      | _ => exact ⟨x, hx, by rw [hsame rfl]; exact .refl x⟩
    obtain ⟨z, hz, hages⟩ := hage
    obtain rfl := Option.some.inj (hx.symm.trans hz)
    exact .inl (hages.shut (by simpa using ho))

/-- **What a call catches it catches behind every step.** -/
theorem catches_of_next (h : s.Registry) (hn : machine.next s e = some s')
    (hx : s.sessions[c]? = some x) (hcatches : (s.closingAt q).Catches c x)
    (hplace : ∀ n sessions, e = .closing q → s.closings[q]? = some (.collecting n x.endpoint sessions) →
      x.endpoint < n → x.isOpen = true → c ∈ s.registered x.endpoint)
    (hy : s'.sessions[c]? = some y) : (s'.closingAt q).Catches c y := by
  have hages : Ages x y := by
    rcases session_of_next hn hy with ⟨z, hz, hages⟩ | ⟨rfl, -⟩
    · obtain rfl := Option.some.inj (hx.symm.trans hz)
      exact hages
    · have hlt := (List.getElem?_eq_some_iff.mp hx).1
      omega
  rcases closingAt_of_next hn q with hsame | hdropped | ⟨pc, rfl, hq, hs⟩
  · rw [hsame]
    rcases hcatches with hshut | hin | hmem
    · exact .inl (hages.shut hshut)
    · exact .inr (.inl (hages.endpoint ▸ hin))
    · exact .inr (.inr hmem)
  · rw [hdropped]
    exact .inr (.inl rfl)
  · rw [closingAt_of_getElem? hq] at hcatches
    exact catches_of_closing h hq hs hx hcatches
      (fun n sessions hpc => hplace n sessions rfl (hpc ▸ hq)) hy

/-! ## Upgrades -/

/-- The task of an accepted upgrade holds what it held, or has given it up at its endpoint. -/
def HoldsOrGivesUp (s' : VcmpServer) (k : ℕ) (t : ConnectionTask) : Prop :=
  ∃ u, s'.tasks[k]? = some u ∧ u.upgrade = true ∧ (∀ i, u.pc ≠ .reserved i) ∧
    (u.pending = t.pending ∨ u.pending = none ∧
      ∀ i j, t.pending = some i → u.pc.endpoint = some j → j = i)

/-- What a step of the task of an accepted upgrade makes of what it holds. -/
theorem pending_of_taskStep {move : TaskMove} (ht : s.tasks[k]? = some t) (h : TaskStep s k t move s')
    (hsided : ∀ b, t.pc.side = some b → t.upgrade = b) (hup : t.upgrade = true)
    (haccepted : ∀ i, t.pc ≠ .reserved i) : s'.HoldsOrGivesUp k t := by
  have hmoves : ∀ pc, s'.tasks = s.tasks.set k { t with pc := pc } → (∀ i, pc ≠ TaskPc.reserved i) →
      (pc.pending = t.pc.pending ∨ pc.pending = none ∧
        ∀ i j, t.pc.pending = some i → pc.endpoint = some j → j = i) → s'.HoldsOrGivesUp k t := by
    intro pc htasks hres hpending
    refine ⟨{ t with pc := pc }, by rw [htasks]; exact getElem?_set_self' ht, hup, hres, ?_⟩
    simpa [ConnectionTask.pending, hup] using hpending
  have hunwinds : t.pc.awaits = true → s'.tasks = s.tasks.set k { t with pc := t.pc.unwound } →
      s'.HoldsOrGivesUp k t := by
    intro hawaits htasks
    refine hmoves _ htasks (fun i hi => ?_) (.inl ?_)
    · have hside := t.pc.unwound_plain.2
      rw [hi] at hside
      cases hside
    · rw [t.pc.unwound_plain.1, TaskPc.pending_of_awaits hawaits]
  cases h with
  | counted hpc => exact absurd hpc (haccepted _)
  | letIn hpc =>
    have hbare := hsided false (by rw [hpc]; rfl)
    rw [hup] at hbare
    cases hbare
  | failed hpc =>
    refine hmoves .ended (by rw [dropPending_eq]; rfl) (by simp) (.inr ⟨rfl, fun _ _ _ hj => ?_⟩)
    cases hj
  | @released i c hpc =>
    refine hmoves (.preparing i c) (by rw [dropPending_eq]; rfl) (by simp)
      (.inr ⟨rfl, fun a b ha hb => ?_⟩)
    rw [hpc] at ha
    exact (Option.some.inj hb).symm.trans (Option.some.inj ha)
  | inserted hpc =>
    refine hmoves _ rfl (fun i hi => ?_) (.inl ?_)
    · split at hi <;> cases hi
    · rw [hpc, if_pos hup]
      rfl
  | lost hpc =>
    refine hmoves _ rfl (by simp) (.inl ?_)
    rcases hpc with hpc | ⟨i, hpc⟩ <;> rw [hpc] <;> rfl
  | hookEnds hpc | notified hpc =>
    exact hmoves _ (by rw [leaveHook_eq]; rfl) (by simp) (.inl (by rw [hpc]; rfl))
  | aborts _ hpc => exact hunwinds hpc (by rw [leaveHook_eq]; rfl)
  | panics hpc => exact hunwinds (TaskPc.awaits_of_inHook hpc) (by rw [leaveHook_eq]; rfl)
  | _ hpc => exact hmoves _ rfl (by simp) (.inl (by rw [hpc]; rfl))

/-- **An upgrade cannot get away from the call `q`**: it holds a
`PendingUpgrade` that the call has still to wait for, or the call catches
its session. -/
structure Awaited (s : VcmpServer) (q k : ℕ) (t : ConnectionTask) : Prop where
  upgrade : t.upgrade = true
  accepted : ∀ i, t.pc ≠ .reserved i
  waits : ∀ i, t.pending = some i → (s.closingAt q).counts i = true
  catches : t.pending = none → ∀ (c : ℕ) (x : ServedSession), s.sessions[c]? = some x → x.task = k →
    (s.closingAt q).Catches c x

/-- The call goes on, where an upgrade holds a `PendingUpgrade` it has still to wait for. -/
theorem counts_of_next (hcounted : s.Counted) (hregistry : s.Registry) (hn : machine.next s e = some s')
    (ht : s.tasks[k]? = some t) (hi : t.pending = some i) (hcounts : (s.closingAt q).counts i = true) :
    (s'.closingAt q).counts i = true := by
  have hlt : i < s.endpoints.length := hregistry.endpoint k i t ht (endpoint_of_pending hi)
  rcases closingAt_of_next hn q with hsame | hdropped | ⟨pc, -, hq, hs⟩
  · rw [hsame]
    exact hcounts
  · rw [hdropped]
    rfl
  · rw [closingAt_of_getElem? hq] at hcounts
    have hmoves : ∀ pc', s'.closings = s.closings.set q pc' → s'.closingAt q = pc' := by
      intro pc' hset
      exact closingAt_of_getElem? (by rw [hset]; exact getElem?_set_self' hq)
    cases hs with
    | lists =>
      rw [hmoves _ rfl]
      simpa [ClosingPc.counts] using hlt
    | @passes n j p hj hp hnone =>
      rw [hmoves _ rfl]
      simp only [ClosingPc.counts, Bool.and_eq_true, decide_eq_true_eq] at hcounts ⊢
      have hne : i ≠ j := by
        -- the call does not pass an endpoint whose counter is raised
        rintro rfl
        have hpos := hcounted.pos ht hi hp
        omega
      omega
    | @waited n j hj =>
      simp only [ClosingPc.counts, Bool.and_eq_true, decide_eq_true_eq] at hcounts
      omega
    | collects | collected | closes | closed | awaits | returns => cases hcounts

/-- Where a call has still to wait for what a task held, it catches the task's session. -/
theorem catches_of_counts (hregistry : s.Registry) (ht : s.tasks[k]? = some t)
    (hat : ∀ j, t.pc.endpoint = some j → (s.closingAt q).counts j = true)
    (hx : s.sessions[c]? = some x) (hk : x.task = k) : (s.closingAt q).Catches c x := by
  by_cases ho : x.isOpen = true
  · obtain ⟨v, hv, howned⟩ := hregistry.sessions c x hx
    rw [hk] at hv
    obtain rfl := Option.some.inj (ht.symm.trans hv)
    obtain ⟨-, hendpoint⟩ := howned.held c (howned.isOpen ho)
    exact .inr (.inl (ClosingPc.collects_of_counts (hat _ hendpoint)))
  · exact .inl (by simpa using ho)

/-- An accepted upgrade that holds no `PendingUpgrade` is not about to insert a session. -/
theorem not_inserting_of_pending (hup : t.upgrade = true) (hnone : t.pending = none) (i c : ℕ) :
    t.pc ≠ .inserting i c := by
  intro hpc
  simp [ConnectionTask.pending, hup, hpc, TaskPc.pending] at hnone

/-- **Every step keeps an upgrade awaited.** -/
theorem Awaited.step (h : s.Awaited q k t) (hr : machine.Reachable s) (ht : s.tasks[k]? = some t)
    (hn : machine.next s e = some s') : ∃ u, s'.tasks[k]? = some u ∧ s'.Awaited q k u := by
  have hregistry := registry_of_reachable hr
  have hcounted := counted_of_reachable hr
  have hregistry' := hregistry.step hn
  -- the sessions it had stay caught
  have hcatches : t.pending = none → ∀ (c : ℕ) (x y : ServedSession), s.sessions[c]? = some x →
      x.task = k → s'.sessions[c]? = some y → (s'.closingAt q).Catches c y := by
    intro hnone c x y hx hk hy
    refine catches_of_next hregistry hn hx (h.catches hnone c x hx hk) (fun _ _ _ _ _ ho => ?_) hy
    obtain ⟨v, hv, howned⟩ := hregistry.sessions c x hx
    rw [hk] at hv
    obtain rfl := Option.some.inj (ht.symm.trans hv)
    exact (howned.listed ho).resolve_left (not_inserting_of_pending h.upgrade hnone _ c)
  -- and it spawns none without a `PendingUpgrade`
  have hspawns : t.pending = none → ∀ (c : ℕ) (y : ServedSession), s'.sessions[c]? = some y →
      y.task = k → ∃ x, s.sessions[c]? = some x ∧ x.task = k := by
    intro hnone c y hy hk
    rcases session_of_next hn hy with ⟨x, hx, hages⟩ | ⟨-, j, i, -, rfl, v, hv, hpc⟩
    · exact ⟨x, hx, hages.task.symm.trans hk⟩
    · obtain rfl : j = k := hk
      obtain rfl := Option.some.inj (ht.symm.trans hv)
      simp [ConnectionTask.pending, h.upgrade, hpc, TaskPc.pending] at hnone
  by_cases hown : ∃ move, e = .task k move
  · obtain ⟨move, rfl⟩ := hown
    have hstep := step_of_next hn
    cases hstep with
    | task hv hs =>
      obtain rfl := Option.some.inj (ht.symm.trans hv)
      obtain ⟨u, hu, hup, hres, hpending⟩ :=
        pending_of_taskStep ht hs (hcounted.sided k t ht) h.upgrade h.accepted
      refine ⟨u, hu, ⟨hup, hres, fun i hi => ?_, fun hnone c y hy hk => ?_⟩⟩
      · have hold : t.pending = some i := by
          rcases hpending with hsame | ⟨hnone, -⟩
          · exact hsame.symm.trans hi
          · rw [hnone] at hi
            cases hi
        exact counts_of_next hcounted hregistry hn ht hold (h.waits i hold)
      · cases hi : t.pending with
        | none =>
          obtain ⟨x, hx, hxk⟩ := hspawns hi c y hy hk
          exact hcatches hi c x y hx hxk hy
        | some i =>
          -- it gives up what it held: the endpoint is still to be collected
          obtain ⟨-, hat⟩ := hpending.resolve_left fun hsame => by
            rw [hnone, hi] at hsame
            cases hsame
          have hcounts := counts_of_next hcounted hregistry hn ht hi (h.waits i hi)
          exact catches_of_counts hregistry' hu (fun j hj => hat i j hi hj ▸ hcounts) hy hk
  · obtain ⟨u, hu, hup, hpc⟩ := task_of_next hn ht fun move hmove => hown ⟨move, hmove⟩
    have hsame : u.pending = t.pending := by simp only [ConnectionTask.pending, hup, hpc]
    refine ⟨u, hu, ⟨hup.trans h.upgrade, fun i hi => h.accepted i (hpc ▸ hi), fun i hi => ?_,
      fun hnone c y hy hk => ?_⟩⟩
    · have hold := hsame.symm.trans hi
      exact counts_of_next hcounted hregistry hn ht hold (h.waits i hold)
    · have hnone' := hsame.symm.trans hnone
      obtain ⟨x, hx, hxk⟩ := hspawns hnone' c y hy hk
      exact hcatches hnone' c x y hx hxk hy

theorem Awaited.path (h : s.Awaited q k t) (hr : machine.Reachable s) (ht : s.tasks[k]? = some t)
    (hp : machine.Path Machine.free s s') : ∃ u, s'.tasks[k]? = some u ∧ s'.Awaited q k u := by
  induction hp with
  | refl => exact ⟨t, ht, h⟩
  | tail hp _ hn ih =>
    obtain ⟨u, hu, hawaited⟩ := ih
    exact hawaited.step (hr.trans hp) hu hn

/-! ## What has returned -/

/-- **What becomes of an accepted upgrade**: it fails without a session, or its session closes. -/
def SettledUpgrade (s : VcmpServer) (k : ℕ) : Prop :=
  (∀ (c : ℕ) (x : ServedSession), s.sessions[c]? = some x → x.task = k → x.isOpen = false) ∧
    ((∃ (c : ℕ) (x : ServedSession), s.sessions[c]? = some x ∧ x.task = k) ∨
      ∃ t, s.tasks[k]? = some t ∧ t.pc = .ended)

/-- Behind its `PendingUpgrade` an upgrade has a session or has ended. -/
theorem session_or_ended (hregistry : s.Registry) (hcounted : s.Counted) (ht : s.tasks[k]? = some t)
    (hup : t.upgrade = true) (haccepted : ∀ i, t.pc ≠ .reserved i) (hnone : t.pending = none) :
    (∃ (c : ℕ) (x : ServedSession), s.sessions[c]? = some x ∧ x.task = k) ∨ t.pc = .ended := by
  cases hc : t.pc.session with
  | some c =>
    obtain ⟨x, hx, hk⟩ := hregistry.spawned k c t ht hc
    exact .inl ⟨c, x, hx, hk⟩
  | none =>
    refine .inr ?_
    have hside := hcounted.sided k t ht
    simp only [ConnectionTask.pending, hup, if_pos] at hnone
    cases hpc : t.pc with
    | gated | handshaking | responding | checking =>
      have hbare := hside false (by rw [hpc]; rfl)
      rw [hup] at hbare
      cases hbare
    | reserved i => exact absurd hpc (haccepted i)
    | upgrading | starting =>
      rw [hpc] at hnone
      cases hnone
    | ended => rfl
    | _ =>
      rw [hpc] at hc
      cases hc

/-- **When the call returns** the upgrades it awaited have settled. -/
theorem Awaited.settled (h : s.Awaited q k t) (hr : machine.Reachable s) (ht : s.tasks[k]? = some t)
    {sessions : List ℕ} (hret : s.closings[q]? = some (.returned sessions)) : s.SettledUpgrade k := by
  have hat := closingAt_of_getElem? hret
  have hnone : t.pending = none := by
    cases hi : t.pending with
    | none => rfl
    | some i =>
      have hcounts := h.waits i hi
      rw [hat] at hcounts
      cases hcounts
  refine ⟨fun c x hx hk => ?_, ?_⟩
  · have hcatches := h.catches hnone c x hx hk
    rw [hat] at hcatches
    rcases hcatches with hshut | hin | hmem
    · exact hshut
    · cases hin
    · cases hmem
  · exact (session_or_ended (registry_of_reachable hr) (counted_of_reachable hr) ht h.upgrade h.accepted
      hnone).imp_right fun hpc => ⟨t, ht, hpc⟩

/-! ## Every run -/

/-- How many accepted upgrades have neither registered a session nor failed. -/
def unregistered (s : VcmpServer) (i : ℕ) : ℕ :=
  total (fun t => if t.upgrade = true ∧ t.pc.unregistered = some i then 1 else 0) s.tasks

/-- How many have registered one and still hold their `PendingUpgrade`. -/
def releasing (s : VcmpServer) (i : ℕ) : ℕ :=
  total (fun t => if t.upgrade = true ∧ t.pc.registers = some i then 1 else 0) s.tasks

theorem holders_eq (s : VcmpServer) (i : ℕ) : s.holders i = s.unregistered i + s.releasing i := by
  rw [unregistered, releasing, ← total_add, holders]
  refine congrArg (fun f => total f s.tasks) (funext fun t => ?_)
  cases hup : t.upgrade <;> cases hpc : t.pc <;>
    simp [ConnectionTask.holds, ConnectionTask.pending, hup, hpc, TaskPc.pending, TaskPc.unregistered,
      TaskPc.registers]

/-- **What an endpoint counts, and what a `close_sessions` call can rely on.** -/
structure Upgraded (s : VcmpServer) : Prop where
  counter : ∀ (i : ℕ) (p : Endpoint), s.endpoints[i]? = some p →
    p.pendingUpgrades = s.unregistered i + s.releasing i
  /-- Where a task gives its `PendingUpgrade` up the counter is not zero. -/
  held : ∀ (k i : ℕ) (t : ConnectionTask), s.tasks[k]? = some t → t.pending = some i →
    ∃ p, s.endpoints[i]? = some p ∧ 0 < p.pendingUpgrades
  /-- What was accepted before the call looked at the counter of its endpoint has settled
  when the call returns. -/
  settles : ∀ (q k : ℕ) (t : ConnectionTask), s.tasks[k]? = some t → t.upgrade = true →
    (∀ i, t.pc ≠ .reserved i) → (∀ i, t.pc.endpoint = some i → (s.closingAt q).counts i = true) →
    ∀ s' sessions, machine.Path Machine.free s s' → s'.closings[q]? = some (.returned sessions) →
      s'.SettledUpgrade k

/-- **In every run the counters are right and every call waits for what was accepted.** -/
theorem upgraded_of_reachable (h : machine.Reachable s) : s.Upgraded where
  counter i p hp := ((counted_of_reachable h).counter i p hp).trans (holders_eq s i)
  held := by
    intro k i t ht hi
    have hlt := (registry_of_reachable h).endpoint k i t ht (endpoint_of_pending hi)
    have hp := List.getElem?_eq_getElem hlt
    exact ⟨_, hp, (counted_of_reachable h).pos ht hi hp⟩
  settles := by
    intro q k t ht hup haccepted hat s' sessions hp hret
    have hawaited : s.Awaited q k t :=
      ⟨hup, haccepted, fun i hi => hat i (endpoint_of_pending hi),
        fun _ c x hx hk => catches_of_counts (registry_of_reachable h) ht hat hx hk⟩
    obtain ⟨u, hu, hkept⟩ := hawaited.path h ht hp
    exact hkept.settled (h.trans hp) hu hret

/-- An upgrade is accepted and spawns its session while a call waits for it. -/
def upgradeRun : List Event :=
  [.onUpgrade 0 true, .task 0 .goes, .closeSessions, .closing 0, .task 0 .succeeds, .task 0 .goes]

/-- The counter of the endpoint stands at one. -/
theorem upgraded_of_reachable_upgradeRun : ∃ s,
    machine.run { endpoints := List.replicate 1 {} } upgradeRun = some s ∧
      s.endpoints.map Endpoint.pendingUpgrades = [1] ∧ s.closings = [.waiting 1 0] ∧ s.Upgraded := by
  have hrun : (machine.run { endpoints := List.replicate 1 {} } upgradeRun).any (fun s =>
      decide (s.endpoints.map Endpoint.pendingUpgrades = [1] ∧ s.closings = [.waiting 1 0])) = true := by
    decide +kernel
  obtain ⟨s, hs, hend⟩ := Machine.exists_of_run hrun
  obtain ⟨hcounters, hclosings⟩ := of_decide_eq_true hend
  exact ⟨s, hs, hcounters, hclosings, upgraded_of_reachable (Machine.reachable_of_run ⟨1, rfl⟩ hs)⟩

/-- An upgrade registers its session, and has not dropped its `PendingUpgrade`. -/
def registeredRun : List Event :=
  [.onUpgrade 0 true, .task 0 .goes, .task 0 .succeeds, .task 0 .goes, .task 0 .goes]

/-- An `on_upgrade` is about to count while a call passes its endpoint. -/
def passedRun : List Event := List.flatten [
  [.onUpgrade 0 true, .closeSessions], List.replicate 5 (.closing 0),
  [.task 0 .goes, .task 0 .succeeds, .task 0 .goes, .task 0 .goes], List.replicate 2 (.closing 0)]

/-- **The counter counts an upgrade whose session is registered, and a call
misses one that was accepted behind its look at the counter.** -/
theorem miscounts_of_run :
    (∃ s, machine.run { endpoints := List.replicate 1 {} } registeredRun = some s ∧
      s.endpoints = [{ pendingUpgrades := 1, sessions := [0] }] ∧ s.unregistered 0 = 0) ∧
    ∃ s, machine.run { endpoints := List.replicate 1 {} } passedRun = some s ∧
      s.closings = [.returned []] ∧ s.sessions = [{ endpoint := 0, task := 0, isOpen := true }] := by
  have hregistered : (machine.run { endpoints := List.replicate 1 {} } registeredRun).any (fun s =>
      decide (s.endpoints = [{ pendingUpgrades := 1, sessions := [0] }] ∧ s.unregistered 0 = 0)) = true := by
    decide +kernel
  have hpassed : (machine.run { endpoints := List.replicate 1 {} } passedRun).any (fun s =>
      decide (s.closings = [.returned []] ∧
        s.sessions = [{ endpoint := 0, task := 0, isOpen := true }])) = true := by
    decide +kernel
  obtain ⟨s, hs, hend⟩ := Machine.exists_of_run hregistered
  obtain ⟨u, hu, hmissed⟩ := Machine.exists_of_run hpassed
  exact ⟨⟨s, hs, of_decide_eq_true hend⟩, u, hu, of_decide_eq_true hmissed⟩

end VcmpServer

end Vcmp
