import Vcmp.Server.Closing
/-!
# Shutdown of the standalone server

A task of the accept loop reads `stopped` once, before it spawns its
session, and nothing counts it between that and the insertion. Where the
call of the `stop` collects the sessions of an endpoint while such a task
is there, the session is inserted behind its back and stays open.

Where it does not, the call catches every session, and behind it no task
is left that could insert one.
-/

namespace Vcmp

/-- Where a task has read `stopped` as unset and its session is not inserted. -/
def TaskPc.late : TaskPc → Option ℕ
  | .starting i | .inserting i _ => some i
  | _ => none

theorem TaskPc.unwound_late (pc : TaskPc) : pc.unwound.late = none := by
  cases pc <;> rfl

namespace VcmpServer

variable {s s' : VcmpServer} {k q i c : ℕ} {t u : ConnectionTask} {x y : ServedSession} {e : Event}

/-- The call of the `stop`, once there is one. -/
def stopCall (s : VcmpServer) : Option ℕ := s.stop.bind StopCall.call

/-- Where the call of the `stop` is, before its beginning too. -/
def stage (s : VcmpServer) : ClosingPc :=
  match s.stopCall with
  | some q => s.closingAt q
  | none => .listing

/-- **No axum, and no task caught between its check and its insertion** by
the call of the `stop` that collects its endpoint. -/
def Unhurried (s : VcmpServer) (e : Event) : Prop :=
  (∀ i admitted, e ≠ .onUpgrade i admitted) ∧
    ∀ q n i sessions, e = .closing q → s.stopCall = some q →
      s.closings[q]? = some (.collecting n i sessions) → i < n →
      ∀ (k : ℕ) (t : ConnectionTask), s.tasks[k]? = some t → t.pc.late ≠ some i

/-- **What the call of a `stop` lets through.** -/
structure Timely (s : VcmpServer) : Prop where
  bare : ∀ (k : ℕ) (t : ConnectionTask), s.tasks[k]? = some t → t.upgrade = false
  late : ∀ (k i : ℕ) (t : ConnectionTask), s.tasks[k]? = some t → t.pc.late = some i →
    s.stage.collects i = true
  catches : ∀ (c : ℕ) (x : ServedSession), s.sessions[c]? = some x → s.stage.Catches c x
  /-- The call is behind the setting of `stopped`. -/
  early : s.stopped = false → s.stopCall = none
  sending : ∀ d, s.stop = some d → d.pc = .sending → s.stopped = true
  uncalled : ∀ d, s.stop = some d → d.pc = .filtering ∨ d.pc = .storing ∨ d.pc = .sending →
    d.call = none

theorem timely_start (n : ℕ) : Timely { endpoints := List.replicate n {} } := by
  constructor <;> simp [stopCall]

/-! ## The stage -/

theorem stage_of_stopCall (h : s.stopCall = some q) : s.stage = s.closingAt q := by
  unfold stage
  rw [h]

theorem stage_of_none (h : s.stopCall = none) : s.stage = .listing := by
  unfold stage
  rw [h]

/-- What a step makes of the `stop`. -/
theorem stopCall_of_next (h : s.Timely) (hn : machine.next s e = some s') :
    s'.stopCall = s.stopCall ∨ s.stopped = true ∧ s.stopCall = none ∧
      s'.stopCall = some s.closings.length ∧ s'.closings = s.closings ++ [.listing] := by
  have hleave : ∀ k v, ((s.setTask k v).leaveHook k).stopCall = s.stopCall := by
    intro k v
    have hleft := left_leaveHook (s.setTask k v) k
    generalize (s.setTask k v).leaveHook k = w at hleft
    cases hleft with
    | same => rfl
    | dropped hc _ _ =>
      have hstop : s.stop = some _ := hc
      simp [stopCall, hstop]
  cases step_of_next hn with
  | accept hs => cases hs <;> exact .inl rfl
  | task _ hs =>
    refine .inl ?_
    cases hs with
    | hookEnds | notified | aborts | panics => exact hleave _ _
    | failed | released =>
      rw [dropPending_eq]
      rfl
    | _ => rfl
  | closing _ hs => cases hs <;> exact .inl rfl
  | stop hnone => exact .inl (by simp [stopCall, hnone])
  | stopGoes hc hs =>
    cases hs with
    | sends hpc =>
      have hnone := h.uncalled _ hc (.inr (.inr hpc))
      exact .inr ⟨h.sending _ hc hpc, by simp [stopCall, hc, hnone], rfl, rfl⟩
    | _ => exact .inl (by simp [stopCall, hc])
  | stopDeadline hc hs => cases hs <;> exact .inl (by simp [stopCall, hc])
  | _ => exact .inl rfl

/-- **What a step makes of the stage.** -/
theorem stage_of_next (h : s.Timely) (hn : machine.next s e = some s') :
    s'.stage = s.stage ∨ s'.stage = .dropped ∨ ∃ q pc, e = .closing q ∧ s.stopCall = some q ∧
      s.closings[q]? = some pc ∧ ClosingStep s q pc s' ∧ s'.stage = s'.closingAt q := by
  rcases stopCall_of_next h hn with hsame | ⟨-, hnone, hcall, hclosings⟩
  · cases hq : s.stopCall with
    | none => exact .inl (by rw [stage_of_none (hsame.trans hq), stage_of_none hq])
    | some q =>
      rw [stage_of_stopCall (hsame.trans hq), stage_of_stopCall hq]
      rcases closingAt_of_next hn q with hat | hdropped | ⟨pc, rfl, hpc, hs⟩
      · exact .inl hat
      · exact .inr (.inl hdropped)
      · exact .inr (.inr ⟨q, pc, rfl, rfl, hpc, hs, rfl⟩)
  · refine .inl ?_
    rw [stage_of_stopCall hcall, stage_of_none hnone, closingAt_concat hclosings]
    simp [closingAt]

/-- **A stage that is still to collect an endpoint goes on to**, unless it just collects it. -/
theorem collects_of_next (h : s.Timely) (hn : machine.next s e = some s')
    (hi : i < s.endpoints.length) (hcollects : s.stage.collects i = true)
    (hnot : ∀ q n sessions, e = .closing q → s.stopCall = some q →
      s.closings[q]? ≠ some (.collecting n i sessions)) : s'.stage.collects i = true := by
  rcases stage_of_next h hn with hsame | hdropped | ⟨q, pc, rfl, hcall, hpc, hs, hstage⟩
  · rw [hsame]
    exact hcollects
  · rw [hdropped]
    rfl
  · rw [stage_of_stopCall hcall, closingAt_of_getElem? hpc] at hcollects
    have hmoves : ∀ pc', s'.closings = s.closings.set q pc' → s'.stage = pc' := by
      intro pc' hset
      rw [hstage]
      exact closingAt_of_getElem? (by rw [hset]; exact getElem?_set_self' hpc)
    cases hs with
    | lists =>
      rw [hmoves _ rfl]
      simpa [ClosingPc.collects] using hi
    | passes | waited =>
      rw [hmoves _ rfl]
      simpa [ClosingPc.collects] using hcollects
    | @collects n j sessions =>
      rw [hmoves _ rfl]
      simp only [ClosingPc.collects, Bool.and_eq_true, decide_eq_true_eq] at hcollects ⊢
      have hne : i ≠ j := by
        rintro rfl
        exact hnot q n sessions rfl hcall hpc
      omega
    | collected =>
      simp only [ClosingPc.collects, Bool.and_eq_true, decide_eq_true_eq] at hcollects
      omega
    | closes | closed | awaits | returns => cases hcollects

/-! ## Every step -/

theorem endpoint_of_late {pc : TaskPc} (h : pc.late = some i) : pc.endpoint = some i := by
  cases pc <;> first | exact h | cases h

/-- Nothing unsets `stopped`. -/
theorem stopped_of_next (hn : machine.next s e = some s') (h : s.stopped = true) : s'.stopped = true := by
  cases step_of_next hn with
  | accept hs => cases hs <;> exact h
  | task _ hs =>
    obtain ⟨pc, heq⟩ := taskStep_eq hs
    rw [heq]
    exact h
  | closing _ hs => cases hs <;> exact h
  | stopGoes _ hs =>
    cases hs with
    | stores => rfl
    | _ => exact h
  | stopDeadline _ hs => cases hs <;> exact h
  | _ => exact h

/-- **A task of the accept loop comes to its spawning by its check alone.** -/
theorem late_of_taskStep {move : TaskMove} (h : TaskStep s k t move s') (ht : s.tasks[k]? = some t)
    (hu : s'.tasks[k]? = some u) (hbare : t.upgrade = false)
    (hsided : ∀ b, t.pc.side = some b → t.upgrade = b) (hi : u.pc.late = some i) :
    t.pc.late = some i ∨ s.stopped = false ∧ t.pc = .checking i := by
  have hset : ∀ v, s'.tasks = s.tasks.set k v → u = v := by
    intro v htasks
    rw [htasks, getElem?_set_self' ht] at hu
    exact (Option.some.inj hu).symm
  cases h with
  | letIn hpc hstopped =>
    rw [hset _ rfl] at hi
    obtain rfl := Option.some.inj hi
    exact .inr ⟨hstopped, hpc⟩
  | upgraded hpc =>
    have hup := hsided true (by rw [hpc]; rfl)
    rw [hbare] at hup
    cases hup
  | spawned hpc =>
    rw [hset _ rfl] at hi
    exact .inl (by rw [hpc]; exact hi)
  | inserted =>
    rw [hset _ rfl] at hi
    simp only [hbare] at hi
    cases hi
  | failed | released =>
    rw [hset _ (by rw [dropPending_eq]; rfl)] at hi
    cases hi
  | hookEnds | notified =>
    rw [hset _ (by rw [leaveHook_eq]; rfl)] at hi
    cases hi
  | aborts | panics =>
    rw [hset _ (by rw [leaveHook_eq]; rfl), t.pc.unwound_late] at hi
    cases hi
  | _ =>
    rw [hset _ rfl] at hi
    cases hi

/-- Without axum every task is of the accept loop. -/
theorem bare_of_next (hbare : ∀ (k : ℕ) (t : ConnectionTask), s.tasks[k]? = some t → t.upgrade = false)
    (hok : Unhurried s e) (hn : machine.next s e = some s') (k : ℕ) (u : ConnectionTask)
    (hu : s'.tasks[k]? = some u) : u.upgrade = false := by
  rcases task_before hn hu with ⟨t, ht, hup, -⟩ | ⟨move, t, rfl, ht, hs⟩ | rfl | ⟨i, rfl, -⟩
  · exact hup.trans (hbare k t ht)
  · obtain ⟨pc, heq⟩ := taskStep_eq hs
    rw [heq] at hu
    obtain rfl := Option.some.inj ((getElem?_set_self' ht).symm.trans hu)
    exact hbare k t ht
  · rfl
  · exact absurd rfl (hok.1 i true)

/-- The endpoint of a task that is late is not the one that is just collected. -/
theorem Timely.not_collecting (h : s.Timely) (hok : Unhurried s e) (ht : s.tasks[k]? = some t)
    (hi : t.pc.late = some i) (q n : ℕ) (sessions : List ℕ) (he : e = .closing q)
    (hcall : s.stopCall = some q) : s.closings[q]? ≠ some (.collecting n i sessions) := by
  intro hq
  have hcollects := h.late k i t ht hi
  rw [stage_of_stopCall hcall, closingAt_of_getElem? hq] at hcollects
  simp only [ClosingPc.collects, Bool.and_eq_true, decide_eq_true_eq] at hcollects
  exact hok.2 q n i sessions he hcall hq hcollects.2 k t ht hi

theorem Timely.late_of_next (h : s.Timely) (hr : machine.Reachable s) (hok : Unhurried s e)
    (hn : machine.next s e = some s') (hu : s'.tasks[k]? = some u) (hi : u.pc.late = some i) :
    s'.stage.collects i = true := by
  have hregistry := registry_of_reachable hr
  -- one that was late before
  have hstays : ∀ t, s.tasks[k]? = some t → t.pc.late = some i → s'.stage.collects i = true := by
    intro t ht hlate
    have hlt := hregistry.endpoint k i t ht (endpoint_of_late hlate)
    exact collects_of_next h hn hlt (h.late k i t ht hlate) (h.not_collecting hok ht hlate)
  rcases task_before hn hu with ⟨t, ht, -, hpc⟩ | ⟨move, t, rfl, ht, hs⟩ | rfl | ⟨j, -, -, rfl⟩
  · exact hstays t ht (hpc ▸ hi)
  · rcases late_of_taskStep hs ht hu (h.bare k t ht) ((counted_of_reachable hr).sided k t ht) hi with
      hlate | ⟨hstopped, hpc⟩
    · exact hstays t ht hlate
    · -- where `stopped` is unset the call has not begun
      have hlt := hregistry.endpoint k i t ht (by rw [hpc]; rfl)
      have hstage := stage_of_none (h.early hstopped)
      exact collects_of_next h hn hlt (by rw [hstage]; rfl) (fun _ _ _ he => by cases he)
  · cases hi
  · cases hi

theorem Timely.catches_of_next (h : s.Timely) (hr : machine.Reachable s) (hok : Unhurried s e)
    (hn : machine.next s e = some s') (hy : s'.sessions[c]? = some y) : s'.stage.Catches c y := by
  have hregistry := registry_of_reachable hr
  rcases session_of_next hn hy with ⟨x, hx, hages⟩ | ⟨-, k, i, rfl, rfl, t, ht, hpc⟩
  · have hold := h.catches c x hx
    rcases stage_of_next h hn with hsame | hdropped | ⟨q, pc, rfl, hcall, hq, hs, hstage⟩
    · rw [hsame]
      rcases hold with hshut | hin | hmem
      · exact .inl (hages.shut hshut)
      · exact .inr (.inl (hages.endpoint ▸ hin))
      · exact .inr (.inr hmem)
    · rw [hdropped]
      exact .inr (.inl rfl)
    · rw [stage_of_stopCall hcall, closingAt_of_getElem? hq] at hold
      rw [hstage]
      refine catches_of_closing hregistry hq hs hx hold (fun n sessions hcollecting hlt ho => ?_) hy
      -- no task is about to insert it, so it is listed
      obtain ⟨t, ht, howned⟩ := hregistry.sessions c x hx
      refine (howned.listed ho).resolve_left fun hpc => ?_
      exact hok.2 q n x.endpoint sessions rfl hcall (hcollecting ▸ hq) hlt x.task t ht (by rw [hpc]; rfl)
  · -- a session that is just spawned
    have hlate : t.pc.late = some i := by rw [hpc]; rfl
    have hlt := hregistry.endpoint k i t ht (endpoint_of_late hlate)
    exact .inr (.inl (collects_of_next h hn hlt (h.late k i t ht hlate) fun _ _ _ he => by cases he))

/-- **Every step keeps the `stop` in time.** -/
theorem Timely.step (h : s.Timely) (hr : machine.Reachable s) (hok : Unhurried s e)
    (hn : machine.next s e = some s') : s'.Timely where
  bare := bare_of_next h.bare hok hn
  late _ _ _ hu hi := h.late_of_next hr hok hn hu hi
  catches _ _ hy := h.catches_of_next hr hok hn hy
  early := by
    intro hstopped
    have hold : s.stopped = false := by
      by_contra hne
      rw [stopped_of_next hn (by simpa using hne)] at hstopped
      cases hstopped
    rcases stopCall_of_next h hn with hsame | ⟨hset, -⟩
    · exact hsame.trans (h.early hold)
    · rw [hold] at hset
      cases hset
  sending := by
    intro d hd hpc
    rcases stop_of_next hn with hsame | ⟨c, -, hdropped⟩ | ⟨-, awaiter, hbegins⟩ | ⟨c, hc, hs⟩ |
      ⟨c, hc, hs⟩
    · exact stopped_of_next hn (h.sending d (hsame ▸ hd) hpc)
    · obtain rfl := Option.some.inj (hdropped.symm.trans hd)
      cases hpc
    · obtain rfl := Option.some.inj (hbegins.symm.trans hd)
      cases hpc
    · cases hs with
      | stores => rfl
      | _ =>
        obtain rfl := Option.some.inj hd
        cases hpc
    · cases hs <;>
      · obtain rfl := Option.some.inj hd
        cases hpc
  uncalled := by
    intro d hd hpc
    rcases stop_of_next hn with hsame | ⟨c, -, hdropped⟩ | ⟨-, awaiter, hbegins⟩ | ⟨c, hc, hs⟩ |
      ⟨c, hc, hs⟩
    · exact h.uncalled d (hsame ▸ hd) hpc
    · obtain rfl := Option.some.inj (hdropped.symm.trans hd)
      rcases hpc with hpc | hpc | hpc <;> cases hpc
    · obtain rfl := Option.some.inj (hbegins.symm.trans hd)
      rfl
    · cases hs with
      | filters hfrom =>
        obtain rfl := Option.some.inj hd
        exact h.uncalled c hc (.inl hfrom)
      | stores hfrom =>
        obtain rfl := Option.some.inj hd
        exact h.uncalled c hc (.inr (.inl hfrom))
      | _ =>
        obtain rfl := Option.some.inj hd
        rcases hpc with hpc | hpc | hpc <;> cases hpc
    · cases hs <;>
      · obtain rfl := Option.some.inj hd
        rcases hpc with hpc | hpc | hpc <;> cases hpc

theorem timely_of_reachableBy (h : machine.ReachableBy Unhurried s) : s.Timely := by
  have hinit : ∀ s, machine.init s → s.Timely := by
    rintro s ⟨n, rfl⟩
    exact timely_start n
  exact h.invariant_of hinit fun s e s' hr hok hn hs => hs.step hr.reachable hok hn

/-! ## Behind the call -/

/-- **No task is left that could insert a session.** -/
structure Closed (s : VcmpServer) : Prop where
  stopped : s.stopped = true
  bare : ∀ (k : ℕ) (t : ConnectionTask), s.tasks[k]? = some t → t.upgrade = false
  late : ∀ (k : ℕ) (t : ConnectionTask), s.tasks[k]? = some t → t.pc.late = none

theorem Closed.step (h : s.Closed) (hr : machine.Reachable s) (hok : Unhurried s e)
    (hn : machine.next s e = some s') : s'.Closed := by
  refine ⟨stopped_of_next hn h.stopped, bare_of_next h.bare hok hn, fun k u hu => ?_⟩
  rcases task_before hn hu with ⟨t, ht, -, hpc⟩ | ⟨move, t, rfl, ht, hs⟩ | rfl | ⟨j, -, -, rfl⟩
  · exact hpc ▸ h.late k t ht
  · cases hi : u.pc.late with
    | none => rfl
    | some i =>
      rcases late_of_taskStep hs ht hu (h.bare k t ht) ((counted_of_reachable hr).sided k t ht) hi with
        hlate | ⟨hstopped, -⟩
      · exact hlate.symm.trans (h.late k t ht)
      · rw [h.stopped] at hstopped
        cases hstopped
  · rfl
  · rfl

/-- An endpoint lists what it listed, or what a task has just inserted. -/
theorem registered_of_next (hn : machine.next s e = some s') (hc : c ∈ s'.registered i) :
    c ∈ s.registered i ∨ ∃ (k : ℕ) (t : ConnectionTask) (j d : ℕ), s.tasks[k]? = some t ∧
      t.pc = .inserting j d := by
  have hsame : ∀ {w : VcmpServer}, s' = w → w.endpoints = s.endpoints → c ∈ s.registered i := by
    rintro _ rfl hendpoints
    unfold registered at hc ⊢
    rwa [hendpoints] at hc
  have hcounter : ∀ (j : ℕ) (g : Endpoint → Endpoint), s'.endpoints = s.endpoints.modify j g →
      (∀ p, (g p).sessions = p.sessions) → c ∈ s.registered i := by
    intro j g hendpoints hg
    unfold registered at hc ⊢
    rw [hendpoints, List.getElem?_modify] at hc
    cases hp : s.endpoints[i]? with
    | none => simp [hp] at hc
    | some p =>
      simp only [hp, Option.map_eq_map, Option.map_some, Option.getD_some] at hc ⊢
      split at hc
      · rwa [hg] at hc
      · exact hc
  have hdrop : ∀ (w : VcmpServer) o, s' = w.dropPending o → w.endpoints = s.endpoints →
      c ∈ s.registered i := by
    rintro w o rfl hw
    cases o with
    | none => exact hsame rfl hw
    | some j =>
      refine hcounter j (fun p => { p with pendingUpgrades := p.pendingUpgrades - 1 }) ?_ fun _ => rfl
      rw [← hw]
      rfl
  cases step_of_next hn with
  | endpoint =>
    refine .inl ?_
    unfold registered at hc ⊢
    cases hp : (s.endpoints ++ [({} : Endpoint)])[i]? with
    | none => simp [hp] at hc
    | some p =>
      rcases getElem?_concat_cases hp with ⟨-, rfl⟩ | hold
      · simp [hp] at hc
      · rw [hold]
        rwa [hp] at hc
  | accept hs => cases hs <;> exact .inl (hsame rfl rfl)
  | @task k t _ _ ht hs =>
    cases hs with
    | @inserted j d hpc => exact .inr ⟨k, t, j, d, ht, hpc⟩
    | removed | unlisted => exact .inl (mem_registered_remove.mp hc).1
    | counted => exact .inl (hcounter _ _ rfl fun _ => rfl)
    | failed | released => exact .inl (hdrop _ _ rfl rfl)
    | hookEnds | notified | aborts | panics => exact .inl (hsame rfl (by rw [leaveHook_eq]; rfl))
    | _ => exact .inl (hsame rfl rfl)
  | closing _ hs => cases hs <;> exact .inl (hsame rfl rfl)
  | stopGoes _ hs => cases hs <;> exact .inl (hsame rfl rfl)
  | stopDeadline _ hs => cases hs <;> exact .inl (hsame rfl rfl)
  | _ => exact .inl (hsame rfl rfl)

/-- **What is closed spawns no session and lists none.** -/
theorem Closed.path (h : s.Closed) (hr : machine.Reachable s) (hp : machine.Path Unhurried s s') :
    s'.Closed ∧ (∀ (c : ℕ) (y : ServedSession), s'.sessions[c]? = some y →
      ∃ x, s.sessions[c]? = some x ∧ Ages x y) ∧
      ∀ i, ∀ c ∈ s'.registered i, c ∈ s.registered i := by
  induction hp with
  | refl => exact ⟨h, fun c y hy => ⟨y, hy, .refl y⟩, fun _ _ hc => hc⟩
  | tail hp hok hn ih =>
    obtain ⟨hclosed, hsessions, hregistered⟩ := ih
    refine ⟨hclosed.step (hr.trans (hp.mono fun _ _ _ => trivial)) hok hn, fun c z hz => ?_,
      fun i c hc => ?_⟩
    · rcases session_of_next hn hz with ⟨y, hy, hages⟩ | ⟨-, k, i, -, -, t, ht, hpc⟩
      · obtain ⟨x, hx, hold⟩ := hsessions c y hy
        exact ⟨x, hx, hages.endpoint.trans hold.endpoint, hages.task.trans hold.task,
          fun hshut => hages.shut (hold.shut hshut)⟩
      · have hlate := hclosed.late k t ht
        rw [hpc] at hlate
        cases hlate
    · rcases registered_of_next hn hc with hold | ⟨k, t, j, d, ht, hpc⟩
      · exact hregistered i c hold
      · have hlate := hclosed.late k t ht
        rw [hpc] at hlate
        cases hlate

/-- **What the call of a `stop` leaves behind.** -/
structure LeavesNone (s : VcmpServer) : Prop where
  /-- What is open when the call has collected is among what it closes, -/
  collected : ∀ q sessions left, s.stopCall = some q → s.closings[q]? = some (.closing sessions left) →
    s.Closed ∧ ∀ (c : ℕ) (x : ServedSession), s.sessions[c]? = some x → x.isOpen = true → c ∈ left
  /-- when it has returned nothing is open, -/
  shut : ∀ q sessions, s.stopCall = some q → s.closings[q]? = some (.returned sessions) →
    ∀ (c : ℕ) (x : ServedSession), s.sessions[c]? = some x → x.isOpen = false
  /-- and from then on no session is spawned and none is registered. -/
  last : ∀ q sessions, s.stopCall = some q → s.closings[q]? = some (.returned sessions) →
    ∀ s', machine.Path Unhurried s s' →
      (∀ (c : ℕ) (x : ServedSession), s'.sessions[c]? = some x →
        c < s.sessions.length ∧ x.isOpen = false) ∧
      ∀ i, ∀ c ∈ s'.registered i, c ∈ s.registered i

/-- Where the call collects nothing any more, no task is late. -/
theorem Timely.closed (h : s.Timely) (hcall : s.stopCall = some q)
    (hcollects : ∀ i, (s.closingAt q).collects i = false) : s.Closed := by
  refine ⟨?_, h.bare, fun k t ht => ?_⟩
  · by_contra hne
    have hnone := h.early (by simpa using hne)
    rw [hnone] at hcall
    cases hcall
  · cases hi : t.pc.late with
    | none => rfl
    | some i =>
      have hlate := h.late k i t ht hi
      rw [stage_of_stopCall hcall, hcollects] at hlate
      cases hlate

/-- **Where no step catches a task between its check and its insertion**,
the `stop` closes every session and is the last to see one. -/
theorem leavesNone_of_reachableBy (h : machine.ReachableBy Unhurried s) : s.LeavesNone := by
  have htimely := timely_of_reachableBy h
  -- what it catches when it has collected it holds
  have hcatches : ∀ q pc, s.stopCall = some q → s.closings[q]? = some pc →
      (∀ i, pc.collects i = false) →
      s.Closed ∧ ∀ (c : ℕ) (x : ServedSession), s.sessions[c]? = some x →
        x.isOpen = false ∨ c ∈ pc.held := by
    intro q pc hcall hq hcollects
    have hat := closingAt_of_getElem? hq
    refine ⟨htimely.closed hcall (by rw [hat]; exact hcollects), fun c x hx => ?_⟩
    have hold := htimely.catches c x hx
    rw [stage_of_stopCall hcall, hat] at hold
    rcases hold with hshut | hin | hmem
    · exact .inl hshut
    · rw [hcollects] at hin
      cases hin
    · exact .inr hmem
  have hshut : ∀ q sessions, s.stopCall = some q → s.closings[q]? = some (.returned sessions) →
      ∀ (c : ℕ) (x : ServedSession), s.sessions[c]? = some x → x.isOpen = false := by
    intro q sessions hcall hq c x hx
    exact ((hcatches q _ hcall hq fun _ => rfl).2 c x hx).resolve_right fun hmem => by cases hmem
  refine ⟨fun q sessions left hcall hq => ?_, hshut, fun q sessions hcall hq s' hp => ?_⟩
  · obtain ⟨hclosed, hheld⟩ := hcatches q _ hcall hq fun _ => rfl
    exact ⟨hclosed, fun c x hx ho => (hheld c x hx).resolve_left (by rw [ho]; simp)⟩
  · obtain ⟨hclosed, -⟩ := hcatches q _ hcall hq fun _ => rfl
    obtain ⟨-, hsessions, hregistered⟩ := hclosed.path h.reachable hp
    refine ⟨fun c y hy => ?_, hregistered⟩
    obtain ⟨x, hx, hages⟩ := hsessions c y hy
    exact ⟨(List.getElem?_eq_some_iff.mp hx).1, hages.shut (hshut q sessions hcall hq c x hx)⟩

/-- A check of `Unhurried`. -/
def unhurried (s : VcmpServer) : Event → Bool
  | .onUpgrade _ _ => false
  | .closing q => s.stopCall ≠ some q || match s.closings[q]? with
    | some (.collecting n i _) => !decide (i < n) || s.tasks.all fun t => t.pc.late ≠ some i
    | _ => true
  | _ => true

theorem unhurried_of_check (s : VcmpServer) (e : Event) (h : unhurried s e = true) : Unhurried s e := by
  refine ⟨fun i admitted he => ?_, fun q n i sessions he hcall hq hi k t ht => ?_⟩
  · rw [he] at h
    cases h
  · subst he
    have hall : ∀ t ∈ s.tasks, t.pc.late ≠ some i := by
      simpa [unhurried, hcall, hq, hi] using h
    exact hall t (List.mem_of_getElem? ht)

/-- A task accepted by the loop comes as far as its check. -/
def accepted (k : ℕ) : List Event :=
  [.accept .accepts, .accept .goes, .accept .goes, .task k .goes, .task k (.matched 0), .task k .succeeds]

/-- Two connections, one of which is served when the server stops, while
the other comes to its check behind that. -/
def servedRun : List Event := List.flatten [
  accepted 0, accepted 1, List.replicate 3 (.task 0 .goes),
  [.stop none, .stopGoes, .stopGoes, .stopGoes, .task 1 .goes],
  List.replicate 6 (.closing 0), [.finish 0], List.replicate 3 (.closing 0)]

/-- Its session is closed and the other has none. -/
theorem leavesNone_of_reachableBy_servedRun : ∃ s,
    machine.run { endpoints := List.replicate 1 {} } servedRun = some s ∧
      s.closings = [.returned [0]] ∧ s.tasks.map ConnectionTask.pc = [.preparing 0 0, .ended] ∧
      s.LeavesNone := by
  have hrun : (machine.run { endpoints := List.replicate 1 {} } servedRun).any (fun s =>
      decide (s.closings = [.returned [0]] ∧
        s.tasks.map ConnectionTask.pc = [.preparing 0 0, .ended])) = true := by
    decide +kernel
  obtain ⟨s, hs, hend⟩ := Machine.exists_of_run hrun
  obtain ⟨hclosings, htasks⟩ := of_decide_eq_true hend
  have hok := Machine.reachableBy_of_run unhurried unhurried_of_check (M := machine) ⟨1, rfl⟩
    (by decide +kernel) hs
  exact ⟨s, hs, hclosings, htasks, leavesNone_of_reachableBy hok⟩

/-- A connection passes its check, and goes on when the call has returned. -/
def lateRun : List Event := List.flatten [
  accepted 0, [.task 0 .goes, .stop none, .stopGoes, .stopGoes, .stopGoes],
  List.replicate 7 (.closing 0), List.replicate 2 (.task 0 .goes)]

/-- **Its session is registered and open behind the call.** -/
theorem late_of_run : ∃ s, machine.run { endpoints := List.replicate 1 {} } lateRun = some s ∧
    s.stopCall = some 0 ∧ s.closings = [.returned []] ∧ s.registered 0 = [0] ∧
      s.sessions = [{ endpoint := 0, task := 0, isOpen := true }] := by
  have hrun : (machine.run { endpoints := List.replicate 1 {} } lateRun).any (fun s =>
      decide (s.stopCall = some 0 ∧ s.closings = [.returned []] ∧ s.registered 0 = [0] ∧
        s.sessions = [{ endpoint := 0, task := 0, isOpen := true }])) = true := by
    decide +kernel
  obtain ⟨s, hs, hend⟩ := Machine.exists_of_run hrun
  exact ⟨s, hs, of_decide_eq_true hend⟩

end VcmpServer

end Vcmp
