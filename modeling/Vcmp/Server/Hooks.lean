import Vcmp.Json.Codec
import Vcmp.Server.System
/-!
# The hooks of the server

`on_connected` is called with a session that its endpoint shows and whose
heartbeat was initiated, `on_disconnected` with one that has fully closed
and that no endpoint shows any more. Each is called once at most, by the
task of the session and in this order, so they never overlap.
-/

namespace Vcmp

open Session

namespace ServerSystem

variable {J : JsonText} {p q : ServerSystem} {c : ℕ} {e : Event J}

/-! ## The calls of the hooks -/

/-- The calls made with a session. -/
def callsOf (p : ServerSystem) (c : ℕ) : List HookCall := p.calls.filter fun call => call.session = c

/-- **The calls that may have been made where the task of a session is.** -/
def said (c : ℕ) : TaskPc → List HookCall
  | .hooking _ _ | .serving _ _ | .removing _ _ | .deciding _ _ => [.connected c]
  | .notifying _ _ | .cleaning _ _ | .unlisting _ _ | .ended => [.connected c, .disconnected c]
  | _ => []

theorem said_full (c : ℕ) (pc : TaskPc) :
    (said c pc).Sublist [.connected c, .disconnected c] := by
  cases pc <;> simp [said]

/-- A call is made by the task of its session. -/
theorem mem_called {server : VcmpServer} {e : VcmpServer.Event} {call : HookCall}
    (h : call ∈ called server e) : ∃ (k : ℕ) (t : ConnectionTask) (move : VcmpServer.TaskMove),
      e = .task k move ∧ server.tasks[k]? = some t ∧
        ((∃ i c, move = .prepare true true ∧ t.pc = .preparing i c ∧ call = .connected c) ∨
          ∃ i c, move = .decide true ∧ t.pc = .deciding i c ∧ call = .disconnected c) := by
  unfold called at h
  split at h
  · rename_i k i c hplace
    obtain ⟨t, ht, hpc⟩ := Option.map_eq_some_iff.mp hplace
    exact ⟨k, t, _, rfl, ht, .inl ⟨i, c, rfl, hpc, List.mem_singleton.mp h⟩⟩
  · rename_i k i c hplace
    obtain ⟨t, ht, hpc⟩ := Option.map_eq_some_iff.mp hplace
    exact ⟨k, t, _, rfl, ht, .inr ⟨i, c, rfl, hpc, List.mem_singleton.mp h⟩⟩
  · cases h

/-- **What a task has said and says it may have said where it comes to.** -/
theorem said_taskStep {server server' : VcmpServer} {k : ℕ} {t u : ConnectionTask}
    {move : VcmpServer.TaskMove} (ht : server.tasks[k]? = some t)
    (hs : VcmpServer.TaskStep server k t move server') (hu : server'.tasks[k]? = some u)
    (hc : ∀ d, t.pc.session = some d → d = c) :
    (said c t.pc ++ called server (.task k move)).Sublist (said c u.pc) := by
  have moved : ∀ pc, server'.tasks = server.tasks.set k { t with pc := pc } → u.pc = pc := by
    intro pc htasks
    rw [htasks, getElem?_set_self' ht] at hu
    obtain rfl := Option.some.inj hu
    rfl
  have hplace : ∀ move, placeOf server (.task k move) = some t.pc := by
    intro move
    simp [placeOf, ht]
  cases hs with
  | failed hpc =>
    rw [moved .ended (by rw [VcmpServer.dropPending_eq]; rfl)]
    simp [said, called, hpc]
  | @released i d hpc =>
    rw [moved (.preparing i d) (by rw [VcmpServer.dropPending_eq]; rfl)]
    simp [said, called, hpc]
  | @hookEnds i d hpc =>
    rw [moved (.serving i d) (by rw [VcmpServer.leaveHook_eq]; rfl)]
    simp [said, called, hpc]
  | @notified i d hpc =>
    rw [moved (.cleaning i d) (by rw [VcmpServer.leaveHook_eq]; rfl)]
    simp [said, called, hpc]
  | aborts _ hawaits =>
    rw [moved t.pc.unwound (by rw [VcmpServer.leaveHook_eq]; rfl)]
    cases hpc : t.pc <;> simp_all [said, called, TaskPc.unwound, TaskPc.awaits]
  | panics hhook =>
    rw [moved t.pc.unwound (by rw [VcmpServer.leaveHook_eq]; rfl)]
    cases hpc : t.pc <;> simp_all [said, called, TaskPc.unwound, TaskPc.inHook]
  | inserted hpc =>
    rw [moved _ rfl]
    simp [said, called, hpc]
  | lost hpc =>
    rw [moved _ rfl]
    rcases hpc with hpc | ⟨i, hpc⟩ <;> simp [said, called, hpc]
  | @hooked i d hpc =>
    obtain rfl := hc d (by rw [hpc]; rfl)
    rw [moved _ rfl]
    simp [said, called, hplace, hpc]
  | @notifies i d hpc =>
    obtain rfl := hc d (by rw [hpc]; rfl)
    rw [moved _ rfl]
    simp [said, called, hplace, hpc]
  | _ hpc =>
    rw [moved _ rfl]
    simp [said, called, hpc]

/-- **What was called with a session fits where its task is.** -/
structure Logged (p : ServerSystem) : Prop where
  order : ∀ (c : ℕ) (x : ServedSession) (t : ConnectionTask), p.server.sessions[c]? = some x →
    p.server.tasks[x.task]? = some t → (p.callsOf c).Sublist (said c t.pc)
  known : ∀ call ∈ p.calls, call.session < p.server.sessions.length

/-- A step of the server itself. -/
theorem Logged.server (h : p.Logged) (hregistry : p.server.Registry) {server : VcmpServer}
    {e : VcmpServer.Event} (hown : own p.server e = true)
    (hn : VcmpServer.machine.next p.server e = some server) (sessions : List Session) :
    Logged { p with server := server, sessions := sessions, calls := p.calls ++ called p.server e } where
  order := by
    intro c y u hy hu
    have hcalls : callsOf { p with
        server := server, sessions := sessions, calls := p.calls ++ called p.server e } c =
          p.callsOf c ++ (called p.server e).filter (fun call => call.session = c) :=
      List.filter_append ..
    rw [hcalls]
    obtain ⟨-, -, hstarts⟩ := own_cases hown
    rcases VcmpServer.session_of_next hn hy with ⟨x, hx, hages⟩ | ⟨-, k, i, rfl, -, t, ht, hpc⟩
    · obtain ⟨t, ht, howned⟩ := hregistry.sessions c x hx
      have hold := h.order c x t hx ht
      rw [hages.task] at hu
      by_cases hmoves : ∃ move, e = .task x.task move
      · obtain ⟨move, rfl⟩ := hmoves
        obtain ⟨v, hv, hstep⟩ := Option.bind_eq_some_iff.mp hn
        obtain rfl := Option.some.inj (ht.symm.trans hv)
        refine ((hold.append List.filter_sublist)).trans ?_
        exact said_taskStep ht (VcmpServer.taskStep_of_next hstep) hu fun d hd => (howned.held d hd).1
      · -- another moves, and calls no hook with this session
        obtain ⟨v, hv, -, hpc⟩ := VcmpServer.task_of_next hn ht fun move hmove => hmoves ⟨move, hmove⟩
        obtain rfl := Option.some.inj (hu.symm.trans hv)
        have hnone : (called p.server e).filter (fun call => call.session = c) = [] := by
          refine List.filter_eq_nil_iff.mpr fun call hcall hc => hmoves ?_
          obtain ⟨k, w, move, rfl, hw, hplace⟩ := mem_called hcall
          have hsession : w.pc.session = some call.session := by
            rcases hplace with ⟨i, d, -, hwpc, rfl⟩ | ⟨i, d, -, hwpc, rfl⟩ <;> rw [hwpc] <;> rfl
          rw [of_decide_eq_true hc] at hsession
          obtain ⟨z, hz, hk⟩ := hregistry.spawned k c w hw hsession
          obtain rfl := Option.some.inj (hx.symm.trans hz)
          exact ⟨move, by rw [hk]⟩
        rw [hnone, List.append_nil, hpc]
        exact hold
    · exact absurd hpc (hstarts k t i .goes rfl ht)
  known := by
    intro call hcall
    have hlen := length_of_own hown hn
    rcases List.mem_append.mp hcall with hcall | hcall
    · exact hlen.symm ▸ h.known call hcall
    · obtain ⟨k, t, move, rfl, ht, hplace⟩ := mem_called hcall
      have hsession : t.pc.session = some call.session := by
        rcases hplace with ⟨i, d, -, hpc, rfl⟩ | ⟨i, d, -, hpc, rfl⟩ <;> rw [hpc] <;> rfl
      obtain ⟨x, hx, -⟩ := hregistry.spawned k _ t ht hsession
      exact hlen.symm ▸ (List.getElem?_eq_some_iff.mp hx).1

theorem Logged.step (h : p.Logged) (hregistry : p.server.Registry) (hs : Step J p q) : q.Logged := by
  cases hs with
  | @server _ server hown _ hn =>
    have hnext := h.server hregistry hown hn (closeAll server.sessions p.sessions)
    refine ⟨fun c x t hx ht => ?_, fun call hcall => ?_⟩
    · rw [initiates_server] at hx ht
      rw [callsOf, initiates_calls]
      exact hnext.order c x t hx ht
    · rw [initiates_server]
      rw [initiates_calls] at hcall
      exact hnext.known call hcall
  | @starts k i t _ _ ht hpc hn =>
    obtain rfl := server_of_starts ht hpc hn
    refine ⟨fun c x u hx hu => ?_, fun call hcall => ?_⟩
    · rcases getElem?_concat_cases hx with ⟨rfl, rfl⟩ | hold
      · -- a new session is not known yet
        have hnone : p.callsOf p.server.sessions.length = [] := by
          refine List.filter_eq_nil_iff.mpr fun call hcall hc => ?_
          have hlt := h.known call hcall
          have heq := of_decide_eq_true hc
          omega
        change (p.callsOf p.server.sessions.length).Sublist _
        rw [hnone]
        exact List.nil_sublist _
      · rcases getElem?_set_cases hu with ⟨hk, rfl⟩ | ⟨-, hold'⟩
        · have hsaid := h.order c x t hold (hk ▸ ht)
          rw [hpc] at hsaid
          exact hsaid
        · exact h.order c x u hold hold'
    · have hlt := h.known call hcall
      simp only [List.length_append, List.length_singleton]
      omega
  | session hs hn =>
    refine ⟨fun c x t hx ht => ?_, fun call hcall => ?_⟩
    · obtain ⟨y, hy, rfl⟩ := getElem?_modify_cases hx
      refine h.order c y t hy ?_
      split at ht <;> exact ht
    · have hlt := h.known call hcall
      simpa [observe] using hlt

theorem logged_of_reachable (h : (machine J).Reachable p) : p.Logged := by
  have hinit : ∀ p, (machine J).init p → p.Logged := by
    rintro p ⟨n, interval, rfl⟩
    exact ⟨fun c x t hx => by simp at hx, fun call hcall => by cases hcall⟩
  exact h.invariant_of hinit fun p e q hr _ hn hp =>
    hp.step (VcmpServer.registry_of_reachable (server_of_reachable hr)) (step_of_next hn)

/-! ## Behind the last call -/

/-- **A session that `on_disconnected` was called with** is fully closed, and
gone from the endpoints. -/
structure Parted (p : ServerSystem) : Prop where
  gone : ∀ c, .disconnected c ∈ p.calls → p.server.Gone c
  closed : ∀ c, .disconnected c ∈ p.calls → ∃ x, p.server.sessions[c]? = some x ∧ x.closed = true

/-- Where `on_disconnected` is about to be called. -/
theorem parts_of_deciding {server : VcmpServer} (h : VcmpServer.machine.Reachable server) {k i : ℕ}
    {t : ConnectionTask} (ht : server.tasks[k]? = some t) (hpc : t.pc = .deciding i c) :
    server.Gone c ∧ ∃ x, server.sessions[c]? = some x ∧ x.closed = true := by
  have hregistry := VcmpServer.registry_of_reachable h
  have hshown := VcmpServer.shown_of_reachable h
  have hsession : t.pc.session = some c := by rw [hpc]; rfl
  obtain ⟨x, hx, -, -, howned⟩ := hregistry.own (i := i) ht hsession (by rw [hpc]; rfl)
  refine ⟨⟨(List.getElem?_eq_some_iff.mp hx).1, fun j hc => ?_, fun j i' u hu hupc => ?_⟩, x, hx,
    howned.seen (by rw [hpc]; rfl)⟩
  · obtain ⟨j', u, hu, hus, -, hmay⟩ := hshown.task j c hc
    obtain rfl := hregistry.task_unique ht hsession hu hus
    obtain rfl := Option.some.inj (ht.symm.trans hu)
    rw [hpc] at hmay
    cases hmay
  · obtain rfl := hregistry.task_unique ht hsession hu (by rw [hupc]; rfl)
    obtain rfl := Option.some.inj (ht.symm.trans hu)
    rw [hpc] at hupc
    cases hupc

/-- A session that has closed stays so on the server's side. -/
theorem closed_of_server_path {server server' : VcmpServer}
    (hp : VcmpServer.machine.Path Machine.free server server')
    (h : ∃ x, server.sessions[c]? = some x ∧ x.closed = true) :
    ∃ x, server'.sessions[c]? = some x ∧ x.closed = true := by
  refine hp.preserves (P := fun server => ∃ x : ServedSession, server.sessions[c]? = some x ∧
    x.closed = true) ?_ h
  rintro s e s' - hn ⟨x, hx, hclosed⟩
  by_cases hfinish : ∃ d, e = .finish d
  · obtain ⟨d, rfl⟩ := hfinish
    cases VcmpServer.step_of_next hn with
    | finish =>
      refine ⟨if d = c then { x with closed := true } else x, by simp [List.getElem?_modify, hx], ?_⟩
      split
      · rfl
      · exact hclosed
  · obtain ⟨y, hy, -, hsame⟩ := VcmpServer.session_forth hn (fun d hd => hfinish ⟨d, hd⟩) hx
    exact ⟨y, hy, hsame.trans hclosed⟩

theorem parted_of_reachable (h : (machine J).Reachable p) : p.Parted := by
  refine h.invariant_of (P := fun p => p.Parted) ?_ ?_
  · rintro p ⟨n, interval, rfl⟩
    exact ⟨fun c hc => (by cases hc), fun c hc => (by cases hc)⟩
  · intro p e q hr _ hn ih
    have hstep := step_of_next hn
    have hpath := hstep.path (synced_of_reachable hr)
    -- what was called is called before the step, or by it
    have hcalled : ∀ c, .disconnected c ∈ q.calls →
        p.server.Gone c ∧ ∃ x, p.server.sessions[c]? = some x ∧ x.closed = true := by
      intro c hc
      cases hstep with
      | server hown _ hs =>
        rw [initiates_calls] at hc
        rcases List.mem_append.mp hc with hc | hc
        · exact ⟨ih.gone c hc, ih.closed c hc⟩
        · obtain ⟨k, t, move, -, ht, ⟨i, d, -, -, hcall⟩ | ⟨i, d, -, hpc, hcall⟩⟩ := mem_called hc
          · cases hcall
          · cases hcall
            exact parts_of_deciding (server_of_reachable hr) ht hpc
      | starts => exact ⟨ih.gone c hc, ih.closed c hc⟩
      | session => exact ⟨ih.gone c hc, ih.closed c hc⟩
    refine ⟨fun c hc => ?_, fun c hc => closed_of_server_path hpath (hcalled c hc).2⟩
    exact hpath.preserves (P := fun s : VcmpServer => s.Gone c) (fun _ _ _ _ hn hg => hg.step hn)
      (hcalled c hc).1

/-! ## The heartbeat -/

/-- **The heartbeat that the task of a session initiated.** -/
structure Initiated (p : ServerSystem) : Prop where
  beat : ∀ (c b : ℕ), p.initiated[c]? = some (some b) → ∃ (s : Session) (beat : Beat),
    p.sessions[c]? = some s ∧ s.beats[b]? = some beat ∧ beat.interval = min p.heartbeatInterval (u64Bound - 1)
  /-- It has returned before `on_connected` is called. -/
  called : ∀ c, .connected c ∈ p.calls → p.heartbeatDone c = true

theorem heartbeatDone_iff : p.heartbeatDone c = true ↔ ∃ s b beat, p.sessions[c]? = some s ∧
    p.initiated[c]? = some (some b) ∧ s.beats[b]? = some beat ∧ beat.pc = .done := by
  unfold heartbeatDone
  constructor
  · intro h
    split at h
    · rename_i s b hs hb
      obtain ⟨beat, hbeat, hpc⟩ := Option.map_eq_some_iff.mp (of_decide_eq_true h)
      exact ⟨s, b, beat, hs, hb, hbeat, hpc⟩
    · cases h
  · rintro ⟨s, b, beat, hs, hb, hbeat, hpc⟩
    simp [hs, hb, hbeat, hpc]

/-- The sessions of a system, seen from their heartbeats: what is there stays. -/
structure Beating (p q : ServerSystem) : Prop where
  interval : q.heartbeatInterval = p.heartbeatInterval
  session : ∀ (c b : ℕ) (s : Session) (beat : Beat), p.sessions[c]? = some s →
    s.beats[b]? = some beat → ∃ (s' : Session) (beat' : Beat), q.sessions[c]? = some s' ∧
      s'.beats[b]? = some beat' ∧ beat'.interval = beat.interval ∧ (beat.pc = .done → beat'.pc = .done)

theorem Beating.trans {r : ServerSystem} (h : Beating p q) (h' : Beating q r) : Beating p r where
  interval := h'.interval.trans h.interval
  session := by
    intro c b s beat hs hbeat
    obtain ⟨s', beat', hs', hbeat', hinterval, hdone⟩ := h.session c b s beat hs hbeat
    obtain ⟨s'', beat'', hs'', hbeat'', hinterval', hdone'⟩ := h'.session c b s' beat' hs' hbeat'
    exact ⟨s'', beat'', hs'', hbeat'', hinterval'.trans hinterval, fun hpc => hdone' (hdone hpc)⟩

theorem initiates_cases (p : ServerSystem) (o : Option TaskPc) : p.initiates o = p ∨
    ∃ i c s, o = some (.inserting i c) ∧ p.sessions[c]? = some s ∧ p.initiates o = { p with
      sessions := p.sessions.set c (initiateHeartbeat s p.heartbeatInterval)
      initiated := p.initiated.set c (some s.beats.length) } := by
  unfold initiates
  split
  · split
    · exact .inr ⟨_, _, _, rfl, ‹_›, rfl⟩
    · exact .inl rfl
  · exact .inl rfl

theorem beating_initiates (p : ServerSystem) (o : Option TaskPc) : Beating p (p.initiates o) := by
  rcases initiates_cases p o with heq | ⟨i, d, r, -, hr, heq⟩
  · rw [heq]
    exact ⟨rfl, fun c b s beat hs hbeat => ⟨s, beat, hs, hbeat, rfl, fun hpc => hpc⟩⟩
  · rw [heq]
    refine ⟨rfl, fun c b s beat hs hbeat => ?_⟩
    by_cases hd : d = c
    · subst hd
      obtain rfl := Option.some.inj (hr.symm.trans hs)
      exact ⟨_, beat, getElem?_set_self' hr, getElem?_append_some hbeat, rfl, fun hpc => hpc⟩
    · exact ⟨s, beat, (List.getElem?_set_ne hd).trans hs, hbeat, rfl, fun hpc => hpc⟩

/-- **A call of `send_heartbeat` stays**, whatever is done. -/
theorem Step.beating (h : Step J p q) (hsync : Synced J p) : Beating p q := by
  cases h with
  | @server e server hown _ hn =>
    refine Beating.trans (q := { p with
      server := server, sessions := closeAll server.sessions p.sessions
      calls := p.calls ++ called p.server e })
      ⟨rfl, fun c b s beat hs hbeat => ?_⟩ (beating_initiates _ _)
    have hlt : c < server.sessions.length := by
      rw [length_of_own hown hn, ← hsync.length]
      exact (List.getElem?_eq_some_iff.mp hs).1
    have hx := List.getElem?_eq_getElem hlt
    refine ⟨if server.sessions[c].isOpen then s else s.close, beat, ?_, ?_, rfl, fun hpc => hpc⟩
    · change (closeAll server.sessions p.sessions)[c]? = _
      rw [closeAll, List.getElem?_zipWith, hx, hs]
    · split <;> exact hbeat
  | starts =>
    exact ⟨rfl, fun c b s beat hs hbeat =>
      ⟨s, beat, getElem?_append_some hs, hbeat, rfl, fun hpc => hpc⟩⟩
  | @session d r r' _ hr hn =>
    refine ⟨rfl, fun c b s beat hs hbeat => ?_⟩
    by_cases hd : d = c
    · subst hd
      obtain rfl := Option.some.inj (hr.symm.trans hs)
      have hreach := hsync.session r (List.mem_of_getElem? hr)
      obtain ⟨beat', hbeat', hinterval, hdone, -⟩ :=
        (Session.step_of_next hn).beat_next hbeat (beats_of_reachable hreach hbeat)
      exact ⟨r', beat', getElem?_set_self' hr, hbeat', hinterval, hdone⟩
    · exact ⟨s, beat, (List.getElem?_set_ne hd).trans hs, hbeat, rfl, fun hpc => hpc⟩

/-- Which heartbeats a step has initiated. -/
theorem Step.initiated (h : Step J p q) {b : ℕ} (hb : q.initiated[c]? = some (some b)) :
    p.initiated[c]? = some (some b) ∨
      (∃ (k i : ℕ) (t : ConnectionTask), p.server.tasks[k]? = some t ∧ t.pc = .inserting i c) ∧
        ∃ s, q.sessions[c]? = some s ∧
          s.beats[b]? = some { interval := min q.heartbeatInterval (u64Bound - 1) } := by
  cases h with
  | @server e server hown _ hn =>
    rcases initiates_cases { p with
      server := server, sessions := closeAll server.sessions p.sessions
      calls := p.calls ++ called p.server e } (placeOf p.server e) with
      heq | ⟨i, d, r, hplace, hr, heq⟩
    · rw [heq] at hb
      exact .inl hb
    · rw [heq] at hb ⊢
      rcases getElem?_set_cases hb with ⟨rfl, hsome⟩ | ⟨-, hold⟩
      · obtain rfl := Option.some.inj hsome
        refine .inr ⟨?_, _, getElem?_set_self' hr, List.getElem?_concat_length⟩
        unfold placeOf at hplace
        split at hplace
        · obtain ⟨t, ht, hpc⟩ := Option.map_eq_some_iff.mp hplace
          exact ⟨_, i, t, ht, hpc⟩
        · cases hplace
      · exact .inl hold
  | starts =>
    rcases getElem?_concat_cases hb with ⟨-, hnone⟩ | hold
    · cases hnone
    · exact .inl hold
  | session => exact .inl hb

/-- A step of a task behind its insertion does not initiate its heartbeat again. -/
theorem Step.stays_initiated (h : Step J p q) {b : ℕ} (hb : p.initiated[c]? = some (some b))
    (hnot : ∀ (k i : ℕ) (t : ConnectionTask), p.server.tasks[k]? = some t → t.pc ≠ .inserting i c) :
    q.initiated[c]? = some (some b) := by
  cases h with
  | @server e server hown _ hn =>
    rcases initiates_cases { p with
      server := server, sessions := closeAll server.sessions p.sessions
      calls := p.calls ++ called p.server e } (placeOf p.server e) with
      heq | ⟨i, d, r, hplace, hr, heq⟩
    · rw [heq]
      exact hb
    · rw [heq]
      have hd : d ≠ c := by
        rintro rfl
        unfold placeOf at hplace
        split at hplace
        · obtain ⟨t, ht, hpc⟩ := Option.map_eq_some_iff.mp hplace
          exact hnot _ i t ht hpc
        · cases hplace
      exact (List.getElem?_set_ne hd).trans hb
  | starts => exact getElem?_append_some hb
  | session => exact hb

/-- A session that a hook was called with is behind its insertion. -/
theorem not_inserting_of_called (h : (machine J).Reachable p) (hc : .connected c ∈ p.calls) (k i : ℕ)
    (t : ConnectionTask) (ht : p.server.tasks[k]? = some t) : t.pc ≠ .inserting i c := by
  intro hpc
  have hregistry := VcmpServer.registry_of_reachable (server_of_reachable h)
  obtain ⟨x, hx, rfl⟩ := hregistry.spawned k c t ht (by rw [hpc]; rfl)
  have hsaid := (logged_of_reachable h).order c x t hx ht
  have hmem : HookCall.connected c ∈ p.callsOf c := List.mem_filter.mpr ⟨hc, by simp [HookCall.session]⟩
  have hin := hsaid.subset hmem
  rw [hpc] at hin
  cases hin

theorem initiated_of_reachable (h : (machine J).Reachable p) : p.Initiated := by
  refine h.invariant_of (P := fun p => p.Initiated) ?_ ?_
  · rintro p ⟨n, interval, rfl⟩
    exact ⟨fun c b hb => by simp at hb, fun c hc => (by cases hc)⟩
  · intro p e q hr _ hn ih
    have hstep := step_of_next hn
    have hbeating := hstep.beating (synced_of_reachable hr)
    refine ⟨fun c b hb => ?_, fun c hc => ?_⟩
    · rcases hstep.initiated hb with hold | ⟨-, s, hs, hbeat⟩
      · obtain ⟨s, beat, hs, hbeat, hinterval⟩ := ih.beat c b hold
        obtain ⟨s', beat', hs', hbeat', hsame, -⟩ := hbeating.session c b s beat hs hbeat
        exact ⟨s', beat', hs', hbeat', by rw [hsame, hinterval, hbeating.interval]⟩
      · exact ⟨s, _, hs, hbeat, rfl⟩
    · -- it had returned before the step
      have hbefore : p.heartbeatDone c = true ∧ ∀ (k i : ℕ) (t : ConnectionTask),
          p.server.tasks[k]? = some t → t.pc ≠ .inserting i c := by
        have old : .connected c ∈ p.calls → p.heartbeatDone c = true ∧
            ∀ (k i : ℕ) (t : ConnectionTask), p.server.tasks[k]? = some t → t.pc ≠ .inserting i c :=
          fun hold => ⟨ih.called c hold, not_inserting_of_called hr hold⟩
        cases hstep with
        | server hown hready hs =>
          rw [initiates_calls] at hc
          rcases List.mem_append.mp hc with hc | hc
          · exact old hc
          · obtain ⟨k, t, move, rfl, ht, ⟨i, d, -, hpc, hcall⟩ | ⟨i, d, -, -, hcall⟩⟩ := mem_called hc
            · cases hcall
              refine ⟨by simpa [ready, placeOf, ht, hpc] using hready, fun j i' u hu hupc => ?_⟩
              have hregistry := VcmpServer.registry_of_reachable (server_of_reachable hr)
              obtain rfl := hregistry.task_unique (c := c) ht (by rw [hpc]; rfl) hu (by rw [hupc]; rfl)
              obtain rfl := Option.some.inj (ht.symm.trans hu)
              rw [hpc] at hupc
              cases hupc
            · cases hcall
        | starts => exact old hc
        | session => exact old hc
      obtain ⟨hdone, hnot⟩ := hbefore
      obtain ⟨s, b, beat, hs, hb, hbeat, hpc⟩ := heartbeatDone_iff.mp hdone
      obtain ⟨s', beat', hs', hbeat', -, hstays⟩ := hbeating.session c b s beat hs hbeat
      exact heartbeatDone_iff.mpr ⟨s', b, beat', hs', hstep.stays_initiated hb hnot, hbeat', hstays hpc⟩

/-! ## The hooks -/

/-- **When `on_connected` may be called with a session.** -/
structure MayConnect (p : ServerSystem) (c : ℕ) : Prop where
  /-- Its endpoint shows it. -/
  shown : ∃ x, p.server.sessions[c]? = some x ∧ c ∈ p.server.registered x.endpoint
  /-- Its heartbeat was initiated: the frame is queued, or the session was closed. -/
  heartbeat : ∃ (s : Session) (b : ℕ) (beat : Beat), p.sessions[c]? = some s ∧
    s.beats[b]? = some beat ∧ beat.interval = min p.heartbeatInterval (u64Bound - 1) ∧
    beat.pc = .done ∧ (Beaten s b beat ∨ s.isOpen = false)

/-- **When `on_disconnected` may be called with a session.** -/
structure MayDisconnect (J : JsonText) (p : ServerSystem) (c : ℕ) : Prop where
  /-- It has fully closed, and its pending sends are settled. -/
  closed : ∃ s, p.sessions[c]? = some s ∧ s.closed = true ∧ Released J s
  /-- No endpoint shows it. -/
  unlisted : ∀ i, c ∉ p.server.registered i
  /-- No `on_connected` future of it is there, or can come. -/
  hooked : ∀ (k i : ℕ) (t : ConnectionTask), p.server.tasks[k]? = some t →
    t.pc ≠ .preparing i c ∧ t.pc ≠ .hooking i c

/-- **What holds of the hooks in a state.** -/
structure Hooks (J : JsonText) (p : ServerSystem) : Prop where
  /-- Each is called at most once with a session, `on_connected` first, -/
  order : ∀ c, (p.callsOf c).Sublist [.connected c, .disconnected c]
  /-- and is called where it may be, -/
  connects : ∀ (e : Event J) (q : ServerSystem), (machine J).next p e = some q → ∀ c,
    .connected c ∈ q.calls → .connected c ∉ p.calls → p.MayConnect c
  disconnects : ∀ (e : Event J) (q : ServerSystem), (machine J).next p e = some q → ∀ c,
    .disconnected c ∈ q.calls → .disconnected c ∉ p.calls → MayDisconnect J p c
  /-- which stays so. -/
  after : ∀ c, .disconnected c ∈ p.calls → MayDisconnect J p c

/-- What a step adds to the calls, a task calls. -/
theorem called_of_step (hs : Step J p q) {call : HookCall} (hq : call ∈ q.calls) (hp : call ∉ p.calls) :
    ∃ e, call ∈ called p.server e ∧ p.ready e = true := by
  cases hs with
  | server hown hready hn =>
    rw [initiates_calls] at hq
    rcases List.mem_append.mp hq with hold | hnew
    · exact absurd hold hp
    · exact ⟨_, hnew, hready⟩
  | starts => exact absurd hq hp
  | session => exact absurd hq hp

theorem mayConnect_of_called (h : (machine J).Reachable p) {e : VcmpServer.Event}
    (hready : p.ready e = true) (hcall : .connected c ∈ called p.server e) : p.MayConnect c := by
  have hreach := server_of_reachable h
  have hregistry := VcmpServer.registry_of_reachable hreach
  obtain ⟨k, t, move, rfl, ht, ⟨i, d, -, hpc, heq⟩ | ⟨i, d, -, -, heq⟩⟩ := mem_called hcall
  · cases heq
    have hsession : t.pc.session = some c := by rw [hpc]; rfl
    have hendpoint : t.pc.endpoint = some i := by rw [hpc]; rfl
    obtain ⟨x, hx, -, rfl, -⟩ := hregistry.own ht hsession hendpoint
    refine ⟨⟨x, hx, ?_⟩, ?_⟩
    · exact (VcmpServer.shown_of_reachable hreach).shown k _ c t ht (by rw [hpc]; rfl) hsession hendpoint
    · have hdone : p.heartbeatDone c = true := by simpa [ready, placeOf, ht, hpc] using hready
      obtain ⟨s, b, beat, hs, hb, hbeat, hbpc⟩ := heartbeatDone_iff.mp hdone
      obtain ⟨s', beat', hs', hbeat', hinterval⟩ := (initiated_of_reachable h).beat c b hb
      obtain rfl := Option.some.inj (hs.symm.trans hs')
      obtain rfl := Option.some.inj (hbeat.symm.trans hbeat')
      have hsreach := (synced_of_reachable h).session s (List.mem_of_getElem? hs)
      exact ⟨s, b, beat, hs, hbeat, hinterval, hbpc, (beats_of_reachable hsreach hbeat).done hbpc⟩
  · cases heq

/-- A session that is closed and gone may be told of. -/
theorem mayDisconnect_of_gone (h : (machine J).Reachable p) (hgone : p.server.Gone c)
    (hclosed : ∃ x, p.server.sessions[c]? = some x ∧ x.closed = true) : MayDisconnect J p c := by
  have hreach := server_of_reachable h
  have hshown := VcmpServer.shown_of_reachable hreach
  have hregistry := VcmpServer.registry_of_reachable hreach
  obtain ⟨x, hx, hxc⟩ := hclosed
  obtain ⟨s, hs, hsreach, -, hsame⟩ := (synced_of_reachable h).get hx
  have hsc : s.closed = true := hsame ▸ hxc
  refine ⟨⟨s, hs, hsc, released_of_closed hsreach hsc⟩, hgone.unlisted, ?_⟩
  intro k i t ht
  have hserves : t.pc.shows = true → t.pc.session = some c → t.pc.endpoint = some i → False :=
    fun hshows hsession hendpoint =>
      hgone.unlisted i (hshown.shown k i c t ht hshows hsession hendpoint)
  constructor <;> intro hpc <;> refine hserves ?_ ?_ ?_ <;> rw [hpc] <;> rfl

/-- **The hooks of the server**, in every state its runs reach. -/
theorem server_hooks (p : ServerSystem) (h : (machine J).Reachable p) : Hooks J p where
  order := by
    intro c
    have hlogged := logged_of_reachable h
    by_cases hlt : c < p.server.sessions.length
    · obtain ⟨t, ht, -⟩ := (VcmpServer.registry_of_reachable (server_of_reachable h)).sessions c _
        (List.getElem?_eq_getElem hlt)
      exact (hlogged.order c _ t (List.getElem?_eq_getElem hlt) ht).trans (said_full c t.pc)
    · have hnone : p.callsOf c = [] := by
        refine List.filter_eq_nil_iff.mpr fun call hcall hc => hlt ?_
        rw [← of_decide_eq_true hc]
        exact hlogged.known call hcall
      rw [hnone]
      exact List.nil_sublist _
  connects _ _ hn _ hq hp := by
    obtain ⟨e, hcall, hready⟩ := called_of_step (step_of_next hn) hq hp
    exact mayConnect_of_called h hready hcall
  disconnects _ _ hn _ hq hp := by
    obtain ⟨e, hcall, -⟩ := called_of_step (step_of_next hn) hq hp
    obtain ⟨k, t, move, -, ht, ⟨i, d, -, -, heq⟩ | ⟨i, d, -, hpc, heq⟩⟩ := mem_called hcall
    · cases heq
    · cases heq
      obtain ⟨hgone, hclosed⟩ := parts_of_deciding (server_of_reachable h) ht hpc
      exact mayDisconnect_of_gone h hgone hclosed
  after c hc :=
    have hparted := parted_of_reachable h
    mayDisconnect_of_gone h (hparted.gone c hc) (hparted.closed c hc)

/-- A connection that comes, is served and closes. -/
def servedConnection : List (Event compactJson) := List.flatten [
  [.server (.accept .accepts), .server (.accept .goes), .server (.accept .goes),
    .server (.task 0 .goes), .server (.task 0 (.matched 0)), .server (.task 0 .succeeds),
    .server (.task 0 .goes), .starts 0 1 smallLimits .empty (.new smallLimits.resources) [],
    .server (.task 0 .goes)],
  List.replicate 7 (.session 0 (.beat 0)),
  [.server (.task 0 (.prepare true true)), .server (.task 0 .hookEnds), .session 0 .close],
  List.replicate 4 (.session 0 .drive), [.session 0 (.writer .steps), .session 0 (.writer .ends)],
  List.replicate 6 (.session 0 .drive),
  [.server (.task 0 .closedSeen), .server (.task 0 .goes), .server (.task 0 (.decide true))]]

/-- Both hooks are called with its session. -/
theorem server_hooks_servedConnection : ∃ p, (machine compactJson).run
      { heartbeatInterval := 20000, server := { endpoints := List.replicate 1 {} } }
      servedConnection = some p ∧
    p.calls = [.connected 0, .disconnected 0] ∧ Hooks compactJson p := by
  have hrun : ((machine compactJson).run
      { heartbeatInterval := 20000, server := { endpoints := List.replicate 1 {} } }
      servedConnection).any (fun p => decide (p.calls = [.connected 0, .disconnected 0])) = true := by
    decide +kernel
  obtain ⟨p, hp, hend⟩ := Machine.exists_of_run hrun
  exact ⟨p, hp, of_decide_eq_true hend,
    server_hooks p (Machine.reachable_of_run ⟨1, 20000, rfl⟩ hp)⟩

end ServerSystem

end Vcmp
