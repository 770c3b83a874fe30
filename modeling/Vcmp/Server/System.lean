import Vcmp.Server.Closing
import Vcmp.Server.Shown
import Vcmp.Session.Initiated
import Vcmp.Session.Shutdown
/-!
# The server and its sessions

The server machine beside one session machine for every connection, and
what its hooks were called with. What the server's machine leaves open
about a session is taken from the session: it closes and finishes where
the session does, and where the server closes it the session is closed.
A session is spawned with a step of its own, and the heartbeat its task
initiates is one of the session's calls of `send_heartbeat`, which has
returned before the task goes on.

Each side of a run is a run of its own machine, so what `closed()`
guarantees of a session is what the server's hooks can rely on.
-/

namespace Vcmp

open Session

/-- A hook of an endpoint, called with a session. -/
inductive HookCall where
  | connected (c : ℕ)
  | disconnected (c : ℕ)
  deriving DecidableEq, Repr

def HookCall.session : HookCall → ℕ
  | .connected c | .disconnected c => c

/-- **The server and the sessions its connection tasks spawned.** -/
structure ServerSystem where
  /-- The heartbeat interval of the configuration, in milliseconds. -/
  heartbeatInterval : ℕ
  server : VcmpServer := {}
  sessions : List Session := []
  /-- The call of `initiate_heartbeat` that the task of a session has made. -/
  initiated : List (Option ℕ) := []
  /-- The hooks called, in order. -/
  calls : List HookCall := []

namespace ServerSystem

variable {J : JsonText}

/-- One step of one party. -/
inductive Event (J : JsonText) where
  /-- The server's, but for the spawning of a session. -/
  | server (e : VcmpServer.Event)
  /-- The task `k` spawns its session. -/
  | starts (k sessionId : ℕ) (limits : SessionLimits) (handlers : HandlerMap) (budget : ResourceBudget)
      (elsewhere : List Permit)
  /-- A session's, the application's use of it included. -/
  | session (c : ℕ) (e : Session.Event J)

/-- Where the task is that takes a step. -/
def placeOf (server : VcmpServer) : VcmpServer.Event → Option TaskPc
  | .task k _ => server.tasks[k]?.map ConnectionTask.pc
  | _ => none

/-- The steps the server takes on its own side. -/
def own (server : VcmpServer) (e : VcmpServer.Event) : Bool :=
  match e, placeOf server e with
  | .close _, _ | .finish _, _ => false
  | _, some (.starting _) => false
  | _, _ => true

/-- The hook that a step calls. -/
def called (server : VcmpServer) (e : VcmpServer.Event) : List HookCall :=
  match e, placeOf server e with
  | .task _ (.prepare true true), some (.preparing _ c) => [.connected c]
  | .task _ (.decide true), some (.deciding _ c) => [.disconnected c]
  | _, _ => []

/-- The sessions that the server has closed closed. -/
def closeAll (served : List ServedSession) (sessions : List Session) : List Session :=
  List.zipWith (fun x s => if x.isOpen then s else s.close) served sessions

/-- What the server sees of a session. -/
def observe (server : VcmpServer) (c : ℕ) (s : Session) : VcmpServer :=
  { server with sessions := server.sessions.modify c fun x =>
      { x with isOpen := s.isOpen, closed := s.closed } }

/-- `Session::initiate_heartbeat`, entered. -/
def initiateHeartbeat (s : Session) (millis : ℕ) : Session :=
  { s with beats := s.beats ++ [{ interval := min millis (u64Bound - 1) }] }

/-- Behind its insertion a task initiates the heartbeat of its session. -/
def initiates (p : ServerSystem) : Option TaskPc → ServerSystem
  | some (.inserting _ c) =>
    match p.sessions[c]? with
    | some s => { p with
        sessions := p.sessions.set c (initiateHeartbeat s p.heartbeatInterval)
        initiated := p.initiated.set c (some s.beats.length) }
    | none => p
  | _ => p

/-- Whether the heartbeat that the task of the session `c` initiated has returned. -/
def heartbeatDone (p : ServerSystem) (c : ℕ) : Bool :=
  match p.sessions[c]?, p.initiated[c]? with
  | some s, some (some b) => decide (s.beats[b]?.map Beat.pc = some .done)
  | _, _ => false

/-- A task goes on behind `initiate_heartbeat` when it has returned. -/
def ready (p : ServerSystem) (e : VcmpServer.Event) : Bool :=
  match placeOf p.server e with
  | some (.releasing _ c) | some (.preparing _ c) => p.heartbeatDone c
  | _ => true

section

variable (J)

/-- The step of one party. -/
def next (p : ServerSystem) : Event J → Option ServerSystem
  | .server e =>
    if own p.server e && p.ready e then
      (p.server.next e).map fun server => initiates
        { p with
          server := server, sessions := closeAll server.sessions p.sessions
          calls := p.calls ++ called p.server e }
        (placeOf p.server e)
    else none
  | .starts k sessionId limits handlers budget elsewhere =>
    match placeOf p.server (.task k .goes) with
    | some (.starting _) => (p.server.next (.task k .goes)).map fun server => { p with
        server := server
        sessions := p.sessions ++ [spawn sessionId limits handlers budget elsewhere]
        initiated := p.initiated ++ [none] }
    | _ => none
  | .session c e =>
    (p.sessions[c]?.bind fun s => s.next J e).map fun s =>
      { p with server := observe p.server c s, sessions := p.sessions.set c s }

/-- **The system machine**, from a server that was bound with some endpoints. -/
def machine : Machine ServerSystem (Event J) where
  init p := ∃ n interval, p = {
    heartbeatInterval := interval, server := { endpoints := List.replicate n {} } }
  next p e := p.next J e

end

end ServerSystem

/-! ## What the server does to a session -/

namespace VcmpServer

variable {s s' : VcmpServer} {k i c : ℕ} {e : Event}

/-- **A session stays**: it may close, and only its own end finishes it. -/
theorem session_forth (hn : machine.next s e = some s') (hne : ∀ d, e ≠ .finish d)
    {x : ServedSession} (hx : s.sessions[c]? = some x) :
    ∃ y, s'.sessions[c]? = some y ∧ Ages x y ∧ y.closed = x.closed := by
  have same : s'.sessions = s.sessions → ∃ y, s'.sessions[c]? = some y ∧ Ages x y ∧
      y.closed = x.closed := fun h => ⟨x, h ▸ hx, .refl x, rfl⟩
  have closes : ∀ d, s'.sessions = s.sessions.modify d (fun x => { x with isOpen := false }) →
      ∃ y, s'.sessions[c]? = some y ∧ Ages x y ∧ y.closed = x.closed := by
    intro d h
    rw [h, List.getElem?_modify, hx]
    by_cases hd : d = c
    · exact ⟨{ x with isOpen := false }, by simp [hd], ages_close x, rfl⟩
    · exact ⟨x, by simp [hd], .refl x, rfl⟩
  cases step_of_next hn with
  | accept hs => cases hs <;> exact same rfl
  | task ht hs =>
    cases hs with
    | spawned => exact ⟨x, getElem?_append_some hx, .refl x, rfl⟩
    | overloaded | cleaned => exact closes _ rfl
    | failed | released => exact same (by rw [dropPending_eq]; rfl)
    | hookEnds | notified | aborts | panics => exact same (by rw [leaveHook_eq]; rfl)
    | _ => exact same rfl
  | closing _ hs =>
    cases hs with
    | closes => exact closes _ rfl
    | _ => exact same rfl
  | stopGoes _ hs => cases hs <;> exact same rfl
  | stopDeadline _ hs => cases hs <;> exact same rfl
  | close => exact closes _ rfl
  | @finish d => exact absurd rfl (hne d)
  | _ => exact same rfl

end VcmpServer

namespace ServerSystem

variable {J : JsonText} {p q : ServerSystem} {c : ℕ} {e : Event J}

/-- A step of its own finishes and spawns no session. -/
theorem own_cases {server : VcmpServer} {e : VcmpServer.Event} (h : own server e = true) :
    (∀ c, e ≠ .close c) ∧ (∀ c, e ≠ .finish c) ∧
      ∀ k (t : ConnectionTask) i move, e = .task k move → server.tasks[k]? = some t →
        t.pc ≠ .starting i := by
  refine ⟨?_, ?_, ?_⟩
  · rintro c rfl
    cases h
  · rintro c rfl
    cases h
  · rintro k t i move rfl ht hpc
    simp [own, placeOf, ht, hpc] at h

/-- The server's step on its own side keeps the number of sessions. -/
theorem length_of_own {server server' : VcmpServer} {e : VcmpServer.Event}
    (hown : own server e = true) (hn : VcmpServer.machine.next server e = some server') :
    server'.sessions.length = server.sessions.length := by
  obtain ⟨-, hfinish, hstarts⟩ := own_cases hown
  refine Nat.le_antisymm ?_ (VcmpServer.length_sessions_le hn)
  by_contra hlt
  obtain ⟨y, hy⟩ : ∃ y, server'.sessions[server.sessions.length]? = some y :=
    ⟨_, List.getElem?_eq_getElem (by omega)⟩
  rcases VcmpServer.session_of_next hn hy with ⟨x, hx, -⟩ | ⟨-, k, i, rfl, -, t, ht, hpc⟩
  · have hin := (List.getElem?_eq_some_iff.mp hx).1
    omega
  · exact hstarts k t i .goes rfl ht hpc

/-! ## Both sides -/

/-- **A served session shows what its session is**, and its session is one a
session machine can be in. -/
structure Synced (J : JsonText) (p : ServerSystem) : Prop where
  length : p.sessions.length = p.server.sessions.length
  initiated : p.initiated.length = p.server.sessions.length
  session : ∀ s ∈ p.sessions, (Session.machine J).Reachable s
  shows : ∀ (c : ℕ) (x : ServedSession) (s : Session), p.server.sessions[c]? = some x →
    p.sessions[c]? = some s → x.isOpen = s.isOpen ∧ x.closed = s.closed

theorem Synced.get (h : Synced J p) {x : ServedSession} (hx : p.server.sessions[c]? = some x) :
    ∃ s, p.sessions[c]? = some s ∧ (Session.machine J).Reachable s ∧ x.isOpen = s.isOpen ∧
      x.closed = s.closed := by
  have hlt : c < p.sessions.length := h.length ▸ (List.getElem?_eq_some_iff.mp hx).1
  have hs := List.getElem?_eq_getElem hlt
  obtain ⟨hopen, hclosed⟩ := h.shows c x _ hx hs
  exact ⟨_, hs, h.session _ (List.getElem_mem hlt), hopen, hclosed⟩

theorem getElem?_closeAll {served : List ServedSession} {sessions : List Session} {s : Session}
    (h : (closeAll served sessions)[c]? = some s) : ∃ x r, served[c]? = some x ∧
      sessions[c]? = some r ∧ s = if x.isOpen then r else r.close := by
  rw [closeAll, List.getElem?_zipWith] at h
  split at h
  · exact ⟨_, _, ‹_›, ‹_›, (Option.some.inj h).symm⟩
  · cases h

/-- The server moves, and closes what it closes. -/
theorem Synced.closes (h : Synced J p) {server : VcmpServer} {e : VcmpServer.Event}
    (hown : own p.server e = true) (hn : VcmpServer.machine.next p.server e = some server)
    (calls : List HookCall) : Synced J { p with
      server := server, sessions := closeAll server.sessions p.sessions, calls := calls } where
  length := by
    have hlen := length_of_own hown hn
    have hold := h.length
    simp only [closeAll, List.length_zipWith]
    omega
  initiated := h.initiated.trans (length_of_own hown hn).symm
  session := by
    intro s hs
    obtain ⟨c, hc⟩ := List.getElem?_of_mem hs
    obtain ⟨x, r, -, hr, rfl⟩ := getElem?_closeAll hc
    have hreach := h.session r (List.mem_of_getElem? hr)
    split
    · exact hreach
    · exact hreach.step (e := .close) trivial rfl
  shows := by
    intro c y s hy hs
    obtain ⟨y', r, hy', hr, rfl⟩ := getElem?_closeAll hs
    obtain rfl := Option.some.inj (hy.symm.trans hy')
    have hlt : c < p.server.sessions.length := h.length ▸ (List.getElem?_eq_some_iff.mp hr).1
    have hx := List.getElem?_eq_getElem hlt
    obtain ⟨z, hz, hages, hsame⟩ := VcmpServer.session_forth hn (own_cases hown).2.1 hx
    obtain rfl := Option.some.inj (hy.symm.trans hz)
    obtain ⟨hopen, hclosed⟩ := h.shows c _ r hx hr
    split
    · rename_i hyo
      refine ⟨?_, hsame.trans hclosed⟩
      rw [hyo, ← hopen]
      by_contra hno
      rw [hages.shut (by simpa using Ne.symm hno)] at hyo
      cases hyo
    · rename_i hyo
      exact ⟨by simpa [Session.close] using hyo, hsame.trans hclosed⟩

/-- A task initiates the heartbeat of its session. -/
theorem Synced.initiates (h : Synced J p) (o : Option TaskPc) : Synced J (p.initiates o) := by
  unfold ServerSystem.initiates
  split
  · rename_i i c
    split
    · rename_i s hs
      refine ⟨by simpa using h.length, by simpa using h.initiated, fun r hr => ?_, fun d x r hx hr => ?_⟩
      · obtain ⟨d, hd⟩ := List.getElem?_of_mem hr
        rcases getElem?_set_cases hd with ⟨-, rfl⟩ | ⟨-, hd⟩
        · exact (h.session s (List.mem_of_getElem? hs)).step
            (e := .initiateHeartbeat p.heartbeatInterval) trivial rfl
        · exact h.session r (List.mem_of_getElem? hd)
      · rcases getElem?_set_cases hr with ⟨rfl, rfl⟩ | ⟨-, hr⟩
        · exact h.shows _ x s hx hs
        · exact h.shows d x r hx hr
    · exact h
  · exact h

@[simp] theorem initiates_server (o : Option TaskPc) : (p.initiates o).server = p.server := by
  unfold initiates
  split
  · split <;> rfl
  · rfl

@[simp] theorem initiates_calls (o : Option TaskPc) : (p.initiates o).calls = p.calls := by
  unfold initiates
  split
  · split <;> rfl
  · rfl

/-- **What a step of the system can do.** -/
inductive Step (J : JsonText) (p : ServerSystem) : ServerSystem → Prop
  | server {e : VcmpServer.Event} {server : VcmpServer} (hown : own p.server e = true)
      (hready : p.ready e = true) (hn : VcmpServer.machine.next p.server e = some server) :
      Step J p (initiates { p with
        server := server, sessions := closeAll server.sessions p.sessions
        calls := p.calls ++ called p.server e } (placeOf p.server e))
  | starts {k i : ℕ} {t : ConnectionTask} {server : VcmpServer} {s : Session}
      (ht : p.server.tasks[k]? = some t) (hpc : t.pc = .starting i)
      (hn : VcmpServer.machine.next p.server (.task k .goes) = some server)
      (hs : (Session.machine J).init s) :
      Step J p { p with
        server := server, sessions := p.sessions ++ [s], initiated := p.initiated ++ [none] }
  | session {c : ℕ} {s s' : Session} {e : Session.Event J} (hs : p.sessions[c]? = some s)
      (hn : (Session.machine J).next s e = some s') :
      Step J p { p with server := observe p.server c s', sessions := p.sessions.set c s' }

theorem step_of_next (hn : (machine J).next p e = some q) : Step J p q := by
  change p.next J e = some q at hn
  cases e with
  | server e =>
    simp only [next, Option.ite_none_right_eq_some, Option.map_eq_some_iff, Bool.and_eq_true] at hn
    obtain ⟨⟨hown, hready⟩, server, hserver, rfl⟩ := hn
    exact .server hown hready hserver
  | starts k sessionId limits handlers budget elsewhere =>
    simp only [next] at hn
    split at hn
    · rename_i i hplace
      obtain ⟨t, ht, hpc⟩ := Option.map_eq_some_iff.mp hplace
      obtain ⟨server, hserver, rfl⟩ := Option.map_eq_some_iff.mp hn
      exact .starts ht hpc hserver ⟨sessionId, limits, handlers, budget, elsewhere, rfl⟩
    · cases hn
  | session c e =>
    simp only [next, Option.map_eq_some_iff, Option.bind_eq_some_iff] at hn
    obtain ⟨s', ⟨s, hs, hstep⟩, rfl⟩ := hn
    exact .session hs hstep

/-- What the spawning of a session is to the server. -/
theorem server_of_starts {server server' : VcmpServer} {k i : ℕ} {t : ConnectionTask}
    (ht : server.tasks[k]? = some t) (hpc : t.pc = .starting i)
    (hn : VcmpServer.machine.next server (.task k .goes) = some server') :
    server' = { server.setTask k { t with pc := .inserting i server.sessions.length } with
      sessions := server.sessions ++ [{ endpoint := i, task := k }] } := by
  obtain ⟨u, hu, hstep⟩ := Option.bind_eq_some_iff.mp hn
  obtain rfl := Option.some.inj (ht.symm.trans hu)
  simp only [VcmpServer.taskNext, hpc, Option.some.injEq] at hstep
  exact hstep.symm

theorem Synced.step (h : Synced J p) (hs : Step J p q) : Synced J q := by
  cases hs with
  | server hown _ hn => exact (h.closes hown hn _).initiates _
  | starts ht hpc hn hinit =>
    obtain rfl := server_of_starts ht hpc hn
    have hlen := h.length
    refine ⟨by simp [hlen], by simp [h.initiated], fun r hr => ?_, fun c x r hx hr => ?_⟩
    · rcases List.mem_append.mp hr with hr | hr
      · exact h.session r hr
      · obtain rfl := List.mem_singleton.mp hr
        exact .of_init hinit
    · rcases getElem?_concat_cases hx with ⟨hc, rfl⟩ | hold <;>
        rcases getElem?_concat_cases hr with ⟨hc', rfl⟩ | hold'
      · obtain ⟨id, limits, handlers, budget, elsewhere, rfl⟩ := hinit
        exact ⟨rfl, rfl⟩
      · have hlt := (List.getElem?_eq_some_iff.mp hold').1
        omega
      · have hlt := (List.getElem?_eq_some_iff.mp hold).1
        omega
      · exact h.shows c x r hold hold'
  | session hs hn =>
    refine ⟨by simpa [observe] using h.length, by simpa [observe] using h.initiated, fun r hr => ?_,
      fun c x r hx hr => ?_⟩
    · obtain ⟨c, hc⟩ := List.getElem?_of_mem hr
      rcases getElem?_set_cases hc with ⟨-, rfl⟩ | ⟨-, hc⟩
      · exact (h.session _ (List.mem_of_getElem? hs)).step trivial hn
      · exact h.session r (List.mem_of_getElem? hc)
    · obtain ⟨y, hy, rfl⟩ := getElem?_modify_cases hx
      rcases getElem?_set_cases hr with ⟨rfl, rfl⟩ | ⟨hne, hr⟩
      · rw [if_pos rfl]
        exact ⟨rfl, rfl⟩
      · rw [if_neg (Ne.symm hne)]
        exact h.shows c y r hy hr

theorem synced_of_reachable (h : (machine J).Reachable p) : Synced J p := by
  have hinit : ∀ p, (machine J).init p → Synced J p := by
    rintro p ⟨n, interval, rfl⟩
    exact ⟨rfl, rfl, by simp, by simp⟩
  exact h.invariant hinit fun p e q _ hn hp => hp.step (step_of_next hn)

/-! ## The server's side -/

/-- **What a session does is a run of the server's machine**: nothing, a
close, or a close and the end. -/
theorem path_observe {server : VcmpServer} {x : ServedSession} {s' : Session}
    (hx : server.sessions[c]? = some x) (hopen : x.isOpen = false → s'.isOpen = false)
    (hclosed : x.closed = true → s'.closed = true) (hshut : s'.closed = true → s'.isOpen = false) :
    VcmpServer.machine.Path Machine.free server (observe server c s') := by
  have hset : ∀ g : ServedSession → ServedSession,
      server.sessions.modify c g = server.sessions.set c (g x) := fun g => modify_eq_set hx
  have hclose : VcmpServer.machine.next server (.close c) = some (server.closeSession c) := rfl
  cases hs' : s'.isOpen with
  | false =>
    cases hd : s'.closed with
    | false =>
      have hxd : x.closed = false := by
        by_contra hne
        rw [hclosed (by simpa using hne)] at hd
        cases hd
      have heq : observe server c s' = server.closeSession c := by
        simp [observe, VcmpServer.closeSession, hset, hs', hd, ← hxd]
      rw [heq]
      exact .single trivial hclose
    | true =>
      have hat : (server.closeSession c).sessions[c]? = some { x with isOpen := false } := by
        rw [VcmpServer.closeSession, hset]
        exact getElem?_set_self' hx
      have hfinish : VcmpServer.machine.next (server.closeSession c) (.finish c) =
          some (observe server c s') := by
        have hmodify := modify_eq_set (g := fun x : ServedSession => { x with closed := true }) hat
        simp only [VcmpServer.machine, VcmpServer.next, hat, Option.map_some, if_true, hmodify]
        simp [VcmpServer.closeSession, observe, hset, hs', hd]
      exact (Machine.Path.single trivial hclose).trans (.single trivial hfinish)
  | true =>
    have hd : s'.closed = false := by
      by_contra hne
      rw [hshut (by simpa using hne)] at hs'
      cases hs'
    have hxo : x.isOpen = true := by
      by_contra hne
      rw [hopen (by simpa using hne)] at hs'
      cases hs'
    have hxd : x.closed = false := by
      by_contra hne
      rw [hclosed (by simpa using hne)] at hd
      cases hd
    have heq : observe server c s' = server := by
      have hself : ({ x with isOpen := true, closed := false } : ServedSession) = x := by
        rw [← hxo, ← hxd]
      have hsame : server.sessions.set c x = server.sessions := by
        obtain ⟨hlt, heq⟩ := List.getElem?_eq_some_iff.mp hx
        rw [← heq]
        exact List.set_getElem_self hlt
      simp only [observe, hset, hs', hd, hself, hsame]
    rw [heq]
    exact .refl _

/-- What a step of a session does to its flags. -/
theorem flags_step {s s' : Session} {e : Session.Event J} (h : (Session.machine J).Reachable s)
    (hn : (Session.machine J).next s e = some s') : (s.isOpen = false → s'.isOpen = false) ∧
      (s.closed = true → s'.closed = true) ∧ (s'.closed = true → s'.isOpen = false) := by
  refine ⟨fun hno => notOpen_of_path (.single trivial hn) hno,
    fun hclosed => closed_of_path (.single trivial hn) hclosed, fun hclosed => ?_⟩
  exact (released_of_closed (h.step trivial hn) hclosed).notOpen

/-- **Every step is a run of the server's machine.** -/
theorem Step.path (h : Step J p q) (hsync : Synced J p) :
    VcmpServer.machine.Path Machine.free p.server q.server := by
  cases h with
  | @server e server _ _ hn =>
    rw [initiates_server]
    exact .single (e := e) trivial hn
  | @starts k _ _ _ _ _ _ hn => exact .single (e := .task k .goes) trivial hn
  | session hs hn =>
    have hlt := hsync.length ▸ (List.getElem?_eq_some_iff.mp hs).1
    have hx := List.getElem?_eq_getElem hlt
    obtain ⟨hopen, hclosed⟩ := hsync.shows _ _ _ hx hs
    obtain ⟨hno, hstays, hshut⟩ := flags_step (hsync.session _ (List.mem_of_getElem? hs)) hn
    exact path_observe hx (hopen ▸ hno) (hclosed ▸ hstays) hshut

theorem server_of_reachable (h : (machine J).Reachable p) : VcmpServer.machine.Reachable p.server := by
  refine h.project (f := server) ?_ fun _ _ _ hp _ hn => (step_of_next hn).path (synced_of_reachable hp)
  rintro p ⟨n, interval, rfl⟩
  exact ⟨n, rfl⟩

end ServerSystem

end Vcmp
