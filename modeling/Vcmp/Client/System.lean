import Vcmp.Client.Hooks
import Vcmp.Session.Shutdown
/-!
# The client and its sessions

The client machine beside one session machine for every connection. What
the client's machine leaves open about a connection is taken from its
session: it closes and finishes where the session does, and where the
client closes it the session is closed.

Each side of a run is a run of its own machine, so what `closed()`
guarantees of a session is what the client's hooks can rely on.
-/

namespace Vcmp

open Session

/-- **The client and the sessions its run tasks spawned.** -/
structure ClientSystem where
  client : VcmpClient := {}
  sessions : List Session := []

namespace ClientSystem

variable {J : JsonText}

/-- One step of one party. -/
inductive Event (J : JsonText) where
  /-- The client's, but for the connecting of a run task. -/
  | client (e : VcmpClient.Event)
  /-- The run task `k` connects, with what its session is spawned with. -/
  | connects (k sessionId : ℕ) (limits : SessionLimits) (handlers : HandlerMap) (budget : ResourceBudget)
      (elsewhere : List Permit)
  /-- A session's, the application's use of it included. -/
  | session (c : ℕ) (e : Session.Event J)

/-- The steps the client takes on its own side. -/
def own : VcmpClient.Event → Bool
  | .close _ | .finish _ | .run _ .connects => false
  | _ => true

/-- The sessions of the closed connections closed. -/
def closeAll (connections : List Connection) (sessions : List Session) : List Session :=
  List.zipWith (fun x s => if x.isOpen then s else s.close) connections sessions

/-- What the client sees of a session. -/
def observe (client : VcmpClient) (c : ℕ) (s : Session) : VcmpClient :=
  { client with sessions := client.sessions.modify c fun x =>
      { x with isOpen := s.isOpen, closed := s.closed } }

section

variable (J)

/-- The step of one party. -/
def next (p : ClientSystem) : Event J → Option ClientSystem
  | .client e =>
    if own e then
      (p.client.next e).map fun client => ⟨client, closeAll client.sessions p.sessions⟩
    else none
  | .connects k sessionId limits handlers budget elsewhere =>
    (p.client.next (.run k .connects)).map fun client =>
      ⟨client, p.sessions ++ [spawn sessionId limits handlers budget elsewhere]⟩
  | .session c e =>
    (p.sessions[c]?.bind fun s => s.next J e).map fun s =>
      ⟨observe p.client c s, p.sessions.set c s⟩

/-- **The system machine**, from a client that was never started. -/
def machine : Machine ClientSystem (Event J) where
  init p := p = {}
  next p e := p.next J e

end

variable {p q : ClientSystem} {c : ℕ} {e : Event J}

/-! ## Both sides -/

/-- **A connection shows what its session is**, and its session is one a
session machine can be in. -/
structure Synced (J : JsonText) (p : ClientSystem) : Prop where
  length : p.sessions.length = p.client.sessions.length
  session : ∀ s ∈ p.sessions, (Session.machine J).Reachable s
  shows : ∀ (c : ℕ) (x : Connection) (s : Session), p.client.sessions[c]? = some x →
    p.sessions[c]? = some s → x.isOpen = s.isOpen ∧ x.closed = s.closed

theorem Synced.get (h : Synced J p) {x : Connection} (hx : p.client.sessions[c]? = some x) :
    ∃ s, p.sessions[c]? = some s ∧ (Session.machine J).Reachable s ∧ x.isOpen = s.isOpen ∧
      x.closed = s.closed := by
  have hlt : c < p.sessions.length := h.length ▸ (List.getElem?_eq_some_iff.mp hx).1
  have hs := List.getElem?_eq_getElem hlt
  obtain ⟨hopen, hclosed⟩ := h.shows c x _ hx hs
  exact ⟨_, hs, h.session _ (List.getElem_mem hlt), hopen, hclosed⟩

/-- What a step of a session does to its flags. -/
theorem flags_step {s s' : Session} {e : Session.Event J} (h : (Session.machine J).Reachable s)
    (hn : (Session.machine J).next s e = some s') : (s.isOpen = false → s'.isOpen = false) ∧
      (s.closed = true → s'.closed = true) ∧ (s'.closed = true → s'.isOpen = false) := by
  refine ⟨fun hno => notOpen_of_path (.single trivial hn) hno,
    fun hclosed => closed_of_path (.single trivial hn) hclosed, fun hclosed => ?_⟩
  exact (released_of_closed (h.step trivial hn) hclosed).notOpen

theorem getElem?_closeAll {connections : List Connection} {sessions : List Session} {s : Session}
    (h : (closeAll connections sessions)[c]? = some s) : ∃ x r, connections[c]? = some x ∧
      sessions[c]? = some r ∧ s = if x.isOpen then r else r.close := by
  rw [closeAll, List.getElem?_zipWith] at h
  split at h
  · exact ⟨_, _, ‹_›, ‹_›, (Option.some.inj h).symm⟩
  · cases h

theorem Synced.client (h : Synced J p) {client : VcmpClient} {e : VcmpClient.Event}
    (hown : own e = true) (hn : VcmpClient.machine.next p.client e = some client) :
    Synced J ⟨client, closeAll client.sessions p.sessions⟩ where
  length := by
    have hlen : client.sessions.length = p.client.sessions.length := by
      rcases VcmpClient.length_sessions hn with hlen | ⟨k, rfl⟩
      · exact hlen
      · cases hown
    have hold := h.length
    simp only [closeAll, List.length_zipWith]
    omega
  session := by
    intro s hs
    obtain ⟨c, hc⟩ := List.getElem?_of_mem hs
    obtain ⟨x, r, -, hr, rfl⟩ := getElem?_closeAll hc
    have hreach := h.session r (List.mem_of_getElem? hr)
    split
    · exact hreach
    · exact hreach.step (e := .close) trivial rfl
  shows := by
    intro c y s hy hs
    obtain ⟨y', r, hy', hr, rfl⟩ := getElem?_closeAll hs
    obtain rfl := Option.some.inj (hy.symm.trans hy')
    have hlt : c < p.client.sessions.length := h.length ▸ (List.getElem?_eq_some_iff.mp hr).1
    have hx := List.getElem?_eq_getElem hlt
    obtain ⟨z, hz, haged⟩ := VcmpClient.connection_step hn hx
    obtain rfl := Option.some.inj (hy.symm.trans hz)
    obtain ⟨hopen, hclosed⟩ := h.shows c _ r hx hr
    have hsame : y.closed = r.closed := by
      rcases haged.closed with heq | heq
      · exact heq.trans hclosed
      · rw [heq] at hown
        cases hown
    split
    · rename_i hyo
      exact ⟨by rw [hyo, ← hopen, haged.isOpen hyo], hsame⟩
    · rename_i hyo
      exact ⟨by simpa [Session.close] using hyo, hsame⟩

theorem Synced.step (h : Synced J p) (hn : (machine J).next p e = some q) : Synced J q := by
  change p.next J e = some q at hn
  cases e with
  | client e =>
    simp only [next, Option.ite_none_right_eq_some, Option.map_eq_some_iff] at hn
    obtain ⟨hown, client, hclient, rfl⟩ := hn
    exact h.client hown hclient
  | connects k sessionId limits handlers budget elsewhere =>
    simp only [next, Option.map_eq_some_iff] at hn
    obtain ⟨client, hclient, rfl⟩ := hn
    obtain ⟨t, ht, hrun⟩ := Option.bind_eq_some_iff.mp hclient
    cases VcmpClient.runStep_of_next hrun with
    | connects hpc =>
      have hlen := h.length
      refine ⟨by simp [hlen], fun s hs => ?_, fun c x s hx hs => ?_⟩
      · rcases List.mem_append.mp hs with hs | hs
        · exact h.session s hs
        · obtain rfl := List.mem_singleton.mp hs
          exact .of_init ⟨sessionId, limits, handlers, budget, elsewhere, rfl⟩
      · rcases getElem?_concat_cases hx with ⟨hc, rfl⟩ | hx <;>
          rcases getElem?_concat_cases hs with ⟨hc', rfl⟩ | hs
        · exact ⟨rfl, rfl⟩
        · have hlt := (List.getElem?_eq_some_iff.mp hs).1
          omega
        · have hlt := (List.getElem?_eq_some_iff.mp hx).1
          omega
        · exact h.shows c x s hx hs
  | session d e =>
    simp only [next, Option.map_eq_some_iff, Option.bind_eq_some_iff] at hn
    obtain ⟨s', ⟨s, hs, hstep⟩, rfl⟩ := hn
    refine ⟨by simpa [observe] using h.length, fun r hr => ?_, fun c x r hx hr => ?_⟩
    · obtain ⟨c, hc⟩ := List.getElem?_of_mem hr
      rcases getElem?_set_cases hc with ⟨-, rfl⟩ | ⟨-, hc⟩
      · exact (h.session s (List.mem_of_getElem? hs)).step trivial hstep
      · exact h.session r (List.mem_of_getElem? hc)
    · obtain ⟨y, hy, rfl⟩ := getElem?_modify_cases hx
      rcases getElem?_set_cases hr with ⟨rfl, rfl⟩ | ⟨hne, hr⟩
      · rw [if_pos rfl]
        exact ⟨rfl, rfl⟩
      · rw [if_neg (Ne.symm hne)]
        exact h.shows c y r hy hr

theorem synced_of_reachable (h : (machine J).Reachable p) : Synced J p := by
  have hinit : ∀ p, (machine J).init p → Synced J p := by
    rintro p rfl
    exact ⟨rfl, by simp, by simp⟩
  exact h.invariant hinit fun p e q _ hn hp => hp.step hn

/-- **What a session does is a run of the client's machine**: nothing, a
close, or a close and the end. -/
theorem path_observe {client : VcmpClient} {x : Connection} {s' : Session}
    (hx : client.sessions[c]? = some x) (hopen : x.isOpen = false → s'.isOpen = false)
    (hclosed : x.closed = true → s'.closed = true) (hshut : s'.closed = true → s'.isOpen = false) :
    VcmpClient.machine.Path Machine.free client (observe client c s') := by
  have hset : ∀ g : Connection → Connection, client.sessions.modify c g = client.sessions.set c (g x) :=
    fun g => modify_eq_set hx
  rcases hs' : s'.isOpen with - | -
  · have hclose : VcmpClient.machine.next client (.close c) = some (client.closeSession c) := rfl
    rcases hd : s'.closed with - | -
    · have hxd : x.closed = false := by
        by_contra hne
        rw [hclosed (by simpa using hne)] at hd
        cases hd
      have heq : observe client c s' = client.closeSession c := by
        simp [observe, VcmpClient.closeSession, hset, hs', hd, ← hxd]
      rw [heq]
      exact .single trivial hclose
    · have hat : (client.closeSession c).sessions[c]? = some { x with isOpen := false } := by
        rw [VcmpClient.closeSession, hset]
        exact getElem?_set_self' hx
      have hfinish : VcmpClient.machine.next (client.closeSession c) (.finish c) =
          some (observe client c s') := by
        have hmodify := modify_eq_set (g := fun x : Connection => { x with closed := true }) hat
        simp only [VcmpClient.machine, VcmpClient.next, hat, Option.map_some, if_true, hmodify]
        simp [VcmpClient.closeSession, observe, hset, hs', hd]
      exact (Machine.Path.single trivial hclose).trans (.single trivial hfinish)
  · have hd : s'.closed = false := by
      by_contra hne
      rw [hshut (by simpa using hne)] at hs'
      cases hs'
    have hxo : x.isOpen = true := by
      by_contra hne
      rw [hopen (by simpa using hne)] at hs'
      cases hs'
    have hxd : x.closed = false := by
      by_contra hne
      rw [hclosed (by simpa using hne)] at hd
      cases hd
    have heq : observe client c s' = client := by
      have hself : ({ x with isOpen := true, closed := false } : Connection) = x := by
        rw [← hxo, ← hxd]
      have hsame : client.sessions.set c x = client.sessions := by
        obtain ⟨hlt, heq⟩ := List.getElem?_eq_some_iff.mp hx
        rw [← heq]
        exact List.set_getElem_self hlt
      simp only [observe, hset, hs', hd, hself, hsame]
    rw [heq]
    exact .refl _

/-- **Every step is a run of the client's machine.** -/
theorem path_client (h : (machine J).Reachable p) (hn : (machine J).next p e = some q) :
    VcmpClient.machine.Path Machine.free p.client q.client := by
  have hsync := synced_of_reachable h
  change p.next J e = some q at hn
  cases e with
  | client e =>
    simp only [next, Option.ite_none_right_eq_some, Option.map_eq_some_iff] at hn
    obtain ⟨-, client, hclient, rfl⟩ := hn
    exact .single (e := e) trivial hclient
  | connects k sessionId limits handlers budget elsewhere =>
    simp only [next, Option.map_eq_some_iff] at hn
    obtain ⟨client, hclient, rfl⟩ := hn
    exact .single (e := .run k .connects) trivial hclient
  | session c e =>
    simp only [next, Option.map_eq_some_iff, Option.bind_eq_some_iff] at hn
    obtain ⟨s', ⟨s, hs, hstep⟩, rfl⟩ := hn
    have hlt : c < p.client.sessions.length := hsync.length ▸ (List.getElem?_eq_some_iff.mp hs).1
    have hx := List.getElem?_eq_getElem hlt
    obtain ⟨hopen, hclosed⟩ := hsync.shows c _ s hx hs
    obtain ⟨hno, hstays, hshut⟩ := flags_step (hsync.session s (List.mem_of_getElem? hs)) hstep
    exact path_observe hx (hopen ▸ hno) (hclosed ▸ hstays) hshut

theorem client_of_reachable (h : (machine J).Reachable p) :
    VcmpClient.machine.Reachable p.client := by
  have hinit : ∀ p, (machine J).init p → VcmpClient.machine.init p.client := by
    rintro p rfl
    rfl
  exact h.project (f := client) hinit fun _ _ _ hp _ hn => path_client hp hn

theorem client_of_path (h : (machine J).Reachable p) (hp : (machine J).Path Machine.free p q) :
    VcmpClient.machine.Path Machine.free p.client q.client :=
  hp.project (f := client) (fun _ _ _ hp _ hn => path_client hp hn) h

/-! ## The hooks -/

/-- **When `on_disconnected` may be called with a session.** -/
structure MayNotify (J : JsonText) (p : ClientSystem) (c : ℕ) (x : Connection) : Prop where
  installed : x.installed = true
  /-- It is no longer the client's session. -/
  left : p.client.session ≠ some c
  /-- It has fully closed, and its pending sends are settled. -/
  closed : ∃ s, p.sessions[c]? = some s ∧ s.closed = true ∧ Released J s
  /-- No `on_connected` future of it is there, or can come. -/
  hooked : ∀ (k : ℕ) (t : RunTask), p.client.tasks[k]? = some t →
    t.pc ≠ .preparing c ∧ t.pc ≠ .hooking c

/-- **What holds of the hooks in a state.** -/
structure Hooks (J : JsonText) (p : ClientSystem) : Prop where
  /-- `on_disconnected` is called at most once, -/
  once : ∀ (c : ℕ) (x : Connection), p.client.sessions[c]? = some x → x.notified ≤ 1
  /-- and is called where it may be, -/
  called : ∀ (e : Event J) (q : ClientSystem), (machine J).next p e = some q →
    ∀ (c : ℕ) (x y : Connection), p.client.sessions[c]? = some x → q.client.sessions[c]? = some y →
      y.notified ≠ x.notified → x.notified = 0 ∧ y.notified = 1 ∧ MayNotify J p c x
  /-- which stays so. -/
  after : ∀ (c : ℕ) (x : Connection), p.client.sessions[c]? = some x → x.notified = 1 →
    MayNotify J p c x
  /-- What a `start` finds open, or finds to be the session, it is never told of. -/
  replaced : ∀ (sec : LockSection) (c : ℕ) (x : Connection), p.client.lock = some sec →
    sec.replacing = true → p.client.sessions[c]? = some x →
    x.isOpen = true ∨ p.client.session = some c →
    ∀ q, (machine J).Path Machine.free p q → ∀ y, q.client.sessions[c]? = some y → y.notified = 0

/-- A connection that is closed for its task may be told of. -/
theorem mayNotify_of_closed (h : (machine J).Reachable p) {x : Connection}
    (hx : p.client.sessions[c]? = some x) (hi : x.installed = true) (hclosed : x.closed = true)
    (hleft : p.client.session ≠ some c)
    (hlate : ∀ (k : ℕ) (t : RunTask), p.client.tasks[k]? = some t → t.pc.guarded = some c →
      5 ≤ t.pc.stage) : MayNotify J p c x := by
  obtain ⟨s, hs, hreach, -, hsame⟩ := (synced_of_reachable h).get hx
  have hsc : s.closed = true := hsame ▸ hclosed
  refine ⟨hi, hleft, ⟨s, hs, hsc, released_of_closed hreach hsc⟩, ?_⟩
  intro k t ht
  constructor <;> intro hpc <;>
  · have hstage := hlate k t ht (by rw [hpc]; rfl)
    rw [hpc] at hstage
    simp [RunPc.stage] at hstage

/-- A step of the system is one of the client's, or shows it a session. -/
theorem client_step (hn : (machine J).next p e = some q) :
    (∃ e, VcmpClient.machine.next p.client e = some q.client) ∨
      ∃ c s, q.client = observe p.client c s := by
  change p.next J e = some q at hn
  cases e with
  | client e =>
    simp only [next, Option.ite_none_right_eq_some, Option.map_eq_some_iff] at hn
    obtain ⟨-, client, hclient, rfl⟩ := hn
    exact .inl ⟨e, hclient⟩
  | connects k =>
    simp only [next, Option.map_eq_some_iff] at hn
    obtain ⟨client, hclient, rfl⟩ := hn
    exact .inl ⟨.run k .connects, hclient⟩
  | session c e =>
    simp only [next, Option.map_eq_some_iff] at hn
    obtain ⟨s, -, rfl⟩ := hn
    exact .inr ⟨c, s, rfl⟩

/-- **A task that calls the hook may.** -/
theorem called_of_step (h : (machine J).Reachable p) (hn : (machine J).next p e = some q)
    {x y : Connection} (hx : p.client.sessions[c]? = some x) (hy : q.client.sessions[c]? = some y)
    (hne : y.notified ≠ x.notified) : x.notified = 0 ∧ y.notified = 1 ∧ MayNotify J p c x := by
  have hreach := client_of_reachable h
  have hinv := VcmpClient.inv_of_reachable hreach
  rcases client_step hn with ⟨e, hclient⟩ | ⟨d, s, hshown⟩
  · obtain ⟨z, hz, haged⟩ := VcmpClient.connection_step hclient hx
    obtain rfl := Option.some.inj (hy.symm.trans hz)
    obtain ⟨hcount, k, t, ht, hpc⟩ := haged.notified.resolve_left hne
    have hg : t.pc.guarded = some c := by rw [hpc]; rfl
    have hstage : t.pc.stage = 6 := by rw [hpc]; rfl
    obtain ⟨hk, hlife⟩ := (VcmpClient.lives_of_reachable hreach).calling hinv ht hg hx
    have hfresh : x.notified = 0 := hlife.fresh hg (by omega)
    have hi : x.installed = true := (hlife.installed hg).mpr (by omega)
    have hclosed : x.closed = true := hlife.closed hg (by omega)
    have hleft : p.client.session ≠ some c := hlife.left hg (by omega)
    refine ⟨hfresh, by omega, mayNotify_of_closed h hx hi hclosed hleft ?_⟩
    -- the only task that guards it is the one that calls
    intro j u hu hguard
    obtain ⟨z, hz, hgen⟩ := hinv.guarded j u c hu hguard
    obtain rfl := Option.some.inj (hx.symm.trans hz)
    obtain rfl : j = k := by omega
    obtain rfl := Option.some.inj (ht.symm.trans hu)
    omega
  · rw [hshown] at hy
    obtain ⟨z, hz, rfl⟩ := getElem?_modify_cases hy
    obtain rfl := Option.some.inj (hx.symm.trans hz)
    refine absurd ?_ hne
    split <;> rfl

/-- **The hooks of the client**, in every state its runs reach. -/
theorem hooks_of_reachable (p : ClientSystem) (h : (machine J).Reachable p) : Hooks J p where
  once := by
    intro c x hx
    obtain ⟨k, t, -, -, hlife⟩ := VcmpClient.lives_of_reachable (client_of_reachable h) c x hx
    exact hlife.once
  called _ _ hn _ _ _ hx hy hne := called_of_step h hn hx hy hne
  after := by
    intro c x hx hone
    have hreach := client_of_reachable h
    have hinv := VcmpClient.inv_of_reachable hreach
    obtain ⟨k, t, hk, ht, hlife⟩ := VcmpClient.lives_of_reachable hreach c x hx
    obtain ⟨hi, hclosed, hleft⟩ := hlife.after (by omega)
    refine mayNotify_of_closed h hx hi hclosed hleft fun j u hu hguard => ?_
    obtain ⟨y, hy, hgen⟩ := hinv.guarded j u c hu hguard
    obtain rfl := Option.some.inj (hx.symm.trans hy)
    obtain rfl : j = k := by omega
    obtain rfl := Option.some.inj (ht.symm.trans hu)
    by_contra hearly
    have hfresh := hlife.fresh hguard (by omega)
    omega
  replaced := by
    intro sec c x hlock hsec hx hfound q hp y hy
    have hreach := client_of_reachable h
    have hr := VcmpClient.replaced_of_replacing hreach hlock hsec hx hfound
    obtain ⟨z, hz⟩ := VcmpClient.replaced_of_path hreach (client_of_path h hp) ⟨x, hr⟩
    obtain rfl := Option.some.inj (hy.symm.trans hz.here)
    exact hz.silent

/-- A client that connects and is stopped, while its session closes. -/
def stoppedRun : List (Event compactJson) := List.flatten [
  .client .start :: List.replicate 4 (.client .lockSection),
  [.connects 0 1 smallLimits .empty (.new smallLimits.resources) [], .client (.run 0 .setSession),
    .client (.run 0 (.prepare true true)), .client (.run 0 .hookEnds), .client (.stop true)],
  List.replicate 3 (.client .lockSection), List.replicate 4 (.session 0 .drive),
  [.session 0 (.writer .steps), .session 0 (.writer .ends)], List.replicate 6 (.session 0 .drive),
  [.client (.run 0 .stopSeen), .client (.run 0 .closedSeen), .client (.run 0 .setSession),
    .client (.run 0 .decide), .client (.run 0 (.call true))]]

/-- Its `on_disconnected` hook is called. -/
theorem hooks_of_reachable_stoppedRun : ∃ p,
    (machine compactJson).run {} stoppedRun = some p ∧
      (p.client.sessions[0]?.map Connection.notified) = some 1 ∧ Hooks compactJson p := by
  have hrun : ((machine compactJson).run {} stoppedRun).any
      (fun p => decide ((p.client.sessions[0]?.map Connection.notified) = some 1)) = true := by
    decide +kernel
  obtain ⟨p, hp, hend⟩ := Machine.exists_of_run hrun
  exact ⟨p, hp, of_decide_eq_true hend, hooks_of_reachable p (Machine.reachable_of_run rfl hp)⟩

end ClientSystem

end Vcmp
