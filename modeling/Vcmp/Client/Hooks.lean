import Vcmp.Client.Generations
/-!
# The hooks of the client

The life of a connection, seen from the run task that spawned it: the
session is installed before the task can call `on_connected`, it has
closed before the task goes on to clear it, and only a task that has
cleared it calls `on_disconnected`, and does so once.

Whether it does is read from the stop value, which a starting client sets
before it takes the session away. A task that was told to stop is never
told again, so the value it reads is the one `start` has left.
-/

namespace Vcmp

/-- How far a run task is with the session it guards. -/
def RunPc.stage : RunPc → ℕ
  | .installing _ => 0
  | .preparing _ => 1
  | .hooking _ => 2
  | .serving _ | .closing _ => 3
  | .clearing _ => 4
  | .deciding _ => 5
  | .calling _ => 6
  | .notifying _ => 7
  | .connecting | .checking | .waiting | .ended => 8

/-- The sections of a `start` that has not taken the session yet. -/
def LockSection.replacing : LockSection → Bool
  | .startSignal | .startClose => true
  | _ => false

/-- The sections of a `start`. -/
def LockSection.starting : LockSection → Bool
  | .startSignal | .startClose | .startAbort | .startSpawn => true
  | _ => false

namespace VcmpClient

/-- **A connection and the task that spawned it**, while the client's
session is `session`. -/
structure Life (session : Option ℕ) (pc : RunPc) (c : ℕ) (x : Connection) : Prop where
  shut : x.closed = true → x.isOpen = false
  installed : pc.guarded = some c → (x.installed = true ↔ 1 ≤ pc.stage)
  closed : pc.guarded = some c → 4 ≤ pc.stage → x.closed = true
  /-- Behind `set_session(generation, None)` it is not the client's. -/
  left : pc.guarded = some c → 5 ≤ pc.stage → session ≠ some c
  fresh : pc.guarded = some c → pc.stage ≤ 6 → x.notified = 0
  once : x.notified ≤ 1
  after : 1 ≤ x.notified → x.installed = true ∧ x.closed = true ∧ session ≠ some c
  /-- An open session that was installed is the client's still. -/
  current : x.installed = true → x.isOpen = true → session = some c
  place : session = some c → x.installed = true ∧ (pc = .ended ∨ pc.guarded = some c)

/-- The lives of all connections. -/
def Lives (s : VcmpClient) : Prop :=
  ∀ (c : ℕ) (x : Connection), s.sessions[c]? = some x → ∃ (k : ℕ) (t : RunTask),
    x.generation = k + 1 ∧ s.tasks[k]? = some t ∧ Life s.session t.pc c x

/-! ## One connection -/

section Life

variable {session session' : Option ℕ} {pc pc' : RunPc} {c : ℕ} {x : Connection}

theorem Life.close (h : Life session pc c x) : Life session pc c { x with isOpen := false } where
  shut _ := rfl
  installed := h.installed
  closed := h.closed
  left := h.left
  fresh := h.fresh
  once := h.once
  after := h.after
  current _ hopen := by cases hopen
  place := h.place

theorem Life.finish (h : Life session pc c x) (hshut : x.isOpen = false) :
    Life session pc c { x with closed := true } where
  shut _ := hshut
  installed := h.installed
  closed _ _ := rfl
  left := h.left
  fresh := h.fresh
  once := h.once
  after hn := ⟨(h.after hn).1, rfl, (h.after hn).2.2⟩
  current := h.current
  place := h.place

/-- What becomes of the client's session matters where it is this one. -/
theorem Life.congr (h : Life session pc c x) (hiff : session' = some c ↔ session = some c) :
    Life session' pc c x where
  shut := h.shut
  installed := h.installed
  closed := h.closed
  left hg hstage := fun hs => h.left hg hstage (hiff.mp hs)
  fresh := h.fresh
  once := h.once
  after hn := ⟨(h.after hn).1, (h.after hn).2.1, fun hs => (h.after hn).2.2 (hiff.mp hs)⟩
  current hi ho := hiff.mpr (h.current hi ho)
  place hs := h.place (hiff.mp hs)

/-- A connection its task does not guard takes no part in what that does. -/
theorem Life.other (h : Life session pc c x) (hend : pc = .ended → pc' = .ended)
    (hg : pc.guarded ≠ some c) (hg' : pc'.guarded ≠ some c) : Life session pc' c x where
  shut := h.shut
  installed hs := absurd hs hg'
  closed hs := absurd hs hg'
  left hs := absurd hs hg'
  fresh hs := absurd hs hg'
  once := h.once
  after := h.after
  current := h.current
  place hs := ⟨(h.place hs).1, .inl (hend ((h.place hs).2.resolve_right hg))⟩

/-- A task goes on with its session between its installing and its clearing. -/
theorem Life.moves (h : Life session pc c x) (hg : pc.guarded = some c)
    (hg' : pc'.guarded = some c) (hfrom : 1 ≤ pc.stage ∧ pc.stage ≤ 4)
    (hto : 1 ≤ pc'.stage ∧ pc'.stage ≤ 4) (hclosed : 4 ≤ pc'.stage → x.closed = true) :
    Life session pc' c x where
  shut := h.shut
  installed _ := ⟨fun _ => hto.1, fun _ => (h.installed hg).mpr hfrom.1⟩
  closed _ := hclosed
  left _ hstage := by omega
  fresh _ _ := h.fresh hg (by omega)
  once := h.once
  after := h.after
  current := h.current
  place hs := ⟨(h.place hs).1, .inr hg'⟩

/-- **A task that leaves its session leaves it closed**, and the client
without it or itself ended. -/
theorem Life.released (h : Life session pc c x) (hnone : pc'.guarded = none)
    (hend : session = some c → pc' = .ended) :
    Life session pc' c { x with isOpen := false } where
  shut _ := rfl
  installed hs := by rw [hnone] at hs; cases hs
  closed hs := by rw [hnone] at hs; cases hs
  left hs := by rw [hnone] at hs; cases hs
  fresh hs := by rw [hnone] at hs; cases hs
  once := h.once
  after := h.after
  current _ hopen := by cases hopen
  place hs := ⟨(h.place hs).1, .inl (hend hs)⟩

/-- A session is installed. -/
theorem Life.install (h : Life session pc c x) (hg : pc.guarded = some c) (hstage : pc.stage = 0) :
    Life (some c) (.preparing c) c { x with installed := true } := by
  have hfresh : x.notified = 0 := h.fresh hg (by omega)
  exact
    { shut := h.shut, installed := fun _ => ⟨fun _ => Nat.le_refl 1, fun _ => rfl⟩
      closed := fun _ hlt => absurd hlt (by simp [RunPc.stage])
      left := fun _ hlt => absurd hlt (by simp [RunPc.stage])
      fresh := fun _ _ => hfresh, once := h.once
      after := fun hn => by simp only [hfresh] at hn; omega
      current := fun _ _ => rfl, place := fun _ => ⟨rfl, .inr rfl⟩ }

/-- A session is cleared, or another generation's is left alone. -/
theorem Life.clear (h : Life session (.clearing c) c x) (hnot : session' ≠ some c) :
    Life session' (.deciding c) c x where
  shut := h.shut
  installed _ := ⟨fun _ => by simp [RunPc.stage], fun _ => (h.installed rfl).mpr (by simp [RunPc.stage])⟩
  closed _ _ := h.closed rfl (Nat.le_refl 4)
  left _ _ := hnot
  fresh _ _ := h.fresh rfl (by simp [RunPc.stage])
  once := h.once
  after hn := ⟨(h.after hn).1, (h.after hn).2.1, hnot⟩
  current hi ho := by
    have hshut := h.shut (h.closed rfl (Nat.le_refl 4))
    rw [ho] at hshut
    cases hshut
  place hs := absurd hs hnot

/-- A task reads a stop value that lets it call the hook. -/
theorem Life.decide (h : Life session (.deciding c) c x) : Life session (.calling c) c x where
  shut := h.shut
  installed _ := ⟨fun _ => by simp [RunPc.stage], fun _ => (h.installed rfl).mpr (by simp [RunPc.stage])⟩
  closed _ _ := h.closed rfl (by simp [RunPc.stage])
  left _ _ := h.left rfl (Nat.le_refl 5)
  fresh _ _ := h.fresh rfl (by simp [RunPc.stage])
  once := h.once
  after := h.after
  current := h.current
  place hs := absurd hs (h.left rfl (Nat.le_refl 5))

/-- **`on_disconnected` is called**, for the first time. -/
theorem Life.notify (h : Life session (.calling c) c x) :
    Life session (.notifying c) c { x with notified := x.notified + 1 } := by
  have hfresh : x.notified = 0 := h.fresh rfl (Nat.le_refl 6)
  have hinstalled : x.installed = true := (h.installed rfl).mpr (by simp [RunPc.stage])
  have hclosed : x.closed = true := h.closed rfl (by simp [RunPc.stage])
  have hleft : session ≠ some c := h.left rfl (by simp [RunPc.stage])
  exact
    { shut := h.shut
      installed := fun _ => ⟨fun _ => by simp [RunPc.stage], fun _ => hinstalled⟩
      closed := fun _ _ => hclosed, left := fun _ _ => hleft
      fresh := fun _ hle => absurd hle (by simp [RunPc.stage])
      once := by simp only [hfresh]; omega
      after := fun _ => ⟨hinstalled, hclosed, hleft⟩
      current := h.current, place := fun hs => absurd hs hleft }

/-- A connection that was just spawned. -/
theorem Life.connect {n : ℕ} (hnot : session ≠ some c) :
    Life session (.installing c) c { generation := n } where
  shut hc := by cases hc
  installed _ := by simp [RunPc.stage]
  closed _ hlt := absurd hlt (by simp [RunPc.stage])
  left _ hlt := absurd hlt (by simp [RunPc.stage])
  fresh _ _ := rfl
  once := Nat.zero_le 1
  after hn := absurd hn (by simp)
  current hi := by cases hi
  place hs := absurd hs hnot

end Life

/-! ## One step -/

variable {s s' : VcmpClient} {k c : ℕ} {t : RunTask} {pc : RunPc} {e : Event}

/-- **A task that moves with the session it guards** leaves the lives of
the others as they are. -/
theorem Lives.local (h : s.Lives) (hinv : s.Inv) (ht : s.tasks[k]? = some t)
    (hg : t.pc.guarded = some c) (pc : RunPc) (hpc : pc.guarded = some c ∨ pc.guarded = none)
    {g : Connection → Connection} (hgen : ∀ x, (g x).generation = x.generation)
    (htasks : s'.tasks = s.tasks.set k { t with pc := pc })
    (hsessions : s'.sessions = s.sessions.modify c g)
    (hsession : ∀ d, d ≠ c → (s'.session = some d ↔ s.session = some d))
    (hown : ∀ x, s.sessions[c]? = some x → Life s.session t.pc c x → Life s'.session pc c (g x)) :
    s'.Lives := by
  intro d y hy
  rw [hsessions] at hy
  obtain ⟨x, hx, rfl⟩ := getElem?_modify_cases hy
  obtain ⟨j, u, hj, hu, hlife⟩ := h d x hx
  rw [htasks]
  by_cases hd : c = d
  · subst hd
    -- the task of the guarded session is the one that moves
    obtain ⟨x', hx', hk⟩ := hinv.guarded k t c ht hg
    obtain rfl := Option.some.inj (hx.symm.trans hx')
    obtain rfl : j = k := by omega
    obtain rfl := Option.some.inj (ht.symm.trans hu)
    refine ⟨j, _, ?_, getElem?_set_self' ht, ?_⟩
    · rw [if_pos rfl, hgen, hj]
    · rw [if_pos rfl]
      exact hown x hx hlife
  · rw [if_neg hd]
    have hlife' := hlife.congr (hsession d (Ne.symm hd))
    by_cases hjk : j = k
    · subst hjk
      obtain rfl := Option.some.inj (ht.symm.trans hu)
      have hne : t.pc.guarded ≠ some d := by
        rw [hg]
        exact fun heq => hd (Option.some.inj heq)
      have hne' : pc.guarded ≠ some d := by
        rcases hpc with hpc | hpc <;> rw [hpc]
        · exact fun heq => hd (Option.some.inj heq)
        · simp
      have hend : t.pc = .ended → pc = .ended := by
        intro heq
        rw [heq] at hg
        cases hg
      exact ⟨j, _, hj, getElem?_set_self' ht, hlife'.other hend hne hne'⟩
    · exact ⟨j, u, hj, by rw [List.getElem?_set_ne (Ne.symm hjk)]; exact hu, hlife'⟩

/-- A task without a session moves. -/
theorem Lives.idle (h : s.Lives) (ht : s.tasks[k]? = some t) (hg : t.pc.guarded = none)
    (hpc : pc.guarded = none) (hend : t.pc = .ended → pc = .ended) :
    (s.setTask k { t with pc := pc }).Lives := by
  intro d x hx
  obtain ⟨j, u, hj, hu, hlife⟩ := h d x hx
  by_cases hjk : j = k
  · subst hjk
    obtain rfl := Option.some.inj (ht.symm.trans hu)
    refine ⟨j, _, hj, getElem?_set_self' ht, hlife.other hend ?_ ?_⟩
    · rw [hg]; simp
    · rw [hpc]; simp
  · refine ⟨j, u, hj, ?_, hlife⟩
    simp only [setTask]
    rw [List.getElem?_set_ne (Ne.symm hjk)]
    exact hu

/-- Only the stop values, the aborts and what is known of the rest change. -/
theorem Lives.of_pcs (h : s.Lives) (hsessions : s'.sessions = s.sessions)
    (hsession : s'.session = s.session)
    (htasks : ∀ (j : ℕ) (u : RunTask), s.tasks[j]? = some u →
      ∃ v, s'.tasks[j]? = some v ∧ v.pc = u.pc) : s'.Lives := by
  intro d x hx
  obtain ⟨j, u, hj, hu, hlife⟩ := h d x (hsessions ▸ hx)
  obtain ⟨v, hv, hpc⟩ := htasks j u hu
  exact ⟨j, v, hj, hv, by rw [hsession, hpc]; exact hlife⟩

/-- Only a connection changes. -/
theorem Lives.modify (h : s.Lives) (c : ℕ) {g : Connection → Connection}
    (hgen : ∀ x, (g x).generation = x.generation)
    (hlife : ∀ x, s.sessions[c]? = some x → ∀ pc, Life s.session pc c x → Life s.session pc c (g x)) :
    Lives { s with sessions := s.sessions.modify c g } := by
  intro d y hy
  obtain ⟨x, hx, rfl⟩ := getElem?_modify_cases hy
  obtain ⟨j, u, hj, hu, hold⟩ := h d x hx
  by_cases hd : c = d
  · subst hd
    rw [if_pos rfl]
    exact ⟨j, u, (hgen x).trans hj, hu, hlife x hx _ hold⟩
  · rw [if_neg hd]
    exact ⟨j, u, hj, hu, hold⟩

theorem Lives.closeSession (h : s.Lives) (c : ℕ) : (s.closeSession c).Lives :=
  h.modify c (fun _ => rfl) fun _ _ _ hlife => hlife.close

/-- A task connects. -/
theorem Lives.connects (h : s.Lives) (hinv : s.Inv) (ht : s.tasks[k]? = some t)
    (hpc : t.pc = .connecting) :
    Lives { s.setTask k { t with pc := .installing s.sessions.length } with
      sessions := s.sessions ++ [{ generation := k + 1 }] } := by
  intro d x hx
  rcases getElem?_concat_cases hx with ⟨rfl, rfl⟩ | hx
  · refine ⟨k, _, rfl, getElem?_set_self' ht, Life.connect fun hs => ?_⟩
    obtain ⟨⟨x, hx, -⟩, -⟩ := hinv.session _ hs
    simp at hx
  · obtain ⟨j, u, hj, hu, hlife⟩ := h d x hx
    have hd : d < s.sessions.length := (List.getElem?_eq_some_iff.mp hx).1
    by_cases hjk : j = k
    · subst hjk
      obtain rfl := Option.some.inj (ht.symm.trans hu)
      refine ⟨j, _, hj, getElem?_set_self' ht, hlife.other ?_ ?_ ?_⟩
      · rw [hpc]; simp
      · rw [hpc]; simp [RunPc.guarded]
      · simp only [RunPc.guarded, ne_eq, Option.some.injEq]; omega
    · refine ⟨j, u, hj, ?_, hlife⟩
      simp only [setTask]
      rw [List.getElem?_set_ne (Ne.symm hjk)]
      exact hu

/-- **The client has no other session where one of the current generation
is installed.** -/
theorem Lives.session_eq (h : s.Lives) (hinv : s.Inv) (ht : s.tasks[k]? = some t)
    (hg : t.pc.guarded = some c) (hgen : s.generation = k + 1) {d : ℕ} (hs : s.session = some d) :
    d = c := by
  obtain ⟨⟨x, hx, hxgen⟩, -⟩ := hinv.session d hs
  obtain ⟨j, u, hj, hu, hlife⟩ := h d x hx
  obtain rfl : j = k := by omega
  obtain rfl := Option.some.inj (ht.symm.trans hu)
  rcases (hlife.place hs).2 with hend | hguard
  · rw [hend] at hg
    cases hg
  · exact Option.some.inj (hguard.symm.trans hg)

/-- The session of a task of another generation is not the client's. -/
theorem Inv.session_ne (hinv : s.Inv) (ht : s.tasks[k]? = some t)
    (hg : t.pc.guarded = some c) (hgen : s.generation ≠ k + 1) : s.session ≠ some c := by
  intro hs
  obtain ⟨⟨x, hx, hxgen⟩, -⟩ := hinv.session c hs
  obtain ⟨y, hy, hygen⟩ := hinv.guarded k t c ht hg
  obtain rfl := Option.some.inj (hx.symm.trans hy)
  omega

/-- **Every step of a run task keeps the lives.** -/
theorem Lives.runStep (h : s.Lives) (hinv : s.Inv) (ht : s.tasks[k]? = some t) {move : Move}
    (hs : RunStep s k t move s') : s'.Lives := by
  have hsame : ∀ c, s.sessions.modify c (fun x => x) = s.sessions := fun c => by
    exact List.modify_id c s.sessions
  -- a task that stays with its session, between the two `set_session` calls
  have hmoves : ∀ c pc', t.pc.guarded = some c → RunPc.guarded pc' = some c →
      (1 ≤ t.pc.stage ∧ t.pc.stage ≤ 4) → (1 ≤ pc'.stage ∧ pc'.stage ≤ 3) →
      (s.setTask k { t with pc := pc' }).Lives := by
    intro c pc' hg hg' hfrom hto
    refine h.local (g := fun x => x) hinv ht hg pc' (.inl hg') (fun _ => rfl) rfl (hsame c).symm
      (fun _ _ => Iff.rfl) fun x _ hlife => ?_
    exact hlife.moves hg hg' hfrom (by omega) (by omega)
  have hserves : ∀ c, t.pc.guarded = some c → (1 ≤ t.pc.stage ∧ t.pc.stage ≤ 4) →
      (s.setTask k { t with pc := .serving c }).Lives :=
    fun c hg hfrom => hmoves c (.serving c) hg rfl hfrom (by simp [RunPc.stage])
  -- a task that leaves its session
  have hreleases : ∀ c pc', t.pc.guarded = some c → RunPc.guarded pc' = none →
      (5 ≤ t.pc.stage ∨ pc' = .ended) → ((s.setTask k { t with pc := pc' }).closeSession c).Lives := by
    intro c pc' hg hg' hor
    refine h.local (g := fun x => { x with isOpen := false }) hinv ht hg pc' (.inr hg')
      (fun _ => rfl) rfl rfl (fun _ _ => Iff.rfl) fun x _ hlife => ?_
    refine hlife.released hg' fun hsess => ?_
    rcases hor with hstage | hend
    · exact absurd hsess (hlife.left hg hstage)
    · exact hend
  have hunwinds : ((s.setTask k { t with pc := .ended }).dropGuard t.pc.guarded).Lives := by
    rcases hg : t.pc.guarded with - | c
    · exact h.idle ht hg rfl fun _ => rfl
    · exact hreleases c .ended hg rfl (.inr rfl)
  cases hs with
  | connects hpc => exact h.connects hinv ht hpc
  | connectFails hpc | leaves hpc _ | delays hpc | wakes hpc =>
    exact h.idle ht (by rw [hpc]; rfl) rfl (by rw [hpc]; simp)
  | stopped hpc _ =>
    have hg : t.pc.guarded = none := by rcases hpc with hpc | hpc <;> rw [hpc] <;> rfl
    exact h.idle ht hg rfl fun _ => rfl
  | refused hpc _ _ => exact hreleases _ _ (by rw [hpc]; rfl) rfl (.inr rfl)
  | @installed c hpc hlock hgen hrun =>
    have hg : t.pc.guarded = some c := by rw [hpc]; rfl
    refine h.local (g := fun x => { x with installed := true }) hinv ht hg (.preparing c) (.inl rfl)
      (fun _ => rfl) rfl rfl (fun d hd => ?_) fun x _ hlife => hlife.install hg (by rw [hpc]; rfl)
    constructor
    · intro heq
      exact absurd (Option.some.inj heq).symm hd
    · intro heq
      exact absurd (h.session_eq hinv ht hg hgen heq) hd
  | unhooked hpc | hookEnds hpc => exact hserves _ (by rw [hpc]; rfl) (by rw [hpc]; simp [RunPc.stage])
  | @hooked c hpc =>
    exact hmoves c (.hooking c) (by rw [hpc]; rfl) rfl (by rw [hpc]; simp [RunPc.stage])
      (by simp [RunPc.stage])
  | overloaded hpc | hookStopped hpc _ =>
    exact (hserves _ (by rw [hpc]; rfl) (by rw [hpc]; simp [RunPc.stage])).closeSession _
  | @closes c hpc hstop =>
    have hm := hmoves c (.closing c) (by rw [hpc]; rfl) rfl (by rw [hpc]; simp [RunPc.stage])
      (by simp [RunPc.stage])
    exact hm.closeSession c
  | @closedSeen c hpc hclosed =>
    have hg : t.pc.guarded = some c := by rcases hpc with hpc | hpc <;> rw [hpc] <;> rfl
    have hfrom : 1 ≤ t.pc.stage ∧ t.pc.stage ≤ 4 := by
      rcases hpc with hpc | hpc <;> rw [hpc] <;> simp [RunPc.stage]
    refine h.local (g := fun x => x) hinv ht hg (.clearing c) (.inl rfl) (fun _ => rfl) rfl
      (hsame c).symm (fun _ _ => Iff.rfl) fun x hx hlife => ?_
    refine hlife.moves hg rfl hfrom (by simp [RunPc.stage]) fun _ => ?_
    simpa [hx] using hclosed
  | @ignored c hpc hlock hgen =>
    have hg : t.pc.guarded = some c := by rw [hpc]; rfl
    refine h.local (g := fun x => x) hinv ht hg (.deciding c) (.inl rfl) (fun _ => rfl) rfl
      (hsame c).symm (fun _ _ => Iff.rfl) fun x _ hlife => ?_
    exact Life.clear (hpc ▸ hlife) (hinv.session_ne ht hg hgen)
  | @cleared c hpc hlock hgen =>
    have hg : t.pc.guarded = some c := by rw [hpc]; rfl
    refine h.local (g := fun x => x) hinv ht hg (.deciding c) (.inl rfl) (fun _ => rfl) rfl
      (hsame c).symm (fun d hd => ?_) fun x _ hlife => Life.clear (hpc ▸ hlife) (by simp)
    constructor
    · intro heq
      cases heq
    · intro heq
      exact absurd (h.session_eq hinv ht hg hgen heq) hd
  | @decides c hpc hstop =>
    have hg : t.pc.guarded = some c := by rw [hpc]; rfl
    exact h.local (g := fun x => x) hinv ht hg (.calling c) (.inl rfl) (fun _ => rfl) rfl
      (hsame c).symm (fun _ _ => Iff.rfl) fun x _ hlife => Life.decide (hpc ▸ hlife)
  | @notifies c hpc =>
    have hg : t.pc.guarded = some c := by rw [hpc]; rfl
    exact h.local (g := fun x => { x with notified := x.notified + 1 }) hinv ht hg (.notifying c)
      (.inl rfl) (fun _ => rfl) rfl rfl (fun _ _ => Iff.rfl)
      fun x _ hlife => Life.notify (hpc ▸ hlife)
  | silent hpc | unasked hpc | notified hpc =>
    exact hreleases _ _ (by rw [hpc]; rfl) rfl (.inl (by rw [hpc]; simp [RunPc.stage]))
  | aborts _ | panics _ => exact hunwinds

/-- A signal changes stop values only. -/
theorem Lives.signal (h : s.Lives) (how : Stop) : (s.signal how).Lives := by
  obtain ⟨-, -, hsession, -, -, hsessions, -⟩ := signal_fields s how
  exact h.of_pcs hsessions hsession fun j u hu => tasks_of_signal how hu

theorem Lives.abortTask (h : s.Lives) (k : ℕ) : (s.abortTask k).Lives := by
  refine h.of_pcs rfl rfl fun j u hu => ?_
  refine ⟨if k = j then { u with aborted := true } else u, ?_, by split <;> rfl⟩
  simp [VcmpClient.abortTask, List.getElem?_modify, hu]

/-- **The session that is taken is closed.** -/
theorem Lives.takeSession (h : s.Lives) : s.takeSession.Lives := by
  have hclosed : (s.dropGuard s.session).Lives := by
    rcases s.session with - | c
    · exact h
    · exact h.closeSession c
  have hsession : (s.dropGuard s.session).session = s.session := by
    unfold dropGuard
    split <;> rfl
  intro d x hx
  obtain ⟨j, u, hj, hu, hlife⟩ := hclosed d x hx
  refine ⟨j, u, hj, hu, ?_⟩
  rw [hsession] at hlife
  exact
    { shut := hlife.shut, installed := hlife.installed, closed := hlife.closed
      left := fun _ _ => by simp [VcmpClient.takeSession]
      fresh := hlife.fresh, once := hlife.once
      after := fun hn => ⟨(hlife.after hn).1, (hlife.after hn).2.1, by simp [VcmpClient.takeSession]⟩
      current := fun hi ho => by
        -- an open one was the client's, and that was closed
        have hs := hlife.current hi ho
        have hx' : (s.dropGuard s.session).sessions[d]? = some x := hx
        rw [hs] at hx'
        exact absurd rfl ((sessions_closeSession hx').choose_spec.2.2 ho).2
      place := fun hs => by cases hs }

theorem Lives.startSpawn (h : s.Lives) : (s.sectionNext .startSpawn).Lives := by
  refine h.of_pcs rfl rfl fun j u hu => ⟨u, ?_, rfl⟩
  simp only [sectionNext]
  rw [getElem?_append_some hu]

theorem Lives.sectionNext (h : s.Lives) (sec : LockSection) : (s.sectionNext sec).Lives := by
  cases sec with
  | startSignal => exact h.signal .quiet
  | startClose => exact h.takeSession
  | startAbort =>
    simp only [VcmpClient.sectionNext]
    split
    · exact h.abortTask _
    · exact h
  | startSpawn => exact h.startSpawn
  | stopSignal wait => exact h.signal .notify
  | stopClose wait => exact h.takeSession
  | stopFinish wait => exact h

/-- **Every step keeps the lives.** -/
theorem Lives.step (h : s.Lives) (hinv : s.Inv) (hn : machine.next s e = some s') : s'.Lives := by
  cases step_of_next hn with
  | start | stop => exact h
  | lockSection => exact h.sectionNext _
  | giveUp => exact h.abortTask _
  | run ht hs => exact h.runStep hinv ht hs
  | close => exact h.closeSession _
  | @finish c hshut =>
    refine h.modify c (fun _ => rfl) fun x hx _ hlife => hlife.finish ?_
    simpa [hx] using hshut

theorem lives_of_reachable (h : machine.Reachable s) : s.Lives := by
  have hinit : ∀ s, machine.init s → s.Lives := by
    rintro s rfl c x hx
    simp at hx
  exact h.invariant_of hinit fun s e s' hr _ hn hs => hs.step (inv_of_reachable hr) hn

/-! ## What a step makes of one task and of one connection -/

/-- **A task that was told to stop is not told again.** -/
theorem task_step (hinv : s.Inv) (hkept : ∀ k, s.stop = some k → s.running = true)
    (hn : machine.next s e = some s') (ht : s.tasks[k]? = some t) (hstop : t.stop ≠ .no) :
    ∃ u, s'.tasks[k]? = some u ∧ u.stop = t.stop := by
  have hsignal : ∀ how, ∃ u, (s.signal how).tasks[k]? = some u ∧ u.stop = t.stop := by
    intro how
    unfold signal
    split
    · rename_i j hj
      have hjk : j ≠ k := by
        rintro rfl
        obtain ⟨i, v, hi, hv, hno, -⟩ := hinv.current (hkept j hj)
        obtain rfl := Option.some.inj (hj.symm.trans hi)
        obtain rfl := Option.some.inj (ht.symm.trans hv)
        exact hstop hno
      exact ⟨t, by simp [ht, hjk], rfl⟩
    · exact ⟨t, ht, rfl⟩
  have habort : ∀ j, ∃ u, (s.abortTask j).tasks[k]? = some u ∧ u.stop = t.stop := by
    intro j
    refine ⟨if j = k then { t with aborted := true } else t, ?_, by split <;> rfl⟩
    simp [abortTask, List.getElem?_modify, ht]
  cases step_of_next hn with
  | start | stop | finish | close => exact ⟨t, ht, rfl⟩
  | giveUp => exact habort _
  | @lockSection sec _ =>
    cases sec with
    | startSignal => exact hsignal .quiet
    | stopSignal wait => exact hsignal .notify
    | startClose | stopClose wait => exact ⟨t, by rw [sectionNext, takeSession_eq]; exact ht, rfl⟩
    | startAbort =>
      simp only [sectionNext]
      split
      · exact habort _
      · exact ⟨t, ht, rfl⟩
    | startSpawn =>
      refine ⟨t, ?_, rfl⟩
      simp only [sectionNext]
      rw [getElem?_append_some ht]
    | stopFinish wait => exact ⟨t, ht, rfl⟩
  | run hv hs =>
    obtain ⟨-, -, -, -, pc, htasks⟩ := runStep_tasks hs
    obtain ⟨u, hu, hstop', -⟩ := tasks_of_setTask pc hv ht
    exact ⟨u, htasks ▸ hu, hstop'⟩

/-- **Where a task is, its own step has brought it.** -/
theorem task_back (hn : machine.next s e = some s') {u : RunTask} (hu : s'.tasks[k]? = some u) :
    u = {} ∨ (∃ t, s.tasks[k]? = some t ∧ u.pc = t.pc) ∨
      ∃ t move, s.tasks[k]? = some t ∧ RunStep s k t move s' := by
  have hmodify : ∀ (j : ℕ) (g : RunTask → RunTask), (s.tasks.modify j g)[k]? = some u →
      (∀ t, (g t).pc = t.pc) → ∃ t, s.tasks[k]? = some t ∧ u.pc = t.pc := by
    intro j g h hg
    obtain ⟨t, ht, rfl⟩ := getElem?_modify_cases h
    exact ⟨t, ht, by split <;> simp [hg]⟩
  have hsignal : ∀ how, (s.signal how).tasks[k]? = some u → ∃ t, s.tasks[k]? = some t ∧ u.pc = t.pc := by
    intro how h
    unfold signal at h
    split at h
    · exact hmodify _ _ h fun _ => rfl
    · exact ⟨u, h, rfl⟩
  cases step_of_next hn with
  | start | stop | finish | close => exact .inr (.inl ⟨u, hu, rfl⟩)
  | giveUp => exact .inr (.inl (hmodify _ _ hu fun _ => rfl))
  | @lockSection sec _ =>
    cases sec with
    | startSignal => exact .inr (.inl (hsignal .quiet hu))
    | stopSignal wait => exact .inr (.inl (hsignal .notify hu))
    | startClose | stopClose wait =>
      rw [sectionNext, takeSession_eq] at hu
      exact .inr (.inl ⟨u, hu, rfl⟩)
    | startAbort =>
      simp only [sectionNext] at hu
      split at hu
      · exact .inr (.inl (hmodify _ _ hu fun _ => rfl))
      · exact .inr (.inl ⟨u, hu, rfl⟩)
    | startSpawn =>
      rcases getElem?_concat_cases hu with ⟨-, rfl⟩ | hu
      · exact .inl rfl
      · exact .inr (.inl ⟨u, hu, rfl⟩)
    | stopFinish wait => exact .inr (.inl ⟨u, hu, rfl⟩)
  | @run j t move _ ht hs =>
    obtain ⟨-, -, -, -, pc, htasks⟩ := runStep_tasks hs
    rw [htasks] at hu
    rcases getElem?_set_cases hu with ⟨rfl, -⟩ | ⟨-, hu⟩
    · exact .inr (.inr ⟨t, move, ht, hs⟩)
    · exact .inr (.inl ⟨u, hu, rfl⟩)

/-- A signal leaves the sessions alone. -/
theorem sessions_signal (s : VcmpClient) (how : Stop) : (s.signal how).sessions = s.sessions :=
  (signal_fields s how).2.2.2.2.2.1

/-- **What a step makes of a connection.** -/
structure Aged (s : VcmpClient) (e : Event) (c : ℕ) (x y : Connection) : Prop where
  generation : y.generation = x.generation
  isOpen : y.isOpen = true → x.isOpen = true
  closed : y.closed = x.closed ∨ e = .finish c
  /-- It is installed with the lock free, by the current generation's task. -/
  installed : y.installed = x.installed ∨ s.lock = none ∧ ∃ (k : ℕ) (t : RunTask),
    s.tasks[k]? = some t ∧ s.generation = k + 1 ∧ t.pc.guarded = some c
  /-- `on_disconnected` is called where its task has decided to. -/
  notified : y.notified = x.notified ∨ y.notified = x.notified + 1 ∧ ∃ (k : ℕ) (t : RunTask),
    s.tasks[k]? = some t ∧ t.pc = .calling c

theorem Aged.refl (x : Connection) : Aged s e c x x :=
  ⟨rfl, fun ho => ho, .inl rfl, .inl rfl, .inl rfl⟩

theorem Aged.close (x : Connection) : Aged s e c x { x with isOpen := false } :=
  ⟨rfl, fun ho => (by cases ho), .inl rfl, .inl rfl, .inl rfl⟩

/-- What becomes of a connection where one of them is changed. -/
theorem aged_modify {d : ℕ} {g : Connection → Connection} {x : Connection}
    (hx : s.sessions[c]? = some x) (hg : d = c → Aged s e c x (g x)) :
    ∃ y, (s.sessions.modify d g)[c]? = some y ∧ Aged s e c x y := by
  refine ⟨if d = c then g x else x, by simp [List.getElem?_modify, hx], ?_⟩
  split
  · exact hg ‹_›
  · exact .refl x

theorem aged_dropGuard {x : Connection} (hx : s.sessions[c]? = some x) (o : Option ℕ) :
    ∃ y, (s.dropGuard o).sessions[c]? = some y ∧ Aged s e c x y := by
  cases o with
  | none => exact ⟨x, hx, .refl x⟩
  | some d => exact aged_modify hx fun _ => .close x

theorem runStep_aged {move : Move} (ht : s.tasks[k]? = some t) (hs : RunStep s k t move s')
    {x : Connection} (hx : s.sessions[c]? = some x) :
    ∃ y, s'.sessions[c]? = some y ∧ Aged s (.run k move) c x y := by
  have hclose : ∀ d, ∃ y, (s.closeSession d).sessions[c]? = some y ∧ Aged s (.run k move) c x y :=
    fun d => aged_dropGuard hx (some d)
  have hdrop : ∀ o, ∃ y, ((s.setTask k { t with pc := .ended }).dropGuard o).sessions[c]? = some y ∧
      Aged s (.run k move) c x y := by
    intro o
    cases o with
    | none => exact ⟨x, hx, .refl x⟩
    | some d => exact hclose d
  cases hs with
  | connects hpc =>
    refine ⟨x, ?_, .refl x⟩
    change (s.sessions ++ _)[c]? = some x
    rw [getElem?_append_some hx]
  | refused | overloaded | hookStopped | closes | silent | unasked | notified => exact hclose _
  | @installed d hpc hlock hgen hrun =>
    refine aged_modify hx fun heq => ?_
    have hguard : t.pc.guarded = some c := by rw [hpc, heq]; rfl
    exact ⟨rfl, fun ho => ho, .inl rfl, .inr ⟨hlock, k, t, ht, hgen, hguard⟩, .inl rfl⟩
  | @notifies d hpc =>
    refine aged_modify hx fun heq => ?_
    exact ⟨rfl, fun ho => ho, .inl rfl, .inl rfl, .inr ⟨rfl, k, t, ht, heq ▸ hpc⟩⟩
  | aborts | panics => exact hdrop t.pc.guarded
  | _ => exact ⟨x, hx, .refl x⟩

theorem connection_step (hn : machine.next s e = some s') {x : Connection}
    (hx : s.sessions[c]? = some x) : ∃ y, s'.sessions[c]? = some y ∧ Aged s e c x y := by
  cases step_of_next hn with
  | start | stop | giveUp => exact ⟨x, hx, .refl x⟩
  | finish =>
    refine aged_modify hx fun heq => ?_
    exact ⟨rfl, fun ho => ho, .inr (by rw [heq]), .inl rfl, .inl rfl⟩
  | close => exact aged_modify hx fun _ => .close x
  | @lockSection sec _ =>
    cases sec with
    | startSignal | stopSignal => exact ⟨x, (sessions_signal s _).symm ▸ hx, .refl x⟩
    | startClose | stopClose => exact aged_dropGuard hx s.session
    | startAbort =>
      simp only [sectionNext]
      split <;> exact ⟨x, hx, .refl x⟩
    | startSpawn | stopFinish => exact ⟨x, hx, .refl x⟩
  | run ht hs => exact runStep_aged ht hs hx

/-- **Only a task that connects spawns a session.** -/
theorem length_sessions (hn : machine.next s e = some s') :
    s'.sessions.length = s.sessions.length ∨ ∃ k, e = .run k .connects := by
  have hdrop : ∀ (u : VcmpClient) o, (u.dropGuard o).sessions.length = u.sessions.length := by
    intro u o
    cases o with
    | none => rfl
    | some d => exact List.length_modify _ _ _
  cases step_of_next hn with
  | start | stop | giveUp => exact .inl rfl
  | finish => exact .inl (List.length_modify _ _ _)
  | close => exact .inl (hdrop s (some _))
  | @lockSection sec _ =>
    cases sec with
    | startSignal | stopSignal => exact .inl (by rw [sectionNext, sessions_signal])
    | startClose | stopClose => exact .inl (hdrop s s.session)
    | startAbort =>
      simp only [sectionNext]
      split <;> exact .inl rfl
    | startSpawn | stopFinish => exact .inl rfl
  | @run k t _ _ _ hs =>
    cases hs with
    | connects => exact .inr ⟨k, rfl⟩
    | refused | overloaded | hookStopped | closes | silent | unasked | notified =>
      exact .inl (hdrop (s.setTask k _) (some _))
    | aborts | panics => exact .inl (hdrop (s.setTask k _) t.pc.guarded)
    | installed | notifies => exact .inl (List.length_modify _ _ _)
    | _ => exact .inl rfl

/-- **While a section holds the lock nothing else touches what it guards.** -/
theorem held_step {sec : LockSection} (hlock : s.lock = some sec)
    (hn : machine.next s e = some s') : e = .lockSection ∧ s' = s.sectionNext sec ∨
      s'.lock = some sec ∧ s'.session = s.session ∧ s'.generation = s.generation := by
  cases step_of_next hn with
  | start hfree | stop hfree =>
    rw [hlock] at hfree
    cases hfree
  | finish | giveUp | close => exact .inr ⟨hlock, rfl, rfl⟩
  | lockSection hsec =>
    obtain rfl := Option.some.inj (hlock.symm.trans hsec)
    exact .inl ⟨rfl, rfl⟩
  | run _ hs =>
    obtain ⟨-, hgen, -, hl, -⟩ := runStep_tasks hs
    refine .inr ⟨hl.trans hlock, ?_, hgen⟩
    cases hs with
    | installed _ hno | cleared _ hno => rw [hlock] at hno; cases hno
    | aborts | panics =>
      unfold dropGuard
      split <;> rfl
    | _ => rfl

/-- A section begins with its signal. -/
theorem free_step (hlock : s.lock = none) (hn : machine.next s e = some s') :
    s'.lock ≠ some .startClose := by
  cases step_of_next hn with
  | start | stop => simp
  | finish | giveUp => simp [hlock, abortTask]
  | close => simp [hlock, VcmpClient.closeSession]
  | lockSection hsec =>
    rw [hlock] at hsec
    cases hsec
  | run _ hs =>
    obtain ⟨-, -, -, hl, -⟩ := runStep_tasks hs
    simp [hl, hlock]

/-- The generations grow. -/
theorem generation_step (hn : machine.next s e = some s') : s.generation ≤ s'.generation := by
  cases step_of_next hn with
  | start | stop | finish | giveUp | close => exact Nat.le_refl _
  | @lockSection sec _ =>
    cases sec with
    | startSignal | stopSignal => exact Nat.le_of_eq (signal_fields s _).2.1.symm
    | startClose | stopClose => exact Nat.le_of_eq (by rw [sectionNext, takeSession_eq])
    | startAbort =>
      simp only [sectionNext]
      split <;> exact Nat.le_refl _
    | startSpawn => exact Nat.le_succ _
    | stopFinish => exact Nat.le_refl _
  | run _ hs => exact Nat.le_of_eq (runStep_tasks hs).2.1.symm

/-! ## The stop value that `start` leaves -/

/-- The stop value of the task that spawned a connection. -/
def stopOf (s : VcmpClient) (c : ℕ) : Option Stop :=
  s.sessions[c]?.bind fun x => s.tasks[x.generation - 1]?.map RunTask.stop

/-- **What a client has told its tasks.** -/
structure Told (s : VcmpClient) : Prop where
  /-- The sender is kept while the client runs. -/
  kept : ∀ k, s.stop = some k → s.running = true
  /-- A `start` has told the task of a session before it takes that. -/
  quieted : s.lock = some .startClose → ∀ c, s.session = some c → s.stopOf c = some .quiet

theorem Told.task (h : s.Told) (hinv : s.Inv) (hn : machine.next s e = some s')
    (hquiet : s.stopOf c = some .quiet) : s'.stopOf c = some .quiet := by
  simp only [stopOf, Option.bind_eq_some_iff, Option.map_eq_some_iff] at hquiet ⊢
  obtain ⟨x, hx, t, ht, hstop⟩ := hquiet
  obtain ⟨y, hy, haged⟩ := connection_step hn hx
  obtain ⟨u, hu, hustop⟩ := task_step hinv h.kept hn ht (by rw [hstop]; simp)
  exact ⟨y, hy, u, by rw [haged.generation]; exact hu, hustop.trans hstop⟩

/-- **The signal of a starting client reaches the task of its session.** -/
theorem stopOf_signal (hinv : s.Inv) (hlock : s.lock = some .startSignal)
    (hs : s.session = some c) : (s.signal .quiet).stopOf c = some .quiet := by
  obtain ⟨⟨x, hx, hgen⟩, hrun | ⟨sec, hsec, hclosing⟩⟩ := hinv.session c hs
  · obtain ⟨k, t, hstop, ht, -, hk⟩ := hinv.current hrun
    have hpred : x.generation - 1 = k := by omega
    simp [stopOf, signal, hstop, hx, hpred, ht]
  · obtain rfl := Option.some.inj (hlock.symm.trans hsec)
    cases hclosing

theorem Told.step (h : s.Told) (hinv : s.Inv) (hn : machine.next s e = some s') : s'.Told := by
  have hsignal : ∀ how, (s.signal how).stop = none := by
    intro how
    unfold signal
    split
    · rfl
    · assumption
  refine ⟨fun k hk => ?_, fun hlock c hs => ?_⟩
  · cases step_of_next hn with
    | start | stop | finish | giveUp | close => exact h.kept k hk
    | @lockSection sec _ =>
      cases sec with
      | startSignal | stopSignal =>
        simp only [sectionNext, hsignal, reduceCtorEq] at hk
      | startClose | stopClose =>
        rw [sectionNext, takeSession_eq] at hk ⊢
        exact h.kept k hk
      | startAbort =>
        simp only [sectionNext] at hk ⊢
        split at hk <;> exact h.kept k hk
      | startSpawn => rfl
      | stopFinish => exact h.kept k hk
    | run _ hs =>
      obtain ⟨hrun, -, hstop, -⟩ := runStep_tasks hs
      rw [hrun]
      exact h.kept k (hstop ▸ hk)
  · rcases hsec : s.lock with - | sec
    · exact absurd hlock (free_step hsec hn)
    · rcases held_step hsec hn with ⟨rfl, rfl⟩ | ⟨hl, hsame, -⟩
      · cases sec with
        | startSignal =>
          have hs' : s.session = some c := ((signal_fields s .quiet).2.2.1).symm.trans hs
          exact stopOf_signal hinv hsec hs'
        | startAbort =>
          simp only [sectionNext] at hlock
          split at hlock <;> cases hlock
        | _ => cases hlock
      · obtain rfl := Option.some.inj (hl.symm.trans hlock)
        exact h.task hinv hn (h.quieted hsec c (hsame ▸ hs))

theorem told_of_reachable (h : machine.Reachable s) : s.Told := by
  have hinit : ∀ s, machine.init s → s.Told := by
    rintro s rfl
    exact ⟨by simp, by simp⟩
  exact h.invariant_of hinit fun s e s' hr _ hn hs => hs.step (inv_of_reachable hr) hn

/-! ## A connection that a `start` replaces -/

/-- The task that may call the hook with a connection is the one that
spawned it, and has installed it and taken it from the client. -/
theorem Lives.calling (h : s.Lives) (hinv : s.Inv) (ht : s.tasks[k]? = some t)
    (hg : t.pc.guarded = some c) {x : Connection} (hx : s.sessions[c]? = some x) :
    x.generation = k + 1 ∧ Life s.session t.pc c x := by
  obtain ⟨y, hy, hgen⟩ := hinv.guarded k t c ht hg
  obtain rfl := Option.some.inj (hx.symm.trans hy)
  obtain ⟨j, u, hj, hu, hlife⟩ := h c x hx
  obtain rfl : j = k := by omega
  obtain rfl := Option.some.inj (ht.symm.trans hu)
  exact ⟨hgen, hlife⟩

/-- The task of a connection was told to be quiet before it came to decide. -/
def Silenced (s : VcmpClient) (c : ℕ) : Prop :=
  s.stopOf c = some .quiet ∧ ∀ (k : ℕ) (t : RunTask), s.tasks[k]? = some t → t.pc ≠ .calling c

/-- **A connection that no hook is told of**, because a `start` is about to
replace it or has done so. -/
structure Replaced (s : VcmpClient) (c : ℕ) (x : Connection) : Prop where
  here : s.sessions[c]? = some x
  silent : x.notified = 0
  /-- Its task was told to be quiet, or never installs it, or is told next. -/
  why : s.Silenced c ∨
    x.installed = false ∧ ((∃ sec, s.lock = some sec ∧ sec.starting = true) ∨ x.generation < s.generation) ∨
    s.lock = some .startSignal ∧ s.session = some c

/-- A task that holds the client's session has not decided on it. -/
theorem Lives.not_calling (h : s.Lives) (hinv : s.Inv) (hs : s.session = some c)
    (ht : s.tasks[k]? = some t) : t.pc ≠ .calling c := by
  intro hpc
  obtain ⟨⟨x, hx, -⟩, -⟩ := hinv.session c hs
  have hg : t.pc.guarded = some c := by rw [hpc]; rfl
  obtain ⟨-, hlife⟩ := h.calling hinv ht hg hx
  exact hlife.left hg (by rw [hpc]; simp [RunPc.stage]) hs

/-- A task comes to the hook from the stop value. -/
theorem calling_of_runStep {move : Move} {u : RunTask} (ht : s.tasks[k]? = some t)
    (hs : RunStep s k t move s') (hu : s'.tasks[k]? = some u) (hpc : u.pc = .calling c) :
    t.pc = .deciding c ∧ t.stop ≠ .quiet := by
  have hset : ∀ v, (s.tasks.set k v)[k]? = some u → v.pc = .calling c := by
    intro v hv
    rw [getElem?_set_self' ht, Option.some.injEq] at hv
    exact hv ▸ hpc
  have hdrop : ∀ o, ((s.setTask k { t with pc := .ended }).dropGuard o).tasks =
      s.tasks.set k { t with pc := .ended } := by
    intro o
    cases o <;> rfl
  cases hs with
  | @decides d hd hstop =>
    have heq := hset _ hu
    simp only [RunPc.calling.injEq] at heq
    exact ⟨heq ▸ hd, hstop⟩
  | aborts | panics =>
    rw [hdrop] at hu
    cases hset _ hu
  | _ => cases hset _ hu

/-- **A silenced task decides to be silent.** -/
theorem Silenced.step (h : s.Silenced c) (hinv : s.Inv) (htold : s.Told)
    (hn : machine.next s e = some s') : s'.Silenced c := by
  obtain ⟨hquiet, hnot⟩ := h
  refine ⟨htold.task hinv hn hquiet, fun k u hu hpc => ?_⟩
  rcases task_back hn hu with rfl | ⟨t, ht, hsame⟩ | ⟨t, move, ht, hs⟩
  · cases hpc
  · exact hnot k t ht (hsame ▸ hpc)
  · obtain ⟨hfrom, hstop⟩ := calling_of_runStep ht hs hu hpc
    -- the task that decides is the one that was told
    obtain ⟨x, hx, hgen⟩ := hinv.guarded k t c ht (by rw [hfrom]; rfl)
    have hpred : x.generation - 1 = k := by omega
    simp [stopOf, hx, hpred, ht, hstop] at hquiet

/-- The hook is not called with a replaced connection. -/
theorem Replaced.not_calling {x : Connection} (h : s.Replaced c x) (hinv : s.Inv) (hlives : s.Lives)
    (ht : s.tasks[k]? = some t) : t.pc ≠ .calling c := by
  rcases h.why with ⟨-, hnot⟩ | ⟨hno, -⟩ | ⟨-, hs⟩
  · exact hnot k t ht
  · intro hpc
    have hg : t.pc.guarded = some c := by rw [hpc]; rfl
    obtain ⟨-, hlife⟩ := hlives.calling hinv ht hg h.here
    have hi := (hlife.installed hg).mpr (by rw [hpc]; simp [RunPc.stage])
    rw [hno] at hi
    cases hi
  · exact hlives.not_calling hinv hs ht

theorem Replaced.step {x : Connection} (h : s.Replaced c x) (hinv : s.Inv) (hlives : s.Lives)
    (htold : s.Told) (hn : machine.next s e = some s') : ∃ y, s'.Replaced c y := by
  have hcalling : ∀ (k : ℕ) (t : RunTask), s.tasks[k]? = some t → t.pc ≠ .calling c :=
    fun _ _ ht => h.not_calling hinv hlives ht
  obtain ⟨hx, h0, hwhy⟩ := h
  obtain ⟨y, hy, haged⟩ := connection_step hn hx
  have hsilent : y.notified = 0 := by
    rcases haged.notified with hnot | ⟨-, k, t, ht, hpc⟩
    · rw [hnot, h0]
    · exact absurd hpc (hcalling k t ht)
  refine ⟨y, hy, hsilent, ?_⟩
  rcases hwhy with hsilenced | ⟨hno, hwhen⟩ | ⟨hlock, hs⟩
  · exact .inl (hsilenced.step hinv htold hn)
  · refine .inr (.inl ⟨?_, ?_⟩)
    · rcases haged.installed with hi | ⟨hfree, k, t, ht, hgen, hguard⟩
      · rw [hi, hno]
      · -- it is installed while the lock is free, by the current generation
        exfalso
        obtain ⟨z, hz, hzgen⟩ := hinv.guarded k t c ht hguard
        obtain rfl := Option.some.inj (hx.symm.trans hz)
        rcases hwhen with ⟨sec, hsec, -⟩ | hlt
        · rw [hfree] at hsec
          cases hsec
        · omega
    · have hgen : y.generation = x.generation := haged.generation
      have hmono := generation_step hn
      rcases hwhen with ⟨sec, hsec, hstarting⟩ | hlt
      · rcases held_step hsec hn with ⟨-, rfl⟩ | ⟨hl, -, -⟩
        · cases sec with
          | startSpawn =>
            obtain ⟨k, t, hk, ht, -⟩ := hlives c x hx
            have hcount := hinv.count
            have hlen : k < s.tasks.length := (List.getElem?_eq_some_iff.mp ht).1
            refine .inr ?_
            simp only [sectionNext]
            omega
          | startAbort =>
            refine .inl ⟨.startSpawn, ?_, rfl⟩
            simp only [sectionNext]
            split <;> rfl
          | startSignal => exact .inl ⟨.startClose, rfl, rfl⟩
          | startClose => exact .inl ⟨.startAbort, rfl, rfl⟩
          | _ => cases hstarting
        · exact .inl ⟨sec, hl, hstarting⟩
      · exact .inr (by omega)
  · rcases held_step hlock hn with ⟨-, rfl⟩ | ⟨hl, hsame', -⟩
    · refine .inl ⟨stopOf_signal hinv hlock hs, fun k u hu hpc => ?_⟩
      obtain ⟨t, ht, hsame, -⟩ := tasks_signal hinv hu
      exact hcalling k t ht (hsame ▸ hpc)
    · exact .inr (.inr ⟨hl, hsame'.trans hs⟩)

/-- **What a `start` finds open, or finds to be the client's session, it
replaces.** -/
theorem replaced_of_replacing (h : machine.Reachable s) {sec : LockSection}
    (hlock : s.lock = some sec) (hsec : sec.replacing = true) {x : Connection}
    (hx : s.sessions[c]? = some x) (hfound : x.isOpen = true ∨ s.session = some c) :
    s.Replaced c x := by
  obtain ⟨k, t, hk, ht, hlife⟩ := lives_of_reachable h c x hx
  have hstarting : sec.starting = true := by cases sec <;> first | rfl | cases hsec
  have hsilent : x.notified = 0 := by
    by_contra hne
    obtain ⟨-, hclosed, hleft⟩ := hlife.after (by omega)
    rcases hfound with hopen | hs
    · rw [hlife.shut hclosed] at hopen
      cases hopen
    · exact hleft hs
  refine ⟨hx, hsilent, ?_⟩
  by_cases hs : s.session = some c
  · cases sec with
    | startSignal => exact .inr (.inr ⟨hlock, hs⟩)
    | startClose =>
      exact .inl ⟨(told_of_reachable h).quieted hlock c hs, fun _ _ hu =>
        (lives_of_reachable h).not_calling (inv_of_reachable h) hs hu⟩
    | _ => cases hsec
  · -- an open session that is not the client's was not installed
    have hopen := hfound.resolve_right hs
    refine .inr (.inl ⟨?_, .inl ⟨sec, hlock, hstarting⟩⟩)
    by_contra hi
    exact hs (hlife.current (by simpa using hi) hopen)

/-- **No hook is ever told of a replaced connection.** -/
theorem replaced_of_path {s u : VcmpClient} (h : machine.Reachable s)
    (hp : machine.Path Machine.free s u) (hr : ∃ x, s.Replaced c x) : ∃ x, u.Replaced c x := by
  have key : machine.Reachable u ∧ ∃ x, u.Replaced c x := by
    refine hp.preserves (P := fun u => machine.Reachable u ∧ ∃ x, u.Replaced c x) ?_ ⟨h, hr⟩
    rintro u e v _ hn ⟨hu, x, hx⟩
    exact ⟨hu.step trivial hn,
      hx.step (inv_of_reachable hu) (lives_of_reachable hu) (told_of_reachable hu) hn⟩
  exact key.2

end VcmpClient

end Vcmp
