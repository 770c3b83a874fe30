import Vcmp.Link.Turns
/-!
# Heartbeats in time

The link under a clock. The server initiates the heartbeat once and the
client expects it, timers fire when they are due, and nothing takes longer
than `Pace` says. Where the interval is longer than what an exchange may
take beyond it, no watchdog is ever due, so neither side closes on a peer
that is alive.
-/

namespace Vcmp

open Session

namespace Link

variable {J : JsonText} {P : Pace} {a a' b b' : Session} {ma mb : Marks} {e : Event J} {now : ℕ}

/-! ## The link under a clock -/

/-- The state of the link, the time, and the marks of either side. -/
abbrev TimedLink := Clocked (Session × Session) (Marks × Marks)

/-- The marks after a step of either side. -/
def marks (now : ℕ) (m : Marks × Marks) (p : Session × Session) :
    Event J ⊕ Event J → Session × Session → Marks × Marks
  | .inl e, q => (mark now m.1 p.1 e q.1, m.2)
  | .inr e, q => (m.1, mark now m.2 p.2 e q.2)

/-- **The link under a clock.** -/
def timed (J : JsonText) : Machine TimedLink (Option (Event J ⊕ Event J)) :=
  (link J).clocked marks ({}, {})

/-- A timer fires when it is due, and nobody calls the hidden `send_raw`. -/
def due (P : Pace) (now : ℕ) (s : Session) (m : Marks) : Event J → Bool
  | .echoFires => s.heartbeat.echo.millis.all fun n => m.echo + n * P.perMilli ≤ now
  | .watchdogFires => s.heartbeat.watchdog.millis.all fun n => m.watchdog + n * P.perMilli ≤ now
  | .sendRaw _ => false
  | _ => true

/-- A server initiates the heartbeat once, with an interval longer than the
slack of an exchange and short enough to be doubled, and expects none. -/
def serves (P : Pace) (s : Session) : Event J → Bool
  | .initiateHeartbeat millis =>
    decide (s.beats = [] ∧ P.slack < min millis (u64Bound - 1) * P.perMilli ∧
      2 * millis < u64Bound)
  | .expectHeartbeat _ => false
  | _ => true

/-- A client expects the first heartbeat after it must have arrived, and initiates none. -/
def connects (P : Pace) : Event J → Bool
  | .initiateHeartbeat _ => false
  | .expectHeartbeat timeout => decide (P.start + P.send + P.transport < timeout * P.perMilli)
  | _ => true

/-- What a step of either side meets. -/
def meets (P : Pace) (c : TimedLink) : Option (Event J ⊕ Event J) → Bool
  | none => true
  | some (.inl e) => due P c.now c.state.1 c.marks.1 e && serves P c.state.1 e
  | some (.inr e) => due P c.now c.state.2 c.marks.2 e && connects P e

/-- **Nothing is late while both sides are open**, nor is the server's first heartbeat. -/
def Prompt (P : Pace) (c : TimedLink) : Prop :=
  c.state.1.isOpen = true → c.state.2.isOpen = true →
    InTime P c.now c.state.1 c.state.2 c.marks.1 ∧ InTime P c.now c.state.2 c.state.1 c.marks.2 ∧
      (c.state.1.beats = [] → c.now ≤ P.start)

/-- **A timely step**, from a state in which nothing is late. -/
def Timely (P : Pace) (c : TimedLink) (e : Option (Event J ⊕ Event J)) : Prop :=
  Prompt P c ∧ meets P c e = true

/-! ## What a timely step meets -/

/-- What the steps of a session meet. -/
def Beats (s : Session) (e : Event J) : Prop := NoRaw s e ∧ Beating s e

theorem beats_of_serves (hdue : due P now a ma e = true) (hserves : serves P a e = true) :
    Beats a e := by
  refine ⟨?_, ?_⟩
  · rintro text rfl
    cases hdue
  · rintro millis rfl
    obtain ⟨-, hslack, -⟩ := of_decide_eq_true hserves
    by_contra hzero
    obtain rfl : millis = 0 := by omega
    simp at hslack

theorem beats_of_connects (hdue : due P now b mb e = true) (hconnects : connects P e = true) :
    Beats b e := by
  refine ⟨?_, ?_⟩
  · rintro text rfl
    cases hdue
  · rintro millis rfl
    cases hconnects

theorem echo_of_due (hdue : due P now a ma e = true) (k : ℕ) (he : e = .echoFires)
    (harmed : a.heartbeat.echo = .armed k) : ma.echo + k * P.perMilli ≤ now := by
  subst he
  simpa [due, harmed, Timer.millis] using hdue

/-- The link of a timely run is one of the link without the clock. -/
theorem reachable_of_timely {c : TimedLink} (h : (timed J).ReachableBy (Timely P) c) :
    ReachableBy J Beats c.state.1 c.state.2 := by
  refine Machine.ReachableBy.unclocked ?_ h
  rintro c (e | e) ⟨-, hmeets⟩
  · obtain ⟨hdue, hserves⟩ := (Bool.and_eq_true_iff).mp hmeets
    exact beats_of_serves hdue hserves
  · obtain ⟨hdue, hconnects⟩ := (Bool.and_eq_true_iff).mp hmeets
    exact beats_of_connects hdue hconnects

/-! ## The turns of a timely run -/

/-- **One side or the other has the turn**, once the first has begun. -/
def Regular (P : Pace) (now : ℕ) (a : Session) (ma : Marks) (b : Session) (mb : Marks) : Prop :=
  Idle P a b mb ∨ (a.beats ≠ [] ∧ ∃ n, (P.slack < n * P.perMilli ∧ 2 * n < u64Bound) ∧
    ((Turn P n now a ma b mb ∧ (b.beats ≠ [] → b.heartbeatsReceived ≠ 0)) ∨
      (Turn P n now b mb a ma ∧ b.heartbeatsReceived ≠ 0)))

namespace Regular

/-- Time passes. -/
theorem later (h : Regular P now a ma b mb) : Regular P (now + 1) a ma b mb := by
  rcases h with hidle | ⟨hbeats, n, hslack, ⟨hturn, hheard⟩ | ⟨hturn, hheard⟩⟩
  · exact .inl hidle
  · exact .inr ⟨hbeats, n, hslack, .inl ⟨hturn.later, hheard⟩⟩
  · exact .inr ⟨hbeats, n, hslack, .inr ⟨hturn.later, hheard⟩⟩

/-- What a step does to the pulse, in a timely run. -/
theorem pulse {now : ℕ} {ma : Marks} (hr : ReachableBy J Beats a b) (hok : Beats a e)
    (hn : (machine J).next a e = some a') (hopen : a'.isOpen = true) : PulseStep now a ma a' (mark now ma a e a') e :=
  pulse_of_next (hr.left.mono fun _ _ h => h.1) hok.1 hn hopen

/-- **A step of the server.** -/
theorem server (h : Regular P now a ma b mb) (hr : ReachableBy J Beats a b)
    (hn : (machine J).next a e = some a') (hdel : a.delivers b e = true) (hopen : a'.isOpen = true)
    (hmarked : Marked a ma) (ha : InTime P now a b ma) (hb : InTime P now b a mb)
    (hstart : a.beats = [] → now ≤ P.start) (hdue : due P now a ma e = true)
    (hserves : serves P a e = true) : Regular P now a' (mark now ma a e a') b mb := by
  have hok := beats_of_serves hdue hserves
  have hpulse : PulseStep now a ma a' (mark now ma a e a') e := pulse hr hok hn hopen
  have hexpect : ∀ timeout, e ≠ .expectHeartbeat timeout := by
    rintro timeout rfl
    cases hserves
  rcases h with hidle | ⟨hbeats, n, hslack, hturns⟩
  · rcases hidle.first hr hn hdel hpulse hmarked (hstart hidle.none.1) hexpect with
      hidle' | ⟨millis, rfl, hturn, hbeats⟩
    · exact .inl hidle'
    · obtain ⟨-, hslack, hwide⟩ := of_decide_eq_true hserves
      exact .inr ⟨hbeats, _, ⟨hslack, by omega⟩,
        .inl ⟨hturn, fun hne => absurd hidle.none.2 hne⟩⟩
  have honce : ∀ millis, e ≠ .initiateHeartbeat millis := by
    rintro millis rfl
    exact hbeats (of_decide_eq_true hserves).1
  obtain ⟨hslack, hwide⟩ := hslack
  refine .inr ⟨hpulse.beats_ne_nil hbeats, n, ⟨hslack, hwide⟩, ?_⟩
  rcases hturns with ⟨hturn, hheard⟩ | ⟨hturn, hheard⟩
  · exact .inl ⟨hturn.holder hr hn hdel hpulse (beatsFit_of_reachable (hr.left.mono fun _ _ h => h.2))
      hmarked ha hslack hwide honce (fun timeout he => absurd he (hexpect timeout)) (echo_of_due hdue), hheard⟩
  · rcases hturn.other hr.swap hn hdel hpulse hb ha hslack hwide honce
      (fun timeout he => absurd he (hexpect timeout)) with ⟨hturn, -⟩ | ⟨hturn, -⟩
    · exact .inr ⟨hturn, hheard⟩
    · exact .inl ⟨hturn, fun _ => hheard⟩

/-- **A step of the client.** -/
theorem client (h : Regular P now a ma b mb) (hr : ReachableBy J Beats a b)
    (hn : (machine J).next b e = some b') (hdel : b.delivers a e = true) (hopen : b'.isOpen = true)
    (hmarked : Marked b mb) (ha : InTime P now a b ma) (hb : InTime P now b a mb)
    (hdue : due P now b mb e = true) (hconnects : connects P e = true) :
    Regular P now a ma b' (mark now mb b e b') := by
  have hok := beats_of_connects hdue hconnects
  have hpulse : PulseStep now b mb b' (mark now mb b e b') e := pulse hr.swap hok hn hopen
  have hstart : ∀ millis, e ≠ .initiateHeartbeat millis := by
    rintro millis rfl
    cases hconnects
  have hexpect : ∀ timeout, e = .expectHeartbeat timeout →
      P.start + P.send + P.transport < timeout * P.perMilli := by
    rintro timeout rfl
    exact of_decide_eq_true hconnects
  rcases h with hidle | ⟨hbeats, n, hslack, ⟨hturn, hheard⟩ | ⟨hturn, hheard⟩⟩
  · exact .inl (hidle.second hr hn hdel hpulse hstart hexpect)
  · have hfirst : ∀ timeout, e = .expectHeartbeat timeout → b.heartbeatsReceived = 0 →
        b.beats = [] ∧ P.send + P.transport < timeout * P.perMilli := by
      intro timeout he hzero
      refine ⟨?_, by have := hexpect timeout he; omega⟩
      by_contra hne
      exact hheard hne hzero
    rcases hturn.other hr hn hdel hpulse ha hb hslack.1 hslack.2 hstart hfirst with
      ⟨hturn, hcount, hnone⟩ | ⟨hturn, hcount⟩
    · exact .inr ⟨hbeats, n, hslack, .inl ⟨hturn, fun hne => by
        rw [hcount]
        exact hheard fun hnil => hne (hnone.mpr hnil)⟩⟩
    · exact .inr ⟨hbeats, n, hslack, .inr ⟨hturn, hcount⟩⟩
  · refine .inr ⟨hbeats, n, hslack, .inr ⟨hturn.holder hr.swap hn hdel hpulse
      (beatsFit_of_reachable (hr.right.mono fun _ _ h => h.2)) hmarked hb hslack.1 hslack.2 hstart
      (fun _ _ => hheard) (echo_of_due hdue), ?_⟩⟩
    have hle := hpulse.count_le
    omega

end Regular

/-- What holds in a timely run while both sides are open. -/
structure Kept (P : Pace) (c : TimedLink) : Prop where
  marked : Marked c.state.1 c.marks.1 ∧ Marked c.state.2 c.marks.2
  regular : Regular P c.now c.state.1 c.marks.1 c.state.2 c.marks.2

theorem marked_of_init (ha : (machine J).init a) : Marked a {} := by
  obtain ⟨id, limits, handlers, budget, elsewhere, rfl⟩ := ha
  exact ⟨rfl, rfl⟩

theorem idle_of_init (ha : (machine J).init a) (hb : (machine J).init b) : Idle P a b {} := by
  obtain ⟨id, limits, handlers, budget, elsewhere, rfl⟩ := ha
  obtain ⟨id', limits', handlers', budget', elsewhere', rfl⟩ := hb
  refine ⟨⟨rfl, rfl⟩, by simp [spawn], by simp [spawn], fun p => ⟨?_, ?_⟩, by simp [spawn],
    by simp [spawn], by simp [spawn], by simp [spawn]⟩
  · rintro ⟨acc, hacc, -⟩
    simp [spawn] at hacc
  · rintro ⟨acc, hacc, -⟩
    simp [spawn] at hacc

theorem marked_of_pulse (hm : Marked a ma) (hn : (machine J).next a e = some a')
    (hpulse : PulseStep now a ma a' (mark now ma a e a') e) : Marked a' (mark now ma a e a') :=
  hm.mark hpulse.beats_le (step_of_next hn).flow.grows.1.length_le

/-- **In a timely run one side has the turn**, while both are open. -/
theorem kept_of_timely {c : TimedLink} (h : (timed J).ReachableBy (Timely P) c)
    (ha : c.state.1.isOpen = true) (hb : c.state.2.isOpen = true) : Kept P c := by
  refine h.clocked_invariant (P := fun c => c.state.1.isOpen = true → c.state.2.isOpen = true →
    Kept P c) ?_ ?_ ?_ ha hb
  · rintro ⟨now, ⟨a, b⟩, m⟩ ⟨⟨ha, hb⟩, hnow, hm⟩ - -
    cases hnow
    cases hm
    refine ⟨⟨?_, ?_⟩, .inl (idle_of_init ha hb)⟩
    · exact marked_of_init ha
    · exact marked_of_init hb
  · rintro c - ih ha hb
    exact ⟨(ih ha hb).marked, (ih ha hb).regular.later⟩
  rintro ⟨now, ⟨a, b⟩, ma, mb⟩ (e | e) ⟨a', b'⟩ hr ⟨hprompt, hmeets⟩ hn ih ha hb
  · obtain ⟨hdel, hn, hsame⟩ := Machine.couple_inl.mp hn
    cases hsame
    obtain ⟨hdue, hserves⟩ := Bool.and_eq_true_iff.mp hmeets
    have hlink := reachable_of_timely hr
    have ha₀ := (step_of_next hn).isOpen ha
    obtain ⟨⟨hma, hmb⟩, hregular⟩ := ih ha₀ hb
    obtain ⟨hina, hinb, hstart⟩ := hprompt ha₀ hb
    exact ⟨⟨marked_of_pulse hma hn (Regular.pulse hlink (beats_of_serves hdue hserves) hn ha), hmb⟩,
      hregular.server hlink hn hdel ha hma hina hinb hstart hdue hserves⟩
  · obtain ⟨hdel, hn, hsame⟩ := Machine.couple_inr.mp hn
    cases hsame
    obtain ⟨hdue, hconnects⟩ := Bool.and_eq_true_iff.mp hmeets
    have hlink := reachable_of_timely hr
    have hb₀ := (step_of_next hn).isOpen hb
    obtain ⟨⟨hma, hmb⟩, hregular⟩ := ih ha hb₀
    obtain ⟨hina, hinb, -⟩ := hprompt ha hb₀
    exact ⟨⟨hma, marked_of_pulse hmb hn
        (Regular.pulse hlink.swap (beats_of_connects hdue hconnects) hn hb)⟩,
      hregular.client hlink hn hdel hb hmb hina hinb hdue hconnects⟩

/-- No watchdog is due where nothing is late. -/
theorem Regular.watchdogs (h : Regular P now a ma b mb) (ha : InTime P now a b ma)
    (hb : InTime P now b a mb) (hstart : a.beats = [] → now ≤ P.start) :
    (∀ k, a.heartbeat.watchdog = .armed k → now < ma.watchdog + k * P.perMilli) ∧
      ∀ k, b.heartbeat.watchdog = .armed k → now < mb.watchdog + k * P.perMilli := by
  rcases h with hidle | ⟨-, n, -, ⟨hturn, -⟩ | ⟨hturn, -⟩⟩
  · refine ⟨fun k hk => absurd hk (hidle.watchdog k), fun k hk => ?_⟩
    have hearly := hstart hidle.none.1
    have hlt := hidle.waits.watchdog k hk
    omega
  · exact hturn.watchdogs ha
  · exact (hturn.watchdogs hb).symm

/-- A watchdog that fires was due. -/
theorem due_of_watchdogFires (hn : (machine J).next a .watchdogFires = some a')
    (hdue : due P now a ma (.watchdogFires : Event J) = true) :
    ∃ k, a.heartbeat.watchdog = .armed k ∧ ma.watchdog + k * P.perMilli ≤ now := by
  have hnext : a.next J .watchdogFires = some a' := hn
  simp only [next] at hnext
  split at hnext
  · rename_i k harmed
    exact ⟨k, harmed, by simpa [due, harmed, Timer.millis] using hdue⟩
  · cases hnext

/-- **No watchdog is ever due in a timely run**, and none fires: neither side
closes on a peer that is alive. -/
theorem heartbeats_in_time {c : TimedLink} (h : (timed J).ReachableBy (Timely P) c) (hp : Prompt P c)
    (ha : c.state.1.isOpen = true) (hb : c.state.2.isOpen = true) :
    (∀ k, c.state.1.heartbeat.watchdog = .armed k → c.now < c.marks.1.watchdog + k * P.perMilli) ∧
      (∀ k, c.state.2.heartbeat.watchdog = .armed k → c.now < c.marks.2.watchdog + k * P.perMilli) ∧
      ∀ e d, Timely P c e → (timed J).next c e = some d →
        e ≠ some (.inl .watchdogFires) ∧ e ≠ some (.inr .watchdogFires) := by
  obtain ⟨hina, hinb, hstart⟩ := hp ha hb
  obtain ⟨hfirst, hsecond⟩ := (kept_of_timely h ha hb).regular.watchdogs hina hinb hstart
  refine ⟨hfirst, hsecond, ?_⟩
  rintro e d ⟨-, hmeets⟩ hn
  constructor
  · rintro rfl
    obtain ⟨t, hnext, -⟩ := Machine.clocked_some.mp hn
    obtain ⟨k, harmed, hle⟩ := due_of_watchdogFires (Machine.couple_inl.mp hnext).2.1
      (Bool.and_eq_true_iff.mp hmeets).1
    have hlt := hfirst k harmed
    omega
  · rintro rfl
    obtain ⟨t, hnext, -⟩ := Machine.clocked_some.mp hn
    obtain ⟨k, harmed, hle⟩ := due_of_watchdogFires (Machine.couple_inr.mp hnext).2.1
      (Bool.and_eq_true_iff.mp hmeets).1
    have hlt := hsecond k harmed
    omega

/-! ## A timely run -/

/-- Whether a side is in time, whatever its frames are. -/
def inTime (P : Pace) (now : ℕ) (x y : Session) (m : Marks) : Bool :=
  (x.heartbeat.echo.millis.all fun n => now ≤ m.echo + n * P.perMilli + P.timer) &&
    ((x.beats.zip m.begun).all fun c => c.1.pc = .done || now ≤ c.2 + P.send) &&
    m.queued.zipIdx.all fun q =>
      now ≤ q.1 + P.transport || (x.written.take y.received.length).contains q.2

theorem inTime_iff {x y : Session} {m : Marks} (h : inTime P now x y m = true) : InTime P now x y m := by
  simp only [inTime, Bool.and_eq_true, List.all_eq_true, Bool.or_eq_true, decide_eq_true_eq,
    List.contains_iff_mem] at h
  obtain ⟨⟨hecho, hsend⟩, hflight⟩ := h
  refine ⟨fun n harmed => ?_, fun i b f hb hf hpc => ?_, ?_⟩
  · simpa [harmed, Timer.millis] using hecho
  · refine (hsend (b, f) (List.mem_of_getElem? (i := i) ?_)).resolve_left hpc
    rw [List.getElem?_zip_eq_some]
    exact ⟨hb, hf⟩
  · rintro p q ⟨acc, -, -, hp⟩ hq
    refine (hflight (q, p) (List.mem_of_getElem? (i := p) ?_)).resolve_right hp
    simp [List.getElem?_zipIdx, hq]

/-- Whether a step of a run is timely, in which both sides stay open. -/
def timely (P : Pace) (c : TimedLink) (e : Option (Event J ⊕ Event J)) : Bool :=
  inTime P c.now c.state.1 c.state.2 c.marks.1 && inTime P c.now c.state.2 c.state.1 c.marks.2 &&
    decide (c.state.1.beats = [] → c.now ≤ P.start) && meets P c e

theorem timely_iff (c : TimedLink) (e : Option (Event J ⊕ Event J)) (h : timely P c e = true) :
    Timely P c e := by
  simp only [timely, Bool.and_eq_true, decide_eq_true_eq] at h
  obtain ⟨⟨⟨ha, hb⟩, hstart⟩, hmeets⟩ := h
  exact ⟨fun _ _ => ⟨inTime_iff ha, inTime_iff hb, hstart⟩, hmeets⟩

/-- Everything takes at most a millisecond. -/
def brisk : Pace := ⟨1, 1, 1, 1, 1⟩

/-- The client expects a heartbeat, the server's is heard, and five milliseconds
later the client's. -/
def exchangedRun : List (Option (Event compactJson ⊕ Event compactJson)) :=
  some (.inr (.expectHeartbeat 4)) :: (echoedBack.take 13).map some ++ List.replicate 5 none ++
    (echoedBack.drop 13).map some ++
    [some (.inr (.writer .steps)), some (.inr (.writer .steps)), some (.inr (.writer .steps)),
      some (.inr (.writer .feeds)), some (.inl (.receive "HBT5"))]

theorem heartbeats_in_time_exchangedRun : ∃ c, (timed compactJson).run
      { state := (small [], small []), marks := ({}, {}) } exchangedRun = some c ∧
    c.state.1.heartbeatsReceived = 1 ∧ c.state.2.heartbeat.watchdog = .armed 10 ∧
    c.now < c.marks.2.watchdog + 10 * brisk.perMilli := by
  have hrun : ((timed compactJson).run { state := (small [], small []), marks := ({}, {}) }
      exchangedRun).any (fun c => decide (c.state.1.isOpen = true ∧ c.state.2.isOpen = true ∧
        c.state.1.heartbeatsReceived = 1 ∧ c.state.2.heartbeat.watchdog = .armed 10) &&
        timely brisk c (none : Option (Event compactJson ⊕ Event compactJson))) = true := by
    decide +kernel
  obtain ⟨c, hs, hend⟩ := Machine.exists_of_run hrun
  obtain ⟨hstate, htimely⟩ := Bool.and_eq_true_iff.mp hend
  obtain ⟨ha, hb, hcount, harmed⟩ := of_decide_eq_true hstate
  have hreach : (timed compactJson).ReachableBy (Timely brisk) c :=
    Machine.reachableBy_of_run (timely brisk) timely_iff
      ⟨⟨init_small compactJson [], init_small compactJson []⟩, rfl, rfl⟩ (by decide +kernel) hs
  exact ⟨c, hs, hcount, harmed,
    (heartbeats_in_time hreach (timely_iff c none htimely).1 ha hb).2.1 10 harmed⟩

end Link

end Vcmp
