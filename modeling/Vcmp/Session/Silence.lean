import Vcmp.Session.Pulse
/-!
# A silent peer is found out

A session that has initiated or expected a heartbeat, or heard one, is
never without a timer or a call that is about to start one. So where
timers and calls are in time, it stays open for three intervals at most
once its peer has fallen silent, whatever else it does.
-/

namespace Vcmp

namespace Session

variable {J : JsonText} {P : Pace} {s s' : Session} {m m' : Marks} {e : Event J} {now B t t' : ℕ}

/-! ## A session under a clock -/

/-- Whether a session has reason to wait for its peer anew: it asks for a
heartbeat, or has heard one. -/
def renews (s s' : Session) (e : Event J) : Bool :=
  s.asks e || s'.heartbeatsReceived ≠ s.heartbeatsReceived

/-- **A session under a clock**, with the time from which it waits for its peer. -/
def timed (J : JsonText) : Machine (Clocked Session (Marks × Option ℕ)) (Option (Event J)) :=
  (machine J).clocked
    (fun now k s e s' => (mark now k.1 s e s', if s.renews s' e then some now else k.2)) ({}, none)

/-- **The session's own timers and calls are in time.** -/
structure OnTime (P : Pace) (now : ℕ) (s : Session) (m : Marks) : Prop where
  echo : ∀ n, s.heartbeat.echo = .armed n → now ≤ m.echo + n * P.perMilli + P.timer
  watchdog : ∀ n, s.heartbeat.watchdog = .armed n → now ≤ m.watchdog + n * P.perMilli + P.timer
  send : ∀ (i : ℕ) (b : Beat) (f : ℕ), s.beats[i]? = some b → m.begun[i]? = some f →
    b.pc ≠ .done → now ≤ f + P.send

/-- Every interval is at most `B`, on this side and on the peer's, and nobody
calls the hidden `send_raw`. -/
def within (B : ℕ) : Event J → Bool
  | .initiateHeartbeat millis => millis ≤ B
  | .expectHeartbeat timeout => timeout ≤ 2 * B
  | .receive text => match Frame.parse text with
    | .ok (.heartbeat n) => n ≤ B
    | _ => true
  | .sendRaw _ => false
  | _ => true

/-- **A step in time**, with intervals of at most `B`. -/
def Punctual (P : Pace) (B : ℕ) (c : Clocked Session (Marks × Option ℕ)) (e : Option (Event J)) :
    Prop :=
  (c.state.isOpen = true → OnTime P c.now c.state c.marks.1) ∧ e.all (within B) = true

/-! ## What keeps a session awake -/

/-- A timer runs, or a call that starts one. -/
def Wakeful (s : Session) : Prop :=
  (∃ n, s.heartbeat.echo = .armed n) ∨ (∃ b ∈ s.beats, b.pc ≠ .done) ∨
    ∃ n, s.heartbeat.watchdog = .armed n

/-- **A session stays awake**, once it has reason to wait. -/
theorem Wakeful.step (h : PulseStep now s m s' m' e) (hs : Wakeful s ∨ s.renews s' e = true) :
    Wakeful s' := by
  have begun : ∀ {n : ℕ}, s'.beats = s.beats ++ [{ interval := n }] → Wakeful s' := by
    intro n hbeats
    refine .inr (.inl ⟨{ interval := n }, ?_, by simp⟩)
    rw [hbeats]
    exact List.mem_append_right _ (List.mem_singleton_self _)
  have moved : ∀ {i : ℕ} {b c : Beat}, s.beats[i]? = some b → s'.beats = s.beats.set i c →
      c.pc ≠ .done → Wakeful s' := by
    intro i b c hb hbeats hpc
    refine .inr (.inl ⟨c, ?_, hpc⟩)
    rw [hbeats]
    exact List.mem_of_getElem? (getElem?_set_self' hb)
  cases h with
  | quiet hheart hcount hbeats _ _ _ hasks =>
    unfold Wakeful
    rw [hheart, hbeats]
    exact hs.resolve_right (by simp [renews, hasks, hcount])
  | initiates _ _ hbeats => exact begun hbeats
  | echoes _ _ _ hbeats => exact begun hbeats
  | moves hb _ hpc' _ _ _ hbeats =>
    exact moved hb hbeats (by rintro rfl; cases hpc')
  | queues hb _ _ _ hbeats => exact moved hb hbeats (by simp)
  | installs _ _ hheart => exact .inr (.inr ⟨_, by rw [hheart]⟩)
  | expects _ hheart => exact .inr (.inr ⟨_, by rw [hheart]⟩)
  | hears _ _ _ hheart => exact .inl ⟨_, by rw [hheart]⟩

/-- **Everything that keeps a session awake** was begun in time, from `t` on. -/
structure Bounded (P : Pace) (B : ℕ) (s : Session) (m : Marks) (t : ℕ) : Prop where
  echo : ∀ n, s.heartbeat.echo = .armed n → n ≤ B ∧ m.echo ≤ t
  calls : ∀ (i : ℕ) (b : Beat), s.beats[i]? = some b → b.pc ≠ .done →
    b.interval ≤ B ∧ ∃ f, m.begun[i]? = some f ∧ f ≤ t + B * P.perMilli + P.timer
  watchdog : ∀ n, s.heartbeat.watchdog = .armed n →
    n ≤ 2 * B ∧ m.watchdog ≤ t + B * P.perMilli + P.timer + P.send

variable {ok : Session → Event J → Prop}

/-- **They stay so**, from a later time on where there is reason to wait anew. -/
theorem Bounded.step (h : Bounded P B s m t) (hstep : PulseStep now s m s' m' e)
    (hin : OnTime P now s m) (hmarked : Marked s m) (hwithin : within B e = true) (hle : t ≤ t')
    (hnew : s.renews s' e = true → now ≤ t') : Bounded P B s' m' t' := by
  have calls : ∀ {i : ℕ} {b : Beat}, s.beats[i]? = some b → b.pc ≠ .done →
      b.interval ≤ B ∧ ∃ f, m.begun[i]? = some f ∧ f ≤ t' + B * P.perMilli + P.timer := by
    intro i b hb hpc
    obtain ⟨hinterval, f, hf, hbound⟩ := h.calls i b hb hpc
    exact ⟨hinterval, f, hf, by omega⟩
  have begun : ∀ {n : ℕ}, s'.beats = s.beats ++ [{ interval := n }] → m'.begun = m.begun ++ [now] →
      n ≤ B → now ≤ t' + B * P.perMilli + P.timer → ∀ (i : ℕ) (b : Beat), s'.beats[i]? = some b →
      b.pc ≠ .done → b.interval ≤ B ∧
        ∃ f, m'.begun[i]? = some f ∧ f ≤ t' + B * P.perMilli + P.timer := by
    intro n hbeats hmark hn hnow i b hb hpc
    rw [hbeats] at hb
    rw [hmark]
    rcases getElem?_concat_cases hb with ⟨rfl, rfl⟩ | hold
    · exact ⟨hn, now, by rw [← hmarked.begun]; simp, hnow⟩
    · obtain ⟨hinterval, f, hf, hbound⟩ := calls hold hpc
      exact ⟨hinterval, f, getElem?_append_some hf, hbound⟩
  have moved : ∀ {j : ℕ} {c : Beat} {pc : BeatPc}, s.beats[j]? = some c → c.pc ≠ .done →
      s'.beats = s.beats.set j { c with pc := pc } → m'.begun = m.begun →
      ∀ (i : ℕ) (b : Beat), s'.beats[i]? = some b → b.pc ≠ .done → b.interval ≤ B ∧
        ∃ f, m'.begun[i]? = some f ∧ f ≤ t' + B * P.perMilli + P.timer := by
    intro j c pc hc hpcc hbeats hmark i b hb hpc
    rw [hbeats] at hb
    rw [hmark]
    rcases getElem?_set_cases hb with ⟨rfl, rfl⟩ | ⟨-, hold⟩
    · obtain ⟨hinterval, hstamp⟩ := calls hc hpcc
      exact ⟨hinterval, hstamp⟩
    · exact calls hold hpc
  have echo : ∀ n, s.heartbeat.echo = .armed n → n ≤ B ∧ m.echo ≤ t' := fun n harmed =>
    ⟨(h.echo n harmed).1, (h.echo n harmed).2.trans hle⟩
  have watchdog : ∀ n, s.heartbeat.watchdog = .armed n →
      n ≤ 2 * B ∧ m.watchdog ≤ t' + B * P.perMilli + P.timer + P.send := by
    intro n harmed
    obtain ⟨hn, hbound⟩ := h.watchdog n harmed
    exact ⟨hn, by omega⟩
  cases hstep with
  | quiet hheart _ hbeats hmarks =>
    obtain ⟨hbegun, hwatch, hecho⟩ := hmarks
    refine ⟨by rw [hheart, hecho]; exact echo, fun i b hb => ?_, by rw [hheart, hwatch]; exact watchdog⟩
    rw [hbeats] at hb
    rw [hbegun]
    exact calls hb
  | @initiates millis hheart _ hbeats hmarks =>
    obtain ⟨hbegun, hwatch, hecho⟩ := hmarks
    have hmillis : millis ≤ B := of_decide_eq_true hwithin
    have hnow : now ≤ t' := hnew rfl
    exact ⟨by rw [hheart, hecho]; exact echo, begun hbeats hbegun (by omega) (by omega),
      by rw [hheart, hwatch]; exact watchdog⟩
  | @echoes n harmed hheart _ hbeats hmarks =>
    obtain ⟨hbegun, hwatch, -⟩ := hmarks
    obtain ⟨hn, hstamp⟩ := echo n harmed
    have hdue := hin.echo n harmed
    have hmul : n * P.perMilli ≤ B * P.perMilli := Nat.mul_le_mul_right _ hn
    refine ⟨fun k hk => ?_, begun hbeats hbegun hn (by omega), by rw [hheart, hwatch]; exact watchdog⟩
    rw [hheart] at hk
    cases hk
  | moves hb hpc _ hheart _ _ hbeats hmarks =>
    obtain ⟨hbegun, hwatch, hecho⟩ := hmarks
    have hsame : s'.heartbeat.echo = s.heartbeat.echo ∧ s'.heartbeat.watchdog = s.heartbeat.watchdog := by
      rcases hheart with hheart | hheart <;> rw [hheart] <;> simp
    exact ⟨by rw [hsame.1, hecho]; exact echo,
      moved hb (by rintro hdone; rw [hdone] at hpc; cases hpc) hbeats hbegun,
      by rw [hsame.2, hwatch]; exact watchdog⟩
  | queues hb hpc hheart _ hbeats hmarks =>
    obtain ⟨hbegun, hwatch, hecho⟩ := hmarks
    exact ⟨by rw [hheart, hecho]; exact echo, moved hb (by rw [hpc]; simp) hbeats hbegun,
      by rw [hheart, hwatch]; exact watchdog⟩
  | @installs i b hb hpc hheart _ hbeats hmarks =>
    obtain ⟨hbegun, hwatch, hecho⟩ := hmarks
    have hunfinished : b.pc ≠ .done := by rw [hpc]; simp
    obtain ⟨hinterval, f, hf, hbound⟩ := calls hb hunfinished
    have hsend := hin.send i b f hb hf hunfinished
    refine ⟨by rw [hheart, hecho]; exact echo, moved hb hunfinished hbeats hbegun, fun k hk => ?_⟩
    rw [hheart] at hk
    cases hk
    rw [hwatch]
    have hdoubled := doubled_le b.interval
    exact ⟨by omega, by omega⟩
  | @expects timeout _ hheart _ hbeats hmarks _ hasks =>
    obtain ⟨hbegun, hwatch, hecho⟩ := hmarks
    have htimeout : timeout ≤ 2 * B := of_decide_eq_true hwithin
    have hnow : now ≤ t' := hnew (by rw [renews, hasks, Bool.true_or])
    refine ⟨by rw [hheart, hecho]; exact echo, fun i b hb => ?_, fun k hk => ?_⟩
    · rw [hbeats] at hb
      rw [hbegun]
      exact calls hb
    · rw [hheart] at hk
      cases hk
      rw [hwatch]
      exact ⟨htimeout, by omega⟩
  | @hears text n hparse _ _ hheart hcount hbeats hmarks =>
    obtain ⟨hbegun, hwatch, hecho⟩ := hmarks
    have hn : n ≤ B := by simpa [within, hparse] using hwithin
    have hnow : now ≤ t' := hnew (by simp [renews, hcount])
    refine ⟨fun k hk => ?_, fun i b hb => ?_, fun k hk => ?_⟩
    · rw [hheart] at hk
      cases hk
      rw [hecho]
      exact ⟨hn, hnow⟩
    · rw [hbeats] at hb
      rw [hbegun]
      exact calls hb
    · rw [hheart] at hk
      cases hk

/-! ## How long it stays open -/

/-- What holds of an open session under a clock. -/
structure Vigil (P : Pace) (B : ℕ) (c : Clocked Session (Marks × Option ℕ)) : Prop where
  marked : Marked c.state c.marks.1
  past : c.marks.2.getD 0 ≤ c.now
  bounded : Bounded P B c.state c.marks.1 (c.marks.2.getD 0)
  wakeful : c.marks.2.isSome = true → Wakeful c.state

theorem vigil_of_init {c : Clocked Session (Marks × Option ℕ)} (h : (timed J).init c) :
    Vigil P B c := by
  obtain ⟨now, s, m⟩ := c
  obtain ⟨⟨id, limits, handlers, budget, elsewhere, rfl⟩, hnow, hm⟩ := h
  cases hnow
  cases hm
  exact ⟨⟨rfl, rfl⟩, le_refl _, ⟨by simp [spawn], by simp [spawn], by simp [spawn]⟩, by simp⟩

theorem reachable_of_punctual {c : Clocked Session (Marks × Option ℕ)}
    (h : (timed J).ReachableBy (Punctual P B) c) : (machine J).ReachableBy NoRaw c.state := by
  refine h.unclocked ?_
  rintro c e ⟨-, hwithin⟩ text rfl
  cases hwithin

/-- **An open session keeps its vigil** in every run in time. -/
theorem vigil_of_punctual {c : Clocked Session (Marks × Option ℕ)}
    (h : (timed J).ReachableBy (Punctual P B) c) (hopen : c.state.isOpen = true) : Vigil P B c := by
  refine h.clocked_invariant (P := fun c => c.state.isOpen = true → Vigil P B c) ?_ ?_ ?_ hopen
  · intro c hinit _
    exact vigil_of_init hinit
  · intro c _ ih hopen
    exact ⟨(ih hopen).marked, Nat.le_succ_of_le (ih hopen).past, (ih hopen).bounded, (ih hopen).wakeful⟩
  rintro ⟨now, s, m, since⟩ e s' hr ⟨hin, hwithin⟩ hn ih hopen
  have hopen₀ := (step_of_next hn).isOpen hopen
  obtain ⟨hmarked, hpast, hbounded, hwakeful⟩ := ih hopen₀
  have hraw : NoRaw s e := by
    rintro text rfl
    cases hwithin
  have hpulse : PulseStep now s m s' (mark now m s e s') e :=
    pulse_of_next (reachable_of_punctual hr) hraw hn hopen
  have hle : since.getD 0 ≤ (if s.renews s' e then some now else since).getD 0 := by
    split
    · exact hpast
    · exact le_refl _
  refine ⟨hmarked.mark hpulse.beats_le (step_of_next hn).flow.grows.1.length_le, ?_, ?_, fun hsome => ?_⟩
  · show (if s.renews s' e then some now else since).getD 0 ≤ now
    split
    · exact le_refl _
    · exact hpast
  · exact hbounded.step hpulse (hin hopen₀) hmarked hwithin hle fun hnew => by simp [hnew]
  · refine Wakeful.step hpulse ?_
    by_cases hnew : s.renews s' e = true
    · exact .inr hnew
    · exact .inl (hwakeful (by simpa [hnew] using hsome))

/-- **A silent peer is found out**: a session that is open, and in time, has
asked for a heartbeat or heard one no longer ago than three intervals, and
what the two timers and the call between them may be late. -/
theorem silence_found_out {c : Clocked Session (Marks × Option ℕ)}
    (h : (timed J).ReachableBy (Punctual P B) c) (hopen : c.state.isOpen = true)
    (hin : OnTime P c.now c.state c.marks.1) {t : ℕ} (ht : c.marks.2 = some t) :
    c.now ≤ t + 3 * B * P.perMilli + 2 * P.timer + P.send := by
  obtain ⟨hmarked, -, hbounded, hwakeful⟩ := vigil_of_punctual h hopen
  rw [ht] at hbounded hwakeful
  have hthree : 3 * B * P.perMilli = B * P.perMilli + 2 * B * P.perMilli := by
    rw [← Nat.add_mul]
    congr 1
    omega
  rcases hwakeful rfl with ⟨n, harmed⟩ | ⟨b, hb, hpc⟩ | ⟨n, harmed⟩
  · obtain ⟨hn, hstamp⟩ := hbounded.echo n harmed
    have hdue := hin.echo n harmed
    have hmul : n * P.perMilli ≤ B * P.perMilli := Nat.mul_le_mul_right _ hn
    simp only [Option.getD_some] at hstamp
    omega
  · obtain ⟨i, hi⟩ := List.getElem?_of_mem hb
    obtain ⟨-, f, hf, hbound⟩ := hbounded.calls i b hi hpc
    have hsend := hin.send i b f hi hf hpc
    simp only [Option.getD_some] at hbound
    omega
  · obtain ⟨hn, hstamp⟩ := hbounded.watchdog n harmed
    have hdue := hin.watchdog n harmed
    have hmul : n * P.perMilli ≤ 2 * B * P.perMilli := Nat.mul_le_mul_right _ hn
    simp only [Option.getD_some] at hstamp
    omega

/-- Whether a step is in time, as a check. -/
def punctual (P : Pace) (B : ℕ) (c : Clocked Session (Marks × Option ℕ)) (e : Option (Event J)) : Bool :=
  (c.state.heartbeat.echo.millis.all fun n => c.now ≤ c.marks.1.echo + n * P.perMilli + P.timer) &&
    (c.state.heartbeat.watchdog.millis.all fun n =>
      c.now ≤ c.marks.1.watchdog + n * P.perMilli + P.timer) &&
    ((c.state.beats.zip c.marks.1.begun).all fun b => b.1.pc = .done || c.now ≤ b.2 + P.send) &&
    e.all (within B)

theorem punctual_iff (c : Clocked Session (Marks × Option ℕ)) (e : Option (Event J))
    (h : punctual P B c e = true) :
    OnTime P c.now c.state c.marks.1 ∧ e.all (within B) = true := by
  simp only [punctual, Bool.and_eq_true, List.all_eq_true, Bool.or_eq_true, decide_eq_true_eq] at h
  obtain ⟨⟨⟨hecho, hwatchdog⟩, hsend⟩, hwithin⟩ := h
  refine ⟨⟨fun n harmed => ?_, fun n harmed => ?_, fun i b f hb hf hpc => ?_⟩, hwithin⟩
  · simpa [harmed, Timer.millis] using hecho
  · simpa [harmed, Timer.millis] using hwatchdog
  · refine (hsend (b, f) (List.mem_of_getElem? (i := i) ?_)).resolve_left hpc
    rw [List.getElem?_zip_eq_some]
    exact ⟨hb, hf⟩

/-- A heartbeat is heard, echoed five milliseconds later, and no other heard for ten. -/
def silentRun : List (Option (Event compactJson)) :=
  echoedRun.map some ++ List.replicate 5 none ++
    (.echoFires :: List.replicate 7 (.beat 1)).map some ++ List.replicate 10 none

theorem silence_found_out_silentRun : ∃ c, (timed compactJson).run
      { state := small [], marks := ({}, none) } silentRun = some c ∧ c.state.isOpen = true ∧
    c.now = 15 ∧ c.now ≤ 0 + 3 * 5 * 1 + 2 * 1 + 1 := by
  have hrun : ((timed compactJson).run { state := small [], marks := ({}, none) } silentRun).any
      (fun c => decide (c.state.isOpen = true ∧ c.now = 15 ∧ c.marks.2 = some 0) &&
        punctual ⟨1, 1, 1, 0, 0⟩ 5 c (none : Option (Event compactJson))) = true := by decide +kernel
  obtain ⟨c, hs, hend⟩ := Machine.exists_of_run hrun
  obtain ⟨hstate, hin⟩ := Bool.and_eq_true_iff.mp hend
  obtain ⟨hopen, hnow, hlast⟩ := of_decide_eq_true hstate
  have hreach : (timed compactJson).ReachableBy (Punctual ⟨1, 1, 1, 0, 0⟩ 5) c :=
    Machine.reachableBy_of_run (punctual ⟨1, 1, 1, 0, 0⟩ 5)
      (fun c e h => ⟨fun _ => (punctual_iff c e h).1, (punctual_iff c e h).2⟩)
      ⟨init_small compactJson [], rfl, rfl⟩ (by decide +kernel) hs
  exact ⟨c, hs, hopen, hnow, silence_found_out hreach hopen (punctual_iff c none hin).1 hlast⟩

end Session

end Vcmp
