import Vcmp.Link.Flight
import Vcmp.Session.Pulse
/-!
# Whose turn it is

One side at a time holds the heartbeat: it has heard the other and its
echo timer runs, or it sends its own, or its own is in flight. The other
side waits, with a watchdog that is not due before the turn must be over.
A turn is passed on by a heartbeat that is heard, and the next one is over
before the watchdog the last one left.
-/

namespace Vcmp

namespace Pace

/-- What an exchange of heartbeats may take beyond its interval. -/
def slack (P : Pace) : ℕ := 2 * P.transport + P.timer + P.send

/-- What a turn may take, from the heartbeat heard to its own being heard. -/
def turn (P : Pace) (n : ℕ) : ℕ := n * P.perMilli + P.timer + P.send + P.transport

end Pace

open Session

namespace Link

variable {J : JsonText} {P : Pace} {x x' y y' : Session} {mx mx' my my' : Marks} {e : Event J}
  {n now D D' lead lead' t t' : ℕ}

/-- **Nothing of a side's takes longer than it may**: its echo timer, its calls
of `send_heartbeat`, and the heartbeats in flight from it. -/
structure InTime (P : Pace) (now : ℕ) (x y : Session) (m : Marks) : Prop where
  echo : ∀ n, x.heartbeat.echo = .armed n → now ≤ m.echo + n * P.perMilli + P.timer
  send : ∀ (i : ℕ) (b : Beat) (f : ℕ), x.beats[i]? = some b → m.begun[i]? = some f →
    b.pc ≠ .done → now ≤ f + P.send
  flight : ∀ p q : ℕ, InFlight x y p → m.queued[p]? = some q → now ≤ q + P.transport

/-- **A side that waits for a heartbeat**: its own are queued, by calls begun
`lead` before `t`, and its watchdog is not due by the deadline. -/
structure Waits (P : Pace) (n : ℕ) (s : Session) (m : Marks) (deadline lead t : ℕ) : Prop where
  awaiting : s.heartbeat.awaiting = true
  echo : ∀ k, s.heartbeat.echo ≠ .armed k
  sent : ∀ (i : ℕ) (b : Beat), s.beats[i]? = some b → b.pc ≠ .done →
    b.pc = .installing ∧ b.interval = n ∧ ∃ f, m.begun[i]? = some f ∧ f + lead ≤ t
  watchdog : ∀ k, s.heartbeat.watchdog = .armed k → deadline < m.watchdog + k * P.perMilli

namespace Waits

/-- An earlier deadline is met as well. -/
theorem mono (h : Waits P n x mx D lead t) (hD : D' ≤ D)
    (ht : ∀ f, f + lead ≤ t → f + lead' ≤ t') : Waits P n x mx D' lead' t' := by
  refine ⟨h.awaiting, h.echo, fun i b hb hpc => ?_, fun k hk => ?_⟩
  · obtain ⟨hinstalling, hn, f, hf, hle⟩ := h.sent i b hb hpc
    exact ⟨hinstalling, hn, f, hf, ht f hle⟩
  · have hlt := h.watchdog k hk
    omega

/-- Where nothing was sent, the interval is any. -/
theorem of_none {n' : ℕ} (h : Waits P n x mx D lead t) (hnone : x.beats = []) :
    Waits P n' x mx D lead' t' :=
  ⟨h.awaiting, h.echo, fun i b hb => by simp [hnone] at hb, h.watchdog⟩

/-- **A side that waits goes on waiting** while it hears no heartbeat. -/
theorem step (h : Waits P n y my D lead t) (hstep : PulseStep now y my y' my' e)
    (hstart : ∀ millis, e ≠ .initiateHeartbeat millis)
    (hexpect : ∀ timeout, e = .expectHeartbeat timeout → y.heartbeatsReceived = 0 →
      D < now + timeout * P.perMilli)
    (hinstall : y.beats ≠ [] → D < now + doubled n * P.perMilli)
    (hno : ∀ text, e = .receive text → ¬ HeartbeatText text) :
    Waits P n y' my' D lead t ∧ ¬ QueuesHeartbeat y y' ∧
      y'.heartbeatsReceived = y.heartbeatsReceived ∧ (y'.beats = [] ↔ y.beats = []) := by
  cases hstep with
  | quiet hheart hcount hbeats hmarks hqueue =>
    obtain ⟨hbegun, hwatch, -⟩ := hmarks
    refine ⟨⟨?_, ?_, ?_, ?_⟩, hqueue, hcount, by rw [hbeats]⟩
    · rw [hheart]; exact h.awaiting
    · rw [hheart]; exact h.echo
    · rw [hbeats, hbegun]; exact h.sent
    · rw [hheart, hwatch]; exact h.watchdog
  | initiates => exact absurd rfl (hstart _)
  | echoes harmed => exact absurd harmed (h.echo _)
  | moves hb hpc =>
    have hnot : ∀ pc : BeatPc, pc.unsent = true → pc ≠ .done ∧ pc ≠ .installing := by
      intro pc hpc
      constructor <;> rintro rfl <;> cases hpc
    obtain ⟨hdone, hinstalling⟩ := hnot _ hpc
    exact absurd (h.sent _ _ hb hdone).1 hinstalling
  | queues hb hpc =>
    have hinstalling := (h.sent _ _ hb (by rw [hpc]; simp)).1
    rw [hpc] at hinstalling
    cases hinstalling
  | @installs i b hb hpc hheart hcount hbeats hmarks hqueue =>
    obtain ⟨hbegun, hwatch, -⟩ := hmarks
    have hne : y.beats ≠ [] := List.ne_nil_of_mem (List.mem_of_getElem? hb)
    refine ⟨⟨?_, ?_, ?_, ?_⟩, hqueue, hcount, by simp [hbeats]⟩
    · rw [hheart]; exact h.awaiting
    · rw [hheart]; exact h.echo
    · intro j c hc hpcc
      rw [hbeats] at hc
      rw [hbegun]
      rcases getElem?_set_cases hc with ⟨rfl, rfl⟩ | ⟨-, hold⟩
      · exact absurd rfl hpcc
      · exact h.sent j c hold hpcc
    · intro k hk
      rw [hheart] at hk
      cases hk
      rw [hwatch, (h.sent i b hb (by rw [hpc]; simp)).2.1]
      exact hinstall hne
  | expects hnone hheart hcount hbeats hmarks hqueue =>
    obtain ⟨hbegun, hwatch, -⟩ := hmarks
    refine ⟨⟨?_, ?_, ?_, ?_⟩, hqueue, hcount, by rw [hbeats]⟩
    · rw [hheart]; exact h.awaiting
    · rw [hheart]; exact h.echo
    · rw [hbeats, hbegun]; exact h.sent
    · intro k hk
      rw [hheart] at hk
      cases hk
      rw [hwatch]
      exact hexpect _ rfl hnone
  | hears hparse hpos => exact absurd ⟨_, hparse, by omega⟩ (hno _ rfl)

end Waits

/-- **The first side's turn**, and how far it is, while the other side waits. -/
inductive Turn (P : Pace) (n now : ℕ) (x : Session) (mx : Marks) (y : Session) (my : Marks) : Prop
  /-- It has heard the other side, and its echo timer runs. -/
  | rests (hecho : x.heartbeat.echo = .armed n) (hstamp : mx.echo ≤ now)
      (hwatchdog : ∀ k, x.heartbeat.watchdog ≠ .armed k) (hdone : ∀ b ∈ x.beats, b.pc = .done)
      (hflight : ∀ p, ¬ InFlight x y p) (hback : ∀ p, ¬ InFlight y x p) (hbeats : y.beats ≠ [])
      (hwaits : Waits P n y my (mx.echo + P.turn n) 0 mx.echo)
  /-- A call of `send_heartbeat` has not queued its frame. -/
  | sends {i f : ℕ} {b : Beat} (hb : x.beats[i]? = some b) (hpc : b.pc.unsent = true)
      (hinterval : b.interval = n) (hf : mx.begun[i]? = some f) (hstamp : f ≤ now)
      (hdone : ∀ (j : ℕ) (c : Beat), x.beats[j]? = some c → j ≠ i → c.pc = .done)
      (hawaiting : ∀ q, b.pc = .sending q → x.heartbeat.awaiting = true)
      (hecho : ∀ k, x.heartbeat.echo ≠ .armed k) (hwatchdog : ∀ k, x.heartbeat.watchdog ≠ .armed k)
      (hflight : ∀ p, ¬ InFlight x y p) (hback : ∀ p, ¬ InFlight y x p)
      (hwaits : Waits P n y my (f + P.send + P.transport) (n * P.perMilli) f)
  /-- Its heartbeat is in flight, and it waits as well. -/
  | flies {p q : ℕ} {a : Accepted} (hacc : x.accepted[p]? = some a)
      (hparse : Frame.parse a.text = .ok (.heartbeat n)) (hq : mx.queued[p]? = some q)
      (hstamp : q ≤ now) (hbeats : x.beats ≠ []) (hflight : ∀ r, InFlight x y r ↔ r = p)
      (hback : ∀ p, ¬ InFlight y x p) (hself : Waits P n x mx (q + P.transport + P.turn n) 0 q)
      (hwaits : Waits P n y my (q + P.transport) (n * P.perMilli) q)

variable {ok : Session → Event J → Prop}

namespace Turn

theorem back (h : Turn P n now x mx y my) : ∀ p, ¬ InFlight y x p := by
  cases h <;> assumption

/-- Time passes. -/
theorem later (h : Turn P n now x mx y my) : Turn P n (now + 1) x mx y my := by
  cases h with
  | rests hecho hstamp hwatchdog hdone hflight hback hbeats hwaits =>
    exact .rests hecho (by omega) hwatchdog hdone hflight hback hbeats hwaits
  | sends hb hpc hinterval hf hstamp hdone hawaiting hecho hwatchdog hflight hback hwaits =>
    exact .sends hb hpc hinterval hf (by omega) hdone hawaiting hecho hwatchdog hflight hback hwaits
  | flies hacc hparse hq hstamp hbeats hflight hback hself hwaits =>
    exact .flies hacc hparse hq (by omega) hbeats hflight hback hself hwaits

/-- **No watchdog is due** while either side is in time. -/
theorem watchdogs (h : Turn P n now x mx y my) (hin : InTime P now x y mx) :
    (∀ k, x.heartbeat.watchdog = .armed k → now < mx.watchdog + k * P.perMilli) ∧
      ∀ k, y.heartbeat.watchdog = .armed k → now < my.watchdog + k * P.perMilli := by
  cases h with
  | rests hecho hstamp hwatchdog hdone hflight hback hbeats hwaits =>
    refine ⟨fun k hk => absurd hk (hwatchdog k), fun k hk => ?_⟩
    have hdue := hin.echo n hecho
    have hlt := hwaits.watchdog k hk
    unfold Pace.turn at hlt
    omega
  | @sends i f b hb hpc hinterval hf hstamp hdone hawaiting hecho hwatchdog hflight hback hwaits =>
    refine ⟨fun k hk => absurd hk (hwatchdog k), fun k hk => ?_⟩
    have hdue := hin.send i b f hb hf (by rintro hpc'; rw [hpc'] at hpc; cases hpc)
    have hlt := hwaits.watchdog k hk
    omega
  | @flies p q acc hacc hparse hq hstamp hbeats hflight hback hself hwaits =>
    have hdue := hin.flight p q ((hflight p).mpr rfl) hq
    refine ⟨fun k hk => ?_, fun k hk => ?_⟩
    · have hlt := hself.watchdog k hk
      omega
    · have hlt := hwaits.watchdog k hk
      omega

/-- A text the holder hears is no heartbeat. -/
theorem hears_none (hr : ReachableBy J ok x y) (hn : (machine J).next x e = some x')
    (hdel : x.delivers y e = true) (hback : ∀ p, ¬ InFlight y x p) (text : String)
    (he : e = .receive text) : ¬ HeartbeatText text := by
  intro htext
  obtain ⟨q, -, -, -, hflight, -⟩ := inFlight_to_hears hr.swap hn hdel he htext
  exact hback q hflight

/-- **A step of the side whose turn it is** leaves it its turn. -/
theorem holder (h : Turn P n now x mx y my) (hr : ReachableBy J ok x y)
    (hn : (machine J).next x e = some x') (hdel : x.delivers y e = true)
    (hpulse : PulseStep now x mx x' (mark now mx x e x') e) (hfit : BeatsFit x)
    (hmarked : Marked x mx) (hin : InTime P now x y mx) (hslack : P.slack < n * P.perMilli)
    (hwide : 2 * n < u64Bound)
    (hstart : ∀ millis, e ≠ .initiateHeartbeat millis)
    (hexpect : ∀ timeout, e = .expectHeartbeat timeout → x.heartbeatsReceived ≠ 0)
    (hdue : ∀ k, e = .echoFires → x.heartbeat.echo = .armed k → mx.echo + k * P.perMilli ≤ now) :
    Turn P n now x' (mark now mx x e x') y my := by
  have hno := hears_none hr hn hdel h.back
  have hback : ∀ p, ¬ InFlight y x' p := fun p hp => h.back p ((inFlight_to_next hn hdel hno).mp hp)
  have hsame : ¬ QueuesHeartbeat x x' → ∀ p, InFlight x' y p ↔ InFlight x y p :=
    fun hqueue p => inFlight_of_next hr hn hqueue
  cases h with
  | rests hecho hstamp hwatchdog hdone hflight _ hbeats hwaits =>
    cases hpulse with
    | quiet hheart hcount hsamebeats hmarks hqueue =>
      obtain ⟨-, -, hstampecho⟩ := hmarks
      refine .rests (by rw [hheart]; exact hecho) (by rw [hstampecho]; exact hstamp)
        (by rw [hheart]; exact hwatchdog) (by rw [hsamebeats]; exact hdone)
        (fun p hp => hflight p ((hsame hqueue p).mp hp)) hback hbeats (by rw [hstampecho]; exact hwaits)
    | initiates => exact absurd rfl (hstart _)
    | @echoes k harmed hheart hcount hnewbeats hmarks hqueue =>
      -- the interval is over, and a call begins
      obtain rfl : k = n := by
        rw [hecho] at harmed
        cases harmed
        rfl
      obtain ⟨hbegun, -, -⟩ := hmarks
      have hlow := hdue k rfl hecho
      have hhigh := hin.echo k hecho
      refine .sends (i := x.beats.length) (f := now) (b := { interval := k }) (by simp [hnewbeats]) rfl
        rfl (by rw [hbegun, ← hmarked.begun]; simp) (le_refl _) (fun j c hc hj => ?_)
        (fun q hq => by cases hq) (fun j => by rw [hheart]; simp) (by rw [hheart]; exact hwatchdog)
        (fun p hp => hflight p ((hsame hqueue p).mp hp)) hback
        (hwaits.mono (by unfold Pace.turn; omega) (fun f hf => by omega))
      rw [hnewbeats] at hc
      rcases getElem?_concat_cases hc with ⟨hlast, -⟩ | hold
      · exact absurd hlast hj
      · exact hdone c (List.mem_of_getElem? hold)
    | moves hb hpc =>
      rw [hdone _ (List.mem_of_getElem? hb)] at hpc
      cases hpc
    | queues hb hpc | installs hb hpc =>
      rw [hdone _ (List.mem_of_getElem? hb)] at hpc
      cases hpc
    | expects hnone => exact absurd hnone (hexpect _ rfl)
    | hears hparse hpos => exact absurd ⟨_, hparse, by omega⟩ (hno _ rfl)
  | @sends i f b hb hpc hinterval hf hstamp hdone hawaiting hecho hwatchdog hflight _ hwaits =>
    have his : ∀ {j : ℕ} {c : Beat}, x.beats[j]? = some c → c.pc ≠ .done → j = i ∧ c = b := by
      intro j c hc hpcc
      obtain rfl : j = i := by
        by_contra hne
        exact hpcc (hdone j c hc hne)
      exact ⟨rfl, Option.some.inj (hc.symm.trans hb)⟩
    have hothers : ∀ {b' : Beat} (j : ℕ) (c : Beat), (x.beats.set i b')[j]? = some c → j ≠ i →
        c.pc = .done := by
      intro b' j c hc hj
      rcases getElem?_set_cases hc with ⟨rfl, -⟩ | ⟨-, hold⟩
      · exact absurd rfl hj
      · exact hdone j c hold hj
    cases hpulse with
    | quiet hheart hcount hsamebeats hmarks hqueue =>
      obtain ⟨hbegun, -, -⟩ := hmarks
      exact .sends (by rw [hsamebeats]; exact hb) hpc hinterval (by rw [hbegun]; exact hf) hstamp
        (by rw [hsamebeats]; exact hdone) (by rw [hheart]; exact hawaiting)
        (by rw [hheart]; exact hecho) (by rw [hheart]; exact hwatchdog)
        (fun p hp => hflight p ((hsame hqueue p).mp hp)) hback hwaits
    | initiates => exact absurd rfl (hstart _)
    | echoes harmed => exact absurd harmed (hecho _)
    | @moves j c pc hc hpcc hpc' hheart harms hcount hset hmarks hqueue =>
      obtain ⟨rfl, rfl⟩ := his hc (by rintro hdone'; rw [hdone'] at hpcc; cases hpcc)
      obtain ⟨hbegun, -, -⟩ := hmarks
      have hsuch : x'.heartbeat.echo = x.heartbeat.echo ∧ x'.heartbeat.watchdog = x.heartbeat.watchdog ∧
          (x.heartbeat.awaiting = true → x'.heartbeat.awaiting = true) := by
        rcases hheart with hheart | hheart <;> rw [hheart] <;> simp
      refine .sends (i := j) (b := { c with pc := pc }) (by rw [hset]; exact getElem?_set_self' hc) hpc'
        hinterval (by rw [hbegun]; exact hf) hstamp (by rw [hset]; exact hothers) (fun q hq => ?_)
        (by rw [hsuch.1]; exact hecho) (by rw [hsuch.2.1]; exact hwatchdog)
        (fun p hp => hflight p ((hsame hqueue p).mp hp)) hback hwaits
      rcases harms q hq with ⟨q', hq'⟩ | hset'
      · exact hsuch.2.2 (hawaiting q' hq')
      · exact hset'
    | @queues j c q hc hpcc hheart hcount hset hmarks hnew =>
      obtain ⟨rfl, rfl⟩ := his hc (by rw [hpcc]; simp)
      obtain ⟨hbegun, hwatch, -⟩ := hmarks
      have hmem := List.mem_of_getElem? hc
      obtain ⟨hpos, hlt⟩ := hfit.intervals c hmem
      have htext := hfit.sending c hmem q hpcc
      have hheartbeat : HeartbeatText q.text := htext ▸ heartbeatText_serialize hpos hlt
      have hsent := hin.send j c f hc hf (by rw [hpcc]; simp)
      refine .flies (p := x.accepted.length) (q := now) (a := ⟨q.control, q.text, .beat j⟩)
        (by rw [hnew]; simp) ?_ (by simp [mark, hnew, ← hmarked.queued]) (le_refl _)
        (by rw [hset]; exact List.ne_nil_of_mem (List.mem_of_getElem? (getElem?_set_self' hc)))
        (fun r => ?_) hback ⟨?_, ?_, ?_, ?_⟩ (hwaits.mono (by omega) (fun f hf => by omega))
      · rw [htext, hinterval]
        exact Frame.parse_hbt (hinterval ▸ hlt)
      · rw [inFlight_of_queues hr hn hnew hheartbeat, or_iff_right (hflight r)]
      · rw [hheart]; exact hawaiting q hpcc
      · rw [hheart]; exact hecho
      · intro k d hd hpcd
        rw [hset] at hd
        rw [hbegun]
        rcases getElem?_set_cases hd with ⟨rfl, rfl⟩ | ⟨hne, hold⟩
        · exact ⟨rfl, hinterval, f, hf, by omega⟩
        · exact absurd (hdone k d hold hne) hpcd
      · intro k hk
        rw [hheart] at hk
        exact absurd hk (hwatchdog k)
    | installs hc hpcc =>
      obtain ⟨rfl, rfl⟩ := his hc (by rw [hpcc]; simp)
      rw [hpcc] at hpc
      cases hpc
    | expects hnone => exact absurd hnone (hexpect _ rfl)
    | hears hparse hpos => exact absurd ⟨_, hparse, by omega⟩ (hno _ rfl)
  | @flies p q acc hacc hparse hq hstamp hbeats hflight _ hself hwaits =>
    obtain ⟨hself', hqueue, -, hnone⟩ := hself.step hpulse hstart
      (fun timeout he hzero => absurd hzero (hexpect timeout he))
      (fun _ => by
        unfold Pace.slack at hslack
        unfold Pace.turn
        rw [doubled_eq hwide, Nat.mul_assoc]
        omega) hno
    exact .flies (getElem?_of_extends (step_of_next hn).flow.grows.1 hacc) hparse
      (by simp only [mark]; exact getElem?_append_some hq) hstamp (fun h => hbeats (hnone.mp h))
      (fun r => (hsame hqueue r).trans (hflight r)) hback hself' hwaits

/-- A heartbeat that is heard passes the turn on. -/
theorem passes (h : Turn P n now x mx y my) (hr : ReachableBy J ok x y)
    (hn : (machine J).next y e = some y') (hdel : y.delivers x e = true)
    (hpulse : PulseStep now y my y' my' e) {text : String} (he : e = .receive text)
    (hheart : HeartbeatText text) (hx : InTime P now x y mx) (hy : InTime P now y x my)
    (hslack : P.slack < n * P.perMilli) : Turn P n now y' my' x mx ∧ y'.heartbeatsReceived ≠ 0 := by
  obtain ⟨place, acc', hacc', htext, hmem, hheard⟩ := inFlight_to_hears hr hn hdel he hheart
  cases h with
  | rests _ _ _ _ hflight => exact absurd hmem (hflight place)
  | sends _ _ _ _ _ _ _ _ _ hflight => exact absurd hmem (hflight place)
  | @flies p q acc hacc hparse hq hstamp hbeats hflight hback hself hwaits =>
    obtain rfl : place = p := (hflight place).mp hmem
    obtain rfl : acc' = acc := Option.some.inj (hacc'.symm.trans hacc)
    have hpos : 1 ≤ n := by
      rcases Nat.eq_zero_or_pos n with rfl | hpos
      · omega
      · exact hpos
    obtain ⟨hbeat, hcount, hsame, hecho, hqueue⟩ :=
      hpulse.heard he (htext ▸ hparse) hpos hwaits.awaiting
    have harrived := hx.flight place q ((hflight place).mpr rfl) hq
    refine ⟨.rests (by rw [hbeat]) (by rw [hecho]) (by rw [hbeat]; simp) ?_ (fun r hr' => ?_)
      (fun r hr' => ?_) hbeats (hself.mono (by omega) (fun f hf => by omega)), by omega⟩
    · -- its own last call has ended, since the interval of the other's heartbeat has passed
      rw [hsame]
      intro b hb
      obtain ⟨i, hi⟩ := List.getElem?_of_mem hb
      by_contra hpc
      obtain ⟨-, -, f, hf, hle⟩ := hwaits.sent i b hi hpc
      have hlate := hy.send i b f hi hf hpc
      unfold Pace.slack at hslack
      omega
    · exact hback r ((inFlight_of_next hr.swap hn hqueue).mp hr')
    · obtain ⟨hold, hne⟩ := (hheard r).mp hr'
      exact hne ((hflight r).mp hold)

/-- **A step of the side that waits** leaves the other its turn, or takes the next. -/
theorem other (h : Turn P n now x mx y my) (hr : ReachableBy J ok x y)
    (hn : (machine J).next y e = some y') (hdel : y.delivers x e = true)
    (hpulse : PulseStep now y my y' my' e) (hx : InTime P now x y mx) (hy : InTime P now y x my)
    (hslack : P.slack < n * P.perMilli) (hwide : 2 * n < u64Bound)
    (hstart : ∀ millis, e ≠ .initiateHeartbeat millis)
    (hexpect : ∀ timeout, e = .expectHeartbeat timeout → y.heartbeatsReceived = 0 →
      y.beats = [] ∧ P.send + P.transport < timeout * P.perMilli) :
    (Turn P n now x mx y' my' ∧ y'.heartbeatsReceived = y.heartbeatsReceived ∧
        (y'.beats = [] ↔ y.beats = [])) ∨
      (Turn P n now y' my' x mx ∧ y'.heartbeatsReceived ≠ 0) := by
  by_cases hheard : ∃ text, e = .receive text ∧ HeartbeatText text
  · obtain ⟨text, he, hheart⟩ := hheard
    exact .inr (h.passes hr hn hdel hpulse he hheart hx hy hslack)
  push Not at hheard
  have hflies : ∀ p, InFlight x y' p ↔ InFlight x y p := fun p => inFlight_to_next hn hdel hheard
  have hquiet : ¬ QueuesHeartbeat y y' → (∀ p, ¬ InFlight y x p) → ∀ p, ¬ InFlight y' x p :=
    fun hqueue hback p hp => hback p ((inFlight_of_next hr.swap hn hqueue).mp hp)
  unfold Pace.slack at hslack
  cases h with
  | rests hecho hstamp hwatchdog hdone hflight hback hbeats hwaits =>
    obtain ⟨hwaits, hqueue, hcount, hnone⟩ := hwaits.step hpulse hstart
      (fun timeout he hzero => absurd (hexpect timeout he hzero).1 hbeats)
      (fun _ => by unfold Pace.turn; rw [doubled_eq hwide, Nat.mul_assoc]; omega) hheard
    exact .inl ⟨.rests hecho hstamp hwatchdog hdone (fun p hp => hflight p ((hflies p).mp hp))
      (hquiet hqueue hback) (fun h => hbeats (hnone.mp h)) hwaits, hcount, hnone⟩
  | sends hb hpc hinterval hf hstamp hdone hawaiting hecho hwatchdog hflight hback hwaits =>
    obtain ⟨hwaits, hqueue, hcount, hnone⟩ := hwaits.step hpulse hstart
      (fun timeout he hzero => by have := (hexpect timeout he hzero).2; omega)
      (fun _ => by rw [doubled_eq hwide, Nat.mul_assoc]; omega) hheard
    exact .inl ⟨.sends hb hpc hinterval hf hstamp hdone hawaiting hecho hwatchdog
      (fun p hp => hflight p ((hflies p).mp hp)) (hquiet hqueue hback) hwaits, hcount, hnone⟩
  | flies hacc hparse hq hstamp hbeats hflight hback hself hwaits =>
    obtain ⟨hwaits, hqueue, hcount, hnone⟩ := hwaits.step hpulse hstart
      (fun timeout he hzero => by have := (hexpect timeout he hzero).2; omega)
      (fun _ => by rw [doubled_eq hwide, Nat.mul_assoc]; omega) hheard
    exact .inl ⟨.flies hacc hparse hq hstamp hbeats (fun r => (hflies r).trans (hflight r))
      (hquiet hqueue hback) hself hwaits, hcount, hnone⟩

end Turn

/-! ## Before the first turn -/

/-- **No heartbeat was begun.** The second side may have a watchdog, which is
not due before the first heartbeat must be heard. -/
structure Idle (P : Pace) (x y : Session) (my : Marks) : Prop where
  none : x.beats = [] ∧ y.beats = []
  echo : ∀ k, x.heartbeat.echo ≠ .armed k
  watchdog : ∀ k, x.heartbeat.watchdog ≠ .armed k
  quiet : ∀ p, ¬ InFlight x y p ∧ ¬ InFlight y x p
  waits : Waits P 0 y my (P.start + P.send + P.transport) 0 0

namespace Idle

/-- **The first side's steps** leave it so, or begin the first turn. -/
theorem first (h : Idle P x y my) (hr : ReachableBy J ok x y) (hn : (machine J).next x e = some x')
    (hdel : x.delivers y e = true) (hpulse : PulseStep now x mx x' mx' e) (hmarked : Marked x mx)
    (hstart : now ≤ P.start) (hexpect : ∀ timeout, e ≠ .expectHeartbeat timeout) :
    Idle P x' y my ∨ ∃ millis, e = .initiateHeartbeat millis ∧
      Turn P (min millis (u64Bound - 1)) now x' mx' y my ∧ x'.beats ≠ [] := by
  have hno := Turn.hears_none hr hn hdel fun p => (h.quiet p).2
  have hback : ∀ p, ¬ InFlight y x' p :=
    fun p hp => (h.quiet p).2 ((inFlight_to_next hn hdel hno).mp hp)
  have hflight : ¬ QueuesHeartbeat x x' → ∀ p, ¬ InFlight x' y p :=
    fun hqueue p hp => (h.quiet p).1 ((inFlight_of_next hr hn hqueue).mp hp)
  have nobeat : ∀ {i : ℕ} {b : Beat}, x.beats[i]? ≠ some b := by simp [h.none.1]
  cases hpulse with
  | quiet hheart _ hbeats _ hqueue =>
    exact .inl ⟨⟨hbeats.trans h.none.1, h.none.2⟩, by rw [hheart]; exact h.echo,
      by rw [hheart]; exact h.watchdog, fun p => ⟨hflight hqueue p, hback p⟩, h.waits⟩
  | @initiates millis hheart hcount hbeats hmarks hqueue =>
    obtain ⟨hbegun, -, -⟩ := hmarks
    have hlength : mx.begun = [] := List.length_eq_zero_iff.mp (hmarked.begun.trans (by simp [h.none.1]))
    refine .inr ⟨millis, rfl, .sends (i := 0) (f := now) (b := { interval := min millis (u64Bound - 1) })
      (by simp [hbeats, h.none.1]) rfl rfl (by simp [hbegun, hlength]) (le_refl _)
      (fun j c hc hj => ?_) (fun q hq => by cases hq) (by rw [hheart]; exact h.echo)
      (by rw [hheart]; exact h.watchdog) (hflight hqueue) hback
      ((h.waits.mono (by omega) fun _ hf => hf).of_none h.none.2), by simp [hbeats]⟩
    rw [hbeats, h.none.1] at hc
    rcases getElem?_concat_cases hc with ⟨hlast, -⟩ | hold
    · exact absurd hlast hj
    · simp at hold
  | echoes harmed => exact absurd harmed (h.echo _)
  | moves hb | queues hb | installs hb => exact absurd hb nobeat
  | expects => exact absurd rfl (hexpect _)
  | hears hparse hpos => exact absurd ⟨_, hparse, by omega⟩ (hno _ rfl)

/-- **The second side's steps** leave it so. -/
theorem second (h : Idle P x y my) (hr : ReachableBy J ok x y) (hn : (machine J).next y e = some y')
    (hdel : y.delivers x e = true) (hpulse : PulseStep now y my y' my' e)
    (hstart : ∀ millis, e ≠ .initiateHeartbeat millis)
    (hexpect : ∀ timeout, e = .expectHeartbeat timeout →
      P.start + P.send + P.transport < timeout * P.perMilli) : Idle P x y' my' := by
  have hno := Turn.hears_none hr.swap hn hdel fun p => (h.quiet p).1
  obtain ⟨hwaits, hqueue, -, hnone⟩ := h.waits.step hpulse hstart
    (fun timeout he _ => by have := hexpect timeout he; omega) (fun hne => absurd h.none.2 hne) hno
  exact ⟨⟨h.none.1, hnone.mpr h.none.2⟩, h.echo, h.watchdog,
    fun p => ⟨fun hp => (h.quiet p).1 ((inFlight_to_next hn hdel hno).mp hp),
      fun hp => (h.quiet p).2 ((inFlight_of_next hr.swap hn hqueue).mp hp)⟩, hwaits⟩

end Idle

end Link

end Vcmp
