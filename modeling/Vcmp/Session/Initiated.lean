import Vcmp.Session.Flow
import Vcmp.Session.Heartbeat
/-!
# A heartbeat that was initiated

A call of `send_heartbeat` that has returned has queued its frame, or its
session is closed. What it has done by then can be read off the place it
is at.
-/

namespace Vcmp

namespace Session

variable {J : JsonText} {s s' : Session} {e : Event J} {i : ℕ} {b : Beat}

/-- The frame of the call `i` was accepted. -/
def Beaten (s : Session) (i : ℕ) (b : Beat) : Prop :=
  ⟨true, (Frame.heartbeat b.interval).serialize, .beat i⟩ ∈ s.accepted

/-- **What a call of `send_heartbeat` has done by where it is.** -/
structure Beats (s : Session) (i : ℕ) (b : Beat) : Prop where
  sending : ∀ q, b.pc = .sending q → q.text = (Frame.heartbeat b.interval).serialize ∧
    q.control = true
  installing : b.pc = .installing → Beaten s i b
  done : b.pc = .done → Beaten s i b ∨ s.isOpen = false

/-- What was accepted stays accepted, and what is closed stays closed. -/
theorem Beats.later (h : Beats s i b) (hgrows : s.accepted <+: s'.accepted)
    (hopen : s.isOpen = false → s'.isOpen = false) : Beats s' i b where
  sending := h.sending
  installing hpc := hgrows.subset (h.installing hpc)
  done hpc := (h.done hpc).imp (fun hb => hgrows.subset hb) hopen

/-- A beat at the place it comes to. -/
theorem beats_of_early (hsending : ∀ q, b.pc ≠ .sending q) (hinst : b.pc ≠ .installing)
    (hdone : b.pc ≠ .done) : Beats s i b :=
  ⟨fun q hpc => absurd hpc (hsending q), fun hpc => absurd hpc hinst, fun hpc => absurd hpc hdone⟩

theorem BeatStep.beats (h : BeatStep s i b s') (hb : s.beats[i]? = some b) (hbeats : Beats s i b) :
    ∃ c : Beat, s'.beats[i]? = some c ∧ c.interval = b.interval ∧ (b.pc ≠ .done) ∧ Beats s' i c := by
  have here : ∀ c : Beat, (s.beats.set i c)[i]? = some c := fun c => getElem?_set_self' hb
  cases h with
  | notOpen hpc hclosed =>
    exact ⟨_, here _, rfl, by rw [hpc]; simp, fun q hq => (by cases hq), fun hq => (by cases hq),
      fun _ => .inr hclosed⟩
  | checked hpc =>
    exact ⟨_, here _, rfl, by rw [hpc]; simp, beats_of_early (by simp) (by simp) (by simp)⟩
  | arms hpc =>
    refine ⟨_, here _, rfl, by rw [hpc]; simp, fun q hq => ?_, fun hq => (by cases hq),
      fun hq => (by cases hq)⟩
    obtain rfl := BeatPc.sending.inj hq
    exact ⟨rfl, rfl⟩
  | @enqueues q s₁ r hpc he =>
    obtain ⟨htext, hcontrol⟩ := hbeats.sending q hpc
    have hset : (s₁.setBeat i (b.enqueued r)).beats[i]? = some (b.enqueued r) := by
      obtain ⟨_, _, _, _, _, rfl⟩ := he.frame
      exact here _
    refine ⟨_, hset, rfl, by rw [hpc]; simp, ?_⟩
    cases he with
    | checked | granted | admitted =>
      refine ⟨fun q' hq => ?_, fun hq => (by cases hq), fun hq => (by cases hq)⟩
      obtain rfl := BeatPc.sending.inj hq
      exact ⟨htext, hcontrol⟩
    | accepted =>
      refine ⟨fun q' hq => (by cases hq), fun _ => ?_, fun hq => (by cases hq)⟩
      refine List.mem_append.mpr (.inr (List.mem_singleton.mpr ?_))
      rw [hcontrol, htext]
      rfl
    | _ => exact beats_of_early (by simp [Beat.enqueued]) (by simp [Beat.enqueued]) (by simp [Beat.enqueued])
  | closes hpc =>
    exact ⟨_, here _, rfl, by rw [hpc]; simp, fun q hq => (by cases hq), fun hq => (by cases hq),
      fun _ => .inr rfl⟩
  | installs hpc =>
    exact ⟨_, here _, rfl, by rw [hpc]; simp, fun q hq => (by cases hq), fun hq => (by cases hq),
      fun _ => .inl (hbeats.installing hpc)⟩

/-- A step of one call leaves the others. -/
theorem BeatStep.others (h : BeatStep s i b s') {j : ℕ} (hij : i ≠ j) : s'.beats[j]? = s.beats[j]? := by
  have hset : ∀ c : Beat, (s.beats.set i c)[j]? = s.beats[j]? := fun c => List.getElem?_set_ne hij
  cases h with
  | enqueues hpc he =>
    obtain ⟨_, _, _, _, _, rfl⟩ := he.frame
    exact hset _
  | _ => exact hset _

/-- **What a step makes of a call of `send_heartbeat`.** -/
theorem Step.beat_next (h : Step J s e s') (hb : s.beats[i]? = some b) (hbeats : Beats s i b) :
    ∃ c : Beat, s'.beats[i]? = some c ∧ c.interval = b.interval ∧
      (b.pc = .done → c.pc = .done) ∧ Beats s' i c := by
  have hgrows : s.accepted <+: s'.accepted := h.flow.grows.1
  have hopen : s.isOpen = false → s'.isOpen = false := by
    intro hno
    cases hs' : s'.isOpen with
    | false => rfl
    | true => exact (h.isOpen hs').symm.trans hno
  have stays : s'.beats[i]? = s.beats[i]? → ∃ c : Beat, s'.beats[i]? = some c ∧
      c.interval = b.interval ∧ (b.pc = .done → c.pc = .done) ∧ Beats s' i c :=
    fun hsame => ⟨b, hsame.trans hb, rfl, fun hpc => hpc, hbeats.later hgrows hopen⟩
  have concat : ∀ {c : Beat}, s'.beats = s.beats ++ [c] → s'.beats[i]? = s.beats[i]? := by
    intro c hc
    rw [hc, getElem?_append_some hb, hb]
  cases h.heart with
  | quiet _ _ hsame => exact stays (by rw [hsame])
  | initiates hs' => exact stays (concat (by rw [hs']))
  | echoes _ hs' => exact stays (concat (by rw [hs']))
  | expects _ _ hs' => exact stays (by rw [hs'])
  | fires _ hs' => exact stays (by rw [hs']; rfl)
  | accepts _ _ _ _ hs' => exact stays (by rw [hs']; rfl)
  | takes _ hs' => exact stays (by rw [hs'])
  | @beat j c hc hstep =>
    by_cases hji : j = i
    · subst hji
      obtain rfl := Option.some.inj (hb.symm.trans hc)
      obtain ⟨c, hc, hinterval, hnot, hafter⟩ := hstep.beats hb hbeats
      exact ⟨c, hc, hinterval, fun hdone => absurd hdone hnot, hafter⟩
    · exact stays (hstep.others hji)

/-- A call that is new. -/
theorem Step.beat_back (h : Step J s e s') {c : Beat} (hc : s'.beats[i]? = some c) :
    (∃ b, s.beats[i]? = some b) ∨ c.pc = .start := by
  have concat : ∀ {n : ℕ}, s'.beats = s.beats ++ [{ interval := n }] →
      (∃ b, s.beats[i]? = some b) ∨ c.pc = .start := by
    intro n hn
    rw [hn] at hc
    rcases getElem?_concat_cases hc with ⟨-, rfl⟩ | hold
    · exact .inr rfl
    · exact .inl ⟨c, hold⟩
  cases h.heart with
  | quiet _ _ hsame => exact .inl ⟨c, hsame ▸ hc⟩
  | initiates hs' => exact concat (by rw [hs'])
  | echoes _ hs' => exact concat (by rw [hs'])
  | expects _ _ hs' => exact .inl ⟨c, by rw [hs'] at hc; exact hc⟩
  | fires _ hs' => exact .inl ⟨c, by rw [hs'] at hc; exact hc⟩
  | accepts _ _ _ _ hs' => exact .inl ⟨c, by rw [hs'] at hc; exact hc⟩
  | takes _ hs' => exact .inl ⟨c, by rw [hs'] at hc; exact hc⟩
  | @beat j b hb hstep =>
    by_cases hji : j = i
    · exact .inl ⟨b, hji ▸ hb⟩
    · exact .inl ⟨c, (hstep.others hji).symm.trans hc⟩

/-- **A heartbeat that was initiated was queued, or its session is closed.** -/
theorem beats_of_reachable (h : (machine J).Reachable s) (hb : s.beats[i]? = some b) : Beats s i b := by
  refine h.invariant (P := fun s => ∀ i b, s.beats[i]? = some b → Beats s i b) ?_ ?_ i b hb
  · rintro s ⟨id, limits, handlers, budget, elsewhere, rfl⟩ i b hb
    cases hb
  · intro s e s' _ hn ih i c hc
    have hstep := step_of_next hn
    rcases hstep.beat_back hc with ⟨b, hb⟩ | hstart
    · obtain ⟨c', hc', -, -, hbeats⟩ := hstep.beat_next hb (ih i b hb)
      obtain rfl := Option.some.inj (hc.symm.trans hc')
      exact hbeats
    · exact beats_of_early (by simp [hstart]) (by simp [hstart]) (by simp [hstart])

end Session

end Vcmp
