import Vcmp.Link.Model
import Vcmp.Session.Beats
/-!
# The heartbeat exchange never dies out

A heartbeat that one side has queued is not lost while both are open, and
when it is delivered the other side stirs: it starts its echo timer, or,
where it ignores the heartbeat, it is about to send one itself. So from
the first heartbeat on some side stirs or some heartbeat is undelivered.
-/

namespace Vcmp

open Session

namespace Link

variable {J : JsonText} {a a' b : Session} {e : Event J}

/-- A heartbeat one side has queued is not delivered to the other. -/
def Undelivered (b a : Session) : Prop :=
  ∃ p acc, b.accepted[p]? = some acc ∧ HeartbeatText acc.text ∧
    p ∉ b.written.take a.received.length

/-- **The exchange goes on.** -/
def GoesOn (a b : Session) : Prop :=
  Stirring a ∨ Stirring b ∨ Undelivered b a ∨ Undelivered a b

theorem GoesOn.symm (h : GoesOn a b) : GoesOn b a := by
  rcases h with h | h | h | h
  · exact .inr (.inl h)
  · exact .inl h
  · exact .inr (.inr (.inr h))
  · exact .inr (.inr (.inl h))

variable {ok : Session → Event J → Prop}

/-- No more is heard than was written. -/
theorem received_le (h : ReachableBy J ok a b) : a.received.length ≤ b.written.length := by
  by_contra hlt
  have hk : b.written.length < a.received.length := by omega
  have hwire := wireAt_of_received h (List.getElem?_eq_getElem hk)
  simp [wireAt] at hwire

/-- A heartbeat queued now is undelivered. -/
theorem undelivered_of_queues (hreach : (machine J).Reachable a)
    (hn : (machine J).next a e = some a') (h : QueuesHeartbeat a a') (b : Session) :
    Undelivered a' b := by
  obtain ⟨acc, hacc, htext⟩ := h
  refine ⟨a.accepted.length, acc, by simp [hacc], htext, fun hmem => ?_⟩
  exact fresh_of_accepts hreach (step_of_next hn).flow hacc (List.mem_of_mem_take hmem)

/-- What a side has queued stays undelivered while the other hears nothing. -/
theorem Undelivered.step_from (hab : ReachableBy J ok a b) (hn : (machine J).next a e = some a')
    (h : Undelivered a b) : Undelivered a' b := by
  obtain ⟨p, acc, hacc, htext, hp⟩ := h
  obtain ⟨haccepted, ⟨more, hmore⟩, -⟩ := (step_of_next hn).flow.grows
  have hle := received_le hab.swap
  refine ⟨p, acc, getElem?_of_extends haccepted hacc, htext, ?_⟩
  rw [← hmore, List.take_append_of_le_length hle]
  exact hp

/-- **A heartbeat is delivered, or it is undelivered still**, and the side
that hears it stirs. -/
theorem Undelivered.step_to (hfit : BeatsFit a) (hdel : a.delivers b e = true)
    (hn : (machine J).next a e = some a') (hopen : a'.isOpen = true) (h : Undelivered b a) :
    Undelivered b a' ∨ Stirring a' := by
  obtain ⟨p, acc, hacc, htext, hp⟩ := h
  rcases (step_of_next hn).hears with ⟨hsame, -⟩ | ⟨text, rfl, hstep⟩
  · exact .inl ⟨p, acc, hacc, htext, by rwa [hsame]⟩
  · by_cases hnow : b.written[a.received.length]? = some p
    · -- it is the text that is delivered
      have hwire : b.wireAt a.received.length = some acc.text := by
        unfold wireAt
        rw [hnow, Option.bind_some, hacc]
        rfl
      have hdel : b.wireAt a.received.length = some text := by simpa [delivers] using hdel
      rw [hwire, Option.some.injEq] at hdel
      exact .inr (stirring_of_receive hfit hstep (hdel ▸ htext) hopen)
    · refine .inl ⟨p, acc, hacc, htext, fun hmem => ?_⟩
      rw [hstep.received, List.length_append, List.length_singleton, List.take_add_one] at hmem
      rcases List.mem_append.mp hmem with hmem | hmem
      · exact hp hmem
      · cases hk : b.written[a.received.length]? with
        | none => simp [hk] at hmem
        | some q =>
          simp only [hk, Option.toList_some, List.mem_singleton] at hmem
          exact hnow (by rw [hk, hmem])

/-- A step of one side keeps the exchange going. -/
theorem GoesOn.step (hab : ReachableBy J Beating a b) (hdel : a.delivers b e = true)
    (hn : (machine J).next a e = some a') (hopen : a'.isOpen = true) (h : GoesOn a b) :
    GoesOn a' b := by
  have hreach := hab.left.reachable
  have hfit := beatsFit_of_reachable hab.left
  rcases h with hs | hs | hs | hs
  · rcases hs.step hreach hfit (step_of_next hn) hopen with hs | hq
    · exact .inl hs
    · exact .inr (.inr (.inr (undelivered_of_queues hreach hn hq b)))
  · exact .inr (.inl hs)
  · rcases hs.step_to hfit hdel hn hopen with hs | hs
    · exact .inr (.inr (.inl hs))
    · exact .inl hs
  · exact .inr (.inr (.inr (hs.step_from hab hn)))

/-- **The exchange goes on once it has begun**, while both sides are open. -/
theorem goesOn_of_reachable (h : ReachableBy J Beating a b) (ha : a.isOpen = true)
    (hb : b.isOpen = true) (hbegun : HasBeaten a ∨ HasBeaten b) : GoesOn a b := by
  have step : ∀ (a b : Session) (e : Event J) (a' : Session), ReachableBy J Beating a b →
      a.delivers b e = true → (machine J).next a e = some a' →
      (a.isOpen = true → b.isOpen = true → HasBeaten a ∨ HasBeaten b → GoesOn a b) →
      a'.isOpen = true → b.isOpen = true → HasBeaten a' ∨ HasBeaten b → GoesOn a' b := by
    intro a b e a' hab hdel hn ih ha' hb hbegun
    have hstep := step_of_next hn
    have ha := hstep.isOpen ha'
    have go : HasBeaten a ∨ HasBeaten b → GoesOn a' b := fun hbegun =>
      (ih ha hb hbegun).step hab hdel hn ha'
    rcases hbegun with hbegun | hbegun
    · rcases hbegun.back hstep with hbegun | hs | hq
      · exact go (.inl hbegun)
      · exact .inl hs
      · exact .inr (.inr (.inr (undelivered_of_queues hab.left.reachable hn hq b)))
    · exact go (.inr hbegun)
  refine h.sides (P := fun a b => a.isOpen = true → b.isOpen = true →
    HasBeaten a ∨ HasBeaten b → GoesOn a b) ?_ ?_ ?_ ha hb hbegun
  · rintro _ _ ⟨_, _, _, _, _, rfl⟩ ⟨_, _, _, _, _, rfl⟩ _ _ hbegun
    rcases hbegun with (h | ⟨_, h, -⟩) | (h | ⟨_, h, -⟩)
    · exact absurd rfl h
    · cases h
    · exact absurd rfl h
    · cases h
  · intro a b e a' hab _ hdel hn ih
    exact step a b e a' hab hdel hn ih
  · intro a b e a' hab _ hdel hn ih hb ha' hbegun
    exact (step a b e a' hab hdel hn (fun ha hb hbegun => (ih hb ha hbegun.symm).symm)
      ha' hb hbegun.symm).symm

/-- **A heartbeat is on its way** to the other side: queued, in the writer's
hands, or in flight. -/
def OnItsWay (b a : Session) : Prop :=
  ∃ p acc, b.accepted[p]? = some acc ∧ HeartbeatText acc.text ∧
    (p ∈ (b.control ++ b.data).map Outgoing.position ∨ p ∈ b.writer.unfed ∨
      ∃ k, a.received.length ≤ k ∧ b.written[k]? = some p)

/-- An undelivered heartbeat of an open session is on its way. -/
theorem Undelivered.onItsWay (hreach : (machine J).Reachable b) (hopen : b.isOpen = true)
    (h : Undelivered b a) : OnItsWay b a := by
  obtain ⟨p, acc, hacc, htext, hp⟩ := h
  refine ⟨p, acc, hacc, htext, ?_⟩
  rcases whereabouts hreach hopen (List.getElem?_eq_some_iff.mp hacc).1 with hq | hq | hq
  · exact .inl hq
  · exact .inr (.inl hq)
  · obtain ⟨k, hk⟩ := List.getElem?_of_mem hq
    refine .inr (.inr ⟨k, ?_, hk⟩)
    by_contra hlt
    refine hp (List.mem_of_getElem? (i := k) ?_)
    rw [List.getElem?_take_of_lt (by omega), hk]

/-- An echo timer is pending, or a `send_heartbeat` is in progress. -/
def Ticking (s : Session) : Prop :=
  (∃ n, s.heartbeat.echo = .armed n) ∨ ∃ beat ∈ s.beats, beat.pc ≠ .done

theorem ticking_of_stirring (h : Stirring a) : Ticking a := by
  refine h.imp_right ?_
  rintro ⟨beat, hbeat, hpc⟩
  refine ⟨beat, hbeat, fun hdone => ?_⟩
  rw [hdone] at hpc
  cases hpc

/-- Where the other side's heartbeat is on its way, it is awaited or the side is ticking. -/
theorem Undelivered.cases (hab : ReachableBy J Beating a b) (ha : a.isOpen = true)
    (hb : b.isOpen = true) (h : Undelivered b a) :
    Ticking a ∨ (OnItsWay b a ∧ a.heartbeat.awaiting = true) := by
  cases hawaiting : a.heartbeat.awaiting with
  | true => exact .inr ⟨h.onItsWay hab.right.reachable hb, rfl⟩
  | false =>
    refine .inl (ticking_of_stirring ?_)
    refine ((beatsFit_of_reachable hab.left).awake ha hawaiting).imp_right ?_
    rintro ⟨beat, hbeat, hpc⟩
    exact ⟨beat, hbeat, BeatPc.unsent_of_waking hpc⟩

/-- **The heartbeat exchange never dies out**: from the first heartbeat on,
while both sides are open, one of them is ticking or a heartbeat is on its
way to a side that awaits it. -/
theorem heartbeats_go_on {a b : Session} (h : ReachableBy J Beating a b) (ha : a.isOpen = true)
    (hb : b.isOpen = true) (hbegun : HasBeaten a ∨ HasBeaten b) :
    Ticking a ∨ Ticking b ∨ (OnItsWay b a ∧ a.heartbeat.awaiting = true) ∨
      (OnItsWay a b ∧ b.heartbeat.awaiting = true) := by
  rcases goesOn_of_reachable h ha hb hbegun with hs | hs | hs | hs
  · exact .inl (ticking_of_stirring hs)
  · exact .inr (.inl (ticking_of_stirring hs))
  · rcases hs.cases h ha hb with ht | hway
    · exact .inl ht
    · exact .inr (.inr (.inl hway))
  · rcases hs.cases h.swap hb ha with ht | hway
    · exact .inr (.inl ht)
    · exact .inr (.inr (.inr hway))

/-- A heartbeat of one side, and the echo of the other on its way back. -/
def echoedBack : List (Event compactJson ⊕ Event compactJson) :=
  .inl (.initiateHeartbeat 5) :: List.replicate 7 (.inl (.beat 0)) ++
    [.inl (.writer .steps), .inl (.writer .steps), .inl (.writer .steps), .inl (.writer .feeds),
      .inr (.receive "HBT5"), .inr .echoFires] ++ List.replicate 7 (.inr (.beat 0))

/-- Neither side is ticking there, and the echo is awaited. -/
theorem heartbeats_go_on_echoedBack : ∃ a b,
    (link compactJson).run (small [], small []) echoedBack = some (a, b) ∧
      (∀ beat ∈ a.beats ++ b.beats, beat.pc = .done) ∧
      (Ticking a ∨ Ticking b ∨ (OnItsWay b a ∧ a.heartbeat.awaiting = true) ∨
        (OnItsWay a b ∧ b.heartbeat.awaiting = true)) := by
  have hrun : ((link compactJson).run (small [], small []) echoedBack).any (fun p => decide
      ((p.1.isOpen = true ∧ p.2.isOpen = true ∧ p.1.beats ≠ []) ∧
        ∀ beat ∈ p.1.beats ++ p.2.beats, beat.pc = .done)) = true := by decide +kernel
  obtain ⟨⟨a, b⟩, hs, hend⟩ := Machine.exists_of_run hrun
  obtain ⟨⟨ha, hb, hbeats⟩, hdone⟩ := of_decide_eq_true hend
  have hreach : ReachableBy compactJson Beating a b :=
    reachableBy_of_run beating beating_iff (by decide +kernel) hs
  exact ⟨a, b, hs, hdone, heartbeats_go_on hreach ha hb (.inl (.inl hbeats))⟩

end Link

end Vcmp
