import Vcmp.Session.Flow
import Vcmp.Session.Heartbeat
/-!
# One side of the heartbeat exchange

What a session itself knows of the exchange: a heartbeat it sends is one
its peer can accept, and when it is not awaiting one, it is about to send
one. A session is *stirring* while a heartbeat of its own is still to be
queued, and a step ends this only by queueing one.
-/

namespace Vcmp

/-- The text of a heartbeat the peer does not reject. -/
def HeartbeatText (text : String) : Prop :=
  ∃ interval, Frame.parse text = .ok (.heartbeat interval) ∧ 1 ≤ interval

theorem heartbeatText_serialize {interval : ℕ} (hpos : 1 ≤ interval) (hlt : interval < u64Bound) :
    HeartbeatText (Frame.heartbeat interval).serialize :=
  ⟨interval, Frame.parse_hbt hlt, hpos⟩

/-- Before the section that sets `awaiting`. -/
def BeatPc.waking : BeatPc → Bool
  | .start | .arming => true
  | _ => false

/-- Before the frame is queued. -/
def BeatPc.unsent : BeatPc → Bool
  | .installing | .done => false
  | _ => true

theorem BeatPc.unsent_of_waking {pc : BeatPc} (h : pc.waking = true) : pc.unsent = true := by
  cases pc <;> simp_all [BeatPc.waking, BeatPc.unsent]

namespace Session

variable {J : JsonText} {s s' : Session} {e : Event J}

/-- **Heartbeats are initiated with an interval** of at least a millisecond. -/
def Beating (_ : Session) (e : Event J) : Prop :=
  ∀ millis, e = .initiateHeartbeat millis → 1 ≤ millis

/-- The same, as a check. -/
def beating (_ : Session) : Event J → Bool
  | .initiateHeartbeat millis => decide (1 ≤ millis)
  | _ => true

theorem beating_iff (s : Session) (e : Event J) (h : beating s e = true) : Beating s e := by
  rintro millis rfl
  exact of_decide_eq_true h

/-- **What a session knows of its heartbeats.** -/
structure BeatsFit (s : Session) : Prop where
  intervals : ∀ b ∈ s.beats, 1 ≤ b.interval ∧ b.interval < u64Bound
  echo : ∀ n, s.heartbeat.echo = .armed n → 1 ≤ n ∧ n < u64Bound
  sending : ∀ b ∈ s.beats, ∀ q, b.pc = .sending q → q.text = (Frame.heartbeat b.interval).serialize
  /-- Where no heartbeat is awaited, one is about to be sent. -/
  awake : s.isOpen = true → s.heartbeat.awaiting = false →
    (∃ n, s.heartbeat.echo = .armed n) ∨ ∃ b ∈ s.beats, b.pc.waking = true

/-- A beat that moves, with the interval it had. -/
theorem BeatsFit.set (h : BeatsFit s) {i : ℕ} {b c : Beat} (hb : s.beats[i]? = some b)
    (hinterval : c.interval = b.interval)
    (hsending : ∀ q, c.pc = .sending q → q.text = (Frame.heartbeat b.interval).serialize) :
    (∀ d ∈ s.beats.set i c, 1 ≤ d.interval ∧ d.interval < u64Bound) ∧
      ∀ d ∈ s.beats.set i c, ∀ q, d.pc = .sending q →
        q.text = (Frame.heartbeat d.interval).serialize := by
  have hmem := List.mem_of_getElem? hb
  refine ⟨fun d hd => ?_, fun d hd q hq => ?_⟩
  · rcases List.mem_or_eq_of_mem_set hd with hd | rfl
    · exact h.intervals d hd
    · rw [hinterval]
      exact h.intervals b hmem
  · rcases List.mem_or_eq_of_mem_set hd with hd | rfl
    · exact h.sending d hd q hq
    · rw [hinterval]
      exact hsending q hq

/-- A beat that is there stays there, but for the one that moves. -/
theorem exists_mem_set {p : BeatPc → Bool} {i : ℕ} {b b' : Beat} (hb : s.beats[i]? = some b)
    (hpc : p b.pc = true → p b'.pc = true) (h : ∃ c ∈ s.beats, p c.pc = true) :
    ∃ c ∈ s.beats.set i b', p c.pc = true := by
  obtain ⟨c, hc, hpcc⟩ := h
  obtain ⟨j, hj⟩ := List.getElem?_of_mem hc
  obtain ⟨d, hd, hpcd⟩ :=
    exists_getElem?_set (p := fun d : Beat => p d.pc = true) ⟨c, hj, hpcc⟩ hb hpc
  exact ⟨d, List.mem_of_getElem? hd, hpcd⟩

/-- A beat that begins. -/
theorem BeatsFit.concat (h : BeatsFit s) {n : ℕ} (hn : 1 ≤ n ∧ n < u64Bound) :
    (∀ c ∈ s.beats ++ [({ interval := n } : Beat)], 1 ≤ c.interval ∧ c.interval < u64Bound) ∧
      ∀ c ∈ s.beats ++ [({ interval := n } : Beat)], ∀ q, c.pc = .sending q →
        q.text = (Frame.heartbeat c.interval).serialize := by
  refine ⟨fun c hc => ?_, fun c hc q hq => ?_⟩
  · rcases List.mem_append.mp hc with hc | hc
    · exact h.intervals c hc
    · rw [List.mem_singleton.mp hc]
      exact hn
  · rcases List.mem_append.mp hc with hc | hc
    · exact h.sending c hc q hq
    · rw [List.mem_singleton.mp hc] at hq
      cases hq

/-- **The heartbeats fit in every run** in which they are initiated so. -/
theorem beatsFit_of_reachable (h : (machine J).ReachableBy Beating s) : BeatsFit s := by
  refine h.invariant_of (P := fun s => BeatsFit s) ?_ ?_
  · rintro s ⟨id, limits, handlers, budget, elsewhere, rfl⟩
    exact ⟨by simp [spawn], by simp [spawn], by simp [spawn], by simp [spawn]⟩
  · intro s e s' hreach hok hn ih
    have h := step_of_next hn
    cases h.heart with
    | quiet hheart hcount hbeats htaken =>
      refine ⟨by rw [hbeats]; exact ih.intervals, by rw [hheart]; exact ih.echo,
        by rw [hbeats]; exact ih.sending, fun hopen hnot => ?_⟩
      rw [hheart, hbeats]
      exact ih.awake (h.isOpen hopen) (by rw [← hheart]; exact hnot)
    | @initiates millis hs' =>
      subst hs'
      have hpos : 1 ≤ millis := hok millis rfl
      have hbound : 1 < u64Bound := by decide
      obtain ⟨hintervals, hsending⟩ :=
        ih.concat (n := min millis (u64Bound - 1)) ⟨by omega, by omega⟩
      exact ⟨hintervals, ih.echo, hsending,
        fun _ _ => .inr ⟨_, List.mem_append_right _ (List.mem_singleton_self _), rfl⟩⟩
    | echoes harmed hs' =>
      subst hs'
      obtain ⟨hintervals, hsending⟩ := ih.concat (ih.echo _ harmed)
      exact ⟨hintervals, (fun n hn => by cases hn), hsending,
        fun _ _ => .inr ⟨_, List.mem_append_right _ (List.mem_singleton_self _), rfl⟩⟩
    | @beat i b hb hbeat =>
      have awake : ∀ {b' : Beat}, (b.pc.waking = true → b'.pc.waking = true) →
          s.isOpen = true → s.heartbeat.awaiting = false →
          (∃ n, s.heartbeat.echo = .armed n) ∨ ∃ c ∈ s.beats.set i b', c.pc.waking = true := by
        intro b' hpc hopen hnot
        exact (ih.awake hopen hnot).imp_right (exists_mem_set (p := BeatPc.waking) hb hpc)
      cases hbeat with
      | notOpen hpc hclosed =>
        obtain ⟨hintervals, hsending⟩ :=
          ih.set (c := { b with pc := .done }) hb rfl (fun q hq => by cases hq)
        refine ⟨hintervals, ih.echo, hsending, fun hopen _ => ?_⟩
        rw [show s.isOpen = true from hopen] at hclosed
        cases hclosed
      | checked hpc =>
        obtain ⟨hintervals, hsending⟩ :=
          ih.set (c := { b with pc := .arming }) hb rfl (fun q hq => by cases hq)
        exact ⟨hintervals, ih.echo, hsending, awake fun _ => rfl⟩
      | arms hpc =>
        obtain ⟨hintervals, hsending⟩ := ih.set (c := { b with
          pc := .sending ⟨(Frame.heartbeat b.interval).serialize, true, .check⟩ }) hb rfl
          (fun q hq => by cases hq; rfl)
        exact ⟨hintervals, ih.echo, hsending, fun _ hnot => by cases hnot⟩
      | @enqueues q s₁ r hpc he =>
        obtain ⟨hintervals, hsending⟩ := ih.set (c := b.enqueued r) hb rfl (fun q' hq' => by
          have htext := ih.sending b (List.mem_of_getElem? hb) q hpc
          rcases he.cases with ⟨rfl, -⟩ | ⟨pc, rfl, -⟩ | ⟨error, rfl, -⟩
          · cases hq'
          · cases hq'
            exact htext
          · cases hq')
        have hwaking : b.pc.waking = true → (b.enqueued r).pc.waking = true := by
          rw [hpc]
          intro hw
          cases hw
        obtain ⟨_, _, _, _, _, rfl⟩ := he.frame
        exact ⟨hintervals, ih.echo, hsending, awake hwaking⟩
      | closes hpc =>
        obtain ⟨hintervals, hsending⟩ :=
          ih.set (c := { b with pc := .done }) hb rfl (fun q hq => by cases hq)
        exact ⟨hintervals, ih.echo, hsending, fun hopen => by cases hopen⟩
      | installs hpc =>
        obtain ⟨hintervals, hsending⟩ :=
          ih.set (c := { b with pc := .done }) hb rfl (fun q hq => by cases hq)
        exact ⟨hintervals, ih.echo, hsending, awake (by rw [hpc]; intro hw; cases hw)⟩
    | expects _ _ hs' =>
      subst hs'
      exact ⟨ih.intervals, ih.echo, ih.sending, ih.awake⟩
    | fires _ hs' =>
      subst hs'
      exact ⟨ih.intervals, ih.echo, ih.sending, fun hopen => by cases hopen⟩
    | @accepts text interval _ hparse hpos _ hs' =>
      subst hs'
      refine ⟨ih.intervals, fun n hn => ?_, ih.sending, fun _ _ => .inl ⟨interval, rfl⟩⟩
      cases hn
      exact ⟨by omega, Frame.interval_lt_of_parse hparse⟩
    | takes hdrive hs' =>
      subst hs'
      refine ⟨ih.intervals, (fun n hn => by cases hn), ih.sending, fun hopen _ => ?_⟩
      have hclosed := notOpen_of_stage hreach.reachable (by rw [hdrive]; decide)
      rw [show s.isOpen = true from hopen] at hclosed
      cases hclosed

/-! ## What keeps the exchange going -/

/-- A heartbeat of the session's own is still to be queued. -/
def Stirring (s : Session) : Prop :=
  (∃ n, s.heartbeat.echo = .armed n) ∨ ∃ b ∈ s.beats, b.pc.unsent = true

/-- A heartbeat was ever begun or queued. -/
def HasBeaten (s : Session) : Prop := s.beats ≠ [] ∨ ∃ acc ∈ s.accepted, HeartbeatText acc.text

/-- The step queues a heartbeat. -/
def QueuesHeartbeat (s s' : Session) : Prop :=
  ∃ acc, s'.accepted = s.accepted ++ [acc] ∧ HeartbeatText acc.text

theorem Stirring.concat {n : ℕ} {beats : List Beat} (h : s'.beats = beats ++ [{ interval := n }]) :
    Stirring s' :=
  .inr ⟨{ interval := n }, by rw [h]; exact List.mem_append_right _ (List.mem_singleton_self _), rfl⟩

/-- **An open session stirs on, or queues a heartbeat.** -/
theorem Stirring.step (hreach : (machine J).Reachable s) (hfit : BeatsFit s) (h : Step J s e s')
    (hopen : s'.isOpen = true) (hs : Stirring s) : Stirring s' ∨ QueuesHeartbeat s s' := by
  cases h.heart with
  | quiet hheart _ hbeats =>
    unfold Stirring
    rw [hheart, hbeats]
    exact .inl hs
  | initiates hs' => exact .inl (.concat (by rw [hs']))
  | echoes _ hs' => exact .inl (.concat (by rw [hs']))
  | expects _ _ hs' => subst hs'; exact .inl hs
  | fires _ hs' => subst hs'; cases hopen
  | accepts _ _ _ _ hs' => subst hs'; exact .inl (.inl ⟨_, rfl⟩)
  | takes hdrive hs' =>
    subst hs'
    have hclosed := notOpen_of_stage hreach (by rw [hdrive]; decide)
    rw [show s.isOpen = true from hopen] at hclosed
    cases hclosed
  | @beat i b hb hbeat =>
    have others : ∀ {b' : Beat}, (b.pc.unsent = true → b'.pc.unsent = true) →
        (∃ n, s.heartbeat.echo = .armed n) ∨ ∃ c ∈ s.beats.set i b', c.pc.unsent = true :=
      fun hpc => hs.imp_right (exists_mem_set (p := BeatPc.unsent) hb hpc)
    cases hbeat with
    | notOpen _ hclosed =>
      rw [show s.isOpen = true from hopen] at hclosed
      cases hclosed
    | checked => exact .inl (others fun _ => rfl)
    | arms => exact .inl (others fun _ => rfl)
    | @enqueues q s₁ r hpc he =>
      rcases he.cases with ⟨rfl, hacc⟩ | ⟨pc, rfl, -⟩ | ⟨error, rfl, -⟩
      · -- the frame is queued, and is a heartbeat
        have hmem := List.mem_of_getElem? hb
        obtain ⟨hpos, hlt⟩ := hfit.intervals b hmem
        refine .inr ⟨_, hacc, ?_⟩
        rw [hfit.sending b hmem q hpc]
        exact heartbeatText_serialize hpos hlt
      · obtain ⟨_, _, _, _, _, rfl⟩ := he.frame
        exact .inl (others fun _ => rfl)
      · obtain ⟨_, _, _, _, _, rfl⟩ := he.frame
        exact .inl (others fun _ => rfl)
    | closes => cases hopen
    | installs hpc => exact .inl (others (by rw [hpc]; intro hw; cases hw))

/-- The exchange begins by a call that stirs, or by a heartbeat queued. -/
theorem HasBeaten.back (h : Step J s e s') (hs' : HasBeaten s') :
    HasBeaten s ∨ Stirring s' ∨ QueuesHeartbeat s s' := by
  rcases hs' with hbeats | ⟨acc, hacc, htext⟩
  · cases h.heart with
    | quiet _ _ hsame => exact .inl (.inl (hsame ▸ hbeats))
    | initiates hs' => exact .inr (.inl (.concat (by rw [hs'])))
    | echoes _ hs' => exact .inr (.inl (.concat (by rw [hs'])))
    | beat hb _ => exact .inl (.inl (List.ne_nil_of_mem (List.mem_of_getElem? hb)))
    | expects _ _ hs' => subst hs'; exact .inl (.inl hbeats)
    | fires _ hs' => subst hs'; exact .inl (.inl hbeats)
    | accepts _ _ _ _ hs' => subst hs'; exact .inl (.inl hbeats)
    | takes _ hs' => subst hs'; exact .inl (.inl hbeats)
  · rcases h.flow.accepts with hsame | ⟨_, _, _, -, -, -, hnew⟩
    · exact .inl (.inr ⟨acc, hsame ▸ hacc, htext⟩)
    · rw [hnew] at hacc
      rcases List.mem_append.mp hacc with hacc | hacc
      · exact .inl (.inr ⟨acc, hacc, htext⟩)
      · rw [List.mem_singleton.mp hacc] at htext
        exact .inr (.inr ⟨_, hnew, htext⟩)

/-- **A heartbeat delivered stirs an open session**, whether it is accepted
or ignored. -/
theorem stirring_of_receive (hfit : BeatsFit s) {text : String} (h : ReceiveStep J s text s')
    (htext : HeartbeatText text) (hopen : s'.isOpen = true) : Stirring s' := by
  obtain ⟨interval, hparse, hpos⟩ := htext
  cases h with
  | tooLarge => cases hopen
  | invalid hparse' => rw [hparse] at hparse'; cases hparse'
  | ignored _ hparse' hno =>
    rw [hparse] at hparse'
    cases hparse'
    rcases hno with hzero | hnot
    · omega
    · -- no heartbeat is awaited where one is about to be sent
      refine (hfit.awake hopen hnot).imp_right ?_
      rintro ⟨b, hb, hpc⟩
      exact ⟨b, hb, BeatPc.unsent_of_waking hpc⟩
  | heartbeat => exact .inl ⟨_, rfl⟩
  | answer _ hparse' hanswer => rw [hparse] at hparse'; cases hparse'; cases hanswer
  | late _ hparse' hanswer => rw [hparse] at hparse'; cases hparse'; cases hanswer
  | message _ hparse' => rw [hparse] at hparse'; cases hparse'

end Session

end Vcmp
