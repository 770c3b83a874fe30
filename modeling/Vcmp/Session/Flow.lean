import Vcmp.Session.Stages
/-!
# From the queues to the transport

A frame accepted by a queue waits there, is taken by the writer and fed
to the sink. `Flow` follows every accepted frame by its position: it is
taken at most once and it is not lost while the writer lives, and what
the sink was fed is what was taken, in that order, but for the frame in
the writer's hands.
-/

namespace Vcmp

/-- The part of a session between the queues and the transport. -/
structure Pipe where
  accepted : List Accepted
  control : List Outgoing
  data : List Outgoing
  writer : WriterPc
  takenLog : List ℕ
  written : List ℕ
  receivers : Bool

namespace WriterPc

/-- The frame in the writer's hands that the sink does not have. -/
def unfed : WriterPc → List ℕ
  | .taken o | .sending o false => [o.position]
  | _ => []

/-- Whether the writer still takes frames. -/
def running : WriterPc → Bool
  | .closing _ | .ended => false
  | _ => true

/-- The frame in the writer's hands. -/
def hand : WriterPc → Option Outgoing
  | .taken o | .sending o _ => some o
  | _ => none

end WriterPc

/-- The call of `enqueue` a call of `exchange` is in. -/
def Exchange.enqueue (x : Exchange) : Option Enqueue :=
  match x.pc with
  | .enqueuing q => some q
  | _ => none

/-- The call of `enqueue` the work on a message is in. -/
def Work.enqueue (w : Work) : Option Enqueue :=
  match w.pc with
  | .answering _ q => some q
  | _ => none

/-- The call of `enqueue` a call of `send_heartbeat` is in. -/
def Beat.enqueue (b : Beat) : Option Enqueue :=
  match b.pc with
  | .sending q => some q
  | _ => none

/-- The call of `enqueue` a call of `send_raw` is in. -/
def RawPc.enqueue : RawPc → Option Enqueue
  | .sending q => some q
  | .done _ => none

namespace Session

variable {J : JsonText} {s s' : Session} {e : Event J}

/-- The queues, the writer and what they did. -/
def pipe (s : Session) : Pipe :=
  ⟨s.accepted, s.control, s.data, s.writer, s.takenLog, s.written, s.receivers⟩

/-- Whose call of `enqueue` a step may be of. -/
def Event.origin : Event J → Option Origin
  | .exchange i => some (.exchange i)
  | .work i => some (.work i)
  | .beat i => some (.beat i)
  | .raw i => some (.raw i)
  | _ => none

/-- The call of `enqueue` a party is in. -/
def enqueueOf (s : Session) : Origin → Option Enqueue
  | .exchange i => s.exchanges[i]?.bind Exchange.enqueue
  | .work i => s.works[i]?.bind Work.enqueue
  | .beat i => s.beats[i]?.bind Beat.enqueue
  | .raw i => s.raws[i]?.bind RawPc.enqueue

/-- **What a step does to the flow of frames.** -/
inductive FlowStep (J : JsonText) (s s' : Session) (e : Event J) : Prop
  | quiet (h : s'.pipe = s.pipe)
  | pushes {origin : Origin} {q : Enqueue} {p : Permit} (he : e.origin = some origin)
      (hfor : s.enqueueOf origin = some q) (hpc : q.pc = .pushing p) (hreceivers : s.receivers = true)
      (h : s'.pipe = (s.push origin q p).pipe)
  | writes {move : WriterMove} (h : WriterStep s move s')
  | drops (h : s'.pipe = s.dropWriter.pipe)

/-- A step of `enqueue` pushes the frame, or leaves the queues alone. -/
theorem EnqueueStep.pipe {origin : Origin} {q : Enqueue} {r : EnqueueResult}
    (h : EnqueueStep s origin q s' r) :
    (∃ p, q.pc = .pushing p ∧ s.receivers = true ∧ s'.pipe = (s.push origin q p).pipe) ∨
      s'.pipe = s.pipe := by
  cases h with
  | accepted hpc hreceivers => exact .inl ⟨_, hpc, hreceivers, rfl⟩
  | _ => exact .inr rfl

/-- The flow after a step of a call of `enqueue`. -/
theorem flowStep_of_enqueue {origin : Origin} {q : Enqueue} {r : EnqueueResult} {s₁ : Session}
    (h : EnqueueStep s origin q s₁ r) (he : e.origin = some origin)
    (hfor : s.enqueueOf origin = some q) (hpipe : s'.pipe = s₁.pipe) : FlowStep J s s' e := by
  rcases h.pipe with ⟨p, hpc, hreceivers, h₁⟩ | h₁
  · exact .pushes he hfor hpc hreceivers (hpipe.trans h₁)
  · exact .quiet (hpipe.trans h₁)

theorem Step.flow (h : Step J s e s') : FlowStep J s s' e := by
  cases h with
  | exchange hx h =>
    cases h with
    | enqueues hpc he =>
      exact flowStep_of_enqueue he rfl (by simp [enqueueOf, Exchange.enqueue, hx, hpc]) rfl
    | _ => exact .quiet rfl
  | beat hb h =>
    cases h with
    | enqueues hpc he =>
      exact flowStep_of_enqueue he rfl (by simp [enqueueOf, Beat.enqueue, hb, hpc]) rfl
    | _ => exact .quiet rfl
  | raw hraw he =>
    exact flowStep_of_enqueue he rfl (by simp [enqueueOf, RawPc.enqueue, hraw]) rfl
  | @work _ i w _ hw h =>
    have hin : ∀ ending q, w.pc = .answering ending q → s.enqueueOf (.work i) = some q := by
      intro ending q hpc
      simp [enqueueOf, Work.enqueue, hw, hpc]
    cases h with
    | writes hpc he => exact flowStep_of_enqueue he rfl (hin _ _ hpc) rfl
    | unwritten hpc he => exact flowStep_of_enqueue he rfl (hin _ _ hpc) rfl
    | written hpc he => exact flowStep_of_enqueue he rfl (hin _ _ hpc) rfl
    | _ => exact .quiet rfl
  | receive _ h => cases h <;> exact .quiet rfl
  | drive h =>
    cases h with
    | aborted => exact .drops rfl
    | _ => exact .quiet rfl
  | writer h => exact .writes h
  | _ => exact .quiet rfl

/-! ## Frames are not lost, doubled or mixed up -/

/-- **Where every accepted frame is.** -/
structure Flow (c : Pipe) : Prop where
  /-- A queued frame is the one accepted at its position, by that queue. -/
  control : ∀ o ∈ c.control, ∃ origin, c.accepted[o.position]? = some ⟨true, o.text, origin⟩
  data : ∀ o ∈ c.data, ∃ origin, c.accepted[o.position]? = some ⟨false, o.text, origin⟩
  hand : ∀ o ∈ c.writer.hand, ∃ a, c.accepted[o.position]? = some a ∧ a.text = o.text
  taken : ∀ p ∈ c.takenLog, p < c.accepted.length
  /-- No frame is in two places, or taken twice. -/
  once : (c.takenLog ++ (c.control ++ c.data).map Outgoing.position).Nodup
  /-- A frame that is not taken is queued. -/
  queued : c.receivers = true → ∀ p < c.accepted.length,
    p ∈ c.takenLog ∨ p ∈ (c.control ++ c.data).map Outgoing.position
  /-- What was taken was fed to the sink, but for what the writer has in its hands. -/
  fed : c.writer.running = true → c.takenLog = c.written ++ c.writer.unfed
  sent : c.written <+: c.takenLog
  alive : c.writer ≠ .ended → c.receivers = true

/-- A frame pushed is queued at a position of its own. -/
theorem Flow.push {origin : Origin} {q : Enqueue} {p : Permit} (h : Flow s.pipe)
    (hpipe : s'.pipe = (s.push origin q p).pipe) : Flow s'.pipe := by
  rw [hpipe]
  have grows : ∀ {position : ℕ} {a : Accepted}, s.accepted[position]? = some a →
      (s.accepted ++ [⟨q.control, q.text, origin⟩])[position]? = some a := by
    intro position a ha
    rw [getElem?_append_some ha]
  have hlast : (s.accepted ++ [(⟨q.control, q.text, origin⟩ : Accepted)])[s.accepted.length]? =
      some ⟨q.control, q.text, origin⟩ := by simp
  have hnew : s.accepted.length ∉ s.takenLog ++ (s.control ++ s.data).map Outgoing.position := by
    intro hmem
    rcases List.mem_append.mp hmem with hmem | hmem
    · exact absurd (h.taken _ hmem) (lt_irrefl _)
    · obtain ⟨o, ho, hposition⟩ := List.mem_map.mp hmem
      have hlt : o.position < s.accepted.length := by
        rcases List.mem_append.mp ho with ho | ho
        · obtain ⟨_, hacc⟩ := h.control o ho
          exact (List.getElem?_eq_some_iff.mp hacc).1
        · obtain ⟨_, hacc⟩ := h.data o ho
          exact (List.getElem?_eq_some_iff.mp hacc).1
      omega
  -- the queues with the frame in either of them hold one position more
  have hperm : (((s.push origin q p).control ++ (s.push origin q p).data).map
      Outgoing.position).Perm (s.accepted.length ::
        (s.control ++ s.data).map Outgoing.position) := by
    cases hcontrol : q.control with
    | true =>
      simp only [Session.push, hcontrol, if_true, List.map_append, List.map_cons, List.map_nil,
        List.append_assoc]
      exact List.perm_middle
    | false =>
      simp only [Session.push, hcontrol, Bool.false_eq_true, if_false, List.map_append,
        List.map_cons, List.map_nil]
      rw [← List.append_assoc]
      exact List.perm_append_singleton _ _
  refine ⟨fun o ho => ?_, fun o ho => ?_, fun o ho => ?_, fun position hp => ?_, ?_, ?_, h.fed,
    h.sent, h.alive⟩
  · have ho' : o ∈ if q.control then s.control ++ [⟨s.accepted.length, q.text, p⟩] else s.control :=
      ho
    split at ho'
    · rename_i hcontrol
      rcases List.mem_append.mp ho' with ho' | ho'
      · obtain ⟨origin', hacc⟩ := h.control o ho'
        exact ⟨origin', grows hacc⟩
      · rw [List.mem_singleton.mp ho']
        exact ⟨origin, by rw [← hcontrol]; exact hlast⟩
    · obtain ⟨origin', hacc⟩ := h.control o ho'
      exact ⟨origin', grows hacc⟩
  · have ho' : o ∈ if q.control then s.data else s.data ++ [⟨s.accepted.length, q.text, p⟩] := ho
    split at ho'
    · obtain ⟨origin', hacc⟩ := h.data o ho'
      exact ⟨origin', grows hacc⟩
    · rename_i hcontrol
      rcases List.mem_append.mp ho' with ho' | ho'
      · obtain ⟨origin', hacc⟩ := h.data o ho'
        exact ⟨origin', grows hacc⟩
      · rw [List.mem_singleton.mp ho']
        have hfalse : q.control = false := by simpa using hcontrol
        exact ⟨origin, by rw [← hfalse]; exact hlast⟩
  · obtain ⟨a, hacc, htext⟩ := h.hand o ho
    exact ⟨a, grows hacc, htext⟩
  · have hlt : position < s.accepted.length := h.taken position hp
    show position < (s.accepted ++ [_]).length
    rw [List.length_append]
    omega
  · have hp := (List.perm_append_left_iff s.takenLog).mpr hperm
    refine hp.nodup_iff.mpr ?_
    rw [List.perm_middle.nodup_iff, List.nodup_cons]
    exact ⟨hnew, h.once⟩
  · intro hreceivers position hlt
    have hlt' : position < (s.accepted ++ [(⟨q.control, q.text, origin⟩ : Accepted)]).length := hlt
    rw [List.length_append, List.length_singleton] at hlt'
    by_cases hlast : position = s.accepted.length
    · exact .inr (hperm.mem_iff.mpr (hlast ▸ List.mem_cons_self))
    · rcases h.queued hreceivers position (by show position < s.accepted.length; omega)
        with hmem | hmem
      · exact .inl hmem
      · exact .inr (hperm.mem_iff.mpr (List.mem_cons_of_mem _ hmem))

/-- The writer gone, with what was queued. -/
theorem Flow.drop (h : Flow s.pipe) (hpipe : s'.pipe = s.dropWriter.pipe) : Flow s'.pipe := by
  rw [hpipe]
  have honce : s.takenLog.Nodup := (List.nodup_append.mp h.once).1
  refine ⟨fun o ho => absurd ho List.not_mem_nil, fun o ho => absurd ho List.not_mem_nil,
    fun o ho => absurd ho (by simp [Session.pipe, dropWriter, WriterPc.hand]), h.taken, ?_,
    fun hr => absurd hr (by simp [Session.pipe, dropWriter]),
    fun hr => absurd hr (by simp [Session.pipe, dropWriter, WriterPc.running]), h.sent,
    fun hne => absurd rfl hne⟩
  show (s.takenLog ++ []).Nodup
  rw [List.append_nil]
  exact honce

/-- The writer moves, with nothing more in its hands. -/
theorem Flow.moves (h : Flow s.pipe) (pc : WriterPc) (hpipe : s'.pipe = { s.pipe with writer := pc })
    (halive : s.writer ≠ .ended) (hhand : ∀ o ∈ pc.hand, o ∈ s.writer.hand)
    (hfed : pc.running = true → s.writer.running = true ∧ pc.unfed = s.writer.unfed) :
    Flow s'.pipe := by
  rw [hpipe]
  refine ⟨h.control, h.data, fun o ho => h.hand o (hhand o ho), h.taken, h.once, h.queued,
    fun hr => ?_, h.sent, fun _ => h.alive halive⟩
  obtain ⟨hrunning, hunfed⟩ := hfed hr
  show s.takenLog = s.written ++ pc.unfed
  rw [hunfed]
  exact h.fed hrunning

/-- The writer takes the first frame of a queue. -/
theorem Flow.takes (h : Flow s.pipe) {o : Outgoing} (control data : List Outgoing)
    (hpipe : s'.pipe = ⟨s.accepted, control, data, .taken o, s.takenLog ++ [o.position], s.written,
      s.receivers⟩)
    (hperm : ((s.control ++ s.data).map Outgoing.position).Perm
      (o.position :: (control ++ data).map Outgoing.position))
    (hcontrol : ∀ q ∈ control, q ∈ s.control) (hdata : ∀ q ∈ data, q ∈ s.data)
    (ho : ∃ a, s.accepted[o.position]? = some a ∧ a.text = o.text)
    (hrunning : s.writer.running = true) (hunfed : s.writer.unfed = []) : Flow s'.pipe := by
  rw [hpipe]
  have halive : s.writer ≠ .ended := by
    intro hended
    rw [hended] at hrunning
    cases hrunning
  have hlog : s.takenLog = s.written := by
    have hfed : s.takenLog = s.written ++ s.writer.unfed := h.fed hrunning
    rw [hfed, hunfed, List.append_nil]
  refine ⟨fun q hq => h.control q (hcontrol q hq), fun q hq => h.data q (hdata q hq),
    fun q hq => ?_, fun p hp => ?_, ?_, fun hr p hp => ?_, fun _ => ?_,
    h.sent.trans (List.prefix_append _ _), fun _ => h.alive halive⟩
  · obtain rfl : o = q := by simpa [WriterPc.hand] using hq
    exact ho
  · rcases List.mem_append.mp hp with hp | hp
    · exact h.taken p hp
    · obtain ⟨a, hacc, -⟩ := ho
      rw [List.mem_singleton.mp hp]
      exact (List.getElem?_eq_some_iff.mp hacc).1
  · show (s.takenLog ++ [o.position] ++ (control ++ data).map Outgoing.position).Nodup
    rw [List.append_assoc]
    exact (((List.perm_append_left_iff s.takenLog).mpr hperm).nodup_iff).mp h.once
  · show p ∈ s.takenLog ++ [o.position] ∨ p ∈ (control ++ data).map Outgoing.position
    rcases h.queued hr p hp with hmem | hmem
    · exact .inl (List.mem_append_left _ hmem)
    · rcases List.mem_cons.mp (hperm.mem_iff.mp hmem) with rfl | hmem
      · exact .inl (List.mem_append_right _ (List.mem_singleton_self _))
      · exact .inr hmem
  · show s.takenLog ++ [o.position] = s.written ++ [o.position]
    rw [hlog]

/-- **Every step of the writer keeps the frames together.** -/
theorem Flow.write {move : WriterMove} (h : Flow s.pipe) (hstep : WriterStep s move s') :
    Flow s'.pipe := by
  cases hstep with
  | ends => exact h.drop rfl
  | stops hpc =>
    exact h.moves (.closing none) rfl (by simp [hpc]) (by simp [WriterPc.hand])
      (by simp [WriterPc.running])
  | polls hpc =>
    exact h.moves .pollControl rfl (by simp [hpc]) (by simp [WriterPc.hand])
      (fun _ => by rw [hpc]; exact ⟨rfl, rfl⟩)
  | noControl hpc =>
    exact h.moves .pollData rfl (by simp [hpc]) (by simp [WriterPc.hand])
      (fun _ => by rw [hpc]; exact ⟨rfl, rfl⟩)
  | noData hpc =>
    exact h.moves .pollClosing rfl (by simp [hpc]) (by simp [WriterPc.hand])
      (fun _ => by rw [hpc]; exact ⟨rfl, rfl⟩)
  | @takesControl o rest hpc hqueue =>
    obtain ⟨origin, hacc⟩ := h.control o (by simp [Session.pipe, hqueue])
    refine h.takes rest s.data rfl ?_ (fun q hq => ?_) (fun _ hq => hq) ⟨_, hacc, rfl⟩
      (by rw [hpc]; rfl) (by rw [hpc]; rfl)
    · rw [hqueue]
      exact List.Perm.refl _
    · rw [hqueue]
      exact List.mem_cons_of_mem _ hq
  | @takesData o rest hpc hqueue =>
    obtain ⟨origin, hacc⟩ := h.data o (by simp [Session.pipe, hqueue])
    refine h.takes s.control rest rfl ?_ (fun _ hq => hq) (fun q hq => ?_) ⟨_, hacc, rfl⟩
      (by rw [hpc]; rfl) (by rw [hpc]; rfl)
    · rw [hqueue]
      simp only [List.map_append, List.map_cons]
      exact List.perm_middle
    · rw [hqueue]
      exact List.mem_cons_of_mem _ hq
  | discards hpc =>
    exact h.moves (.closing none) rfl (by simp [hpc]) (by simp [WriterPc.hand])
      (by simp [WriterPc.running])
  | @sends o hpc =>
    exact h.moves (.sending o false) rfl (by simp [hpc]) (by simp [hpc, WriterPc.hand])
      (fun _ => by rw [hpc]; exact ⟨rfl, rfl⟩)
  | @feeds o hpc =>
    have hlog : s.takenLog = s.written ++ [o.position] := by
      have hfed : s.takenLog = s.written ++ s.writer.unfed := h.fed (by
        show s.writer.running = true
        rw [hpc]
        rfl)
      rw [hfed, hpc]
      rfl
    refine ⟨h.control, h.data, fun q hq => h.hand q ?_, h.taken, h.once, h.queued, fun _ => ?_, ?_,
      fun _ => h.alive (by simp [Session.pipe, hpc])⟩
    · simpa [Session.pipe, hpc, WriterPc.hand] using hq
    · show s.takenLog = s.written ++ [o.position] ++ []
      rw [hlog, List.append_nil]
    · show s.written ++ [o.position] <+: s.takenLog
      rw [hlog]
  | flushes hpc =>
    exact h.moves .pollClosing rfl (by simp [hpc]) (by simp [WriterPc.hand])
      (fun _ => by rw [hpc]; exact ⟨rfl, rfl⟩)
  | @cancels o fed hpc =>
    exact h.moves (.closing (some (o, fed))) rfl (by simp [hpc]) (by simp [WriterPc.hand])
      (by simp [WriterPc.running])
  | @fails o fed hpc =>
    exact h.moves (.closing (some (o, fed))) rfl (by simp [hpc]) (by simp [WriterPc.hand])
      (by simp [WriterPc.running])

/-- **No frame is lost, doubled or mixed up**, in any run. -/
theorem flow_of_reachable (h : (machine J).Reachable s) : Flow s.pipe := by
  refine h.invariant (P := fun s => Flow s.pipe) ?_ ?_
  · rintro s ⟨id, limits, handlers, budget, elsewhere, rfl⟩
    refine ⟨?_, ?_, ?_, ?_, .nil, fun _ p hp => absurd hp (Nat.not_lt_zero p), fun _ => rfl,
      List.prefix_refl _, fun _ => rfl⟩
    · intro o ho
      cases ho
    · intro o ho
      cases ho
    · intro o ho
      cases ho
    · intro p hp
      cases hp
  · intro s e s' _ hn ih
    cases (step_of_next hn).flow with
    | quiet h => rw [h]; exact ih
    | pushes _ _ _ _ h => exact ih.push h
    | writes h => exact ih.write h
    | drops h => exact ih.drop h

/-- What was accepted and what was written stays so. -/
theorem FlowStep.grows (h : FlowStep J s s' e) :
    s.accepted <+: s'.accepted ∧ s.written <+: s'.written ∧ s.takenLog <+: s'.takenLog := by
  cases h with
  | quiet hpipe =>
    rw [show s'.accepted = s.accepted from congrArg Pipe.accepted hpipe,
      show s'.written = s.written from congrArg Pipe.written hpipe,
      show s'.takenLog = s.takenLog from congrArg Pipe.takenLog hpipe]
    exact ⟨List.prefix_refl _, List.prefix_refl _, List.prefix_refl _⟩
  | @pushes origin q p _ _ _ _ hpipe =>
    rw [show s'.accepted = s.accepted ++ [⟨q.control, q.text, origin⟩] from
        congrArg Pipe.accepted hpipe,
      show s'.written = s.written from congrArg Pipe.written hpipe,
      show s'.takenLog = s.takenLog from congrArg Pipe.takenLog hpipe]
    exact ⟨List.prefix_append _ _, List.prefix_refl _, List.prefix_refl _⟩
  | drops hpipe =>
    rw [show s'.accepted = s.accepted from congrArg Pipe.accepted hpipe,
      show s'.written = s.written from congrArg Pipe.written hpipe,
      show s'.takenLog = s.takenLog from congrArg Pipe.takenLog hpipe]
    exact ⟨List.prefix_refl _, List.prefix_refl _, List.prefix_refl _⟩
  | writes hstep =>
    cases hstep with
    | takesControl => exact ⟨List.prefix_refl _, List.prefix_refl _, List.prefix_append _ _⟩
    | takesData => exact ⟨List.prefix_refl _, List.prefix_refl _, List.prefix_append _ _⟩
    | feeds => exact ⟨List.prefix_refl _, List.prefix_append _ _, List.prefix_refl _⟩
    | _ => exact ⟨List.prefix_refl _, List.prefix_refl _, List.prefix_refl _⟩

/-- **A step accepts the frame its party is about to push**, or accepts none. -/
theorem FlowStep.accepts (h : FlowStep J s s' e) : s'.accepted = s.accepted ∨
    ∃ (origin : Origin) (q : Enqueue) (p : Permit), e.origin = some origin ∧
      s.enqueueOf origin = some q ∧ q.pc = .pushing p ∧
      s'.accepted = s.accepted ++ [⟨q.control, q.text, origin⟩] := by
  cases h with
  | quiet hpipe => exact .inl (congrArg Pipe.accepted hpipe)
  | @pushes origin q p he hfor hpc _ hpipe =>
    exact .inr ⟨origin, q, p, he, hfor, hpc, congrArg Pipe.accepted hpipe⟩
  | drops hpipe => exact .inl (congrArg Pipe.accepted hpipe)
  | writes hstep => cases hstep <;> exact .inl rfl

/-- **What every frame is when it is pushed, every accepted frame is**, where steps keep it. -/
theorem forall_accepted {ok : Session → Event J → Prop} {P : Session → Accepted → Prop}
    (hkeep : ∀ s e s', Step J s e s' → ∀ acc, P s acc → P s' acc)
    (hpush : ∀ s origin q p, (machine J).ReachableBy ok s → s.enqueueOf origin = some q →
      q.pc = .pushing p → P s ⟨q.control, q.text, origin⟩)
    (h : (machine J).ReachableBy ok s) : ∀ acc ∈ s.accepted, P s acc := by
  refine h.invariant_of (P := fun s => ∀ acc ∈ s.accepted, P s acc) ?_ ?_
  · rintro s ⟨id, limits, handlers, budget, elsewhere, rfl⟩ acc hacc
    cases hacc
  · intro s e s' hreach _ hn ih acc hacc
    have hstep := step_of_next hn
    refine hkeep s e s' hstep acc ?_
    rcases hstep.flow.accepts with hsame | ⟨origin, q, p, -, hfor, hpc, hnew⟩
    · exact ih acc (hsame ▸ hacc)
    · rw [hnew] at hacc
      rcases List.mem_append.mp hacc with hacc | hacc
      · exact ih acc hacc
      · rw [List.mem_singleton.mp hacc]
        exact hpush s origin q p hreach hfor hpc

/-- A frame that is accepted now has not been written. -/
theorem fresh_of_accepts (hreach : (machine J).Reachable s) (h : FlowStep J s s' e)
    {acc : Accepted} (hacc : s'.accepted = s.accepted ++ [acc]) :
    s.accepted.length ∉ s'.written := by
  have hne : s'.accepted ≠ s.accepted := by
    rw [hacc]
    simp
  have hflow := flow_of_reachable hreach
  have hfresh : s.accepted.length ∉ s.written := fun hmem =>
    absurd (hflow.taken _ (hflow.sent.subset hmem)) (lt_irrefl _)
  cases h with
  | quiet hpipe => exact absurd (congrArg Pipe.accepted hpipe) hne
  | drops hpipe => exact absurd (congrArg Pipe.accepted hpipe) hne
  | writes hstep => cases hstep <;> exact absurd rfl hne
  | pushes _ _ _ _ hpipe =>
    rw [show s'.written = s.written from congrArg Pipe.written hpipe]
    exact hfresh

/-- **The writer of an open session takes frames.** -/
theorem running_of_isOpen (h : (machine J).Reachable s) (hopen : s.isOpen = true) :
    s.writer.running = true := by
  refine h.invariant_of (P := fun s => s.isOpen = true → s.writer.running = true) ?_ ?_ hopen
  · rintro s ⟨id, limits, handlers, budget, elsewhere, rfl⟩ -
    rfl
  · intro s e s' hreach _ hn ih hopen'
    have h := step_of_next hn
    have hopen := h.isOpen hopen'
    have hrunning := ih hopen
    -- whoever stops the writer has found the session not open
    have closed : 2 ≤ s.drive.stage → False := by
      intro hstage
      rw [notOpen_of_stage hreach hstage] at hopen
      cases hopen
    have signalled : s.signalled = true → False := by
      intro hsignal
      have hstage := stage_of_signalled hreach hsignal
      exact closed (by omega)
    cases h with
    | writer hstep =>
      cases hstep with
      | stops _ hsignal => exact absurd hsignal signalled
      | cancels _ hsignal => exact absurd hsignal signalled
      | discards _ hclosed =>
        rw [hopen] at hclosed
        cases hclosed
      | fails => cases hopen'
      | ends hpc =>
        rw [hpc] at hrunning
        cases hrunning
      | _ => rfl
    | drive hdrive =>
      cases hdrive with
      | aborted hpc => exact absurd (by rw [hpc]; decide) closed
      | _ => exact hrunning
    | exchange _ h =>
      cases h with
      | enqueues _ he => obtain ⟨_, _, _, _, _, rfl⟩ := he.frame; exact hrunning
      | _ => exact hrunning
    | beat _ h =>
      cases h with
      | enqueues _ he => obtain ⟨_, _, _, _, _, rfl⟩ := he.frame; exact hrunning
      | _ => exact hrunning
    | raw _ he => obtain ⟨_, _, _, _, _, rfl⟩ := he.frame; exact hrunning
    | work _ h =>
      cases h with
      | writes _ he => obtain ⟨_, _, _, _, _, rfl⟩ := he.frame; exact hrunning
      | unwritten _ he => obtain ⟨_, _, _, _, _, rfl⟩ := he.frame; exact hrunning
      | written _ he => obtain ⟨_, _, _, _, _, rfl⟩ := he.frame; exact hrunning
      | _ => exact hrunning
    | receive _ h => cases h <;> exact hrunning
    | _ => exact hrunning

/-- **Where a frame is that an open session has accepted**: queued, in the
writer's hands, or fed to the sink. -/
theorem whereabouts (h : (machine J).Reachable s) (hopen : s.isOpen = true) {p : ℕ}
    (hp : p < s.accepted.length) : p ∈ (s.control ++ s.data).map Outgoing.position ∨
      p ∈ s.writer.unfed ∨ p ∈ s.written := by
  have hflow := flow_of_reachable h
  have hrunning := running_of_isOpen h hopen
  have halive : s.receivers = true := by
    refine hflow.alive ?_
    intro hended
    rw [show s.writer = .ended from hended] at hrunning
    cases hrunning
  rcases hflow.queued halive p hp with htaken | hqueued
  · have hlog : s.takenLog = s.written ++ s.writer.unfed := hflow.fed hrunning
    have hmem : p ∈ s.written ++ s.writer.unfed := hlog ▸ htaken
    rcases List.mem_append.mp hmem with hmem | hmem
    · exact .inr (.inr hmem)
    · exact .inr (.inl hmem)
  · exact .inl hqueued

end Session

end Vcmp
