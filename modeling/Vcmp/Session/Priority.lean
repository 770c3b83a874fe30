import Mathlib.Data.List.TakeWhile
import Vcmp.Json.Codec
import Vcmp.Session.Flow
/-!
# Control frames pass data

The two queues are written in the order they were filled, each for
itself, and the writer looks at the control queue first. So an
acknowledgement, a rejection or a heartbeat waits for the control frames
before it and for one data frame at most, however many are queued, and
for a bounded number of the writer's steps.
-/

namespace Vcmp

/-- The frames that wait in either queue. -/
def Pipe.lane (c : Pipe) : Bool → List Outgoing
  | true => c.control
  | false => c.data

namespace WriterPc

/-- The steps until the writer looks at the control queue, at most. -/
def lag : WriterPc → ℕ
  | .pollData => 5
  | .taken _ => 4
  | .sending _ false => 3
  | .sending _ true => 2
  | .pollClosing => 1
  | .pollControl | .closing _ | .ended => 0

/-- The frames it writes until then, at most. -/
def ahead : WriterPc → ℕ
  | .pollData | .taken _ | .sending _ false => 1
  | _ => 0

theorem lag_le (w : WriterPc) : w.lag ≤ 5 := by
  cases w with
  | sending o fed => cases fed <;> simp [lag]
  | _ => simp [lag]

theorem ahead_le (w : WriterPc) : w.ahead ≤ 1 := by
  cases w with
  | sending o fed => cases fed <;> simp [ahead]
  | _ => simp [ahead]

end WriterPc

namespace Session

variable {J : JsonText} {s s' t : Session} {e : Event J} {acc acc' : List Accepted} {control : Bool}
  {p : ℕ}

/-! ## Each queue in its order -/

/-- Whether the frame at a position went into the queue for control frames, or the other. -/
def ofLane (acc : List Accepted) (control : Bool) (p : ℕ) : Bool :=
  acc[p]?.any fun a => a.control = control

/-- The positions of the frames a queue has accepted, in order. -/
def positions (acc : List Accepted) (control : Bool) : List ℕ :=
  (List.range acc.length).filter (ofLane acc control)

theorem ofLane_of_extends (h : acc <+: acc') (hp : p < acc.length) :
    ofLane acc' control p = ofLane acc control p := by
  have hp' := List.getElem?_eq_getElem hp
  rw [ofLane, ofLane, hp', getElem?_of_extends h hp']

/-- A frame that is accepted comes last in its queue. -/
theorem positions_concat (a : Accepted) : positions (acc ++ [a]) control =
    positions acc control ++ if a.control = control then [acc.length] else [] := by
  have hold : (List.range acc.length).filter (ofLane (acc ++ [a]) control) = positions acc control := by
    refine List.filter_congr fun p hp => ?_
    exact ofLane_of_extends (List.prefix_append _ _) (List.mem_range.mp hp)
  rw [positions, List.length_append, List.length_singleton, List.range_succ, List.filter_append, hold]
  congr 1
  rw [List.filter_singleton]
  simp [ofLane]

/-- What was taken is in its queue's order whatever is accepted later. -/
theorem filter_ofLane_of_extends (h : acc <+: acc') {l : List ℕ} (hl : ∀ p ∈ l, p < acc.length) :
    l.filter (ofLane acc' control) = l.filter (ofLane acc control) :=
  List.filter_congr fun p hp => ofLane_of_extends h (hl p hp)

/-- **Either queue in its order**: what was taken from it, then what waits in it. -/
structure Fifo (c : Pipe) : Prop where
  kept : c.receivers = true → ∀ control, c.takenLog.filter (ofLane c.accepted control) ++
    (c.lane control).map Outgoing.position = positions c.accepted control
  taken : ∀ control, c.takenLog.filter (ofLane c.accepted control) <+: positions c.accepted control

theorem Fifo.push {origin : Origin} {q : Enqueue} {r : Permit} (h : Fifo s.pipe) (hflow : Flow s.pipe)
    (hreceivers : s.receivers = true) (hpipe : s'.pipe = (s.push origin q r).pipe) : Fifo s'.pipe := by
  rw [hpipe]
  have hsame : ∀ control,
      s.takenLog.filter (ofLane (s.accepted ++ [⟨q.control, q.text, origin⟩]) control) =
        s.takenLog.filter (ofLane s.accepted control) :=
    fun control => filter_ofLane_of_extends (List.prefix_append _ _) hflow.taken
  refine ⟨fun _ control => ?_, fun control => ?_⟩
  · have hkept : s.takenLog.filter (ofLane s.accepted control) ++
        (s.pipe.lane control).map Outgoing.position = positions s.accepted control :=
      h.kept hreceivers control
    show s.takenLog.filter (ofLane (s.accepted ++ [⟨q.control, q.text, origin⟩]) control) ++
      ((s.push origin q r).pipe.lane control).map Outgoing.position =
        positions (s.accepted ++ [_]) control
    rw [hsame, positions_concat, ← hkept, List.append_assoc]
    congr 1
    cases control <;> cases hq : q.control <;>
      simp [Pipe.lane, Session.pipe, Session.push, hq]
  · show s.takenLog.filter (ofLane (s.accepted ++ [⟨q.control, q.text, origin⟩]) control) <+:
      positions (s.accepted ++ [_]) control
    rw [hsame, positions_concat]
    exact (h.taken control).trans (List.prefix_append _ _)

/-- The writer takes the first frame of a queue. -/
theorem Fifo.takes (h : Fifo s.pipe) {o : Outgoing} {c : Bool} {origin : Origin}
    (ho : s.accepted[o.position]? = some ⟨c, o.text, origin⟩) (hreceivers : s.receivers = true)
    (haccepted : s'.accepted = s.accepted) (htaken : s'.takenLog = s.takenLog ++ [o.position])
    (hlanes : ∀ control, s.pipe.lane control =
      (if c = control then [o] else []) ++ s'.pipe.lane control) : Fifo s'.pipe := by
  have hsplit : ∀ control, (s.takenLog ++ [o.position]).filter (ofLane s.accepted control) =
      s.takenLog.filter (ofLane s.accepted control) ++ if c = control then [o.position] else [] := by
    intro control
    rw [List.filter_append, List.filter_singleton]
    simp [ofLane, ho]
  have hkept : ∀ control, (s.takenLog ++ [o.position]).filter (ofLane s.accepted control) ++
      (s'.pipe.lane control).map Outgoing.position = positions s.accepted control := by
    intro control
    have hall := h.kept hreceivers control
    rw [hlanes] at hall
    change s.takenLog.filter (ofLane s.accepted control) ++ _ = positions s.accepted control at hall
    rw [← hall, hsplit, List.append_assoc]
    by_cases hlane : c = control <;> simp [hlane]
  refine ⟨fun _ control => ?_, fun control => ?_⟩
  · show s'.takenLog.filter (ofLane s'.accepted control) ++ _ = positions s'.accepted control
    rw [htaken, haccepted]
    exact hkept control
  · show s'.takenLog.filter (ofLane s'.accepted control) <+: positions s'.accepted control
    rw [htaken, haccepted, ← hkept control]
    exact List.prefix_append _ _

theorem Fifo.write {move : WriterMove} (h : Fifo s.pipe) (hflow : Flow s.pipe)
    (hstep : WriterStep s move s') : Fifo s'.pipe := by
  cases hstep with
  | @takesControl o rest hpc hqueue =>
    obtain ⟨origin, ho⟩ := hflow.control o (by simp [Session.pipe, hqueue])
    refine h.takes (c := true) ho (hflow.alive (by simp [Session.pipe, hpc])) rfl rfl
      fun control => ?_
    cases control <;> simp [Pipe.lane, Session.pipe, hqueue]
  | @takesData o rest hpc hqueue =>
    obtain ⟨origin, ho⟩ := hflow.data o (by simp [Session.pipe, hqueue])
    refine h.takes (c := false) ho (hflow.alive (by simp [Session.pipe, hpc])) rfl rfl
      fun control => ?_
    cases control <;> simp [Pipe.lane, Session.pipe, hqueue]
  | ends => exact ⟨(fun hr => by cases hr), h.taken⟩
  | _ => exact ⟨h.kept, h.taken⟩

/-- **Either queue is taken from in its order**, in every run. -/
theorem fifo_of_reachable (h : (machine J).Reachable s) : Fifo s.pipe := by
  refine h.invariant_of (P := fun s => Fifo s.pipe) ?_ ?_
  · rintro s ⟨id, limits, handlers, budget, elsewhere, rfl⟩
    refine ⟨fun _ control => ?_, fun control => List.prefix_refl _⟩
    cases control <;> rfl
  · intro s e s' hreach _ hn ih
    have hflow := flow_of_reachable hreach
    cases (step_of_next hn).flow with
    | quiet h => rw [h]; exact ih
    | pushes _ _ _ hreceivers h => exact ih.push hflow hreceivers h
    | writes h => exact ih.write hflow h
    | drops h => rw [h]; exact ⟨(fun hr => by cases hr), ih.taken⟩

/-- What the sink was fed from a queue is in the queue's order. -/
theorem written_in_order (h : (machine J).Reachable s) (control : Bool) :
    s.written.filter (ofLane s.accepted control) <+: positions s.accepted control :=
  ((flow_of_reachable h).sent.filter _).trans ((fifo_of_reachable h).taken control)

/-! ## Data in front of a control frame -/

/-- The data frames written until the writer looks at the control queue, at most. -/
def dataAhead (s : Session) : ℕ :=
  match s.writer with
  | .pollData => 1
  | .taken o | .sending o false => if ofLane s.accepted false o.position then 1 else 0
  | _ => 0

/-- The data frames written. -/
def dataWritten (s : Session) : ℕ := s.written.countP (ofLane s.accepted false)

theorem dataAhead_le (s : Session) : s.dataAhead ≤ 1 := by
  unfold dataAhead
  split
  · exact le_refl _
  · split <;> simp
  · split <;> simp
  · simp

/-- **A control frame that is not written yet**: how many of the writer's steps
it waits for, how many frames and how much data, at most. -/
inductive Waiting (s : Session) (p : ℕ) : ℕ → ℕ → ℕ → Prop
  | queued {k : ℕ} {o : Outgoing} (hk : s.control[k]? = some o) (hp : o.position = p)
      (hrunning : s.writer.running = true) :
      Waiting s p (s.writer.lag + 5 * k + 3) (s.writer.ahead + k) s.dataAhead
  | taken {o : Outgoing} (hpc : s.writer = .taken o) (hp : o.position = p) : Waiting s p 2 0 0
  | sending {o : Outgoing} (hpc : s.writer = .sending o false) (hp : o.position = p) :
      Waiting s p 1 0 0
  /-- The writer takes no more frames. -/
  | lost (n : ℕ) (hpc : s.writer.running = false) : Waiting s p n 0 0

/-- It waits for less after a step of the writer, or is written. -/
theorem Waiting.write {n f d : ℕ} {move : WriterMove} (h : Waiting s p n f d) (hflow : Flow s.pipe)
    (hstep : WriterStep s move s') :
    s'.written = s.written ++ [p] ∨ ∃ n' f' d', Waiting s' p n' f' d' ∧
      (s'.writer.running = true → n' + 1 ≤ n) ∧ s'.written.length + f' ≤ s.written.length + f ∧
      s'.dataWritten + d' ≤ s.dataWritten + d := by
  have gone : ∀ {t : Session}, t.writer.running = false → t.written = s.written →
      t.accepted = s.accepted → ∃ n' f' d', Waiting t p n' f' d' ∧
      (t.writer.running = true → n' + 1 ≤ n) ∧ t.written.length + f' ≤ s.written.length + f ∧
      t.dataWritten + d' ≤ s.dataWritten + d := by
    intro t hpc hwritten haccepted
    refine ⟨0, 0, 0, .lost 0 hpc, fun hr => ?_, by rw [hwritten]; omega, ?_⟩
    · rw [hpc] at hr
      cases hr
    · simp only [dataWritten, hwritten, haccepted]
      omega
  cases h with
  | @queued k o hk hp hrunning =>
    have moves : ∀ {t : Session}, t.control = s.control → t.writer.running = true →
        t.writer.lag + 1 ≤ s.writer.lag →
        t.written.length + t.writer.ahead ≤ s.written.length + s.writer.ahead →
        t.dataWritten + t.dataAhead ≤ s.dataWritten + s.dataAhead →
        ∃ n' f' d', Waiting t p n' f' d' ∧
          (t.writer.running = true → n' + 1 ≤ s.writer.lag + 5 * k + 3) ∧
          t.written.length + f' ≤ s.written.length + (s.writer.ahead + k) ∧
          t.dataWritten + d' ≤ s.dataWritten + s.dataAhead := by
      intro t hcontrol hrunning' hlag hahead hdata
      exact ⟨_, _, _, .queued (by rw [hcontrol]; exact hk) hp hrunning', fun _ => by omega,
        by omega, hdata⟩
    cases hstep with
    | stops | discards | cancels | fails | ends => exact .inr (gone rfl rfl rfl)
    | polls hpc =>
      exact .inr (moves rfl rfl (by simp [hpc, WriterPc.lag]) (by simp [hpc, WriterPc.ahead])
        (by simp [hpc, dataWritten, dataAhead]))
    | @takesControl head rest hpc hqueue =>
      obtain ⟨origin, hhead⟩ := hflow.control head (by simp [Session.pipe, hqueue])
      have hlane : ofLane s.accepted false head.position = false := by
        simp [ofLane, show s.accepted[head.position]? = some ⟨true, head.text, origin⟩ from hhead]
      rw [hqueue] at hk
      cases k with
      | zero =>
        obtain rfl : head = o := by simpa using hk
        exact .inr ⟨2, 0, 0, .taken rfl hp, fun _ => by omega, by simp, by simp [dataWritten]⟩
      | succ k =>
        refine .inr ⟨_, _, _, .queued (k := k) (by simpa using hk) hp rfl, fun _ => ?_, ?_, ?_⟩
        · simp only [hpc, WriterPc.lag]
          omega
        · simp only [hpc, WriterPc.ahead]
          omega
        · simp [hpc, dataWritten, dataAhead, hlane]
    | noControl hpc hqueue =>
      rw [hqueue] at hk
      cases hk
    | takesData hpc =>
      refine .inr (moves rfl rfl (by simp [hpc, WriterPc.lag]) (by simp [hpc, WriterPc.ahead]) ?_)
      simp only [hpc, dataWritten, dataAhead]
      split <;> omega
    | noData hpc =>
      exact .inr (moves rfl rfl (by simp [hpc, WriterPc.lag]) (by simp [hpc, WriterPc.ahead])
        (by simp [hpc, dataWritten, dataAhead]))
    | sends hpc =>
      exact .inr (moves rfl rfl (by simp [hpc, WriterPc.lag]) (by simp [hpc, WriterPc.ahead])
        (by simp [hpc, dataWritten, dataAhead]))
    | feeds hpc =>
      exact .inr (moves rfl rfl (by simp [hpc, WriterPc.lag]) (by simp [hpc, WriterPc.ahead])
        (by simp [hpc, dataWritten, dataAhead, List.countP_append, List.countP_singleton]))
    | flushes hpc =>
      exact .inr (moves rfl rfl (by simp [hpc, WriterPc.lag]) (by simp [hpc, WriterPc.ahead, release])
        (by simp [hpc, dataWritten, dataAhead, release]))
  | taken hpc hp =>
    cases hstep with
    | discards => exact .inr (gone rfl rfl rfl)
    | sends hpc' =>
      obtain rfl := WriterPc.taken.inj (hpc'.symm.trans hpc)
      exact .inr ⟨1, 0, 0, .sending rfl hp, fun _ => by omega, by simp, by simp [dataWritten]⟩
    | _ hpc' => simp [hpc] at hpc'
  | sending hpc hp =>
    cases hstep with
    | cancels | fails => exact .inr (gone rfl rfl rfl)
    | feeds hpc' =>
      obtain ⟨rfl, -⟩ := WriterPc.sending.inj (hpc'.symm.trans hpc)
      exact .inl (by rw [hp])
    | _ hpc' => simp [hpc] at hpc'
  | lost _ hpc =>
    cases hstep with
    | ends => exact .inr (gone rfl rfl rfl)
    | _ hpc' => simp [hpc', WriterPc.running] at hpc

/-- Whether a step is one of the writer. -/
def Event.writes : Event J → Bool
  | .writer _ => true
  | _ => false

/-- The frame in the writer's hands stays in its queue. -/
theorem dataAhead_of_extends (hflow : Flow s.pipe) (haccepted : s.accepted <+: s'.accepted)
    (hwriter : s'.writer = s.writer) : s'.dataAhead = s.dataAhead := by
  have held : ∀ o, s.writer.hand = some o →
      ofLane s'.accepted false o.position = ofLane s.accepted false o.position := by
    intro o ho
    obtain ⟨a, ha, -⟩ := hflow.hand o (by simp [Session.pipe, ho])
    exact ofLane_of_extends haccepted (List.getElem?_eq_some_iff.mp ha).1
  unfold dataAhead
  rw [hwriter]
  cases hpc : s.writer with
  | taken o => simp only [held o (by simp [hpc, WriterPc.hand])]
  | sending o fed =>
    cases fed with
    | false => simp only [held o (by simp [hpc, WriterPc.hand])]
    | true => rfl
  | _ => rfl

theorem dataWritten_of_extends (hflow : Flow s.pipe) (haccepted : s.accepted <+: s'.accepted)
    (hwritten : s'.written = s.written) : s'.dataWritten = s.dataWritten := by
  unfold dataWritten
  rw [hwritten]
  exact List.countP_congr fun p hp => by
    rw [ofLane_of_extends haccepted (hflow.taken p (hflow.sent.subset hp))]

/-- It waits for no more after any other step. -/
theorem Waiting.other {n f d : ℕ} (h : Waiting s p n f d) (hflow : Flow s.pipe)
    (hstep : FlowStep J s s' e) : s'.written = s.written ++ [p] ∨ ∃ n' f' d', Waiting s' p n' f' d' ∧
      (s'.writer.running = true → n' ≤ n) ∧ s'.written.length + f' ≤ s.written.length + f ∧
      s'.dataWritten + d' ≤ s.dataWritten + d := by
  have stays : s.control <+: s'.control → s.accepted <+: s'.accepted → s'.writer = s.writer →
      s'.written = s.written → ∃ n' f' d', Waiting s' p n' f' d' ∧
        (s'.writer.running = true → n' ≤ n) ∧ s'.written.length + f' ≤ s.written.length + f ∧
        s'.dataWritten + d' ≤ s.dataWritten + d := by
    intro hcontrol haccepted hwriter hwritten
    have hdata := dataAhead_of_extends hflow haccepted hwriter
    have hcount := dataWritten_of_extends hflow haccepted hwritten
    refine ⟨n, f, d, ?_, fun _ => le_refl _, by rw [hwritten], by rw [hcount]⟩
    cases h with
    | queued hk hp hrunning =>
      rw [← hwriter, ← hdata]
      exact .queued (getElem?_of_extends hcontrol hk) hp (by rw [hwriter]; exact hrunning)
    | taken hpc hp => exact .taken (hwriter.trans hpc) hp
    | sending hpc hp => exact .sending (hwriter.trans hpc) hp
    | lost n hpc => exact .lost n (by rw [hwriter]; exact hpc)
  cases hstep with
  | quiet hpipe =>
    refine .inr (stays ?_ ?_ (congrArg Pipe.writer hpipe) (congrArg Pipe.written hpipe))
    · rw [show s'.control = s.control from congrArg Pipe.control hpipe]
    · rw [show s'.accepted = s.accepted from congrArg Pipe.accepted hpipe]
  | @pushes origin q r _ _ _ _ hpipe =>
    refine .inr (stays ?_ ?_ (congrArg Pipe.writer hpipe) (congrArg Pipe.written hpipe))
    · rw [show s'.control = (s.push origin q r).control from congrArg Pipe.control hpipe]
      simp only [push]
      split
      · exact List.prefix_append _ _
      · exact List.prefix_refl _
    · rw [show s'.accepted = s.accepted ++ [⟨q.control, q.text, origin⟩] from
        congrArg Pipe.accepted hpipe]
      exact List.prefix_append _ _
  | writes hstep =>
    rcases h.write hflow hstep with hwritten | ⟨n', f', d', hwaiting, hsteps, hframes, hdata⟩
    · exact .inl hwritten
    · exact .inr ⟨n', f', d', hwaiting, fun hr => by have := hsteps hr; omega, hframes, hdata⟩
  | drops hpipe =>
    have hwritten : s'.written = s.written := congrArg Pipe.written hpipe
    have hcount := dataWritten_of_extends hflow
      (by rw [show s'.accepted = s.accepted from congrArg Pipe.accepted hpipe]) hwritten
    refine .inr ⟨0, 0, 0, .lost 0 ?_, fun hr => ?_, by rw [hwritten]; omega, by rw [hcount]; omega⟩
    all_goals rw [show s'.writer = .ended from congrArg Pipe.writer hpipe] at *
    · rfl
    · cases hr

/-- **A step brings a control frame nearer**, or writes it. -/
theorem Waiting.step {n f d : ℕ} (h : Waiting s p n f d) (hr : (machine J).Reachable s)
    (hn : (machine J).next s e = some s') : s'.written = s.written ++ [p] ∨ ∃ n' f' d',
      Waiting s' p n' f' d' ∧
      (s'.writer.running = true → n' + (if e.writes then 1 else 0) ≤ n) ∧
      s'.written.length + f' ≤ s.written.length + f ∧ s'.dataWritten + d' ≤ s.dataWritten + d := by
  have hflow := flow_of_reachable hr
  have hother := h.other hflow (step_of_next hn).flow
  cases e with
  | writer move => exact h.write hflow (writerStep_of_next hn)
  | _ => exact hother

/-- A frame that waits in the control queue has not been written. -/
theorem not_mem_of_queued (hflow : Flow s.pipe) {o : Outgoing} (ho : o ∈ s.control) :
    o.position ∉ s.written := by
  intro hmem
  have honce : (s.takenLog ++ (s.control ++ s.data).map Outgoing.position).Nodup := hflow.once
  refine (List.nodup_append.mp honce).2.2 o.position (hflow.sent.subset hmem) o.position ?_ rfl
  exact List.mem_map.mpr ⟨o, List.mem_append_left _ ho, rfl⟩

/-- A frame that waits has not been written. -/
theorem Waiting.not_mem {n f d : ℕ} (h : Waiting s p n f d) (hflow : Flow s.pipe)
    (hrunning : s.writer.running = true) : p ∉ s.written := by
  have hfed : s.takenLog = s.written ++ s.writer.unfed := hflow.fed hrunning
  have honce : (s.takenLog ++ (s.control ++ s.data).map Outgoing.position).Nodup := hflow.once
  rw [hfed] at honce
  have hand : s.writer.unfed = [p] → p ∉ s.written := by
    intro hunfed hmem
    rw [hunfed] at honce
    have hdisjoint := (List.nodup_append.mp (List.nodup_append.mp honce).1).2.2
    exact hdisjoint p hmem p (List.mem_singleton_self p) rfl
  cases h with
  | queued hk hp =>
    rw [← hp]
    exact not_mem_of_queued hflow (List.mem_of_getElem? hk)
  | taken hpc hp => exact hand (by rw [hpc, ← hp]; rfl)
  | sending hpc hp => exact hand (by rw [hpc, ← hp]; rfl)
  | lost _ hpc =>
    rw [hpc] at hrunning
    cases hrunning

/-- A writer that takes no more frames has written none in the step. -/
theorem written_of_next (hn : (machine J).next s e = some s') :
    s'.writer.running = true ∨ s'.written = s.written := by
  cases (step_of_next hn).flow with
  | quiet hpipe => exact .inr (congrArg Pipe.written hpipe)
  | pushes _ _ _ _ hpipe => exact .inr (congrArg Pipe.written hpipe)
  | drops hpipe => exact .inr (congrArg Pipe.written hpipe)
  | writes hstep =>
    cases hstep with
    | feeds => exact .inl rfl
    | _ => exact .inr rfl

/-- What was accepted and written stays so in every run. -/
theorem extends_of_run {es : List (Event J)} (h : (machine J).run s es = some t) :
    s.accepted <+: t.accepted ∧ s.written <+: t.written := by
  refine Machine.Path.relates (R := fun s t : Session => s.accepted <+: t.accepted ∧
    s.written <+: t.written) ?_ ?_ ?_ (Machine.path_of_run h)
  · exact fun s => ⟨List.prefix_refl _, List.prefix_refl _⟩
  · exact fun h h' => ⟨h.1.trans h'.1, h.2.trans h'.2⟩
  · intro s e t _ hn
    have hgrows := (step_of_next hn).flow.grows
    exact ⟨hgrows.1, hgrows.2.1⟩

/-- What was written before a frame, or all of it. -/
def front (t : Session) (p : ℕ) : List ℕ := t.written.takeWhile (· ≠ p)

theorem ne_of_not_mem {l : List ℕ} (h : p ∉ l) : ∀ q ∈ l, decide (q ≠ p) = true := by
  intro q hq
  refine decide_eq_true ?_
  rintro rfl
  exact h hq

theorem front_of_not_mem (h : p ∉ t.written) : t.front p = t.written := by
  rw [front, List.takeWhile_eq_self_iff]
  exact ne_of_not_mem h

theorem front_of_extends (hp : p ∉ s.written) (h : s.written ++ [p] <+: t.written) :
    t.front p = s.written := by
  obtain ⟨more, hmore⟩ := h
  rw [front, ← hmore, List.append_assoc, List.takeWhile_append_of_pos (ne_of_not_mem hp)]
  simp

/-- **What goes before a control frame**, in every run from where it waits. -/
theorem front_of_run {n f d : ℕ} {es : List (Event J)} (hr : (machine J).Reachable s)
    (h : Waiting s p n f d) (hp : p ∉ s.written) (hrun : (machine J).run s es = some t) :
    (t.front p).length ≤ s.written.length + f ∧
      (t.front p).countP (ofLane t.accepted false) ≤ s.dataWritten + d ∧
      (t.isOpen = true → p ∉ t.written → es.countP Event.writes < n) := by
  induction es generalizing s n f d with
  | nil =>
    obtain rfl : s = t := by simpa [Machine.run] using hrun
    rw [front_of_not_mem hp]
    refine ⟨by omega, by simp only [dataWritten]; omega, fun hopen _ => ?_⟩
    have hrunning := running_of_isOpen hr hopen
    cases h with
    | lost _ hpc =>
      rw [hpc] at hrunning
      cases hrunning
    | _ => simp
  | cons e es ih =>
    simp only [Machine.run, Option.bind_eq_some_iff] at hrun
    obtain ⟨u, hu, hrest⟩ := hrun
    have hru := hr.step trivial hu
    have hflow := flow_of_reachable hr
    obtain ⟨haccepted, hwritten⟩ := extends_of_run hrest
    rcases h.step hr hu with hnow | ⟨n', f', d', hwaiting, hsteps, hframes, hdata⟩
    · -- it is written now, behind what was written before
      rw [hnow] at hwritten
      rw [front_of_extends hp hwritten]
      have hcount : s.written.countP (ofLane t.accepted false) = s.dataWritten :=
        List.countP_congr fun q hq => by
          rw [ofLane_of_extends ((step_of_next hu).flow.grows.1.trans haccepted)
            (hflow.taken q (hflow.sent.subset hq))]
      exact ⟨by omega, by omega, fun _ hnot => absurd (hwritten.subset (by simp)) hnot⟩
    · have hmem : p ∉ u.written := by
        rcases written_of_next hu with hrunning | hsame
        · exact hwaiting.not_mem (flow_of_reachable hru) hrunning
        · rw [hsame]
          exact hp
      obtain ⟨hlength, hcount, hleft⟩ := ih hru hwaiting hmem hrest
      refine ⟨by omega, by omega, fun hopen hnot => ?_⟩
      have hopen' : u.isOpen = true := by
        by_contra hclosed
        have hno := notOpen_of_path (Machine.path_of_run hrest) (by simpa using hclosed)
        rw [hopen] at hno
        cases hno
      have hlt := hleft hopen hnot
      have hstep := hsteps (running_of_isOpen hru hopen')
      rw [List.countP_cons]
      omega

/-- **Control frames pass data.** -/
structure ControlFirst (J : JsonText) (s : Session) : Prop where
  /-- What the sink was fed from a queue is in the queue's order. -/
  order : ∀ control, s.written.filter (ofLane s.accepted control) <+: positions s.accepted control
  /-- Before a control frame go the control frames before it, one more frame, and one
  data frame in all; -/
  front : ∀ (k : ℕ) (o : Outgoing), s.control[k]? = some o → ∀ es t, (machine J).run s es = some t →
    (t.front o.position).length ≤ s.written.length + k + 1 ∧
      (t.front o.position).countP (ofLane t.accepted false) ≤ s.dataWritten + 1
  /-- and it is written after so many of the writer's steps, of which one is always possible. -/
  soon : ∀ (k : ℕ) (o : Outgoing), s.control[k]? = some o → ∀ es t, (machine J).run s es = some t →
    t.isOpen = true → o.position ∉ t.written → es.countP Event.writes < 5 * k + 8 ∧
      ∃ move u, (machine J).next t (.writer move) = some u

/-- The writer of an open session can step, where no control frame waits or one does. -/
theorem exists_writer (h : (machine J).Reachable t) (hopen : t.isOpen = true) :
    ∃ move u, (machine J).next t (.writer move) = some u := by
  have hrunning := running_of_isOpen h hopen
  have can : ∀ move u, t.writerNext move = some u →
      ∃ move u, (machine J).next t (.writer move) = some u :=
    fun move u hu => ⟨move, u, hu⟩
  cases hpc : t.writer with
  | pollClosing =>
    by_cases hsignal : t.signalled = true
    · exact can .steps _ (by simp [writerNext, hpc, hsignal]; rfl)
    · exact can .steps _ (by simp [writerNext, hpc, hsignal]; rfl)
  | pollControl =>
    cases hqueue : t.control with
    | nil => exact can .steps _ (by simp [writerNext, hpc, hqueue]; rfl)
    | cons o rest => exact can .steps _ (by simp [writerNext, hpc, hqueue]; rfl)
  | pollData =>
    cases hqueue : t.data with
    | nil => exact can .steps _ (by simp [writerNext, hpc, hqueue]; rfl)
    | cons o rest => exact can .steps _ (by simp [writerNext, hpc, hqueue]; rfl)
  | taken o => exact can .steps _ (by simp [writerNext, hpc, hopen]; rfl)
  | sending o fed =>
    cases fed with
    | false => exact can .feeds _ (by simp [writerNext, hpc]; rfl)
    | true => exact can .flushes _ (by simp [writerNext, hpc]; rfl)
  | closing left => rw [hpc] at hrunning; cases hrunning
  | ended => rw [hpc] at hrunning; cases hrunning

/-- **Control frames pass data**, in every run. -/
theorem control_passes_data (h : (machine J).Reachable s) : ControlFirst J s := by
  have hflow := flow_of_reachable h
  refine ⟨written_in_order h, fun k o hk es t hrun => ?_, fun k o hk es t hrun hopen hnot => ?_⟩
  · have hp := not_mem_of_queued hflow (List.mem_of_getElem? hk)
    have hahead := s.writer.ahead_le
    have hdata := s.dataAhead_le
    cases hrunning : s.writer.running with
    | true =>
      obtain ⟨hlength, hcount, -⟩ := front_of_run h (.queued hk rfl hrunning) hp hrun
      exact ⟨by omega, by omega⟩
    | false =>
      obtain ⟨hlength, hcount, -⟩ := front_of_run h (.lost 0 hrunning) hp hrun
      exact ⟨by omega, by omega⟩
  · have hp := not_mem_of_queued hflow (List.mem_of_getElem? hk)
    have hlag := s.writer.lag_le
    have hopen₀ : s.isOpen = true := by
      by_contra hclosed
      have hno := notOpen_of_path (Machine.path_of_run hrun) (by simpa using hclosed)
      rw [hopen] at hno
      cases hno
    obtain ⟨-, -, hsteps⟩ :=
      front_of_run h (.queued hk rfl (running_of_isOpen h hopen₀)) hp hrun
    have hlt := hsteps hopen hnot
    exact ⟨by omega, exists_writer (h.trans (Machine.path_of_run hrun)) hopen⟩

/-- A message waits, the writer has looked at the control queue, and a heartbeat is queued. -/
def passedRun : List (Event compactJson) :=
  .send zeroBytes (.ofJson compactJson (tagged "t" [])) :: List.replicate 7 (.exchange 0) ++
    [.writer .steps, .writer .steps, .initiateHeartbeat 5] ++ List.replicate 6 (.beat 0)

theorem control_passes_data_passedRun : ∃ s, (machine compactJson).run (small []) passedRun = some s ∧
    s.control.length = 1 ∧ s.data.length = 1 ∧ s.writer = .pollData ∧ ControlFirst compactJson s := by
  have hrun : ((machine compactJson).run (small []) passedRun).any (fun s =>
      decide (s.control.length = 1 ∧ s.data.length = 1 ∧ s.writer = .pollData)) = true := by
    decide +kernel
  obtain ⟨s, hs, hend⟩ := Machine.exists_of_run hrun
  obtain ⟨hcontrol, hdata, hwriter⟩ := of_decide_eq_true hend
  exact ⟨s, hs, hcontrol, hdata, hwriter,
    control_passes_data (Machine.reachable_of_run (init_small compactJson []) hs)⟩

end Session

end Vcmp
