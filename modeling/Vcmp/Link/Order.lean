import Vcmp.Link.Model
import Vcmp.Session.Covers
import Vcmp.Session.Pending
import Vcmp.Session.Works
/-!
# What arrivals tell of the order of the peer's frames

The arrivals one side compares are those of frames the other side's
writer took from its queues in that order. That is not the order in which
the frames were accepted: a control frame passes the data that waits, and
data may pass a control frame accepted while the writer, having found the
control queue empty, is about to look at the data queue. Where no
acknowledgement is accepted there, none is passed by data accepted later.
-/

namespace Vcmp

open Session

/-- One position stands before another in a list. -/
def Before (l : List ℕ) (p q : ℕ) : Prop := ∃ i j : ℕ, i < j ∧ l[i]? = some p ∧ l[j]? = some q

/-- Positions found in a prefix of a list without repetitions compare as their places do. -/
theorem before_iff_lt {l m : List ℕ} (hextends : m <+: l) (hnodup : l.Nodup) {i j p q : ℕ}
    (hi : m[i]? = some p) (hj : m[j]? = some q) : Before l p q ↔ i < j := by
  have hi' := getElem?_of_extends hextends hi
  have hj' := getElem?_of_extends hextends hj
  have unique : ∀ {a b r : ℕ}, l[a]? = some r → l[b]? = some r → a = b := by
    intro a b r ha hb
    have hlt := (List.getElem?_eq_some_iff.mp ha).1
    exact (List.getElem?_inj hlt hnodup).mp (ha.trans hb.symm)
  constructor
  · rintro ⟨a, b, hab, ha, hb⟩
    rw [unique hi' ha, unique hj' hb]
    exact hab
  · exact fun hij => ⟨i, j, hij, hi', hj'⟩

namespace Session

variable {J : JsonText} {s s' : Session} {e : Event J}

/-! ## One side -/

/-- The text of an acknowledgement. -/
def AckText (text : String) : Prop := ∃ id payload, Frame.parse text = .ok (.ack id payload)

/-- **No acknowledgement is accepted between the writer's polls**: not after
its look at the control queue and before its look at the data queue. -/
def NoAckBetweenPolls (s : Session) (e : Event J) : Prop :=
  s.writer = .pollData → ∀ origin q p, e.origin = some origin →
    s.enqueueOf origin = some q → q.pc = .pushing p → ¬ AckText q.text

/-- The same, as a check. -/
def noAckBetweenPolls (s : Session) (e : Event J) : Bool :=
  match s.writer, (e.origin.bind s.enqueueOf) with
  | .pollData, some ⟨text, _, .pushing _⟩ =>
    match Frame.parse text with
    | .ok (.ack _ _) => false
    | _ => true
  | _, _ => true

theorem noAckBetweenPolls_iff (s : Session) (e : Event J) (h : noAckBetweenPolls s e = true) :
    NoAckBetweenPolls s e := by
  rintro hpoll origin ⟨text, control, pc⟩ p he hq rfl ⟨id, payload, hparse⟩
  have hbind : e.origin.bind s.enqueueOf = some ⟨text, control, .pushing p⟩ := by
    rw [he, Option.bind_some, hq]
  simp [noAckBetweenPolls, hpoll, hbind, hparse] at h

/-- **Acknowledgements are not passed by later data.** -/
structure AcksFirst (s : Session) : Prop where
  polled : s.writer = .pollData → ∀ o ∈ s.control, ∀ acc, s.accepted[o.position]? = some acc →
    ¬ AckText acc.text
  taken : ∀ (k p : ℕ) (acc : Accepted), s.takenLog[k]? = some p → s.accepted[p]? = some acc →
    acc.control = false → ∀ (r : ℕ) (ack : Accepted), r < p → s.accepted[r]? = some ack →
      AckText ack.text → r ∈ s.takenLog.take k

/-- What was taken stays as it is while more frames are accepted. -/
theorem AcksFirst.taken_of_prefix (h : AcksFirst s) (hflow : Flow s.pipe)
    (haccepted : s.accepted <+: s'.accepted) (htaken : s'.takenLog = s.takenLog) :
    ∀ (k p : ℕ) (acc : Accepted), s'.takenLog[k]? = some p → s'.accepted[p]? = some acc →
      acc.control = false → ∀ (r : ℕ) (ack : Accepted), r < p → s'.accepted[r]? = some ack →
        AckText ack.text → r ∈ s'.takenLog.take k := by
  intro k p acc hk hacc hdata r ack hr hack htext
  rw [htaken] at hk ⊢
  have hlt : p < s.accepted.length := hflow.taken p (List.mem_of_getElem? hk)
  have old : ∀ {i : ℕ} {a : Accepted}, i < s.accepted.length → s'.accepted[i]? = some a →
      s.accepted[i]? = some a := by
    intro i a hi ha
    rw [getElem?_of_extends haccepted (List.getElem?_eq_getElem hi)] at ha
    rw [List.getElem?_eq_getElem hi, ha]
  exact h.taken k p acc hk (old hlt hacc) hdata r ack hr (old (by omega) hack) htext

/-- A frame taken last: what was taken before it stays as it is. -/
theorem AcksFirst.taken_concat (h : AcksFirst s) {q : ℕ}
    (hlast : ∀ acc, s.accepted[q]? = some acc → acc.control = false → ∀ (r : ℕ) (ack : Accepted),
      r < q → s.accepted[r]? = some ack → AckText ack.text → r ∈ s.takenLog) :
    ∀ (k p : ℕ) (acc : Accepted), (s.takenLog ++ [q])[k]? = some p → s.accepted[p]? = some acc →
      acc.control = false → ∀ (r : ℕ) (ack : Accepted), r < p → s.accepted[r]? = some ack →
        AckText ack.text → r ∈ (s.takenLog ++ [q]).take k := by
  intro k p acc hk hacc hdata r ack hr hack htext
  rcases getElem?_concat_cases hk with ⟨rfl, rfl⟩ | hold
  · rw [List.take_append_of_le_length (le_refl _), List.take_length]
    exact hlast acc hacc hdata r ack hr hack htext
  · have hlt := (List.getElem?_eq_some_iff.mp hold).1
    rw [List.take_append_of_le_length (by omega)]
    exact h.taken k p acc hold hacc hdata r ack hr hack htext

/-- A writer that is not between its polls. -/
theorem AcksFirst.moves (h : AcksFirst s) (hwriter : s'.writer ≠ .pollData)
    (haccepted : s'.accepted = s.accepted) (htaken : s'.takenLog = s.takenLog) : AcksFirst s' := by
  refine ⟨fun hpc => absurd hpc hwriter, ?_⟩
  rw [haccepted, htaken]
  exact h.taken

/-- **The writer takes data only behind the acknowledgements accepted before it.** -/
theorem AcksFirst.write (hreach : (machine J).Reachable s) (h : AcksFirst s) {move : WriterMove}
    (hstep : WriterStep s move s') : AcksFirst s' := by
  have hflow := flow_of_reachable hreach
  cases hstep with
  | noControl hpc hqueue =>
    refine ⟨fun _ o ho => ?_, h.taken⟩
    rw [show s.control = [] from hqueue] at ho
    cases ho
  | @takesControl o rest hpc hqueue =>
    refine ⟨(fun hpoll => by cases hpoll), h.taken_concat fun acc hacc hdata => ?_⟩
    -- what is taken is no data
    obtain ⟨origin, horigin⟩ := hflow.control o (by simp [Session.pipe, hqueue])
    rw [show s.accepted[o.position]? = some ⟨true, o.text, origin⟩ from horigin] at hacc
    rw [← Option.some.inj hacc] at hdata
    cases hdata
  | @takesData o rest hpc hqueue =>
    refine ⟨(fun hpoll => by cases hpoll), h.taken_concat fun acc hacc hdata r ack hr hack htext => ?_⟩
    have hlt := (List.getElem?_eq_some_iff.mp hack).1
    have halive : s.receivers = true := hflow.alive (by simp [Session.pipe, hpc])
    rcases hflow.queued halive r hlt with htaken | hqueued
    · exact htaken
    · -- an acknowledgement is in neither queue
      obtain ⟨o', ho', rfl⟩ := List.mem_map.mp hqueued
      rcases List.mem_append.mp ho' with ho' | ho'
      · exact absurd htext (h.polled hpc o' ho' ack hack)
      · obtain ⟨origin, horigin⟩ := hflow.data o' ho'
        rw [show s.accepted[o'.position]? = some ⟨false, o'.text, origin⟩ from horigin] at hack
        have hcontrol := Option.some.inj hack
        obtain ⟨id, payload, hparse⟩ := htext
        have hdata := control_of_parse hreach (List.mem_of_getElem? horigin)
          (by rw [hcontrol]; exact hparse)
        exact absurd (hdata.mp rfl) (by simp [Frame.kind])
  | stops => exact h.moves (by simp) rfl rfl
  | polls => exact h.moves (by simp) rfl rfl
  | noData => exact h.moves (by simp) rfl rfl
  | discards => exact h.moves (by simp) rfl rfl
  | sends => exact h.moves (by simp) rfl rfl
  | feeds => exact h.moves (by simp) rfl rfl
  | flushes => exact h.moves (by simp) rfl rfl
  | cancels => exact h.moves (by simp) rfl rfl
  | fails => exact h.moves (by simp) rfl rfl
  | ends => exact h.moves (by simp [dropWriter]) rfl rfl

/-- **No acknowledgement is passed by later data**, in any run where none is
accepted between the polls. -/
theorem acksFirst_of_reachable (h : (machine J).ReachableBy NoAckBetweenPolls s) :
    AcksFirst s := by
  refine h.invariant_of (P := fun s => AcksFirst s) ?_ ?_
  · rintro s ⟨id, limits, handlers, budget, elsewhere, rfl⟩
    refine ⟨(fun hpc => by cases hpc), fun k p acc hk => ?_⟩
    cases hk
  · intro s e s' hreach hok hn ih
    have hflow := flow_of_reachable hreach.reachable
    have hstep := (step_of_next hn).flow
    cases hstep with
    | quiet hpipe =>
      have haccepted : s'.accepted = s.accepted := congrArg Pipe.accepted hpipe
      have hcontrol : s'.control = s.control := congrArg Pipe.control hpipe
      have hwriter : s'.writer = s.writer := congrArg Pipe.writer hpipe
      refine ⟨fun hpc => ?_, ih.taken_of_prefix hflow (by rw [haccepted])
        (congrArg Pipe.takenLog hpipe)⟩
      rw [hcontrol, haccepted]
      exact ih.polled (hwriter ▸ hpc)
    | writes hwrite => exact ih.write hreach.reachable hwrite
    | drops hpipe =>
      have hwriter : s'.writer = .ended := congrArg Pipe.writer hpipe
      exact ih.moves (by rw [hwriter]; simp) (congrArg Pipe.accepted hpipe)
        (congrArg Pipe.takenLog hpipe)
    | @pushes origin q p he hfor hpc hreceivers hpipe =>
      have haccepted : s'.accepted = s.accepted ++ [⟨q.control, q.text, origin⟩] :=
        congrArg Pipe.accepted hpipe
      have hcontrol : s'.control = (s.push origin q p).control := congrArg Pipe.control hpipe
      have hwriter : s'.writer = s.writer := congrArg Pipe.writer hpipe
      refine ⟨fun hpoll o ho acc hacc => ?_, ih.taken_of_prefix hflow
        (by rw [haccepted]; exact List.prefix_append _ _) (congrArg Pipe.takenLog hpipe)⟩
      have hpoll : s.writer = .pollData := hwriter ▸ hpoll
      have hold : o ∈ s.control → ¬ AckText acc.text := by
        intro ho
        obtain ⟨_, horigin⟩ := hflow.control o ho
        have hlt : o.position < s.accepted.length := (List.getElem?_eq_some_iff.mp horigin).1
        rw [haccepted, List.getElem?_append_left hlt] at hacc
        exact ih.polled hpoll o ho acc hacc
      have ho' : o ∈ if q.control then s.control ++ [⟨s.accepted.length, q.text, p⟩]
          else s.control := by
        rw [hcontrol] at ho
        exact ho
      split at ho'
      · rcases List.mem_append.mp ho' with ho' | ho'
        · exact hold ho'
        · rw [List.mem_singleton.mp ho', haccepted] at hacc
          simp only [List.getElem?_concat_length, Option.some.injEq] at hacc
          rw [← hacc]
          exact hok hpoll origin q p he hfor hpc
      · exact hold ho'

end Session

namespace Link

variable {J : JsonText} {ok : Session → Event J → Prop} {a b : Session}

/-! ## Both sides -/

/-- The arrival of the acknowledgement that settled a call, and its place among the texts heard. -/
def acked (x : Exchange) : Option (Arrival × ℕ) :=
  match x.outcome with
  | some (.settled (.ack _ arrival position)) => some (arrival, position)
  | _ => none

/-- **An acknowledgement and a message of one peer**, with their arrivals and
the positions at which the peer accepted them for sending. -/
structure Compared (a b : Session) (ackArrival arrival : Arrival) (p q : ℕ) : Prop where
  ack : ∃ (i : ℕ) (x : Exchange) (position : ℕ), a.exchanges[i]? = some x ∧
    acked x = some (ackArrival, position) ∧ b.written[position]? = some p
  message : ∃ (j : ℕ) (w : Work), a.works[j]? = some w ∧ w.arrival = arrival ∧
    b.written[w.position]? = some q

theorem acked_eq_some {x : Exchange} {arrival : Arrival} {position : ℕ}
    (h : acked x = some (arrival, position)) :
    ∃ payload, x.outcome = some (.settled (.ack payload arrival position)) := by
  unfold acked at h
  split at h
  · rename_i payload _ _ hout
    cases h
    exact ⟨payload, hout⟩
  · cases h

/-- The acknowledgement that settled a call was heard, at its arrival. -/
theorem heard_of_acked (h : (machine J).Reachable a) {i : ℕ} {x : Exchange} {arrival : Arrival}
    {position : ℕ} (hx : a.exchanges[i]? = some x) (hack : acked x = some (arrival, position)) :
    arrival = a.arrivalAt position ∧ ∃ text payload, a.received[position]? = some text ∧
      a.counts text = true ∧ Frame.parse text = .ok (.ack x.id payload) := by
  obtain ⟨payload, hout⟩ := acked_eq_some hack
  obtain ⟨harrival, text, htext, hcounts, hparse⟩ :=
    (registry_of_reachable h).answers hx (.inr hout)
  exact ⟨harrival, text, payload, htext, hcounts, hparse⟩

/-- **What arrivals tell of the order of the peer's frames.** -/
structure ArrivalsOrdered (J : JsonText) (a b : Session) : Prop where
  /-- What settled a call is an acknowledgement of it that the peer accepted and wrote, -/
  acks : ∀ (i : ℕ) (x : Exchange) (arrival : Arrival) (position : ℕ), a.exchanges[i]? = some x →
    acked x = some (arrival, position) → ∃ p acc payload, b.written[position]? = some p ∧
      b.accepted[p]? = some acc ∧ Frame.parse acc.text = .ok (.ack x.id payload)
  /-- and what a handler is invoked for is a message that the peer accepted and wrote. -/
  messages : ∀ (j : ℕ) (w : Work), a.works[j]? = some w → ∃ q acc,
    b.written[w.position]? = some q ∧ b.accepted[q]? = some acc ∧
      Frame.parse acc.text = .ok (.message w.id w.payload)
  /-- The message has the greater arrival exactly when it was taken later by the writer. -/
  taken : ∀ (ackArrival arrival : Arrival) (p q : ℕ), Compared a b ackArrival arrival p q →
    (ackArrival < arrival ↔ Before b.takenLog p q)
  /-- It does where it was accepted later, if no acknowledgement was accepted between polls. -/
  accepted : (link J).ReachableBy (Machine.both Machine.free NoAckBetweenPolls) (a, b) →
    ∀ (ackArrival arrival : Arrival) (p q : ℕ), Compared a b ackArrival arrival p q → p < q →
      ackArrival < arrival

/-- The arrivals of two frames compare as the places at which the peer wrote them. -/
theorem Compared.places (h : ReachableBy J ok a b) {ackArrival arrival : Arrival} {p q : ℕ}
    (hc : Compared a b ackArrival arrival p q) : ∃ k l : ℕ, b.written[k]? = some p ∧
      b.written[l]? = some q ∧ (ackArrival < arrival ↔ k < l) ∧
      (∃ acc, b.accepted[p]? = some acc ∧ AckText acc.text) ∧
      ∃ acc id payload, b.accepted[q]? = some acc ∧
        Frame.parse acc.text = .ok (.message id payload) := by
  obtain ⟨⟨i, x, position, hx, hack, hp⟩, ⟨j, w, hw, rfl, hq⟩⟩ := hc
  obtain ⟨rfl, text, payload, htext, hcounts, hparse⟩ :=
    heard_of_acked h.left.reachable hx hack
  have hkept := (worked_of_reachable h.left.reachable).kept hw
  obtain ⟨text', htext', hcounts', hparse'⟩ := hkept.heard
  obtain ⟨p', accp, hp', haccp, rfl⟩ := accepted_of_received h htext
  obtain ⟨q', accq, hq', haccq, rfl⟩ := accepted_of_received h htext'
  obtain rfl : p = p' := Option.some.inj (hp.symm.trans hp')
  obtain rfl : q = q' := Option.some.inj (hq.symm.trans hq')
  refine ⟨position, w.position, hp, hq, ?_, ⟨accp, haccp, x.id, payload, hparse⟩,
    accq, w.id, w.payload, haccq, hparse'⟩
  rw [hkept.arrival]
  exact arrivalAt_lt htext htext' hcounts hcounts'

/-- **Arrivals follow the order in which the peer's writer took the frames**,
in every run, and do not precede that of acceptance where no acknowledgement
is accepted between the writer's polls. -/
theorem arrivals_follow_frames {a b : Session} (h : ReachableBy J Machine.free a b) :
    ArrivalsOrdered J a b := by
  have hflow := flow_of_reachable h.right.reachable
  have hnodup : b.takenLog.Nodup := (List.nodup_append.mp hflow.once).1
  refine ⟨fun i x arrival position hx hack => ?_, fun j w hw => ?_, fun _ _ p q hc => ?_,
    fun hpolls _ _ p q hc hlt => ?_⟩
  · obtain ⟨-, text, payload, htext, -, hparse⟩ := heard_of_acked h.left.reachable hx hack
    obtain ⟨p, acc, hp, hacc, rfl⟩ := accepted_of_received h htext
    exact ⟨p, acc, payload, hp, hacc, hparse⟩
  · obtain ⟨text, htext, -, hparse⟩ := ((worked_of_reachable h.left.reachable).kept hw).heard
    obtain ⟨q, acc, hq, hacc, rfl⟩ := accepted_of_received h htext
    exact ⟨q, acc, hq, hacc, hparse⟩
  · obtain ⟨k, l, hk, hl, hiff, -, -⟩ := hc.places h
    have hbefore : Before b.takenLog p q ↔ k < l := before_iff_lt hflow.sent hnodup hk hl
    rw [hiff, hbefore]
  · obtain ⟨k, l, hk, hl, hiff, ⟨ack, hack, htext⟩, acc, id, payload, hacc, hparse⟩ := hc.places h
    rw [hiff]
    have hl' : b.takenLog[l]? = some q := getElem?_of_extends hflow.sent hl
    have hdata : acc.control = false :=
      (control_of_parse h.right.reachable (List.mem_of_getElem? hacc) hparse).mpr rfl
    -- the acknowledgement was taken before the message
    have hmem := (acksFirst_of_reachable hpolls.couple_snd).taken l q acc hl' hacc hdata p ack hlt
      hack htext
    obtain ⟨m, hm⟩ := List.getElem?_of_mem hmem
    have hml : m < l := by
      have hbound := (List.getElem?_eq_some_iff.mp hm).1
      rw [List.length_take] at hbound
      omega
    rw [List.getElem?_take_of_lt hml] at hm
    exact (before_iff_lt hflow.sent hnodup hk hl).mp ⟨m, l, hml, hm, hl'⟩

/-! ## Runs

A side sends one message, which the other acknowledges, and the other
sends one message too. The runs differ in when the other side's writer
comes to look at its queues. -/

/-- The message is accepted after the acknowledgement, and taken after it. -/
def orderedRun : List (Event compactJson ⊕ Event compactJson) :=
  onLeft (sendsRun ++ looksRun ++ writesRun) ++
    onRight (startsRun ++ acksRun .null ++ sendsRun ++ (.writer .steps :: writesRun) ++ looksRun ++
      writesRun) ++
    onLeft (settlesRun "ACKAAAAAAAAAAAA" ++ [.receive sentText])

/-- The message is accepted before the acknowledgement, which passes it. -/
def overtakenRun : List (Event compactJson ⊕ Event compactJson) :=
  onLeft (sendsRun ++ looksRun ++ writesRun) ++
    onRight (startsRun ++ sendsRun ++ acksRun .null ++ (.writer .steps :: writesRun) ++ looksRun ++
      writesRun) ++
    onLeft (settlesRun "ACKAAAAAAAAAAAA" ++ [.receive sentText])

/-- Both are accepted between the writer's polls, the message last, and it passes. -/
def betweenPollsRun : List (Event compactJson ⊕ Event compactJson) :=
  onLeft (sendsRun ++ looksRun ++ writesRun) ++
    onRight (startsRun ++ looksRun ++ acksRun .null ++ sendsRun ++ writesRun ++
      (.writer .steps :: writesRun)) ++
    onLeft ([.receive sentText, .work 0, .work 0, .work 0] ++ settlesRun "ACKAAAAAAAAAAAA")

/-- The arrivals of the acknowledgement of the first call and of the first
message, and the positions of their frames. -/
def compares (ackArrival arrival : Arrival) (p q : ℕ) (s : Session × Session) : Bool :=
  match s.1.exchanges[0]?.bind acked, s.1.works[0]? with
  | some (acked, position), some w => decide (acked = ackArrival ∧ w.arrival = arrival ∧
      s.2.written[position]? = some p ∧ s.2.written[w.position]? = some q)
  | _, _ => false

theorem compared_of_compares {ackArrival arrival : Arrival} {p q : ℕ}
    (h : compares ackArrival arrival p q (a, b) = true) : Compared a b ackArrival arrival p q := by
  unfold compares at h
  split at h
  · rename_i arrival' position w hx hw
    obtain ⟨rfl, rfl, hp, hq⟩ := of_decide_eq_true h
    obtain ⟨x, hx, hack⟩ := Option.bind_eq_some_iff.mp hx
    exact ⟨⟨0, x, position, hx, hack, hp⟩, ⟨0, w, hw, rfl, hq⟩⟩
  · cases h

/-- In the ordered run both say the same. -/
theorem arrivals_follow_frames_orderedRun : ∃ a b,
    (link compactJson).run (small typed, small typed) orderedRun = some (a, b) ∧
      Compared a b ⟨1, 1⟩ ⟨1, 2⟩ 0 1 ∧ ArrivalsOrdered compactJson a b ∧
      (⟨1, 1⟩ : Arrival) < ⟨1, 2⟩ := by
  have hrun : ((link compactJson).run (small typed, small typed) orderedRun).any
      (compares ⟨1, 1⟩ ⟨1, 2⟩ 0 1) = true := by decide +kernel
  obtain ⟨⟨a, b⟩, hs, hend⟩ := Machine.exists_of_run hrun
  have hc := compared_of_compares hend
  have hpolls : ReachableBy compactJson NoAckBetweenPolls a b :=
    reachableBy_of_run noAckBetweenPolls noAckBetweenPolls_iff (by decide +kernel) hs
  have hordered := arrivals_follow_frames (ReachableBy.free hpolls)
  exact ⟨a, b, hs, hc, hordered, hordered.accepted hpolls.freeLeft _ _ 0 1 hc (by decide)⟩

/-- **Arrivals tell which frame was accepted first.** -/
def ArrivalsFollowAcceptance (a b : Session) : Prop :=
  ∀ (ackArrival arrival : Arrival) (p q : ℕ), Compared a b ackArrival arrival p q →
    (ackArrival < arrival ↔ p < q)

/-- **They do not**: an acknowledgement passes data that waits, and data may
pass an acknowledgement accepted between the polls. -/
theorem arrivals_against_acceptance :
    (∃ a b, ReachableBy compactJson Machine.free a b ∧ Compared a b ⟨1, 1⟩ ⟨1, 2⟩ 1 0 ∧
      ¬ ArrivalsFollowAcceptance a b) ∧
    ∃ a b, ReachableBy compactJson Machine.free a b ∧ Compared a b ⟨1, 2⟩ ⟨1, 1⟩ 0 1 ∧
      ¬ ArrivalsFollowAcceptance a b := by
  have reach : ∀ {es a b}, (link compactJson).run (small typed, small typed) es = some (a, b) →
      ReachableBy compactJson Machine.free a b := by
    intro es a b hs
    refine ⟨(small typed, small typed), ⟨init_small _ _, init_small _ _⟩, ?_⟩
    exact (Machine.path_of_run hs).mono fun _ e _ => by cases e <;> exact trivial
  have overtaken : ((link compactJson).run (small typed, small typed) overtakenRun).any
      (compares ⟨1, 1⟩ ⟨1, 2⟩ 1 0) = true := by decide +kernel
  have between : ((link compactJson).run (small typed, small typed) betweenPollsRun).any
      (compares ⟨1, 2⟩ ⟨1, 1⟩ 0 1) = true := by decide +kernel
  obtain ⟨⟨a, b⟩, hs, hend⟩ := Machine.exists_of_run overtaken
  obtain ⟨⟨c, d⟩, hs', hend'⟩ := Machine.exists_of_run between
  have hc := compared_of_compares hend
  have hc' := compared_of_compares hend'
  refine ⟨⟨a, b, reach hs, hc, fun h => ?_⟩, ⟨c, d, reach hs', hc', fun h => ?_⟩⟩
  · exact absurd ((h _ _ 1 0 hc).mp (by decide)) (by decide)
  · exact absurd ((h _ _ 0 1 hc').mpr (by decide)) (by decide)

end Link

end Vcmp
