import Vcmp.Session.Answers
import Vcmp.Session.Covers
import Vcmp.Session.Pending
/-!
# Whose frames a session sends

Where nobody calls `send_raw`, every frame on a session's queues is one
the library made. A message is the frame of a call, an acknowledgement
is the answer of a work whose handler returned, and either is there
once. How often a handler was invoked for the messages with an id is
counted over the works, and the count goes up exactly where a handler
starts.
-/

namespace Vcmp

/-- How often the handler of a work was invoked, for messages with an id. -/
def Work.invocations (id : String) (w : Work) : ℕ := if w.id = id ∧ w.invoked.isSome then 1 else 0

namespace Session

variable {J : JsonText} {s s' : Session} {e : Event J} {i j : ℕ} {w : Work} {acc : Accepted}

/-! ## Calls of `send_raw` -/

/-- Nobody calls `send_raw`. -/
def NoRaw (_ : Session) (e : Event J) : Prop := ∀ text, e ≠ .sendRaw text

/-- The same, as a check. -/
def noRaw (_ : Session) : Event J → Bool
  | .sendRaw _ => false
  | _ => true

theorem noRaw_iff (s : Session) (e : Event J) (h : noRaw s e = true) : NoRaw s e := by
  rintro text rfl
  cases h

/-- A step makes a call of `send_raw`, goes on with one, or leaves them alone. -/
theorem Step.raws (h : Step J s e s') :
    s'.raws = s.raws ∨ (∃ text, e = .sendRaw text) ∨
      ∃ (i : ℕ) (q : Enqueue), s.raws[i]? = some (.sending q) := by
  cases h with
  | exchange hx h =>
    cases h with
    | enqueues _ he => obtain ⟨_, _, _, _, _, rfl⟩ := he.frame; exact .inl rfl
    | _ => exact .inl rfl
  | beat hb h =>
    cases h with
    | enqueues _ he => obtain ⟨_, _, _, _, _, rfl⟩ := he.frame; exact .inl rfl
    | _ => exact .inl rfl
  | sendRaw => exact .inr (.inl ⟨_, rfl⟩)
  | raw hraw => exact .inr (.inr ⟨_, _, hraw⟩)
  | work hw h =>
    cases h with
    | writes _ he => obtain ⟨_, _, _, _, _, rfl⟩ := he.frame; exact .inl rfl
    | unwritten _ he => obtain ⟨_, _, _, _, _, rfl⟩ := he.frame; exact .inl rfl
    | written _ he => obtain ⟨_, _, _, _, _, rfl⟩ := he.frame; exact .inl rfl
    | _ => exact .inl rfl
  | receive _ h => cases h <;> exact .inl rfl
  | drive h => cases h <;> exact .inl rfl
  | writer h => cases h <;> exact .inl rfl
  | _ => exact .inl rfl

/-- Nobody is in a call of `send_raw`. -/
theorem raws_of_reachable (h : (machine J).ReachableBy NoRaw s) : s.raws = [] := by
  refine h.invariant_of (P := fun s => s.raws = []) ?_ ?_
  · rintro s ⟨id, limits, handlers, budget, elsewhere, rfl⟩
    rfl
  · intro s e s' _ hok hn ih
    rcases (step_of_next hn).raws with hsame | ⟨text, rfl⟩ | ⟨i, q, hraw⟩
    · rw [hsame, ih]
    · exact absurd rfl (hok text)
    · rw [ih] at hraw
      cases hraw

/-- **No frame came through `send_raw`.** -/
theorem origin_ne_raw (h : (machine J).ReachableBy NoRaw s) (hacc : acc ∈ s.accepted) (k : ℕ) :
    acc.origin ≠ .raw k := by
  refine forall_accepted (P := fun _ acc => acc.origin ≠ .raw k) ?_ ?_ h acc hacc
  · exact fun _ _ _ _ _ hne => hne
  · rintro s origin q p hreach hfor - (rfl : origin = .raw k)
    have hraw : s.raws[k]?.bind RawPc.enqueue = some q := hfor
    rw [raws_of_reachable hreach] at hraw
    cases hraw

/-! ## Messages and acknowledgements -/

/-- A frame of a work is the answer it ended with. -/
theorem work_of_accepted (h : (machine J).Reachable s) (hacc : acc ∈ s.accepted)
    (ho : acc.origin = .work j) : ∃ (w : Work) (ending : Ending), s.works[j]? = some w ∧
      w.pc = .done ending ∧ w.Wrote J acc.text ending ∧ Frame.IsId w.id := by
  have hworked := worked_of_reachable h
  have hmem : acc ∈ s.sentBy (.work j) := List.mem_filter.mpr ⟨hacc, by simpa using ho⟩
  have hlt : j < s.works.length := by
    by_contra hge
    rw [hworked.beyond j (by omega)] at hmem
    cases hmem
  have hw := List.getElem?_eq_getElem hlt
  have hkept := hworked.kept hw
  have hdone : (s.works[j]).isDone = true := by
    by_contra hnot
    rw [hkept.written.before (by simpa using hnot)] at hmem
    cases hmem
  obtain ⟨ending, hpc⟩ := Work.ending_of_isDone hdone
  obtain ⟨heard, -, -, hparse⟩ := hkept.heard
  refine ⟨_, ending, hw, hpc, ?_, Frame.isId_of_parse hparse rfl⟩
  rcases hkept.written.done ending hpc with ⟨-, text, hsent, hwrote⟩ | ⟨hsent, -⟩
  · rw [hsent, List.mem_singleton] at hmem
    rw [hmem]
    exact hwrote
  · rw [hsent] at hmem
    cases hmem

/-- The frame of a heartbeat is no other. -/
theorem kind_of_beat (h : (machine J).Reachable s) (hacc : acc ∈ s.accepted) {k : ℕ}
    (ho : acc.origin = .beat k) {frame : Frame} (hparse : Frame.parse acc.text = .ok frame) :
    frame.kind = "HBT" :=
  Frame.kind_of_prefix (by decide) ((framed_of_accepted h hacc).beat k ho) (Frame.kind_of_parse hparse)

/-- The frame of a call is read as its message. -/
theorem parse_of_call {x : Exchange} (hmade : x.Made J) :
    Frame.parse x.text = .ok (.message x.id x.payload) := Frame.parse_msg hmade.id x.payload

/-- **A message a session sent is the frame of one of its calls.** -/
theorem call_of_message (h : (machine J).ReachableBy NoRaw s) (hacc : acc ∈ s.accepted)
    {id payload : String} (hparse : Frame.parse acc.text = .ok (.message id payload)) :
    ∃ (i : ℕ) (x : Exchange), s.exchanges[i]? = some x ∧ acc.origin = .exchange i ∧ x.id = id ∧
      x.payload = payload := by
  cases ho : acc.origin with
  | exchange i =>
    obtain ⟨x, hx, htext, -⟩ := call_of_accepted h.reachable hacc ho
    rw [htext, parse_of_call (made_of_reachable h.reachable hx)] at hparse
    injection hparse with hframe
    injection hframe with hid hpayload
    exact ⟨i, x, hx, rfl, hid, hpayload⟩
  | work j =>
    obtain ⟨w, ending, -, -, hwrote, hid⟩ := work_of_accepted h.reachable hacc ho
    obtain ⟨frame, hframe, payload, hanswer⟩ := parse_of_wrote hwrote hid
    rw [hframe] at hparse
    cases hparse
    rcases hanswer with hanswer | hanswer <;> cases hanswer
  | beat k => exact absurd (kind_of_beat h.reachable hacc ho hparse) (by simp [Frame.kind])
  | raw k => exact absurd ho (origin_ne_raw h hacc k)

/-- **An acknowledgement a session sent carries what a handler returned**, to
the message with its id. -/
theorem work_of_ack (h : (machine J).ReachableBy NoRaw s) (hacc : acc ∈ s.accepted) {id : String}
    {payload : Option String} (hparse : Frame.parse acc.text = .ok (.ack id payload)) :
    ∃ (j : ℕ) (w : Work) (v : Json), s.works[j]? = some w ∧ w.id = id ∧ w.pc = .done .ok ∧
      w.returned = some v ∧ readAck J payload = .ok v := by
  cases ho : acc.origin with
  | exchange i =>
    obtain ⟨x, hx, htext, -⟩ := call_of_accepted h.reachable hacc ho
    rw [htext, parse_of_call (made_of_reachable h.reachable hx)] at hparse
    cases hparse
  | work j =>
    obtain ⟨w, ending, hw, hpc, hwrote, hid⟩ := work_of_accepted h.reachable hacc ho
    cases ending with
    | ok =>
      obtain ⟨result, v, htext, hreturned, hread⟩ := hwrote
      rw [htext, Frame.parse_mkAck hid] at hparse
      injection hparse with hframe
      injection hframe with hwid hpayload
      exact ⟨j, w, v, hw, hwid, hpc, hreturned, hpayload ▸ hread⟩
    | _ =>
      -- every other ending writes a refusal
      obtain ⟨error, htext⟩ := hwrote
      rw [htext, Frame.parse_mkNak hid] at hparse
      cases hparse
  | beat k => exact absurd (kind_of_beat h.reachable hacc ho hparse) (by simp [Frame.kind])
  | raw k => exact absurd ho (origin_ne_raw h hacc k)

/-- The frame of a call is accepted once. -/
theorem position_of_call (h : (machine J).Reachable s) {p q : ℕ} {a b : Accepted}
    (hp : s.accepted[p]? = some a) (hq : s.accepted[q]? = some b) (ha : a.origin = .exchange i)
    (hb : b.origin = .exchange i) : p = q := by
  obtain ⟨x, -, -, hone⟩ := call_of_accepted h (List.mem_of_getElem? hp) ha
  exact index_eq_of_filter hone hp hq (by simpa using ha) (by simpa using hb)

/-! ## Invocations -/

/-- How often handlers were invoked for the messages with an id. -/
def invocations (s : Session) (id : String) : ℕ := total (Work.invocations id) s.works

/-- Whether a step invokes a handler for a message with an id. -/
def invokes (s : Session) (id : String) : Event J → Bool
  | .workStarts i none => s.works[i]?.any (·.id = id)
  | _ => false

/-- A handler is invoked where its task starts. -/
theorem WorkStep.invoked (h : WorkStep J s i w e s') : e = .workStarts i none ∨
    ∃ w', s'.works = s.works.set i w' ∧ w'.id = w.id ∧ w'.invoked = w.invoked := by
  cases h with
  | starts => exact .inl rfl
  | writes _ he => obtain ⟨_, _, _, _, _, rfl⟩ := he.frame; exact .inr ⟨_, rfl, rfl, rfl⟩
  | unwritten _ he => obtain ⟨_, _, _, _, _, rfl⟩ := he.frame; exact .inr ⟨_, rfl, rfl, rfl⟩
  | written _ he => obtain ⟨_, _, _, _, _, rfl⟩ := he.frame; exact .inr ⟨_, rfl, rfl, rfl⟩
  | _ => exact .inr ⟨_, rfl, rfl, rfl⟩

/-- Any other step leaves the count as it is. -/
theorem invocations_of_other (h : Step J s e s') (hne : ∀ i, e ≠ .workStarts i none) (id : String) :
    s'.invocations id = s.invocations id := by
  unfold invocations
  rcases h.works with ⟨hworks, -⟩ | ⟨text, mid, payload, -, -, rfl⟩ | ⟨i, w, hi, hstep⟩
  · rw [hworks]
  · show total _ (s.works ++ [_]) = _
    simp [Work.invocations]
  · rcases hstep.invoked with hstarts | ⟨w', hworks, hid, hinvoked⟩
    · exact absurd hstarts (hne i)
    · have hset := total_set (f := Work.invocations id) (b := w') hi
      have hsame : w'.invocations id = w.invocations id := by
        simp only [Work.invocations, hid, hinvoked]
      rw [hworks]
      omega

/-- **The count goes up where a handler starts**, and nowhere else. -/
theorem invocations_of_next (h : (machine J).Reachable s) (hn : (machine J).next s e = some s')
    (id : String) : s'.invocations id = s.invocations id + if s.invokes id e then 1 else 0 := by
  by_cases hstarts : ∃ i, e = .workStarts i none
  · obtain ⟨i, rfl⟩ := hstarts
    have hn' : s.next J (.workStarts i none) = some s' := hn
    obtain ⟨w, hw, hstep⟩ := Option.bind_eq_some_iff.mp hn'
    have hinvokes : s.invokes id (.workStarts i none : Event J) = decide (w.id = id) := by
      simp [invokes, hw]
    cases workStarts_step hstep with
    | answers ha => cases ha
    | @starts message handler hpc hhandler hmessage =>
      -- a handler that waits was not invoked before
      have hnone := ((worked_of_reachable h).kept hw).dispatched.waiting (by rw [hpc]; rfl)
      have hset := total_set (f := Work.invocations id)
        (b := { w with pc := .running, invoked := some (handler.input message) }) hw
      have hbefore : w.invocations id = 0 := by simp [Work.invocations, hnone]
      have hafter : Work.invocations id
          { w with pc := .running, invoked := some (handler.input message) } =
            if w.id = id then 1 else 0 := by simp [Work.invocations]
      rw [hbefore, hafter] at hset
      simpa [invocations, setWork, hinvokes] using hset
  · have hne : ∀ i, e ≠ .workStarts i none := fun i hi => hstarts ⟨i, hi⟩
    have hinvokes : s.invokes id e = false := by
      unfold invokes
      split
      · exact absurd rfl (hne _)
      · rfl
    rw [invocations_of_other (step_of_next hn) hne, hinvokes]
    rfl

end Session

end Vcmp
