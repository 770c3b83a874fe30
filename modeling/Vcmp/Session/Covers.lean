import Vcmp.Session.Flow
import Vcmp.Session.PendingMap
/-!
# A permit covers its frame

Whoever is about to put a frame on a queue holds a permit for as many
bytes as the frame has, of the kind of that queue. The permit goes with
the frame into the queue, into the writer's hands and into the sink.
-/

namespace Vcmp

/-- The frame the writer has taken, in its hands or in the sink. -/
def WriterPc.frame : WriterPc → Option Outgoing
  | .taken o | .sending o _ | .closing (some (o, _)) => some o
  | _ => none

/-- What a frame needs. -/
def need (control : Bool) (text : String) : Permit :=
  ⟨Session.queueResource control, text.utf8ByteSize⟩

/-- The frame was accepted, and carries the permit it needs. -/
def Outgoing.Covered (o : Outgoing) (accepted : List Accepted) : Prop :=
  ∃ a, accepted[o.position]? = some a ∧ a.text = o.text ∧ o.permit = need a.control a.text

/-- **A frame fits the party it is of**: messages go to the data queue, and
only they do, and what a heartbeat sends is one. -/
structure Framed (origin : Origin) (control : Bool) (text : String) : Prop where
  data : control = false ↔ "MSG".toList <+: text.toList
  beat : ∀ i, origin = .beat i → "HBT".toList <+: text.toList

/-- A frame that is no message goes to the control queue. -/
theorem framed_control {origin : Origin} {frame : Frame} (h : frame.kind ≠ "MSG")
    (hbeat : ∀ i, origin = .beat i → frame.kind = "HBT") :
    Framed origin true frame.serialize := by
  refine ⟨⟨(fun hcontrol => by cases hcontrol), fun hmsg => ?_⟩, fun i ho => ?_⟩
  · exact absurd (Frame.kind_of_prefix (by decide) hmsg frame.kind_serialize) h
  · rw [← hbeat i ho]
    exact frame.kind_serialize

/-- A call of `enqueue` begins. -/
def Enqueue.Begins (origin : Origin) (q : Enqueue) : Prop :=
  q.pc = .check ∧ Framed origin q.control q.text

namespace Session

variable {J : JsonText} {s s' : Session} {e : Event J}

/-! ## Calls of `enqueue` -/

/-- **Where the calls of `enqueue` of a kind of party come from**: each was
there, begins, or is a step further. -/
def Calls {α : Type*} (s : Session) (origin : ℕ → Origin) (f : α → Option Enqueue)
    (l l' : List α) : Prop :=
  ∀ i q', l'[i]?.bind f = some q' → l[i]?.bind f = some q' ∨ q'.Begins (origin i) ∨
    ∃ q s₁, l[i]?.bind f = some q ∧ EnqueueStep s (origin i) q s₁ (.goes q')

section Calls

variable {α : Type*} {origin : ℕ → Origin} {f : α → Option Enqueue} {l l' : List α} {a b : α}
  {i : ℕ}

theorem Calls.same (h : l' = l) : Calls s origin f l l' := fun i q' hq => .inl (by rwa [← h])

/-- A party that moves outside of `enqueue`, or begins a call. -/
theorem Calls.set (h : l' = l.set i b) (hb : ∀ q', f b = some q' → q'.Begins (origin i)) :
    Calls s origin f l l' := by
  subst h
  intro j q' hq
  obtain ⟨c, hc, hfc⟩ := Option.bind_eq_some_iff.mp hq
  rcases getElem?_set_cases hc with ⟨rfl, rfl⟩ | ⟨-, hold⟩
  · exact .inr (.inl (hb q' hfc))
  · exact .inl (by rw [hold]; exact hfc)

/-- A party that is a step further in its call. -/
theorem Calls.step {q : Enqueue} {r : EnqueueResult} {s₁ : Session} (ha : l[i]? = some a)
    (hq : f a = some q) (h : EnqueueStep s (origin i) q s₁ r) (hl : l' = l.set i b)
    (hb : ∀ q', f b = some q' → r = .goes q') : Calls s origin f l l' := by
  subst hl
  intro j q' hq'
  obtain ⟨c, hc, hfc⟩ := Option.bind_eq_some_iff.mp hq'
  rcases getElem?_set_cases hc with ⟨rfl, rfl⟩ | ⟨-, hold⟩
  · have hr := hb q' hfc
    subst hr
    exact .inr (.inr ⟨q, s₁, by rw [ha]; exact hq, h⟩)
  · exact .inl (by rw [hold]; exact hfc)

/-- A party that begins. -/
theorem Calls.concat (h : l' = l ++ [b])
    (hb : ∀ q', f b = some q' → q'.Begins (origin l.length)) : Calls s origin f l l' := by
  subst h
  intro j q' hq
  obtain ⟨c, hc, hfc⟩ := Option.bind_eq_some_iff.mp hq
  rcases getElem?_concat_cases hc with ⟨rfl, rfl⟩ | hold
  · exact .inr (.inl (hb q' hfc))
  · exact .inl (by rw [hold]; exact hfc)

/-- A change of the parties that is outside of `enqueue`. -/
theorem Calls.map (h : ∀ i : ℕ, ∃ g : α → α, l'[i]? = l[i]?.map g ∧ ∀ a, f (g a) = f a) :
    Calls s origin f l l' := by
  intro j q' hq
  refine .inl ?_
  obtain ⟨g, hl, hg⟩ := h j
  rw [hl] at hq
  cases hj : l[j]? with
  | none => simp [hj] at hq
  | some a => simpa [hj, hg] using hq

end Calls

theorem nakFrame_kind (id : String) (error : VcmpError) : (nakFrame J id error).kind ≠ "MSG" := by
  simp [nakFrame, Frame.mkNak, Frame.kind]

/-- No answer is a message. -/
theorem Answers.kind_ne {i : ℕ} {w : Work} {ending : Ending} {frame : Frame}
    (h : Answers J s i w e ending frame) : frame.kind ≠ "MSG" := by
  cases h with
  | unknownType => simp [Frame.mkNak, Frame.kind]
  | _ => exact nakFrame_kind _ _

/-- **What a step does to the calls of `enqueue`.** -/
theorem Step.calls (h : Step J s e s') :
    Calls s .exchange Exchange.enqueue s.exchanges s'.exchanges ∧
      Calls s .work Work.enqueue s.works s'.works ∧
      Calls s .beat Beat.enqueue s.beats s'.beats ∧
      Calls s .raw RawPc.enqueue s.raws s'.raws := by
  -- the sender of a call is used or held
  have modified : ∀ {k : ℕ} {g : Exchange → Exchange}, s'.exchanges = s.exchanges.modify k g →
      (∀ x, (g x).enqueue = x.enqueue) →
      Calls s .exchange Exchange.enqueue s.exchanges s'.exchanges := by
    intro k g hs hg
    refine .map fun i => ⟨fun x => if k = i then g x else x, ?_, fun x => ?_⟩
    · rw [hs, List.getElem?_modify]
      rfl
    · split_ifs
      · exact hg x
      · rfl
  cases h with
  | sent => exact ⟨.concat rfl (by simp [Exchange.enqueue]), .same rfl, .same rfl, .same rfl⟩
  | sentPayload => exact ⟨.concat rfl (by simp [Exchange.enqueue]), .same rfl, .same rfl, .same rfl⟩
  | @exchange i x _ hx h =>
    cases h with
    | @enqueues q s₁ r hpc he =>
      have hq : x.enqueue = some q := by simp only [Exchange.enqueue, hpc]
      obtain ⟨_, _, _, _, _, rfl⟩ := he.frame
      refine ⟨.step hx hq he rfl ?_, .same rfl, .same rfl, .same rfl⟩
      intro q' hq'
      cases r with
      | goes q₁ =>
        simp only [Exchange.enqueue, Exchange.enqueued, Option.some.injEq] at hq'
        rw [hq']
      | fails => cases hq'
      | accepted => cases hq'
    | removed => exact ⟨.set rfl (by simp [Exchange.enqueue]), .same rfl, .same rfl, .same rfl⟩
    | registered =>
      refine ⟨.set rfl (fun q' hq' => ?_), .same rfl, .same rfl, .same rfl⟩
      simp only [Exchange.enqueue, Option.some.injEq] at hq'
      rw [← hq']
      exact ⟨rfl, ⟨fun _ => (Frame.message _ _).kind_serialize, fun _ => rfl⟩, fun i ho => by cases ho⟩
    | _ => exact ⟨.set rfl (by simp [Exchange.enqueue]), .same rfl, .same rfl, .same rfl⟩
  | leaves => exact ⟨.set rfl (by simp [Exchange.enqueue]), .same rfl, .same rfl, .same rfl⟩
  | initiates => exact ⟨.same rfl, .same rfl, .concat rfl (by simp [Beat.enqueue]), .same rfl⟩
  | echo => exact ⟨.same rfl, .same rfl, .concat rfl (by simp [Beat.enqueue]), .same rfl⟩
  | @beat i b _ hb h =>
    cases h with
    | @enqueues q s₁ r hpc he =>
      have hq : b.enqueue = some q := by simp only [Beat.enqueue, hpc]
      obtain ⟨_, _, _, _, _, rfl⟩ := he.frame
      refine ⟨.same rfl, .same rfl, .step hb hq he rfl ?_, .same rfl⟩
      intro q' hq'
      cases r with
      | goes q₁ =>
        simp only [Beat.enqueue, Beat.enqueued, Option.some.injEq] at hq'
        rw [hq']
      | fails => cases hq'
      | accepted => cases hq'
    | arms =>
      refine ⟨.same rfl, .same rfl, .set rfl (fun q' hq' => ?_), .same rfl⟩
      simp only [Beat.enqueue, Option.some.injEq] at hq'
      rw [← hq']
      have hkind : (Frame.heartbeat b.interval).kind ≠ "MSG" := by simp [Frame.kind]
      exact ⟨rfl, framed_control hkind fun _ _ => rfl⟩
    | _ => exact ⟨.same rfl, .same rfl, .set rfl (by simp [Beat.enqueue]), .same rfl⟩
  | sendRaw =>
    refine ⟨.same rfl, .same rfl, .same rfl, .concat rfl (fun q' hq' => ?_)⟩
    simp only [RawPc.enqueue, Option.some.injEq] at hq'
    rw [← hq']
    exact ⟨rfl, by simp, fun i ho => by cases ho⟩
  | @raw i q s₁ r hraw he =>
    obtain ⟨_, _, _, _, _, rfl⟩ := he.frame
    refine ⟨.same rfl, .same rfl, .same rfl, .step hraw rfl he rfl ?_⟩
    intro q' hq'
    cases r with
    | goes q₁ =>
      simp only [RawPc.enqueue, RawPc.enqueued, Option.some.injEq] at hq'
      rw [hq']
    | fails => cases hq'
    | accepted => cases hq'
  | receive hdrive h =>
    cases h with
    | answer => exact ⟨modified rfl fun _ => rfl, .same rfl, .same rfl, .same rfl⟩
    | message => exact ⟨.same rfl, .concat rfl (by simp [Work.enqueue]), .same rfl, .same rfl⟩
    | _ => exact ⟨.same rfl, .same rfl, .same rfl, .same rfl⟩
  | drive h =>
    cases h with
    | settles => exact ⟨modified rfl fun _ => rfl, .same rfl, .same rfl, .same rfl⟩
    | drains =>
      refine ⟨.map fun i => ⟨_, Table.getElem?_foldl_holdSender _ _ i, fun x => ?_⟩, .same rfl,
        .same rfl, .same rfl⟩
      split_ifs <;> rfl
    | finishSettle => exact ⟨modified rfl fun _ => rfl, .same rfl, .same rfl, .same rfl⟩
    | _ => exact ⟨.same rfl, .same rfl, .same rfl, .same rfl⟩
  | @work _ i w _ hw h =>
    have answers : ∀ (ending : Ending) {frame : Frame}, frame.kind ≠ "MSG" → ∀ q' : Enqueue,
        (w.answer ending frame).enqueue = some q' → q'.Begins (.work i) := by
      intro ending frame hkind q' hq'
      simp only [Work.enqueue, Work.answer, Option.some.injEq] at hq'
      rw [← hq']
      exact ⟨rfl, framed_control hkind fun k ho => by cases ho⟩
    cases h with
    | refused =>
      exact ⟨.same rfl, .set rfl (answers _ (nakFrame_kind _ _)), .same rfl, .same rfl⟩
    | overloaded =>
      exact ⟨.same rfl, .set rfl (answers _ (nakFrame_kind _ _)), .same rfl, .same rfl⟩
    | answers ha =>
      exact ⟨.same rfl, .set rfl (answers _ ha.kind_ne), .same rfl, .same rfl⟩
    | returns =>
      exact ⟨.same rfl, .set rfl (answers .ok (by simp [Frame.mkAck, Frame.kind])), .same rfl,
        .same rfl⟩
    | @writes ending q q₁ s₁ hpc he =>
      have hq : w.enqueue = some q := by simp only [Work.enqueue, hpc]
      obtain ⟨_, _, _, _, _, rfl⟩ := he.frame
      refine ⟨.same rfl, .step hw hq he rfl ?_, .same rfl, .same rfl⟩
      intro q' hq'
      simp_all [Work.enqueue]
    | unwritten hpc he =>
      obtain ⟨_, _, _, _, _, rfl⟩ := he.frame
      exact ⟨.same rfl, .set rfl (by simp [Work.enqueue]), .same rfl, .same rfl⟩
    | written hpc he =>
      obtain ⟨_, _, _, _, _, rfl⟩ := he.frame
      exact ⟨.same rfl, .set rfl (by simp [Work.enqueue]), .same rfl, .same rfl⟩
    | _ => exact ⟨.same rfl, .set rfl (by simp [Work.enqueue]), .same rfl, .same rfl⟩
  | writer h => cases h <;> exact ⟨.same rfl, .same rfl, .same rfl, .same rfl⟩
  | _ => exact ⟨.same rfl, .same rfl, .same rfl, .same rfl⟩

/-- **Where the call of `enqueue` of a party comes from.** -/
theorem Step.enqueues (h : Step J s e s') {origin : Origin} {q' : Enqueue}
    (hq : s'.enqueueOf origin = some q') : s.enqueueOf origin = some q' ∨ q'.Begins origin ∨
      ∃ q s₁, s.enqueueOf origin = some q ∧ EnqueueStep s origin q s₁ (.goes q') := by
  obtain ⟨hexchanges, hworks, hbeats, hraws⟩ := h.calls
  cases origin with
  | exchange i => exact hexchanges i q' hq
  | work i => exact hworks i q' hq
  | beat i => exact hbeats i q' hq
  | raw i => exact hraws i q' hq

/-! ## What is accepted -/

theorem framed_of_enqueue (h : (machine J).Reachable s) {origin : Origin} {q : Enqueue}
    (hq : s.enqueueOf origin = some q) : Framed origin q.control q.text := by
  refine h.invariant (P := fun s => ∀ (origin : Origin) (q : Enqueue),
    s.enqueueOf origin = some q → Framed origin q.control q.text) ?_ ?_ origin q hq
  · rintro s ⟨id, limits, handlers, budget, elsewhere, rfl⟩ origin q hq
    cases origin <;> simp [enqueueOf, spawn] at hq
  · intro s e s' _ hn ih origin q' hq'
    rcases (step_of_next hn).enqueues hq' with hold | ⟨-, hbegins⟩ | ⟨q, s₁, hq, hstep⟩
    · exact ih origin q' hold
    · exact hbegins
    · cases hstep with
      | checked => exact ih origin q hq
      | granted => exact ih origin q hq
      | admitted => exact ih origin q hq

/-- **A frame that was accepted fits its party**, in every run. -/
theorem framed_of_accepted (h : (machine J).Reachable s) {acc : Accepted}
    (hacc : acc ∈ s.accepted) : Framed acc.origin acc.control acc.text := by
  refine forall_accepted (P := fun _ acc => Framed acc.origin acc.control acc.text) ?_ ?_ h acc hacc
  · exact fun _ _ _ _ _ hframed => hframed
  · exact fun s origin q p hreach hfor _ => framed_of_enqueue hreach hfor

/-- A frame that was accepted is data exactly when it is a message. -/
theorem control_of_parse (h : (machine J).Reachable s) {acc : Accepted} (hacc : acc ∈ s.accepted)
    {frame : Frame} (hparse : Frame.parse acc.text = .ok frame) :
    acc.control = false ↔ frame.kind = "MSG" := by
  rw [(framed_of_accepted h hacc).data]
  have hframe := Frame.kind_of_parse hparse
  exact ⟨fun hmsg => Frame.kind_of_prefix (by decide) hmsg hframe, fun hkind => hkind ▸ hframe⟩

/-! ## The permits of frames -/

/-- **Whoever is about to push a frame holds what it needs**, in every run. -/
theorem covered_of_reachable (h : (machine J).Reachable s) {origin : Origin} {q : Enqueue}
    (hq : s.enqueueOf origin = some q) {p : Permit} (hpc : q.pc = .granted p ∨ q.pc = .pushing p) :
    p = need q.control q.text := by
  refine h.invariant (P := fun s => ∀ (origin : Origin) (q : Enqueue),
    s.enqueueOf origin = some q → ∀ p, q.pc = .granted p ∨ q.pc = .pushing p →
      p = need q.control q.text) ?_ ?_ origin q hq p hpc
  · rintro s ⟨id, limits, handlers, budget, elsewhere, rfl⟩ origin q hq
    cases origin <;> simp [enqueueOf, spawn] at hq
  · intro s e s' _ hn ih origin q' hq' p hpc
    rcases (step_of_next hn).enqueues hq' with hold | hbegins | ⟨q, s₁, hq, hstep⟩
    · exact ih origin q' hold p hpc
    · rw [hbegins.1] at hpc
      rcases hpc with hpc | hpc <;> cases hpc
    · -- a call of `enqueue` keeps its frame, and is granted what it asked for
      cases hstep with
      | checked => rcases hpc with hpc | hpc <;> cases hpc
      | granted _ hr =>
        obtain ⟨-, rfl, -⟩ := ResourceBudget.reserve_some hr
        rcases hpc with hpc | hpc <;> cases hpc
        rfl
      | admitted hold =>
        rcases hpc with hpc | hpc <;> cases hpc
        exact ih origin q hq p (.inl hold)

/-- The frames on their way, with the one the writer has. -/
def onTheirWay (c : Pipe) : List Outgoing := c.control ++ c.data ++ c.writer.frame.toList

theorem mem_onTheirWay {c : Pipe} {o : Outgoing} :
    o ∈ onTheirWay c ↔ (o ∈ c.control ∨ o ∈ c.data) ∨ c.writer.frame = some o := by
  simp [onTheirWay, or_assoc]

/-- A frame in a queue after a push. -/
theorem mem_push (origin : Origin) {q : Enqueue} {p : Permit} {o : Outgoing}
    (ho : o ∈ (s.push origin q p).control ∨ o ∈ (s.push origin q p).data) :
    o = ⟨s.accepted.length, q.text, p⟩ ∨ o ∈ s.control ∨ o ∈ s.data := by
  unfold push at ho
  cases hcontrol : q.control with
  | true =>
    simp only [hcontrol, if_true, List.mem_append, List.mem_singleton] at ho
    tauto
  | false =>
    simp only [hcontrol, Bool.false_eq_true, if_false, List.mem_append, List.mem_singleton] at ho
    tauto

/-- **A frame on its way carries the permit it needs**, in every run. -/
theorem frames_covered (h : (machine J).Reachable s) {o : Outgoing} (ho : o ∈ onTheirWay s.pipe) :
    o.Covered s.accepted := by
  refine h.invariant_of (P := fun s => ∀ o ∈ onTheirWay s.pipe, o.Covered s.accepted) ?_ ?_ o ho
  · rintro s ⟨id, limits, handlers, budget, elsewhere, rfl⟩ o ho
    cases ho
  · intro s e s' hreach _ hn ih
    -- the frames are among those of before
    have among : s'.accepted = s.accepted → (∀ o ∈ onTheirWay s'.pipe, o ∈ onTheirWay s.pipe) →
        ∀ o ∈ onTheirWay s'.pipe, o.Covered s'.accepted := by
      intro hsame hmem o ho
      rw [hsame]
      exact ih o (hmem o ho)
    cases (step_of_next hn).flow with
    | quiet hpipe =>
      refine among (congrArg Pipe.accepted hpipe) fun o ho => ?_
      rwa [← hpipe]
    | drops hpipe =>
      refine among (congrArg Pipe.accepted hpipe) fun o ho => ?_
      rw [hpipe] at ho
      cases ho
    | @pushes origin q p _ hfor hpc hreceivers hpipe =>
      have hp := covered_of_reachable hreach hfor (.inr hpc)
      have haccepted : s'.accepted = s.accepted ++ [⟨q.control, q.text, origin⟩] :=
        congrArg Pipe.accepted hpipe
      intro o ho
      rw [haccepted]
      -- the new frame, or one of those of before
      have hcases : o = ⟨s.accepted.length, q.text, p⟩ ∨ o ∈ onTheirWay s.pipe := by
        rw [hpipe, mem_onTheirWay] at ho
        rw [mem_onTheirWay]
        rcases ho with ho | ho
        · exact (mem_push origin ho).imp_right .inl
        · exact .inr (.inr ho)
      rcases hcases with rfl | hold
      · exact ⟨⟨q.control, q.text, origin⟩, by simp, rfl, hp⟩
      · obtain ⟨a, ha, htext, hpermit⟩ := ih o hold
        refine ⟨a, ?_, htext, hpermit⟩
        rw [getElem?_append_some ha]
    | writes hstep =>
      cases hstep with
      | ends => exact among rfl fun o ho => by cases ho
      | takesControl hpc hqueue =>
        refine among rfl fun o ho => ?_
        simp only [mem_onTheirWay, pipe, WriterPc.frame, hqueue, List.mem_cons,
          Option.some.injEq] at ho ⊢
        tauto
      | takesData hpc hqueue =>
        refine among rfl fun o ho => ?_
        simp only [mem_onTheirWay, pipe, WriterPc.frame, hqueue, List.mem_cons,
          Option.some.injEq] at ho ⊢
        tauto
      | _ =>
        refine among rfl fun o ho => ?_
        simp only [mem_onTheirWay, pipe, WriterPc.frame, *] at ho ⊢
        tauto

end Session

end Vcmp
