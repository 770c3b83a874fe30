import Vcmp.Json.Codec
import Vcmp.Session.Stages
/-!
# Every text is accounted for

A text that is heard is work, a heartbeat accepted, an answer taken, or
one of the frames counted as ignored, unless it is too large, which
closes the session. None is passed over, and none is counted twice: what
`ignored_frames` shows is what was heard and not used, and the messages
that could not be read.
-/

namespace Vcmp

/-- What a text is to the read loop. -/
inductive TextKind where
  | tooLarge
  | invalid
  | heartbeat
  | answer
  | message
  deriving DecidableEq, Repr

/-- The kind of a text, where frames may be of `limit` bytes. -/
def textKind (limit : ℕ) (text : String) : TextKind :=
  if limit < text.utf8ByteSize then .tooLarge
  else match Frame.parse text with
    | .error _ => .invalid
    | .ok (.heartbeat _) => .heartbeat
    | .ok (.ack _ _) | .ok (.nak _ _) => .answer
    | .ok (.message _ _) => .message

/-- Whether the work on a message ended before a type was found in it. -/
def Work.unreadable (w : Work) : ℕ :=
  match w.pc with
  | .answering .invalidJson _ | .failing .invalidJson | .done .invalidJson
  | .answering .missingType _ | .failing .missingType | .done .missingType => 1
  | _ => 0

/-- Whether a mark is of an answer that was taken. -/
def Mark.answers : Mark → Bool
  | .answered _ => true
  | _ => false

namespace Session

variable {J : JsonText} {s s' t : Session} {e : Event J} {i : ℕ} {w w' : Work}

/-- The texts of a kind heard. -/
def heardOf (s : Session) (k : TextKind) : ℕ :=
  s.received.countP fun text => textKind s.limits.maxMessageBytes text = k

/-- The answers taken. -/
def answered (s : Session) : ℕ := s.marks.countP Mark.answers

/-- The messages that could not be read. -/
def unreadable (s : Session) : ℕ := total Work.unreadable s.works

/-- **Every text heard is accounted for.** -/
structure Accounted (s : Session) : Prop where
  messages : s.works.length = s.heardOf .message
  heartbeats : s.heartbeatsReceived ≤ s.heardOf .heartbeat
  answers : s.answered ≤ s.heardOf .answer
  ignored : s.ignoredFrames + s.heartbeatsReceived + s.answered =
    s.heardOf .invalid + s.heardOf .heartbeat + s.heardOf .answer + s.unreadable

/-! ## Steps that hear nothing -/

theorem heardOf_congr (hreceived : t.received = s.received) (hlimits : t.limits = s.limits)
    (k : TextKind) : t.heardOf k = s.heardOf k := by
  rw [heardOf, heardOf, hreceived, hlimits]

/-- A step after which nothing more is used, ignored or found unreadable. -/
theorem Accounted.same (h : Accounted s) (hreceived : t.received = s.received)
    (hlimits : t.limits = s.limits) (hworks : t.works = s.works)
    (hcount : t.heartbeatsReceived = s.heartbeatsReceived) (hanswered : t.answered = s.answered)
    (hignored : t.ignoredFrames = s.ignoredFrames) : Accounted t := by
  have hkind := heardOf_congr hreceived hlimits
  refine ⟨?_, ?_, ?_, ?_⟩
  · rw [hworks, hkind]; exact h.messages
  · rw [hcount, hkind]; exact h.heartbeats
  · rw [hanswered, hkind]; exact h.answers
  · rw [hcount, hanswered, hignored, hkind, hkind, hkind, unreadable, hworks]
    exact h.ignored

/-- A step of the work on a message, that counts it where it finds it unreadable. -/
theorem Accounted.work (h : Accounted s) (hw : s.works[i]? = some w)
    (hworks : t.works = s.works.set i w')
    (hignored : t.ignoredFrames + w.unreadable = s.ignoredFrames + w'.unreadable)
    (hrest : t.received = s.received ∧ t.limits = s.limits ∧
      t.heartbeatsReceived = s.heartbeatsReceived ∧ t.marks = s.marks) : Accounted t := by
  obtain ⟨hreceived, hlimits, hcount, hmarks⟩ := hrest
  have hkind := heardOf_congr hreceived hlimits
  have hanswered : t.answered = s.answered := by rw [answered, answered, hmarks]
  refine ⟨?_, ?_, ?_, ?_⟩
  · rw [hworks, List.length_set, hkind]; exact h.messages
  · rw [hcount, hkind]; exact h.heartbeats
  · rw [hanswered, hkind]; exact h.answers
  · have hold := h.ignored
    have htotal : t.unreadable + w.unreadable = s.unreadable + w'.unreadable := by
      rw [unreadable, hworks]
      exact total_set hw
    rw [hcount, hanswered, hkind, hkind, hkind]
    omega

/-- The work on a message is dispatched. -/
theorem Accounted.dispatch (h : Accounted s) (hw : s.works[i]? = some w) (hpc : w.pc = .dispatching)
    (hn : s.workNext J i w = some s') : Accounted s' := by
  have hread : w.unreadable = 0 := by rw [Work.unreadable, hpc]
  simp only [workNext, hpc] at hn
  split at hn
  · cases hn
    exact h.work hw rfl (by rw [hread]; rfl) ⟨rfl, rfl, rfl, rfl⟩
  · split at hn
    · cases hn
      exact h.work hw rfl (by rw [hread]; rfl) ⟨rfl, rfl, rfl, rfl⟩
    · split at hn <;> cases hn
      · exact h.work hw rfl (by rw [hread]; rfl) ⟨rfl, rfl, rfl, rfl⟩
      · exact h.work hw rfl (by rw [hread]; rfl) ⟨rfl, rfl, rfl, rfl⟩

/-- What the work is at keeps an ending. -/
theorem unreadable_of_pc {ending : Ending}
    (hpc : (∃ q, w.pc = .answering ending q) ∨ w.pc = .failing ending)
    (hpc' : (∃ q, w'.pc = .answering ending q) ∨ w'.pc = .failing ending ∨ w'.pc = .done ending) :
    w'.unreadable = w.unreadable := by
  rcases hpc with ⟨q, hpc⟩ | hpc <;> rcases hpc' with ⟨q', hpc'⟩ | hpc' | hpc' <;>
    cases ending <;> simp [Work.unreadable, hpc, hpc']

/-- Any other step of the work on a message. -/
theorem Accounted.works (h : Accounted s) (hw : s.works[i]? = some w) (hpc : w.pc ≠ .dispatching)
    (hn : s.workNext J i w = some s') : Accounted s' := by
  have kept : ∀ {w' : Work} {ending : Ending},
      ((∃ q, w.pc = .answering ending q) ∨ w.pc = .failing ending) →
      ((∃ q, w'.pc = .answering ending q) ∨ w'.pc = .failing ending ∨ w'.pc = .done ending) →
      s.ignoredFrames + w.unreadable = s.ignoredFrames + w'.unreadable := by
    intro w' ending hpc hpc'
    rw [unreadable_of_pc hpc hpc']
  cases workStep_of_next hn with
  | granted hasks | refused hasks =>
    exact h.work hw rfl (by simp [Work.unreadable, Work.answer, hasks, setWork]) ⟨rfl, rfl, rfl, rfl⟩
  | admitted hgranted | overloaded hgranted =>
    exact h.work hw rfl (by simp [Work.unreadable, Work.answer, hgranted, setWork])
      ⟨rfl, rfl, rfl, rfl⟩
  | answers ha => cases ha <;> exact absurd ‹_› hpc
  | spawned hdispatching => exact absurd hdispatching hpc
  | writes hanswering he =>
    obtain ⟨_, _, _, _, _, rfl⟩ := he.frame
    exact h.work hw rfl (kept (.inl ⟨_, hanswering⟩) (.inl ⟨_, rfl⟩)) ⟨rfl, rfl, rfl, rfl⟩
  | unwritten hanswering he =>
    obtain ⟨_, _, _, _, _, rfl⟩ := he.frame
    exact h.work hw rfl (kept (.inl ⟨_, hanswering⟩) (.inr (.inl rfl))) ⟨rfl, rfl, rfl, rfl⟩
  | written hanswering he =>
    obtain ⟨_, _, _, _, _, rfl⟩ := he.frame
    exact h.work hw rfl (kept (.inl ⟨_, hanswering⟩) (.inr (.inr rfl))) ⟨rfl, rfl, rfl, rfl⟩
  | closes hfailing =>
    exact h.work hw rfl (kept (.inr hfailing) (.inr (.inr rfl))) ⟨rfl, rfl, rfl, rfl⟩

/-- A step of the handler of a message. -/
theorem Accounted.handler (h : Accounted s) (hw : s.works[i]? = some w)
    (hpc : w.pc = .spawned ∨ w.pc = .running) (hworks : s'.works = s.works.set i w')
    (hread : w'.unreadable = 0) (hignored : s'.ignoredFrames = s.ignoredFrames)
    (hrest : s'.received = s.received ∧ s'.limits = s.limits ∧
      s'.heartbeatsReceived = s.heartbeatsReceived ∧ s'.marks = s.marks) : Accounted s' := by
  refine h.work hw hworks ?_ hrest
  have hnot : w.unreadable = 0 := by rcases hpc with hpc | hpc <;> rw [Work.unreadable, hpc]
  rw [hignored, hread, hnot]

/-! ## A text is heard -/

theorem heardOf_hear {text : String} (hreceived : t.received = s.received ++ [text])
    (hlimits : t.limits = s.limits) (k : TextKind) : t.heardOf k =
      s.heardOf k + if textKind s.limits.maxMessageBytes text = k then 1 else 0 := by
  rw [heardOf, heardOf, hreceived, hlimits, List.countP_append, List.countP_singleton]
  simp

/-- A text heard, of a kind: what it adds, and to what. -/
theorem Accounted.heard {text : String} {k : TextKind} {a b c : ℕ} (h : Accounted s)
    (hk : textKind s.limits.maxMessageBytes text = k) (hreceived : t.received = s.received ++ [text])
    (hlimits : t.limits = s.limits)
    (hworks : t.works.length = s.works.length + if k = .message then 1 else 0)
    (hread : t.unreadable = s.unreadable) (hcount : t.heartbeatsReceived = s.heartbeatsReceived + a)
    (hanswered : t.answered = s.answered + b) (hignored : t.ignoredFrames = s.ignoredFrames + c)
    (ha : a ≤ if k = .heartbeat then 1 else 0) (hb : b ≤ if k = .answer then 1 else 0)
    (hsum : a + b + c = if k = .tooLarge ∨ k = .message then 0 else 1) : Accounted t := by
  have hkind := heardOf_hear hreceived hlimits
  rw [hk] at hkind
  obtain ⟨hmessages, hheartbeats, hanswers, hold⟩ := h
  refine ⟨?_, ?_, ?_, ?_⟩
  · rw [hworks, hkind, hmessages]
  · rw [hcount, hkind]
    omega
  · rw [hanswered, hkind]
    omega
  · rw [hcount, hanswered, hignored, hread, hkind, hkind, hkind]
    cases k <;> simp at ha hb hsum ⊢ <;> omega

/-- **A text is accounted for when it is heard.** -/
theorem Accounted.hears {text : String} (h : Accounted s) : Accounted (s.handleIncoming J text) := by
  by_cases hsize : s.limits.maxMessageBytes < text.utf8ByteSize
  · have hk : textKind s.limits.maxMessageBytes text = .tooLarge := by simp [textKind, hsize]
    simp only [handleIncoming, if_pos hsize]
    exact h.heard (a := 0) (b := 0) (c := 0) hk rfl rfl rfl rfl rfl rfl rfl (by simp) (by simp) rfl
  simp only [handleIncoming, if_neg hsize]
  cases hparse : Frame.parse text with
  | error error =>
    have hk : textKind s.limits.maxMessageBytes text = .invalid := by simp [textKind, hsize, hparse]
    exact h.heard (a := 0) (b := 0) (c := 1) hk rfl rfl rfl rfl rfl rfl rfl (by simp) (by simp) rfl
  | ok frame =>
    have answer : ∀ {t : Session} (id : String) (r : Settlement),
        textKind s.limits.maxMessageBytes text = .answer → t.received = s.received ++ [text] →
        t.limits = s.limits → t.works = s.works → t.heartbeatsReceived = s.heartbeatsReceived →
        t.marks = s.marks → t.ignoredFrames = s.ignoredFrames → Accounted (t.handleAnswer id r) := by
      intro t id r hk hreceived hlimits hworks hcount hmarks hignored
      unfold handleAnswer
      split
      · exact h.heard (a := 0) (b := 1) (c := 0) hk hreceived hlimits
          (by simp [removePending, release, hworks])
          (by simp [unreadable, removePending, release, hworks]) hcount
          (by simp [answered, List.countP_cons, Mark.answers, hmarks]) hignored (by simp) (by simp) rfl
      · exact h.heard (a := 0) (b := 0) (c := 1) hk hreceived hlimits (by simp [diagnose, hworks])
          (by simp [unreadable, diagnose, hworks]) hcount (by simp [answered, diagnose, hmarks])
          (by simp [diagnose, hignored]) (by simp) (by simp) rfl
    cases frame with
    | heartbeat interval =>
      have hk : textKind s.limits.maxMessageBytes text = .heartbeat := by
        simp [textKind, hsize, hparse]
      simp only [handleHeartbeat]
      split_ifs
      · exact h.heard (a := 0) (b := 0) (c := 1) hk rfl rfl rfl rfl rfl rfl rfl (by simp) (by simp) rfl
      · exact h.heard (a := 0) (b := 0) (c := 1) hk rfl rfl rfl rfl rfl rfl rfl (by simp) (by simp) rfl
      · exact h.heard (a := 1) (b := 0) (c := 0) hk rfl rfl rfl rfl rfl rfl rfl (by simp) (by simp) rfl
    | ack id payload =>
      exact answer id _ (by simp [textKind, hsize, hparse]) rfl rfl rfl rfl rfl rfl
    | nak id payload =>
      exact answer id _ (by simp [textKind, hsize, hparse]) rfl rfl rfl rfl rfl rfl
    | message id payload =>
      have hk : textKind s.limits.maxMessageBytes text = .message := by
        simp [textKind, hsize, hparse]
      exact h.heard (a := 0) (b := 0) (c := 0) hk rfl rfl (by simp) (by simp [unreadable, Work.unreadable])
        rfl rfl rfl (by simp) (by simp) rfl

/-! ## Every run -/

/-- Whether a step is one of the work on a message. -/
def Event.ofWork : Event J → Bool
  | .work _ | .workStarts _ _ | .workReturns _ _ | .workTimesOut _ | .workPanics _
  | .workAborted _ => true
  | _ => false

/-- A step that is not of the work on a message, and hears nothing. -/
theorem Accounted.quiet (h : Accounted s) (hstep : Step J s e s') (hwork : e.ofWork = false)
    (hreceive : ∀ text, e ≠ .receive text) : Accounted s' := by
  have same : ∀ {t : Session}, t.received = s.received → t.limits = s.limits → t.works = s.works →
      t.heartbeatsReceived = s.heartbeatsReceived → t.marks.countP Mark.answers = s.answered →
      t.ignoredFrames = s.ignoredFrames → Accounted t :=
    fun hreceived hlimits hworks hcount hmarks hignored =>
      h.same hreceived hlimits hworks hcount hmarks hignored
  cases hstep with
  | exchange _ h =>
    cases h with
    | enqueues _ he => obtain ⟨_, _, _, _, _, rfl⟩ := he.frame; exact same rfl rfl rfl rfl rfl rfl
    | _ => exact same rfl rfl rfl rfl rfl rfl
  | beat _ h =>
    cases h with
    | enqueues _ he => obtain ⟨_, _, _, _, _, rfl⟩ := he.frame; exact same rfl rfl rfl rfl rfl rfl
    | _ => exact same rfl rfl rfl rfl rfl rfl
  | raw _ he => obtain ⟨_, _, _, _, _, rfl⟩ := he.frame; exact same rfl rfl rfl rfl rfl rfl
  | receive => exact absurd rfl (hreceive _)
  | drive h => cases h <;> exact same rfl rfl rfl rfl rfl rfl
  | work _ h =>
    cases h with
    | answers ha => cases ha <;> cases hwork
    | _ => cases hwork
  | writer h => cases h <;> exact same rfl rfl rfl rfl rfl rfl
  | _ => exact same rfl rfl rfl rfl rfl rfl

/-- **Every text is accounted for**, in every run. -/
theorem texts_accounted_for (h : (machine J).Reachable s) : Accounted s := by
  refine h.invariant (P := Accounted) ?_ ?_
  · rintro s ⟨id, limits, handlers, budget, elsewhere, rfl⟩
    exact ⟨rfl, le_refl _, le_refl _, rfl⟩
  intro s e s' _ hn ih
  have hnext : s.next J e = some s' := hn
  cases e with
  | receive text =>
    simp only [next] at hnext
    split at hnext
    · obtain rfl := Option.some.inj hnext
      exact ih.hears
    · cases hnext
  | work i =>
    obtain ⟨w, hw, hnext⟩ := Option.bind_eq_some_iff.mp hnext
    by_cases hpc : w.pc = .dispatching
    · exact ih.dispatch hw hpc hnext
    · exact ih.works hw hpc hnext
  | workStarts i failure =>
    obtain ⟨w, hw, hnext⟩ := Option.bind_eq_some_iff.mp hnext
    unfold workStarts at hnext
    split at hnext
    · split at hnext <;> cases hnext
      · exact ih.handler hw (.inl ‹_›) rfl rfl rfl ⟨rfl, rfl, rfl, rfl⟩
      · exact ih.handler hw (.inl ‹_›) rfl rfl rfl ⟨rfl, rfl, rfl, rfl⟩
    · cases hnext
  | workReturns i r =>
    obtain ⟨w, hw, hnext⟩ := Option.bind_eq_some_iff.mp hnext
    unfold workReturns at hnext
    split at hnext
    · split at hnext <;> cases hnext
      · exact ih.handler hw (.inr ‹_›) rfl rfl rfl ⟨rfl, rfl, rfl, rfl⟩
      · exact ih.handler hw (.inr ‹_›) rfl rfl rfl ⟨rfl, rfl, rfl, rfl⟩
    · cases hnext
  | workTimesOut i =>
    obtain ⟨w, hw, hnext⟩ := Option.bind_eq_some_iff.mp hnext
    unfold workTimesOut at hnext
    split at hnext
    · cases hnext
      exact ih.handler hw (.inr ‹_›) rfl rfl rfl ⟨rfl, rfl, rfl, rfl⟩
    · cases hnext
  | workPanics i =>
    obtain ⟨w, hw, hnext⟩ := Option.bind_eq_some_iff.mp hnext
    obtain ⟨hpc, rfl⟩ := workPanics_eq_some hnext
    exact ih.handler hw hpc rfl rfl rfl ⟨rfl, rfl, rfl, rfl⟩
  | workAborted i =>
    obtain ⟨w, hw, hnext⟩ := Option.bind_eq_some_iff.mp hnext
    have hstep : WorkStep J s i w (.workAborted i) s' := workAborted_step hnext
    cases hstep with
    | aborted hpc => exact ih.handler hw hpc rfl rfl rfl ⟨rfl, rfl, rfl, rfl⟩
    | answers ha => cases ha
  | _ => exact ih.quiet (step_of_next hn) rfl (by simp)

/-- A frame that is none, a heartbeat without an interval, an answer nobody waits for,
a heartbeat, and a message without a type. -/
def mixedRun : List (Event compactJson) :=
  [.receive "VCMP", .receive "HBT0", .receive "ACKAAAAAAAAAAAA", .receive "HBT5",
    .receive "MSGAAAAAAAAAAAA", .work 0, .work 0, .work 0]

theorem texts_accounted_for_mixedRun : ∃ s, (machine compactJson).run (small []) mixedRun = some s ∧
    s.ignoredFrames = 4 ∧ s.heartbeatsReceived = 1 ∧ s.works.length = 1 ∧ Accounted s := by
  have hrun : ((machine compactJson).run (small []) mixedRun).any (fun s =>
      decide (s.ignoredFrames = 4 ∧ s.heartbeatsReceived = 1 ∧ s.works.length = 1)) = true := by
    decide +kernel
  obtain ⟨s, hs, hend⟩ := Machine.exists_of_run hrun
  obtain ⟨hignored, hcount, hworks⟩ := of_decide_eq_true hend
  exact ⟨s, hs, hignored, hcount, hworks,
    texts_accounted_for (Machine.reachable_of_run (init_small compactJson []) hs)⟩

end Session

end Vcmp
