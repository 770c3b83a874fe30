import Vcmp.Session.Stages
/-!
# What a step can do to the requests

The calls of `exchange`, the pending map and what happened to it, as one
table. `RequestStep` says what any step of the session does to it: most
leave it alone, a call moves on its own, and only the read loop, the
closing drain and the end of a call take an entry out.
-/

namespace Vcmp

namespace DrivePc

/-- The exchanges whose senders the driving task holds. -/
def holds : DrivePc → List ℕ
  | .settling i _ => [i]
  | .finishSettle left => left.map PendingEntry.exchange
  | _ => []

/-- Whether the pending map has been drained. -/
def drained : DrivePc → Bool
  | .finishSettle _ | .finishFlag | .finished => true
  | _ => false

theorem stage_of_drained {d : DrivePc} (h : d.drained = true) : 9 ≤ d.stage := by
  cases d <;> simp_all [drained, stage]

@[simp] theorem drained_leaveWork (d : DrivePc) (i : ℕ) : (d.leaveWork i).drained = d.drained := by
  rcases d.leaveWork_eq i with h | ⟨rfl, h⟩
  · rw [h]
  · rw [h]; rfl

@[simp] theorem holds_leaveWork (d : DrivePc) (i : ℕ) : (d.leaveWork i).holds = d.holds := by
  rcases d.leaveWork_eq i with h | ⟨rfl, h⟩
  · rw [h]
  · rw [h]; rfl

theorem leaveWork_eq_settling {d : DrivePc} {i j : ℕ} {r : Settlement}
    (h : d.leaveWork i = .settling j r) : d = .settling j r := by
  rcases d.leaveWork_eq i with h' | ⟨rfl, h'⟩
  · rw [← h', h]
  · rw [h'] at h
    cases h

end DrivePc

namespace ExchangePc

/-- Before the call registers. -/
def admitting : ExchangePc → Bool
  | .start | .granted _ | .registering _ => true
  | _ => false

end ExchangePc

namespace Exchange

/-- What the call comes to, once that is decided. -/
def outcome (x : Exchange) : Option Outcome :=
  match x.pc with
  | .cleaning o | .done o => some o
  | _ => none

/-- The frame the call puts on the data queue. -/
def text (x : Exchange) : String := (Frame.message x.id x.payload).serialize

/-- How a call is made: with an id, and with the text of its message. -/
structure Made (J : JsonText) (x : Exchange) : Prop where
  id : Frame.IsId x.id
  payload : ∀ message, x.message = some message → x.payload = J.toText message

end Exchange

namespace Session

/-- How a call moves on its own, its channel as it was. -/
inductive CallMove (x : Exchange) : ExchangePc → Prop
  | admits {pc : ExchangePc} (h : x.pc.admitting = true) (h' : pc.admitting = true) :
      CallMove x pc
  | refused {error : VcmpError} (h : x.pc.admitting = true) : CallMove x (.done (.refused error))
  | goes {e : Enqueue} {pc : EnqueuePc} (h : x.pc = .enqueuing e) :
      CallMove x (.enqueuing { e with pc := pc })
  | fails {e : Enqueue} {error : VcmpError} (h : x.pc = .enqueuing e) :
      CallMove x (.cleaning (.refused error))
  | settled {r : Settlement} (h : x.pc = .awaiting) (h' : x.channel = .sent r) :
      CallMove x (.cleaning (.settled r))
  | orphaned (h : x.pc = .awaiting) (h' : x.channel = .gone) : CallMove x (.cleaning .closed)
  | timedOut (h : x.pc = .awaiting) : CallMove x (.cleaning .timedOut)
  | abandoned (h : x.pc = .awaiting) : CallMove x (.cleaning .abandoned)

/-- What a step leaves alone that does not use a sender: those the driving
task holds, whether the map is drained, and what was heard. -/
structure Aside (s s' : Session) : Prop where
  holds : s'.drive.holds = s.drive.holds
  drained : s'.drive.drained = s.drive.drained
  settling : ∀ i r, s'.drive = .settling i r → s.drive = .settling i r
  heard : s.received <+: s'.received

/-- The frames of the calls are the same. -/
def SameSent (s s' : Session) : Prop :=
  ∀ i, s'.sentBy (.exchange i) = s.sentBy (.exchange i)

/-- **What a step can do to the requests.** -/
inductive RequestStep (J : JsonText) (s s' : Session) : Prop
  | quiet (hx : s'.exchanges = s.exchanges) (hp : s'.pending = s.pending)
      (hm : s'.marks = s.marks) (hs : SameSent s s') (ha : Aside s s')
  | called {x : Exchange} (hfresh : ∀ y ∈ s.exchanges, y.id ≠ x.id) (hpc : x.pc = .start)
      (hchannel : x.channel = .unregistered) (hx : s'.exchanges = s.exchanges ++ [x])
      (hp : s'.pending = s.pending) (hm : s'.marks = s.marks) (hs : SameSent s s')
      (ha : Aside s s') (hmade : x.Made J)
  | moves {i : ℕ} {x : Exchange} {pc : ExchangePc} (hi : s.exchanges[i]? = some x)
      (hmove : CallMove x pc) (hx : s'.exchanges = s.exchanges.set i { x with pc := pc })
      (hp : s'.pending = s.pending) (hm : s'.marks = s.marks) (hs : SameSent s s')
      (ha : Aside s s')
  | accepted {i : ℕ} {x : Exchange} {e : Enqueue} (hi : s.exchanges[i]? = some x)
      (hpc : x.pc = .enqueuing e) (hx : s'.exchanges = s.exchanges.set i { x with pc := .awaiting })
      (hp : s'.pending = s.pending) (hm : s'.marks = s.marks)
      (hs : ∀ j, s'.sentBy (.exchange j) = s.sentBy (.exchange j) ++
        if j = i then [⟨e.control, e.text, .exchange i⟩] else [])
      (ha : Aside s s')
  | registered {i : ℕ} {x : Exchange} {p : Permit} (hi : s.exchanges[i]? = some x)
      (hpc : x.pc = .registering p) (hopen : s.isOpen = true)
      (hx : s'.exchanges = s.exchanges.set i { x with
        pc := .enqueuing ⟨x.text, false, .check⟩, channel := .pending })
      (hp : s'.pending = ⟨x.id, i, p⟩ :: s.pending) (hm : s'.marks = .registered i :: s.marks)
      (hs : SameSent s s') (ha : Aside s s')
  | removed {i : ℕ} {x : Exchange} {o : Outcome} {entry : PendingEntry}
      (hi : s.exchanges[i]? = some x) (hpc : x.pc = .cleaning o)
      (hfound : s.findPending x.id = some entry)
      (hx : s'.exchanges = s.exchanges.set i { x with pc := .done o, channel := .gone })
      (hp : s'.pending = s.pending.filter (·.id ≠ entry.id))
      (hm : s'.marks = .ended i :: s.marks) (hs : SameSent s s') (ha : Aside s s')
  | cleaned {i : ℕ} {x : Exchange} {o : Outcome} (hi : s.exchanges[i]? = some x)
      (hpc : x.pc = .cleaning o) (hnone : s.findPending x.id = none)
      (hx : s'.exchanges = s.exchanges.set i { x with pc := .done o })
      (hp : s'.pending = s.pending) (hm : s'.marks = .ended i :: s.marks) (hs : SameSent s s')
      (ha : Aside s s')
  | answer {text : String} {frame : Frame} {id : String} {r : Settlement} {entry : PendingEntry}
      (hdrive : s.drive = .reading) (hsize : text.utf8ByteSize ≤ s.limits.maxMessageBytes)
      (hparse : Frame.parse text = .ok frame)
      (hanswer : AnswerFrame J s frame id r) (hfound : s.findPending id = some entry)
      (hx : s'.exchanges = holdSender s.exchanges entry)
      (hp : s'.pending = s.pending.filter (·.id ≠ entry.id))
      (hm : s'.marks = .answered entry.exchange :: s.marks) (hs : SameSent s s')
      (hd : s'.drive = .settling entry.exchange r) (hheard : s'.received = s.received ++ [text])
  | settles {i : ℕ} {r : Settlement} (hdrive : s.drive = .settling i r)
      (hs' : s' = { s.deliver i r with drive := .reading })
  | drains (hdrive : s.drive = .finishDrain) (hs' : s' = { s with
        pending := [], drive := .finishSettle s.pending, marks := .drained :: s.marks
        exchanges := s.pending.foldl holdSender s.exchanges })
  | finishSettle {entry : PendingEntry} {left : List PendingEntry}
      (hdrive : s.drive = .finishSettle (entry :: left))
      (hs' : s' = { (s.deliver entry.exchange .closed).release entry.permit with
        drive := .finishSettle left })

/-! ## Every step is one of these -/

variable {J : JsonText} {s s' s₁ : Session} {e : Event J}

theorem SameSent.refl (s : Session) : SameSent s s := fun _ => rfl

/-- What another party enqueues is not a frame of the calls. -/
theorem EnqueueStep.sameSent {origin : Origin} {q : Enqueue} {r : EnqueueResult}
    (h : EnqueueStep s origin q s₁ r) (ho : ∀ i, origin ≠ .exchange i) : SameSent s s₁ :=
  fun i => h.sentBy_ne (ho i)

/-- A step that leaves the driving task where it is. -/
theorem Aside.same (hd : s'.drive = s.drive) (hr : s.received <+: s'.received) : Aside s s' where
  holds := by rw [hd]
  drained := by rw [hd]
  settling i r h := by rw [← hd, h]
  heard := hr

/-- A step that ends the work the read loop is in. -/
theorem Aside.leaveWork {i : ℕ} (hd : s'.drive = s.drive.leaveWork i)
    (hr : s.received <+: s'.received) : Aside s s' where
  holds := by rw [hd, DrivePc.holds_leaveWork]
  drained := by rw [hd, DrivePc.drained_leaveWork]
  settling i r h := DrivePc.leaveWork_eq_settling (hd ▸ h)
  heard := hr

/-- A step of the driving task that holds no sender. -/
theorem Aside.moves (h : s.drive.holds = []) (h' : s'.drive.holds = [])
    (hd : s'.drive.drained = s.drive.drained) (hr : s.received <+: s'.received) :
    Aside s s' where
  holds := by rw [h, h']
  drained := hd
  settling i r hpc := by
    rw [hpc] at h'
    exact absurd h' (by simp [DrivePc.holds])
  heard := hr

theorem requestStep_of_drive (h : DriveStep s s') : RequestStep J s s' := by
  have quiet : ∀ {t : Session}, t.exchanges = s.exchanges → t.pending = s.pending →
      t.marks = s.marks → SameSent s t → Aside s t → RequestStep J s t := .quiet
  have aside : ∀ {t : Session}, s.drive.holds = [] → t.drive.holds = [] →
      t.drive.drained = s.drive.drained → t.received = s.received → Aside s t :=
    fun h h' hd hr => .moves h h' hd (hr ▸ List.prefix_refl _)
  cases h with
  | settles hpc => exact .settles hpc rfl
  | drains hpc => exact .drains hpc rfl
  | finishSettle hpc => exact .finishSettle hpc rfl
  | settledAll hpc =>
    exact quiet rfl rfl rfl (.refl s) (aside (by rw [hpc]; rfl) rfl (by rw [hpc]; rfl) rfl)
  | finishFlag hpc =>
    exact quiet rfl rfl rfl (.refl s) (aside (by rw [hpc]; rfl) rfl (by rw [hpc]; rfl) rfl)
  | _ =>
    refine quiet rfl rfl rfl (.refl s) (aside ?_ rfl ?_ rfl)
    · simp [DrivePc.holds, *]
    · simp [DrivePc.drained, *]

theorem requestStep_of_exchange {i : ℕ} {x : Exchange} (hi : s.exchanges[i]? = some x)
    (h : ExchangeStep s i x s') : RequestStep J s s' := by
  have aside : ∀ {t : Session}, t.drive = s.drive → t.received = s.received → Aside s t :=
    fun hd hr => .same hd (hr ▸ List.prefix_refl _)
  cases h with
  | tooLarge hpc =>
    exact .moves hi (.refused (by rw [hpc]; rfl)) rfl rfl rfl (.refl s) (aside rfl rfl)
  | granted hpc =>
    exact .moves hi (.admits (by rw [hpc]; rfl) rfl) rfl rfl rfl (.refl s) (aside rfl rfl)
  | refused hpc =>
    exact .moves hi (.refused (by rw [hpc]; rfl)) rfl rfl rfl (.refl s) (aside rfl rfl)
  | admitted hpc =>
    exact .moves hi (.admits (by rw [hpc]; rfl) rfl) rfl rfl rfl (.refl s) (aside rfl rfl)
  | overloaded hpc =>
    exact .moves hi (.refused (by rw [hpc]; rfl)) rfl rfl rfl (.refl s) (aside rfl rfl)
  | notOpen hpc =>
    exact .moves hi (.refused (by rw [hpc]; rfl)) rfl rfl rfl (.refl s) (aside rfl rfl)
  | registered hpc hopen =>
    exact .registered hi hpc hopen rfl rfl rfl (.refl s) (aside rfl rfl)
  | @enqueues q s₁ r hpc he =>
    have hother : ∀ j, j ≠ i → s₁.sentBy (.exchange j) = s.sentBy (.exchange j) :=
      fun j hne => he.sentBy_ne (by simpa using hne.symm)
    have hcases := he.cases
    obtain ⟨_, _, _, _, _, rfl⟩ := he.frame
    -- the frame is accepted, or the call goes on or fails with nothing sent
    rcases hcases with ⟨rfl, hacc⟩ | ⟨pc, rfl, hacc⟩ | ⟨error, rfl, hacc⟩
    · refine .accepted hi hpc rfl rfl rfl (fun j => ?_) (aside rfl rfl)
      by_cases hj : j = i
      · subst hj
        simp only at hacc
        simp [sentBy, setExchange, hacc]
      · rw [if_neg hj, List.append_nil]
        exact hother j hj
    · refine .moves hi (.goes hpc) rfl rfl rfl (fun j => ?_) (aside rfl rfl)
      exact congrArg (List.filter _) hacc
    · refine .moves hi (.fails hpc) rfl rfl rfl (fun j => ?_) (aside rfl rfl)
      exact congrArg (List.filter _) hacc
  | settled hpc hchannel =>
    exact .moves hi (.settled hpc hchannel) rfl rfl rfl (.refl s) (aside rfl rfl)
  | orphaned hpc hchannel =>
    exact .moves hi (.orphaned hpc hchannel) rfl rfl rfl (.refl s) (aside rfl rfl)
  | removed hpc hfound => exact .removed hi hpc hfound rfl rfl rfl (.refl s) (aside rfl rfl)
  | cleaned hpc hnone => exact .cleaned hi hpc hnone rfl rfl rfl (.refl s) (aside rfl rfl)

theorem requestStep_of_receive {text : String} (hdrive : s.drive = .reading)
    (h : ReceiveStep J s text s') : RequestStep J s s' := by
  cases h with
  | answer hsize hparse hanswer hfound =>
    exact .answer hdrive hsize hparse hanswer hfound rfl rfl rfl (.refl s) rfl rfl
  | message =>
    refine .quiet rfl rfl rfl (.refl s) (.moves ?_ rfl ?_ (List.prefix_append _ _))
    · rw [hdrive]; rfl
    · rw [hdrive]; rfl
  | _ => exact .quiet rfl rfl rfl (.refl s) (.same rfl (List.prefix_append _ _))

theorem requestStep_of_work {i : ℕ} {w : Work} (h : WorkStep J s i w e s') :
    RequestStep J s s' := by
  have hwork : ∀ j, (Origin.work i) ≠ .exchange j := fun j => by simp
  have aside : ∀ {t : Session}, t.drive = s.drive → t.received = s.received → Aside s t :=
    fun hd hr => .same hd (hr ▸ List.prefix_refl _)
  have leaves : ∀ {t : Session}, t.drive = s.drive.leaveWork i → t.received = s.received →
      Aside s t := fun hd hr => .leaveWork hd (hr ▸ List.prefix_refl _)
  cases h with
  | writes _ he =>
    have hs := he.sameSent hwork
    obtain ⟨_, _, _, _, _, rfl⟩ := he.frame
    exact .quiet rfl rfl rfl hs (aside rfl rfl)
  | unwritten _ he =>
    have hs := he.sameSent hwork
    obtain ⟨_, _, _, _, _, rfl⟩ := he.frame
    exact .quiet rfl rfl rfl hs (aside rfl rfl)
  | written _ he =>
    have hs := he.sameSent hwork
    obtain ⟨_, _, _, _, _, rfl⟩ := he.frame
    exact .quiet rfl rfl rfl hs (leaves rfl rfl)
  | spawned => exact .quiet rfl rfl rfl (.refl s) (leaves rfl rfl)
  | panicked => exact .quiet rfl rfl rfl (.refl s) (leaves rfl rfl)
  | aborted => exact .quiet rfl rfl rfl (.refl s) (leaves rfl rfl)
  | closes => exact .quiet rfl rfl rfl (.refl s) (leaves rfl rfl)
  | _ => exact .quiet rfl rfl rfl (.refl s) (aside rfl rfl)

/-- **Every step does one of these to the requests.** -/
theorem Step.request (h : Step J s e s') : RequestStep J s s' := by
  have aside : ∀ {t : Session}, t.drive = s.drive → t.received = s.received → Aside s t :=
    fun hd hr => .same hd (hr ▸ List.prefix_refl _)
  cases h with
  | sent hserial hfresh =>
    obtain ⟨-, message, hmessage, hpayload⟩ := serializeBounded_eq_ok hserial
    refine .called hfresh rfl rfl rfl rfl rfl (.refl s) (aside rfl rfl)
      ⟨Frame.isId_generateId _, fun sent hsent => ?_⟩
    obtain rfl : sent = message := Option.some.inj (hsent.symm.trans hmessage)
    exact hpayload
  | sentPayload hfresh =>
    exact .called hfresh rfl rfl rfl rfl rfl (.refl s) (aside rfl rfl)
      ⟨Frame.isId_generateId _, fun _ hsent => by cases hsent⟩
  | exchange hi h => exact requestStep_of_exchange hi h
  | leaves hi hpc ho =>
    cases ho with
    | timedOut => exact .moves hi (.timedOut hpc) rfl rfl rfl (.refl s) (aside rfl rfl)
    | abandoned => exact .moves hi (.abandoned hpc) rfl rfl rfl (.refl s) (aside rfl rfl)
  | beat _ h =>
    cases h with
    | enqueues _ he =>
      have hs := he.sameSent fun j => by simp
      obtain ⟨_, _, _, _, _, rfl⟩ := he.frame
      exact .quiet rfl rfl rfl hs (aside rfl rfl)
    | _ => exact .quiet rfl rfl rfl (.refl s) (aside rfl rfl)
  | raw _ he =>
    have hs := he.sameSent fun j => by simp
    obtain ⟨_, _, _, _, _, rfl⟩ := he.frame
    exact .quiet rfl rfl rfl hs (aside rfl rfl)
  | receive hdrive h => exact requestStep_of_receive hdrive h
  | streamEnds hdrive =>
    refine .quiet rfl rfl rfl (.refl s) (.moves ?_ rfl ?_ (List.prefix_refl _))
    · rw [hdrive]; rfl
    · rw [hdrive]; rfl
  | drive h => exact requestStep_of_drive h
  | shutdownDeadline hdrive =>
    refine .quiet rfl rfl rfl (.refl s) (.moves ?_ rfl ?_ (List.prefix_refl _))
    · rw [hdrive]; rfl
    · rw [hdrive]; rfl
  | work _ h => exact requestStep_of_work h
  | writer h => cases h <;> exact .quiet rfl rfl rfl (.refl s) (aside rfl rfl)
  | _ => exact .quiet rfl rfl rfl (.refl s) (aside rfl rfl)

end Session

end Vcmp
