import Vcmp.Session.Refused
import Vcmp.Session.Send
/-!
# What a failed send says of its cause

An error knows whether it was a local failure of the transport, and that
is decided where the error is made. `LocalFailure` lists the failures of
a call that are local, by the state in which the call comes to its
outcome and not by the error it returns, and `classifies` says that the
two agree, through every function a message is sent with.
-/

namespace Vcmp

namespace Session

variable {J : JsonText} {s s' t t' : Session} {e : Event J} {i j : ℕ} {x y : Exchange}

/-! ## Whose answer was taken -/

/-- **Whose answer was taken**: not the calls the drain settles, and every
call that is settled by an answer. -/
structure Taken (s : Session) : Prop where
  sent : ∀ (i : ℕ) (x : Exchange) (r : Settlement), s.exchanges[i]? = some x →
    x.channel = .sent r → (r = .closed ↔ .answered i ∉ s.marks)
  settling : ∀ i r, s.drive = .settling i r → r ≠ .closed
  holds : ∀ i ∈ s.drive.holds, s.drive.drained = false ↔ .answered i ∈ s.marks

/-- A mark that is no answer leaves the account as it is. -/
theorem Taken.aside (h : Taken s) (ha : Aside s s')
    (hm : ∀ i, .answered i ∈ s'.marks ↔ .answered i ∈ s.marks)
    (hx : ∀ (i : ℕ) (y : Exchange) (r : Settlement), s'.exchanges[i]? = some y →
      y.channel = .sent r → ∃ x, s.exchanges[i]? = some x ∧ x.channel = .sent r) : Taken s' where
  sent i y r hy hr := by
    obtain ⟨x, hx, hxr⟩ := hx i y r hy hr
    rw [hm]
    exact h.sent i x r hx hxr
  settling i r hd := h.settling i r (ha.settling i r hd)
  holds i hi := by
    rw [hm, ha.drained]
    exact h.holds i (ha.holds ▸ hi)

/-- **A step keeps the account of whose answer was taken.** -/
theorem RequestStep.taken (h : RequestStep J s s') (hreg : Registry J s) (ht : Taken s) :
    Taken s' := by
  -- a call replaced by one whose channel carries no settlement that was not there
  have set : ∀ {k : ℕ} {z z' : Exchange}, s.exchanges[k]? = some z →
      s'.exchanges = s.exchanges.set k z' → (∀ r, z'.channel = .sent r → z.channel = .sent r) →
      ∀ (i : ℕ) (y : Exchange) (r : Settlement), s'.exchanges[i]? = some y →
        y.channel = .sent r → ∃ x, s.exchanges[i]? = some x ∧ x.channel = .sent r := by
    intro k z z' hz hs hchannel i y r hy hr
    rcases getElem?_set_cases (hs ▸ hy) with ⟨rfl, rfl⟩ | ⟨-, hx⟩
    · exact ⟨z, hz, hchannel r hr⟩
    · exact ⟨y, hx, hr⟩
  cases h with
  | quiet hx _ hm _ ha =>
    exact ht.aside ha (fun i => by rw [hm]) fun i y r hy hr => ⟨y, hx ▸ hy, hr⟩
  | called _ _ hchannel hx _ hm _ ha =>
    refine ht.aside ha (fun i => by rw [hm]) fun i y r hy hr => ?_
    rcases getElem?_concat_cases (hx ▸ hy) with ⟨-, rfl⟩ | hx
    · rw [hchannel] at hr
      cases hr
    · exact ⟨y, hx, hr⟩
  | moves hi _ hx _ hm _ ha =>
    exact ht.aside ha (fun i => by rw [hm]) (set hi hx fun _ hr => hr)
  | accepted hi _ hx _ hm _ ha =>
    exact ht.aside ha (fun i => by rw [hm]) (set hi hx fun _ hr => hr)
  | registered hi _ _ hx _ hm _ ha =>
    exact ht.aside ha (fun i => by rw [hm]; simp) (set hi hx fun _ hr => by cases hr)
  | removed hi _ _ hx _ hm _ ha =>
    exact ht.aside ha (fun i => by rw [hm]; simp) (set hi hx fun _ hr => by cases hr)
  | cleaned hi _ _ hx _ hm _ ha =>
    exact ht.aside ha (fun i => by rw [hm]; simp) (set hi hx fun _ hr => hr)
  | @answer text frame id r' entry hdrive _ _ hanswer hfound hx _ hm _ hd _ =>
    -- the entry's call was pending, so nobody had settled it
    obtain ⟨z, hz, -, hpending⟩ := hreg.table.entry entry (List.mem_of_find?_eq_some hfound)
    refine ⟨fun i y r hy hr => ?_, fun i r hset => ?_, fun i hi => ?_⟩
    · obtain ⟨x, hx', rfl⟩ := getElem?_modify_cases (hx ▸ hy)
      split at hr
      · cases hr
      · rename_i hne
        rw [hm, List.mem_cons, ht.sent i x r hx' hr]
        have hother : Mark.answered i ≠ .answered entry.exchange := by
          simpa using fun heq : i = entry.exchange => hne heq.symm
        simp [hother]
    · rw [hd] at hset
      cases hset
      cases hanswer <;> simp
    · rw [hd] at hi ⊢
      obtain rfl := List.mem_singleton.mp hi
      simp [hm, DrivePc.drained]
  | @settles k r' hdrive hs =>
    have hk : .answered k ∈ s.marks :=
      (ht.holds k (by rw [hdrive]; exact List.mem_singleton_self k)).mp (by rw [hdrive]; rfl)
    subst hs
    refine ⟨fun i y r hy hr => ?_, fun i r hset => (by cases hset), fun i hi => (by cases hi)⟩
    obtain ⟨x, hx, rfl⟩ := getElem?_modify_cases (l := s.exchanges) hy
    split at hr
    · rename_i hki
      subst hki
      unfold Exchange.deliver at hr
      split at hr
      · cases hr
        exact iff_of_false (ht.settling k _ hdrive) fun hno => hno hk
      · cases hr
    · exact ht.sent i x r hx hr
  | drains hdrive hs =>
    subst hs
    refine ⟨fun i y r hy hr => ?_, fun i r hset => (by cases hset), fun i hi => ?_⟩
    · have hget := Table.getElem?_foldl_holdSender s.pending s.exchanges i
      rw [show (s.pending.foldl holdSender s.exchanges)[i]? = some y from hy] at hget
      obtain ⟨x, hx, rfl⟩ := Option.map_eq_some_iff.mp hget.symm
      split at hr
      · cases hr
      · simpa using ht.sent i x r hx hr
    · -- whoever is in the map has not been answered
      obtain ⟨entry, hmem, rfl⟩ := List.mem_map.mp hi
      obtain ⟨x, hx, -, hpending⟩ := hreg.table.entry entry hmem
      refine iff_of_false (by simp [DrivePc.drained]) fun hans => ?_
      have hans : .answered entry.exchange ∈ s.marks := by simpa using hans
      exact ((hreg.table.noted hx).answered hans).1 hpending
  | @finishSettle entry left hdrive hs =>
    have hdrained : s.drive.drained = true := by rw [hdrive]; rfl
    have hnot : ∀ i ∈ (entry :: left).map PendingEntry.exchange, .answered i ∉ s.marks := by
      intro i hi hans
      have hfalse := (ht.holds i (by rw [hdrive]; exact hi)).mpr hans
      rw [hdrained] at hfalse
      cases hfalse
    subst hs
    refine ⟨fun i y r hy hr => ?_, fun i r hset => (by cases hset), fun i hi => ?_⟩
    · obtain ⟨x, hx, rfl⟩ := getElem?_modify_cases (l := s.exchanges) hy
      split at hr
      · rename_i hki
        subst hki
        unfold Exchange.deliver at hr
        split at hr
        · cases hr
          exact iff_of_true rfl (hnot _ List.mem_cons_self)
        · cases hr
      · exact ht.sent i x r hx hr
    · exact iff_of_false (by simp [DrivePc.drained]) (hnot i (List.mem_cons_of_mem _ hi))

theorem taken_of_reachable (h : (machine J).Reachable s) : Taken s := by
  refine h.invariant_of ?_ ?_
  · rintro s ⟨id, limits, handlers, budget, elsewhere, rfl⟩
    exact ⟨fun i x r hx => by simp [spawn] at hx, (fun i r h => by cases h), fun i hi => by cases hi⟩
  · intro s e s' hreach _ hn ih
    exact (step_of_next hn).request.taken (registry_of_reachable hreach) ih

/-! ## The step that decides -/

/-- A step of a call moves no other. -/
theorem ExchangeStep.others (h : ExchangeStep s j x s') (hne : i ≠ j) :
    s'.exchanges[i]? = s.exchanges[i]? := by
  have hset : ∀ (u : Session) (y : Exchange), u.exchanges = s.exchanges →
      (u.setExchange j y).exchanges[i]? = s.exchanges[i]? := fun u y hu => by
    rw [setExchange, hu, List.getElem?_set_ne hne.symm]
  cases h with
  | enqueues _ he =>
    have hexchanges := he.parties.exchanges
    exact hset _ _ hexchanges
  | _ => exact hset _ _ rfl

/-- A step of the work on a message moves no call. -/
theorem WorkStep.exchanges {w : Work} (h : WorkStep J s i w e s') : s'.exchanges = s.exchanges := by
  cases h with
  | writes _ he | unwritten _ he | written _ he => exact he.parties.exchanges
  | _ => rfl

/-- **Who decides the outcome of a call**: the call itself, its deadline,
or whoever drops its future. -/
theorem Step.decider (h : Step J s e s') (hy : s'.exchanges[i]? = some y) {o : Outcome}
    (hout : y.outcome = some o) : ∃ x, s.exchanges[i]? = some x ∧ (x.outcome = some o ∨
      (e = .exchange i ∧ ExchangeStep s i x s') ∨ (x.pc = .awaiting ∧ Leaves J i e o)) := by
  have same : s'.exchanges = s.exchanges → ∃ x, s.exchanges[i]? = some x ∧ (x.outcome = some o ∨
      (e = .exchange i ∧ ExchangeStep s i x s') ∨ (x.pc = .awaiting ∧ Leaves J i e o)) :=
    fun hs => ⟨y, hs ▸ hy, .inl hout⟩
  cases h with
  | sent =>
    rcases getElem?_concat_cases hy with ⟨-, rfl⟩ | hx
    · cases hout
    · exact ⟨y, hx, .inl hout⟩
  | sentPayload =>
    rcases getElem?_concat_cases hy with ⟨-, rfl⟩ | hx
    · cases hout
    · exact ⟨y, hx, .inl hout⟩
  | @exchange k x _ hx h =>
    by_cases hne : i = k
    · subst hne
      exact ⟨x, hx, .inr (.inl ⟨rfl, h⟩)⟩
    · exact ⟨y, (h.others hne).symm.trans hy, .inl hout⟩
  | leaves hx hpc ho =>
    rcases getElem?_set_cases hy with ⟨rfl, rfl⟩ | ⟨-, hx⟩
    · obtain rfl := Option.some.inj hout
      exact ⟨_, hx, .inr (.inr ⟨hpc, ho⟩)⟩
    · exact ⟨y, hx, .inl hout⟩
  | beat _ h =>
    cases h with
    | enqueues _ he => exact same he.parties.exchanges
    | _ => exact same rfl
  | raw _ he => exact same he.parties.exchanges
  -- where a sender is held or used, only its channel moves
  | receive _ h =>
    cases h with
    | answer =>
      obtain ⟨x, hx, rfl⟩ := getElem?_modify_cases (l := s.exchanges) hy
      exact ⟨x, hx, .inl (by split at hout <;> exact hout)⟩
    | _ => exact same rfl
  | drive h =>
    cases h with
    | settles | finishSettle =>
      obtain ⟨x, hx, rfl⟩ := getElem?_modify_cases (l := s.exchanges) hy
      exact ⟨x, hx, .inl (by split at hout <;> exact hout)⟩
    | drains =>
      have hget := Table.getElem?_foldl_holdSender s.pending s.exchanges i
      rw [show (s.pending.foldl holdSender s.exchanges)[i]? = some y from hy] at hget
      obtain ⟨x, hx, rfl⟩ := Option.map_eq_some_iff.mp hget.symm
      exact ⟨x, hx, .inl (by split at hout <;> exact hout)⟩
    | _ => exact same rfl
  | work _ h => exact same h.exchanges
  | writer h => cases h <;> exact same rfl
  | _ => exact same rfl

/-! ## Local failures -/

/-- Whether the own step of a call fails locally, by where the call is: it
is too early for an answer and the session or a budget refuses, or the
session has closed and no answer for the call was taken. -/
def FailsLocally (s : Session) (i : ℕ) (x : Exchange) : Prop :=
  match x.pc with
  | .start => x.payload.utf8ByteSize + 15 ≤ s.limits.maxMessageBytes ∧
      s.own.usage.admits s.own.limits .request 0 = false
  | .granted p => s.budget.usage.admits s.budget.limits p.resource p.bytes = false
  | .registering _ => s.isOpen = false
  | .enqueuing q =>
    match q.pc with
    | .check => s.isOpen = false
    | .asking => s.own.usage.admits s.own.limits (queueResource q.control) q.text.utf8ByteSize = false
    | .granted p => s.budget.usage.admits s.budget.limits p.resource p.bytes = false
    -- the writer is gone, or there is no room left in the queue
    | .pushing _ => s.receivers = false ∨ s.capacity q.control ≤ (s.queue q.control).length
  | .awaiting => s.isOpen = false ∧ .answered i ∉ s.marks
  | .cleaning _ | .done _ => False

/-- **A local failure of a call**: its own step fails locally, or its
deadline passes. -/
def LocalFailure (s : Session) (i : ℕ) : Event J → Prop
  | .exchange j => j = i ∧ ∃ x, s.exchanges[i]? = some x ∧ s.FailsLocally i x
  | .deadline j => j = i
  | _ => False

theorem localFailure_exchange (hx : s.exchanges[i]? = some x) :
    s.LocalFailure i (.exchange i : Event J) ↔ s.FailsLocally i x := by
  constructor
  · rintro ⟨-, y, hy, hfails⟩
    rwa [Option.some.inj (hx.symm.trans hy)]
  · exact fun hfails => ⟨rfl, x, hx, hfails⟩

/-- Whether an outcome is a failure of the transport. -/
def TransportOutcome (o : Outcome) : Prop := ∃ r, o.result = some r ∧ FailsInTransport r

/-- A call that is refused says so by its error. -/
theorem transportOutcome_refused {error : VcmpError} :
    TransportOutcome (.refused error) ↔ error.isTransport = true := by
  constructor
  · rintro ⟨r, hr, hfails⟩
    obtain rfl := Option.some.inj hr
    exact (failsInTransport_error error).mp hfails
  · exact fun h => ⟨_, rfl, (failsInTransport_error error).mpr h⟩

/-- A step of `enqueue` fails in the transport where it is refused. -/
theorem EnqueueStep.fails_iff {origin : Origin} {q : Enqueue} {error : VcmpError}
    (h : EnqueueStep s origin q s' (.fails error)) (hpc : x.pc = .enqueuing q) :
    error.isTransport = true ↔ s.FailsLocally i x := by
  simp only [FailsLocally, hpc]
  cases h with
  | notOpen hq hclosed => rw [hq]; exact iff_of_true rfl hclosed
  | tooLarge hq hopen => rw [hq]; exact iff_of_false Bool.false_ne_true (by simp [hopen])
  | refused hq hr => rw [hq]; exact iff_of_true rfl (ResourceBudget.reserve_none hr).1
  | overloaded hq hr => rw [hq]; exact iff_of_true rfl (ResourceBudget.reserve_none hr).1
  | full hq hfull => rw [hq]; exact iff_of_true rfl hfull

/-- **The own step of a call decides rightly.** -/
theorem ExchangeStep.decides_rightly (h : ExchangeStep s i x s') (hreach : (machine J).Reachable s)
    (hx : s.exchanges[i]? = some x) (hnone : x.outcome = none)
    (hy : s'.exchanges[i]? = some y) {o : Outcome} (hout : y.outcome = some o) :
    TransportOutcome o ↔ s.FailsLocally i x := by
  have hset := eq_of_setExchange (y := y) hx
  cases h with
  | tooLarge hpc hsize =>
    obtain rfl := hset s _ rfl hy
    obtain rfl := Option.some.inj hout
    rw [transportOutcome_refused]
    refine iff_of_false Bool.false_ne_true ?_
    simp only [FailsLocally, hpc]
    omega
  | granted =>
    obtain rfl := hset s _ rfl hy
    cases hout
  | refused hpc hr hsize =>
    obtain rfl := hset s _ rfl hy
    obtain rfl := Option.some.inj hout
    rw [transportOutcome_refused]
    simp only [FailsLocally, hpc]
    exact iff_of_true rfl ⟨hsize, (ResourceBudget.reserve_none hr).1⟩
  | admitted =>
    obtain rfl := hset s _ rfl hy
    cases hout
  | overloaded hpc hr =>
    obtain rfl := hset s _ rfl hy
    obtain rfl := Option.some.inj hout
    rw [transportOutcome_refused]
    simp only [FailsLocally, hpc]
    exact iff_of_true rfl (ResourceBudget.reserve_none hr).1
  | notOpen hpc hclosed =>
    obtain rfl := hset s _ rfl hy
    obtain rfl := Option.some.inj hout
    rw [transportOutcome_refused]
    simp only [FailsLocally, hpc]
    exact iff_of_true rfl hclosed
  | registered =>
    obtain rfl := hset s _ rfl hy
    cases hout
  | @enqueues q s₁ r hpc he =>
    have hexchanges := he.parties.exchanges
    obtain rfl := hset s₁ _ hexchanges hy
    cases r with
    | goes => cases hout
    | accepted => cases hout
    | fails error =>
      obtain rfl := Option.some.inj hout
      rw [transportOutcome_refused]
      exact he.fails_iff hpc
  | @settled r hpc hchannel =>
    obtain rfl := hset s _ rfl hy
    obtain rfl := Option.some.inj hout
    simp only [FailsLocally, hpc]
    have htaken := (taken_of_reachable hreach).sent i x r hx hchannel
    cases r with
    | ack payload arrival position =>
      refine iff_of_false ?_ fun h => ?_
      · rintro ⟨r, hr, hfails⟩
        obtain rfl := Option.some.inj hr
        exact failsInTransport_ok _ hfails
      · cases htaken.mpr h.2
    | nak error position =>
      refine iff_of_false ?_ fun h => ?_
      · rintro ⟨r, hr, hfails⟩
        obtain rfl := Option.some.inj hr
        obtain ⟨text, payload, -, -, rfl⟩ :=
          (registry_of_reachable hreach).answers hx (.inl hchannel)
        exact Bool.false_ne_true ((failsInTransport_error _).mp hfails)
      · cases htaken.mpr h.2
    | closed =>
      -- the drain settled it, so the session is not open, and no answer was taken
      refine iff_of_true ⟨_, rfl, _, rfl, rfl⟩ ⟨?_, htaken.mp rfl⟩
      have hreg := registry_of_reachable hreach
      have hdrained := hreg.table.drained.mp (hreg.answers hx (.inl hchannel))
      exact notOpen_of_stage hreach (by have := DrivePc.stage_of_drained hdrained; omega)
  | orphaned hpc hchannel =>
    -- a sender is never dropped while its call waits
    have hgone := ((registry_of_reachable hreach).table.fits hx).gone hchannel
    rw [hnone] at hgone
    cases hgone
  | removed hpc =>
    rw [Exchange.outcome, hpc] at hnone
    cases hnone
  | cleaned hpc =>
    rw [Exchange.outcome, hpc] at hnone
    cases hnone

/-- **The step that brings a call to its outcome decides rightly.** -/
theorem Step.decides_rightly (h : Step J s e s') (hreach : (machine J).Reachable s)
    (hx : s.exchanges[i]? = some x) (hnone : x.outcome = none)
    (hy : s'.exchanges[i]? = some y) {o : Outcome} (hout : y.outcome = some o) :
    TransportOutcome o ↔ s.LocalFailure i e := by
  obtain ⟨z, hz, hcases⟩ := h.decider hy hout
  obtain rfl : x = z := Option.some.inj (hx.symm.trans hz)
  rcases hcases with hsome | ⟨rfl, hstep⟩ | ⟨-, hleaves⟩
  · rw [hnone] at hsome
    cases hsome
  · rw [localFailure_exchange hx]
    exact hstep.decides_rightly hreach hx hnone hy hout
  · cases hleaves with
    | timedOut => exact iff_of_true ⟨_, rfl, _, rfl, rfl⟩ rfl
    | abandoned => exact iff_of_false (by rintro ⟨r, hr, -⟩; cases hr) fun h => h

/-! ## The classification -/

/-- **The step a call came to its outcome by**: `e`, in the state `t`. -/
structure DecidedBy (J : JsonText) (s : Session) (i : ℕ) (o : Outcome) (t : Session)
    (e : Event J) : Prop where
  reachable : (machine J).Reachable t
  before : ∃ x, t.exchanges[i]? = some x ∧ x.outcome = none
  after : ∃ t' y, (machine J).next t e = some t' ∧ t'.exchanges[i]? = some y ∧
    y.outcome = some o ∧ (machine J).Path Machine.free t' s

/-- **Every outcome was decided by some step.** -/
theorem exists_decidedBy (h : (machine J).Reachable s) (hx : s.exchanges[i]? = some x)
    {o : Outcome} (hout : x.outcome = some o) : ∃ t e, DecidedBy J s i o t e := by
  refine h.invariant_of (P := fun s => ∀ (i : ℕ) (x : Exchange) (o : Outcome),
    s.exchanges[i]? = some x → x.outcome = some o → ∃ t e, DecidedBy J s i o t e)
    ?_ ?_ i x o hx hout
  · rintro s ⟨id, limits, handlers, budget, elsewhere, rfl⟩ i x o hx
    simp [spawn] at hx
  · intro s e s' hreach _ hn ih i y o hy hout
    obtain ⟨x, hx, hcases⟩ := (step_of_next hn).decider hy hout
    by_cases hsome : x.outcome = some o
    · obtain ⟨t, d, hreach', hbefore, t', z, hnext, hz, hzout, hpath⟩ := ih i x o hx hsome
      exact ⟨t, d, hreach', hbefore, t', z, hnext, hz, hzout, hpath.tail trivial hn⟩
    · -- it had no other outcome either, since it would have kept it
      have hnone : x.outcome = none := by
        rcases hxo : x.outcome with - | o'
        · rfl
        · obtain ⟨z, hz, -, -, -, hkeep⟩ := (step_of_next hn).request.keeps hx
          obtain rfl : z = y := Option.some.inj (hz.symm.trans hy)
          rw [hkeep o' hxo, Option.some.injEq] at hout
          exact absurd (hout ▸ hxo) hsome
      exact ⟨s, e, hreach, ⟨x, hx, hnone⟩, s', y, hn, hy, hout, .refl _⟩

/-- **What a failed send says of its cause.** -/
structure Classifies (J : JsonText) : Prop where
  /-- A send whose exchange has come to an outcome reports a transport failure exactly if the step
  that decided it was a local failure, whatever function it was sent with. -/
  sent : ∀ {s : Session} {i : ℕ} {x : Exchange} {o : Outcome}, (machine J).Reachable s →
    s.exchanges[i]? = some x → x.outcome = some o → ∃ t e, DecidedBy J s i o t e ∧
      (TransportOutcome o ↔ t.LocalFailure i e) ∧
      ∀ (r : Except VcmpError (Option String × Arrival)) (message : Output J),
        o.result = some r → serializeBounded message (s.limits.maxMessageBytes - 15) = .ok x.payload →
        Reports ⟨s.limits.maxMessageBytes, fun _ => r⟩ message (t.LocalFailure i e)
  /-- A message that cannot be serialized, or is too large, is no transport failure. -/
  unserialized : ∀ {sender : Sender} {message : Output J} {error : VcmpError},
    serializeBounded message (sender.maxMessageBytes - 15) = .error error →
    Reports sender message False
  /-- A client without a session is one. -/
  disconnected : ∀ {R : Type} (message : Output J) (decode : Json → Except String R),
    FailsInTransport (VcmpClient.sendValue none message) ∧
      FailsInTransport (VcmpClient.send none message) ∧
      FailsInTransport (VcmpClient.sendAs none message decode)
  /-- No answer of the peer is, whatever it carries. -/
  peer : ∀ payload : Option String, (readNak J payload).isTransport = false ∧
    ∀ error, readAck J payload = .error error → error.isTransport = false
  /-- Cloning, `from_error` and unboxing keep an error as it is, -/
  kept : ∀ error : VcmpError, error.clone = error ∧ AnyError.fromError (.vcmp error) = error ∧
    AnyError.unbox (.vcmp error) = error
  /-- and what is made of a document, a problem detail or another error never is one. -/
  lost : (∀ (j : Json) (error : VcmpError), VcmpError.ofJson j = some error →
      error.isTransport = false) ∧
    (∀ problem, (VcmpError.ofProblem problem).isTransport = false) ∧
    (∀ typeName message, (AnyError.fromError (.other typeName message)).isTransport = false ∧
      (AnyError.unbox (.other typeName message)).isTransport = false) ∧
    ∀ (error : AnyError) (status : UInt16) (title : String),
      (error.orProblem status title).isTransport = false

/-- **Transport failures cannot be forged or lost.** -/
theorem classifies (J : JsonText) : Classifies J where
  sent := by
    intro s i x o hreach hx hout
    obtain ⟨t, e, hdecided⟩ := exists_decidedBy hreach hx hout
    obtain ⟨hreach', ⟨z, hz, hnone⟩, t', y, hnext, hy, hyout, hpath⟩ := hdecided
    have hiff := (step_of_next hnext).decides_rightly hreach' hz hnone hy hyout
    refine ⟨t, e, ⟨hreach', ⟨z, hz, hnone⟩, t', y, hnext, hy, hyout, hpath⟩, hiff, ?_⟩
    intro r message hr hserial
    have hresult : FailsInTransport r ↔ t.LocalFailure i e := by
      rw [← hiff, TransportOutcome, hr]
      simp
    have hreports : Reports ⟨s.limits.maxMessageBytes, fun _ => r⟩ message _ :=
      reports_of_exchange hserial
    exact hreports.congr hresult
  unserialized := reports_of_unserialized
  disconnected _ decode := failsInTransport_of_disconnected decode
  peer payload := ⟨rfl, fun _ => readAck_isTransport⟩
  kept _ := ⟨rfl, rfl, rfl⟩
  lost := by
    refine ⟨fun j error h => ?_, fun _ => rfl, fun _ _ => ⟨rfl, rfl⟩, fun _ _ _ => rfl⟩
    obtain ⟨p, -, rfl⟩ := Option.map_eq_some_iff.mp h
    rfl

end Session

end Vcmp
