import Vcmp.Session.Held
/-!
# A refused call leaves no trace

A call of `exchange` that fails before it waits has taken up to two
request permits, an entry of the pending map and up to two byte permits,
and gives back what it has taken on every way out. `Unwinds` says what it
has at each point, against the state it was called in: nothing at the
end. The frame of such a call is on no queue at any time.
-/

namespace Vcmp

/-! ## Permits taken since -/

/-- **A budget counts some permits more than another**, and may have
refused more. -/
structure Carries (b b' : ResourceBudget) (ps : List Permit) : Prop where
  value : ∀ c : Counter, c.value b'.usage = c.value b.usage + total c.weight ps
  overloads : b.usage.overloads < u64Bound →
    b.usage.overloads ≤ b'.usage.overloads ∧ b'.usage.overloads < u64Bound

namespace Carries

variable {b b' b'' : ResourceBudget} {ps : List Permit} {p : Permit} {resource : Resource}
  {bytes : ℕ}

theorem refl (b : ResourceBudget) : Carries b b [] := ⟨fun _ => rfl, fun h => ⟨le_refl _, h⟩⟩

theorem grant (h : Carries b b' ps) (hr : b'.reserve resource bytes = (some p, b'')) :
    Carries b b'' (p :: ps) := by
  obtain ⟨-, -, rfl⟩ := ResourceBudget.reserve_some hr
  refine ⟨fun c => ?_, fun hb => by simpa using h.overloads hb⟩
  have hc := h.value c
  rw [ResourceSnapshot.value_add, total_cons]
  omega

theorem refuse (h : Carries b b' ps) (hr : b'.reserve resource bytes = (none, b'')) :
    Carries b b'' ps := by
  obtain ⟨-, rfl⟩ := ResourceBudget.reserve_none hr
  refine ⟨fun c => by simpa using h.value c, fun hb => ?_⟩
  obtain ⟨hle, hlt⟩ := h.overloads hb
  obtain ⟨hle', hlt'⟩ := b'.usage.overloads_refuse hlt
  exact ⟨le_trans hle hle', hlt'⟩

theorem release (h : Carries b b' (p :: ps)) : Carries b (b'.release p) ps := by
  refine ⟨fun c => ?_, fun hb => by simpa [ResourceBudget.release] using h.overloads hb⟩
  have hc := h.value c
  rw [total_cons] at hc
  simp only [ResourceBudget.release, ResourceSnapshot.value_sub]
  omega

/-- With nothing more, the usage is the same. -/
theorem same (h : Carries b b' []) : b.usage.Same b'.usage := fun c => (h.value c).symm

end Carries

/-! ## What a call has taken -/

/-- The permit a call of `enqueue` holds on the shared budget. -/
def Enqueue.shared (q : Enqueue) : List Permit :=
  match q.pc with
  | .pushing p => [p]
  | _ => []

/-- The permit of the shared budget left after a step of `enqueue`. -/
def EnqueueResult.shared : EnqueueResult → List Permit
  | .goes q => q.shared
  | _ => []

/-- The permits a call of `exchange` holds on the shared budget. -/
def Exchange.shared (x : Exchange) : List Permit :=
  match x.pc with
  | .registering p => [p]
  | .enqueuing q => q.shared
  | _ => []

namespace ExchangePc

/-- Whether the call has an entry in the map, as long as nobody takes it. -/
def registered : ExchangePc → Bool
  | .enqueuing _ | .cleaning _ => true
  | _ => false

/-- Whether the call has come to wait for its answer. -/
def waited : ExchangePc → Bool
  | .awaiting => true
  | .cleaning (.refused _) | .done (.refused _) => false
  | .cleaning _ | .done _ => true
  | _ => false

end ExchangePc

namespace Session

variable {J : JsonText} {s s' t t' : Session} {e : Event J} {i : ℕ} {x y : Exchange}

/-- **What a call has taken since `s`**: the permits it holds, and where
it is registered its entry with the request permit. -/
structure Unwinds (s : Session) (i : ℕ) (x : Exchange) (t : Session) (mine : List PendingEntry) :
    Prop where
  data : t.data = s.data
  control : t.control = s.control
  pending : t.pending = mine ++ s.pending
  entry : x.pc.registered = true → ∃ p, mine = [⟨x.id, i, p⟩]
  none : x.pc.registered = false → mine = []
  own : Carries s.own t.own (x.held ++ mine.map PendingEntry.permit)
  budget : Carries s.budget t.budget (x.shared ++ mine.map PendingEntry.permit)

/-- A step of `enqueue` that does not accept the frame leaves the queues,
and what it held before it holds now or has given back. -/
theorem EnqueueStep.unwinds {origin : Origin} {q : Enqueue} {r : EnqueueResult} {ps : List Permit}
    (h : EnqueueStep t origin q t' r) (hnot : r ≠ .accepted)
    (hown : Carries s.own t.own (q.held ++ ps))
    (hbudget : Carries s.budget t.budget (q.shared ++ ps)) :
    t'.data = t.data ∧ t'.control = t.control ∧ t'.pending = t.pending ∧
      Carries s.own t'.own (r.held ++ ps) ∧ Carries s.budget t'.budget (r.shared ++ ps) := by
  cases h with
  | notOpen hpc | tooLarge hpc | checked hpc =>
    simp only [Enqueue.held, Enqueue.shared, hpc] at hown hbudget
    exact ⟨rfl, rfl, rfl, hown, hbudget⟩
  | granted hpc hr =>
    simp only [Enqueue.held, Enqueue.shared, hpc] at hown hbudget
    exact ⟨rfl, rfl, rfl, hown.grant hr, hbudget⟩
  | refused hpc hr =>
    simp only [Enqueue.held, Enqueue.shared, hpc] at hown hbudget
    exact ⟨rfl, rfl, rfl, hown.refuse hr, hbudget⟩
  | @admitted p p' b hpc hr =>
    simp only [Enqueue.held, Enqueue.shared, hpc] at hown hbudget
    obtain ⟨-, rfl, -⟩ := ResourceBudget.reserve_some hr
    exact ⟨rfl, rfl, rfl, hown, hbudget.grant hr⟩
  | overloaded hpc hr =>
    simp only [Enqueue.held, Enqueue.shared, hpc] at hown hbudget
    exact ⟨rfl, rfl, rfl, hown.release, hbudget.refuse hr⟩
  | full hpc =>
    simp only [Enqueue.held, Enqueue.shared, hpc] at hown hbudget
    exact ⟨rfl, rfl, rfl, hown.release, hbudget.release⟩
  | accepted => exact absurd rfl hnot

/-- **Every step of a call that has not waited keeps the account**, and a
call that has waited is not refused any more. -/
theorem Unwinds.step {mine : List PendingEntry} (h : Unwinds s i x t mine)
    (hx : t.exchanges[i]? = some x) (hfresh : ∀ entry ∈ s.pending, entry.id ≠ x.id)
    (hstep : ExchangeStep t i x t') :
    ∃ y, t'.exchanges[i]? = some y ∧ y.id = x.id ∧
      (y.pc.waited = true ∨ ∃ mine, Unwinds s i y t' mine) := by
  have hset := getElem?_setExchange hx
  obtain ⟨hdata, hcontrol, hpending, hentry, hnone, hown, hbudget⟩ := h
  -- before the call registers it has no entry, only what it holds itself
  have before : ∀ {u : Session} {pc : ExchangePc}, x.pc.registered = false →
      pc.registered = false → u.exchanges[i]? = some { x with pc := pc } → u.data = t.data →
      u.control = t.control → u.pending = t.pending →
      (Carries s.own t.own x.held → Carries s.own u.own { x with pc := pc : Exchange }.held) →
      (Carries s.budget t.budget x.shared →
        Carries s.budget u.budget { x with pc := pc : Exchange }.shared) →
      ∃ y, u.exchanges[i]? = some y ∧ y.id = x.id ∧
        (y.pc.waited = true ∨ ∃ mine, Unwinds s i y u mine) := by
    intro u pc hpc hpc' hu hd hc hp ho hb
    obtain rfl := hnone hpc
    rw [List.map_nil, List.append_nil] at hown hbudget
    refine ⟨_, hu, rfl, .inr ⟨[], hd.trans hdata, hc.trans hcontrol, hp.trans hpending,
      fun h => absurd (hpc'.symm.trans h) Bool.false_ne_true, fun _ => rfl, ?_, ?_⟩⟩
    · simpa using ho hown
    · simpa using hb hbudget
  cases hstep with
  | tooLarge hpc =>
    refine before (by rw [hpc]; rfl) rfl (hset t _ rfl) rfl rfl rfl ?_ ?_ <;>
      simp only [Exchange.held, Exchange.shared, hpc]
    · exact fun h => h
    · exact fun h => h
  | granted hpc hr =>
    refine before (by rw [hpc]; rfl) rfl (hset t _ rfl) rfl rfl rfl ?_ ?_ <;>
      simp only [Exchange.held, Exchange.shared, hpc]
    · exact fun h => h.grant hr
    · exact fun h => h
  | refused hpc hr =>
    refine before (by rw [hpc]; rfl) rfl (hset t _ rfl) rfl rfl rfl ?_ ?_ <;>
      simp only [Exchange.held, Exchange.shared, hpc]
    · exact fun h => h.refuse hr
    · exact fun h => h
  | admitted hpc hr =>
    obtain ⟨-, rfl, -⟩ := ResourceBudget.reserve_some hr
    refine before (by rw [hpc]; rfl) rfl (hset t _ rfl) rfl rfl rfl ?_ ?_ <;>
      simp only [Exchange.held, Exchange.shared, hpc]
    · exact fun h => h
    · exact fun h => h.grant hr
  | overloaded hpc hr =>
    refine before (by rw [hpc]; rfl) rfl (hset t _ rfl) rfl rfl rfl ?_ ?_ <;>
      simp only [Exchange.held, Exchange.shared, hpc]
    · exact Carries.release
    · exact fun h => h.refuse hr
  | notOpen hpc =>
    refine before (by rw [hpc]; rfl) rfl (hset t _ rfl) rfl rfl rfl ?_ ?_ <;>
      simp only [Exchange.held, Exchange.shared, hpc]
    · exact Carries.release
    · exact Carries.release
  | @registered p hpc =>
    -- both permits pass to the entry
    obtain rfl := hnone (by simp [hpc, ExchangePc.registered])
    simp only [Exchange.held, Exchange.shared, hpc] at hown hbudget
    refine ⟨_, hset t _ rfl, rfl, .inr ⟨[⟨x.id, i, p⟩], hdata, hcontrol, ?_, fun _ => ⟨p, rfl⟩,
      by simp [ExchangePc.registered], hown, hbudget⟩⟩
    simpa using hpending
  | @enqueues q t₁ r hpc he =>
    obtain ⟨p, rfl⟩ := hentry (by simp [hpc, ExchangePc.registered])
    simp only [Exchange.held, Exchange.shared, hpc] at hown hbudget
    have hexchanges := he.parties.exchanges
    refine ⟨_, hset t₁ _ hexchanges, rfl, ?_⟩
    by_cases hr : r = .accepted
    · exact .inl (by rw [hr]; rfl)
    · obtain ⟨hd, hc, hp, hown', hbudget'⟩ := he.unwinds hr hown hbudget
      refine .inr ⟨[⟨x.id, i, p⟩], hd.trans hdata, hc.trans hcontrol, hp.trans hpending,
        fun _ => ⟨p, rfl⟩, ?_, ?_, ?_⟩
      · cases r with
        | goes | fails => simp [Exchange.enqueued, ExchangePc.registered]
        | accepted => exact absurd rfl hr
      · cases r <;> exact hown'
      · cases r <;> exact hbudget'
  | settled => exact ⟨_, hset t _ rfl, rfl, .inl rfl⟩
  | orphaned => exact ⟨_, hset t _ rfl, rfl, .inl rfl⟩
  | @removed o entry hpc hfound =>
    obtain ⟨p, rfl⟩ := hentry (by simp [hpc, ExchangePc.registered])
    simp only [Exchange.held, Exchange.shared, hpc] at hown hbudget
    -- the entry found is the call's own, and no other has its id
    obtain rfl : ⟨x.id, i, p⟩ = entry := by simpa [findPending, hpending] using hfound
    have hothers : s.pending.filter (fun entry => decide (entry.id ≠ x.id)) = s.pending := by
      rw [List.filter_eq_self]
      intro entry hmem
      exact decide_eq_true (hfresh entry hmem)
    refine ⟨_, hset (t.removePending _) _ rfl, rfl, .inr ⟨[], hdata, hcontrol, ?_,
      by simp [ExchangePc.registered], fun _ => rfl, hown.release, hbudget.release⟩⟩
    show t.pending.filter (fun entry => decide (entry.id ≠ x.id)) = s.pending
    rw [hpending, List.singleton_append, List.filter_cons_of_neg (by simp), hothers]
  | @cleaned o hpc hmissing =>
    obtain ⟨p, rfl⟩ := hentry (by simp [hpc, ExchangePc.registered])
    simp [findPending, hpending] at hmissing

/-- A call that has waited is not refused any more. -/
theorem ExchangeStep.waited (h : ExchangeStep t i x t') (hx : t.exchanges[i]? = some x)
    (hwaited : x.pc.waited = true) :
    ∃ y, t'.exchanges[i]? = some y ∧ y.id = x.id ∧ y.pc.waited = true := by
  have hset := getElem?_setExchange hx
  cases h with
  | settled => exact ⟨_, hset t _ rfl, rfl, rfl⟩
  | orphaned => exact ⟨_, hset t _ rfl, rfl, rfl⟩
  | @removed o entry hpc =>
    rw [hpc] at hwaited
    refine ⟨_, hset (t.removePending entry) _ rfl, rfl, ?_⟩
    cases o <;> first | rfl | cases hwaited
  | @cleaned o hpc =>
    rw [hpc] at hwaited
    refine ⟨_, hset t _ rfl, rfl, ?_⟩
    cases o <;> first | rfl | cases hwaited
  | tooLarge hpc => rw [hpc] at hwaited; cases hwaited
  | granted hpc => rw [hpc] at hwaited; cases hwaited
  | refused hpc => rw [hpc] at hwaited; cases hwaited
  | admitted hpc => rw [hpc] at hwaited; cases hwaited
  | overloaded hpc => rw [hpc] at hwaited; cases hwaited
  | notOpen hpc => rw [hpc] at hwaited; cases hwaited
  | registered hpc => rw [hpc] at hwaited; cases hwaited
  | enqueues hpc => rw [hpc] at hwaited; cases hwaited

/-! ## Nothing is left -/

/-- A call before its first step is not in the map. -/
theorem fresh_of_start (h : (machine J).Reachable s) (hx : s.exchanges[i]? = some x)
    (hstart : x.pc = .start) {entry : PendingEntry} (hmem : entry ∈ s.pending) : entry.id ≠ x.id := by
  intro heq
  have htable := (registry_of_reachable h).table
  obtain ⟨y, hy, hyid, hpending⟩ := htable.entry entry hmem
  obtain rfl := htable.ids hy hx (hyid.trans heq)
  rw [hx, Option.some.injEq] at hy
  subst hy
  rw [(htable.fits hx).admitting (by rw [hstart]; rfl)] at hpending
  cases hpending

/-- Only the call itself moves. -/
def Alone (J : JsonText) (i : ℕ) (_ : Session) (e : Event J) : Prop := e = .exchange i

/-- **What the call has taken, along its own steps.** -/
theorem unwinds_of_path (h : (machine J).Reachable s) (hx : s.exchanges[i]? = some x)
    (hstart : x.pc = .start) (hpath : (machine J).Path (Alone J i) s t) :
    ∃ y, t.exchanges[i]? = some y ∧ y.id = x.id ∧
      (y.pc.waited = true ∨ ∃ mine, Unwinds s i y t mine) := by
  have hbegin : Unwinds s i x s [] := by
    have hheld : x.held = [] := by simp [Exchange.held, hstart]
    have hshared : x.shared = [] := by simp [Exchange.shared, hstart]
    exact ⟨rfl, rfl, rfl, fun hr => by simp [hstart, ExchangePc.registered] at hr, fun _ => rfl,
      hheld ▸ .refl _, hshared ▸ .refl _⟩
  refine hpath.preserves (P := fun t => ∃ y, t.exchanges[i]? = some y ∧ y.id = x.id ∧
    (y.pc.waited = true ∨ ∃ mine, Unwinds s i y t mine)) ?_ ⟨x, hx, rfl, .inr ⟨[], hbegin⟩⟩
  rintro t e t' rfl hn ⟨y, hy, hid, hcase⟩
  obtain ⟨z, hz, hnext⟩ := Option.bind_eq_some_iff.mp hn
  obtain rfl : y = z := Option.some.inj (hy.symm.trans hz)
  have hstep := exchangeStep_of_next hnext
  rcases hcase with hwaited | ⟨mine, hmine⟩
  · obtain ⟨y', hy', hid', hwaited'⟩ := hstep.waited hy hwaited
    exact ⟨y', hy', hid'.trans hid, .inl hwaited'⟩
  · have hfresh : ∀ entry ∈ s.pending, entry.id ≠ y.id := fun entry hmem =>
      hid ▸ fresh_of_start h hx hstart hmem
    obtain ⟨y', hy', hid', hcase'⟩ := hmine.step hy hfresh hstep
    exact ⟨y', hy', hid'.trans hid, hcase'⟩

/-- **Where the outcome of a call comes from**: it had it, or it moves. -/
theorem RequestStep.decides (h : RequestStep J s s') (hy : s'.exchanges[i]? = some y) {o : Outcome}
    (hout : y.outcome = some o) :
    ∃ x, s.exchanges[i]? = some x ∧ s'.sentBy (.exchange i) = s.sentBy (.exchange i) ∧
      (x.outcome = some o ∨ CallMove x y.pc) := by
  have same : SameSent s s' → s.exchanges[i]? = some y → ∃ x, s.exchanges[i]? = some x ∧
      s'.sentBy (.exchange i) = s.sentBy (.exchange i) ∧ (x.outcome = some o ∨ CallMove x y.pc) :=
    fun hs hx => ⟨y, hx, hs i, .inl hout⟩
  cases h with
  | quiet hx _ _ hs => exact same hs (hx ▸ hy)
  | called _ hpc _ hx _ _ hs =>
    rcases getElem?_concat_cases (hx ▸ hy) with ⟨-, rfl⟩ | hx
    · simp [Exchange.outcome, hpc] at hout
    · exact same hs hx
  | moves hi hmove hx _ _ hs =>
    rcases getElem?_set_cases (hx ▸ hy) with ⟨rfl, rfl⟩ | ⟨-, hx⟩
    · exact ⟨_, hi, hs _, .inr hmove⟩
    · exact same hs hx
  | @accepted k _ _ hi hpc hx _ _ hs =>
    rcases getElem?_set_cases (hx ▸ hy) with ⟨rfl, rfl⟩ | ⟨hne, hx⟩
    · simp [Exchange.outcome] at hout
    · refine ⟨y, hx, ?_, .inl hout⟩
      rw [hs, if_neg hne, List.append_nil]
  | registered hi _ _ hx _ _ hs =>
    rcases getElem?_set_cases (hx ▸ hy) with ⟨rfl, rfl⟩ | ⟨-, hx⟩
    · simp [Exchange.outcome] at hout
    · exact same hs hx
  | removed hi hpc _ hx _ _ hs =>
    rcases getElem?_set_cases (hx ▸ hy) with ⟨rfl, rfl⟩ | ⟨-, hx⟩
    · exact ⟨_, hi, hs _, .inl (by simpa [Exchange.outcome, hpc] using hout)⟩
    · exact same hs hx
  | cleaned hi hpc _ hx _ _ hs =>
    rcases getElem?_set_cases (hx ▸ hy) with ⟨rfl, rfl⟩ | ⟨-, hx⟩
    · exact ⟨_, hi, hs _, .inl (by simpa [Exchange.outcome, hpc] using hout)⟩
    · exact same hs hx
  | answer _ _ _ _ _ hx _ _ hs =>
    obtain ⟨x, hx', rfl⟩ := getElem?_modify_cases (hx ▸ hy)
    refine ⟨x, hx', hs i, .inl ?_⟩
    split at hout <;> exact hout
  | settles _ hs =>
    rw [hs] at hy
    obtain ⟨x, hx, rfl⟩ := getElem?_modify_cases hy
    refine ⟨x, hx, by rw [hs]; rfl, .inl ?_⟩
    split at hout <;> exact hout
  | drains _ hs =>
    rw [hs] at hy
    have hget := Table.getElem?_foldl_holdSender s.pending s.exchanges i
    rw [show (s.pending.foldl holdSender s.exchanges)[i]? = some y from hy] at hget
    obtain ⟨x, hx, rfl⟩ := Option.map_eq_some_iff.mp hget.symm
    refine ⟨x, hx, by rw [hs]; rfl, .inl ?_⟩
    split at hout <;> exact hout
  | finishSettle _ hs =>
    rw [hs] at hy
    obtain ⟨x, hx, rfl⟩ := getElem?_modify_cases (l := s.exchanges) hy
    refine ⟨x, hx, by rw [hs]; rfl, .inl ?_⟩
    split at hout <;> exact hout

/-- **A refused call has put no frame on a queue**, in every run. -/
theorem unsent_of_refused (h : (machine J).Reachable s) (hx : s.exchanges[i]? = some x)
    {error : VcmpError} (hout : x.outcome = some (.refused error)) :
    s.sentBy (.exchange i) = [] := by
  refine h.invariant_of (P := fun s => ∀ (i : ℕ) (x : Exchange) (error : VcmpError),
    s.exchanges[i]? = some x → x.outcome = some (.refused error) → s.sentBy (.exchange i) = [])
    ?_ ?_ i x error hx hout
  · rintro s ⟨id, limits, handlers, budget, elsewhere, rfl⟩ i x error hx
    simp [spawn] at hx
  · intro s e s' hreach _ hn ih i y error hy hout
    obtain ⟨x, hx, hsame, hbefore | hmove⟩ := (step_of_next hn).request.decides hy hout
    · rw [hsame]
      exact ih i x error hx hbefore
    · -- it is refused while it asks, or by its `enqueue`: nothing was accepted before either
      rw [hsame]
      have hsends := ((registry_of_reachable hreach).sends hx).before
      simp only [Exchange.outcome] at hout
      generalize y.pc = pc at hmove hout
      cases hmove with
      | admits hadm => exact hsends (.inl hadm)
      | refused hadm => exact hsends (.inl hadm)
      | goes hpc => exact hsends (.inr ⟨_, hpc⟩)
      | fails hpc => exact hsends (.inr ⟨_, hpc⟩)
      | settled | orphaned | timedOut | abandoned => cases hout

/-- **What a call that is refused before it waits leaves behind**, from the
state it is called in. -/
structure LeavesNoTrace (J : JsonText) (s : Session) (i : ℕ) : Prop where
  /-- Where only the call moves, everything is as it was, more refusals apart. -/
  alone : ∀ {t : Session} {y : Exchange} {error : VcmpError},
    (machine J).Path (Alone J i) s t → t.exchanges[i]? = some y → y.pc = .done (.refused error) →
    t.pending = s.pending ∧ t.data = s.data ∧ t.control = s.control ∧
      s.own.usage.Same t.own.usage ∧ s.budget.usage.Same t.budget.usage ∧
      (s.own.usage.overloads < u64Bound → s.own.usage.overloads ≤ t.own.usage.overloads) ∧
      (s.budget.usage.overloads < u64Bound → s.budget.usage.overloads ≤ t.budget.usage.overloads)
  /-- Whoever else moves, the call is not in the map, it holds no permit and the counters are what
  the others hold. -/
  among : ∀ {t : Session} {y : Exchange} {error : VcmpError},
    (machine J).Path Machine.free s t → t.exchanges[i]? = some y → y.pc = .done (.refused error) →
    (∀ entry ∈ t.pending, entry.exchange ≠ i) ∧ y.held = [] ∧ Accounts t
  /-- And no frame of it is accepted by a queue, then or ever. -/
  unsent : ∀ {t u : Session} {y : Exchange} {error : VcmpError},
    (machine J).Path Machine.free s t → t.exchanges[i]? = some y →
    y.outcome = some (.refused error) → (machine J).Path Machine.free t u →
    ∀ a ∈ u.accepted, a.origin ≠ .exchange i

/-- **A send that fails before it waits leaves no trace**, whatever the
state of the session and of the budgets it is called in. -/
theorem leavesNoTrace_of_start (h : (machine J).Reachable s) (hx : s.exchanges[i]? = some x)
    (hstart : x.pc = .start) : LeavesNoTrace J s i where
  alone := by
    intro t y error hpath hy hdone
    obtain ⟨z, hz, -, hcase⟩ := unwinds_of_path h hx hstart hpath
    obtain rfl : y = z := Option.some.inj (hy.symm.trans hz)
    rcases hcase with hwaited | ⟨mine, hmine⟩
    · rw [hdone] at hwaited
      cases hwaited
    · obtain rfl := hmine.none (by rw [hdone]; rfl)
      have hown := hmine.own
      have hbudget := hmine.budget
      simp only [Exchange.held, Exchange.shared, hdone, List.map_nil, List.append_nil] at hown hbudget
      exact ⟨hmine.pending, hmine.data, hmine.control, hown.same, hbudget.same,
        fun hb => (hown.overloads hb).1, fun hb => (hbudget.overloads hb).1⟩
  among := by
    intro t y error hpath hy hdone
    have hreach := h.trans hpath
    have htable := (registry_of_reachable hreach).table
    refine ⟨fun entry hmem heq => ?_, by simp [Exchange.held, hdone], accounts_of_reachable hreach⟩
    obtain ⟨z, hz, -, hpending⟩ := htable.entry entry hmem
    rw [heq, hy, Option.some.injEq] at hz
    subst hz
    exact (htable.fits hy).done _ hdone hpending
  unsent := by
    intro t u y error hpath hy hout hlater a ha horigin
    obtain ⟨z, hz, -, hzout⟩ := outcome_of_path hlater hy hout
    have hnone := unsent_of_refused ((h.trans hpath).trans hlater) hz hzout
    have hmem : a ∈ u.sentBy (.exchange i) := List.mem_filter.mpr ⟨ha, by simpa using horigin⟩
    rw [hnone] at hmem
    cases hmem

/-- A call whose frame waits in the queue, and a second one made. -/
def crowdedRun : List (Event compactJson) :=
  [.sendPayload zeroBytes "\"0123456789012345678901234567890123456789\""] ++
    List.replicate 7 (.exchange 0) ++
    [.sendPayload (Vector.replicate 9 1) "\"0123456789012345678901234567890123456789\""]

/-- The second one registers, finds no room for its bytes, and leaves the
map, the queue and the budgets with the first. -/
theorem leavesNoTrace_crowdedRun : ∃ s t, (machine compactJson).run (small []) crowdedRun = some s ∧
    (machine compactJson).run s (List.replicate 6 (.exchange 1)) = some t ∧
    t.pending = s.pending ∧ t.data = s.data ∧ s.own.usage.Same t.own.usage ∧
    t.own.usage.overloads = 1 := by
  have hruns : ((machine compactJson).run (small []) crowdedRun).any (fun s =>
      (s.exchanges[1]?.any fun x => match x.pc with | .start => true | _ => false) &&
      (((machine compactJson).run s (List.replicate 6 (.exchange 1))).any fun t =>
        (t.exchanges[1]?.any fun x => match x.pc with | .done (.refused _) => true | _ => false) &&
        decide (t.own.usage.overloads = 1)) &&
      (machine compactJson).admits (fun _ e => match e with | .exchange i => i = 1 | _ => false) s
        (List.replicate 6 (.exchange 1))) = true := by decide +kernel
  obtain ⟨s, hs, hend⟩ := Machine.exists_of_run hruns
  simp only [Bool.and_eq_true] at hend
  obtain ⟨⟨hstart, hrun⟩, hadmits⟩ := hend
  obtain ⟨t, ht, hrefused⟩ := Machine.exists_of_run hrun
  simp only [Bool.and_eq_true, decide_eq_true_eq] at hrefused
  obtain ⟨x, hx, hpc⟩ := (Option.any_eq_true _ _).mp hstart
  obtain ⟨y, hy, hdone⟩ := (Option.any_eq_true _ _).mp hrefused.1
  have hbegin : x.pc = .start := by
    split at hpc
    · assumption
    · cases hpc
  obtain ⟨error, hend⟩ : ∃ error, y.pc = .done (.refused error) := by
    split at hdone
    · exact ⟨_, ‹_›⟩
    · cases hdone
  have halone : (machine compactJson).Path (Alone compactJson 1) s t := by
    refine Machine.path_of_admits (fun s e hok => ?_) hadmits ht
    cases e with
    | exchange j =>
      obtain rfl : j = 1 := of_decide_eq_true hok
      rfl
    | _ => cases hok
  have htrace := leavesNoTrace_of_start (Machine.reachable_of_run (init_small _ []) hs) hx hbegin
  obtain ⟨hpending, hdata, -, hown, -⟩ := htrace.alone halone hy hend
  exact ⟨s, t, hs, ht, hpending, hdata, hown, hrefused.2⟩

end Session

end Vcmp
