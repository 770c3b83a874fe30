import Vcmp.Session.Classify
import Vcmp.Session.Covers
import Vcmp.Session.Held
import Vcmp.Session.Shutdown
/-!
# Admission decides, the channel never does

The capacity of a queue and the session's own budget are two bounds on
one thing. A frame is in a queue with its permit, and whoever is about to
push one holds a permit for it, so that the permits of a kind are never
fewer than the frames in its queue, and there is room left for every call
that was granted one. What a call of `enqueue` comes to is then decided
by its sections: the check, the session's own budget and the shared one.
-/

namespace Vcmp

/-- What every reservation and every release of a budget keeps. -/
structure ResourceBudget.Stable (P : ResourceBudget → Prop) : Prop where
  reserve : ∀ {b b' : ResourceBudget} {resource : Resource} {bytes : ℕ} {o : Option Permit},
    P b → b.reserve resource bytes = (o, b') → P b'
  release : ∀ {b : ResourceBudget} (p : Permit), P b → P (b.release p)

namespace ResourceBudget.Stable

variable {P : ResourceBudget → Prop} {b : ResourceBudget}

theorem releaseAll (h : Stable P) (ps : List Permit) (hb : P b) : P (ps.foldl .release b) := by
  induction ps generalizing b with
  | nil => exact hb
  | cons p ps ih => exact ih (h.release p hb)

/-- Within its limits, which are the same. -/
theorem bounded (limits : ResourceLimits) :
    Stable fun b : ResourceBudget => b.limits = limits ∧ b.Bounded where
  reserve := by
    rintro b b' resource bytes o ⟨hlimits, hb⟩ hr
    refine ⟨?_, hb.reserve hr⟩
    cases o with
    | none =>
      obtain ⟨-, rfl⟩ := reserve_none hr
      exact hlimits
    | some p =>
      obtain ⟨-, -, rfl⟩ := reserve_some hr
      exact hlimits
  release := fun p ⟨hlimits, hb⟩ => ⟨hlimits, hb.release p⟩

end ResourceBudget.Stable

/-- The sections left of a call. -/
def Enqueue.sections (q : Enqueue) : List EnqueuePc :=
  let p := need q.control q.text
  match q.pc with
  | .check => [.check, .asking, .granted p, .pushing p]
  | .asking => [.asking, .granted p, .pushing p]
  | .granted p => [.granted p, .pushing p]
  | .pushing p => [.pushing p]

/-- The next section is the first of those left. -/
theorem Enqueue.head_sections (q : Enqueue) : [q.pc] <+: q.sections := by
  unfold sections
  cases q.pc <;> exact ⟨_, rfl⟩

namespace Session

variable {J : JsonText} {s s' t : Session} {e : Event J} {o : Origin} {q q' : Enqueue}

/-! ## The session's own budget -/

section Own

variable {P : ResourceBudget → Prop}

/-- A step of `enqueue` reserves from the own budget, or releases into it. -/
theorem EnqueueStep.own {r : EnqueueResult} (h : EnqueueStep s o q s' r)
    (hP : ResourceBudget.Stable P) (hs : P s.own) : P s'.own := by
  cases h with
  | granted _ hr => exact hP.reserve hs hr
  | refused _ hr => exact hP.reserve hs hr
  | overloaded => exact hP.release _ hs
  | full => exact hP.release _ hs
  | _ => exact hs

/-- **Every step does no more to the own budget**, either. -/
theorem Step.own (h : Step J s e s') (hP : ResourceBudget.Stable P) (hs : P s.own) : P s'.own := by
  cases h with
  | exchange _ h =>
    cases h with
    | granted _ hr => exact hP.reserve hs hr
    | refused _ hr => exact hP.reserve hs hr
    | overloaded => exact hP.release _ hs
    | notOpen => exact hP.release _ hs
    | removed => exact hP.release _ hs
    | enqueues _ he => exact he.own hP hs
    | _ => exact hs
  | beat _ h =>
    cases h with
    | enqueues _ he => exact he.own hP hs
    | _ => exact hs
  | raw _ he => exact he.own hP hs
  | receive _ h =>
    cases h with
    | answer => exact hP.release _ hs
    | _ => exact hs
  | drive h =>
    cases h with
    | aborted => exact hP.releaseAll _ hs
    | finishSettle => exact hP.release _ hs
    | _ => exact hs
  | work _ h =>
    cases h with
    | granted _ hr => exact hP.reserve hs hr
    | refused _ hr => exact hP.reserve hs hr
    | overloaded => exact hP.release _ hs
    | panicked => exact hP.releaseAll _ hs
    | aborted => exact hP.releaseAll _ hs
    | writes _ he => exact he.own hP hs
    | unwritten _ he => exact he.own hP hs
    | written _ he => exact hP.releaseAll _ (he.own hP hs)
    | closes => exact hP.releaseAll _ hs
    | _ => exact hs
  | writer h =>
    cases h with
    | discards => exact hP.release _ hs
    | flushes => exact hP.release _ hs
    | ends => exact hP.releaseAll _ hs
    | _ => exact hs
  | _ => exact hs

/-- **The own budget has the session's limits and is within them**, in every run. -/
theorem bounded_of_reachable (h : (machine J).Reachable s) :
    s.own.limits = s.limits.resources ∧ s.own.Bounded := by
  refine h.invariant (P := fun s => s.own.limits = s.limits.resources ∧ s.own.Bounded) ?_ ?_
  · rintro s ⟨id, limits, handlers, budget, elsewhere, rfl⟩
    exact ⟨rfl, ResourceBudget.bounded_new _⟩
  · intro s e s' _ hn hs
    have h := step_of_next hn
    rw [h.constant.2]
    exact h.own (ResourceBudget.Stable.bounded s.limits.resources) hs

end Own

/-! ## Permits and frames -/

/-- A frame counts one in its queue. -/
theorem weight_need (control : Bool) (text : String) :
    (Counter.framesOf control).weight (need control text) = 1 := by
  cases control <;> rfl

/-- **The limit of a kind is within the capacity of its queue**, which has
a slot even where nothing is admitted. -/
theorem limit_le_capacity (h : s.own.limits = s.limits.resources) (control : Bool) :
    (Counter.framesOf control).limit s.own.limits ≤ s.capacity control := by
  rw [h]
  cases control <;> exact le_max_right ..

/-- **The frames in a queue have permits.** -/
theorem length_queue_le (h : (machine J).Reachable s) (control : Bool) :
    (s.queue control).length ≤ s.queued (Counter.framesOf control) := by
  have hflow := flow_of_reachable h
  -- a queued frame is one that queue accepted, so its permit is of that kind
  have hone : ∀ o ∈ s.queue control, 1 ≤ (Counter.framesOf control).weight o.permit := by
    intro o ho
    have hway : o ∈ onTheirWay s.pipe := by
      rw [mem_onTheirWay]
      cases control with
      | true => exact .inl (.inl ho)
      | false => exact .inl (.inr ho)
    obtain ⟨a, ha, -, hpermit⟩ := frames_covered h hway
    have hcontrol : a.control = control := by
      cases control with
      | true =>
        obtain ⟨origin, hacc⟩ := hflow.control o ho
        obtain rfl := Option.some.inj (ha.symm.trans hacc)
        rfl
      | false =>
        obtain ⟨origin, hacc⟩ := hflow.data o ho
        obtain rfl := Option.some.inj (ha.symm.trans hacc)
        rfl
    rw [hpermit, hcontrol, weight_need]
  have hle := length_le_total hone
  unfold queued
  cases control with
  | true => exact hle.trans (Nat.le_add_right _ _)
  | false => exact hle.trans (Nat.le_add_left _ _)

/-- **The permit of a call that was granted one is held beside the queues.** -/
theorem weight_le_held (hq : s.enqueueOf o = some q) (c : Counter) :
    s.queued c + total c.weight q.held ≤ s.held c := by
  cases o with
  | exchange i =>
    obtain ⟨x, hx, hfx⟩ := Option.bind_eq_some_iff.mp hq
    have hle := le_total (f := fun x : Exchange => total c.weight x.held) (List.mem_of_getElem? hx)
    have hheld : x.held = q.held := by
      cases hpc : x.pc <;> simp_all [Exchange.enqueue, Exchange.held]
    rw [hheld] at hle
    unfold held executing
    omega
  | work i =>
    obtain ⟨w, hw, hfw⟩ := Option.bind_eq_some_iff.mp hq
    have hle := le_total (f := fun w : Work => total c.weight w.held) (List.mem_of_getElem? hw)
    have hheld : total c.weight q.held ≤ total c.weight w.held := by
      cases hpc : w.pc <;> simp_all [Work.enqueue, Work.held]
    unfold held
    omega
  | beat i =>
    obtain ⟨b, hb, hfb⟩ := Option.bind_eq_some_iff.mp hq
    have hle := le_total (f := fun b : Beat => total c.weight b.held) (List.mem_of_getElem? hb)
    have hheld : b.held = q.held := by
      cases hpc : b.pc <;> simp_all [Beat.enqueue, Beat.held]
    rw [hheld] at hle
    unfold held executing
    omega
  | raw i =>
    obtain ⟨r, hr, hfr⟩ := Option.bind_eq_some_iff.mp hq
    have hle := le_total (f := fun r : RawPc => total c.weight r.held) (List.mem_of_getElem? hr)
    have hheld : r.held = q.held := by
      cases r <;> simp_all [RawPc.enqueue, RawPc.held]
    rw [hheld] at hle
    unfold held executing
    omega

/-- **The live permits of a kind are within the capacity of its queue.** -/
theorem held_le_capacity (h : (machine J).Reachable s) (control : Bool) :
    s.held (Counter.framesOf control) ≤ s.capacity control := by
  obtain ⟨hlimits, hbounded⟩ := bounded_of_reachable h
  rw [← accounts_of_reachable h]
  exact (hbounded _).trans (limit_le_capacity hlimits control)

/-- **There is room for every call that was granted a permit.** -/
theorem room_of_pushing (h : (machine J).Reachable s) (hq : s.enqueueOf o = some q) {p : Permit}
    (hpc : q.pc = .pushing p) : (s.queue q.control).length < s.capacity q.control := by
  have hp := covered_of_reachable h hq (.inr hpc)
  have hone : total (Counter.framesOf q.control).weight q.held = 1 := by
    simp only [Enqueue.held, hpc, total_cons, total_nil, hp, weight_need]
  have hframes := length_queue_le h q.control
  have hheld := weight_le_held hq (Counter.framesOf q.control)
  have hcapacity := held_le_capacity h q.control
  omega

/-! ## A section of a call -/

/-- **What a section of `enqueue` looks for**, in the state it finds. -/
def Room (s : Session) (q : Enqueue) : Prop :=
  match q.pc with
  | .check => s.isOpen = true ∧ q.text.utf8ByteSize ≤ s.limits.maxMessageBytes
  | .asking => s.own.usage.admits s.own.limits (queueResource q.control) q.text.utf8ByteSize = true
  | .granted _ =>
    s.budget.usage.admits s.budget.limits (queueResource q.control) q.text.utf8ByteSize = true
  -- the writer still holds the receivers
  | .pushing _ => s.receivers = true

/-- **A section fails exactly where it does not find what it looks for**:
that the queue is full is never the reason. -/
theorem EnqueueStep.fails_iff_room {r : EnqueueResult} (hstep : EnqueueStep s o q s' r)
    (h : (machine J).Reachable s) (hq : s.enqueueOf o = some q) :
    (∃ error, r = .fails error) ↔ ¬ s.Room q := by
  unfold Room
  cases hstep with
  | notOpen hpc hclosed =>
    rw [hpc]
    exact iff_of_true ⟨_, rfl⟩ (by simp [hclosed])
  | tooLarge hpc hopen hsize =>
    rw [hpc]
    exact iff_of_true ⟨_, rfl⟩ (by rintro ⟨-, hle⟩; omega)
  | checked hpc hopen hsize =>
    rw [hpc]
    exact iff_of_false (by simp) (not_not.mpr ⟨hopen, hsize⟩)
  | granted hpc hr =>
    rw [hpc]
    exact iff_of_false (by simp) (not_not.mpr (ResourceBudget.reserve_some hr).1)
  | refused hpc hr =>
    rw [hpc]
    exact iff_of_true ⟨_, rfl⟩ (by simp [(ResourceBudget.reserve_none hr).1])
  | admitted hpc hr =>
    obtain rfl := covered_of_reachable h hq (.inl hpc)
    rw [hpc]
    exact iff_of_false (by simp) (not_not.mpr (ResourceBudget.reserve_some hr).1)
  | overloaded hpc hr =>
    obtain rfl := covered_of_reachable h hq (.inl hpc)
    have hno := (ResourceBudget.reserve_none hr).1
    rw [need] at hno
    rw [hpc]
    exact iff_of_true ⟨_, rfl⟩ (by simp [hno])
  | full hpc hfull =>
    -- the queue has room, so the writer is gone
    have hroom := room_of_pushing h hq hpc
    rw [hpc]
    rcases hfull with hgone | hfull
    · exact iff_of_true ⟨_, rfl⟩ (by simp [hgone])
    · omega
  | accepted hpc hreceivers =>
    rw [hpc]
    exact iff_of_false (by simp) (not_not.mpr hreceivers)

/-! ## What the others do to a call -/

/-- **The calls of `enqueue` of a kind of party stay where they are**, but
for the one whose step it is. -/
def Spares {α : Type*} (e : Event J) (origin : ℕ → Origin) (f : α → Option Enqueue)
    (l l' : List α) : Prop :=
  ∀ i q, e.origin ≠ some (origin i) → l[i]?.bind f = some q → l'[i]?.bind f = some q

section Spares

variable {α : Type*} {origin : ℕ → Origin} {f : α → Option Enqueue} {l l' : List α} {a b : α}
  {i : ℕ}

theorem Spares.same (h : l' = l) : Spares e origin f l l' := fun i q _ hq => by rwa [h]

/-- A party of whose call the step is, or that is in none, is replaced. -/
theorem Spares.set (ha : l[i]? = some a) (h : l' = l.set i b)
    (hown : e.origin = some (origin i) ∨ f a = none) : Spares e origin f l l' := by
  intro j q hne hq
  by_cases hij : i = j
  · subst hij
    rcases hown with hown | hnone
    · exact absurd hown hne
    · rw [ha, Option.bind_some, hnone] at hq
      cases hq
  · rwa [h, List.getElem?_set_ne hij]

theorem Spares.concat (h : l' = l ++ [b]) : Spares e origin f l l' := by
  intro j q _ hq
  obtain ⟨c, hc, -⟩ := Option.bind_eq_some_iff.mp hq
  rwa [h, getElem?_append_some hc, ← hc]

/-- A change of the parties that is outside of `enqueue`. -/
theorem Spares.map (h : ∀ i : ℕ, ∃ g : α → α, l'[i]? = l[i]?.map g ∧ ∀ a, f (g a) = f a) :
    Spares e origin f l l' := by
  intro j q _ hq
  obtain ⟨c, hc, hfc⟩ := Option.bind_eq_some_iff.mp hq
  obtain ⟨g, hl, hg⟩ := h j
  rw [hl, hc, Option.map_some, Option.bind_some, hg, hfc]

end Spares

/-- **What a step does to the calls of the others**: nothing. -/
theorem Step.spares (h : Step J s e s') :
    Spares e .exchange Exchange.enqueue s.exchanges s'.exchanges ∧
      Spares e .work Work.enqueue s.works s'.works ∧
      Spares e .beat Beat.enqueue s.beats s'.beats ∧
      Spares e .raw RawPc.enqueue s.raws s'.raws := by
  -- the sender of a call is used or held
  have modified : ∀ {k : ℕ} {g : Exchange → Exchange}, s'.exchanges = s.exchanges.modify k g →
      (∀ x, (g x).enqueue = x.enqueue) →
      Spares e .exchange Exchange.enqueue s.exchanges s'.exchanges := by
    intro k g hs hg
    refine .map fun i => ⟨fun x => if k = i then g x else x, ?_, fun x => ?_⟩
    · rw [hs, List.getElem?_modify]
      rfl
    · split_ifs
      · exact hg x
      · rfl
  cases h with
  | sent => exact ⟨.concat rfl, .same rfl, .same rfl, .same rfl⟩
  | sentPayload => exact ⟨.concat rfl, .same rfl, .same rfl, .same rfl⟩
  | exchange hx h =>
    cases h with
    | enqueues _ he =>
      obtain ⟨_, _, _, _, _, rfl⟩ := he.frame
      exact ⟨.set hx rfl (.inl rfl), .same rfl, .same rfl, .same rfl⟩
    | _ => exact ⟨.set hx rfl (.inl rfl), .same rfl, .same rfl, .same rfl⟩
  | leaves hx hpc =>
    exact ⟨.set hx rfl (.inr (by simp [Exchange.enqueue, hpc])), .same rfl, .same rfl, .same rfl⟩
  | initiates => exact ⟨.same rfl, .same rfl, .concat rfl, .same rfl⟩
  | echo => exact ⟨.same rfl, .same rfl, .concat rfl, .same rfl⟩
  | beat hb h =>
    cases h with
    | enqueues _ he =>
      obtain ⟨_, _, _, _, _, rfl⟩ := he.frame
      exact ⟨.same rfl, .same rfl, .set hb rfl (.inl rfl), .same rfl⟩
    | _ => exact ⟨.same rfl, .same rfl, .set hb rfl (.inl rfl), .same rfl⟩
  | sendRaw => exact ⟨.same rfl, .same rfl, .same rfl, .concat rfl⟩
  | raw hraw he =>
    obtain ⟨_, _, _, _, _, rfl⟩ := he.frame
    exact ⟨.same rfl, .same rfl, .same rfl, .set hraw rfl (.inl rfl)⟩
  | receive _ h =>
    cases h with
    | answer => exact ⟨modified rfl fun _ => rfl, .same rfl, .same rfl, .same rfl⟩
    | message => exact ⟨.same rfl, .concat rfl, .same rfl, .same rfl⟩
    | _ => exact ⟨.same rfl, .same rfl, .same rfl, .same rfl⟩
  | drive h =>
    cases h with
    | settles => exact ⟨modified rfl fun _ => rfl, .same rfl, .same rfl, .same rfl⟩
    | drains =>
      refine ⟨.map fun i => ⟨_, Table.getElem?_foldl_holdSender _ _ i, fun x => ?_⟩, .same rfl,
        .same rfl, .same rfl⟩
      split_ifs <;> rfl
    | finishSettle => exact ⟨modified rfl fun _ => rfl, .same rfl, .same rfl, .same rfl⟩
    | _ => exact ⟨.same rfl, .same rfl, .same rfl, .same rfl⟩
  | @work _ i w _ hw h =>
    -- before it answers a work is in no call
    have outside : ∀ {pc : WorkPc}, w.pc = pc → (∀ ending q, pc ≠ .answering ending q) →
        w.enqueue = none := by
      intro pc hpc hne
      unfold Work.enqueue
      rw [hpc]
      cases pc <;> simp_all
    cases h with
    | answers ha =>
      have hnone : w.enqueue = none := by
        cases ha with
        | invalidJson hpc => exact outside hpc (by simp)
        | missingType hpc => exact outside hpc (by simp)
        | unknownType hpc => exact outside hpc (by simp)
        | badMessage hpc => exact outside hpc (by simp)
        | failed hpc => exact outside hpc (by simp)
        | timedOut hpc => exact outside hpc (by simp)
      exact ⟨.same rfl, .set hw rfl (.inr hnone), .same rfl, .same rfl⟩
    | starts hpc =>
      exact ⟨.same rfl, .set hw rfl (.inr (outside hpc (by simp))), .same rfl, .same rfl⟩
    | returns hpc =>
      exact ⟨.same rfl, .set hw rfl (.inr (outside hpc (by simp))), .same rfl, .same rfl⟩
    | panicked hpc =>
      have hnone : w.enqueue = none := by
        rcases hpc with hpc | hpc
        · exact outside hpc (by simp)
        · exact outside hpc (by simp)
      exact ⟨.same rfl, .set hw rfl (.inr hnone), .same rfl, .same rfl⟩
    | aborted hpc =>
      have hnone : w.enqueue = none := by
        rcases hpc with hpc | hpc
        · exact outside hpc (by simp)
        · exact outside hpc (by simp)
      exact ⟨.same rfl, .set hw rfl (.inr hnone), .same rfl, .same rfl⟩
    | writes _ he =>
      obtain ⟨_, _, _, _, _, rfl⟩ := he.frame
      exact ⟨.same rfl, .set hw rfl (.inl rfl), .same rfl, .same rfl⟩
    | unwritten _ he =>
      obtain ⟨_, _, _, _, _, rfl⟩ := he.frame
      exact ⟨.same rfl, .set hw rfl (.inl rfl), .same rfl, .same rfl⟩
    | written _ he =>
      obtain ⟨_, _, _, _, _, rfl⟩ := he.frame
      exact ⟨.same rfl, .set hw rfl (.inl rfl), .same rfl, .same rfl⟩
    | _ => exact ⟨.same rfl, .set hw rfl (.inl rfl), .same rfl, .same rfl⟩
  | writer h => cases h <;> exact ⟨.same rfl, .same rfl, .same rfl, .same rfl⟩
  | _ => exact ⟨.same rfl, .same rfl, .same rfl, .same rfl⟩

/-- A step that is not of the party of a call. -/
def Others (o : Origin) (_ : Session) (e : Event J) : Prop := e.origin ≠ some o

/-- **A call waits for its party.** -/
theorem enqueueOf_of_others (h : (machine J).Path (Others o) s s') (hq : s.enqueueOf o = some q) :
    s'.enqueueOf o = some q := by
  refine h.preserves (P := fun s => s.enqueueOf o = some q) ?_ hq
  intro s e s' hne hn hq
  obtain ⟨hexchanges, hworks, hbeats, hraws⟩ := (step_of_next hn).spares
  cases o with
  | exchange i => exact hexchanges i q hne hq
  | work i => exact hworks i q hne hq
  | beat i => exact hbeats i q hne hq
  | raw i => exact hraws i q hne hq

/-- **The party of a call can always take its next section**, and goes on
with what is left of the call. -/
theorem next_enqueue (he : e.origin = some o) (hq : s.enqueueOf o = some q) :
    ∃ s', (machine J).next s e = some s' ∧ s'.accepted = (s.enqueueNext o q).1.accepted ∧
      ∀ q', (s.enqueueNext o q).2 = .goes q' → s'.enqueueOf o = some q' := by
  have hparties := (enqueueStep s o q).parties
  cases e <;> simp only [Event.origin, Option.some.injEq, reduceCtorEq] at he <;> subst he
  case exchange i =>
    obtain ⟨x, hx, hfx⟩ := Option.bind_eq_some_iff.mp hq
    have hpc : x.pc = .enqueuing q := by
      cases hpc : x.pc <;> simp_all [Exchange.enqueue]
    refine ⟨(s.enqueueNext (.exchange i) q).1.setExchange i
      (x.enqueued (s.enqueueNext (.exchange i) q).2), ?_, rfl, fun q' hgoes => ?_⟩
    · show s.next J (.exchange i) = _
      simp only [next, hx, Option.bind_some, exchangeNext, hpc]
    · simp only [enqueueOf, setExchange, hparties.exchanges, getElem?_set_self' hx, hgoes]
      rfl
  case beat i =>
    obtain ⟨b, hb, hfb⟩ := Option.bind_eq_some_iff.mp hq
    have hpc : b.pc = .sending q := by
      cases hpc : b.pc <;> simp_all [Beat.enqueue]
    refine ⟨(s.enqueueNext (.beat i) q).1.setBeat i (b.enqueued (s.enqueueNext (.beat i) q).2),
      ?_, rfl, fun q' hgoes => ?_⟩
    · show s.next J (.beat i) = _
      simp only [next, hb, Option.bind_some, beatNext, hpc]
    · simp only [enqueueOf, setBeat, hparties.beats, getElem?_set_self' hb, hgoes]
      rfl
  case raw i =>
    obtain ⟨r, hr, hfr⟩ := Option.bind_eq_some_iff.mp hq
    have hpc : r = .sending q := by
      cases r <;> simp_all [RawPc.enqueue]
    subst hpc
    refine ⟨{ (s.enqueueNext (.raw i) q).1 with
      raws := (s.enqueueNext (.raw i) q).1.raws.set i (.enqueued (s.enqueueNext (.raw i) q).2) },
      ?_, rfl, fun q' hgoes => ?_⟩
    · show s.next J (.raw i) = _
      simp only [next, hr]
    · simp only [enqueueOf, hparties.raws, getElem?_set_self' hr, hgoes]
      rfl
  case work i =>
    obtain ⟨w, hw, hfw⟩ := Option.bind_eq_some_iff.mp hq
    obtain ⟨ending, hpc⟩ : ∃ ending, w.pc = .answering ending q := by
      cases hpc : w.pc <;> simp_all [Work.enqueue]
    have hnext : (machine J).next s (.work i) = s.workNext J i w := by
      show s.next J (.work i) = _
      simp only [next, hw, Option.bind_some]
    rw [hnext]
    simp only [workNext, hpc]
    rcases hresult : s.enqueueNext (.work i) q with ⟨s₁, r⟩
    rw [hresult] at hparties
    cases r with
    | goes q₁ =>
      have hworks : s₁.works = s.works := hparties.works
      refine ⟨_, rfl, rfl, fun q' hgoes => ?_⟩
      cases hgoes
      simp only [enqueueOf, setWork, hworks, getElem?_set_self' hw]
      rfl
    | fails error => exact ⟨_, rfl, rfl, fun q' hgoes => by cases hgoes⟩
    | accepted => exact ⟨_, rfl, rfl, fun q' hgoes => by cases hgoes⟩

/-! ## The course of a call -/

theorem EnqueueStep.sections_of_goes (h : EnqueueStep s o q s' (.goes q')) :
    q'.text = q.text ∧ q'.control = q.control ∧ q.sections = q.pc :: q'.sections := by
  unfold Enqueue.sections
  cases h with
  | checked hpc => exact ⟨rfl, rfl, by rw [hpc]⟩
  | granted hpc hr =>
    obtain ⟨-, rfl, -⟩ := ResourceBudget.reserve_some hr
    exact ⟨rfl, rfl, by rw [hpc]; rfl⟩
  | admitted hpc => exact ⟨rfl, rfl, by rw [hpc]⟩

theorem EnqueueStep.sections_of_accepted (h : EnqueueStep s o q s' .accepted) :
    q.sections = [q.pc] := by
  unfold Enqueue.sections
  cases h with
  | accepted hpc => rw [hpc]

/-- **The course of a call of `enqueue`**, with any steps of others between
its sections: what each section found, and what the call came to. -/
inductive Course (J : JsonText) (o : Origin) :
    Session → Enqueue → List (Session × Enqueue) → EnqueueResult → Prop
  | ends {s : Session} {q : Enqueue} {r : EnqueueResult} (hr : (s.enqueueNext o q).2 = r)
      (hends : ∀ q', r ≠ .goes q') : Course J o s q [(s, q)] r
  | goes {s s₁ t : Session} {e : Event J} {q q' : Enqueue} {l : List (Session × Enqueue)}
      {r : EnqueueResult} (he : e.origin = some o) (hn : (machine J).next s e = some s₁)
      (hgoes : (s.enqueueNext o q).2 = .goes q') (hpath : (machine J).Path (Others o) s₁ t)
      (h : Course J o t q' l r) : Course J o s q ((s, q) :: l) r

/-- What is known of a call after its course. -/
structure Decided (q : Enqueue) (l : List (Session × Enqueue)) (r : EnqueueResult) : Prop where
  /-- The sections come in their order, and all of them where the frame is accepted. -/
  sections : l.map (·.2.pc) <+: q.sections
  all : r = .accepted → l.map (·.2.pc) = q.sections
  same : ∀ v ∈ l, v.2.text = q.text ∧ v.2.control = q.control
  /-- The frame is accepted exactly if every section found what it looks for. -/
  accepted : r = .accepted ↔ ∀ v ∈ l, v.1.Room v.2

/-- **The course of a call decides it.** -/
theorem Course.decided {l : List (Session × Enqueue)} {r : EnqueueResult}
    (hc : Course J o s q l r) (h : (machine J).Reachable s) (hq : s.enqueueOf o = some q) :
    Decided q l r := by
  induction hc with
  | @ends s q r hr hends =>
    have hstep := enqueueStep s o q
    rw [hr] at hstep
    have hroom := hstep.fails_iff_room h hq
    have hlast : r = .accepted → [q.pc] = q.sections := by
      rintro rfl
      exact hstep.sections_of_accepted.symm
    refine ⟨q.head_sections, hlast, by simp, ?_⟩
    rcases hstep.cases with ⟨rfl, -⟩ | ⟨pc, rfl, -⟩ | ⟨error, rfl, -⟩
    · simpa using hroom
    · exact absurd rfl (hends _)
    · have hnot := hroom.mp ⟨error, rfl⟩
      exact iff_of_false (by simp) (by simpa using hnot)
  | @goes s s₁ t e q q' l r he hn hgoes hpath hcourse ih =>
    have hstep := enqueueStep s o q
    rw [hgoes] at hstep
    have hroom : s.Room q := by
      by_contra hno
      obtain ⟨error, herror⟩ := (hstep.fails_iff_room h hq).mpr hno
      cases herror
    obtain ⟨s₂, hn₂, -, hgoes₂⟩ := next_enqueue (J := J) he hq
    obtain rfl : s₂ = s₁ := Option.some.inj (hn₂.symm.trans hn)
    have hreach : (machine J).Reachable t :=
      (h.step trivial hn).trans (hpath.mono fun _ _ _ => trivial)
    obtain ⟨hpre, hall, hsame, haccepted⟩ :=
      ih hreach (enqueueOf_of_others hpath (hgoes₂ q' hgoes))
    obtain ⟨htext, hcontrol, hsections⟩ := hstep.sections_of_goes
    refine ⟨?_, fun hr => ?_, fun v hv => ?_, ?_⟩
    · rw [hsections]
      exact List.cons_prefix_cons.mpr ⟨rfl, hpre⟩
    · rw [hsections, List.map_cons, hall hr]
    · rcases List.mem_cons.mp hv with rfl | hv
      · exact ⟨rfl, rfl⟩
      · rw [← htext, ← hcontrol]
        exact hsame v hv
    · rw [haccepted, List.forall_mem_cons]
      exact (and_iff_right hroom).symm

/-- **Every call comes to an end**, by the steps of its party alone. -/
theorem exists_course (hq : s.enqueueOf o = some q) {e : Event J} (he : e.origin = some o) :
    ∃ l r, Course J o s q l r := by
  induction hn : q.sections.length generalizing s q with
  | zero =>
    have hle := q.head_sections.length_le
    simp [hn] at hle
  | succ n ih =>
    obtain ⟨s₁, hnext, -, hgoes⟩ := next_enqueue (J := J) he hq
    have hstep := enqueueStep s o q
    cases hr : (s.enqueueNext o q).2 with
    | goes q' =>
      rw [hr] at hstep
      obtain ⟨-, -, hsections⟩ := hstep.sections_of_goes
      rw [hsections, List.length_cons] at hn
      obtain ⟨l, r, hcourse⟩ := ih (hgoes q' hr) (by omega)
      exact ⟨_, _, .goes he hnext hr (.refl s₁) hcourse⟩
    | fails error => exact ⟨_, _, .ends hr (by simp)⟩
    | accepted => exact ⟨_, _, .ends hr (by simp)⟩

/-- Whoever enqueues has a step of its own. -/
theorem exists_origin (J : JsonText) (o : Origin) : ∃ e : Event J, e.origin = some o := by
  cases o with
  | exchange i => exact ⟨.exchange i, rfl⟩
  | work i => exact ⟨.work i, rfl⟩
  | beat i => exact ⟨.beat i, rfl⟩
  | raw i => exact ⟨.raw i, rfl⟩

/-- An open session's writer runs. -/
theorem receivers_of_isOpen (h : (machine J).Reachable s) (hopen : s.isOpen = true) :
    s.receivers = true := by
  have hrunning := running_of_isOpen h hopen
  refine (flow_of_reachable h).alive fun hended => ?_
  rw [show s.writer = .ended from hended] at hrunning
  cases hrunning

/-! ## Admission decides -/

/-- **Admission decides, the channel never does.** -/
structure AdmissionDecides (J : JsonText) (s : Session) : Prop where
  /-- The frames in a queue are no more than the live permits of its kind, -/
  permits : ∀ control, (s.queue control).length ≤ s.held (Counter.framesOf control)
  /-- which are what the own budget counts, -/
  counted : ∀ control, (Counter.framesOf control).value s.own.usage =
    s.held (Counter.framesOf control)
  /-- and no more than the capacity of the queue. -/
  capacity : ∀ control, s.held (Counter.framesOf control) ≤ s.capacity control
  /-- No `try_send` finds the queue full. -/
  room : ∀ (o : Origin) (q : Enqueue) (p : Permit), s.enqueueOf o = some q → q.pc = .pushing p →
    (s.queue q.control).length < s.capacity q.control
  /-- While a session is open its writer runs. -/
  runs : s.isOpen = true → s.receivers = true
  /-- The step of a party accepts its frame where `enqueue` does. -/
  accepts : ∀ (e : Event J) (o : Origin) (q : Enqueue), e.origin = some o →
    s.enqueueOf o = some q → ∃ s', (machine J).next s e = some s' ∧
      s'.accepted = (s.enqueueNext o q).1.accepted ∧
      ((s.enqueueNext o q).2 = .accepted ↔
        s'.accepted = s.accepted ++ [⟨q.control, q.text, o⟩])
  /-- A call comes to an end whatever others do meanwhile, and the course of it decides it. -/
  ends : ∀ (o : Origin) (q : Enqueue), s.enqueueOf o = some q → ∃ l r, Course J o s q l r
  decides : ∀ (o : Origin) (q : Enqueue) (l : List (Session × Enqueue)) (r : EnqueueResult),
    s.enqueueOf o = some q → Course J o s q l r → Decided q l r

/-- **Admission decides, the channel never does**, in every run and under any limits. -/
theorem admission_decides (h : (machine J).Reachable s) : AdmissionDecides J s where
  permits control := by
    have hqueue := length_queue_le h control
    unfold held
    omega
  counted control := accounts_of_reachable h _
  capacity control := held_le_capacity h control
  room _ _ _ hq hpc := room_of_pushing h hq hpc
  runs := receivers_of_isOpen h
  accepts e o q he hq := by
    obtain ⟨s', hn, haccepted, -⟩ := next_enqueue (J := J) he hq
    refine ⟨s', hn, haccepted, ?_⟩
    rw [haccepted]
    rcases (enqueueStep s o q).cases with ⟨hr, hacc⟩ | ⟨pc, hr, hacc⟩ | ⟨error, hr, hacc⟩
    · exact iff_of_true hr hacc
    · exact iff_of_false (by simp [hr]) (by simp [hacc])
    · exact iff_of_false (by simp [hr]) (by simp [hacc])
  ends o _ hq := by
    obtain ⟨e, he⟩ := exists_origin J o
    exact exists_course hq he
  decides _ _ _ _ hq hc := hc.decided h hq

/-- Two frames take the last permits, one of them still on its way to the queue. -/
def lastPermits : List (Event compactJson) :=
  [.sendRaw "MSGa", .raw 0, .raw 0, .raw 0, .raw 0, .sendRaw "MSGb", .raw 1, .raw 1, .raw 1]

theorem admission_decides_lastPermits : ∃ s,
    (machine compactJson).run (small []) lastPermits = some s ∧ s.data.length = 1 ∧
    s.held .queuedMessages = 2 ∧ s.capacity false = 2 ∧ AdmissionDecides compactJson s := by
  have hrun : ((machine compactJson).run (small []) lastPermits).any
      (fun s => decide (s.data.length = 1 ∧ s.held .queuedMessages = 2 ∧ s.capacity false = 2)) =
        true := by decide +kernel
  obtain ⟨s, hs, hend⟩ := Machine.exists_of_run hrun
  obtain ⟨hdata, hheld, hcapacity⟩ := of_decide_eq_true hend
  exact ⟨s, hs, hdata, hheld, hcapacity,
    admission_decides (Machine.reachable_of_run (init_small _ []) hs)⟩

end Session

end Vcmp
