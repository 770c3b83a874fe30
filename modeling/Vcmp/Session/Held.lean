import Vcmp.Session.Pending
import Vcmp.Session.Works
/-!
# Who holds which permit

Every permit of a session's own budget is held by somebody: a queued
frame, the sink, an entry of the pending map, the drain, or a call that
is executing. `held` adds them up counter by counter, and every step
moves the counters of the budget and the holdings alike.
-/

namespace Vcmp

/-- The permit a call of `enqueue` holds. -/
def Enqueue.held (q : Enqueue) : List Permit :=
  match q.pc with
  | .granted p | .pushing p => [p]
  | _ => []

/-- The permit left with a call of `enqueue` after a step. -/
def EnqueueResult.held : EnqueueResult → List Permit
  | .goes q => q.held
  | _ => []

/-- The permits a call of `exchange` holds itself. -/
def Exchange.held (x : Exchange) : List Permit :=
  match x.pc with
  | .granted p | .registering p => [p]
  | .enqueuing q => q.held
  | _ => []

/-- The permits the work on a message holds. -/
def Work.held (w : Work) : List Permit :=
  w.permit.toList ++ match w.pc with
    | .granted p => [p]
    | .answering _ q => q.held
    | _ => []

/-- Before the work is admitted, and when it is over. -/
def WorkPc.permitless : WorkPc → Bool
  | .asking | .granted _ | .done _ => true
  | _ => false

/-- The permit a call of `send_heartbeat` holds. -/
def Beat.held (b : Beat) : List Permit :=
  match b.pc with
  | .sending q => q.held
  | _ => []

/-- The permit a call of `send_raw` holds. -/
def RawPc.held : RawPc → List Permit
  | .sending q => q.held
  | .done _ => []

/-- The permits of the entries the drain took out. -/
def DrivePc.held : DrivePc → List Permit
  | .finishSettle left => left.map PendingEntry.permit
  | _ => []

@[simp] theorem DrivePc.held_leaveWork (d : DrivePc) (i : ℕ) : (d.leaveWork i).held = d.held := by
  rcases d.leaveWork_eq i with h | ⟨rfl, h⟩
  · rw [h]
  · rw [h]; rfl

/-- Dropping permits takes their weights away. -/
theorem ResourceBudget.value_foldl_release (c : Counter) (ps : List Permit) (b : ResourceBudget) :
    c.value (ps.foldl ResourceBudget.release b).usage = c.value b.usage - total c.weight ps := by
  induction ps generalizing b with
  | nil => simp
  | cons p ps ih =>
    rw [List.foldl_cons, ih, total_cons]
    simp only [ResourceBudget.release, ResourceSnapshot.value_sub]
    omega

namespace Session

variable {J : JsonText} {s s' : Session} {e : Event J} {i : ℕ}

/-- The weight of the queued frames. -/
def queued (c : Counter) (s : Session) : ℕ :=
  total (fun o : Outgoing => c.weight o.permit) s.control +
    total (fun o : Outgoing => c.weight o.permit) s.data

/-- The weight of what calls that are executing hold. -/
def executing (c : Counter) (s : Session) : ℕ :=
  total (fun x : Exchange => total c.weight x.held) s.exchanges +
    total (fun b : Beat => total c.weight b.held) s.beats +
    total (fun r : RawPc => total c.weight r.held) s.raws

/-- **The weight of everything held.** -/
def held (c : Counter) (s : Session) : ℕ :=
  s.queued c + total c.weight s.writer.held +
    total (fun e : PendingEntry => c.weight e.permit) s.pending + total c.weight s.drive.held +
    total (fun w : Work => total c.weight w.held) s.works + s.executing c

/-- **The accounts of a session**: each counter is the weight of what is held. -/
def Accounts (s : Session) : Prop := ∀ c : Counter, c.value s.own.usage = s.held c

/-- What a step of `enqueue` moves: the call's permit between the budget, the call and a queue. -/
theorem EnqueueStep.moves {origin : Origin} {q : Enqueue} {r : EnqueueResult}
    (h : EnqueueStep s origin q s' r) (c : Counter)
    (hle : total c.weight q.held ≤ c.value s.own.usage) :
    c.value s'.own.usage + total c.weight q.held + s.queued c =
      c.value s.own.usage + total c.weight r.held + s'.queued c := by
  cases h with
  | notOpen hpc => simp [EnqueueResult.held, Enqueue.held, hpc]
  | tooLarge hpc => simp [EnqueueResult.held, Enqueue.held, hpc]
  | checked hpc => simp [EnqueueResult.held, Enqueue.held, hpc]
  | @granted p b hpc hr =>
    obtain ⟨-, -, rfl⟩ := ResourceBudget.reserve_some hr
    simp only [EnqueueResult.held, Enqueue.held, hpc, ResourceSnapshot.value_add, total_cons,
      total_nil, queued]
    omega
  | refused hpc hr =>
    obtain ⟨-, rfl⟩ := ResourceBudget.reserve_none hr
    simp [EnqueueResult.held, Enqueue.held, hpc, queued]
  | admitted hpc => simp [EnqueueResult.held, Enqueue.held, hpc, queued]
  | overloaded hpc =>
    simp only [Enqueue.held, hpc, total_cons, total_nil] at hle
    simp only [EnqueueResult.held, Enqueue.held, hpc, ResourceBudget.release,
      ResourceSnapshot.value_sub, total_cons, total_nil, queued]
    omega
  | full hpc =>
    simp only [Enqueue.held, hpc, total_cons, total_nil] at hle
    simp only [EnqueueResult.held, Enqueue.held, hpc, Session.release, ResourceBudget.release,
      ResourceSnapshot.value_sub, total_cons, total_nil, queued]
    omega
  | accepted hpc =>
    simp only [EnqueueResult.held, Enqueue.held, hpc, Session.push, total_cons, total_nil, queued]
    split <;> simp only [total_append, total_cons, total_nil] <;> omega

/-- The parties of a session are where they were. -/
structure SameParties (s s' : Session) : Prop where
  writer : s'.writer = s.writer
  pending : s'.pending = s.pending
  drive : s'.drive = s.drive
  works : s'.works = s.works
  exchanges : s'.exchanges = s.exchanges
  beats : s'.beats = s.beats
  raws : s'.raws = s.raws

/-- A step of `enqueue` leaves what the others hold. -/
theorem EnqueueStep.parties {origin : Origin} {q : Enqueue} {r : EnqueueResult}
    (h : EnqueueStep s origin q s' r) : SameParties s s' := by
  obtain ⟨_, _, _, _, _, rfl⟩ := h.frame
  exact ⟨rfl, rfl, rfl, rfl, rfl, rfl, rfl⟩

/-- The call that was replaced is there, -/
theorem getElem?_setExchange {x : Exchange} (hx : s.exchanges[i]? = some x) (u : Session)
    (y : Exchange) (hu : u.exchanges = s.exchanges) :
    (u.setExchange i y).exchanges[i]? = some y := by
  rw [setExchange, hu]
  exact getElem?_set_self' hx

/-- and nothing else is in its place. -/
theorem eq_of_setExchange {x y : Exchange} (hx : s.exchanges[i]? = some x) (u : Session)
    (z : Exchange) (hu : u.exchanges = s.exchanges)
    (hy : (u.setExchange i z).exchanges[i]? = some y) : z = y :=
  Option.some.inj ((getElem?_setExchange hx u z hu).symm.trans hy)

/-- Nobody holds more than is counted. -/
theorem Accounts.exchange_le (h : Accounts s) {x : Exchange} (hx : s.exchanges[i]? = some x)
    (c : Counter) : total c.weight x.held ≤ c.value s.own.usage := by
  have hmem := le_total (f := fun x : Exchange => total c.weight x.held) (List.mem_of_getElem? hx)
  have hacc := h c
  unfold held executing at hacc
  omega

/-- A call of `exchange` moves: what it held and what it holds now, against
what the budget and the other holders gained. -/
theorem Accounts.setExchange (hacc : Accounts s) {x y : Exchange} (hx : s.exchanges[i]? = some x)
    (hset : s'.exchanges = s.exchanges.set i y)
    (hmove : ∀ c : Counter, total c.weight x.held ≤ c.value s.own.usage →
      c.value s'.own.usage + total c.weight x.held + s.queued c +
          total (fun e : PendingEntry => c.weight e.permit) s.pending =
        c.value s.own.usage + total c.weight y.held + s'.queued c +
          total (fun e : PendingEntry => c.weight e.permit) s'.pending)
    (hwriter : s'.writer = s.writer) (hdrive : s'.drive = s.drive) (hworks : s'.works = s.works)
    (hbeats : s'.beats = s.beats) (hraws : s'.raws = s.raws) : Accounts s' := by
  intro c
  have hc := hacc c
  have hm := hmove c (hacc.exchange_le hx c)
  have hy : total (fun x : Exchange => total c.weight x.held) (s.exchanges.set i y) +
      total c.weight x.held =
        total (fun x : Exchange => total c.weight x.held) s.exchanges + total c.weight y.held :=
    total_set hx
  unfold held executing at hc ⊢
  rw [hwriter, hdrive, hworks, hbeats, hraws, hset]
  omega

theorem Accounts.exchange {x : Exchange} (hacc : Accounts s) (hx : s.exchanges[i]? = some x)
    (hids : (s.pending.map PendingEntry.id).Nodup) (h : ExchangeStep s i x s') :
    Accounts s' := by
  cases h with
  | tooLarge hpc =>
    have hold : x.held = [] := by simp [Exchange.held, hpc]
    refine hacc.setExchange hx rfl (fun c _ => ?_) rfl rfl rfl rfl rfl
    rw [hold]
    rfl
  | @granted p b hpc hr =>
    have hold : x.held = [] := by simp [Exchange.held, hpc]
    obtain ⟨-, -, rfl⟩ := ResourceBudget.reserve_some hr
    refine hacc.setExchange hx rfl (fun c _ => ?_) rfl rfl rfl rfl rfl
    rw [hold]
    simp only [Exchange.held, ResourceSnapshot.value_add, total_cons, total_nil]
    simp only [queued, Session.setExchange]
    omega
  | refused hpc hr =>
    have hold : x.held = [] := by simp [Exchange.held, hpc]
    obtain ⟨-, rfl⟩ := ResourceBudget.reserve_none hr
    refine hacc.setExchange hx rfl (fun c _ => ?_) rfl rfl rfl rfl rfl
    rw [hold]
    simp only [Exchange.held, ResourceSnapshot.value_refuse, total_nil]
    rfl
  | admitted hpc =>
    refine hacc.setExchange hx rfl (fun c _ => ?_) rfl rfl rfl rfl rfl
    simp only [Exchange.held, hpc]
    rfl
  | overloaded hpc =>
    refine hacc.setExchange hx rfl (fun c hle => ?_) rfl rfl rfl rfl rfl
    simp only [Exchange.held, hpc, total_cons, total_nil] at hle
    simp only [Exchange.held, hpc, ResourceBudget.release, ResourceSnapshot.value_sub, total_cons,
      total_nil]
    simp only [queued, Session.setExchange]
    omega
  | notOpen hpc =>
    refine hacc.setExchange hx rfl (fun c hle => ?_) rfl rfl rfl rfl rfl
    simp only [Exchange.held, hpc, total_cons, total_nil] at hle
    simp only [Exchange.held, hpc, release, ResourceBudget.release, ResourceSnapshot.value_sub,
      total_cons, total_nil]
    simp only [queued, Session.setExchange]
    omega
  | registered hpc =>
    refine hacc.setExchange hx rfl (fun c _ => ?_) rfl rfl rfl rfl rfl
    simp only [Exchange.held, Enqueue.held, hpc, total_cons, total_nil]
    simp only [queued, Session.setExchange]
    omega
  | @enqueues q s₁ r hpc he =>
    have hmoves := he.moves
    obtain ⟨hwriter, hpending, hdrive, hworks, hexchanges, hbeats, hraws⟩ := he.parties
    have hold : x.held = q.held := by simp [Exchange.held, hpc]
    have hnew : (x.enqueued r).held = r.held := by cases r <;> rfl
    refine hacc.setExchange hx (by rw [← hexchanges]; rfl) (fun c hle => ?_) hwriter hdrive hworks
      hbeats hraws
    rw [hold] at hle
    have hm := hmoves c hle
    rw [hold, hnew]
    simp only [queued, Session.setExchange, hpending] at hm ⊢
    omega
  | settled hpc =>
    refine hacc.setExchange hx rfl (fun c _ => ?_) rfl rfl rfl rfl rfl
    simp only [Exchange.held, hpc]
    rfl
  | orphaned hpc =>
    refine hacc.setExchange hx rfl (fun c _ => ?_) rfl rfl rfl rfl rfl
    simp only [Exchange.held, hpc]
    rfl
  | @removed o entry hpc hfound =>
    have hmem := List.mem_of_find?_eq_some hfound
    refine hacc.setExchange hx rfl (fun c _ => ?_) rfl rfl rfl rfl rfl
    have hout := total_filter_ne (f := fun e : PendingEntry => c.weight e.permit)
      PendingEntry.id hids hmem
    have hcounted : c.weight entry.permit ≤ c.value s.own.usage := by
      have hle := le_total (f := fun e : PendingEntry => c.weight e.permit) hmem
      have hc := hacc c
      unfold held at hc
      omega
    simp only [Exchange.held, hpc, removePending, release, ResourceBudget.release,
      ResourceSnapshot.value_sub, total_nil, queued, Session.setExchange]
    omega
  | cleaned hpc =>
    refine hacc.setExchange hx rfl (fun c _ => ?_) rfl rfl rfl rfl rfl
    simp only [Exchange.held, hpc]
    rfl

/-- The work on a message moves. -/
theorem Accounts.setWork (hacc : Accounts s) {w w' : Work} (hw : s.works[i]? = some w)
    (hset : s'.works = s.works.set i w')
    (hmove : ∀ c : Counter, total c.weight w.held ≤ c.value s.own.usage →
      c.value s'.own.usage + total c.weight w.held + s.queued c =
        c.value s.own.usage + total c.weight w'.held + s'.queued c)
    (hwriter : s'.writer = s.writer) (hpending : s'.pending = s.pending)
    (hdrive : s'.drive.held = s.drive.held) (hexchanges : s'.exchanges = s.exchanges)
    (hbeats : s'.beats = s.beats) (hraws : s'.raws = s.raws) : Accounts s' := by
  intro c
  have hc := hacc c
  have hle : total c.weight w.held ≤ c.value s.own.usage := by
    have hmem := le_total (f := fun w : Work => total c.weight w.held) (List.mem_of_getElem? hw)
    unfold held at hc
    omega
  have hm := hmove c hle
  have hy : total (fun w : Work => total c.weight w.held) (s.works.set i w') +
      total c.weight w.held =
        total (fun w : Work => total c.weight w.held) s.works + total c.weight w'.held :=
    total_set hw
  unfold held executing at hc ⊢
  rw [hwriter, hpending, hdrive, hexchanges, hbeats, hraws, hset]
  omega

/-- A work that is over gives back what it held. -/
theorem Accounts.finishWork (hacc : Accounts s) {w : Work} (hw : s.works[i]? = some w)
    (hheld : w.held = w.permit.toList) (ending : Ending) :
    Accounts (s.finishWork i w ending) := by
  refine hacc.setWork hw rfl (fun c hle => ?_) rfl rfl (DrivePc.held_leaveWork _ _) rfl rfl rfl
  rw [hheld] at hle ⊢
  have hnew : total c.weight ({ w with pc := .done ending, permit := none } : Work).held = 0 := by
    simp [Work.held]
  rw [hnew]
  simp only [Session.finishWork, releaseAll, Session.setWork,
    ResourceBudget.value_foldl_release, queued]
  omega

theorem Accounts.work {w : Work} (hacc : Accounts s) (hw : s.works[i]? = some w)
    (hnone : w.pc.permitless = true → w.permit = none)
    (h : WorkStep J s i w e s') : Accounts s' := by
  -- what a work holds beside its handler permit
  have hheld : ∀ pc, w.pc = pc → (∀ p, pc ≠ .granted p) → (∀ ending q, pc ≠ .answering ending q) →
      w.held = w.permit.toList := by
    intro pc hpc hgranted hanswering
    unfold Work.held
    rw [hpc]
    cases pc <;> simp_all
  cases h with
  | @granted p b hpc hr =>
    have hpermit := hnone (by rw [hpc]; rfl)
    obtain ⟨-, -, rfl⟩ := ResourceBudget.reserve_some hr
    refine hacc.setWork hw rfl (fun c _ => ?_) rfl rfl rfl rfl rfl rfl
    simp only [Work.held, hpc, hpermit, Option.toList_none, List.nil_append, total_nil, total_cons,
      ResourceSnapshot.value_add, queued, Session.setWork]
    omega
  | refused hpc hr =>
    have hpermit := hnone (by rw [hpc]; rfl)
    obtain ⟨-, rfl⟩ := ResourceBudget.reserve_none hr
    refine hacc.setWork hw rfl (fun c _ => ?_) rfl rfl rfl rfl rfl rfl
    simp [Work.held, Work.answer, Enqueue.held, hpc, hpermit, queued, Session.setWork]
  | admitted hpc =>
    have hpermit := hnone (by rw [hpc]; rfl)
    refine hacc.setWork hw rfl (fun c _ => ?_) rfl rfl rfl rfl rfl rfl
    simp [Work.held, hpc, hpermit, queued, Session.setWork]
  | overloaded hpc =>
    have hpermit := hnone (by rw [hpc]; rfl)
    refine hacc.setWork hw rfl (fun c hle => ?_) rfl rfl rfl rfl rfl rfl
    simp only [Work.held, hpc, hpermit, Option.toList_none, List.nil_append, total_nil,
      total_cons] at hle
    simp only [Work.held, Work.answer, Enqueue.held, hpc, hpermit, Option.toList_none,
      List.nil_append, total_nil, total_cons, ResourceBudget.release, ResourceSnapshot.value_sub,
      queued, Session.setWork]
    omega
  | answers ha =>
    have hsame : w.held = w.permit.toList := by
      cases ha <;> exact hheld _ ‹w.pc = _› (by simp) (by simp)
    refine hacc.setWork hw rfl (fun c _ => ?_) rfl rfl rfl rfl rfl rfl
    rw [hsame]
    simp [Work.held, Work.answer, Enqueue.held, queued, Session.setWork]
  | spawned hpc =>
    have hsame := hheld _ hpc (by simp) (by simp)
    refine hacc.setWork hw rfl (fun c _ => ?_) rfl rfl (DrivePc.held_leaveWork _ _) rfl rfl rfl
    rw [hsame]
    simp [Work.held, queued, Session.setWork]
  | starts hpc =>
    have hsame := hheld _ hpc (by simp) (by simp)
    refine hacc.setWork hw rfl (fun c _ => ?_) rfl rfl rfl rfl rfl rfl
    rw [hsame]
    simp [Work.held, queued, Session.setWork]
  | returns hpc =>
    have hsame := hheld _ hpc (by simp) (by simp)
    refine hacc.setWork hw rfl (fun c _ => ?_) rfl rfl rfl rfl rfl rfl
    rw [hsame]
    simp [Work.held, Work.answer, Enqueue.held, queued, Session.setWork]
  | panicked hpc =>
    refine hacc.finishWork hw ?_ _
    rcases hpc with hpc | hpc <;> exact hheld _ hpc (by simp) (by simp)
  | aborted hpc =>
    refine hacc.finishWork hw ?_ _
    rcases hpc with hpc | hpc <;> exact hheld _ hpc (by simp) (by simp)
  | @writes ending q q' s₁ hpc he =>
    have hmoves := he.moves
    obtain ⟨hwriter, hpending, hdrive, hworks, hexchanges, hbeats, hraws⟩ := he.parties
    refine hacc.setWork hw (by rw [← hworks]; rfl) (fun c hle => ?_) hwriter hpending
      (congrArg DrivePc.held hdrive) hexchanges hbeats hraws
    simp only [Work.held, hpc, total_append] at hle
    have hm := hmoves c (by omega)
    simp only [Work.held, hpc, total_append, EnqueueResult.held, queued, Session.setWork] at hm ⊢
    omega
  | @unwritten ending q s₁ error hpc he =>
    have hmoves := he.moves
    obtain ⟨hwriter, hpending, hdrive, hworks, hexchanges, hbeats, hraws⟩ := he.parties
    refine hacc.setWork hw (by rw [← hworks]; rfl) (fun c hle => ?_) hwriter hpending
      (congrArg DrivePc.held hdrive) hexchanges hbeats hraws
    simp only [Work.held, hpc, total_append] at hle
    have hm := hmoves c (by omega)
    simp only [Work.held, hpc, total_append, EnqueueResult.held, total_nil, queued,
      Session.setWork] at hm ⊢
    omega
  | @written ending q s₁ hpc he =>
    have hmoves := he.moves
    have hown : s₁.own = s.own := by
      cases he
      rfl
    obtain ⟨hwriter, hpending, hdrive, hworks, hexchanges, hbeats, hraws⟩ := he.parties
    have hset : (s₁.finishWork i w ending).works =
        s.works.set i { w with pc := .done ending, permit := none } := by
      rw [← hworks]
      rfl
    refine hacc.setWork hw hset (fun c hle => ?_) hwriter hpending ?_ hexchanges hbeats hraws
    · simp only [Work.held, hpc, total_append] at hle
      have hm := hmoves c (by omega)
      simp only [Work.held, hpc, total_append, EnqueueResult.held, total_nil, queued,
        Session.finishWork, releaseAll, Session.setWork, ResourceBudget.value_foldl_release,
        Option.toList_none, hown] at hm ⊢
      omega
    · show (s₁.drive.leaveWork i).held = s.drive.held
      rw [DrivePc.held_leaveWork, hdrive]
  | closes hpc =>
    have hclosed : Accounts s.close := hacc
    exact hclosed.finishWork hw (hheld _ hpc (by simp) (by simp)) _

/-- Before it is admitted, and when it is over, a work holds no handler permit. -/
theorem permit_none_of_reachable (h : (machine J).Reachable s) {w : Work}
    (hw : s.works[i]? = some w) (hpc : w.pc.permitless = true) : w.permit = none := by
  refine h.invariant (P := fun s => ∀ (i : ℕ) (w : Work), s.works[i]? = some w →
    w.pc.permitless = true → w.permit = none) ?_ ?_ i w hw hpc
  · rintro s ⟨id, limits, handlers, budget, elsewhere, rfl⟩ i w hw
    simp [spawn] at hw
  · intro s e s' _ hn ih i w hw hpc
    rcases (step_of_next hn).works with ⟨hworks, -⟩ | ⟨text, id, payload, -, -, rfl⟩ |
      ⟨k, v, hk, hstep⟩
    · exact ih i w (hworks ▸ hw) hpc
    · rcases getElem?_concat_cases hw with ⟨rfl, rfl⟩ | hold
      · rfl
      · exact ih i w hold hpc
    · -- the work that moved was admitted, ended, or was asking before
      have moved : ∀ {v' : Work}, s'.works = s.works.set k v' →
          (v'.pc.permitless = true → v'.permit = none) → w.permit = none := by
        intro v' hworks hnone
        rcases getElem?_set_cases (hworks ▸ hw) with ⟨-, rfl⟩ | ⟨-, hold⟩
        · exact hnone hpc
        · exact ih i w hold hpc
      cases hstep with
      | granted hpcv => exact moved rfl fun _ => ih k v hk (by rw [hpcv]; rfl)
      | writes _ he =>
        obtain ⟨_, _, _, _, _, rfl⟩ := he.frame
        exact moved rfl (by simp [WorkPc.permitless])
      | unwritten _ he =>
        obtain ⟨_, _, _, _, _, rfl⟩ := he.frame
        exact moved rfl (by simp [WorkPc.permitless])
      | written _ he =>
        obtain ⟨_, _, _, _, _, rfl⟩ := he.frame
        exact moved rfl (fun _ => rfl)
      | panicked => exact moved rfl (fun _ => rfl)
      | aborted => exact moved rfl (fun _ => rfl)
      | closes => exact moved rfl (fun _ => rfl)
      | _ => exact moved rfl (by simp [Work.answer, WorkPc.permitless])

/-- A call of `send_heartbeat` moves. -/
theorem Accounts.setBeat (hacc : Accounts s) {b b' : Beat} (hb : s.beats[i]? = some b)
    (hset : s'.beats = s.beats.set i b')
    (hmove : ∀ c : Counter, total c.weight b.held ≤ c.value s.own.usage →
      c.value s'.own.usage + total c.weight b.held + s.queued c =
        c.value s.own.usage + total c.weight b'.held + s'.queued c)
    (hwriter : s'.writer = s.writer) (hpending : s'.pending = s.pending)
    (hdrive : s'.drive = s.drive) (hworks : s'.works = s.works)
    (hexchanges : s'.exchanges = s.exchanges) (hraws : s'.raws = s.raws) : Accounts s' := by
  intro c
  have hc := hacc c
  have hle : total c.weight b.held ≤ c.value s.own.usage := by
    have hmem := le_total (f := fun b : Beat => total c.weight b.held) (List.mem_of_getElem? hb)
    unfold held executing at hc
    omega
  have hm := hmove c hle
  have hy : total (fun b : Beat => total c.weight b.held) (s.beats.set i b') +
      total c.weight b.held =
        total (fun b : Beat => total c.weight b.held) s.beats + total c.weight b'.held :=
    total_set hb
  unfold held executing at hc ⊢
  rw [hwriter, hpending, hdrive, hworks, hexchanges, hraws, hset]
  omega

theorem Accounts.beat {b : Beat} (hacc : Accounts s) (hb : s.beats[i]? = some b)
    (h : BeatStep s i b s') : Accounts s' := by
  cases h with
  | @enqueues q s₁ r hpc he =>
    have hmoves := he.moves
    obtain ⟨hwriter, hpending, hdrive, hworks, hexchanges, hbeats, hraws⟩ := he.parties
    have hold : b.held = q.held := by simp [Beat.held, hpc]
    have hnew : (b.enqueued r).held = r.held := by cases r <;> rfl
    refine hacc.setBeat hb (by rw [← hbeats]; rfl) (fun c hle => ?_) hwriter hpending hdrive hworks
      hexchanges hraws
    rw [hold] at hle
    have hm := hmoves c hle
    rw [hold, hnew]
    simp only [queued, Session.setBeat] at hm ⊢
    omega
  | _ =>
    refine hacc.setBeat hb rfl (fun c _ => ?_) rfl rfl rfl rfl rfl rfl
    simp [Beat.held, Enqueue.held, queued, Session.setBeat, Session.close, *]

/-- A call of `send_raw` moves. -/
theorem Accounts.raw (hacc : Accounts s) {q : Enqueue} {r : EnqueueResult} {s₁ : Session}
    (hraw : s.raws[i]? = some (.sending q)) (he : EnqueueStep s (.raw i) q s₁ r) :
    Accounts { s₁ with raws := s₁.raws.set i (.enqueued r) } := by
  obtain ⟨hwriter, hpending, hdrive, hworks, hexchanges, hbeats, hraws⟩ := he.parties
  intro c
  have hc := hacc c
  have hle : total c.weight q.held ≤ c.value s.own.usage := by
    have hmem : total c.weight q.held ≤ total (fun r : RawPc => total c.weight r.held) s.raws :=
      le_total (f := fun r : RawPc => total c.weight r.held) (List.mem_of_getElem? hraw)
    unfold held executing at hc
    omega
  have hm := he.moves c hle
  have hnew : (RawPc.enqueued r).held = r.held := by cases r <;> rfl
  have hy : total (fun r : RawPc => total c.weight r.held) (s.raws.set i (.enqueued r)) +
      total c.weight q.held =
        total (fun r : RawPc => total c.weight r.held) s.raws + total c.weight r.held := by
    rw [← hnew]
    exact total_set hraw
  simp only [held, executing, queued, hwriter, hpending, hdrive, hworks, hexchanges, hbeats,
    hraws] at hc hm ⊢
  omega

/-- The writer's task is gone, and every frame with it. -/
theorem Accounts.drop (hacc : Accounts s) : Accounts s.dropWriter := by
  intro c
  have hc := hacc c
  have hqueued : total c.weight ((s.control ++ s.data).map Outgoing.permit) = s.queued c := by
    rw [List.map_append, total_append, total_map, total_map]
    rfl
  have hnone : s.dropWriter.queued c = 0 := rfl
  have hown : c.value s.dropWriter.own.usage =
      c.value s.own.usage - (total c.weight s.writer.held + s.queued c) := by
    rw [← hqueued, ← total_append]
    exact ResourceBudget.value_foldl_release c _ _
  have hrest : s.dropWriter.held c =
      s.held c - (total c.weight s.writer.held + s.queued c) := by
    have hended : total c.weight s.dropWriter.writer.held = 0 := rfl
    unfold held
    rw [hnone, hended]
    show 0 + 0 + total (fun e : PendingEntry => c.weight e.permit) s.pending +
      total c.weight s.drive.held + total (fun w : Work => total c.weight w.held) s.works +
      s.executing c = _
    omega
  rw [hown, hrest, hc]

/-- The frame, where there is one, stays in the writer's hands. -/
theorem Accounts.setWriter (hacc : Accounts s) (pc : WriterPc) (hheld : pc.held = s.writer.held) :
    Accounts { s with writer := pc } := by
  intro c
  have hc := hacc c
  unfold held at hc ⊢
  rw [hheld]
  exact hc

theorem Accounts.write {move : WriterMove} (hacc : Accounts s) (h : WriterStep s move s') :
    Accounts s' := by
  cases h with
  | ends => exact hacc.drop
  | takesControl hpc hqueue =>
    intro c
    have hc := hacc c
    unfold held queued at hc ⊢
    rw [hqueue, hpc] at hc
    simp only [WriterPc.held, total_cons, total_nil] at hc ⊢
    simp only [executing] at hc ⊢
    omega
  | takesData hpc hqueue =>
    intro c
    have hc := hacc c
    unfold held queued at hc ⊢
    rw [hqueue, hpc] at hc
    simp only [WriterPc.held, total_cons, total_nil] at hc ⊢
    simp only [executing] at hc ⊢
    omega
  | discards hpc =>
    intro c
    have hc := hacc c
    unfold held at hc ⊢
    rw [hpc] at hc
    simp only [WriterPc.held, total_cons, total_nil] at hc ⊢
    simp only [release, ResourceBudget.release, ResourceSnapshot.value_sub, executing,
      queued] at hc ⊢
    omega
  | flushes hpc =>
    intro c
    have hc := hacc c
    unfold held at hc ⊢
    rw [hpc] at hc
    simp only [WriterPc.held, total_cons, total_nil] at hc ⊢
    simp only [release, ResourceBudget.release, ResourceSnapshot.value_sub, executing,
      queued] at hc ⊢
    omega
  | _ => exact hacc.setWriter _ (by simp [WriterPc.held, *])

/-- Where a sender is does not change what its call holds. -/
theorem total_holdSender (c : Counter) (exchanges : List Exchange) (entry : PendingEntry) :
    total (fun x : Exchange => total c.weight x.held) (holdSender exchanges entry) =
      total (fun x : Exchange => total c.weight x.held) exchanges :=
  total_modify fun _ => rfl

theorem total_foldl_holdSender (c : Counter) (entries : List PendingEntry)
    (exchanges : List Exchange) :
    total (fun x : Exchange => total c.weight x.held) (entries.foldl holdSender exchanges) =
      total (fun x : Exchange => total c.weight x.held) exchanges := by
  induction entries generalizing exchanges with
  | nil => rfl
  | cons entry entries ih => rw [List.foldl_cons, ih, total_holdSender]

theorem total_deliver (c : Counter) (exchanges : List Exchange) (i : ℕ) (r : Settlement) :
    total (fun x : Exchange => total c.weight x.held) (exchanges.modify i (·.deliver r)) =
      total (fun x : Exchange => total c.weight x.held) exchanges :=
  total_modify fun _ => rfl

/-- The driving task goes on with what it holds. -/
theorem Accounts.setDrive (hacc : Accounts s) (pc : DrivePc) (hheld : pc.held = s.drive.held) :
    Accounts { s with drive := pc } := by
  intro c
  have hc := hacc c
  unfold held at hc ⊢
  rw [hheld]
  exact hc

theorem Accounts.driven (hacc : Accounts s) (h : DriveStep s s') : Accounts s' := by
  cases h with
  | aborted hpc =>
    have hdropped := hacc.drop
    intro c
    have hc := hdropped c
    have hdrive : s.dropWriter.drive = .abortingWriter := hpc
    unfold held at hc ⊢
    rw [hdrive] at hc
    exact hc
  | @settles i r hpc =>
    intro c
    have hc := hacc c
    have hsame := total_deliver c s.exchanges i r
    unfold held executing at hc ⊢
    rw [hpc] at hc
    simp only [deliver, DrivePc.held, queued, total_nil] at hc ⊢
    omega
  | drains hpc =>
    intro c
    have hc := hacc c
    have hsame := total_foldl_holdSender c s.pending s.exchanges
    unfold held executing at hc ⊢
    rw [hpc] at hc
    simp only [DrivePc.held, queued, total_nil, total_map] at hc ⊢
    omega
  | @finishSettle entry left hpc =>
    intro c
    have hc := hacc c
    have hsame := total_deliver c s.exchanges entry.exchange .closed
    unfold held executing at hc ⊢
    rw [hpc] at hc
    simp only [DrivePc.held, queued, List.map_cons, total_cons] at hc ⊢
    simp only [deliver, release, ResourceBudget.release, ResourceSnapshot.value_sub]
    omega
  | _ => exact hacc.setDrive _ (by simp [DrivePc.held, *])

/-- The entry an answer is for leaves the map, with its permit. -/
theorem Accounts.answered (hacc : Accounts s) (hids : (s.pending.map PendingEntry.id).Nodup)
    {entry : PendingEntry} {id : String} {r : Settlement} {marks : List Mark}
    (hfound : s.findPending id = some entry) (hdrive : s.drive = .reading) :
    Accounts { s.removePending entry with
      exchanges := holdSender s.exchanges entry
      drive := .settling entry.exchange r, marks := marks } := by
  intro c
  have hmem := List.mem_of_find?_eq_some hfound
  have hout := total_filter_ne (f := fun e : PendingEntry => c.weight e.permit)
    PendingEntry.id hids hmem
  have hc := hacc c
  have hsame := total_holdSender c s.exchanges entry
  unfold held executing at hc ⊢
  rw [hdrive] at hc
  simp only [removePending, release, ResourceBudget.release, ResourceSnapshot.value_sub,
    DrivePc.held, queued, total_nil] at hc ⊢
  omega

/-- **The accounts of a session are right**, in every run. -/
theorem accounts_of_reachable (h : (machine J).Reachable s) : Accounts s := by
  refine h.invariant_of (P := fun s => Accounts s) ?_ ?_
  · rintro s ⟨id, limits, handlers, budget, elsewhere, rfl⟩ c
    cases c <;> rfl
  · intro s e s' hreach _ hn hacc
    have hids : (s.pending.map PendingEntry.id).Nodup :=
      (registry_of_reachable hreach).table.entry_ids
    -- a call that begins holds nothing
    have begins : ∀ x : Exchange, x.held = [] →
        Accounts { s with exchanges := s.exchanges ++ [x] } := by
      intro x hx c
      have hc := hacc c
      unfold held executing at hc ⊢
      rw [total_append, total_cons, hx]
      exact hc
    have beats : ∀ b : Beat, b.held = [] → ∀ heartbeat,
        Accounts { s with beats := s.beats ++ [b], heartbeat := heartbeat } := by
      intro b hb heartbeat c
      have hc := hacc c
      unfold held executing at hc ⊢
      rw [total_append, total_cons, hb]
      exact hc
    cases step_of_next hn with
    | sent => exact begins _ rfl
    | sentPayload => exact begins _ rfl
    | exchange hx h => exact hacc.exchange hx hids h
    | leaves hx hpc =>
      refine hacc.setExchange hx rfl (fun c _ => ?_) rfl rfl rfl rfl rfl
      simp only [Exchange.held, hpc]
      rfl
    | initiates => exact beats _ rfl _
    | beat hb h => exact hacc.beat hb h
    | sendRaw =>
      intro c
      have hc := hacc c
      unfold held executing at hc ⊢
      rw [total_append, total_cons]
      exact hc
    | raw hraw he => exact hacc.raw hraw he
    | echo => exact beats _ rfl _
    | @receive text _ hdrive h =>
      cases h with
      | answer _ _ _ hfound =>
        have hcounted : Accounts (s.hear text).count := hacc
        exact hcounted.answered hids hfound hdrive
      | message =>
        intro c
        have hc := hacc c
        unfold held executing at hc ⊢
        rw [hdrive] at hc
        simp only [total_append, total_cons, total_nil]
        exact hc
      | _ => exact hacc
    | streamEnds hdrive => exact hacc.setDrive _ (by rw [hdrive]; rfl)
    | drive h => exact hacc.driven h
    | shutdownDeadline hdrive => exact hacc.setDrive _ (by rw [hdrive]; rfl)
    | work hw h => exact hacc.work hw (permit_none_of_reachable hreach hw) h
    | writer h => exact hacc.write h
    | _ => exact hacc

end Session

end Vcmp
