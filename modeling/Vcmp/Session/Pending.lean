import Vcmp.Json.Codec
import Vcmp.Session.Arrivals
import Vcmp.Session.PendingMap
/-!
# Every call settles once

`Registry` is the invariant of the requests: the table of the pending
map is kept, a call is settled by an answer that carries its own id or
by the drain, and it put its own frame on the data queue at most once.
From it: nothing an answer does reaches another call, an id is in the
map exactly while its call waits, and the drain leaves nobody behind.
-/

namespace Vcmp

/-- What a call has sent, by where it is. -/
structure Exchange.Sends (x : Exchange) (i : ℕ) (sent : List Accepted) : Prop where
  frame : ∀ q, x.pc = .enqueuing q → q.text = x.text ∧ q.control = false
  once : sent = [] ∨ sent = [⟨false, x.text, .exchange i⟩]
  before : x.pc.admitting = true ∨ (∃ q, x.pc = .enqueuing q) → sent = []

/-- What a call has sent does not depend on where its sender is. -/
theorem Exchange.Sends.channel {x : Exchange} {i : ℕ} {sent : List Accepted} (h : x.Sends i sent)
    (channel : Channel) : { x with channel := channel : Exchange }.Sends i sent :=
  ⟨h.frame, h.once, h.before⟩

namespace Session

variable {J : JsonText} {s s' : Session} {e : Event J} {i j : ℕ} {x y : Exchange}

/-- **What settles a call with an id**: an answer heard that carries the
id, or the drain of the map. -/
def SettledBy (J : JsonText) (s : Session) (id : String) : Settlement → Prop
  | .ack payload arrival position => arrival = s.arrivalAt position ∧
      ∃ text, s.received[position]? = some text ∧ s.counts text = true ∧
        Frame.parse text = .ok (.ack id payload)
  | .nak error position => ∃ text payload, s.received[position]? = some text ∧
      Frame.parse text = .ok (.nak id payload) ∧ error = readNak J payload
  | .closed => .drained ∈ s.marks

/-- **The invariant of the requests.** -/
structure Registry (J : JsonText) (s : Session) : Prop where
  table : Table s.exchanges s.pending s.marks s.drive.holds s.drive.drained
  /-- Whoever is settled is settled by an answer of its own. -/
  answers : ∀ {i : ℕ} {x : Exchange} {r : Settlement}, s.exchanges[i]? = some x →
    x.channel = .sent r ∨ x.outcome = some (.settled r) → SettledBy J s x.id r
  settling : ∀ {i : ℕ} {x : Exchange} {r : Settlement}, s.drive = .settling i r →
    s.exchanges[i]? = some x → SettledBy J s x.id r
  sends : ∀ {i : ℕ} {x : Exchange}, s.exchanges[i]? = some x → x.Sends i (s.sentBy (.exchange i))
  /-- Nobody sends in the name of a call that was not made. -/
  beyond : ∀ i, s.exchanges.length ≤ i → s.sentBy (.exchange i) = []

/-! ## What a step makes of one call -/

/-- A call that moves had no outcome, and is over only where it was refused. -/
theorem CallMove.cases {pc : ExchangePc} (h : CallMove x pc) : x.outcome = none ∧
    ((x.pc.admitting = true ∧ (pc.admitting = true ∨ ∃ error, pc = .done (.refused error))) ∨
      (x.pc.active = true ∧ pc.active = true ∧ pc.admitting = false)) := by
  cases h with
  | admits h h' =>
    refine ⟨?_, .inl ⟨h, .inl h'⟩⟩
    unfold Exchange.outcome
    cases hpc : x.pc <;> simp_all [ExchangePc.admitting]
  | refused h =>
    refine ⟨?_, .inl ⟨h, .inr ⟨_, rfl⟩⟩⟩
    unfold Exchange.outcome
    cases hpc : x.pc <;> simp_all [ExchangePc.admitting]
  | _ => simp [Exchange.outcome, ExchangePc.active, ExchangePc.admitting, *]

theorem CallMove.fits {pc : ExchangePc} (h : CallMove x pc) (hf : x.Fits) :
    { x with pc := pc : Exchange }.Fits := by
  obtain ⟨hnone, ⟨hadm, hpc⟩ | ⟨hact, hpc, hnot⟩⟩ := h.cases
  · have hu := hf.admitting hadm
    refine ⟨fun _ => hu, fun ha => ?_, fun _ _ => by simp [hu], fun hg => by simp [hu] at hg⟩
    rcases hpc with hpc | ⟨error, rfl⟩
    · cases pc <;> simp_all [ExchangePc.active, ExchangePc.admitting]
    · cases ha
  · refine ⟨fun ha => ?_, fun _ => hf.active hact, fun o ho => ?_, fun hg => ?_⟩
    · rw [hnot] at ha
      cases ha
    · subst ho
      cases hpc
    · have := hf.gone hg
      rw [hnone] at this
      cases this

theorem CallMove.noted {pc : ExchangePc} {marks : List Mark} (h : CallMove x pc) (hf : x.Fits)
    (hn : Noted marks i x) : Noted marks i { x with pc := pc } := by
  refine ⟨hn.registered, ?_, hn.answered, hn.taken⟩
  rw [hn.ended]
  obtain ⟨hnone, hcases⟩ := h.cases
  have hold : ∀ o, x.pc ≠ .done o := by
    intro o ho
    simp [Exchange.outcome, ho] at hnone
  refine ⟨fun ⟨⟨o, ho⟩, _⟩ => absurd ho (hold o), fun ⟨⟨o, ho⟩, hne⟩ => ?_⟩
  rcases hcases with ⟨hadm, -⟩ | ⟨-, hact, -⟩
  · exact absurd (hf.admitting hadm) hne
  · simp only at ho
    subst ho
    cases hact

/-- **What a step makes of a call**: the call is the same, with the same
outcome where it has one. -/
theorem RequestStep.keeps (h : RequestStep J s s') (hx : s.exchanges[i]? = some x) :
    ∃ y, s'.exchanges[i]? = some y ∧ y.id = x.id ∧ y.payload = x.payload ∧
      y.message = x.message ∧ ∀ o, x.outcome = some o → y.outcome = some o := by
  have same : s'.exchanges = s.exchanges → ∃ y, s'.exchanges[i]? = some y ∧ y.id = x.id ∧
      y.payload = x.payload ∧ y.message = x.message ∧
      ∀ o, x.outcome = some o → y.outcome = some o :=
    fun hs => ⟨x, hs ▸ hx, rfl, rfl, rfl, fun _ h => h⟩
  have set : ∀ {k : ℕ} {z z' : Exchange}, s.exchanges[k]? = some z →
      s'.exchanges = s.exchanges.set k z' → z'.id = z.id → z'.payload = z.payload →
      z'.message = z.message → (∀ o, z.outcome = some o → z'.outcome = some o) →
      ∃ y, s'.exchanges[i]? = some y ∧ y.id = x.id ∧ y.payload = x.payload ∧
        y.message = x.message ∧ ∀ o, x.outcome = some o → y.outcome = some o := by
    intro k z z' hz hs hid hpayload hmessage hout
    by_cases hki : k = i
    · subst hki
      rw [hx, Option.some.injEq] at hz
      subst hz
      exact ⟨z', by rw [hs]; exact getElem?_set_self' hx, hid, hpayload, hmessage, hout⟩
    · exact ⟨x, by rw [hs, List.getElem?_set_ne hki, hx], rfl, rfl, rfl, fun _ h => h⟩
  have map : ∀ {g : Exchange → Exchange}, s'.exchanges[i]? = s.exchanges[i]?.map g →
      (∀ z, (g z).id = z.id ∧ (g z).payload = z.payload ∧ (g z).message = z.message ∧
        (g z).outcome = z.outcome) → ∃ y, s'.exchanges[i]? = some y ∧ y.id = x.id ∧
      y.payload = x.payload ∧ y.message = x.message ∧
      ∀ o, x.outcome = some o → y.outcome = some o := by
    intro g hs hg
    obtain ⟨hid, hpayload, hmessage, hout⟩ := hg x
    exact ⟨g x, by rw [hs, hx]; rfl, hid, hpayload, hmessage, fun o ho => by rw [hout, ho]⟩
  cases h with
  | quiet hs => exact same hs
  | called _ _ _ hs =>
    refine ⟨x, ?_, rfl, rfl, rfl, fun _ h => h⟩
    rw [hs, getElem?_append_some hx]
  | moves hi hmove hs =>
    refine set hi hs rfl rfl rfl fun o ho => ?_
    rw [hmove.cases.1] at ho
    cases ho
  | accepted hi hpc hs => exact set hi hs rfl rfl rfl fun o ho => by simp [Exchange.outcome, hpc] at ho
  | registered hi hpc _ hs =>
    exact set hi hs rfl rfl rfl fun o ho => by simp [Exchange.outcome, hpc] at ho
  | removed hi hpc _ hs =>
    exact set hi hs rfl rfl rfl fun o ho => by simpa [Exchange.outcome, hpc] using ho
  | cleaned hi hpc _ hs =>
    exact set hi hs rfl rfl rfl fun o ho => by simpa [Exchange.outcome, hpc] using ho
  | @answer _ _ _ _ entry _ _ _ _ _ hs =>
    refine map (g := fun z => if entry.exchange = i then { z with channel := .held } else z) ?_ ?_
    · rw [hs, holdSender, List.getElem?_modify]
      rfl
    · intro z
      split <;> exact ⟨rfl, rfl, rfl, rfl⟩
  | @settles k r _ hs =>
    refine map (g := fun z => if k = i then z.deliver r else z) ?_ ?_
    · rw [hs]
      simp only [deliver, List.getElem?_modify]
      rfl
    · intro z
      split <;> exact ⟨rfl, rfl, rfl, rfl⟩
  | drains _ hs =>
    refine map (g := fun z => if i ∈ s.pending.map PendingEntry.exchange then
      { z with channel := .held } else z) ?_ ?_
    · rw [hs]
      exact Table.getElem?_foldl_holdSender s.pending s.exchanges i
    · intro z
      split <;> exact ⟨rfl, rfl, rfl, rfl⟩
  | @finishSettle entry _ _ hs =>
    refine map (g := fun z => if entry.exchange = i then z.deliver .closed else z) ?_ ?_
    · rw [hs]
      simp only [release, deliver, List.getElem?_modify]
      rfl
    · intro z
      split <;> exact ⟨rfl, rfl, rfl, rfl⟩

/-- **Where the settlement of a call comes from**: a sender used by the
driving task, and then the call taking what was sent. -/
theorem RequestStep.origins (h : RequestStep J s s') (hy : s'.exchanges[i]? = some y) :
    (y.channel = .unregistered ∧ y.outcome = none) ∨ ∃ x, s.exchanges[i]? = some x ∧
      y.id = x.id ∧
      (∀ r, y.channel = .sent r → x.channel = .sent r ∨ s.drive = .settling i r ∨
        (r = .closed ∧ s.drive.drained = true)) ∧
      (∀ r, y.outcome = some (.settled r) → x.outcome = some (.settled r) ∨
        x.channel = .sent r) := by
  have same : s.exchanges[i]? = some y → (y.channel = .unregistered ∧ y.outcome = none) ∨
      ∃ x, s.exchanges[i]? = some x ∧ y.id = x.id ∧
      (∀ r, y.channel = .sent r → x.channel = .sent r ∨ s.drive = .settling i r ∨
        (r = .closed ∧ s.drive.drained = true)) ∧
      (∀ r, y.outcome = some (.settled r) → x.outcome = some (.settled r) ∨
        x.channel = .sent r) :=
    fun hx => .inr ⟨y, hx, rfl, fun r hr => .inl hr, fun r hr => .inl hr⟩
  cases h with
  | quiet hs => exact same (hs ▸ hy)
  | called _ hpc hchannel hs =>
    rcases getElem?_concat_cases (hs ▸ hy) with ⟨-, rfl⟩ | hx
    · exact .inl ⟨hchannel, by simp [Exchange.outcome, hpc]⟩
    · exact same hx
  | moves hi hmove hs =>
    rcases getElem?_set_cases (hs ▸ hy) with ⟨rfl, rfl⟩ | ⟨-, hx⟩
    · refine .inr ⟨_, hi, rfl, fun r hr => .inl hr, fun r hr => ?_⟩
      cases hmove with
      | settled _ hsent =>
        simp only [Exchange.outcome, Option.some.injEq, Outcome.settled.injEq] at hr
        exact .inr (hr ▸ hsent)
      | admits _ hadm =>
        simp only [Exchange.outcome] at hr
        split at hr
        · cases hadm
        · cases hadm
        · cases hr
      | _ => simp [Exchange.outcome] at hr
    · exact same hx
  | accepted hi _ hs =>
    rcases getElem?_set_cases (hs ▸ hy) with ⟨rfl, rfl⟩ | ⟨-, hx⟩
    · exact .inr ⟨_, hi, rfl, fun r hr => .inl hr, fun r hr => by simp [Exchange.outcome] at hr⟩
    · exact same hx
  | registered hi _ _ hs =>
    rcases getElem?_set_cases (hs ▸ hy) with ⟨rfl, rfl⟩ | ⟨-, hx⟩
    · exact .inr ⟨_, hi, rfl, fun r hr => by simp at hr,
        fun r hr => by simp [Exchange.outcome] at hr⟩
    · exact same hx
  | removed hi hpc _ hs =>
    rcases getElem?_set_cases (hs ▸ hy) with ⟨rfl, rfl⟩ | ⟨-, hx⟩
    · exact .inr ⟨_, hi, rfl, fun r hr => by simp at hr,
        fun r hr => .inl (by simpa [Exchange.outcome, hpc] using hr)⟩
    · exact same hx
  | cleaned hi hpc _ hs =>
    rcases getElem?_set_cases (hs ▸ hy) with ⟨rfl, rfl⟩ | ⟨-, hx⟩
    · exact .inr ⟨_, hi, rfl, fun r hr => .inl hr,
        fun r hr => .inl (by simpa [Exchange.outcome, hpc] using hr)⟩
    · exact same hx
  | answer _ _ _ _ _ hs =>
    rw [hs] at hy
    obtain ⟨x, hx, rfl⟩ := getElem?_modify_cases hy
    split
    · exact .inr ⟨x, hx, rfl, fun r hr => by simp at hr, fun r hr => .inl hr⟩
    · exact .inr ⟨x, hx, rfl, fun r hr => .inl hr, fun r hr => .inl hr⟩
  | @settles k r hdrive hs =>
    rw [hs] at hy
    obtain ⟨x, hx, rfl⟩ := getElem?_modify_cases hy
    split
    · rename_i hk
      refine .inr ⟨x, hx, rfl, fun r' hr => .inr (.inl ?_), fun r hr => .inl hr⟩
      unfold Exchange.deliver at hr
      split at hr
      · cases hr
        exact hk ▸ hdrive
      · cases hr
    · exact .inr ⟨x, hx, rfl, fun r hr => .inl hr, fun r hr => .inl hr⟩
  | drains hdrive hs =>
    rw [hs] at hy
    have hget := Table.getElem?_foldl_holdSender s.pending s.exchanges i
    rw [show (s.pending.foldl holdSender s.exchanges)[i]? = some y from hy] at hget
    obtain ⟨x, hx, rfl⟩ := Option.map_eq_some_iff.mp hget.symm
    split
    · exact .inr ⟨x, hx, rfl, fun r hr => by simp at hr, fun r hr => .inl hr⟩
    · exact .inr ⟨x, hx, rfl, fun r hr => .inl hr, fun r hr => .inl hr⟩
  | @finishSettle entry left hdrive hs =>
    rw [hs] at hy
    obtain ⟨x, hx, rfl⟩ := getElem?_modify_cases (l := s.exchanges) hy
    split
    · refine .inr ⟨x, hx, rfl, fun r' hr => .inr (.inr ?_), fun r hr => .inl hr⟩
      unfold Exchange.deliver at hr
      split at hr
      · cases hr
        exact ⟨rfl, by rw [hdrive]; rfl⟩
      · cases hr
    · exact .inr ⟨x, hx, rfl, fun r hr => .inl hr, fun r hr => .inl hr⟩

/-- The marks only grow. -/
theorem RequestStep.marks (h : RequestStep J s s') {m : Mark} (hm : m ∈ s.marks) :
    m ∈ s'.marks := by
  cases h with
  | quiet _ _ hms => rwa [hms]
  | called _ _ _ _ _ hms => rwa [hms]
  | moves _ _ _ _ hms => rwa [hms]
  | accepted _ _ _ _ hms => rwa [hms]
  | registered _ _ _ _ _ hms => rw [hms]; exact List.mem_cons_of_mem _ hm
  | removed _ _ _ _ _ hms => rw [hms]; exact List.mem_cons_of_mem _ hm
  | cleaned _ _ _ _ _ hms => rw [hms]; exact List.mem_cons_of_mem _ hm
  | answer _ _ _ _ _ _ _ hms => rw [hms]; exact List.mem_cons_of_mem _ hm
  | settles _ hs => rw [hs]; exact hm
  | drains _ hs => rw [hs]; exact List.mem_cons_of_mem _ hm
  | finishSettle _ hs => rw [hs]; exact hm

/-- What settled a call settled it for good. -/
theorem SettledBy.step (h : Step J s e s') {id : String} {r : Settlement}
    (hr : SettledBy J s id r) : SettledBy J s' id r := by
  obtain ⟨hid, hlimits⟩ := h.constant
  cases r with
  | ack payload arrival position =>
    obtain ⟨rfl, text, htext, hcounts, hparse⟩ := hr
    have hlt := (List.getElem?_eq_some_iff.mp htext).1
    refine ⟨(arrivalAt_congr hid hlimits h.heard hlt).symm, text,
      getElem?_of_extends h.heard htext, ?_, hparse⟩
    rw [counts_congr hlimits]
    exact hcounts
  | nak error position =>
    obtain ⟨text, payload, htext, hparse⟩ := hr
    exact ⟨text, payload, getElem?_of_extends h.heard htext, hparse⟩
  | closed => exact h.request.marks hr

/-- **The table is kept by every step.** -/
theorem RequestStep.table (h : RequestStep J s s')
    (hclosed : s.drive.drained = true → s.isOpen = false)
    (ht : Table s.exchanges s.pending s.marks s.drive.holds s.drive.drained) :
    Table s'.exchanges s'.pending s'.marks s'.drive.holds s'.drive.drained := by
  cases h with
  | quiet hx hp hm _ ha =>
    rw [hx, hp, hm, ha.holds, ha.drained]
    exact ht
  | called hfresh hpc hchannel hx hp hm _ ha =>
    rw [hx, hp, hm, ha.holds, ha.drained]
    exact ht.called hfresh hpc hchannel
  | moves hi hmove hx hp hm _ ha =>
    rw [hx, hp, hm, ha.holds, ha.drained]
    exact ht.moves hi (hmove.fits (ht.fits hi)) (hmove.noted (ht.fits hi) (ht.noted hi))
  | @accepted i x q hi hpc hx hp hm _ ha =>
    rw [hx, hp, hm, ha.holds, ha.drained]
    have hf := ht.fits hi
    have hn := ht.noted hi
    refine ht.moves hi ⟨fun h => by simp [ExchangePc.admitting] at h,
      fun _ => hf.active (by rw [hpc]; rfl), fun o ho => by simp at ho, fun hg => ?_⟩
      ⟨hn.registered, ?_, hn.answered, hn.taken⟩
    · have := hf.gone hg
      simp [Exchange.outcome, hpc] at this
    · rw [hn.ended]
      simp [hpc]
  | registered hi hpc hopen hx hp hm _ ha =>
    rw [hx, hp, hm, ha.holds, ha.drained]
    have hover : s.drive.drained = false := by
      by_contra hd
      rw [hclosed (by simpa using hd)] at hopen
      cases hopen
    exact ht.register hi (by rw [hpc]; rfl) hover (by simp) rfl _
  | @removed i x o entry hi hpc hfound hx hp hm _ ha =>
    rw [hx, hp, hm, ha.holds, ha.drained]
    have hmem := List.mem_of_find?_eq_some hfound
    have hid : entry.id = x.id := by simpa using List.find?_some hfound
    obtain ⟨z, hz, -, hch⟩ := ht.entry entry hmem
    rw [ht.exchange_eq hi hmem hid, hi, Option.some.injEq] at hz
    subst hz
    have hn := ht.noted hi
    refine ht.take hmem hi hid rfl ?_ ?_ (.inr rfl) (by simp) ?_ ht.distinct
    · exact ⟨fun h => by simp [ExchangePc.admitting] at h,
        fun h => by simp [ExchangePc.active] at h, fun _ _ => by simp, fun _ => rfl⟩
    · refine ⟨?_, by simp, fun _ => by simp, fun _ _ => .inr (.inl List.mem_cons_self)⟩
      have hreg := hn.registered.mpr (by simp [hch])
      simp [hreg]
    · intro j
      by_cases hji : j = i
      · subst hji
        simp only [reduceCtorEq, and_false, ne_eq, not_true_eq_false, false_and, or_self,
          iff_false]
        intro hj
        obtain ⟨z, hz, hheld⟩ := ht.held j hj
        rw [hi, Option.some.injEq] at hz
        rw [← hz, hch] at hheld
        cases hheld
      · simp [hji]
  | @cleaned i x o hi hpc hnone hx hp hm _ ha =>
    rw [hx, hp, hm, ha.holds, ha.drained]
    have hf := ht.fits hi
    have hn := ht.noted hi
    have hu := hf.active (by rw [hpc]; rfl)
    have hnp : x.channel ≠ .pending := by
      intro hch
      obtain ⟨p, hmem⟩ := ht.pending hi hch
      have := List.find?_eq_none.mp hnone _ hmem
      simp at this
    have hheld := fun j => show j ∈ s.drive.holds ↔
        (j = i ∧ x.channel = .held) ∨ (j ≠ i ∧ j ∈ s.drive.holds) by
      by_cases hji : j = i
      · subst hji
        simp only [true_and, ne_eq, not_true_eq_false, false_and, or_false]
        refine ⟨fun hj => ?_, fun hch => ht.holder hi hch⟩
        obtain ⟨z, hz, hch⟩ := ht.held j hj
        rw [hi, Option.some.injEq] at hz
        exact hz ▸ hch
      · simp [hji]
    refine ht.set hi rfl ?_ ?_ (fun hne hz => (ht.noted hz).cons ⟨by simp, by simp, ?_⟩) ?_ ?_
      (fun hp => absurd hp hnp) (fun e he _ => he) ht.once hheld ht.distinct ?_ ht.empty
    · exact ⟨fun h => by simp [ExchangePc.admitting] at h,
        fun h => by simp [ExchangePc.active] at h, fun _ _ => hnp, fun _ => rfl⟩
    · refine ⟨?_, ?_, ?_, fun _ _ => .inr (.inl List.mem_cons_self)⟩
      · simpa using hn.registered
      · simpa using hu
      · intro hans
        exact hn.answered (by simpa using hans)
    · simpa using hne.symm
    · intro j hj
      by_cases hji : j = i
      · exact hji ▸ (List.getElem?_eq_some_iff.mp hi).1
      · exact ht.marked j (by simpa [hji] using hj)
    · intro entry he
      refine ⟨fun hei => ?_, fun _ => he⟩
      obtain ⟨z, hz, -, hch⟩ := ht.entry entry he
      rw [hei, hi, Option.some.injEq] at hz
      rw [← hz] at hch
      exact absurd hch hnp
    · simpa using ht.drained
  | @answer text frame id r entry hdrive _ _ hanswer hfound hx hp hm _ hd _ =>
    have hmem := List.mem_of_find?_eq_some hfound
    obtain ⟨x, hi, hid, hch⟩ := ht.entry entry hmem
    rw [hdrive] at ht
    rw [hx, hp, hm, hd, holdSender, modify_eq_set hi]
    have hn := ht.noted hi
    have hf := ht.fits hi
    refine ht.take hmem hi hid.symm rfl ?_ ?_ (.inl rfl) (by simp) ?_ ?_
    · refine ⟨fun h => ?_, fun _ => by simp, fun _ _ => by simp, fun hg => by simp at hg⟩
      rw [hf.admitting h] at hch
      cases hch
    · refine ⟨?_, ?_, fun _ => by simp, fun _ _ => .inl List.mem_cons_self⟩
      · have hreg := hn.registered.mpr (by simp [hch])
        simp [hreg]
      · have hend := hn.ended
        simp only [hch, ne_eq, reduceCtorEq, not_false_eq_true, and_true] at hend
        simp [hend]
    · intro j
      simp [DrivePc.holds]
    · simp [DrivePc.holds]
  | @settles k r hdrive hs =>
    rw [hdrive] at ht
    rw [hs]
    exact ht.deliver r
  | drains hdrive hs =>
    rw [hdrive] at ht
    rw [hs]
    exact ht.drain
  | finishSettle hdrive hs =>
    rw [hdrive] at ht
    rw [hs]
    exact ht.deliver .closed

/-- **A call sends its own frame, once.** -/
theorem RequestStep.sends (h : RequestStep J s s')
    (hs : ∀ {i : ℕ} {x : Exchange}, s.exchanges[i]? = some x → x.Sends i (s.sentBy (.exchange i)))
    (hb : ∀ i, s.exchanges.length ≤ i → s.sentBy (.exchange i) = []) :
    (∀ {i : ℕ} {x : Exchange}, s'.exchanges[i]? = some x → x.Sends i (s'.sentBy (.exchange i))) ∧
      ∀ i, s'.exchanges.length ≤ i → s'.sentBy (.exchange i) = [] := by
  -- a call replaced, with the frames of all calls as they were
  have set : ∀ {k : ℕ} {z z' : Exchange}, s.exchanges[k]? = some z →
      s'.exchanges = s.exchanges.set k z' → SameSent s s' →
      (z.Sends k (s.sentBy (.exchange k)) → z'.Sends k (s.sentBy (.exchange k))) →
      (∀ {i : ℕ} {x : Exchange}, s'.exchanges[i]? = some x → x.Sends i (s'.sentBy (.exchange i))) ∧
        ∀ i, s'.exchanges.length ≤ i → s'.sentBy (.exchange i) = [] := by
    intro k z z' hz hx hsame hz'
    refine ⟨fun {i y} hy => ?_, fun i hi => ?_⟩
    · rw [hsame i]
      rcases getElem?_set_cases (hx ▸ hy) with ⟨rfl, rfl⟩ | ⟨-, hy⟩
      · exact hz' (hs hz)
      · exact hs hy
    · rw [hsame i]
      rw [hx, List.length_set] at hi
      exact hb i hi
  -- only channels move
  have modify : ∀ {g : Exchange → Exchange} {k : ℕ},
      s'.exchanges[k]? = s.exchanges[k]?.map g →
      (∀ z, ∃ channel, g z = { z with channel := channel }) → s'.accepted = s.accepted →
      ∀ {y : Exchange}, s'.exchanges[k]? = some y → y.Sends k (s'.sentBy (.exchange k)) := by
    intro g k hx hg hacc y hy
    rw [hx] at hy
    obtain ⟨z, hz, rfl⟩ := Option.map_eq_some_iff.mp hy
    obtain ⟨channel, hchannel⟩ := hg z
    rw [hchannel, sentBy, hacc]
    exact (hs hz).channel channel
  cases h with
  | quiet hx _ _ hsame =>
    refine ⟨fun hy => ?_, fun i hi => ?_⟩
    · rw [hsame]
      exact hs (hx ▸ hy)
    · rw [hsame]
      exact hb i (hx ▸ hi)
  | called _ hpc _ hx _ _ hsame =>
    refine ⟨fun {i y} hy => ?_, fun i hi => ?_⟩
    · rw [hsame]
      rcases getElem?_concat_cases (hx ▸ hy) with ⟨rfl, rfl⟩ | hy
      · have hnone := hb _ (le_refl s.exchanges.length)
        exact ⟨fun q hq => by simp [hpc] at hq, .inl hnone, fun _ => hnone⟩
      · exact hs hy
    · rw [hsame]
      rw [hx, List.length_append] at hi
      exact hb i (by omega)
  | moves hi hmove hx _ _ hsame =>
    refine set hi hx hsame fun hz => ⟨?_, hz.once, fun hpc => hz.before ?_⟩
    · cases hmove with
      | goes h =>
        intro q hq
        have := hz.frame _ h
        simp only [ExchangePc.enqueuing.injEq] at hq
        exact hq ▸ this
      | admits _ h' =>
        rintro q rfl
        cases h'
      | _ => intro q hq; cases hq
    · cases hmove with
      | goes h => exact .inr ⟨_, h⟩
      | admits h => exact .inl h
      | refused h => exact .inl h
      | _ => rcases hpc with h | ⟨q, h⟩ <;> cases h
  | @accepted i x q hi hpc hx _ _ hsent =>
    have hz := hs hi
    obtain ⟨htext, hcontrol⟩ := hz.frame q hpc
    have hnone := hz.before (.inr ⟨q, hpc⟩)
    refine ⟨fun {j y} hy => ?_, fun j hj => ?_⟩
    · rcases getElem?_set_cases (hx ▸ hy) with ⟨rfl, rfl⟩ | ⟨hne, hy⟩
      · have hone : s'.sentBy (.exchange j) = [⟨false, x.text, .exchange j⟩] := by
          rw [hsent j, hnone, if_pos rfl, htext, hcontrol]
          rfl
        refine ⟨fun q hq => by simp at hq, .inr hone, ?_⟩
        rintro (h | ⟨q, h⟩) <;> cases h
      · rw [hsent j, if_neg hne, List.append_nil]
        exact hs hy
    · rw [hx, List.length_set] at hj
      have hne : j ≠ i := by
        rintro rfl
        have := (List.getElem?_eq_some_iff.mp hi).1
        omega
      rw [hsent j, if_neg hne, List.append_nil]
      exact hb j hj
  | registered hi hpc _ hx _ _ hsame =>
    refine set hi hx hsame fun hz => ⟨?_, hz.once, fun _ => hz.before (.inl (by rw [hpc]; rfl))⟩
    intro q hq
    simp only [ExchangePc.enqueuing.injEq] at hq
    exact hq ▸ ⟨rfl, rfl⟩
  | removed hi hpc _ hx _ _ hsame =>
    refine set hi hx hsame fun hz => ⟨fun q hq => by simp at hq, hz.once, ?_⟩
    rintro (h | ⟨q, h⟩) <;> cases h
  | cleaned hi hpc _ hx _ _ hsame =>
    refine set hi hx hsame fun hz => ⟨fun q hq => by simp at hq, hz.once, ?_⟩
    rintro (h | ⟨q, h⟩) <;> cases h
  | @answer text frame id r entry _ _ _ _ _ hx _ _ hsame =>
    refine ⟨fun {i y} hy => ?_, fun i hi => ?_⟩
    · rw [hsame]
      rw [hx] at hy
      obtain ⟨z, hz, rfl⟩ := getElem?_modify_cases hy
      split
      · exact (hs hz).channel .held
      · exact hs hz
    · rw [hsame]
      rw [hx, holdSender, List.length_modify] at hi
      exact hb i hi
  | @settles k r _ hs' =>
    refine ⟨fun {i y} hy => modify (g := fun z => if k = i then z.deliver r else z) ?_ (fun z => ?_)
      (by rw [hs']; rfl) hy, fun i hi => ?_⟩
    · rw [hs']
      simp only [deliver, List.getElem?_modify]
      rfl
    · by_cases hki : k = i <;> simp only [hki, if_true, if_false]
      · exact ⟨_, rfl⟩
      · exact ⟨z.channel, rfl⟩
    · rw [hs'] at hi ⊢
      exact hb i (by simpa [deliver] using hi)
  | drains _ hs' =>
    refine ⟨fun {i y} hy => modify (g := fun z => if i ∈ s.pending.map PendingEntry.exchange then
      { z with channel := .held } else z) ?_ (fun z => ?_) (by rw [hs']) hy, fun i hi => ?_⟩
    · rw [hs']
      exact Table.getElem?_foldl_holdSender s.pending s.exchanges i
    · split
      · exact ⟨_, rfl⟩
      · exact ⟨z.channel, rfl⟩
    · rw [hs'] at hi ⊢
      simp only [Table.length_foldl_holdSender] at hi
      exact hb i hi
  | @finishSettle entry _ _ hs' =>
    refine ⟨fun {i y} hy => modify
      (g := fun z => if entry.exchange = i then z.deliver .closed else z) ?_ (fun z => ?_)
      (by rw [hs']; rfl) hy, fun i hi => ?_⟩
    · rw [hs']
      simp only [release, deliver, List.getElem?_modify]
      rfl
    · by_cases hki : entry.exchange = i <;> simp only [hki, if_true, if_false]
      · exact ⟨_, rfl⟩
      · exact ⟨z.channel, rfl⟩
    · rw [hs'] at hi ⊢
      exact hb i (by simpa [deliver, release] using hi)

/-- **A sender is taken for an answer** with the id of its call. -/
theorem RequestStep.settling (h : RequestStep J s s') {r : Settlement}
    (hdrive : s'.drive = .settling i r) : s.drive = .settling i r ∨
      ∃ text frame entry, Frame.parse text = .ok frame ∧ s.counts text = true ∧
        AnswerFrame J s frame entry.id r ∧ entry ∈ s.pending ∧ entry.exchange = i ∧
        s'.received = s.received ++ [text] ∧ s'.exchanges = holdSender s.exchanges entry := by
  cases h with
  | quiet _ _ _ _ ha => exact .inl (ha.settling i r hdrive)
  | called _ _ _ _ _ _ _ ha => exact .inl (ha.settling i r hdrive)
  | moves _ _ _ _ _ _ ha => exact .inl (ha.settling i r hdrive)
  | accepted _ _ _ _ _ _ ha => exact .inl (ha.settling i r hdrive)
  | registered _ _ _ _ _ _ _ ha => exact .inl (ha.settling i r hdrive)
  | removed _ _ _ _ _ _ _ ha => exact .inl (ha.settling i r hdrive)
  | cleaned _ _ _ _ _ _ _ ha => exact .inl (ha.settling i r hdrive)
  | @answer text frame id r' entry _ hsize hparse hanswer hfound hx _ _ _ hd hheard =>
    rw [hd] at hdrive
    cases hdrive
    have hid : entry.id = id := by simpa using List.find?_some hfound
    exact .inr ⟨text, frame, entry, hparse, counts_of_parse hsize hparse, hid ▸ hanswer,
      List.mem_of_find?_eq_some hfound, rfl, hheard, hx⟩
  | settles _ hs => rw [hs] at hdrive; cases hdrive
  | drains _ hs => rw [hs] at hdrive; cases hdrive
  | finishSettle _ hs => rw [hs] at hdrive; cases hdrive

/-- The answer just heard settles the call whose id it carries. -/
theorem SettledBy.heard (hreach : (machine J).Reachable s) (h : Step J s e s') {text : String}
    {frame : Frame} {id : String} {r : Settlement} (hparse : Frame.parse text = .ok frame)
    (hcounts : s.counts text = true) (hanswer : AnswerFrame J s frame id r)
    (hheard : s'.received = s.received ++ [text]) : SettledBy J s' id r := by
  obtain ⟨hid, hlimits⟩ := h.constant
  have hat : s'.received[s.received.length]? = some text := by simp [hheard]
  have hcounts' : s'.counts text = true := by rwa [counts_congr hlimits]
  cases hanswer with
  | ack id payload =>
    exact ⟨arrival_eq hreach hid hlimits hheard hcounts, text, hat, hcounts', hparse⟩
  | nak id payload => exact ⟨text, payload, hat, hparse, rfl⟩

/-- **The registry is kept in every run.** -/
theorem registry_of_reachable (h : (machine J).Reachable s) : Registry J s := by
  refine h.invariant_of ?_ ?_
  · rintro s ⟨id, limits, handlers, budget, elsewhere, rfl⟩
    exact ⟨.nil, fun h => by simp [spawn] at h, (fun h => by cases h),
      fun h => by simp [spawn] at h, fun _ _ => rfl⟩
  · intro s e s' hreach _ hn ih
    have h := step_of_next hn
    have hr := h.request
    have hclosed : s.drive.drained = true → s.isOpen = false := fun hd =>
      notOpen_of_stage hreach (by have := DrivePc.stage_of_drained hd; omega)
    obtain ⟨hsends, hbeyond⟩ := hr.sends ih.sends ih.beyond
    have htable := hr.table hclosed ih.table
    refine ⟨htable, ?_, ?_, hsends, hbeyond⟩
    · intro i y r hy hsettled
      rcases hr.origins hy with ⟨hu, hnone⟩ | ⟨x, hx, hid, hchannel, hout⟩
      · rw [hu, hnone] at hsettled
        rcases hsettled with h | h <;> cases h
      · rw [hid]
        rcases hsettled with hsent | hsettled
        · rcases hchannel r hsent with hsent | hdrive | ⟨rfl, hdrained⟩
          · exact (ih.answers hx (.inl hsent)).step h
          · exact (ih.settling hdrive hx).step h
          · exact hr.marks (ih.table.drained.mpr hdrained)
        · rcases hout r hsettled with hout | hsent
          · exact (ih.answers hx (.inr hout)).step h
          · exact (ih.answers hx (.inl hsent)).step h
    · intro i y r hdrive hy
      obtain ⟨y', hy', hheld⟩ := htable.held i (by rw [hdrive]; exact List.mem_singleton_self i)
      rw [hy, Option.some.injEq] at hy'
      subst hy'
      obtain ⟨x, hx, hid⟩ : ∃ x, s.exchanges[i]? = some x ∧ y.id = x.id := by
        rcases hr.origins hy with ⟨hu, -⟩ | ⟨x, hx, hid, -⟩
        · rw [hu] at hheld
          cases hheld
        · exact ⟨x, hx, hid⟩
      rw [hid]
      rcases hr.settling hdrive with hold | ⟨text, frame, entry, hparse, hcounts, hanswer, hmem,
        rfl, hheard, -⟩
      · exact (ih.settling hold hx).step h
      · obtain ⟨z, hz, hzid, -⟩ := ih.table.entry entry hmem
        rw [hx, Option.some.injEq] at hz
        rw [hz, hzid]
        exact SettledBy.heard hreach h hparse hcounts hanswer hheard

/-- A call that was not there before is the one that is made. -/
theorem RequestStep.made (h : RequestStep J s s') (hlen : s.exchanges.length ≤ i)
    (hy : s'.exchanges[i]? = some y) : y.Made J := by
  have hlt := (List.getElem?_eq_some_iff.mp hy).1
  have same : s'.exchanges.length = s.exchanges.length → y.Made J := fun hsame => by omega
  cases h with
  | called _ _ _ hs _ _ _ _ hmade =>
    rcases getElem?_concat_cases (hs ▸ hy) with ⟨-, rfl⟩ | hold
    · exact hmade
    · have := (List.getElem?_eq_some_iff.mp hold).1
      omega
  | quiet hs => exact same (by rw [hs])
  | moves _ _ hs => exact same (by rw [hs, List.length_set])
  | accepted _ _ hs => exact same (by rw [hs, List.length_set])
  | registered _ _ _ hs => exact same (by rw [hs, List.length_set])
  | removed _ _ _ hs => exact same (by rw [hs, List.length_set])
  | cleaned _ _ _ hs => exact same (by rw [hs, List.length_set])
  | answer _ _ _ _ _ hs => exact same (by rw [hs, holdSender, List.length_modify])
  | settles _ hs => exact same (by rw [hs]; exact List.length_modify ..)
  | drains _ hs => exact same (by rw [hs]; exact Table.length_foldl_holdSender _ _)
  | finishSettle _ hs => exact same (by rw [hs]; exact List.length_modify ..)

/-- **Every call has an id, and the text of its message**, in every run. -/
theorem made_of_reachable (h : (machine J).Reachable s) (hx : s.exchanges[i]? = some x) :
    x.Made J := by
  refine h.invariant (P := fun s => ∀ (i : ℕ) (x : Exchange), s.exchanges[i]? = some x → x.Made J)
    ?_ ?_ i x hx
  · rintro s ⟨id, limits, handlers, budget, elsewhere, rfl⟩ i x hx
    simp [spawn] at hx
  · intro s e s' _ hn ih i y hy
    have hr := (step_of_next hn).request
    rcases Nat.lt_or_ge i s.exchanges.length with hlt | hge
    · have hx := List.getElem?_eq_getElem hlt
      obtain ⟨z, hz, hid, hpayload, hmessage, -⟩ := hr.keeps hx
      obtain rfl : z = y := Option.some.inj (hz.symm.trans hy)
      have hmade := ih i _ hx
      refine ⟨hid ▸ hmade.id, fun message hm => ?_⟩
      rw [hpayload]
      exact hmade.payload message (hmessage ▸ hm)
    · exact hr.made hge hy

/-- A frame in the name of a call is the frame of that call. -/
theorem call_of_accepted (h : (machine J).Reachable s) {a : Accepted} (ha : a ∈ s.accepted)
    (ho : a.origin = .exchange i) : ∃ x, s.exchanges[i]? = some x ∧ a.text = x.text ∧
      s.sentBy (.exchange i) = [⟨false, x.text, .exchange i⟩] := by
  have hr := registry_of_reachable h
  have hmem : a ∈ s.sentBy (.exchange i) := List.mem_filter.mpr ⟨ha, by simpa using ho⟩
  have hlt : i < s.exchanges.length := by
    by_contra hge
    rw [hr.beyond i (by omega)] at hmem
    cases hmem
  have hx := List.getElem?_eq_getElem hlt
  refine ⟨_, hx, ?_⟩
  rcases (hr.sends hx).once with hnone | hone
  · rw [hnone] at hmem
    cases hmem
  · rw [hone, List.mem_singleton] at hmem
    exact ⟨by rw [hmem], hone⟩

/-! ## Exactly-once settlement -/

/-- A step at which the call of an entry registers: open, and with the entry's id. -/
def Registers (s s' : Session) (entry : PendingEntry) : Prop :=
  s.isOpen = true ∧ ∃ x y, s.exchanges[entry.exchange]? = some x ∧ x.id = entry.id ∧
    x.pc = .registering entry.permit ∧ s'.exchanges[entry.exchange]? = some y ∧ y.pc.active = true

/-- **What takes an entry out of the map**: an answer of its id is heard, the
map is drained, or the call of the entry ends. -/
inductive TakesOut (J : JsonText) (s s' : Session) (entry : PendingEntry) : Prop
  | answered {text : String} {frame : Frame} {r : Settlement} (hdrive : s.drive = .reading)
      (hsize : text.utf8ByteSize ≤ s.limits.maxMessageBytes)
      (hparse : Frame.parse text = .ok frame) (hanswer : AnswerFrame J s frame entry.id r)
      (hheard : s'.received = s.received ++ [text])
  | drained (hdrive : s.drive = .finishDrain) (hsettle : s'.drive = .finishSettle s.pending)
  | ended {x y : Exchange} {o : Outcome} (hx : s.exchanges[entry.exchange]? = some x)
      (hid : x.id = entry.id) (hpc : x.pc = .cleaning o)
      (hy : s'.exchanges[entry.exchange]? = some y) (hdone : y.pc = .done o)

/-- The calls of a run keep their outcomes. -/
theorem outcome_of_path (h : (machine J).Path Machine.free s s') {o : Outcome}
    (hx : s.exchanges[i]? = some x) (ho : x.outcome = some o) :
    ∃ y, s'.exchanges[i]? = some y ∧ y.id = x.id ∧ y.outcome = some o := by
  refine h.preserves (P := fun t => ∃ y, t.exchanges[i]? = some y ∧ y.id = x.id ∧
    y.outcome = some o) ?_ ⟨x, hx, rfl, ho⟩
  rintro t e t' - hn ⟨y, hy, hid, hout⟩
  obtain ⟨z, hz, hzid, -, -, hzout⟩ := (step_of_next hn).request.keeps hy
  exact ⟨z, hz, hzid.trans hid, hzout o hout⟩

/-- **The drain leaves nobody behind**: whoever registered has an outcome, or
is about to get one from the drain. -/
theorem settled_of_drained (h : (machine J).Reachable s) (hd : .drained ∈ s.marks)
    (hx : s.exchanges[i]? = some x) (hreg : .registered i ∈ s.marks) :
    x.outcome.isSome = true ∨ (∃ r, x.channel = .sent r ∧ SettledBy J s x.id r) ∨
      ∃ left, s.drive = .finishSettle left ∧ i ∈ left.map PendingEntry.exchange := by
  have hr := registry_of_reachable h
  have hover := hr.table.drained.mp hd
  have hne := (hr.table.noted hx).registered.mp hreg
  cases hch : x.channel with
  | unregistered => exact absurd hch hne
  | pending =>
    obtain ⟨p, hmem⟩ := hr.table.pending hx hch
    rw [hr.table.empty hover] at hmem
    cases hmem
  | held =>
    have hmem := hr.table.holder hx hch
    cases hdrive : s.drive with
    | finishSettle left =>
      rw [hdrive] at hmem
      exact .inr (.inr ⟨left, rfl, hmem⟩)
    | _ => simp_all [DrivePc.holds, DrivePc.drained]
  | sent r => exact .inr (.inl ⟨r, rfl, hr.answers hx (.inl hch)⟩)
  | gone => exact .inl ((hr.table.fits hx).gone hch)

/-! ## Into the map and out of it -/

/-- **A call that is over is out of the map**, and bears its end where it was in it. -/
theorem out_of_done (hr : Registry J s) (hx : s.exchanges[i]? = some x) {o : Outcome}
    (hdone : x.pc = .done o) : (∀ entry ∈ s.pending, entry.id ≠ x.id) ∧
      (.registered i ∈ s.marks → .ended i ∈ s.marks) := by
  refine ⟨fun entry hmem hid => ?_, fun hreg => ?_⟩
  · obtain ⟨y, hy, -, hch⟩ := hr.table.entry entry hmem
    rw [hr.table.exchange_eq hx hmem hid, hx, Option.some.injEq] at hy
    subst hy
    exact (hr.table.fits hx).done o hdone hch
  · have hnoted := hr.table.noted hx
    exact hnoted.ended.mpr ⟨⟨o, hdone⟩, hnoted.registered.mp hreg⟩

/-- A use of the sender leaves the call where it is. -/
theorem pc_of_modify {calls : List Exchange} {f : Exchange → Exchange} {k : ℕ} {z : Exchange}
    (hf : ∀ x, (f x).pc = x.pc) (hx : calls[i]? = some x) (hz : (calls.modify k f)[i]? = some z) :
    z.pc = x.pc := by
  rw [List.getElem?_modify, hx] at hz
  obtain rfl := Option.some.inj hz
  split_ifs
  · exact hf x
  · rfl

/-- A call that is not in the map yet does not come behind the map by another move. -/
theorem CallMove.active_eq_false {pc : ExchangePc} (h : CallMove x pc) (hx : x.pc.admitting = true) :
    pc.active = false := by
  cases h with
  | admits _ hpc => cases pc <;> first | rfl | cases hpc
  | refused => rfl
  | goes hpc | fails hpc | settled hpc | orphaned hpc | timedOut hpc | abandoned hpc =>
    rw [hpc] at hx
    cases hx

/-- **A call that registers has its entry in the map.** -/
theorem RequestStep.registers (h : RequestStep J s s') {entry : PendingEntry}
    (hreg : Registers s s' entry) : entry ∈ s'.pending := by
  obtain ⟨-, x, y, hx, hid, hpc, hy, hactive⟩ := hreg
  -- a call that stays where it is does not register
  have still : y.pc = x.pc → entry ∈ s'.pending := by
    intro hsame
    rw [hsame, hpc] at hactive
    cases hactive
  -- nor does one while another moves
  have set : ∀ {i : ℕ} {z z' : Exchange}, s.exchanges[i]? = some z →
      s'.exchanges = s.exchanges.set i z' →
      (i = entry.exchange → z = x → z' = y → entry ∈ s'.pending) → entry ∈ s'.pending := by
    intro i z z' hi hset hself
    rw [hset] at hy
    rcases getElem?_set_cases hy with ⟨rfl, rfl⟩ | ⟨-, hold⟩
    · exact hself rfl (Option.some.inj (hi.symm.trans hx)) rfl
    · exact still (by rw [Option.some.inj (hold.symm.trans hx)])
  cases h with
  | quiet hsame =>
    rw [hsame, hx, Option.some.injEq] at hy
    exact still (by rw [hy])
  | called _ _ _ hcalls =>
    rw [hcalls, getElem?_append_some hx, Option.some.injEq] at hy
    exact still (by rw [hy])
  | moves hi hmove hset =>
    refine set hi hset fun _ hz hz' => ?_
    subst hz hz'
    rw [hmove.active_eq_false (by rw [hpc]; rfl)] at hactive
    cases hactive
  | accepted hi hpc' hset =>
    refine set hi hset fun _ hz _ => ?_
    rw [hz, hpc] at hpc'
    cases hpc'
  | registered hi hpc' _ hset hp =>
    refine set hi hset fun hentry hz _ => ?_
    rw [hz, hpc, ExchangePc.registering.injEq] at hpc'
    rw [hp, hentry, hz, hid, ← hpc']
    exact List.mem_cons_self
  | removed hi hpc' _ hset =>
    refine set hi hset fun _ hz _ => ?_
    rw [hz, hpc] at hpc'
    cases hpc'
  | cleaned hi hpc' _ hset =>
    refine set hi hset fun _ hz _ => ?_
    rw [hz, hpc] at hpc'
    cases hpc'
  | answer _ _ _ _ _ hset =>
    rw [hset] at hy
    exact still (pc_of_modify (f := fun x => { x with channel := .held }) (fun _ => rfl) hx hy)
  | @settles i r _ hs =>
    rw [hs] at hy
    exact still (pc_of_modify (f := (·.deliver r)) (fun _ => rfl) hx hy)
  | drains _ hs =>
    rw [hs] at hy
    simp only [Table.getElem?_foldl_holdSender, hx, Option.map_some, Option.some.injEq] at hy
    exact still (by rw [← hy]; split_ifs <;> rfl)
  | finishSettle _ hs =>
    rw [hs] at hy
    exact still (pc_of_modify (f := (·.deliver .closed)) (fun _ => rfl) hx hy)

/-- **An entry is taken out by an answer, the drain or the end of its call.** -/
theorem RequestStep.leaves (h : RequestStep J s s') (hr : Registry J s) {entry : PendingEntry}
    (hmem : entry ∈ s.pending) (hgone : entry ∉ s'.pending) : TakesOut J s s' entry := by
  have same : s'.pending = s.pending → TakesOut J s s' entry := fun hp => absurd (hp ▸ hmem) hgone
  -- the entry a filter drops has the id that is filtered
  have dropped : ∀ {e : PendingEntry}, s'.pending = s.pending.filter (·.id ≠ e.id) →
      entry.id = e.id := by
    intro e hp
    by_contra hne
    exact hgone (hp ▸ List.mem_filter.mpr ⟨hmem, by simpa using hne⟩)
  cases h with
  | quiet _ hp => exact same hp
  | called _ _ _ _ hp => exact same hp
  | moves _ _ _ hp => exact same hp
  | accepted _ _ _ hp => exact same hp
  | registered _ _ _ _ hp => exact absurd (hp ▸ List.mem_cons_of_mem _ hmem) hgone
  | @removed i x o e hi hpc hfound hx hp =>
    have hid : entry.id = x.id := (dropped hp).trans (by simpa using List.find?_some hfound)
    have hcall : entry.exchange = i := hr.table.exchange_eq hi hmem hid
    subst hcall
    exact .ended hi hid.symm hpc (by rw [hx]; exact getElem?_set_self' hi) rfl
  | cleaned _ _ _ _ hp => exact same hp
  | answer hdrive hsize hparse hanswer hfound _ hp _ _ _ hheard =>
    have hid := (dropped hp).trans (by simpa using List.find?_some hfound)
    exact .answered hdrive hsize hparse (hid ▸ hanswer) hheard
  | settles _ hs => exact same (by rw [hs]; rfl)
  | drains hdrive hs => exact .drained hdrive (by rw [hs])
  | finishSettle _ hs => exact same (by rw [hs]; rfl)

/-- No entry has the id of an answer that was heard. -/
theorem ReceiveStep.answered {text : String} {frame : Frame} {id : String} {r : Settlement}
    (h : ReceiveStep J s text s') (hsize : text.utf8ByteSize ≤ s.limits.maxMessageBytes)
    (hparse : Frame.parse text = .ok frame) (hanswer : AnswerFrame J s frame id r) :
    ∀ entry ∈ s'.pending, entry.id ≠ id := by
  -- a frame of another kind is not an answer
  have other : ∀ {frame' : Frame}, Frame.parse text = .ok frame' →
      AnswerFrame J s frame' id r := fun hparse' => by
    rw [hparse, Except.ok.injEq] at hparse'
    exact hparse' ▸ hanswer
  have own : ∀ {frame' : Frame} {id' : String} {r' : Settlement}, Frame.parse text = .ok frame' →
      AnswerFrame J s frame' id' r' → id' = id := by
    intro frame' id' r' hparse' hanswer'
    have hthis := other hparse'
    cases hanswer' <;> cases hthis <;> rfl
  cases h with
  | tooLarge hlarge => omega
  | invalid hinvalid =>
    rw [hparse] at hinvalid
    cases hinvalid
  | ignored _ hparse' => cases other hparse'
  | heartbeat _ hparse' => cases other hparse'
  | message _ hparse' => cases other hparse'
  | @answer frame' id' r' entry _ hparse' hanswer' hfound =>
    obtain rfl := own hparse' hanswer'
    have hid : entry.id = id' := by simpa using List.find?_some hfound
    intro e hmem
    simpa [hid] using (List.mem_filter.mp hmem).2
  | late _ hparse' hanswer' hnone =>
    obtain rfl := own hparse' hanswer'
    intro e hmem
    simpa using List.find?_eq_none.mp hnone e hmem

/-- **Each of them takes it out.** -/
theorem TakesOut.not_mem {entry : PendingEntry} (h : TakesOut J s s' entry)
    (hn : (machine J).next s e = some s') (hr : Registry J s') : entry ∉ s'.pending := by
  intro hmem
  have hreq := (step_of_next hn).request
  cases h with
  | answered hdrive hsize hparse hanswer hheard =>
    rcases (step_of_next hn).hears with ⟨hsame, -⟩ | ⟨text', -, hstep⟩
    · rw [hsame] at hheard
      simp at hheard
    · have htext := hstep.received
      rw [hheard, List.append_cancel_left_eq, List.singleton_inj] at htext
      subst htext
      exact hstep.answered hsize hparse hanswer entry hmem rfl
  | drained hdrive hsettle =>
    have hdrained : s'.drive.drained = true := by rw [hsettle]; rfl
    rw [hr.table.empty hdrained] at hmem
    cases hmem
  | ended hx hid hpc hy hdone =>
    obtain ⟨z, hz, hzid, -⟩ := hreq.keeps hx
    rw [hy, Option.some.injEq] at hz
    subst hz
    exact (out_of_done hr hy hdone).1 entry hmem (hid.symm.trans hzid.symm)

end Session

end Vcmp
