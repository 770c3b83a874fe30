import Vcmp.Session.Requests
/-!
# The pending map as a table

A call that registered is in the map until somebody takes it out: an
answer, the closing drain, or its own end. `Table` is that picture, over
the calls, the entries, the marks and the senders taken out and not yet
used, and every operation on the map keeps it.
-/

namespace Vcmp

/-- Registered and not emptied. -/
def ExchangePc.active : ExchangePc → Bool
  | .enqueuing _ | .awaiting | .cleaning _ => true
  | _ => false

/-- **A call and its channel fit together.** -/
structure Exchange.Fits (x : Exchange) : Prop where
  admitting : x.pc.admitting = true → x.channel = .unregistered
  active : x.pc.active = true → x.channel ≠ .unregistered
  done : ∀ o, x.pc = .done o → x.channel ≠ .pending
  /-- A sender is only dropped unused where nobody waits. -/
  gone : x.channel = .gone → x.outcome.isSome = true

/-- **The marks of a call say where its sender is.** -/
structure Noted (marks : List Mark) (i : ℕ) (x : Exchange) : Prop where
  registered : .registered i ∈ marks ↔ x.channel ≠ .unregistered
  ended : .ended i ∈ marks ↔ (∃ o, x.pc = .done o) ∧ x.channel ≠ .unregistered
  answered : .answered i ∈ marks → x.channel ≠ .pending ∧ x.channel ≠ .unregistered
  taken : x.channel ≠ .unregistered → x.channel ≠ .pending →
    .answered i ∈ marks ∨ .ended i ∈ marks ∨ .drained ∈ marks

/-- **The table of the requests.** -/
structure Table (calls : List Exchange) (entries : List PendingEntry) (marks : List Mark)
    (holds : List ℕ) (emptied : Bool) : Prop where
  ids : ∀ {i j : ℕ} {x y : Exchange}, calls[i]? = some x → calls[j]? = some y → x.id = y.id → i = j
  fits : ∀ {i : ℕ} {x : Exchange}, calls[i]? = some x → x.Fits
  noted : ∀ {i : ℕ} {x : Exchange}, calls[i]? = some x → Noted marks i x
  /-- Only calls are marked. -/
  marked : ∀ i, .registered i ∈ marks ∨ .answered i ∈ marks ∨ .ended i ∈ marks → i < calls.length
  /-- An entry is of a call that is pending, -/
  entry : ∀ e ∈ entries, ∃ x, calls[e.exchange]? = some x ∧ x.id = e.id ∧ x.channel = .pending
  /-- and a call that is pending has one. -/
  pending : ∀ {i : ℕ} {x : Exchange}, calls[i]? = some x → x.channel = .pending →
    ∃ p, (⟨x.id, i, p⟩ : PendingEntry) ∈ entries
  once : (entries.map PendingEntry.exchange).Nodup
  /-- A sender held is of a call, -/
  held : ∀ i ∈ holds, ∃ x, calls[i]? = some x ∧ x.channel = .held
  /-- and a call whose sender is out of the map is held. -/
  holder : ∀ {i : ℕ} {x : Exchange}, calls[i]? = some x → x.channel = .held → i ∈ holds
  distinct : holds.Nodup
  drained : .drained ∈ marks ↔ emptied = true
  empty : emptied = true → entries = []

namespace Noted

variable {marks : List Mark} {i : ℕ} {x : Exchange} {m : Mark}

/-- A mark about something else changes nothing for a call. -/
theorem cons (h : Noted marks i x)
    (hm : m ≠ .registered i ∧ m ≠ .answered i ∧ m ≠ .ended i) : Noted (m :: marks) i x where
  registered := by
    rw [List.mem_cons, h.registered]
    simp [hm.1.symm]
  ended := by
    rw [List.mem_cons, h.ended]
    simp [hm.2.2.symm]
  answered ha := by
    rcases List.mem_cons.mp ha with ha | ha
    · exact absurd ha.symm hm.2.1
    · exact h.answered ha
  taken hu hp := (h.taken hu hp).imp (List.mem_cons_of_mem _)
    (Or.imp (List.mem_cons_of_mem _) (List.mem_cons_of_mem _))

end Noted

namespace Table

variable {calls : List Exchange} {entries : List PendingEntry} {marks : List Mark}
  {holds : List ℕ} {emptied : Bool} {i : ℕ} {x : Exchange}

theorem nil : Table [] [] [] [] false where
  ids h := by simp at h
  fits h := by simp at h
  noted h := by simp at h
  marked i h := by simp at h
  entry e h := by simp at h
  pending h := by simp at h
  once := .nil
  held i h := by simp at h
  holder h := by simp at h
  distinct := .nil
  drained := by simp
  empty h := by simp at h

/-- A call that has not registered bears no mark. -/
theorem unmarked (h : Table calls entries marks holds emptied) (hi : calls[i]? = some x)
    (hu : x.channel = .unregistered) :
    .registered i ∉ marks ∧ .answered i ∉ marks ∧ .ended i ∉ marks := by
  have hn := h.noted hi
  refine ⟨fun hm => hn.registered.mp hm hu, fun hm => (hn.answered hm).2 hu,
    fun hm => (hn.ended.mp hm).2 hu⟩

/-- An entry with the id of a call is the call's. -/
theorem exchange_eq (h : Table calls entries marks holds emptied) (hi : calls[i]? = some x)
    {e : PendingEntry} (he : e ∈ entries) (hid : e.id = x.id) : e.exchange = i := by
  obtain ⟨y, hy, hyid, -⟩ := h.entry e he
  exact h.ids hy hi (hyid.trans hid)

/-- No two entries have one id. -/
theorem entry_ids (h : Table calls entries marks holds emptied) :
    (entries.map PendingEntry.id).Nodup := by
  have honce := h.once
  have hnodup : entries.Nodup := List.Nodup.of_map _ honce
  refine (List.nodup_map_iff_inj_on hnodup).mpr fun e he e' he' hid => ?_
  obtain ⟨x, hx, hxid, -⟩ := h.entry e he
  have hsame : e'.exchange = e.exchange := h.exchange_eq hx he' (by rw [← hid, hxid])
  exact (List.nodup_map_iff_inj_on hnodup).mp honce e he e' he' hsame.symm

/-- A new call. -/
theorem called (h : Table calls entries marks holds emptied)
    (hfresh : ∀ y ∈ calls, y.id ≠ x.id) (hpc : x.pc = .start)
    (hchannel : x.channel = .unregistered) :
    Table (calls ++ [x]) entries marks holds emptied where
  ids := by
    intro i j y z hy hz hid
    rcases getElem?_concat_cases hy with ⟨rfl, rfl⟩ | hy' <;>
      rcases getElem?_concat_cases hz with ⟨rfl, rfl⟩ | hz'
    · rfl
    · exact absurd hid.symm (hfresh _ (List.mem_of_getElem? hz'))
    · exact absurd hid (hfresh _ (List.mem_of_getElem? hy'))
    · exact h.ids hy' hz' hid
  fits := by
    intro i y hy
    rcases getElem?_concat_cases hy with ⟨rfl, rfl⟩ | hy'
    · exact ⟨fun _ => hchannel, fun ha => by simp [hpc, ExchangePc.active] at ha,
        fun o ho => by simp [hpc] at ho, fun hg => by simp [hchannel] at hg⟩
    · exact h.fits hy'
  noted := by
    intro i y hy
    rcases getElem?_concat_cases hy with ⟨rfl, rfl⟩ | hy'
    · have hmarked := h.marked calls.length
      simp only [lt_irrefl, imp_false, not_or] at hmarked
      exact ⟨by simp [hmarked, hchannel], by simp [hmarked, hpc], fun ha => absurd ha hmarked.2.1,
        fun hu => absurd hchannel hu⟩
    · exact h.noted hy'
  marked i hi := by
    have := h.marked i hi
    rw [List.length_append]
    omega
  entry e he := by
    obtain ⟨y, hy, hrest⟩ := h.entry e he
    exact ⟨y, by rw [getElem?_append_some hy], hrest⟩
  pending := by
    intro i y hy hp
    rcases getElem?_concat_cases hy with ⟨rfl, rfl⟩ | hy'
    · rw [hchannel] at hp
      cases hp
    · exact h.pending hy' hp
  once := h.once
  held i hi := by
    obtain ⟨y, hy, hrest⟩ := h.held i hi
    exact ⟨y, by rw [getElem?_append_some hy], hrest⟩
  holder := by
    intro i y hy hh
    rcases getElem?_concat_cases hy with ⟨rfl, rfl⟩ | hy'
    · rw [hchannel] at hh
      cases hh
    · exact h.holder hy' hh
  distinct := h.distinct
  drained := h.drained
  empty := h.empty

/-- **A call replaced by itself further on**: what remains to show is what
the table says of that call. -/
theorem set (h : Table calls entries marks holds emptied) (hi : calls[i]? = some x) {y : Exchange}
    {entries' : List PendingEntry} {marks' : List Mark} {holds' : List ℕ} {emptied' : Bool}
    (hid : y.id = x.id) (hfits : y.Fits) (hnoted : Noted marks' i y)
    (hothers : ∀ {j : ℕ} {z : Exchange}, j ≠ i → calls[j]? = some z → Noted marks' j z)
    (hmarked : ∀ j, .registered j ∈ marks' ∨ .answered j ∈ marks' ∨ .ended j ∈ marks' →
      j < calls.length)
    (hentry : ∀ e ∈ entries', (e.exchange = i → e.id = x.id ∧ y.channel = .pending) ∧
      (e.exchange ≠ i → e ∈ entries))
    (hpending : y.channel = .pending → ∃ p, (⟨x.id, i, p⟩ : PendingEntry) ∈ entries')
    (hpending' : ∀ e ∈ entries, e.exchange ≠ i → e ∈ entries')
    (honce : (entries'.map PendingEntry.exchange).Nodup)
    (hheld : ∀ j, j ∈ holds' ↔ (j = i ∧ y.channel = .held) ∨ (j ≠ i ∧ j ∈ holds))
    (hdistinct : holds'.Nodup) (hdrained : .drained ∈ marks' ↔ emptied' = true)
    (hempty : emptied' = true → entries' = []) :
    Table (calls.set i y) entries' marks' holds' emptied' where
  ids := by
    intro j k z w hz hw hzw
    rcases getElem?_set_cases hz with ⟨rfl, rfl⟩ | ⟨-, hz'⟩ <;>
      rcases getElem?_set_cases hw with ⟨rfl, rfl⟩ | ⟨-, hw'⟩
    · rfl
    · exact h.ids hi hw' (hid ▸ hzw)
    · exact h.ids hz' hi (hzw.trans hid)
    · exact h.ids hz' hw' hzw
  fits := by
    intro j z hz
    rcases getElem?_set_cases hz with ⟨rfl, rfl⟩ | ⟨-, hz'⟩
    · exact hfits
    · exact h.fits hz'
  noted := by
    intro j z hz
    rcases getElem?_set_cases hz with ⟨rfl, rfl⟩ | ⟨hne, hz'⟩
    · exact hnoted
    · exact hothers hne hz'
  marked j hj := by
    rw [List.length_set]
    exact hmarked j hj
  entry e he := by
    by_cases hei : e.exchange = i
    · obtain ⟨heid, hch⟩ := (hentry e he).1 hei
      exact ⟨y, by rw [hei]; exact getElem?_set_self' hi, by rw [hid, heid], hch⟩
    · obtain ⟨z, hz, hrest⟩ := h.entry e ((hentry e he).2 hei)
      exact ⟨z, by rw [List.getElem?_set_ne (Ne.symm hei), hz], hrest⟩
  pending := by
    intro j z hz hp
    rcases getElem?_set_cases hz with ⟨rfl, rfl⟩ | ⟨hne, hz'⟩
    · rw [hid]
      exact hpending hp
    · obtain ⟨p, he⟩ := h.pending hz' hp
      exact ⟨p, hpending' _ he hne⟩
  once := honce
  held j hj := by
    rcases (hheld j).mp hj with ⟨rfl, hch⟩ | ⟨hne, hj⟩
    · exact ⟨y, getElem?_set_self' hi, hch⟩
    · obtain ⟨z, hz, hrest⟩ := h.held j hj
      exact ⟨z, by rw [List.getElem?_set_ne (Ne.symm hne), hz], hrest⟩
  holder := by
    intro j z hz hh
    rcases getElem?_set_cases hz with ⟨rfl, rfl⟩ | ⟨hne, hz'⟩
    · exact (hheld j).mpr (.inl ⟨rfl, hh⟩)
    · exact (hheld j).mpr (.inr ⟨hne, h.holder hz' hh⟩)
  distinct := hdistinct
  drained := hdrained
  empty := hempty

/-- A call moves, its channel as it was. -/
theorem moves (h : Table calls entries marks holds emptied) (hi : calls[i]? = some x)
    {pc : ExchangePc} (hfits : { x with pc := pc : Exchange }.Fits)
    (hnoted : Noted marks i { x with pc := pc }) :
    Table (calls.set i { x with pc := pc }) entries marks holds emptied := by
  refine h.set hi rfl hfits hnoted (fun _ hz => h.noted hz) h.marked ?_
    (fun hp => h.pending hi hp) (fun e he _ => he) h.once ?_ h.distinct h.drained h.empty
  · intro e he
    refine ⟨fun hei => ?_, fun _ => he⟩
    obtain ⟨y, hy, hid, hch⟩ := h.entry e he
    rw [hei, hi, Option.some.injEq] at hy
    subst hy
    exact ⟨hid.symm, hch⟩
  · intro j
    by_cases hji : j = i
    · subst hji
      simp only [true_and, not_true_eq_false, false_and, or_false, ne_eq]
      refine ⟨fun hj => ?_, fun hch => h.holder hi hch⟩
      obtain ⟨y, hy, hch⟩ := h.held j hj
      rw [hi, Option.some.injEq] at hy
      exact hy ▸ hch
    · simp [hji]

/-- **A call registers**: its sender goes into the map. -/
theorem register (h : Table calls entries marks holds emptied) (hi : calls[i]? = some x)
    (hpc : x.pc.admitting = true) (hopen : emptied = false) {pc : ExchangePc}
    (hout : ∀ o, pc ≠ .done o) (hadmitting : pc.admitting = false)
    (p : Permit) :
    Table (calls.set i { x with pc := pc, channel := .pending }) (⟨x.id, i, p⟩ :: entries)
      (.registered i :: marks) holds emptied := by
  have hu : x.channel = .unregistered := (h.fits hi).admitting hpc
  have hunmarked := h.unmarked hi hu
  have hnodrain : .drained ∉ marks := fun hd => by
    rw [h.drained, hopen] at hd
    cases hd
  have hnew : ∀ e ∈ entries, e.exchange ≠ i := by
    rintro e he rfl
    obtain ⟨y, hy, -, hch⟩ := h.entry e he
    rw [hi, Option.some.injEq] at hy
    rw [← hy, hu] at hch
    cases hch
  refine h.set hi rfl ?_ ?_ ?_ ?_ ?_ (fun _ => ⟨p, List.mem_cons_self⟩)
    (fun e he _ => List.mem_cons_of_mem _ he) ?_ ?_ h.distinct ?_ ?_
  · exact ⟨fun ha => by simp [hadmitting] at ha, fun _ => by simp, fun o ho => absurd ho (hout o),
      fun hg => by simp at hg⟩
  · exact ⟨by simp, by simp [hunmarked, hout], fun ha => by simp [hunmarked] at ha,
      fun _ hp => by simp at hp⟩
  · intro j z hne hz
    exact (h.noted hz).cons ⟨by simp [hne.symm], by simp, by simp⟩
  · intro j hj
    by_cases hji : j = i
    · exact hji ▸ (List.getElem?_eq_some_iff.mp hi).1
    · refine h.marked j ?_
      simpa [hji] using hj
  · intro e he
    rcases List.mem_cons.mp he with rfl | he
    · exact ⟨fun _ => ⟨rfl, rfl⟩, fun hne => absurd rfl hne⟩
    · exact ⟨fun hei => absurd hei (hnew e he), fun _ => he⟩
  · rw [List.map_cons, List.nodup_cons]
    refine ⟨fun hmem => ?_, h.once⟩
    obtain ⟨e, he, hei⟩ := List.mem_map.mp hmem
    exact hnew e he hei
  · intro j
    by_cases hji : j = i
    · subst hji
      simp only [reduceCtorEq, and_false, ne_eq, not_true_eq_false, false_and, or_self, iff_false]
      intro hj
      obtain ⟨y, hy, hch⟩ := h.held j hj
      rw [hi, Option.some.injEq] at hy
      rw [← hy, hu] at hch
      cases hch
    · simp [hji]
  · simp [hnodrain, hopen]
  · simp [hopen]

/-- **An entry is taken out**: by an answer, or by the end of the call. -/
theorem take (h : Table calls entries marks holds emptied) {e : PendingEntry} (he : e ∈ entries)
    (hi : calls[i]? = some x) (hid : e.id = x.id) {y : Exchange} {m : Mark} {holds' : List ℕ}
    (hyid : y.id = x.id) (hfits : y.Fits) (hnoted : Noted (m :: marks) i y)
    (hm : m = .answered i ∨ m = .ended i) (hp : y.channel ≠ .pending)
    (hheld : ∀ j, j ∈ holds' ↔ (j = i ∧ y.channel = .held) ∨ (j ≠ i ∧ j ∈ holds))
    (hdistinct : holds'.Nodup) :
    Table (calls.set i y) (entries.filter (·.id ≠ e.id)) (m :: marks) holds' emptied := by
  have heid := h.exchange_eq hi he hid
  refine h.set hi hyid hfits hnoted ?_ ?_ ?_ (fun hch => absurd hch hp) ?_
    (h.once.sublist (List.filter_sublist.map _)) hheld hdistinct ?_ ?_
  · intro j z hne hz
    refine (h.noted hz).cons ?_
    rcases hm with rfl | rfl <;> simp [hne.symm]
  · intro j hj
    by_cases hji : j = i
    · exact hji ▸ (List.getElem?_eq_some_iff.mp hi).1
    · refine h.marked j ?_
      rcases hm with rfl | rfl <;> simpa [hji] using hj
  · intro e' he'
    obtain ⟨he'', hne⟩ := List.mem_filter.mp he'
    refine ⟨fun hei => ?_, fun _ => he''⟩
    obtain ⟨z, hz, hzid, -⟩ := h.entry e' he''
    rw [hei, hi, Option.some.injEq] at hz
    subst hz
    simp [hid, hzid] at hne
  · intro e' he' hne
    refine List.mem_filter.mpr ⟨he', ?_⟩
    simp only [ne_eq, decide_not, Bool.not_eq_true', decide_eq_false_iff_not]
    intro hee
    exact hne (h.exchange_eq hi he' (hee.trans hid))
  · rw [List.mem_cons, ← h.drained]
    rcases hm with rfl | rfl <;> simp
  · intro hover
    rw [h.empty hover] at he
    cases he

/-- **A held sender is used**, where somebody waits. -/
theorem deliver (h : Table calls entries marks (i :: holds) emptied) (r : Settlement) :
    Table (calls.modify i (·.deliver r)) entries marks holds emptied := by
  obtain ⟨x, hi, hch⟩ := h.held i List.mem_cons_self
  have hn := h.noted hi
  have hf := h.fits hi
  obtain ⟨hnot, hnodup⟩ := List.nodup_cons.mp h.distinct
  have hsent : (x.deliver r).channel ≠ .unregistered ∧ (x.deliver r).channel ≠ .pending ∧
      (x.deliver r).channel ≠ .held := by
    unfold Exchange.deliver
    split <;> simp
  have hpc : x.pc.admitting = false := by
    by_contra ha
    rw [hf.admitting (by simpa using ha)] at hch
    cases hch
  rw [modify_eq_set hi]
  refine h.set hi rfl ?_ ?_ (fun _ hz => h.noted hz) h.marked ?_ ?_ (fun e he _ => he) h.once ?_
    hnodup h.drained h.empty
  · refine ⟨fun ha => absurd ha (by simp [Exchange.deliver, hpc]), fun _ => hsent.1,
      fun _ _ => hsent.2.1, ?_⟩
    intro hg
    unfold Exchange.deliver at hg
    split at hg
    · cases hg
    · rename_i hl
      show x.outcome.isSome = true
      unfold Exchange.listens at hl
      unfold Exchange.outcome
      cases hxpc : x.pc <;> simp_all [ExchangePc.admitting]
  · have htaken := hn.taken (by simp [hch]) (by simp [hch])
    refine ⟨?_, ?_, fun _ => ⟨hsent.2.1, hsent.1⟩, fun _ _ => htaken⟩
    · rw [hn.registered]
      simp [hch, hsent.1]
    · have hpcs : (x.deliver r).pc = x.pc := rfl
      rw [hn.ended, hpcs]
      simp [hch, hsent.1]
  · intro e he
    refine ⟨fun hei => ?_, fun _ => he⟩
    obtain ⟨y, hy, -, hych⟩ := h.entry e he
    rw [hei, hi, Option.some.injEq] at hy
    rw [← hy, hch] at hych
    cases hych
  · intro hp
    exact absurd hp hsent.2.1
  · intro j
    by_cases hji : j = i
    · subst hji
      simp [hsent.2.2, hnot]
    · simp [hji]

/-- What holding the senders of some entries makes of a call. -/
theorem getElem?_foldl_holdSender (entries : List PendingEntry) (calls : List Exchange) (i : ℕ) :
    (entries.foldl Session.holdSender calls)[i]? = calls[i]?.map fun x =>
      if i ∈ entries.map PendingEntry.exchange then { x with channel := .held } else x := by
  induction entries generalizing calls with
  | nil => simp
  | cons e entries ih =>
    rw [List.foldl_cons, ih, Session.holdSender, List.getElem?_modify]
    by_cases hi : e.exchange = i
    · subst hi
      cases calls[e.exchange]? <;> simp
    · have hne : i ≠ e.exchange := Ne.symm hi
      cases calls[i]? <;> simp [hi, hne]

theorem length_foldl_holdSender (entries : List PendingEntry) (calls : List Exchange) :
    (entries.foldl Session.holdSender calls).length = calls.length := by
  induction entries generalizing calls with
  | nil => rfl
  | cons e entries ih => rw [List.foldl_cons, ih, Session.holdSender, List.length_modify]

/-- **The map is drained**: every sender in it is held now. -/
theorem drain (h : Table calls entries marks [] emptied) :
    Table (entries.foldl Session.holdSender calls) [] (.drained :: marks)
      (entries.map PendingEntry.exchange) true := by
  -- a call after the drain: the one before, its sender held if it was pending
  have back : ∀ {j : ℕ} {y : Exchange}, (entries.foldl Session.holdSender calls)[j]? = some y →
      ∃ x, calls[j]? = some x ∧ ((x.channel = .pending ∧ y = { x with channel := .held }) ∨
        (x.channel ≠ .pending ∧ y = x)) := by
    intro j y hy
    rw [getElem?_foldl_holdSender, Option.map_eq_some_iff] at hy
    obtain ⟨x, hx, rfl⟩ := hy
    refine ⟨x, hx, ?_⟩
    split
    · rename_i hmem
      obtain ⟨e, he, rfl⟩ := List.mem_map.mp hmem
      obtain ⟨z, hz, -, hch⟩ := h.entry e he
      rw [hx, Option.some.injEq] at hz
      exact .inl ⟨hz ▸ hch, rfl⟩
    · rename_i hmem
      refine .inr ⟨fun hch => hmem ?_, rfl⟩
      obtain ⟨p, he⟩ := h.pending hx hch
      exact List.mem_map.mpr ⟨_, he, rfl⟩
  have noheld : ∀ {j : ℕ} {x : Exchange}, calls[j]? = some x → x.channel ≠ .held := by
    intro j x hx hch
    have hmem := h.holder hx hch
    cases hmem
  refine ⟨?_, ?_, ?_, ?_, by simp, ?_, .nil, ?_, ?_, h.once, by simp, by simp⟩
  · intro j k y z hy hz hid
    obtain ⟨x, hx, hxy⟩ := back hy
    obtain ⟨w, hw, hwz⟩ := back hz
    have hxid : y.id = x.id := by rcases hxy with ⟨-, rfl⟩ | ⟨-, rfl⟩ <;> rfl
    have hwid : z.id = w.id := by rcases hwz with ⟨-, rfl⟩ | ⟨-, rfl⟩ <;> rfl
    exact h.ids hx hw (by rw [← hxid, hid, hwid])
  · intro j y hy
    obtain ⟨x, hx, ⟨hch, rfl⟩ | ⟨-, rfl⟩⟩ := back hy
    · have hf := h.fits hx
      refine ⟨fun ha => ?_, fun _ => by simp, fun _ _ => by simp, fun hg => by simp at hg⟩
      rw [hf.admitting ha] at hch
      cases hch
    · exact h.fits hx
  · intro j y hy
    obtain ⟨x, hx, ⟨hch, rfl⟩ | ⟨-, rfl⟩⟩ := back hy
    · have hn := (h.noted hx).cons (m := .drained) ⟨by simp, by simp, by simp⟩
      refine ⟨?_, ?_, fun _ => by simp, fun _ _ => .inr (.inr List.mem_cons_self)⟩
      · rw [hn.registered]
        simp [hch]
      · rw [hn.ended]
        simp [hch]
    · exact (h.noted hx).cons ⟨by simp, by simp, by simp⟩
  · intro j hj
    rw [length_foldl_holdSender]
    exact h.marked j (by simpa using hj)
  · intro j y hy hp
    obtain ⟨x, hx, ⟨-, rfl⟩ | ⟨hne, rfl⟩⟩ := back hy
    · cases hp
    · exact absurd hp hne
  · intro j hj
    obtain ⟨e, he, rfl⟩ := List.mem_map.mp hj
    obtain ⟨x, hx, -, -⟩ := h.entry e he
    refine ⟨{ x with channel := .held }, ?_, rfl⟩
    rw [getElem?_foldl_holdSender, hx, Option.map_some, if_pos hj]
  · intro j y hy hh
    obtain ⟨x, hx, ⟨hch, -⟩ | ⟨-, rfl⟩⟩ := back hy
    · obtain ⟨p, he⟩ := h.pending hx hch
      exact List.mem_map.mpr ⟨_, he, rfl⟩
    · exact absurd hh (noheld hx)

end Table

end Vcmp
