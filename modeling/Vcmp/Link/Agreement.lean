import Vcmp.Link.Model
import Vcmp.Session.Dispatch
import Vcmp.Session.Provenance
/-!
# Requests agree from end to end

A call on one side and the handler on the other agree on what was asked
and what was answered. The message a handler is invoked for is the frame
of exactly one call of the peer, and each call has at most one
invocation. A call that returns a value was handled once, on its own
message, by the handler of its type, and the value is the one the handler
returned. The handler of a type is the one registered under it when the
message is dispatched.
-/

namespace Vcmp

open Session

/-- A call of `send_value` returns a value: its acknowledgement is read as one. -/
def Exchange.Returns (J : JsonText) (x : Exchange) (value : Json) : Prop :=
  ∃ payload arrival position, x.outcome = some (.settled (.ack payload arrival position)) ∧
    readAck J payload = .ok value

/-- **What a work does for the call it answers with a value**: it invokes
the handler registered for the type of the message on the message, and the
value is what the handler returns. -/
structure Work.Serves (w : Work) (message : Json) (type_ : String) (handler : Handler)
    (value : Json) : Prop where
  type : messageType message = some type_
  given : w.handler = some handler
  registered : (type_, handler) ∈ w.registry.entries
  invoked : w.invoked = some (handler.input message)
  finished : w.pc = .done .ok
  returned : w.returned = some value

/-- The members a message has beside the tag the library puts in front. -/
def Untagged (members : List (String × Json)) : Prop := ∀ m ∈ members, m.1 ≠ "@type"

/-- A tagged message is of the type of its tag. -/
theorem messageType_tagged {tag type_ : String} {members : List (String × Json)}
    (hm : Untagged members) (h : messageType (tagged tag members) = some type_) : type_ = tag := by
  simp only [messageType, tagged, Json.get?_obj_cons_of_fresh hm, Option.bind_some, Json.asStr,
    Option.filter_eq_some_iff, Option.some.injEq] at h
  exact h.1.symm

/-- A handler is given a tagged message as it is, or without the tag. -/
theorem input_tagged {tag : String} {members : List (String × Json)} (hm : Untagged members)
    (handler : Handler) : handler.input (tagged tag members) =
      if handler.stripType then .obj members else tagged tag members := by
  unfold Handler.input tagged
  rw [Json.remove_obj_cons_of_fresh hm]

namespace Link

variable {J : JsonText} {a b : Session} {i j : ℕ} {x : Exchange} {w : Work}

/-- **What agrees between the calls of one side and the works of the other.** -/
structure Agreement (J : JsonText) (a b : Session) : Prop where
  /-- Invocations are counted where a handler starts, -/
  counted : ∀ (e : Event J) (b' : Session) (id : String), (machine J).next b e = some b' →
    b'.invocations id = b.invocations id + if b.invokes id e then 1 else 0
  /-- there is at most one for a call, -/
  once : ∀ (i : ℕ) (x : Exchange), a.exchanges[i]? = some x → b.invocations x.id ≤ 1
  /-- and none for anything that was not sent. -/
  sent : ∀ (j : ℕ) (w : Work), b.works[j]? = some w → ∃ (i : ℕ) (x : Exchange),
    a.exchanges[i]? = some x ∧ x.id = w.id ∧ x.payload = w.payload
  /-- A call that returns a value was handled once, with that value. -/
  agrees : ∀ (i : ℕ) (x : Exchange) (message value : Json), a.exchanges[i]? = some x →
    x.message = some message → x.Returns J value → b.invocations x.id = 1 ∧
      ∃ (j : ℕ) (w : Work) (type_ : String) (handler : Handler), b.works[j]? = some w ∧
        w.id = x.id ∧ w.Serves message type_ handler value
  /-- Where the library tagged the message, the handler has the members with or without the tag. -/
  typed : ∀ (i : ℕ) (x : Exchange) (tag : String) (members : List (String × Json)) (value : Json),
    a.exchanges[i]? = some x → x.message = some (tagged tag members) → Untagged members →
      x.Returns J value → ∃ (j : ℕ) (w : Work) (handler : Handler), b.works[j]? = some w ∧
        w.id = x.id ∧ w.handler = some handler ∧ (tag, handler) ∈ w.registry.entries ∧
        w.returned = some value ∧
        w.invoked = some (if handler.stripType then .obj members else tagged tag members)
  /-- A handler is given to a message in the step that dispatches it, from the handlers there
  are then, -/
  dispatched : ∀ (es : List (Event J)) (b' : Session) (j : ℕ) (w : Work) (handler : Handler),
    (machine J).run b es = some b' → b'.works[j]? = some w → w.handler = some handler →
    (∃ w₀, b.works[j]? = some w₀ ∧ w₀.handler = some handler ∧ w₀.registry = w.registry) ∨
      DispatchedIn J b es j w
  /-- and these are what the last calls of `on` and `off` left. -/
  handlers : ∀ (es : List (Event J)) (b' : Session) (type_ : String) (handler : Handler),
    (machine J).run b es = some b' → ((type_, handler) ∈ b'.handlers.entries ↔
      lastSet type_ es = some (some handler) ∨
        (lastSet type_ es = none ∧ (type_, handler) ∈ b.handlers.entries))

/-! ## The call of a work -/

/-- **The message a work is for is the frame of a call of the peer.** -/
theorem call_of_work (h : ReachableBy J NoRaw a b) (hw : b.works[j]? = some w) :
    ∃ (i : ℕ) (x : Exchange) (p : ℕ) (acc : Accepted), a.exchanges[i]? = some x ∧ x.id = w.id ∧
      x.payload = w.payload ∧ a.written[w.position]? = some p ∧ a.accepted[p]? = some acc ∧
      acc.origin = .exchange i := by
  obtain ⟨text, htext, -, hparse⟩ := ((worked_of_reachable h.right.reachable).kept hw).heard
  obtain ⟨p, acc, hp, hacc, rfl⟩ := accepted_of_received h.swap htext
  obtain ⟨i, x, hx, ho, hid, hpayload⟩ := call_of_message h.left (List.mem_of_getElem? hacc) hparse
  exact ⟨i, x, p, acc, hx, hid, hpayload, hp, hacc, ho⟩

/-- **Two works are not for one call**: its frame is accepted, written and heard once. -/
theorem work_unique (h : ReachableBy J NoRaw a b) {k : ℕ} {v : Work} (hw : b.works[j]? = some w)
    (hv : b.works[k]? = some v) (hid : w.id = v.id) : j = k := by
  obtain ⟨i, x, p, acc, hx, hxid, -, hp, hacc, ho⟩ := call_of_work h hw
  obtain ⟨i', x', q, acc', hx', hxid', -, hq, hacc', ho'⟩ := call_of_work h hv
  have hcall : i = i' := (registry_of_reachable h.left.reachable).table.ids hx hx'
    (by rw [hxid, hxid', hid])
  subst hcall
  have hframe : p = q := position_of_call h.left.reachable hacc hacc' ho ho'
  subst hframe
  -- the frame stands on the wire in one place
  have hflow := flow_of_reachable h.left.reachable
  have hnodup : a.written.Nodup := hflow.sent.sublist.nodup (List.nodup_append.mp hflow.once).1
  have hposition : w.position = v.position :=
    (List.getElem?_inj (List.getElem?_eq_some_iff.mp hp).1 hnodup).mp (hp.trans hq.symm)
  have hworked := worked_of_reachable h.right.reachable
  rcases Nat.lt_trichotomy j k with hlt | heq | hgt
  · have := hworked.order hw hv hlt
    omega
  · exact heq
  · have := hworked.order hv hw hgt
    omega

/-- **No message is handled twice.** -/
theorem invocations_le_one (h : ReachableBy J NoRaw a b) (id : String) : b.invocations id ≤ 1 := by
  have invoked : ∀ {w : Work}, w.invocations id ≠ 0 → w.id = id := by
    intro w hne
    by_contra hid
    simp [Work.invocations, hid] at hne
  refine total_le_of_unique (fun w _ => ?_) fun j k w v hw hv hjw hkv => ?_
  · unfold Work.invocations
    split_ifs <;> omega
  · exact work_unique h hw hv ((invoked hjw).trans (invoked hkv).symm)

/-! ## The answer to a call -/

/-- **The acknowledgement of a call comes from a work whose handler returned.** -/
theorem work_of_returns (h : ReachableBy J NoRaw a b) (hx : a.exchanges[i]? = some x) {value : Json}
    (hreturns : x.Returns J value) : ∃ (j : ℕ) (w : Work), b.works[j]? = some w ∧ w.id = x.id ∧
      w.pc = .done .ok ∧ w.returned = some value := by
  obtain ⟨payload, arrival, position, hout, hread⟩ := hreturns
  obtain ⟨-, text, htext, -, hparse⟩ :=
    (registry_of_reachable h.left.reachable).answers hx (.inr hout)
  obtain ⟨p, acc, -, hacc, rfl⟩ := accepted_of_received h htext
  obtain ⟨j, w, v, hw, hid, hpc, hreturned, hread'⟩ :=
    work_of_ack h.right (List.mem_of_getElem? hacc) hparse
  rw [hread, Except.ok.injEq] at hread'
  exact ⟨j, w, hw, hid, hpc, hread' ▸ hreturned⟩

/-- **The work for a message serves it**, once its handler has returned. -/
theorem serves_of_returned (h : ReachableBy J NoRaw a b) (hx : a.exchanges[i]? = some x)
    {message value : Json} (hmessage : x.message = some message) (hw : b.works[j]? = some w)
    (hid : w.id = x.id) (hpc : w.pc = .done .ok) (hreturned : w.returned = some value) :
    ∃ type_ handler, w.Serves message type_ handler value := by
  have hdispatched := ((worked_of_reachable h.right.reachable).kept hw).dispatched
  have hsome := hdispatched.returns (.inr (.inr (.inr hpc)))
  obtain ⟨input, hinput⟩ := Option.isSome_iff_exists.mp hsome
  obtain ⟨handler, parsed, hhandler, hparsed, rfl⟩ := hdispatched.invoked input hinput
  obtain ⟨parsed', type_, hparsed', htext, htype, hentry⟩ := hdispatched.handler handler hhandler
  rw [hparsed, Option.some.injEq] at hparsed'
  subst hparsed'
  -- the payload that was parsed is the text of the message
  obtain ⟨i', x', p, acc, hx', hid', hpayload, -, -, -⟩ := call_of_work h hw
  have hcall : i' = i := (registry_of_reachable h.left.reachable).table.ids hx' hx (hid'.trans hid)
  subst hcall
  rw [hx, Option.some.injEq] at hx'
  subst hx'
  have hwritten := (made_of_reachable h.left.reachable hx).payload message hmessage
  have hread := htext (by rw [← hpayload, hwritten]; exact J.toText_ne_empty message)
  rw [← hpayload, hwritten, J.round_trip, Option.some.injEq] at hread
  subst hread
  exact ⟨type_, handler, ⟨htype, hhandler, hentry, hinput, hpc, hreturned⟩⟩

/-- **A call that returned was served once**, with the value it returned. -/
theorem served_of_returns (h : ReachableBy J NoRaw a b) (hx : a.exchanges[i]? = some x)
    {message value : Json} (hmessage : x.message = some message) (hreturns : x.Returns J value) :
    b.invocations x.id = 1 ∧ ∃ (j : ℕ) (w : Work) (type_ : String) (handler : Handler),
      b.works[j]? = some w ∧ w.id = x.id ∧ w.Serves message type_ handler value := by
  obtain ⟨j, w, hw, hid, hpc, hreturned⟩ := work_of_returns h hx hreturns
  obtain ⟨type_, handler, hserves⟩ := serves_of_returned h hx hmessage hw hid hpc hreturned
  refine ⟨?_, j, w, type_, handler, hw, hid, hserves⟩
  have hone : w.invocations x.id = 1 := by simp [Work.invocations, hid, hserves.invoked]
  have hleast := le_total (f := Work.invocations x.id) (List.mem_of_getElem? hw)
  have hmost := invocations_le_one h x.id
  unfold invocations at hmost ⊢
  omega

theorem agreement_of_reachable (h : ReachableBy J NoRaw a b) : Agreement J a b := by
  refine ⟨fun e b' id hn => invocations_of_next h.right.reachable hn id,
    fun i x _ => invocations_le_one h x.id, fun j w hw => ?_,
    fun i x message value hx hmessage hreturns => served_of_returns h hx hmessage hreturns,
    fun i x tag members value hx hmessage hfresh hreturns => ?_,
    fun es b' j w handler hrun hw hhandler => dispatchedIn_of_run hrun hw hhandler,
    fun es b' type_ handler hrun => mem_handlers_of_run hrun⟩
  · obtain ⟨i, x, -, -, hx, hid, hpayload, -⟩ := call_of_work h hw
    exact ⟨i, x, hx, hid, hpayload⟩
  · obtain ⟨-, j, w, type_, handler, hw, hid, hserves⟩ := served_of_returns h hx hmessage hreturns
    obtain rfl : type_ = tag := messageType_tagged hfresh hserves.type
    have hinvoked := hserves.invoked
    rw [input_tagged hfresh] at hinvoked
    exact ⟨j, w, handler, hw, hid, hserves.given, hserves.registered, hserves.returned, hinvoked⟩

/-- **Requests agree from end to end**, both ways, in every run of two
joined sessions in which nobody calls `send_raw`. -/
theorem requests_agree (h : ReachableBy J NoRaw a b) : Agreement J a b ∧ Agreement J b a :=
  ⟨agreement_of_reachable h, agreement_of_reachable h.swap⟩

/-- A message whose handler is given no type and returns `true`. -/
def servedRun : List (Event compactJson ⊕ Event compactJson) :=
  onLeft (sendsRun ++ looksRun ++ writesRun) ++
    onRight (startsRun ++ acksRun (.bool true) ++ (.writer .steps :: writesRun)) ++
    onLeft (settlesRun "ACKAAAAAAAAAAAAtrue")

/-- Whether the first call returned `true`. -/
def returnsTrue (s : Session) : Bool :=
  match s.exchanges[0]?.bind Exchange.outcome with
  | some (.settled (.ack payload _ _)) =>
    match readAck compactJson payload with
    | .ok (.bool true) => true
    | _ => false
  | _ => false

theorem returns_of_returnsTrue {s : Session} (h : returnsTrue s = true) : ∃ x,
    s.exchanges[0]? = some x ∧ x.Returns compactJson (.bool true) := by
  unfold returnsTrue at h
  split at h
  · rename_i payload arrival position hout
    obtain ⟨x, hx, hout⟩ := Option.bind_eq_some_iff.mp hout
    split at h
    · rename_i hread
      exact ⟨x, hx, payload, arrival, position, hout, hread⟩
    · cases h
  · cases h

/-- The call of that run was handled once. -/
theorem requests_agree_servedRun : ∃ a b x,
    (link compactJson).run (small [], small [("t", ⟨0, true⟩)]) servedRun = some (a, b) ∧
      a.exchanges[0]? = some x ∧ x.Returns compactJson (.bool true) ∧ b.invocations x.id ≤ 1 ∧
      Agreement compactJson a b := by
  have hrun : ((link compactJson).run (small [], small [("t", ⟨0, true⟩)]) servedRun).any
      (fun s => returnsTrue s.1) = true := by decide +kernel
  obtain ⟨⟨a, b⟩, hs, hend⟩ := Machine.exists_of_run hrun
  obtain ⟨x, hx, hreturns⟩ := returns_of_returnsTrue hend
  have hreach : ReachableBy compactJson NoRaw a b :=
    reachableBy_of_run noRaw noRaw_iff (by decide +kernel) hs
  have hagree := (requests_agree hreach).1
  exact ⟨a, b, x, hs, hx, hreturns, hagree.once 0 x hx, hagree⟩

end Link

end Vcmp
