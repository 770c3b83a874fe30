import Vcmp.Link.Heartbeat
/-!
# Heartbeats in flight

The heartbeats one side has queued and the other has not heard, place by
place. One is added by the step that queues it, and taken by the step
that hears it: the text that is heard stands on the wire at the place
that is next, and no place is written twice.
-/

namespace Vcmp

open Session

namespace Link

variable {J : JsonText} {x x' y y' : Session} {e : Event J} {p : ℕ}

/-- A heartbeat queued at a place that the other side has not heard. -/
def InFlight (x y : Session) (p : ℕ) : Prop :=
  ∃ acc, x.accepted[p]? = some acc ∧ HeartbeatText acc.text ∧ p ∉ x.written.take y.received.length

variable {ok : Session → Event J → Prop}

/-- What stood before what the other side has heard stands there still. -/
theorem take_written_of_next (hr : ReachableBy J ok x y) (hn : (machine J).next x e = some x') :
    x'.written.take y.received.length = x.written.take y.received.length := by
  obtain ⟨-, ⟨more, hmore⟩, -⟩ := (step_of_next hn).flow.grows
  rw [← hmore, List.take_append_of_le_length (received_le hr.swap)]

/-- A step that queues no heartbeat leaves what is in flight as it is, -/
theorem inFlight_of_next (hr : ReachableBy J ok x y) (hn : (machine J).next x e = some x')
    (hqueue : ¬ QueuesHeartbeat x x') : InFlight x' y p ↔ InFlight x y p := by
  have hflow := (step_of_next hn).flow
  unfold InFlight
  rw [take_written_of_next hr hn]
  constructor
  · rintro ⟨acc, hacc, htext, hp⟩
    rcases hflow.accepts with hsame | ⟨origin, q, r, -, -, -, hnew⟩
    · exact ⟨acc, hsame ▸ hacc, htext, hp⟩
    · rw [hnew] at hacc
      rcases getElem?_concat_cases hacc with ⟨-, rfl⟩ | hold
      · exact absurd ⟨_, hnew, htext⟩ hqueue
      · exact ⟨acc, hold, htext, hp⟩
  · rintro ⟨acc, hacc, htext, hp⟩
    exact ⟨acc, getElem?_of_extends hflow.grows.1 hacc, htext, hp⟩

/-- and one that queues a heartbeat adds it. -/
theorem inFlight_of_queues (hr : ReachableBy J ok x y) (hn : (machine J).next x e = some x')
    {acc : Accepted} (hnew : x'.accepted = x.accepted ++ [acc]) (htext : HeartbeatText acc.text) :
    InFlight x' y p ↔ InFlight x y p ∨ p = x.accepted.length := by
  have hflow := (step_of_next hn).flow
  have hfresh := fresh_of_accepts hr.left.reachable hflow hnew
  have htake := take_written_of_next hr hn
  unfold InFlight
  rw [htake, hnew]
  constructor
  · rintro ⟨acc', hacc, htext', hp⟩
    rcases getElem?_concat_cases hacc with ⟨hlast, -⟩ | hold
    · exact .inr hlast
    · exact .inl ⟨acc', hold, htext', hp⟩
  · rintro (⟨acc', hacc, htext', hp⟩ | rfl)
    · exact ⟨acc', getElem?_append_some hacc, htext', hp⟩
    · refine ⟨acc, by simp, htext, fun hmem => hfresh ?_⟩
      rw [← htake] at hmem
      exact List.mem_of_mem_take hmem

/-- The place a text that is heard was written at. -/
theorem place_of_hears (hdel : y.delivers x e = true) {text : String} (he : e = .receive text) :
    ∃ q acc, x.written[y.received.length]? = some q ∧ x.accepted[q]? = some acc ∧ acc.text = text := by
  subst he
  have hwire : x.wireAt y.received.length = some text := by simpa [delivers] using hdel
  obtain ⟨q, hq, hwire⟩ := Option.bind_eq_some_iff.mp hwire
  obtain ⟨acc, hacc, htext⟩ := Option.map_eq_some_iff.mp hwire
  exact ⟨q, acc, hq, hacc, htext⟩

/-- A text that is heard takes its place from the wire, and no other. -/
theorem inFlight_of_place {text : String} (h : ReceiveStep J y text y') {q : ℕ}
    (hq : x.written[y.received.length]? = some q) :
    InFlight x y' p ↔ InFlight x y p ∧ p ≠ q := by
  have hmem : p ∈ x.written.take y'.received.length ↔ p ∈ x.written.take y.received.length ∨ p = q := by
    rw [h.received, List.length_append, List.length_singleton, List.take_add_one, hq]
    simp
  unfold InFlight
  constructor
  · rintro ⟨acc, hacc, htext, hp⟩
    rw [hmem, not_or] at hp
    exact ⟨⟨acc, hacc, htext, hp.1⟩, hp.2⟩
  · rintro ⟨⟨acc, hacc, htext, hp⟩, hne⟩
    exact ⟨acc, hacc, htext, by rw [hmem, not_or]; exact ⟨hp, hne⟩⟩

/-- A step that hears no heartbeat leaves what is in flight as it is, -/
theorem inFlight_to_next (hn : (machine J).next y e = some y')
    (hdel : y.delivers x e = true) (hno : ∀ text, e = .receive text → ¬ HeartbeatText text) :
    InFlight x y' p ↔ InFlight x y p := by
  rcases (step_of_next hn).hears with ⟨hsame, -⟩ | ⟨text, he, hstep⟩
  · unfold InFlight
    rw [hsame]
  · obtain ⟨q, acc, hq, hacc, htext⟩ := place_of_hears hdel he
    rw [inFlight_of_place hstep hq, and_iff_left_iff_imp]
    rintro ⟨acc', hacc', hheart, -⟩ rfl
    obtain rfl := Option.some.inj (hacc.symm.trans hacc')
    exact hno text he (htext ▸ hheart)

/-- and one that hears a heartbeat takes it. -/
theorem inFlight_to_hears (hr : ReachableBy J ok x y) (hn : (machine J).next y e = some y')
    (hdel : y.delivers x e = true) {text : String} (he : e = .receive text)
    (hheart : HeartbeatText text) : ∃ q acc, x.accepted[q]? = some acc ∧ acc.text = text ∧
      InFlight x y q ∧ ∀ p, InFlight x y' p ↔ InFlight x y p ∧ p ≠ q := by
  obtain ⟨q, acc, hq, hacc, htext⟩ := place_of_hears hdel he
  subst he
  have hstep : ReceiveStep J y text y' := by
    have hnext : y.next J (.receive text) = some y' := hn
    simp only [next] at hnext
    split at hnext
    · obtain rfl := Option.some.inj hnext
      exact receiveStep J y text
    · cases hnext
  refine ⟨q, acc, hacc, htext, ⟨acc, hacc, htext ▸ hheart, fun hmem => ?_⟩,
    fun p => inFlight_of_place hstep hq⟩
  -- a place that was heard before would be written twice
  have hflow := flow_of_reachable hr.left.reachable
  have honce : x.written.Nodup := hflow.sent.sublist.nodup (List.nodup_append.mp hflow.once).1
  obtain ⟨k, hk⟩ := List.getElem?_of_mem hmem
  have hlt : k < y.received.length := by
    have hlen := (List.getElem?_eq_some_iff.mp hk).1
    simp only [List.length_take] at hlen
    omega
  rw [List.getElem?_take_of_lt hlt] at hk
  have hbound := (List.getElem?_eq_some_iff.mp hk).1
  have hkq := (List.getElem?_inj hbound honce).mp (hk.trans hq.symm)
  omega

end Link

end Vcmp
