import Vcmp.Json.Codec
import Vcmp.Session.Flow
/-!
# Two sessions joined by a transport

Two session machines side by side, joined by a transport that delivers
what each side's sink was fed, in that order and without loss: the next
text a side takes from its stream is the next one the other side wrote.
Everything else of either side happens whenever it likes.
-/

namespace Vcmp

open Session

variable {J : JsonText}

namespace Session

/-- The text at a place of what a session was written out. -/
def wireAt (s : Session) (k : ℕ) : Option String :=
  s.written[k]?.bind fun p => s.accepted[p]?.map Accepted.text

/-- What the transport allows: a text is delivered when it is the next of the peer's. -/
def delivers (s peer : Session) : Event J → Bool
  | .receive text => peer.wireAt s.received.length = some text
  | _ => true

end Session

/-- **Two sessions joined by a transport.** -/
def link (J : JsonText) : Machine (Session × Session) (Event J ⊕ Event J) :=
  .couple (machine J) (machine J) (fun a b e => a.delivers b e) (fun a b e => b.delivers a e)

namespace Link

variable {ok : Session → Event J → Prop} {a b : Session}

/-- A run of the link, where a condition restricts the steps of either side. -/
abbrev ReachableBy (J : JsonText) (ok : Session → Event J → Prop) (a b : Session) : Prop :=
  (link J).ReachableBy (Machine.both ok ok) (a, b)

theorem ReachableBy.left (h : ReachableBy J ok a b) : (machine J).ReachableBy ok a := h.couple_fst

theorem ReachableBy.right (h : ReachableBy J ok a b) : (machine J).ReachableBy ok b := h.couple_snd

/-- The sides of a run may be exchanged. -/
theorem ReachableBy.swap (h : ReachableBy J ok a b) : ReachableBy J ok b a := h.couple_swap

/-- A condition may be dropped on both sides, -/
theorem ReachableBy.free (h : ReachableBy J ok a b) : ReachableBy J Machine.free a b := by
  obtain ⟨s, hs, hp⟩ := h
  exact ⟨s, hs, hp.mono fun _ e _ => by cases e <;> exact trivial⟩

/-- or on the first. -/
theorem ReachableBy.freeLeft (h : ReachableBy J ok a b) :
    (link J).ReachableBy (Machine.both Machine.free ok) (a, b) := by
  obtain ⟨s, hs, hp⟩ := h
  exact ⟨s, hs, hp.mono fun _ e hok => by
    cases e with
    | inl e => exact trivial
    | inr e => exact hok⟩

/-- **The invariant rule of the link**: what holds of two sessions at their
start, and is kept by a step of the first, both ways around, holds in
every run. -/
theorem ReachableBy.sides {P : Session → Session → Prop}
    (hinit : ∀ a b, (machine J).init a → (machine J).init b → P a b)
    (hleft : ∀ a b e a', ReachableBy J ok a b → ok a e → a.delivers b e = true →
      (machine J).next a e = some a' → P a b → P a' b)
    (hright : ∀ a b e a', ReachableBy J ok a b → ok a e → a.delivers b e = true →
      (machine J).next a e = some a' → P b a → P b a')
    (h : ReachableBy J ok a b) : P a b := by
  refine Machine.ReachableBy.invariant_of (P := fun p => P p.1 p.2) ?_ ?_ h
  · intro p hp
    exact hinit p.1 p.2 hp.1 hp.2
  · rintro ⟨a, b⟩ (e | e) ⟨a', b'⟩ hreach hok hn hp
    · obtain ⟨hdel, hstep, hsame⟩ := Machine.couple_inl.mp hn
      cases hsame
      exact hleft a b e a' hreach hok hdel hstep hp
    · obtain ⟨hdel, hstep, hsame⟩ := Machine.couple_inr.mp hn
      cases hsame
      exact hright b a e b' (ReachableBy.swap hreach) hok hdel hstep hp

/-- A run of two small sessions of which a check admits every step. -/
theorem reachableBy_of_run (okb : Session → Event J → Bool)
    (hok : ∀ s e, okb s e = true → ok s e) {handlers handlers' : List (String × Handler)}
    {es : List (Event J ⊕ Event J)}
    (ha : (link J).admits (Machine.bothb okb okb) (small handlers, small handlers') es = true)
    (h : (link J).run (small handlers, small handlers') es = some (a, b)) :
    ReachableBy J ok a b :=
  Machine.reachableBy_of_run (Machine.bothb okb okb) (Machine.both_of_bothb hok hok)
    ⟨init_small J handlers, init_small J handlers'⟩ ha h

/-! ## What was heard was written -/

/-- What stands on the wire stays there. -/
theorem wireAt_of_step {s s' : Session} {e : Event J} (hn : (machine J).next s e = some s')
    {k : ℕ} {text : String} (h : s.wireAt k = some text) : s'.wireAt k = some text := by
  obtain ⟨haccepted, hwritten, -⟩ := (step_of_next hn).flow.grows
  unfold wireAt at h ⊢
  obtain ⟨p, hp, h⟩ := Option.bind_eq_some_iff.mp h
  obtain ⟨acc, hacc, htext⟩ := Option.map_eq_some_iff.mp h
  refine Option.bind_eq_some_iff.mpr ⟨p, ?_, Option.map_eq_some_iff.mpr ⟨acc, ?_, htext⟩⟩
  · exact getElem?_of_extends hwritten hp
  · exact getElem?_of_extends haccepted hacc

/-- **What a side has heard, the other has written**, text by text. -/
theorem wireAt_of_received (h : ReachableBy J ok a b) {k : ℕ} {text : String}
    (hk : a.received[k]? = some text) : b.wireAt k = some text := by
  refine h.sides (P := fun a b => ∀ (k : ℕ) (text : String), a.received[k]? = some text →
    b.wireAt k = some text) ?_ ?_ ?_ k text hk
  · rintro _ b ⟨id, limits, handlers, budget, elsewhere, rfl⟩ _ k text hk
    cases hk
  · intro a b e a' _ _ hdel hn ih k text hk
    rcases (step_of_next hn).hears with ⟨hsame, -⟩ | ⟨heard, rfl, hstep⟩
    · exact ih k text (hsame ▸ hk)
    · rw [hstep.received] at hk
      rcases getElem?_concat_cases hk with ⟨rfl, rfl⟩ | hold
      · simpa [delivers] using hdel
      · exact ih k text hold
  · intro b a e b' _ _ _ hn ih k text hk
    exact wireAt_of_step hn (ih k text hk)

/-- A text that was heard is the one of a frame the other side accepted and wrote. -/
theorem accepted_of_received (h : ReachableBy J ok a b) {k : ℕ} {text : String}
    (hk : a.received[k]? = some text) :
    ∃ p acc, b.written[k]? = some p ∧ b.accepted[p]? = some acc ∧ acc.text = text := by
  have hwire := wireAt_of_received h hk
  unfold wireAt at hwire
  obtain ⟨p, hp, hwire⟩ := Option.bind_eq_some_iff.mp hwire
  obtain ⟨acc, hacc, htext⟩ := Option.map_eq_some_iff.mp hwire
  exact ⟨p, acc, hp, hacc, htext⟩

/-! ## Pieces of runs

What one side does in a run of two small sessions, where one message is
sent and acknowledged. -/

/-- The handlers of a side, of one type. -/
def typed : List (String × Handler) := [("t", ⟨0, false⟩)]

/-- A call of `send_with_arrival`, up to its frame in the data queue. -/
def sendsRun : List (Event compactJson) :=
  .send zeroBytes (.ofJson compactJson (tagged "t" [])) :: List.replicate 7 (.exchange 0)

/-- The frame of that call. -/
def sentText : String := "MSGAAAAAAAAAAAA\x7b\"@type\":\"t\"\x7d"

/-- A message heard, up to its handler. -/
def startsRun : List (Event compactJson) :=
  [.receive sentText, .work 0, .work 0, .work 0, .workStarts 0 none]

/-- The handler returns, up to the acknowledgement in the control queue. -/
def acksRun (result : Json) : List (Event compactJson) :=
  .workReturns 0 (.ok (.ofJson compactJson result)) :: List.replicate 4 (.work 0)

/-- The writer finds both queues empty, or takes a frame from the second. -/
def looksRun : List (Event compactJson) := [.writer .steps, .writer .steps]

/-- The writer takes a frame and writes it. -/
def writesRun : List (Event compactJson) :=
  [.writer .steps, .writer .steps, .writer .feeds, .writer .flushes]

/-- The acknowledgement arrives and settles the call. -/
def settlesRun (text : String) : List (Event compactJson) := [.receive text, .drive, .exchange 0]

/-- One side in a run of the link, while the other does nothing. -/
def onLeft (es : List (Event compactJson)) : List (Event compactJson ⊕ Event compactJson) :=
  es.map .inl

/-- The other side. -/
def onRight (es : List (Event compactJson)) : List (Event compactJson ⊕ Event compactJson) :=
  es.map .inr

end Link

end Vcmp
