import Vcmp.Link.Model
import Vcmp.Session.Sizes
import Vcmp.Ws.Adapters
import Vcmp.Ws.Options
/-!
# Two sessions joined by a WebSocket

The link with the connection taken apart: what a sink is fed is cut into
frames, the frames go onto the wire one at a time with control frames
between them wherever they fall, and the other side's reader puts
together what it takes from there. The connection may break at any
moment, on either side, and a frame need never arrive.

The frames of a text keep to the protocol, and so do the control frames,
which carry at most 125 bytes; no more than that is asked of the reader.

Every run of it is a run of the link in which texts are delivered whole,
so what holds of the sessions there holds here. Nothing is asked of the
two sides' settings for that; where the reader of one side takes messages
as large as the other side sends, the size never ends the connection.
-/

namespace Vcmp

open Session

variable {J : JsonText} {σ : Type*}

/-- **One end of the connection.** -/
structure End (σ : Type*) where
  options : TransportOptions
  session : Session
  /-- The texts the sink was fed. -/
  fed : List String := []
  /-- Their frames that are not on the wire. -/
  unsent : List Piece := []
  /-- What was put on the wire. -/
  sent : List Piece := []
  /-- How much was taken from the wire. -/
  taken : ℕ := 0
  /-- The reader of the stream; none once the stream has ended. -/
  reader : Option (σ × Unit)
  /-- What the stream has for the session. -/
  texts : List String := []

/-- What happens at an end. -/
inductive EndEvent (J : JsonText) where
  /-- The session moves. -/
  | session (e : Event J)
  /-- A frame goes onto the wire. -/
  | emits
  /-- The transport puts a control frame there, of no more bytes than one may carry. -/
  | control (p : Piece)
  /-- A piece is taken from the wire. -/
  | takes (p : Piece)
  /-- The stream fails. -/
  | breaks

namespace End

/-- The text a writer is about to feed to the sink. -/
def feeding : WriterPc → Option String
  | .sending o false => some o.text
  | _ => none

/-- What the stream allows of the session. -/
def allows (x : End σ) : Event J → Bool
  | .receive text => x.texts.head? = some text
  | .streamEnds => x.reader.isNone && x.texts.isEmpty
  | _ => true

/-- The end after its session has moved. -/
def moved (x : End σ) (s : Session) : Event J → End σ
  | .receive _ => { x with session := s, texts := x.texts.tail }
  | .writer .feeds => { x with
      session := s
      fed := x.fed ++ (feeding x.session.writer).toList
      unsent := x.unsent ++
        (outgoing x.options.fragmentSize (feeding x.session.writer).toList).map .data }
  | _ => { x with session := s }

/-- The step of an end, by a reader for the size its options allow. -/
def next (J : JsonText) (R : Option ℕ → Transducer σ Piece Incoming) (x : End σ) :
    EndEvent J → Option (End σ)
  | .session e => if x.allows e then (x.session.next J e).map fun s => x.moved s e else none
  | .emits =>
    match x.unsent with
    | p :: rest => some { x with unsent := rest, sent := x.sent ++ [p] }
    | [] => none
  | .control p =>
    if p.frame?.isSome || !p.short then none else some { x with sent := x.sent ++ [p] }
  | .takes p =>
    match x.reader with
    | some s =>
      let r := (textReader (R x.options.maxMessageSize)).step s p
      some { x with taken := x.taken + 1, reader := r.1, texts := x.texts ++ r.2 }
    | none => none
  | .breaks => some { x with reader := none }

/-- **The machine of an end**: a session spawned with the options' limits. -/
def machine (J : JsonText) (R : Option ℕ → Transducer σ Piece Incoming) :
    Machine (End σ) (EndEvent J) where
  init x := ∃ options session, (Session.machine J).init session ∧
    session.limits = options.limits ∧
    x = { options, session, reader := some ((R options.maxMessageSize).start, ()) }
  next x e := x.next J R e

/-- The next piece an end takes is the next the other has put on the wire. -/
def delivers (x peer : End σ) : EndEvent J → Bool
  | .takes p => peer.sent[x.taken]? = some p
  | _ => true

end End

/-- **Two sessions joined by a WebSocket.** -/
def framedLink (J : JsonText) (R : Option ℕ → Transducer σ Piece Incoming) :
    Machine (End σ × End σ) (EndEvent J ⊕ EndEvent J) :=
  .couple (End.machine J R) (End.machine J R) (fun a b e => a.delivers b e)
    (fun a b e => b.delivers a e)

/-- A condition on the steps of the session at an end. -/
def onSession (ok : Session → Event J → Prop) (x : End σ) : EndEvent J → Prop
  | .session e => ok x.session e
  | _ => True

namespace End

variable {R : Option ℕ → Transducer σ Piece Incoming} {x x' : End σ} {e : EndEvent J}

/-- What a step of an end can do. -/
inductive Step (J : JsonText) (R : Option ℕ → Transducer σ Piece Incoming) (x : End σ) :
    EndEvent J → End σ → Prop
  | hears {text : String} {rest : List String} {s : Session} (htexts : x.texts = text :: rest)
      (h : (Session.machine J).next x.session (.receive text) = some s) :
      Step J R x (.session (.receive text)) { x with session := s, texts := rest }
  | feeds {o : Outgoing} {s : Session} (hwriter : x.session.writer = .sending o false)
      (h : (Session.machine J).next x.session (.writer .feeds) = some s) :
      Step J R x (.session (.writer .feeds)) { x with
        session := s
        fed := x.fed ++ [o.text]
        unsent := x.unsent ++ (framesOf x.options.fragmentSize o.text).map .data }
  | moves {e : Event J} {s : Session} (hreceive : ∀ text, e ≠ .receive text)
      (hfeeds : e ≠ .writer .feeds) (h : (Session.machine J).next x.session e = some s) :
      Step J R x (.session e) { x with session := s }
  | emits {p : Piece} {rest : List Piece} (hunsent : x.unsent = p :: rest) :
      Step J R x .emits { x with unsent := rest, sent := x.sent ++ [p] }
  | control {p : Piece} (hp : p.frame? = none) (hshort : p.short = true) :
      Step J R x (.control p) { x with sent := x.sent ++ [p] }
  | takes {p : Piece} {s : σ × Unit} (hreader : x.reader = some s) :
      Step J R x (.takes p) { x with
        taken := x.taken + 1
        reader := ((textReader (R x.options.maxMessageSize)).step s p).1
        texts := x.texts ++ ((textReader (R x.options.maxMessageSize)).step s p).2 }
  | breaks : Step J R x .breaks { x with reader := none }

/-- The writer has a frame to feed when it feeds one. -/
theorem feeding_of_next {s s' : Session} (h : (Session.machine J).next s (.writer .feeds) = some s') :
    ∃ o, s.writer = .sending o false := by
  cases hw : s.writer with
  | sending o fed =>
    cases fed with
    | false => exact ⟨o, rfl⟩
    | true => simp [Session.machine, Session.next, writerNext, hw] at h
  | _ => simp [Session.machine, Session.next, writerNext, hw] at h

theorem step_of_next (h : (machine J R).next x e = some x') : Step J R x e x' := by
  cases e with
  | session e =>
    obtain ⟨hallows, s, hs, rfl⟩ : x.allows e = true ∧
        ∃ s, (Session.machine J).next x.session e = some s ∧ x.moved s e = x' := by
      simpa [machine, next, Session.machine, Option.map_eq_some_iff] using h
    by_cases hreceive : ∃ text, e = .receive text
    · obtain ⟨text, rfl⟩ := hreceive
      obtain ⟨rest, htexts⟩ : ∃ rest, x.texts = text :: rest := by
        simpa [allows, List.head?_eq_some_iff] using hallows
      rw [show x.moved s (Event.receive text : Event J) = { x with session := s, texts := rest } by
        simp [moved, htexts]]
      exact .hears htexts hs
    · by_cases hfeeds : e = .writer .feeds
      · subst hfeeds
        obtain ⟨o, ho⟩ := feeding_of_next hs
        rw [show x.moved s (Event.writer .feeds : Event J) = { x with
            session := s
            fed := x.fed ++ [o.text]
            unsent := x.unsent ++ (framesOf x.options.fragmentSize o.text).map .data } by
          simp [moved, feeding, ho, outgoing]]
        exact .feeds ho hs
      · have hmoved : x.moved s e = { x with session := s } := by
          unfold moved
          split
          · exact absurd ⟨_, rfl⟩ hreceive
          · exact absurd rfl hfeeds
          · rfl
        rw [hmoved]
        exact .moves (fun text he => hreceive ⟨text, he⟩) hfeeds hs
  | emits =>
    simp only [machine, next] at h
    split at h
    · cases h; exact .emits ‹_›
    · cases h
  | control p =>
    simp only [machine, next] at h
    split at h
    · cases h
    · rename_i hp
      cases h
      simp only [Bool.or_eq_true, Bool.not_eq_true', not_or, Option.not_isSome_iff_eq_none,
        Bool.not_eq_false] at hp
      exact .control hp.1 hp.2
  | takes p =>
    simp only [machine, next] at h
    split at h
    · cases h; exact .takes ‹_›
    · cases h
  | breaks => cases h; exact .breaks

end End

/-! ## What the sink was fed -/

/-- Only a write hands a frame to the transport. -/
theorem Session.Step.written {s s' : Session} {e : Event J} (h : Session.Step J s e s')
    (hfeeds : e ≠ .writer .feeds) : s'.written = s.written := by
  cases h with
  | exchange hx h =>
    cases h with
    | enqueues _ he => obtain ⟨_, _, _, _, _, rfl⟩ := he.frame; rfl
    | _ => rfl
  | beat hb h =>
    cases h with
    | enqueues _ he => obtain ⟨_, _, _, _, _, rfl⟩ := he.frame; rfl
    | _ => rfl
  | raw _ he => obtain ⟨_, _, _, _, _, rfl⟩ := he.frame; rfl
  | work hw h =>
    cases h with
    | writes _ he => obtain ⟨_, _, _, _, _, rfl⟩ := he.frame; rfl
    | unwritten _ he => obtain ⟨_, _, _, _, _, rfl⟩ := he.frame; rfl
    | written _ he => obtain ⟨_, _, _, _, _, rfl⟩ := he.frame; rfl
    | _ => rfl
  | receive _ h => cases h <;> rfl
  | drive h => cases h <;> rfl
  | writer h =>
    cases h with
    | feeds => exact absurd rfl hfeeds
    | _ => rfl
  | _ => rfl

/-- Only a text heard is added to the texts heard. -/
theorem Session.Step.received {s s' : Session} {e : Event J} (h : Session.Step J s e s')
    (hreceive : ∀ text, e ≠ .receive text) : s'.received = s.received := by
  rcases h.hears with ⟨hsame, -⟩ | ⟨text, rfl, -⟩
  · exact hsame
  · exact absurd rfl (hreceive text)

/-- A text that is received is heard. -/
theorem Session.received_of_next {s s' : Session} {text : String}
    (h : (Session.machine J).next s (.receive text) = some s') :
    s'.received = s.received ++ [text] := by
  simp only [Session.machine, Session.next] at h
  split at h
  · cases h
    exact (receiveStep J s text).received
  · cases h

/-- A write, as a step of the session. -/
theorem Session.next_feeds {s s' : Session} {o : Outgoing} (hwriter : s.writer = .sending o false)
    (h : (Session.machine J).next s (.writer .feeds) = some s') :
    s' = { s with writer := .sending o true, written := s.written ++ [o.position] } := by
  simp only [Session.machine, Session.next, writerNext, hwriter] at h
  exact (Option.some.inj h).symm

namespace End

variable {R : Option ℕ → Transducer σ Piece Incoming} {ok : End σ → EndEvent J → Prop} {x : End σ}

/-- Each end's session makes a run of its own, -/
theorem session_of_reachable (h : (machine J R).ReachableBy ok x) :
    (Session.machine J).Reachable x.session := by
  refine h.invariant (P := fun x => (Session.machine J).Reachable x.session) ?_ ?_
  · rintro x ⟨options, session, hinit, -, rfl⟩
    exact .of_init hinit
  · intro x e x' _ hn ih
    cases step_of_next hn with
    | hears _ h => exact ih.step trivial h
    | feeds _ h => exact ih.step trivial h
    | moves _ _ h => exact ih.step trivial h
    | _ => exact ih

/-- **What the sink was fed is what the session wrote.** -/
structure Fed (x : End σ) : Prop where
  count : x.session.written.length = x.fed.length
  wire : ∀ (k : ℕ) (text : String), x.fed[k]? = some text → x.session.wireAt k = some text

theorem fed_of_reachable (h : (machine J R).ReachableBy ok x) : Fed x := by
  refine h.invariant_of (P := Fed) ?_ ?_
  · rintro x ⟨options, session, ⟨id, limits, handlers, budget, elsewhere, rfl⟩, -, rfl⟩
    exact ⟨rfl, fun k text hk => by cases hk⟩
  · intro x e x' hreach _ hn ih
    cases step_of_next hn with
    | hears _ h =>
      refine ⟨?_, fun k text hk => Link.wireAt_of_step h (ih.wire k text hk)⟩
      rw [(Session.step_of_next h).written (by simp), ih.count]
    | moves _ hfeeds h =>
      refine ⟨?_, fun k text hk => Link.wireAt_of_step h (ih.wire k text hk)⟩
      rw [(Session.step_of_next h).written hfeeds, ih.count]
    | @feeds o s hwriter h =>
      have hs := Session.next_feeds hwriter h
      refine ⟨by simp [hs, ih.count], fun k text hk => ?_⟩
      rcases getElem?_concat_cases hk with ⟨rfl, rfl⟩ | hold
      · -- the frame in the writer's hands is the accepted one
        obtain ⟨acc, hacc, htext⟩ := (flow_of_reachable (session_of_reachable hreach)).hand o
          (by simp [Session.pipe, hwriter, WriterPc.hand])
        have hacc : x.session.accepted[o.position]? = some acc := hacc
        simp [Session.wireAt, hs, ← ih.count, hacc, htext]
      · exact Link.wireAt_of_step h (ih.wire k text hold)
    | _ => exact ⟨ih.count, ih.wire⟩

end End

/-! ## On its way

What one end was fed reaches the other by the pieces that are not taken
yet, and the state of the reading there. -/

/-- Where the reading is after the pieces to come, and what they are read as. -/
abbrev reading (limit : Option ℕ) (o : Option (Option (List UInt8) × Unit)) (pieces : List Piece) :
    Option (Option (List UInt8) × Unit) × List String :=
  (textReader (protocolReader limit)).run o pieces

/-- **All that was fed is given, or on its way**: what was given before, with
what the pieces to come are read as. Where the reading may end, that is
the first part of what was fed. -/
structure OnTheWay (mayEnd : Prop) (limit : Option ℕ) (o : Option (Option (List UInt8) × Unit))
    (pieces : List Piece) (given fed : List String) : Prop where
  /-- The pieces to come keep to the protocol. -/
  conforms : (textReader (protocolReader limit)).Meets (fun q => Conforms q.1) o pieces
  reaches :
    ((reading limit o pieces).1 = some (none, ()) ∧ given ++ (reading limit o pieces).2 = fed) ∨
      mayEnd ∧ (reading limit o pieces).1 = none ∧ given ++ (reading limit o pieces).2 <+: fed

namespace OnTheWay

variable {mayEnd : Prop} {limit fragmentSize : Option ℕ}
  {o : Option (Option (List UInt8) × Unit)} {p : Piece} {pieces rest : List Piece}
  {given fed : List String} {text : String}

theorem given_prefix (h : OnTheWay mayEnd limit o pieces given fed) : given <+: fed := by
  rcases h.reaches with ⟨-, rfl⟩ | ⟨-, -, h⟩
  · exact List.prefix_append _ _
  · exact (List.prefix_append _ _).trans h

/-- A text is fed to the sink. -/
theorem feed (h : OnTheWay mayEnd limit o pieces given fed)
    (hfits : mayEnd ∨ fitsLimit limit (byteSize text.toList) = true) :
    OnTheWay mayEnd limit o (pieces ++ (framesOf fragmentSize text).map .data) given
      (fed ++ [text]) := by
  obtain ⟨hconforms, hreaches⟩ := h
  refine ⟨(Transducer.meets_append _ _ _ _).mpr ⟨hconforms, ?_⟩, ?_⟩
  · have hend : (reading limit o pieces).1 = some (none, ()) ∨ (reading limit o pieces).1 = none :=
      hreaches.imp And.left fun h => h.2.1
    rcases hend with hend | hend
    · exact hend ▸ conforms_framesOf limit fragmentSize text
    · exact hend ▸ Transducer.meets_none _ _
  · unfold reading at hreaches ⊢
    rw [Transducer.run_append]
    rcases hreaches with ⟨hrest, rfl⟩ | ⟨hmay, hended, hgiven⟩
    · rw [hrest, run_framesOf]
      split
      · exact .inl ⟨rfl, (List.append_assoc _ _ _).symm⟩
      · rename_i hlarge
        refine .inr ⟨hfits.resolve_right hlarge, rfl, ?_⟩
        rw [List.append_nil]
        exact List.prefix_append _ _
    · rw [hended, Transducer.run_none, List.append_nil]
      exact .inr ⟨hmay, rfl, hgiven.trans (List.prefix_append _ _)⟩

/-- A ping or a pong among the pieces changes nothing. -/
theorem reading_control (hp : p.isControl = true) :
    reading limit o (pieces ++ p :: rest) = reading limit o (pieces ++ rest) := by
  have hskip : ∀ o, (textReader (protocolReader limit)).run o (p :: rest) =
      (textReader (protocolReader limit)).run o rest := by
    intro o
    rw [skips_control.run_filter, skips_control.run_filter _ rest,
      List.filter_cons_of_neg (by simpa using hp)]
  simp only [reading, Transducer.run_append, hskip]

/-- A close frame among them ends the reading there. -/
theorem reading_close : reading limit o (pieces ++ .close :: rest) =
    (none, (reading limit o pieces).2) := by
  have hends : ∀ o, (textReader (protocolReader limit)).run o (.close :: rest) = (none, []) := by
    intro o
    rcases o with - | ⟨held, ⟨⟩⟩
    · simp
    · rw [Transducer.run_cons,
        show (textReader (protocolReader limit)).step (held, ()) .close = (none, []) from rfl]
      simp
  rw [reading, Transducer.run_append, hends, List.append_nil]

/-- A control frame goes between them. -/
theorem control (hp : p.frame? = none) (hshort : p.short = true) (hopen : mayEnd ∨ p ≠ .close)
    (h : OnTheWay mayEnd limit o (pieces ++ rest) given fed) :
    OnTheWay mayEnd limit o (pieces ++ p :: rest) given fed := by
  obtain ⟨hconforms, hreaches⟩ := h
  obtain ⟨hbefore, hbehind⟩ := (Transducer.meets_append _ _ _ _).mp hconforms
  have hhere : ∀ held, Conforms held p := by
    intro held
    cases p with
    | data frame => cases hp
    | _ => exact hshort
  by_cases hclose : p = .close
  · subst hclose
    refine ⟨(Transducer.meets_append _ _ _ _).mpr ⟨hbefore, ?_⟩, ?_⟩
    · rcases (reading limit o pieces).1 with - | ⟨held, ⟨⟩⟩
      · exact Transducer.meets_none _ _
      · exact ⟨hhere held, Transducer.meets_none _ _⟩
    · rw [reading_close]
      refine .inr ⟨hopen.resolve_right fun h => h rfl, rfl, ?_⟩
      have hgrows : given ++ (reading limit o pieces).2 <+:
          given ++ (reading limit o (pieces ++ rest)).2 :=
        (List.prefix_append_right_inj _).mpr
          (Transducer.run_prefix _ o (List.prefix_append pieces rest))
      rcases hreaches with ⟨-, rfl⟩ | ⟨-, -, h⟩
      · exact hgrows
      · exact hgrows.trans h
  · have hcontrol : p.isControl = true := by
      cases p with
      | data frame => cases hp
      | ping bytes => rfl
      | pong bytes => rfl
      | close => exact absurd rfl hclose
    refine ⟨(Transducer.meets_append _ _ _ _).mpr ⟨hbefore, ?_⟩, by rwa [reading_control hcontrol]⟩
    revert hbehind
    rcases ((textReader (protocolReader limit)).run o pieces).1 with - | ⟨held, u⟩
    · exact fun _ => Transducer.meets_none _ _
    · intro hbehind
      rw [Transducer.meets_cons, skips_control _ _ hcontrol]
      exact ⟨hhere held, hbehind⟩

/-- The first piece is read. -/
theorem take {q : Option (List UInt8) × Unit}
    (h : OnTheWay mayEnd limit (some q) (p :: rest) given fed) : Conforms q.1 p ∧
      OnTheWay mayEnd limit ((textReader (protocolReader limit)).step q p).1 rest
        (given ++ ((textReader (protocolReader limit)).step q p).2) fed := by
  obtain ⟨⟨hhere, hbehind⟩, hreaches⟩ := h
  refine ⟨hhere, hbehind, ?_⟩
  unfold reading at hreaches ⊢
  rw [Transducer.run_cons] at hreaches
  simpa only [List.append_assoc] using hreaches

/-- The reading is broken off. -/
theorem breakOff (h : OnTheWay mayEnd limit o pieces given fed) (hmay : mayEnd)
    (rest : List Piece) : OnTheWay mayEnd limit none rest given fed := by
  refine ⟨Transducer.meets_none _ _, ?_⟩
  unfold reading
  rw [Transducer.run_none, List.append_nil]
  exact .inr ⟨hmay, rfl, h.given_prefix⟩

end OnTheWay

/-! ## One way of the connection -/

/-- The steps that do not end the connection: nothing breaks, and the
transport sends no close frame. -/
def Unbroken (_ : End σ) : EndEvent J → Prop
  | .breaks | .control .close => False
  | _ => True

section

variable {R : Option ℕ → Transducer σ Piece Incoming} {mayEnd : Prop}
  {rel : Option ℕ → σ → Option (List UInt8) → Prop} {x x' y : End σ} {e : EndEvent J}

/-- **What one end is fed is on its way to the other**, whose reader is in
some state of the prescribed reading. -/
def Carried (rel : Option ℕ → σ → Option (List UInt8) → Prop) (mayEnd : Prop) (x y : End σ) :
    Prop :=
  x.taken ≤ y.sent.length ∧ ∃ o,
    Option.Rel (fun p q => rel x.options.maxMessageSize p.1 q.1 ∧ p.2 = q.2) x.reader o ∧
      OnTheWay mayEnd x.options.maxMessageSize o (y.sent.drop x.taken ++ y.unsent)
        (x.session.received ++ x.texts) y.fed

/-- The end that takes moves. -/
theorem Carried.takes (hR : ∀ limit, (R limit).Follows (protocolReader limit) Conforms (rel limit))
    (h : Carried rel mayEnd x y) (hdel : x.delivers y e = true) (hok : mayEnd ∨ Unbroken x e)
    (hstep : End.Step J R x e x') : Carried rel mayEnd x' y := by
  obtain ⟨hle, o, hrel, hway⟩ := h
  cases hstep with
  | hears htexts hs =>
    refine ⟨hle, o, hrel, ?_⟩
    simpa [Session.received_of_next hs, htexts] using hway
  | feeds hwriter hs =>
    refine ⟨hle, o, hrel, ?_⟩
    simpa [(Session.step_of_next hs).received (by simp)] using hway
  | moves hreceive hfeeds hs =>
    refine ⟨hle, o, hrel, ?_⟩
    simpa [(Session.step_of_next hs).received hreceive] using hway
  | emits hunsent => exact ⟨hle, o, hrel, hway⟩
  | control hp => exact ⟨hle, o, hrel, hway⟩
  | @takes p s hreader =>
    obtain hp : y.sent[x.taken]? = some p := by simpa [End.delivers] using hdel
    have hlt := (List.getElem?_eq_some_iff.mp hp).1
    rw [hreader] at hrel
    obtain ⟨q, rfl, hs⟩ : ∃ q, o = some q ∧ rel x.options.maxMessageSize s.1 q.1 ∧ s.2 = q.2 := by
      cases hrel with
      | some hs => exact ⟨_, rfl, hs⟩
    have hdrop : y.sent.drop x.taken = p :: y.sent.drop (x.taken + 1) := by
      rw [List.drop_eq_getElem_cons hlt, ← (List.getElem?_eq_some_iff.mp hp).2]
    rw [hdrop, List.cons_append] at hway
    obtain ⟨hconforms, hrest⟩ := hway.take
    obtain ⟨hout, hnext⟩ :=
      (textReader_refines (hR x.options.maxMessageSize)).step s q p hs hconforms
    refine ⟨hlt, _, hnext, ?_⟩
    simpa [hout] using hrest
  | breaks => exact ⟨hle, none, .none, hway.breakOff (hok.resolve_right id) _⟩

/-- The end that sends moves. -/
theorem Carried.sends (h : Carried rel mayEnd x y) (hok : mayEnd ∨ Unbroken y e)
    {y' : End σ} (hfits : ∀ text ∈ y'.fed,
      mayEnd ∨ fitsLimit x.options.maxMessageSize (byteSize text.toList) = true)
    (hstep : End.Step J R y e y') : Carried rel mayEnd x y' := by
  obtain ⟨hle, o, hrel, hway⟩ := h
  cases hstep with
  | feeds hwriter hs =>
    refine ⟨hle, o, hrel, ?_⟩
    rw [← List.append_assoc]
    exact hway.feed (hfits _ (List.mem_append_right _ (List.mem_singleton.mpr rfl)))
  | @emits p rest hunsent =>
    refine ⟨by simp; omega, o, hrel, ?_⟩
    rw [hunsent] at hway
    simpa [List.drop_append_of_le_length hle] using hway
  | @control p hp hshort =>
    refine ⟨by simp; omega, o, hrel, ?_⟩
    have hopen : mayEnd ∨ p ≠ .close := hok.imp_right fun hno hclose => by
      subst hclose
      exact hno
    simpa [List.drop_append_of_le_length hle] using hway.control hp hshort hopen
  | _ => exact ⟨hle, o, hrel, hway⟩

/-- Nothing is on its way at the start. -/
theorem carried_init (hR : ∀ limit, (R limit).Follows (protocolReader limit) Conforms (rel limit))
    (hx : (End.machine J R).init x) (hy : (End.machine J R).init y) : Carried rel mayEnd x y := by
  obtain ⟨options, session, ⟨id, limits, handlers, budget, elsewhere, rfl⟩, -, rfl⟩ := hx
  obtain ⟨options', session', -, -, rfl⟩ := hy
  exact ⟨Nat.le_refl _, some (none, ()), .some ⟨(hR _).start, rfl⟩, trivial, .inl ⟨rfl, rfl⟩⟩

/-- The options stay as they are. -/
theorem End.Step.options (h : End.Step J R x e x') : x'.options = x.options := by
  cases h <;> rfl

end

/-! ## The whole connection -/

section

variable {R : Option ℕ → Transducer σ Piece Incoming}
  {rel : Option ℕ → σ → Option (List UInt8) → Prop} {x y : End σ}

/-- In every run what is fed is on its way, or the reading has ended. -/
theorem carried_of_reachable {ok : End σ → EndEvent J → Prop}
    (hR : ∀ limit, (R limit).Follows (protocolReader limit) Conforms (rel limit))
    (h : (framedLink J R).ReachableBy (Machine.both ok ok) (x, y)) : Carried rel True x y :=
  Machine.ReachableBy.couple_sides (P := Carried rel True) (fun _ _ => carried_init hR)
    (fun _ _ _ _ _ _ hdel hn h => h.takes hR hdel (.inl trivial) (End.step_of_next hn))
    (fun _ _ _ _ _ _ _ hn h =>
      h.sends (.inl trivial) (fun _ _ => .inl trivial) (End.step_of_next hn)) h

/-- **A step of one end is none of its session, or one the link allows.** -/
theorem session_of_step {ok : Session → Event J → Prop} {x' : End σ} {e : EndEvent J}
    (hR : ∀ limit, (R limit).Follows (protocolReader limit) Conforms (rel limit))
    (h : (framedLink J R).ReachableBy (Machine.both (onSession ok) (onSession ok)) (x, y))
    (hok : onSession ok x e) (hstep : End.Step J R x e x') :
    x'.session = x.session ∨ ∃ e', ok x.session e' ∧ x.session.delivers y.session e' = true ∧
      (Session.machine J).next x.session e' = some x'.session := by
  cases hstep with
  | @hears text rest s htexts hs =>
    -- the text the stream has is the next of those the other end was fed
    obtain ⟨-, o, -, hway⟩ := carried_of_reachable hR h
    have hgiven : (x.session.received ++ x.texts)[x.session.received.length]? = some text := by
      simp [htexts]
    have hfed := getElem?_of_extends hway.given_prefix hgiven
    have hwire := (End.fed_of_reachable h.couple_snd).wire _ text hfed
    exact .inr ⟨_, hok, by simpa [delivers] using hwire, hs⟩
  | feeds hwriter hs => exact .inr ⟨_, hok, rfl, hs⟩
  | @moves e s hreceive hfeeds hs =>
    refine .inr ⟨e, hok, ?_, hs⟩
    unfold delivers
    split
    · exact absurd rfl (hreceive _)
    · rfl
  | _ => exact .inl rfl

/-- **Over a WebSocket two sessions run as over the link**: whatever sizes
texts are cut to, whatever control frames come between the frames, and
wherever the connection breaks. -/
theorem Link.reachableBy_of_framed {ok : Session → Event J → Prop}
    (hR : ∀ limit, (R limit).Follows (protocolReader limit) Conforms (rel limit))
    (h : (framedLink J R).ReachableBy (Machine.both (onSession ok) (onSession ok)) (x, y)) :
    Link.ReachableBy J ok x.session y.session := by
  refine h.project (f := fun p => (p.1.session, p.2.session)) ?_ ?_
  · rintro p ⟨⟨options, session, hinit, -, hx⟩, options', session', hinit', -, hy⟩
    exact ⟨by rw [hx]; exact hinit, by rw [hy]; exact hinit'⟩
  · rintro ⟨x, y⟩ (e | e) ⟨x', y'⟩ hreach hok hn
    · obtain ⟨hdel, hstep, hsame⟩ := Machine.couple_inl.mp hn
      cases hsame
      rcases session_of_step hR hreach hok (End.step_of_next hstep) with hsame | ⟨e', hok', hdel', hs⟩
      · rw [hsame]; exact .refl _
      · exact .single (e := .inl e') hok' (Machine.couple_inl.mpr ⟨hdel', hs, rfl⟩)
    · obtain ⟨hdel, hstep, hsame⟩ := Machine.couple_inr.mp hn
      cases hsame
      rcases session_of_step hR hreach.couple_swap hok (End.step_of_next hstep) with
        hsame | ⟨e', hok', hdel', hs⟩
      · rw [hsame]; exact .refl _
      · exact .single (e := .inr e') hok' (Machine.couple_inr.mpr ⟨hdel', hs, rfl⟩)

end

/-! ## A run over frames

One side sends a message in two frames, with a ping between them. -/

/-- The reader the protocol prescribes, at both ends. -/
abbrev plainLink : Machine (End (Option (List UInt8)) × End (Option (List UInt8)))
    (EndEvent compactJson ⊕ EndEvent compactJson) :=
  framedLink compactJson protocolReader

/-- What the builders of the two ends were told. -/
def smallCalls : List BuilderCall := [.sessionLimits smallLimits, .fragmentSize (some 16)]

/-- An end with a small session. -/
def smallEnd (handlers : List (String × Handler)) : End (Option (List UInt8)) where
  options := .build smallCalls
  session := small handlers
  reader := some (none, ())

theorem init_smallEnd (handlers : List (String × Handler)) :
    (End.machine compactJson protocolReader).init (smallEnd handlers) :=
  ⟨_, _, init_small compactJson handlers, rfl, rfl⟩

/-- The run. -/
def framedRun : List (EndEvent compactJson ⊕ EndEvent compactJson) :=
  (Link.sendsRun.map fun e => .inl (.session e)) ++
  ([.writer .steps, .writer .steps, .writer .steps, .writer .steps, .writer .feeds].map
    fun e => .inl (.session e)) ++
  [.inl .emits, .inl (.control (.ping [])), .inl .emits] ++
  ([.data ⟨utf8 "MSGAAAAAAAAAAAA\x7b".toList, .text, false⟩, .ping [],
    .data ⟨utf8 "\"@type\":\"t\"\x7d".toList, .continue_, true⟩].map fun p => .inr (.takes p)) ++
  [.inr (.session (.receive Link.sentText))]

/-- The message is heard, and the link has a run to the same sessions. -/
theorem reachableBy_of_framedRun : ∃ x y,
    plainLink.run (smallEnd [], smallEnd []) framedRun = some (x, y) ∧
      y.session.received = [Link.sentText] ∧
      Link.ReachableBy compactJson Machine.free x.session y.session := by
  have hrun : (plainLink.run (smallEnd [], smallEnd []) framedRun).any
      (fun p => p.2.session.received = [Link.sentText]) = true := by decide +kernel
  obtain ⟨⟨x, y⟩, hs, hend⟩ := Machine.exists_of_run hrun
  have hreach : plainLink.ReachableBy (Machine.both (onSession Machine.free)
      (onSession Machine.free)) (x, y) := by
    obtain ⟨s, hs, hpath⟩ := Machine.reachable_of_run (M := plainLink)
      ⟨init_smallEnd [], init_smallEnd []⟩ hs
    refine ⟨s, hs, hpath.mono fun _ e _ => ?_⟩
    rcases e with (e | - | p | p | -) | (e | - | p | p | -) <;> exact trivial
  exact ⟨x, y, hs, by simpa using hend,
    Link.reachableBy_of_framed (fun limit => .refl (protocolReader limit) Conforms) hreach⟩

end Vcmp
