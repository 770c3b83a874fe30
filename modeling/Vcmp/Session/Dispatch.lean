import Vcmp.Session.Works
/-!
# The handler of a message

The handlers of a session are what the calls of `on` and `off` have left
of them, the last one for a type decides. A message is given its handler
in one step, which looks in the map as it is then, so a handler that is
replaced or taken off later still gets the messages dispatched before.
-/

namespace Vcmp

namespace Session

variable {J : JsonText} {s s' : Session} {e : Event J} {es : List (Event J)} {j : ℕ} {w : Work}
variable {key : String} {handler : Handler}

/-! ## The map -/

/-- What a call of `on` or `off` leaves under a type: a handler, or none. -/
def Event.sets (key : String) : Event J → Option (Option Handler)
  | .on type_ handler => if type_ = key then some (some handler) else none
  | .off type_ => if type_ = key then some none else none
  | _ => none

/-- What the last such call for a type leaves. -/
def lastSet (key : String) : List (Event J) → Option (Option Handler)
  | [] => none
  | e :: es => (lastSet key es).or (e.sets key)

/-- Only `on` and `off` touch the handlers, -/
theorem handlers_of_next (hn : (machine J).next s e = some s')
    (hon : ∀ type_ handler, e ≠ .on type_ handler) (hoff : ∀ type_, e ≠ .off type_) :
    s'.handlers = s.handlers := by
  cases step_of_next hn with
  | exchange _ h =>
    cases h with
    | enqueues _ he => obtain ⟨_, _, _, _, _, rfl⟩ := he.frame; rfl
    | _ => rfl
  | beat _ h =>
    cases h with
    | enqueues _ he => obtain ⟨_, _, _, _, _, rfl⟩ := he.frame; rfl
    | _ => rfl
  | raw _ he => obtain ⟨_, _, _, _, _, rfl⟩ := he.frame; rfl
  | on => exact absurd rfl (hon _ _)
  | off => exact absurd rfl (hoff _)
  | receive _ h => cases h <;> rfl
  | drive h => cases h <;> rfl
  | work _ h =>
    cases h with
    | writes _ he => obtain ⟨_, _, _, _, _, rfl⟩ := he.frame; rfl
    | unwritten _ he => obtain ⟨_, _, _, _, _, rfl⟩ := he.frame; rfl
    | written _ he => obtain ⟨_, _, _, _, _, rfl⟩ := he.frame; rfl
    | _ => rfl
  | writer h => cases h <;> rfl
  | _ => rfl

/-- **and those of their type only.** -/
theorem mem_handlers_of_next (hn : (machine J).next s e = some s') :
    (key, handler) ∈ s'.handlers.entries ↔ e.sets key = some (some handler) ∨
      (e.sets key = none ∧ (key, handler) ∈ s.handlers.entries) := by
  cases e with
  | on type_ h =>
    obtain rfl := Option.some.inj hn
    by_cases hkey : type_ = key
    · subst hkey
      simp [Event.sets, eq_comm]
    · simp [Event.sets, hkey, Ne.symm hkey]
  | off type_ =>
    obtain rfl := Option.some.inj hn
    by_cases hkey : type_ = key
    · subst hkey
      simp [Event.sets]
    · simp [Event.sets, hkey, Ne.symm hkey]
  | _ =>
    rw [handlers_of_next hn (by simp) (by simp)]
    simp [Event.sets]

/-- **What is registered after a run** is what the last call for the type
left, and what was there before where there is none. -/
theorem mem_handlers_of_run (h : (machine J).run s es = some s') :
    (key, handler) ∈ s'.handlers.entries ↔ lastSet key es = some (some handler) ∨
      (lastSet key es = none ∧ (key, handler) ∈ s.handlers.entries) := by
  induction es generalizing s with
  | nil =>
    obtain rfl := Option.some.inj h
    simp [lastSet]
  | cons e es ih =>
    obtain ⟨s₁, hn, hrest⟩ := Option.bind_eq_some_iff.mp h
    rw [ih hrest, mem_handlers_of_next hn]
    cases hlast : lastSet key es with
    | none => simp [lastSet, hlast]
    | some last => simp [lastSet, hlast]

/-! ## The step that dispatches -/

/-- What a work was given it keeps, and it is given a handler by the step that dispatches it. -/
theorem WorkStep.gives (h : WorkStep J s j w e s') : ∃ w' : Work, s'.works = s.works.set j w' ∧
    ((w'.handler = w.handler ∧ w'.registry = w.registry) ∨
      (e = .work j ∧ w.pc = .dispatching ∧ w'.registry = s.handlers)) := by
  cases h with
  | writes _ he => obtain ⟨_, _, _, _, _, rfl⟩ := he.frame; exact ⟨_, rfl, .inl ⟨rfl, rfl⟩⟩
  | unwritten _ he => obtain ⟨_, _, _, _, _, rfl⟩ := he.frame; exact ⟨_, rfl, .inl ⟨rfl, rfl⟩⟩
  | written _ he => obtain ⟨_, _, _, _, _, rfl⟩ := he.frame; exact ⟨_, rfl, .inl ⟨rfl, rfl⟩⟩
  | spawned hpc => exact ⟨_, rfl, .inr ⟨rfl, hpc, rfl⟩⟩
  | _ => exact ⟨_, rfl, .inl ⟨rfl, rfl⟩⟩

/-- **A work that has a handler after a step** had it before, or is dispatched by the step. -/
theorem given_of_next (hn : (machine J).next s e = some s') (hw : s'.works[j]? = some w)
    (hhandler : w.handler = some handler) :
    (∃ w₀, s.works[j]? = some w₀ ∧ w₀.handler = some handler ∧ w₀.registry = w.registry) ∨
      (e = .work j ∧ w.registry = s.handlers ∧
        ∃ w₀, s.works[j]? = some w₀ ∧ w₀.pc = .dispatching) := by
  rcases (step_of_next hn).works with ⟨hsame, -⟩ | ⟨text, id, payload, -, -, rfl⟩ |
    ⟨i, w₀, hi, hstep⟩
  · exact .inl ⟨w, hsame ▸ hw, hhandler, rfl⟩
  · rcases getElem?_concat_cases hw with ⟨-, rfl⟩ | hold
    · cases hhandler
    · exact .inl ⟨w, hold, hhandler, rfl⟩
  · obtain ⟨w', hworks, hgives⟩ := hstep.gives
    rcases getElem?_set_cases (hworks ▸ hw) with ⟨rfl, rfl⟩ | ⟨-, hold⟩
    · rcases hgives with ⟨hkept, hregistry⟩ | ⟨he, hpc, hregistry⟩
      · exact .inl ⟨w₀, hi, hkept ▸ hhandler, hregistry.symm⟩
      · exact .inr ⟨he, hregistry, w₀, hi, hpc⟩
    · exact .inl ⟨w, hold, hhandler, rfl⟩

/-- **The handlers a work was given its handler from** are those of the session at one step
of the run, the one that dispatches it. -/
def DispatchedIn (J : JsonText) (s : Session) (es : List (Event J)) (j : ℕ) (w : Work) : Prop :=
  ∃ (before after : List (Event J)) (t : Session) (w₀ : Work), es = before ++ .work j :: after ∧
    (machine J).run s before = some t ∧ t.works[j]? = some w₀ ∧ w₀.pc = .dispatching ∧
    w.registry = t.handlers

/-- **A work that has a handler after a run** had it before, or is dispatched in the run. -/
theorem dispatchedIn_of_run (h : (machine J).run s es = some s') (hw : s'.works[j]? = some w)
    (hhandler : w.handler = some handler) :
    (∃ w₀, s.works[j]? = some w₀ ∧ w₀.handler = some handler ∧ w₀.registry = w.registry) ∨
      DispatchedIn J s es j w := by
  induction es generalizing s with
  | nil =>
    obtain rfl := Option.some.inj h
    exact .inl ⟨w, hw, hhandler, rfl⟩
  | cons e es ih =>
    obtain ⟨s₁, hn, hrest⟩ := Option.bind_eq_some_iff.mp h
    rcases ih hrest with ⟨w₁, hw₁, hhandler₁, hregistry⟩ |
      ⟨before, after, t, w₀, rfl, hrun, hw₀, hpc, hregistry⟩
    · rcases given_of_next hn hw₁ hhandler₁ with ⟨w₀, hw₀, hhandler₀, hregistry₀⟩ |
        ⟨rfl, hhandlers, w₀, hw₀, hpc⟩
      · exact .inl ⟨w₀, hw₀, hhandler₀, hregistry₀.trans hregistry⟩
      · exact .inr ⟨[], es, s, w₀, rfl, rfl, hw₀, hpc, hregistry.symm.trans hhandlers⟩
    · refine .inr ⟨e :: before, after, t, w₀, rfl, ?_, hw₀, hpc, hregistry⟩
      exact Option.bind_eq_some_iff.mpr ⟨s₁, hn, hrun⟩

end Session

end Vcmp
