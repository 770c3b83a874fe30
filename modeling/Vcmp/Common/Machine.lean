import Mathlib.Logic.Basic
import Mathlib.Data.Option.Basic
/-!
# Labelled machines

A machine is a set of initial states and a partial step function. The
label of a step names the party that moves and settles whatever the
state leaves open, so a run is a list of labels and every interleaving
of the parties is some run. Invariants are proved once, by one step.

`Path ok` restricts a run to the steps `ok` admits, which is how a
condition on the environment, or on the schedule, is stated.
-/

namespace Vcmp

/-- **A labelled machine**: its initial states and its partial step. -/
structure Machine (σ ε : Type*) where
  /-- The states a run may begin in. -/
  init : σ → Prop
  /-- The state after the labelled step, where the step is possible. -/
  next : σ → ε → Option σ

namespace Machine

variable {σ ε : Type*} {M : Machine σ ε} {ok : σ → ε → Prop} {s t u : σ} {e : ε}

/-- **A run between two states**, every step of which `ok` admits. -/
inductive Path (M : Machine σ ε) (ok : σ → ε → Prop) : σ → σ → Prop
  | refl (s : σ) : Path M ok s s
  | tail {s t u : σ} {e : ε} : Path M ok s t → ok t e → M.next t e = some u → Path M ok s u

/-- No condition on the steps. -/
def free : σ → ε → Prop := fun _ _ => True

/-- A state some run from an initial state ends in, by steps `ok` admits. -/
def ReachableBy (M : Machine σ ε) (ok : σ → ε → Prop) (s : σ) : Prop :=
  ∃ s₀, M.init s₀ ∧ M.Path ok s₀ s

/-- A state some run ends in. -/
abbrev Reachable (M : Machine σ ε) (s : σ) : Prop := M.ReachableBy free s

namespace Path

theorem single (hok : ok s e) (h : M.next s e = some t) : M.Path ok s t :=
  .tail (.refl s) hok h

theorem trans (h : M.Path ok s t) (h' : M.Path ok t u) : M.Path ok s u := by
  induction h' with
  | refl => exact h
  | tail _ hok hn ih => exact .tail ih hok hn

/-- A run under a condition is a run under any weaker one. -/
theorem mono {ok' : σ → ε → Prop} (hle : ∀ s e, ok s e → ok' s e) (h : M.Path ok s t) :
    M.Path ok' s t := by
  induction h with
  | refl => exact .refl s
  | tail _ hok hn ih => exact .tail ih (hle _ _ hok) hn

/-- **What every admitted step preserves, a run preserves.** -/
theorem preserves {P : σ → Prop} (hstep : ∀ s e t, ok s e → M.next s e = some t → P s → P t)
    (h : M.Path ok s t) (hs : P s) : P t := by
  induction h with
  | refl => exact hs
  | tail _ hok hn ih => exact hstep _ _ _ hok hn ih

/-- **A run relates its ends** by any reflexive and transitive relation
its steps are in. -/
theorem relates {R : σ → σ → Prop} (hrefl : ∀ s, R s s) (htrans : ∀ {s t u}, R s t → R t u → R s u)
    (hstep : ∀ s e t, ok s e → M.next s e = some t → R s t) (h : M.Path ok s t) : R s t := by
  induction h with
  | refl => exact hrefl _
  | tail _ hok hn ih => exact htrans ih (hstep _ _ _ hok hn)

end Path

namespace ReachableBy

theorem of_init (h : M.init s) : M.ReachableBy ok s := ⟨s, h, .refl s⟩

theorem step (h : M.ReachableBy ok s) (hok : ok s e) (hn : M.next s e = some t) :
    M.ReachableBy ok t := by
  obtain ⟨s₀, h₀, hp⟩ := h
  exact ⟨s₀, h₀, .tail hp hok hn⟩

theorem trans (h : M.ReachableBy ok s) (hp : M.Path ok s t) : M.ReachableBy ok t := by
  obtain ⟨s₀, h₀, hp₀⟩ := h
  exact ⟨s₀, h₀, hp₀.trans hp⟩

/-- A state reached under a condition is reached under any weaker one. -/
theorem mono {ok' : σ → ε → Prop} (hle : ∀ s e, ok s e → ok' s e) (h : M.ReachableBy ok s) :
    M.ReachableBy ok' s := by
  obtain ⟨s₀, h₀, hp⟩ := h
  exact ⟨s₀, h₀, hp.mono hle⟩

/-- A state reached under a condition is reached. -/
theorem reachable (h : M.ReachableBy ok s) : M.Reachable s := by
  obtain ⟨s₀, h₀, hp⟩ := h
  exact ⟨s₀, h₀, hp.mono fun _ _ _ => trivial⟩

/-- **The invariant rule.** -/
theorem invariant {P : σ → Prop} (hinit : ∀ s, M.init s → P s)
    (hstep : ∀ s e t, ok s e → M.next s e = some t → P s → P t) (h : M.ReachableBy ok s) : P s := by
  obtain ⟨s₀, h₀, hp⟩ := h
  exact hp.preserves hstep (hinit s₀ h₀)

/-- **The invariant rule, over another invariant**: a step may be taken to
start in a state already known to be reachable. -/
theorem invariant_of {P : σ → Prop} (hinit : ∀ s, M.init s → P s)
    (hstep : ∀ s e t, M.ReachableBy ok s → ok s e → M.next s e = some t → P s → P t)
    (h : M.ReachableBy ok s) : P s := by
  have key : M.ReachableBy ok s ∧ P s := by
    refine ReachableBy.invariant (P := fun s => M.ReachableBy ok s ∧ P s)
      (fun s h => ⟨.of_init h, hinit s h⟩) ?_ h
    rintro s e t hok hn ⟨hr, hp⟩
    exact ⟨hr.step hok hn, hstep s e t hr hok hn hp⟩
  exact key.2

end ReachableBy

/-! ## One machine seen as another -/

section Project

variable {τ δ : Type*} {N : Machine τ δ} {ok' : τ → δ → Prop} {f : σ → τ}

/-- **A run of one machine is a run of another** where each of its steps is. -/
theorem Path.project
    (hstep : ∀ s e t, M.ReachableBy ok s → ok s e → M.next s e = some t → N.Path ok' (f s) (f t))
    (hs : M.ReachableBy ok s) (h : M.Path ok s t) : N.Path ok' (f s) (f t) := by
  induction h with
  | refl => exact .refl _
  | tail hp hok hn ih => exact ih.trans (hstep _ _ _ (hs.trans hp) hok hn)

theorem ReachableBy.project (hinit : ∀ s, M.init s → N.init (f s))
    (hstep : ∀ s e t, M.ReachableBy ok s → ok s e → M.next s e = some t → N.Path ok' (f s) (f t))
    (h : M.ReachableBy ok s) : N.ReachableBy ok' (f s) := by
  obtain ⟨s₀, h₀, hp⟩ := h
  exact ⟨f s₀, hinit s₀ h₀, hp.project hstep (.of_init h₀)⟩

end Project

/-! ## Runs as lists of labels -/

/-- The state after a list of labels, where each step is possible. -/
def run (M : Machine σ ε) : σ → List ε → Option σ
  | s, [] => some s
  | s, e :: es => (M.next s e).bind fun t => M.run t es

theorem path_of_run {es : List ε} (h : M.run s es = some t) : M.Path free s t := by
  induction es generalizing s with
  | nil =>
    simp only [run, Option.some.injEq] at h
    exact h ▸ .refl s
  | cons e es ih =>
    simp only [run, Option.bind_eq_some_iff] at h
    obtain ⟨u, hu, hrest⟩ := h
    exact (Path.single trivial hu).trans (ih hrest)

/-- A list of labels each of which `ok` admits where it is taken. -/
def admits (M : Machine σ ε) (ok : σ → ε → Bool) : σ → List ε → Bool
  | _, [] => true
  | s, e :: es => ok s e && match M.next s e with
    | some t => M.admits ok t es
    | none => false

theorem path_of_admits {okb : σ → ε → Bool} {es : List ε} (hok : ∀ s e, okb s e = true → ok s e)
    (ha : M.admits okb s es = true) (h : M.run s es = some t) : M.Path ok s t := by
  induction es generalizing s with
  | nil =>
    simp only [run, Option.some.injEq] at h
    exact h ▸ .refl s
  | cons e es ih =>
    simp only [run, Option.bind_eq_some_iff] at h
    obtain ⟨u, hu, hrest⟩ := h
    simp only [admits, hu, Bool.and_eq_true] at ha
    exact (Path.single (hok s e ha.1) hu).trans (ih ha.2 hrest)

/-- A list of labels that ends where a check holds. -/
theorem exists_of_run {p : σ → Bool} {es : List ε} (h : (M.run s es).any p = true) :
    ∃ t, M.run s es = some t ∧ p t = true := by
  simpa [Option.any_eq_true] using h

/-- A run of which a check admits every step. -/
theorem reachableBy_of_run (okb : σ → ε → Bool) {es : List ε}
    (hok : ∀ s e, okb s e = true → ok s e) (h₀ : M.init s) (ha : M.admits okb s es = true)
    (h : M.run s es = some t) : M.ReachableBy ok t :=
  ⟨s, h₀, path_of_admits hok ha h⟩

theorem reachable_of_run {es : List ε} (h₀ : M.init s) (h : M.run s es = some t) :
    M.Reachable t :=
  ⟨s, h₀, path_of_run h⟩

/-! ## Two machines side by side -/

section Couple

variable {τ δ : Type*}

/-- **Two machines coupled**: either moves, where the coupling admits the
step in the joint state. -/
def couple (M : Machine σ ε) (N : Machine τ δ) (left : σ → τ → ε → Bool)
    (right : σ → τ → δ → Bool) : Machine (σ × τ) (ε ⊕ δ) where
  init p := M.init p.1 ∧ N.init p.2
  next p
    | .inl e => if left p.1 p.2 e then (M.next p.1 e).map fun s => (s, p.2) else none
    | .inr d => if right p.1 p.2 d then (N.next p.2 d).map fun t => (p.1, t) else none

variable {N : Machine τ δ} {left : σ → τ → ε → Bool} {right : σ → τ → δ → Bool}
  {p q : σ × τ} {d : δ}

theorem couple_inl : (couple M N left right).next p (.inl e) = some q ↔
    left p.1 p.2 e = true ∧ M.next p.1 e = some q.1 ∧ q.2 = p.2 := by
  obtain ⟨a, b⟩ := p
  obtain ⟨a', b'⟩ := q
  simp only [couple, Option.ite_none_right_eq_some, Option.map_eq_some_iff, Prod.mk.injEq]
  constructor
  · rintro ⟨hl, c, hc, rfl, rfl⟩; exact ⟨hl, hc, rfl⟩
  · rintro ⟨hl, hc, rfl⟩; exact ⟨hl, a', hc, rfl, rfl⟩

theorem couple_inr : (couple M N left right).next p (.inr d) = some q ↔
    right p.1 p.2 d = true ∧ N.next p.2 d = some q.2 ∧ q.1 = p.1 := by
  obtain ⟨a, b⟩ := p
  obtain ⟨a', b'⟩ := q
  simp only [couple, Option.ite_none_right_eq_some, Option.map_eq_some_iff, Prod.mk.injEq]
  constructor
  · rintro ⟨hl, c, hc, rfl, rfl⟩; exact ⟨hl, hc, rfl⟩
  · rintro ⟨hl, hc, rfl⟩; exact ⟨hl, b', hc, rfl, rfl⟩

/-- A condition on the steps of each side. -/
def both (ok : σ → ε → Prop) (ok' : τ → δ → Prop) (p : σ × τ) : ε ⊕ δ → Prop
  | .inl e => ok p.1 e
  | .inr d => ok' p.2 d

/-- A check of the steps of each side. -/
def bothb (okb : σ → ε → Bool) (okb' : τ → δ → Bool) (p : σ × τ) : ε ⊕ δ → Bool
  | .inl e => okb p.1 e
  | .inr d => okb' p.2 d

theorem both_of_bothb {okb : σ → ε → Bool} {okb' : τ → δ → Bool} {ok' : τ → δ → Prop}
    (hok : ∀ s e, okb s e = true → ok s e) (hok' : ∀ t d, okb' t d = true → ok' t d) (p : σ × τ)
    (e : ε ⊕ δ) (h : bothb okb okb' p e = true) : both ok ok' p e := by
  cases e with
  | inl e => exact hok p.1 e h
  | inr d => exact hok' p.2 d h

/-- **Each side of a coupled run is a run of its own machine**, under its own condition. -/
theorem ReachableBy.couple_fst {ok' : τ → δ → Prop}
    (h : (couple M N left right).ReachableBy (both ok ok') p) : M.ReachableBy ok p.1 := by
  have hinit : ∀ p, (couple M N left right).init p → M.ReachableBy ok p.1 :=
    fun _ hp => .of_init hp.1
  refine h.invariant (P := fun p => M.ReachableBy ok p.1) hinit ?_
  rintro p (e | d) q hok hn hp
  · exact hp.step hok (couple_inl.mp hn).2.1
  · rw [(couple_inr.mp hn).2.2]; exact hp

theorem ReachableBy.couple_snd {ok' : τ → δ → Prop}
    (h : (couple M N left right).ReachableBy (both ok ok') p) : N.ReachableBy ok' p.2 := by
  have hinit : ∀ p, (couple M N left right).init p → N.ReachableBy ok' p.2 :=
    fun _ hp => .of_init hp.2
  refine h.invariant (P := fun p => N.ReachableBy ok' p.2) hinit ?_
  rintro p (e | d) q hok hn hp
  · rw [(couple_inl.mp hn).2.2]; exact hp
  · exact hp.step hok (couple_inr.mp hn).2.1

/-- **The sides of a coupled run may be exchanged.** -/
theorem ReachableBy.couple_swap {ok' : τ → δ → Prop}
    (h : (couple M N left right).ReachableBy (both ok ok') p) :
    (couple N M (fun t s d => right s t d) (fun t s e => left s t e)).ReachableBy (both ok' ok)
      p.swap := by
  refine h.invariant (P := fun p => (couple N M (fun t s d => right s t d)
    (fun t s e => left s t e)).ReachableBy (both ok' ok) p.swap) ?_ ?_
  · intro p hp
    exact .of_init ⟨hp.2, hp.1⟩
  · rintro p (e | d) q hok hn hp
    · obtain ⟨hleft, hstep, hsame⟩ := couple_inl.mp hn
      exact hp.step (e := .inr e) hok (couple_inr.mpr ⟨hleft, hstep, hsame⟩)
    · obtain ⟨hright, hstep, hsame⟩ := couple_inr.mp hn
      exact hp.step (e := .inl d) hok (couple_inl.mpr ⟨hright, hstep, hsame⟩)

end Couple

/-- **The invariant rule of a machine coupled with itself**: what holds of two
sides at their start, and is kept by a step of the first, both ways around,
holds in every run. -/
theorem ReachableBy.couple_sides {d : σ → σ → ε → Bool} {P : σ → σ → Prop} {p : σ × σ}
    (hinit : ∀ s t, M.init s → M.init t → P s t)
    (hfst : ∀ s t e s', (couple M M d fun a b e => d b a e).ReachableBy (both ok ok) (s, t) →
      ok s e → d s t e = true → M.next s e = some s' → P s t → P s' t)
    (hsnd : ∀ s t e s', (couple M M d fun a b e => d b a e).ReachableBy (both ok ok) (s, t) →
      ok s e → d s t e = true → M.next s e = some s' → P t s → P t s')
    (h : (couple M M d fun a b e => d b a e).ReachableBy (both ok ok) p) : P p.1 p.2 := by
  refine h.invariant_of (P := fun p => P p.1 p.2) ?_ ?_
  · rintro p ⟨hfirst, hsecond⟩
    exact hinit p.1 p.2 hfirst hsecond
  rintro ⟨s, t⟩ (e | e) ⟨s', t'⟩ hreach hok hn hp
  · obtain ⟨hd, hstep, hsame⟩ := couple_inl.mp hn
    cases hsame
    exact hfst s t e s' hreach hok hd hstep hp
  · obtain ⟨hd, hstep, hsame⟩ := couple_inr.mp hn
    cases hsame
    exact hsnd t s e t' hreach.couple_swap hok hd hstep hp

end Machine

end Vcmp
