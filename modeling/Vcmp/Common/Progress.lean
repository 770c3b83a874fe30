import Mathlib.Data.Nat.Notation
import Vcmp.Common.Machine
import Vcmp.Common.Tally
/-!
# Progress of a machine

A rank that some steps bring down, and that the others raise by no more
than what they are known for, bounds how often the first can be taken in
a run. Where such a step can always be taken until a goal is met, some
run of them meets it, and no run can go on without it for ever.
-/

namespace Vcmp

namespace Machine

variable {σ ε : Type*} {M : Machine σ ε} {P : σ → Prop} (rank : σ → ℕ)

/-- What the steps of a run cost, each where it is taken. -/
def cost (M : Machine σ ε) (own : σ → ε → ℕ) : σ → List ε → ℕ
  | _, [] => 0
  | s, e :: es => own s e + match M.next s e with
    | some t => cost M own t es
    | none => 0

/-- **The rank bounds what a run costs**, where each step takes it down by
what it costs itself and puts on it what it adds at most. -/
theorem cost_le (own : σ → ε → ℕ) (adds : ε → ℕ)
    (hstep : ∀ s e t, P s → M.next s e = some t → P t ∧ rank t + own s e ≤ rank s + adds e)
    {s t : σ} {es : List ε} (hs : P s) (h : M.run s es = some t) :
    P t ∧ M.cost own s es + rank t ≤ rank s + total adds es := by
  induction es generalizing s with
  | nil =>
    simp only [run, Option.some.injEq] at h
    subst h
    exact ⟨hs, by simp [cost]⟩
  | cons e es ih =>
    simp only [run, Option.bind_eq_some_iff] at h
    obtain ⟨u, hu, hrest⟩ := h
    obtain ⟨hPu, hle⟩ := hstep s e u hs hu
    obtain ⟨hPt, hrank⟩ := ih hPu hrest
    refine ⟨hPt, ?_⟩
    rw [cost, hu, total_cons]
    change own s e + M.cost own u es + rank t ≤ _
    omega

/-- What a run costs where every step of a kind costs one. -/
theorem cost_of_kind (own : ε → Bool) {s t : σ} {es : List ε} (h : M.run s es = some t) :
    M.cost (fun _ e => if own e then 1 else 0) s es = es.countP own := by
  induction es generalizing s with
  | nil => rfl
  | cons e es ih =>
    simp only [run, Option.bind_eq_some_iff] at h
    obtain ⟨u, hu, hrest⟩ := h
    rw [cost, hu, List.countP_cons, Nat.add_comm]
    change M.cost _ u es + _ = _
    rw [ih hrest]

/-- **The rank bounds the steps of a kind**, where each of them takes it down
and only steps of another kind put something on it, at most `n` each. -/
theorem run_bounds (own adds : ε → Bool) {n : ℕ}
    (hstep : ∀ s e t, P s → M.next s e = some t →
      P t ∧ rank t + (if own e then 1 else 0) ≤ rank s + if adds e then n else 0)
    {s t : σ} {es : List ε} (hs : P s) (h : M.run s es = some t) :
    P t ∧ es.countP own + rank t ≤ rank s + n * es.countP adds := by
  have hle := cost_le rank (fun _ e => if own e then 1 else 0) (fun e => if adds e then n else 0)
    hstep hs h
  rwa [cost_of_kind own h, total_ite] at hle

/-- **A goal that is met or nearer after some step is met by some run.** -/
theorem exists_run_of_rank (own : ε → Prop) (goal : σ → Prop)
    (hnear : ∀ s, P s → goal s ∨ ∃ e t, own e ∧ M.next s e = some t ∧ P t ∧ rank t < rank s)
    {s : σ} (hs : P s) :
    ∃ es t, M.run s es = some t ∧ (∀ e ∈ es, own e) ∧ goal t ∧ es.length ≤ rank s := by
  induction hn : rank s using Nat.strongRecOn generalizing s with
  | ind n ih =>
    rcases hnear s hs with hgoal | ⟨e, t, hown, ht, hPt, hlt⟩
    · exact ⟨[], s, rfl, by simp, hgoal, Nat.zero_le _⟩
    · obtain ⟨es, u, hrun, hall, hgoal, hlen⟩ := ih (rank t) (hn ▸ hlt) hPt rfl
      refine ⟨e :: es, u, by simp [run, ht, hrun], ?_, hgoal, ?_⟩
      · intro e' he'
        rcases List.mem_cons.mp he' with rfl | he'
        · exact hown
        · exact hall e' he'
      · rw [List.length_cons]
        omega

/-- **A goal that is met or nearer behind some run is met behind some run**,
of steps `ok` admits. -/
theorem exists_path_of_rank {ok : σ → ε → Prop} (goal : σ → Prop)
    (hnear : ∀ s, P s → goal s ∨ ∃ t, M.Path ok s t ∧ P t ∧ rank t < rank s) {s : σ} (hs : P s) :
    ∃ t, M.Path ok s t ∧ P t ∧ goal t := by
  induction hn : rank s using Nat.strongRecOn generalizing s with
  | ind n ih =>
    rcases hnear s hs with hgoal | ⟨t, hpath, hPt, hlt⟩
    · exact ⟨s, .refl s, hs, hgoal⟩
    · obtain ⟨u, hrest, hPu, hgoal⟩ := ih (rank t) (hn ▸ hlt) hPt rfl
      exact ⟨u, hpath.trans hrest, hPu, hgoal⟩

end Machine

end Vcmp
