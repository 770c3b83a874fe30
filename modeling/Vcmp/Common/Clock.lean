import Mathlib.Data.Nat.Notation
import Vcmp.Common.Machine
/-!
# Machines with a clock

A machine beside a clock and what it was read for. Time passes by a step
of its own; any other step takes none, and leaves a mark of when it was
taken. What is due when, and how late a step may be, is then a condition
on the steps of a run, and every such run is one of the machine without
the clock.
-/

namespace Vcmp

/-- **A state, the time, and the marks** left by the steps so far. -/
structure Clocked (σ κ : Type*) where
  now : ℕ := 0
  state : σ
  marks : κ
  deriving Repr

namespace Machine

variable {σ ε κ : Type*} {M : Machine σ ε} {mark : ℕ → κ → σ → ε → σ → κ} {fresh : κ}

/-- **The machine with a clock**: `none` is time passing. -/
def clocked (M : Machine σ ε) (mark : ℕ → κ → σ → ε → σ → κ) (fresh : κ) :
    Machine (Clocked σ κ) (Option ε) where
  init c := M.init c.state ∧ c.now = 0 ∧ c.marks = fresh
  next c
    | none => some { c with now := c.now + 1 }
    | some e => (M.next c.state e).map fun t => ⟨c.now, t, mark c.now c.marks c.state e t⟩

variable {c d : Clocked σ κ} {e : ε}

theorem clocked_none : (M.clocked mark fresh).next c none = some d ↔ d = { c with now := c.now + 1 } := by
  simp [clocked, eq_comm]

theorem clocked_some : (M.clocked mark fresh).next c (some e) = some d ↔
    ∃ t, M.next c.state e = some t ∧ d = ⟨c.now, t, mark c.now c.marks c.state e t⟩ := by
  simp [clocked, eq_comm]

/-- **A run under the clock is a run of the machine**, under what its steps meet. -/
theorem ReachableBy.unclocked {ok : σ → ε → Prop} {timely : Clocked σ κ → Option ε → Prop}
    (hok : ∀ c e, timely c (some e) → ok c.state e)
    (h : (M.clocked mark fresh).ReachableBy timely c) : M.ReachableBy ok c.state := by
  refine h.invariant (P := fun c => M.ReachableBy ok c.state) ?_ ?_
  · rintro c ⟨hinit, -⟩
    exact .of_init hinit
  rintro c (- | e) d htimely hn hr
  · rw [clocked_none] at hn
    rwa [hn]
  · obtain ⟨t, ht, rfl⟩ := clocked_some.mp hn
    exact hr.step (hok c e htimely) ht

/-- **The invariant rule under the clock**: a step keeps it at the time it is
taken, in a state that is reachable, and time passing keeps it. -/
theorem ReachableBy.clocked_invariant {timely : Clocked σ κ → Option ε → Prop}
    {P : Clocked σ κ → Prop} (hinit : ∀ c, (M.clocked mark fresh).init c → P c)
    (hpass : ∀ c, (M.clocked mark fresh).ReachableBy timely c → P c → P { c with now := c.now + 1 })
    (hstep : ∀ c e t, (M.clocked mark fresh).ReachableBy timely c → timely c (some e) →
      M.next c.state e = some t → P c → P ⟨c.now, t, mark c.now c.marks c.state e t⟩)
    (h : (M.clocked mark fresh).ReachableBy timely c) : P c := by
  refine h.invariant_of (P := P) hinit ?_
  rintro c (- | e) d hr htimely hn hP
  · rw [clocked_none] at hn
    exact hn ▸ hpass c hr hP
  · obtain ⟨t, ht, rfl⟩ := clocked_some.mp hn
    exact hstep c e t hr htimely ht hP

end Machine

end Vcmp
