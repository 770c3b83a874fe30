import Vcmp.Common.Machine
import Vcmp.Resources.Budget
/-!
# Two levels of admission

Any number of sessions, each with a budget of its own, share one. A
session takes a permit of its own budget first and one of the shared
budget second; a lifecycle hook or a connection takes one of the shared
budget alone. Each budget has its own lock, so a reservation on two
levels is half done in between, and so is a refused one and the dropping
of a pair.

`Ledger` keeps the budgets beside the permits that are out, sorted by
how far the code holding them has come.
-/

namespace Vcmp

/-- **The budgets and the permits that are out.** -/
structure Ledger (ι : Type) where
  /-- The budget all sessions share. -/
  shared : ResourceBudget
  /-- The budget of each session. -/
  own : ι → ResourceBudget
  /-- Permits held on both levels. -/
  pairs : List (ι × Permit)
  /-- Reservations granted by the session and not yet tried on the shared budget. -/
  granted : List (ι × Permit)
  /-- Reservations the shared budget refused, with the session's permit still out. -/
  refused : List (ι × Permit)
  /-- Dropped pairs whose second half, the shared one, is still out. -/
  releasing : List (ι × Permit)
  /-- Permits of connections, on the shared budget alone. -/
  connections : List Permit
  /-- Permits of lifecycle hooks, on the shared budget alone. -/
  hooks : List Permit

namespace Ledger

variable {ι : Type} [DecidableEq ι]

/-- One lock section of one party. -/
inductive Event (ι : Type) where
  /-- `Session::reserve`, the session's own budget. -/
  | reserveOwn (i : ι) (resource : Resource) (bytes : ℕ)
  /-- `Session::reserve`, the shared budget. -/
  | reserveShared (i : ι) (p : Permit)
  /-- The session's permit is dropped, the shared budget having refused. -/
  | dropRefused (i : ι) (p : Permit)
  /-- A pair is dropped: the session's permit. -/
  | dropOwn (i : ι) (p : Permit)
  /-- A pair is dropped: the shared permit. -/
  | dropShared (i : ι) (p : Permit)
  /-- `Session::try_spawn` and `VcmpClient::connect` ask for a connection. -/
  | connect (bytes : ℕ)
  | disconnect (p : Permit)
  /-- A lifecycle hook asks for a handler's permit. -/
  | beginHook (bytes : ℕ)
  | endHook (p : Permit)

/-- The session `i` with another budget. -/
def setOwn (s : Ledger ι) (i : ι) (b : ResourceBudget) : Ledger ι :=
  { s with own := fun j => if j = i then b else s.own j }

/-- The step of one lock section. -/
def next (s : Ledger ι) : Event ι → Option (Ledger ι)
  | .reserveOwn i resource bytes =>
    -- sessions reserve every kind but connections
    if resource = .connection then none
    else
      match (s.own i).reserve resource bytes with
      | (some p, b) => some { s.setOwn i b with granted := (i, p) :: s.granted }
      | (none, b) => some (s.setOwn i b)
  | .reserveShared i p =>
    if (i, p) ∈ s.granted then
      match s.shared.reserve p.resource p.bytes with
      | (some _, b) => some { s with
          shared := b, granted := s.granted.erase (i, p), pairs := (i, p) :: s.pairs }
      | (none, b) => some { s with
          shared := b, granted := s.granted.erase (i, p), refused := (i, p) :: s.refused }
    else none
  | .dropRefused i p =>
    if (i, p) ∈ s.refused then
      some { s.setOwn i ((s.own i).release p) with refused := s.refused.erase (i, p) }
    else none
  | .dropOwn i p =>
    if (i, p) ∈ s.pairs then
      some { s.setOwn i ((s.own i).release p) with
        pairs := s.pairs.erase (i, p), releasing := (i, p) :: s.releasing }
    else none
  | .dropShared i p =>
    if (i, p) ∈ s.releasing then
      some { s with shared := s.shared.release p, releasing := s.releasing.erase (i, p) }
    else none
  | .connect bytes =>
    match s.shared.reserve .connection bytes with
    | (some p, b) => some { s with shared := b, connections := p :: s.connections }
    | (none, b) => some { s with shared := b }
  | .disconnect p =>
    if p ∈ s.connections then
      some { s with shared := s.shared.release p, connections := s.connections.erase p }
    else none
  | .beginHook bytes =>
    match s.shared.reserve .handler bytes with
    | (some p, b) => some { s with shared := b, hooks := p :: s.hooks }
    | (none, b) => some { s with shared := b }
  | .endHook p =>
    if p ∈ s.hooks then
      some { s with shared := s.shared.release p, hooks := s.hooks.erase p }
    else none

/-- Fresh budgets, nothing out. -/
def start (sharedLimits : ResourceLimits) (ownLimits : ι → ResourceLimits) : Ledger ι where
  shared := .new sharedLimits
  own i := .new (ownLimits i)
  pairs := []
  granted := []
  refused := []
  releasing := []
  connections := []
  hooks := []

/-- **The ledger machine**: any limits, any interleaving. -/
def machine (ι : Type) [DecidableEq ι] : Machine (Ledger ι) (Event ι) where
  init s := ∃ sharedLimits ownLimits, s = start sharedLimits ownLimits
  next := next

/-- What a step can do. -/
inductive Step (s : Ledger ι) : Event ι → Ledger ι → Prop
  | ownGranted {i : ι} {r : Resource} {n : ℕ} {p : Permit} {b : ResourceBudget}
      (hkind : r ≠ .connection) (hr : (s.own i).reserve r n = (some p, b)) :
      Step s (.reserveOwn i r n) { s.setOwn i b with granted := (i, p) :: s.granted }
  | ownRefused {i : ι} {r : Resource} {n : ℕ} {b : ResourceBudget} (hkind : r ≠ .connection)
      (hr : (s.own i).reserve r n = (none, b)) : Step s (.reserveOwn i r n) (s.setOwn i b)
  | sharedGranted {i : ι} {p q : Permit} {b : ResourceBudget} (hp : (i, p) ∈ s.granted)
      (hr : s.shared.reserve p.resource p.bytes = (some q, b)) :
      Step s (.reserveShared i p)
        { s with shared := b, granted := s.granted.erase (i, p), pairs := (i, p) :: s.pairs }
  | sharedRefused {i : ι} {p : Permit} {b : ResourceBudget} (hp : (i, p) ∈ s.granted)
      (hr : s.shared.reserve p.resource p.bytes = (none, b)) :
      Step s (.reserveShared i p)
        { s with shared := b, granted := s.granted.erase (i, p), refused := (i, p) :: s.refused }
  | dropRefused {i : ι} {p : Permit} (hp : (i, p) ∈ s.refused) :
      Step s (.dropRefused i p)
        { s.setOwn i ((s.own i).release p) with refused := s.refused.erase (i, p) }
  | dropOwn {i : ι} {p : Permit} (hp : (i, p) ∈ s.pairs) :
      Step s (.dropOwn i p)
        { s.setOwn i ((s.own i).release p) with
          pairs := s.pairs.erase (i, p), releasing := (i, p) :: s.releasing }
  | dropShared {i : ι} {p : Permit} (hp : (i, p) ∈ s.releasing) :
      Step s (.dropShared i p)
        { s with shared := s.shared.release p, releasing := s.releasing.erase (i, p) }
  | connected {n : ℕ} {p : Permit} {b : ResourceBudget}
      (hr : s.shared.reserve .connection n = (some p, b)) :
      Step s (.connect n) { s with shared := b, connections := p :: s.connections }
  | connectRefused {n : ℕ} {b : ResourceBudget} (hr : s.shared.reserve .connection n = (none, b)) :
      Step s (.connect n) { s with shared := b }
  | disconnected {p : Permit} (hp : p ∈ s.connections) :
      Step s (.disconnect p)
        { s with shared := s.shared.release p, connections := s.connections.erase p }
  | hookBegun {n : ℕ} {p : Permit} {b : ResourceBudget}
      (hr : s.shared.reserve .handler n = (some p, b)) :
      Step s (.beginHook n) { s with shared := b, hooks := p :: s.hooks }
  | hookRefused {n : ℕ} {b : ResourceBudget} (hr : s.shared.reserve .handler n = (none, b)) :
      Step s (.beginHook n) { s with shared := b }
  | hookEnded {p : Permit} (hp : p ∈ s.hooks) :
      Step s (.endHook p) { s with shared := s.shared.release p, hooks := s.hooks.erase p }

/-- **Every step is one of these.** -/
theorem step_of_next {s t : Ledger ι} {e : Event ι} (h : (machine ι).next s e = some t) :
    Step s e t := by
  change next s e = some t at h
  cases e with
  | reserveOwn i r n =>
    simp only [next] at h
    split at h
    · cases h
    · rename_i hkind
      split at h <;> cases h
      · exact .ownGranted hkind ‹_›
      · exact .ownRefused hkind ‹_›
  | reserveShared i p =>
    simp only [next] at h
    split at h
    · rename_i hp
      split at h <;> cases h
      · exact .sharedGranted hp ‹_›
      · exact .sharedRefused hp ‹_›
    · cases h
  | connect n =>
    simp only [next] at h
    split at h <;> cases h
    · exact .connected ‹_›
    · exact .connectRefused ‹_›
  | beginHook n =>
    simp only [next] at h
    split at h <;> cases h
    · exact .hookBegun ‹_›
    · exact .hookRefused ‹_›
  | dropRefused i p =>
    obtain ⟨hp, rfl⟩ := by simpa only [next, Option.ite_none_right_eq_some, Option.some.injEq] using h
    exact .dropRefused hp
  | dropOwn i p =>
    obtain ⟨hp, rfl⟩ := by simpa only [next, Option.ite_none_right_eq_some, Option.some.injEq] using h
    exact .dropOwn hp
  | dropShared i p =>
    obtain ⟨hp, rfl⟩ := by simpa only [next, Option.ite_none_right_eq_some, Option.some.injEq] using h
    exact .dropShared hp
  | disconnect p =>
    obtain ⟨hp, rfl⟩ := by simpa only [next, Option.ite_none_right_eq_some, Option.some.injEq] using h
    exact .disconnected hp
  | endHook p =>
    obtain ⟨hp, rfl⟩ := by simpa only [next, Option.ite_none_right_eq_some, Option.some.injEq] using h
    exact .hookEnded hp

/-! ## Live permits -/

/-- The live permits of the shared budget. -/
def sharedLive (s : Ledger ι) : List Permit :=
  (s.pairs ++ s.releasing).map Prod.snd ++ s.connections ++ s.hooks

/-- The live permits of a session's budget. -/
def ownLive (s : Ledger ι) (i : ι) : List Permit :=
  ((s.pairs ++ s.granted ++ s.refused).filter (·.1 = i)).map Prod.snd

variable {s t : Ledger ι} {e : Event ι} {i : ι} {p : Permit} {b : ResourceBudget}

omit [DecidableEq ι] in
theorem total_sharedLive (c : Counter) : total c.weight s.sharedLive =
    total (fun x => c.weight x.2) s.pairs + total (fun x => c.weight x.2) s.releasing +
      total c.weight s.connections + total c.weight s.hooks := by
  simp [sharedLive, Nat.add_assoc]

/-- What a session's permits weigh among a list of permits. -/
def weightOf (c : Counter) (i : ι) (l : List (ι × Permit)) : ℕ :=
  total (fun x => c.weight x.2) (l.filter (·.1 = i))

theorem total_ownLive (c : Counter) (i : ι) : total c.weight (s.ownLive i) =
    weightOf c i s.pairs + weightOf c i s.granted + weightOf c i s.refused := by
  simp [ownLive, weightOf, Nat.add_assoc]

theorem weightOf_cons (c : Counter) (i j : ι) (l : List (ι × Permit)) :
    weightOf c i ((j, p) :: l) = (if j = i then c.weight p else 0) + weightOf c i l := by
  by_cases h : j = i <;> simp [weightOf, h]

theorem weightOf_erase (c : Counter) (i : ι) {j : ι} {l : List (ι × Permit)} (h : (j, p) ∈ l) :
    (if j = i then c.weight p else 0) + weightOf c i (l.erase (j, p)) = weightOf c i l :=
  total_filter_erase (f := fun x => c.weight x.2) Prod.fst h i

theorem total_erase_permit (c : Counter) {l : List (ι × Permit)} (h : (i, p) ∈ l) :
    c.weight p + total (fun x => c.weight x.2) (l.erase (i, p)) =
      total (fun x => c.weight x.2) l :=
  total_erase (f := fun x => c.weight x.2) h

/-- **The accounts of both levels are right and within the limits.** -/
structure Balanced (s : Ledger ι) : Prop where
  shared : s.shared.Tallies s.sharedLive
  own : ∀ i, (s.own i).Tallies (s.ownLive i)
  sharedBounded : s.shared.Bounded
  ownBounded : ∀ i, (s.own i).Bounded
  /-- The permits of connections and hooks are of their kind. -/
  connections : ∀ p ∈ s.connections, p.resource = .connection
  hooks : ∀ p ∈ s.hooks, p.resource = .handler
  pairs : ∀ x ∈ s.pairs, x.2.resource ≠ .connection
  granted : ∀ x ∈ s.granted, x.2.resource ≠ .connection

theorem balanced_start (sharedLimits : ResourceLimits) (ownLimits : ι → ResourceLimits) :
    (start sharedLimits ownLimits).Balanced where
  shared := ResourceBudget.tallies_new _
  own _ := ResourceBudget.tallies_new _
  sharedBounded := ResourceBudget.bounded_new _
  ownBounded _ := ResourceBudget.bounded_new _
  connections := by simp [start]
  hooks := by simp [start]
  pairs := by simp [start]
  granted := by simp [start]

/-- A session's account after its budget changed along with its permits. -/
theorem tallies_setOwn {live : ι → List Permit} (h : ∀ j, j ≠ i → (s.own j).Tallies (live j))
    (hi : b.Tallies (live i)) (j : ι) : ((s.setOwn i b).own j).Tallies (live j) := by
  by_cases hj : j = i
  · subst hj; simpa [setOwn] using hi
  · simpa [setOwn, hj] using h j hj

theorem bounded_setOwn (h : ∀ j, (s.own j).Bounded) (hb : b.Bounded) (j : ι) :
    ((s.setOwn i b).own j).Bounded := by
  by_cases hj : j = i
  · subst hj; simpa [setOwn] using hb
  · simpa [setOwn, hj] using h j

omit [DecidableEq ι] in
/-- A reservation for a permit already granted is granted that permit. -/
theorem eq_of_reserve {q : Permit} (h : s.shared.reserve p.resource p.bytes = (some q, b)) :
    q = p := (ResourceBudget.reserve_some h).2.1

/-- **The shared account follows every step.** -/
theorem Balanced.step_shared (h : s.Balanced) (hs : Step s e t) :
    t.shared.Tallies t.sharedLive ∧ t.shared.Bounded := by
  cases hs with
  | ownGranted | ownRefused | dropRefused => exact ⟨h.shared, h.sharedBounded⟩
  | sharedGranted hp hr =>
    obtain rfl := eq_of_reserve hr
    refine ⟨h.shared.grant hr fun c => ?_, h.sharedBounded.reserve hr⟩
    simp only [total_sharedLive, total_cons]
    omega
  | sharedRefused hp hr => exact ⟨h.shared.refuse hr, h.sharedBounded.reserve hr⟩
  | dropOwn hp =>
    refine ⟨h.shared.congr fun c => ?_, h.sharedBounded⟩
    have herase := total_erase_permit c hp
    simp only [total_sharedLive, total_cons, setOwn]
    omega
  | dropShared hp =>
    refine ⟨h.shared.drop fun c => ?_, h.sharedBounded.release _⟩
    have herase := total_erase_permit c hp
    simp only [total_sharedLive]
    omega
  | connected hr =>
    refine ⟨h.shared.grant hr fun c => ?_, h.sharedBounded.reserve hr⟩
    simp only [total_sharedLive, total_cons]
    omega
  | connectRefused hr => exact ⟨h.shared.refuse hr, h.sharedBounded.reserve hr⟩
  | disconnected hp =>
    refine ⟨h.shared.drop fun c => ?_, h.sharedBounded.release _⟩
    have herase := total_erase (f := c.weight) hp
    simp only [total_sharedLive]
    omega
  | hookBegun hr =>
    refine ⟨h.shared.grant hr fun c => ?_, h.sharedBounded.reserve hr⟩
    simp only [total_sharedLive, total_cons]
    omega
  | hookRefused hr => exact ⟨h.shared.refuse hr, h.sharedBounded.reserve hr⟩
  | hookEnded hp =>
    refine ⟨h.shared.drop fun c => ?_, h.sharedBounded.release _⟩
    have herase := total_erase (f := c.weight) hp
    simp only [total_sharedLive]
    omega

/-- **So does the account of every session.** -/
theorem Balanced.step_own (h : s.Balanced) (hs : Step s e t) (j : ι) :
    (t.own j).Tallies (t.ownLive j) ∧ (t.own j).Bounded := by
  cases hs with
  | @ownGranted i r n p b hkind hr =>
    refine ⟨tallies_setOwn (fun k hk => (h.own k).congr fun c => ?_)
      ((h.own i).grant hr fun c => ?_) j, bounded_setOwn h.ownBounded ((h.ownBounded i).reserve hr) j⟩
    · simp [total_ownLive, weightOf_cons, setOwn, hk.symm]
    · simp only [total_ownLive, weightOf_cons, setOwn, if_true]
      omega
  | @ownRefused i r n b hkind hr =>
    exact ⟨tallies_setOwn (fun k _ => h.own k) ((h.own i).refuse hr) j,
      bounded_setOwn h.ownBounded ((h.ownBounded i).reserve hr) j⟩
  | @sharedGranted i p q b hp hr =>
    refine ⟨(h.own j).congr fun c => ?_, h.ownBounded j⟩
    have herase := weightOf_erase c j hp
    simp only [total_ownLive, weightOf_cons]
    omega
  | @sharedRefused i p b hp hr =>
    refine ⟨(h.own j).congr fun c => ?_, h.ownBounded j⟩
    have herase := weightOf_erase c j hp
    simp only [total_ownLive, weightOf_cons]
    omega
  | @dropRefused i p hp =>
    refine ⟨tallies_setOwn (fun k hk => (h.own k).congr fun c => ?_)
      ((h.own i).drop fun c => ?_) j, bounded_setOwn h.ownBounded ((h.ownBounded i).release p) j⟩
    · have herase := weightOf_erase c k hp
      rw [if_neg hk.symm] at herase
      simp only [total_ownLive, setOwn]
      omega
    · have herase := weightOf_erase c i hp
      rw [if_pos rfl] at herase
      simp only [total_ownLive, setOwn]
      omega
  | @dropOwn i p hp =>
    refine ⟨tallies_setOwn (fun k hk => (h.own k).congr fun c => ?_)
      ((h.own i).drop fun c => ?_) j, bounded_setOwn h.ownBounded ((h.ownBounded i).release p) j⟩
    · have herase := weightOf_erase c k hp
      rw [if_neg hk.symm] at herase
      simp only [total_ownLive, setOwn]
      omega
    · have herase := weightOf_erase c i hp
      rw [if_pos rfl] at herase
      simp only [total_ownLive, setOwn]
      omega
  | dropShared | connected | connectRefused | disconnected | hookBegun | hookRefused | hookEnded =>
    exact ⟨h.own j, h.ownBounded j⟩

theorem Balanced.step (h : s.Balanced) (hs : Step s e t) : t.Balanced := by
  refine ⟨(h.step_shared hs).1, fun j => (h.step_own hs j).1, (h.step_shared hs).2,
    fun j => (h.step_own hs j).2, ?_, ?_, ?_, ?_⟩
  · cases hs with
    | connected hr =>
      obtain ⟨-, rfl, -⟩ := ResourceBudget.reserve_some hr
      simpa using h.connections
    | disconnected hp => exact fun p hmem => h.connections p (List.mem_of_mem_erase hmem)
    | _ => exact h.connections
  · cases hs with
    | hookBegun hr =>
      obtain ⟨-, rfl, -⟩ := ResourceBudget.reserve_some hr
      simpa using h.hooks
    | hookEnded hp => exact fun p hmem => h.hooks p (List.mem_of_mem_erase hmem)
    | _ => exact h.hooks
  · cases hs with
    | sharedGranted hp hr =>
      intro x hx
      rcases List.mem_cons.mp hx with rfl | hx
      · exact h.granted _ hp
      · exact h.pairs x hx
    | dropOwn hp => exact fun x hmem => h.pairs x (List.mem_of_mem_erase hmem)
    | _ => exact h.pairs
  · cases hs with
    | ownGranted hkind hr =>
      obtain ⟨-, rfl, -⟩ := ResourceBudget.reserve_some hr
      intro x hx
      rcases List.mem_cons.mp hx with rfl | hx
      · exact hkind
      · exact h.granted x hx
    | sharedGranted hp hr => exact fun x hmem => h.granted x (List.mem_of_mem_erase hmem)
    | sharedRefused hp hr => exact fun x hmem => h.granted x (List.mem_of_mem_erase hmem)
    | _ => exact h.granted

/-- **The accounts are right in every reachable state.** -/
theorem balanced_of_reachable (h : (machine ι).Reachable s) : s.Balanced := by
  have hinit : ∀ s, (machine ι).init s → s.Balanced := by
    rintro s ⟨sharedLimits, ownLimits, rfl⟩
    exact balanced_start _ _
  exact h.invariant hinit fun s e t _ hn hs => hs.step (step_of_next hn)

/-! ## Refusals -/

/-- The counts of refusals are `u64` values. -/
def Counted (s : Ledger ι) : Prop :=
  s.shared.usage.overloads < u64Bound ∧ ∀ i, (s.own i).usage.overloads < u64Bound

/-- No count of refusals is smaller. -/
def Forward (s t : Ledger ι) : Prop :=
  s.shared.usage.overloads ≤ t.shared.usage.overloads ∧
    ∀ i, (s.own i).usage.overloads ≤ (t.own i).usage.overloads

/-- **No step takes a refusal back.** -/
theorem forward_step (h : s.Counted) (hs : Step s e t) : s.Forward t ∧ t.Counted := by
  have key : ∀ i b, (s.own i).usage.overloads ≤ b.usage.overloads ∧
      b.usage.overloads < u64Bound → s.Forward (s.setOwn i b) ∧ (s.setOwn i b).Counted := by
    rintro i b ⟨hle, hlt⟩
    refine ⟨⟨le_rfl, fun j => ?_⟩, h.1, fun j => ?_⟩
    · by_cases hj : j = i
      · subst hj; simpa [setOwn] using hle
      · simp [setOwn, hj]
    · by_cases hj : j = i
      · subst hj; simpa [setOwn] using hlt
      · simpa [setOwn, hj] using h.2 j
  have keyShared : ∀ b : ResourceBudget, s.shared.usage.overloads ≤ b.usage.overloads ∧
      b.usage.overloads < u64Bound →
        s.Forward { s with shared := b } ∧ Counted { s with shared := b } :=
    fun b hb => ⟨⟨hb.1, fun _ => le_rfl⟩, hb.2, h.2⟩
  cases hs with
  | ownGranted _ hr | ownRefused _ hr => exact key _ _ (ResourceBudget.overloads_reserve (h.2 _) hr)
  | dropRefused | dropOwn =>
    exact key _ _ ⟨by simp [ResourceBudget.release], by simpa [ResourceBudget.release] using h.2 _⟩
  | sharedGranted _ hr | sharedRefused _ hr | connected hr | connectRefused hr | hookBegun hr
  | hookRefused hr => exact keyShared _ (ResourceBudget.overloads_reserve h.1 hr)
  | dropShared | disconnected | hookEnded =>
    exact keyShared _ ⟨by simp [ResourceBudget.release], by simpa [ResourceBudget.release] using h.1⟩

theorem counted_of_reachable (h : (machine ι).Reachable s) : s.Counted := by
  have hinit : ∀ s, (machine ι).init s → s.Counted := by
    rintro s ⟨sharedLimits, ownLimits, rfl⟩
    have hpos : 0 < u64Bound := by decide
    exact ⟨hpos, fun _ => hpos⟩
  exact h.invariant hinit fun s e t _ hn hs => (forward_step hs (step_of_next hn)).2

/-- A reservation the shared budget refuses, from the session's grant to
the dropping of its permit. -/
def refusal (i : ι) (resource : Resource) (bytes : ℕ) : List (Event ι) :=
  [.reserveOwn i resource bytes, .reserveShared i ⟨resource, bytes⟩,
    .dropRefused i ⟨resource, bytes⟩]

/-- **A refused two-level reservation leaves every usage as it was.** -/
theorem same_of_refusal {r : Resource} {n : ℕ} (hs : (s.shared.reserve r n).1 = none)
    (ho : ((s.own i).reserve r n).1.isSome) (hrun : (machine ι).run s (refusal i r n) = some t) :
    t.shared.usage.Same s.shared.usage ∧ ∀ j, (t.own j).usage.Same (s.own j).usage := by
  obtain ⟨shared', hshared⟩ : ∃ b, s.shared.reserve r n = (none, b) := ⟨_, by rw [← hs]⟩
  obtain ⟨p, hp⟩ := Option.isSome_iff_exists.mp ho
  obtain ⟨own', hown⟩ : ∃ b, (s.own i).reserve r n = (some p, b) := ⟨_, by rw [← hp]⟩
  obtain ⟨-, rfl, rfl⟩ := ResourceBudget.reserve_some hown
  obtain ⟨-, rfl⟩ := ResourceBudget.reserve_none hshared
  simp only [refusal, Machine.run, Option.bind_eq_some_iff] at hrun
  obtain ⟨s₁, h₁, s₂, h₂, s₃, h₃, hend⟩ := hrun
  obtain rfl := Option.some.inj hend
  have hs₁ := step_of_next h₁
  cases hs₁ with
  | ownRefused _ hr => rw [hown] at hr; cases hr
  | ownGranted hkind hr =>
    rw [hown] at hr
    cases hr
    cases step_of_next h₂ with
    | sharedGranted _ hr =>
      simp only [setOwn] at hr
      rw [hshared] at hr
      cases hr
    | sharedRefused _ hr =>
      simp only [setOwn] at hr
      rw [hshared] at hr
      cases hr
      cases step_of_next h₃ with
      | dropRefused hmem =>
        refine ⟨fun c => by simp [setOwn], fun j c => ?_⟩
        by_cases hj : j = i
        · subst hj; simp [setOwn, ResourceBudget.release]
        · simp [setOwn, hj]

/-! ## The ledger -/

/-- **What the ledger guarantees in a state.** -/
structure Sound [Fintype ι] (s : Ledger ι) : Prop where
  /-- The shared counters are the tally of the shared budget's live permits. -/
  shared_tally : ∀ c : Counter, c.value s.shared.usage = total c.weight s.sharedLive
  /-- So are those of each session's own budget. -/
  own_tally : ∀ i (c : Counter), c.value (s.own i).usage = total c.weight (s.ownLive i)
  /-- No counter exceeds its limit. -/
  shared_limit : ∀ c : Counter, c.value s.shared.usage ≤ c.limit s.shared.limits
  own_limit : ∀ i (c : Counter), c.value (s.own i).usage ≤ c.limit (s.own i).limits
  /-- No addition leaves the range of the limits. -/
  shared_add : ∀ r n p b, s.shared.reserve r n = (some p, b) →
    ∀ c : Counter, c.value s.shared.usage + c.weight p ≤ c.limit s.shared.limits
  own_add : ∀ i r n p b, (s.own i).reserve r n = (some p, b) →
    ∀ c : Counter, c.value (s.own i).usage + c.weight p ≤ c.limit (s.own i).limits
  /-- No release takes away more than is there. -/
  shared_sub : ∀ p ∈ s.sharedLive, ∀ c : Counter, c.weight p ≤ c.value s.shared.usage
  own_sub : ∀ i, ∀ p ∈ s.ownLive i, ∀ c : Counter, c.weight p ≤ c.value (s.own i).usage
  /-- A refusal changes nothing but the count of refusals. -/
  shared_refused : ∀ r n b, s.shared.reserve r n = (none, b) →
    b = { s.shared with usage := { s.shared.usage with overloads := b.usage.overloads } }
  own_refused : ∀ i r n b, (s.own i).reserve r n = (none, b) →
    b = { s.own i with usage := { (s.own i).usage with overloads := b.usage.overloads } }
  /-- A reservation the session grants and the shared budget refuses changes
  no usage, once the session's permit is dropped. -/
  refusal : ∀ i r n t, (s.shared.reserve r n).1 = none → ((s.own i).reserve r n).1.isSome →
    (machine ι).run s (refusal i r n) = some t →
      t.shared.usage.Same s.shared.usage ∧ ∀ j, (t.own j).usage.Same (s.own j).usage
  /-- Nor do its steps one by one, whatever others do in between: the shared
  budget's refusal moves no usage, and the drop takes back what was granted. -/
  refused_shared : ∀ i p t, (s.shared.reserve p.resource p.bytes).1 = none →
    (machine ι).next s (.reserveShared i p) = some t → (i, p) ∈ t.refused ∧
      t.shared.usage.Same s.shared.usage ∧ t.own = s.own
  refused_own : ∀ i p t, (machine ι).next s (.dropRefused i p) = some t → t.shared = s.shared ∧
    ∀ j (c : Counter), c.value (t.own j).usage + (if j = i then c.weight p else 0) =
      c.value (s.own j).usage
  /-- With nothing half done the shared budget counts what the sessions count
  and what the lifecycle hooks hold. -/
  shared_sum : s.granted = [] → s.refused = [] → s.releasing = [] →
    ∀ c : Counter, c ≠ .connections →
      c.value s.shared.usage = ∑ i, c.value (s.own i).usage + total c.weight s.hooks

theorem sum_weightOf [Fintype ι] (c : Counter) (l : List (ι × Permit)) :
    ∑ i, weightOf c i l = total (fun x => c.weight x.2) l :=
  sum_total_filter Prod.fst l

/-- A connection's permit counts as a connection only. -/
theorem weight_connection {c : Counter} (hc : c ≠ .connections) (hp : p.resource = .connection) :
    c.weight p = 0 := by
  obtain ⟨resource, bytes⟩ := p
  obtain rfl : resource = .connection := hp
  cases c <;> first | rfl | exact absurd rfl hc

theorem Balanced.shared_sum [Fintype ι] (h : s.Balanced) (hg : s.granted = [])
    (hr : s.refused = []) (hl : s.releasing = []) {c : Counter} (hc : c ≠ .connections) :
    c.value s.shared.usage = ∑ i, c.value (s.own i).usage + total c.weight s.hooks := by
  have hown : ∑ i, c.value (s.own i).usage = total (fun x => c.weight x.2) s.pairs := by
    rw [← sum_weightOf]
    refine Finset.sum_congr rfl fun i _ => ?_
    rw [h.own i c, total_ownLive, hg, hr]
    simp [weightOf]
  have hconn : total c.weight s.connections = 0 :=
    total_eq_zero fun p hp => weight_connection hc (h.connections p hp)
  rw [h.shared c, total_sharedLive, hl, hconn, hown]
  simp

theorem Balanced.refused_own (h : s.Balanced)
    (hn : (machine ι).next s (.dropRefused i p) = some t) : t.shared = s.shared ∧ ∀ j (c : Counter),
      c.value (t.own j).usage + (if j = i then c.weight p else 0) = c.value (s.own j).usage := by
  cases step_of_next hn with
  | dropRefused hmem =>
    refine ⟨rfl, fun j c => ?_⟩
    by_cases hj : j = i
    · subst hj
      have hlive : p ∈ s.ownLive j := by
        simp only [ownLive, List.mem_map, List.mem_filter, List.mem_append]
        exact ⟨(j, p), ⟨.inr hmem, by simp⟩, rfl⟩
      have hle := (h.own j).le hlive (c := c)
      simp only [setOwn, if_true, ResourceBudget.release, ResourceSnapshot.value_sub]
      omega
    · simp [setOwn, hj]

/-- **The resource ledger.** For every set of limits and every
interleaving of reservations and drops, the accounts of both levels are
right, within their limits and without overflow or underflow, a refusal
is counted and nothing else, no count of refusals ever decreases, and
with nothing half done the levels agree. -/
theorem sound_of_reachable [Fintype ι] (h : (machine ι).Reachable s) :
    s.Sound ∧ ∀ t, (machine ι).Path Machine.free s t → s.Forward t := by
  have hb := balanced_of_reachable h
  refine ⟨⟨hb.shared, hb.own, hb.sharedBounded, hb.ownBounded, ?_, ?_, ?_, ?_, ?_, ?_,
    fun i r n t => same_of_refusal, ?_, fun i p t => hb.refused_own, fun hg hr hl c =>
      hb.shared_sum hg hr hl⟩, ?_⟩
  · exact fun r n p b hr c => ResourceBudget.reserve_le_limit hb.sharedBounded hr
  · exact fun i r n p b hr c => ResourceBudget.reserve_le_limit (hb.ownBounded i) hr
  · exact fun p hp c => hb.shared.le hp
  · exact fun i p hp c => (hb.own i).le hp
  · intro r n b hr
    obtain ⟨-, rfl⟩ := ResourceBudget.reserve_none hr
    rfl
  · intro i r n b hr
    obtain ⟨-, rfl⟩ := ResourceBudget.reserve_none hr
    rfl
  · intro i p t hnone hn
    cases step_of_next hn with
    | sharedGranted _ hr => rw [hr] at hnone; cases hnone
    | sharedRefused hmem hr =>
      obtain ⟨-, rfl⟩ := ResourceBudget.reserve_none hr
      exact ⟨by simp, fun c => by simp, rfl⟩
  · intro t hp
    have key : s.Forward t ∧ t.Counted := by
      refine hp.preserves (P := fun t => s.Forward t ∧ t.Counted) ?_
        ⟨⟨le_rfl, fun _ => le_rfl⟩, counted_of_reachable h⟩
      rintro u e v - hn ⟨hf, hc⟩
      obtain ⟨hf', hc'⟩ := forward_step hc (step_of_next hn)
      exact ⟨⟨hf.1.trans hf'.1, fun i => (hf.2 i).trans (hf'.2 i)⟩, hc'⟩
    exact key.1

/-- Two sessions and a hook under one shared budget. -/
def sampleRun : List (Event Bool) :=
  [.reserveOwn true .data 5, .reserveShared true ⟨.data, 5⟩, .beginHook 0,
    .reserveOwn false .data 7, .reserveShared false ⟨.data, 7⟩, .dropRefused false ⟨.data, 7⟩]

/-- Limits that leave room for one data frame of ten bytes. -/
def sampleLimits : ResourceLimits := ⟨1, 1, 10, 1, 10, 1, 1, 10⟩

theorem sound_sampleRun : ∃ s : Ledger Bool,
    (machine Bool).run (start sampleLimits fun _ => sampleLimits) sampleRun = some s ∧
      (s.Sound ∧ ∀ t, (machine Bool).Path Machine.free s t → s.Forward t) := by
  obtain ⟨s, hs⟩ := Option.isSome_iff_exists.mp (show ((machine Bool).run
    (start sampleLimits fun _ => sampleLimits) sampleRun).isSome = true by decide)
  exact ⟨s, hs, sound_of_reachable
    (Machine.reachable_of_run ⟨sampleLimits, fun _ => sampleLimits, rfl⟩ hs)⟩

end Ledger

end Vcmp
