import Vcmp.Common.Tally
import Vcmp.Common.Text
/-!
# Admission budgets

A budget counts what is retained: a permit is taken when there is room
for it and given back when it is dropped. Five kinds of permit move
eight counters, and `Counter` names them so that a statement about the
accounting is made once for all eight: a permit weighs one in the count
of its kind and its bytes in the byte count of its kind.

Counters are natural numbers here. `reserve_le_limit` and `Tallies.le`
are what makes that faithful: a granted reservation stays within the
limits, so no sum leaves the machine word a limit is given in, and a
dropped permit never takes away more than is there.
-/

namespace Vcmp

/-- The kinds of admission. -/
inductive Resource where
  | connection
  | request
  | data
  | control
  | handler
  deriving DecidableEq, Repr

/-- Maximum simultaneously retained transport resources. -/
structure ResourceLimits where
  connections : ℕ
  queuedMessages : ℕ
  queuedBytes : ℕ
  controlMessages : ℕ
  controlBytes : ℕ
  pendingRequests : ℕ
  handlerTasks : ℕ
  handlerBytes : ℕ
  deriving DecidableEq, Repr

/-- Current usage, and how many admissions were refused. -/
structure ResourceSnapshot where
  connections : ℕ := 0
  queuedMessages : ℕ := 0
  queuedBytes : ℕ := 0
  controlMessages : ℕ := 0
  controlBytes : ℕ := 0
  pendingRequests : ℕ := 0
  handlerTasks : ℕ := 0
  handlerBytes : ℕ := 0
  overloads : ℕ := 0
  deriving DecidableEq, Repr

/-- A live admission. -/
structure Permit where
  resource : Resource
  bytes : ℕ
  deriving DecidableEq, Repr

/-- The usage counters of a snapshot. -/
inductive Counter where
  | connections
  | queuedMessages
  | queuedBytes
  | controlMessages
  | controlBytes
  | pendingRequests
  | handlerTasks
  | handlerBytes
  deriving DecidableEq, Repr

namespace Counter

/-- What a permit adds to a counter. -/
def weight (c : Counter) (p : Permit) : ℕ :=
  match c, p.resource with
  | .connections, .connection => 1
  | .queuedMessages, .data => 1
  | .queuedBytes, .data => p.bytes
  | .controlMessages, .control => 1
  | .controlBytes, .control => p.bytes
  | .pendingRequests, .request => 1
  | .handlerTasks, .handler => 1
  | .handlerBytes, .handler => p.bytes
  | _, _ => 0

/-- The limit of a counter. -/
def limit (c : Counter) (limits : ResourceLimits) : ℕ :=
  match c with
  | .connections => limits.connections
  | .queuedMessages => limits.queuedMessages
  | .queuedBytes => limits.queuedBytes
  | .controlMessages => limits.controlMessages
  | .controlBytes => limits.controlBytes
  | .pendingRequests => limits.pendingRequests
  | .handlerTasks => limits.handlerTasks
  | .handlerBytes => limits.handlerBytes

/-- The value of a counter. -/
def value (c : Counter) (usage : ResourceSnapshot) : ℕ :=
  match c with
  | .connections => usage.connections
  | .queuedMessages => usage.queuedMessages
  | .queuedBytes => usage.queuedBytes
  | .controlMessages => usage.controlMessages
  | .controlBytes => usage.controlBytes
  | .pendingRequests => usage.pendingRequests
  | .handlerTasks => usage.handlerTasks
  | .handlerBytes => usage.handlerBytes

end Counter

/-! ## Usage -/

namespace ResourceSnapshot

/-- Whether there is room for one more of a kind, of that many bytes. -/
def admits (usage : ResourceSnapshot) (limits : ResourceLimits) (resource : Resource)
    (bytes : ℕ) : Bool :=
  match resource with
  | .connection => usage.connections < limits.connections
  | .request => usage.pendingRequests < limits.pendingRequests
  | .data => usage.queuedMessages < limits.queuedMessages &&
      bytes ≤ limits.queuedBytes - usage.queuedBytes
  | .control => usage.controlMessages < limits.controlMessages &&
      bytes ≤ limits.controlBytes - usage.controlBytes
  | .handler => usage.handlerTasks < limits.handlerTasks &&
      bytes ≤ limits.handlerBytes - usage.handlerBytes

/-- The usage with a permit more. -/
def add (usage : ResourceSnapshot) (p : Permit) : ResourceSnapshot :=
  match p.resource with
  | .connection => { usage with connections := usage.connections + 1 }
  | .request => { usage with pendingRequests := usage.pendingRequests + 1 }
  | .data => { usage with
      queuedMessages := usage.queuedMessages + 1, queuedBytes := usage.queuedBytes + p.bytes }
  | .control => { usage with
      controlMessages := usage.controlMessages + 1
      controlBytes := usage.controlBytes + p.bytes }
  | .handler => { usage with
      handlerTasks := usage.handlerTasks + 1, handlerBytes := usage.handlerBytes + p.bytes }

/-- The usage with a permit less. -/
def sub (usage : ResourceSnapshot) (p : Permit) : ResourceSnapshot :=
  match p.resource with
  | .connection => { usage with connections := usage.connections - 1 }
  | .request => { usage with pendingRequests := usage.pendingRequests - 1 }
  | .data => { usage with
      queuedMessages := usage.queuedMessages - 1, queuedBytes := usage.queuedBytes - p.bytes }
  | .control => { usage with
      controlMessages := usage.controlMessages - 1
      controlBytes := usage.controlBytes - p.bytes }
  | .handler => { usage with
      handlerTasks := usage.handlerTasks - 1, handlerBytes := usage.handlerBytes - p.bytes }

/-- The usage with a refusal more; the count saturates. -/
def refuse (usage : ResourceSnapshot) : ResourceSnapshot :=
  { usage with overloads := min (usage.overloads + 1) (u64Bound - 1) }

/-- Everything but the count of refusals. -/
def Same (usage usage' : ResourceSnapshot) : Prop := ∀ c : Counter, c.value usage = c.value usage'

variable (usage : ResourceSnapshot) (p : Permit) (c : Counter)

@[simp] theorem value_add : c.value (usage.add p) = c.value usage + c.weight p := by
  obtain ⟨resource, bytes⟩ := p
  cases resource <;> cases c <;> simp [Counter.value, add, Counter.weight]

@[simp] theorem value_sub : c.value (usage.sub p) = c.value usage - c.weight p := by
  obtain ⟨resource, bytes⟩ := p
  cases resource <;> cases c <;> simp [Counter.value, sub, Counter.weight]

@[simp] theorem value_refuse : c.value usage.refuse = c.value usage := by
  cases c <;> rfl

@[simp] theorem overloads_add : (usage.add p).overloads = usage.overloads := by
  obtain ⟨resource, bytes⟩ := p
  cases resource <;> rfl

@[simp] theorem overloads_sub : (usage.sub p).overloads = usage.overloads := by
  obtain ⟨resource, bytes⟩ := p
  cases resource <;> rfl

theorem overloads_refuse (h : usage.overloads < u64Bound) :
    usage.overloads ≤ usage.refuse.overloads ∧ usage.refuse.overloads < u64Bound := by
  have hpos : 0 < u64Bound := by decide
  simp only [refuse]
  omega

/-- **Where there is room, there is room in every counter.** -/
theorem add_le_limit {limits : ResourceLimits} {resource : Resource} {bytes : ℕ}
    (hroom : usage.admits limits resource bytes = true)
    (hle : ∀ c : Counter, c.value usage ≤ c.limit limits) :
    c.value usage + c.weight ⟨resource, bytes⟩ ≤ c.limit limits := by
  have h := hle c
  cases resource <;> cases c <;>
    simp only [admits, Bool.and_eq_true, decide_eq_true_eq, Counter.value, Counter.limit,
      Counter.weight] at hroom h ⊢ <;> omega

end ResourceSnapshot

/-! ## Budgets -/

/-- A budget: its limits and its usage. -/
structure ResourceBudget where
  limits : ResourceLimits
  usage : ResourceSnapshot
  deriving DecidableEq, Repr

namespace ResourceBudget

/-- `ResourceBudget::new`. -/
def new (limits : ResourceLimits) : ResourceBudget := ⟨limits, {}⟩

/-- `ResourceBudget::reserve`: the permit, or the refusal counted. -/
def reserve (b : ResourceBudget) (resource : Resource) (bytes : ℕ) :
    Option Permit × ResourceBudget :=
  if b.usage.admits b.limits resource bytes then
    (some ⟨resource, bytes⟩, { b with usage := b.usage.add ⟨resource, bytes⟩ })
  else (none, { b with usage := b.usage.refuse })

/-- `Drop for Permit`. -/
def release (b : ResourceBudget) (p : Permit) : ResourceBudget :=
  { b with usage := b.usage.sub p }

/-- **The accounts are right**: every counter is the tally of the live
permits. -/
def Tallies (b : ResourceBudget) (live : List Permit) : Prop :=
  ∀ c : Counter, c.value b.usage = total c.weight live

/-- No counter exceeds its limit. -/
def Bounded (b : ResourceBudget) : Prop := ∀ c : Counter, c.value b.usage ≤ c.limit b.limits

variable {b b' : ResourceBudget} {resource : Resource} {bytes : ℕ} {p q : Permit} {c : Counter}
  {live live' : List Permit}

/-- What a granted reservation does. -/
theorem reserve_some (h : b.reserve resource bytes = (some p, b')) :
    b.usage.admits b.limits resource bytes = true ∧ p = ⟨resource, bytes⟩ ∧
      b' = { b with usage := b.usage.add p } := by
  unfold reserve at h
  split at h
  · rename_i hroom
    simp only [Prod.mk.injEq, Option.some.injEq] at h
    obtain ⟨rfl, rfl⟩ := h
    exact ⟨hroom, rfl, rfl⟩
  · simp at h

/-- **A refused reservation counts the refusal and does nothing else.** -/
theorem reserve_none (h : b.reserve resource bytes = (none, b')) :
    b.usage.admits b.limits resource bytes = false ∧ b' = { b with usage := b.usage.refuse } := by
  unfold reserve at h
  split at h
  · simp at h
  · rename_i hroom
    simp only [Prod.mk.injEq, true_and] at h
    exact ⟨by simpa using hroom, h.symm⟩

/-- **A granted reservation stays within the limits.** -/
theorem reserve_le_limit (hb : b.Bounded) (h : b.reserve resource bytes = (some p, b')) :
    c.value b.usage + c.weight p ≤ c.limit b.limits := by
  obtain ⟨hroom, rfl, -⟩ := reserve_some h
  exact b.usage.add_le_limit c hroom hb

theorem tallies_new (limits : ResourceLimits) : (new limits).Tallies [] := by
  intro c
  cases c <;> rfl

theorem bounded_new (limits : ResourceLimits) : (new limits).Bounded := by
  intro c
  cases c <;> exact Nat.zero_le _

/-- **The count of refusals never decreases**, and stays a `u64`. -/
theorem overloads_reserve {o : Option Permit} (hb : b.usage.overloads < u64Bound)
    (h : b.reserve resource bytes = (o, b')) :
    b.usage.overloads ≤ b'.usage.overloads ∧ b'.usage.overloads < u64Bound := by
  cases o with
  | none =>
    obtain ⟨-, rfl⟩ := reserve_none h
    exact b.usage.overloads_refuse hb
  | some p =>
    obtain ⟨-, -, rfl⟩ := reserve_some h
    simpa using hb

/-- A reservation, granted or refused, keeps the budget within its limits. -/
theorem Bounded.reserve {o : Option Permit} (hb : b.Bounded)
    (h : b.reserve resource bytes = (o, b')) : b'.Bounded := by
  intro c
  cases o with
  | none =>
    obtain ⟨-, rfl⟩ := reserve_none h
    simpa using hb c
  | some p =>
    have hle := reserve_le_limit (c := c) hb h
    obtain ⟨-, -, rfl⟩ := reserve_some h
    simpa using hle

theorem Bounded.release (hb : b.Bounded) (p : Permit) : (b.release p).Bounded := by
  intro c
  have h := hb c
  simp only [ResourceBudget.release, ResourceSnapshot.value_sub]
  omega

/-- **A live permit is within every counter**, so dropping it takes away
no more than is there. -/
theorem Tallies.le (h : b.Tallies live) (hp : p ∈ live) : c.weight p ≤ c.value b.usage := by
  rw [h c]
  exact le_total hp

/-- The accounts follow a granted reservation. -/
theorem Tallies.grant (h : b.Tallies live) (hr : b.reserve resource bytes = (some p, b'))
    (hlive : ∀ c : Counter, total c.weight live' = c.weight p + total c.weight live) :
    b'.Tallies live' := by
  obtain ⟨-, -, rfl⟩ := reserve_some hr
  intro c
  have := h c
  simp only [ResourceSnapshot.value_add, hlive]
  omega

/-- The accounts follow a refused reservation. -/
theorem Tallies.refuse (h : b.Tallies live) (hr : b.reserve resource bytes = (none, b')) :
    b'.Tallies live := by
  obtain ⟨-, rfl⟩ := reserve_none hr
  intro c
  simpa using h c

/-- The accounts follow a dropped permit. -/
theorem Tallies.drop (h : b.Tallies live)
    (hlive : ∀ c : Counter, c.weight p + total c.weight live' = total c.weight live) :
    (b.release p).Tallies live' := by
  intro c
  have hc := h c
  have hl := hlive c
  simp only [ResourceBudget.release, ResourceSnapshot.value_sub]
  omega

/-- The accounts do not depend on who holds what. -/
theorem Tallies.congr (h : b.Tallies live)
    (hlive : ∀ c : Counter, total c.weight live' = total c.weight live) : b.Tallies live' := by
  intro c
  rw [h c, hlive c]

end ResourceBudget

end Vcmp
