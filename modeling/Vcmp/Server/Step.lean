import Vcmp.Server.Model
/-!
# What a step of the server can do

One inversion for each party, and what a step leaves as it is. A task
changes its own place only; what else it does is to its session, to its
endpoint, and to a `stop` that its hook was awaiting.
-/

namespace Vcmp

namespace VcmpServer

/-- What a step of the task `k` can do. -/
inductive TaskStep (s : VcmpServer) (k : ℕ) (t : ConnectionTask) : TaskMove → VcmpServer → Prop
  | opens (hpc : t.pc = .gated) (hready : t.ready = true) :
      TaskStep s k t .goes (s.setTask k { t with pc := .handshaking })
  | matched {i : ℕ} (hpc : t.pc = .handshaking) (hi : i < s.endpoints.length) :
      TaskStep s k t (.matched i) (s.setTask k { t with pc := .responding i })
  | lost (hpc : t.pc = .handshaking ∨ ∃ i, t.pc = .responding i) :
      TaskStep s k t .fails (s.setTask k { t with pc := .ended })
  | shaken {i : ℕ} (hpc : t.pc = .responding i) :
      TaskStep s k t .succeeds (s.setTask k { t with pc := .checking i })
  | turnedAway {i : ℕ} (hpc : t.pc = .checking i) (hstopped : s.stopped = true) :
      TaskStep s k t .goes (s.setTask k { t with pc := .ended })
  | letIn {i : ℕ} (hpc : t.pc = .checking i) (hstopped : s.stopped = false) :
      TaskStep s k t .goes (s.setTask k { t with pc := .starting i })
  | counted {i : ℕ} (hpc : t.pc = .reserved i) :
      TaskStep s k t .goes ((s.setTask k { t with pc := .upgrading i }).beginUpgrade i)
  | upgraded {i : ℕ} (hpc : t.pc = .upgrading i) :
      TaskStep s k t .succeeds (s.setTask k { t with pc := .starting i })
  | failed {i : ℕ} (hpc : t.pc = .upgrading i) :
      TaskStep s k t .fails ((s.setTask k { t with pc := .ended }).dropPending t.pending)
  | spawned {i : ℕ} (hpc : t.pc = .starting i) :
      TaskStep s k t .goes { s.setTask k { t with pc := .inserting i s.sessions.length } with
        sessions := s.sessions ++ [{ endpoint := i, task := k }] }
  | inserted {i c : ℕ} (hpc : t.pc = .inserting i c) :
      TaskStep s k t .goes ((s.setTask k { t with
        pc := if t.upgrade then .releasing i c else .preparing i c }).insert i c)
  | released {i c : ℕ} (hpc : t.pc = .releasing i c) :
      TaskStep s k t .goes ((s.setTask k { t with pc := .preparing i c }).dropPending t.pending)
  | unhooked {i c : ℕ} {admitted : Bool} (hpc : t.pc = .preparing i c) :
      TaskStep s k t (.prepare false admitted) (s.setTask k { t with pc := .serving i c })
  | hooked {i c : ℕ} (hpc : t.pc = .preparing i c) :
      TaskStep s k t (.prepare true true) (s.setTask k { t with pc := .hooking i c })
  | overloaded {i c : ℕ} (hpc : t.pc = .preparing i c) :
      TaskStep s k t (.prepare true false) ((s.setTask k { t with pc := .serving i c }).closeSession c)
  | hookEnds {i c : ℕ} (hpc : t.pc = .hooking i c) :
      TaskStep s k t .hookEnds ((s.setTask k { t with pc := .serving i c }).leaveHook k)
  | closedSeen {i c : ℕ} (hpc : t.pc = .serving i c)
      (hclosed : (s.sessions[c]?.map ServedSession.closed) = some true) :
      TaskStep s k t .closedSeen (s.setTask k { t with pc := .removing i c })
  | removed {i c : ℕ} (hpc : t.pc = .removing i c) :
      TaskStep s k t .goes ((s.setTask k { t with pc := .deciding i c }).remove i c)
  | notifies {i c : ℕ} (hpc : t.pc = .deciding i c) :
      TaskStep s k t (.decide true) (s.setTask k { t with pc := .notifying i c })
  | silent {i c : ℕ} (hpc : t.pc = .deciding i c) :
      TaskStep s k t (.decide false) (s.setTask k { t with pc := .cleaning i c })
  | notified {i c : ℕ} (hpc : t.pc = .notifying i c) :
      TaskStep s k t .hookEnds ((s.setTask k { t with pc := .cleaning i c }).leaveHook k)
  | cleaned {i c : ℕ} (hpc : t.pc = .cleaning i c) :
      TaskStep s k t .goes ((s.setTask k { t with pc := .unlisting i c }).closeSession c)
  | unlisted {i c : ℕ} (hpc : t.pc = .unlisting i c) :
      TaskStep s k t .goes ((s.setTask k { t with pc := .ended }).remove i c)
  | aborts (habort : t.aborted = true) (hawaits : t.pc.awaits = true) :
      TaskStep s k t .aborts ((s.setTask k { t with pc := t.pc.unwound }).leaveHook k)
  | panics (hhook : t.pc.inHook = true) :
      TaskStep s k t .panics ((s.setTask k { t with pc := t.pc.unwound }).leaveHook k)

variable {s s' : VcmpServer} {k : ℕ} {t u : ConnectionTask} {e : Event}

/-- **Every step of a task is one of these.** -/
theorem taskStep_of_next {move : TaskMove} (h : s.taskNext k t move = some s') :
    TaskStep s k t move s' := by
  cases move with
  | goes =>
    cases hpc : t.pc <;> simp only [taskNext, hpc, reduceCtorEq, Option.ite_none_right_eq_some,
      Option.some.injEq] at h
    case gated => obtain ⟨hready, rfl⟩ := h; exact .opens hpc hready
    case checking =>
      split at h <;> cases h
      · exact .turnedAway hpc ‹_›
      · exact .letIn hpc (Bool.not_eq_true _ ▸ ‹_›)
    case reserved => exact h ▸ .counted hpc
    case starting => exact h ▸ .spawned hpc
    case inserting => exact h ▸ .inserted hpc
    case releasing => exact h ▸ .released hpc
    case removing => exact h ▸ .removed hpc
    case cleaning => exact h ▸ .cleaned hpc
    case unlisting => exact h ▸ .unlisted hpc
  | matched i =>
    cases hpc : t.pc <;> simp only [taskNext, hpc, reduceCtorEq, Option.ite_none_right_eq_some,
      Option.some.injEq] at h
    obtain ⟨hi, rfl⟩ := h
    exact .matched hpc hi
  | succeeds =>
    cases hpc : t.pc <;> simp only [taskNext, hpc, reduceCtorEq, Option.some.injEq] at h
    · exact h ▸ .shaken hpc
    · exact h ▸ .upgraded hpc
  | fails =>
    cases hpc : t.pc <;> simp only [taskNext, hpc, reduceCtorEq, Option.some.injEq] at h
    · exact h ▸ .lost (.inl hpc)
    · exact h ▸ .lost (.inr ⟨_, hpc⟩)
    · exact h ▸ .failed hpc
  | prepare hook admitted =>
    cases hpc : t.pc <;> simp only [taskNext, hpc, reduceCtorEq] at h
    cases hook <;> cases admitted <;> simp at h <;> subst h
    · exact .unhooked hpc
    · exact .unhooked hpc
    · exact .overloaded hpc
    · exact .hooked hpc
  | hookEnds =>
    cases hpc : t.pc <;> simp only [taskNext, hpc, reduceCtorEq, Option.some.injEq] at h
    · exact h ▸ .hookEnds hpc
    · exact h ▸ .notified hpc
  | closedSeen =>
    cases hpc : t.pc <;> simp only [taskNext, hpc, reduceCtorEq, Option.ite_none_right_eq_some,
      Option.some.injEq] at h
    obtain ⟨hclosed, rfl⟩ := h
    exact .closedSeen hpc hclosed
  | decide hook =>
    cases hpc : t.pc <;> simp only [taskNext, hpc, reduceCtorEq] at h
    cases hook <;> simp at h <;> subst h
    · exact .silent hpc
    · exact .notifies hpc
  | aborts =>
    simp only [taskNext, Option.ite_none_right_eq_some, Option.some.injEq] at h
    obtain ⟨⟨habort, hawaits⟩, rfl⟩ := h
    exact .aborts habort hawaits
  | panics =>
    simp only [taskNext, Option.ite_none_right_eq_some, Option.some.injEq] at h
    obtain ⟨hhook, rfl⟩ := h
    exact .panics hhook

/-- A task that may be joined. -/
def Joinable (s : VcmpServer) (k : ℕ) : Prop :=
  ∃ t, s.tasks[k]? = some t ∧ t.upgrade = false ∧ t.joined = false ∧ t.pc = .ended

/-- What a step of the accept loop can do. -/
inductive AcceptStep (s : VcmpServer) : AcceptMove → VcmpServer → Prop
  | stopSeen (hpc : s.accept = .selecting) (hsent : s.stopSent = true) :
      AcceptStep s .stopSeen { s with accept := .dropping }
  | accepts (hpc : s.accept = .selecting) : AcceptStep s .accepts { s with
      tasks := s.tasks ++ [{ upgrade := false, pc := .gated }], accept := .entering s.tasks.length }
  | errs (hpc : s.accept = .selecting) : AcceptStep s .errs { s with accept := .sleeping }
  | wakes (hpc : s.accept = .sleeping) : AcceptStep s .wakes { s with accept := .selecting }
  | enters {k : ℕ} (hpc : s.accept = .entering k) : AcceptStep s .goes { s with
      connections := { s.connections with tasks := s.connections.tasks ++ [k] }, accept := .readying k }
  | readies {k : ℕ} (hpc : s.accept = .readying k) : AcceptStep s .goes { s with
      tasks := s.tasks.modify k (fun t => { t with ready := true }), accept := .selecting }
  | joins {k : ℕ} (hpc : s.accept = .selecting) (hk : s.Joinable k) : AcceptStep s (.joins k) { s with
      tasks := s.tasks.modify k (fun t => { t with joined := true }), accept := .joined k }
  | records {k : ℕ} (hpc : s.accept = .joined k) : AcceptStep s .goes { s with
      connections := s.connections.finished k, accept := .selecting }
  | drops (hpc : s.accept = .dropping) :
      AcceptStep s .goes { s with listener := false, accept := .announcing }
  | announces (hpc : s.accept = .announcing) : AcceptStep s .goes { s with
      connections := { s.connections with accepting := false }, accept := .draining }
  | joinsLast {k : ℕ} (hpc : s.accept = .draining) (hk : s.Joinable k) :
      AcceptStep s (.joins k) { s with
        tasks := s.tasks.modify k (fun t => { t with joined := true }), accept := .drained k }
  | recordsLast {k : ℕ} (hpc : s.accept = .drained k) : AcceptStep s .goes { s with
      connections := s.connections.finished k, accept := .draining }
  | drains (hpc : s.accept = .draining)
      (hall : ∀ (k : ℕ) (t : ConnectionTask), s.tasks[k]? = some t → t.upgrade = false → t.joined = true) :
      AcceptStep s .drains { s with accept := .ended }
  | aborts (habort : s.acceptAborted = true) (hpc : s.accept.suspended = true) :
      AcceptStep s .aborts { s.abortAll (fun _ t => !t.upgrade && !t.joined) with
        accept := .ended, listener := false }

theorem joinable_iff : (s.tasks[k]?.map fun t => !t.upgrade && !t.joined && decide (t.pc = .ended)) =
    some true ↔ s.Joinable k := by
  simp only [Option.map_eq_some_iff, Bool.and_eq_true, Bool.not_eq_true', decide_eq_true_eq, Joinable,
    and_assoc]

/-- **Every step of the accept loop is one of these.** -/
theorem acceptStep_of_next {move : AcceptMove} (h : s.acceptNext move = some s') :
    AcceptStep s move s' := by
  cases move with
  | goes =>
    cases hpc : s.accept <;> simp only [acceptNext, hpc, reduceCtorEq, Option.some.injEq] at h
    · exact h ▸ .enters hpc
    · exact h ▸ .readies hpc
    · exact h ▸ .records hpc
    · exact h ▸ .drops hpc
    · exact h ▸ .announces hpc
    · exact h ▸ .recordsLast hpc
  | stopSeen =>
    cases hpc : s.accept <;> simp only [acceptNext, hpc, reduceCtorEq, Option.ite_none_right_eq_some,
      Option.some.injEq] at h
    obtain ⟨hsent, rfl⟩ := h
    exact .stopSeen hpc hsent
  | accepts =>
    cases hpc : s.accept <;> simp only [acceptNext, hpc, reduceCtorEq, Option.some.injEq] at h
    exact h ▸ .accepts hpc
  | errs =>
    cases hpc : s.accept <;> simp only [acceptNext, hpc, reduceCtorEq, Option.some.injEq] at h
    exact h ▸ .errs hpc
  | wakes =>
    cases hpc : s.accept <;> simp only [acceptNext, hpc, reduceCtorEq, Option.some.injEq] at h
    exact h ▸ .wakes hpc
  | joins k =>
    cases hpc : s.accept <;> simp only [acceptNext, hpc, reduceCtorEq, Option.ite_none_right_eq_some,
      Option.some.injEq, joinable_iff] at h <;> obtain ⟨hk, rfl⟩ := h
    · exact .joins hpc hk
    · exact .joinsLast hpc hk
  | drains =>
    cases hpc : s.accept <;> simp only [acceptNext, hpc, reduceCtorEq, Option.ite_none_right_eq_some,
      Option.some.injEq] at h
    obtain ⟨hall, rfl⟩ := h
    refine .drains hpc fun k t ht hbare => ?_
    have hor := List.all_eq_true.mp hall t (List.mem_of_getElem? ht)
    simpa [hbare] using hor
  | aborts =>
    simp only [acceptNext, Option.ite_none_right_eq_some, Option.some.injEq] at h
    obtain ⟨⟨habort, hpc⟩, rfl⟩ := h
    exact .aborts habort hpc

/-- What a step of the `close_sessions` call `q` can do. -/
inductive ClosingStep (s : VcmpServer) (q : ℕ) : ClosingPc → VcmpServer → Prop
  | lists : ClosingStep s q .listing
      { s with closings := s.closings.set q (.waiting s.endpoints.length 0) }
  | passes {n i : ℕ} {p : Endpoint} (hi : i < n) (hp : s.endpoints[i]? = some p)
      (hnone : p.pendingUpgrades = 0) : ClosingStep s q (.waiting n i)
        { s with closings := s.closings.set q (.waiting n (i + 1)) }
  | waited {n i : ℕ} (hi : n ≤ i) : ClosingStep s q (.waiting n i)
      { s with closings := s.closings.set q (.collecting n 0 []) }
  | collects {n i : ℕ} {sessions : List ℕ} {p : Endpoint} (hi : i < n)
      (hp : s.endpoints[i]? = some p) : ClosingStep s q (.collecting n i sessions)
        { s with closings := s.closings.set q (.collecting n (i + 1) (sessions ++ p.sessions)) }
  | collected {n i : ℕ} {sessions : List ℕ} (hi : n ≤ i) : ClosingStep s q (.collecting n i sessions)
      { s with closings := s.closings.set q (.closing sessions sessions) }
  | closes {c : ℕ} {sessions left : List ℕ} : ClosingStep s q (.closing sessions (c :: left))
      { s.closeSession c with closings := s.closings.set q (.closing sessions left) }
  | closed {sessions : List ℕ} : ClosingStep s q (.closing sessions [])
      { s with closings := s.closings.set q (.awaiting sessions sessions) }
  | awaits {c : ℕ} {sessions left : List ℕ}
      (hclosed : (s.sessions[c]?.map ServedSession.closed) = some true) :
      ClosingStep s q (.awaiting sessions (c :: left))
        { s with closings := s.closings.set q (.awaiting sessions left) }
  | returns {sessions : List ℕ} : ClosingStep s q (.awaiting sessions [])
      { s with closings := s.closings.set q (.returned sessions) }

theorem closingStep_of_next {q : ℕ} {pc : ClosingPc} (h : s.closingNext q pc = some s') :
    ClosingStep s q pc s' := by
  cases pc with
  | listing => exact (Option.some.inj h) ▸ .lists
  | waiting n i =>
    simp only [closingNext] at h
    split at h
    · rename_i hi
      simp only [Option.ite_none_right_eq_some, Option.map_eq_some_iff, Option.some.injEq] at h
      obtain ⟨⟨p, hp, hnone⟩, rfl⟩ := h
      exact .passes hi hp hnone
    · exact (Option.some.inj h) ▸ .waited (by omega)
  | collecting n i sessions =>
    simp only [closingNext] at h
    split at h
    · rename_i hi
      simp only [Option.map_eq_some_iff] at h
      obtain ⟨p, hp, rfl⟩ := h
      exact .collects hi hp
    · exact (Option.some.inj h) ▸ .collected (by omega)
  | closing sessions left =>
    cases left with
    | nil => exact (Option.some.inj h) ▸ .closed
    | cons c left => exact (Option.some.inj h) ▸ .closes
  | awaiting sessions left =>
    cases left with
    | nil => exact (Option.some.inj h) ▸ .returns
    | cons c left =>
      simp only [closingNext, Option.ite_none_right_eq_some, Option.some.injEq] at h
      obtain ⟨hclosed, rfl⟩ := h
      exact .awaits hclosed
  | returned sessions | dropped => cases h

/-- What a step of the `stop` can do. -/
inductive StopStep (s : VcmpServer) (c : StopCall) : VcmpServer → Prop
  | filters (hpc : c.pc = .filtering) : StopStep s c { s with stop := some { c with
      caller := c.awaiter.filter (fun k => k ∈ s.connections.tasks), pc := .storing } }
  | stores (hpc : c.pc = .storing) :
      StopStep s c { s with stopped := true, stop := some { c with pc := .sending } }
  | sends (hpc : c.pc = .sending) : StopStep s c { s with
      stopSent := true, closings := s.closings ++ [.listing]
      stop := some { c with pc := .closing, call := some s.closings.length } }
  | closed {q : ℕ} {sessions : List ℕ} (hpc : c.pc = .closing) (hcall : c.call = some q)
      (hq : s.closings[q]? = some (.returned sessions)) :
      StopStep s c { s with stop := some { c with pc := .waiting } }
  | returns (hpc : c.pc = .waiting ∨ c.pc = .reaping) (hquiet : s.quiet c = true) :
      StopStep s c { s with stop := some { c with pc := .returned } }

theorem stopStep_of_next {c : StopCall} (h : s.stopNext c = some s') : StopStep s c s' := by
  unfold stopNext at h
  split at h
  · exact (Option.some.inj h) ▸ .filters ‹_›
  · exact (Option.some.inj h) ▸ .stores ‹_›
  · exact (Option.some.inj h) ▸ .sends ‹_›
  · split at h
    · rename_i sessions hret
      obtain ⟨q, hcall, hq⟩ := Option.bind_eq_some_iff.mp hret
      exact (Option.some.inj h) ▸ .closed ‹_› hcall hq
    · cases h
  · simp only [Option.ite_none_right_eq_some, Option.some.injEq] at h
    obtain ⟨hquiet, rfl⟩ := h
    exact .returns (.inl ‹_›) hquiet
  · simp only [Option.ite_none_right_eq_some, Option.some.injEq] at h
    obtain ⟨hquiet, rfl⟩ := h
    exact .returns (.inr ‹_›) hquiet
  · cases h
  · cases h

/-- What the deadline of the `stop` can do. -/
inductive DeadlineStep (s : VcmpServer) (c : StopCall) : VcmpServer → Prop
  | others {k : ℕ} (hpc : c.pc = .waiting) (hcaller : c.caller = some k) :
      DeadlineStep s c { s.abortAll (fun j _ => j ∈ s.connections.tasks && j ≠ k) with
        stop := some { c with pc := .reaping } }
  | loop (hpc : c.pc = .waiting) (hcaller : c.caller = none) :
      DeadlineStep s c { s with acceptAborted := true, stop := some { c with pc := .reaping } }

theorem deadlineStep_of_next {c : StopCall} (h : s.deadlineNext c = some s') :
    DeadlineStep s c s' := by
  unfold deadlineNext at h
  split at h
  · exact (Option.some.inj h) ▸ .others ‹_› ‹_›
  · exact (Option.some.inj h) ▸ .loop ‹_› ‹_›
  · cases h

/-- **What a step can do**, party by party. -/
inductive Step (s : VcmpServer) : Event → VcmpServer → Prop
  | endpoint : Step s .endpoint { s with endpoints := s.endpoints ++ [{}] }
  | accept {move : AcceptMove} {s' : VcmpServer} (h : AcceptStep s move s') : Step s (.accept move) s'
  | upgrade {i : ℕ} (hi : i < s.endpoints.length) :
      Step s (.onUpgrade i true) { s with tasks := s.tasks ++ [{ upgrade := true, pc := .reserved i }] }
  | overload {i : ℕ} : Step s (.onUpgrade i false) s
  | task {k : ℕ} {t : ConnectionTask} {move : TaskMove} {s' : VcmpServer}
      (ht : s.tasks[k]? = some t) (h : TaskStep s k t move s') : Step s (.task k move) s'
  | closeSessions : Step s .closeSessions { s with closings := s.closings ++ [.listing] }
  | closing {q : ℕ} {pc : ClosingPc} {s' : VcmpServer} (hq : s.closings[q]? = some pc)
      (h : ClosingStep s q pc s') : Step s (.closing q) s'
  | stop {awaiter : Option ℕ} (hnone : s.stop = none) (hhook : ∀ k ∈ awaiter, s.inHook k = true) :
      Step s (.stop awaiter) { s with stop := some { awaiter := awaiter } }
  | stopGoes {c : StopCall} {s' : VcmpServer} (hc : s.stop = some c) (h : StopStep s c s') :
      Step s .stopGoes s'
  | stopDeadline {c : StopCall} {s' : VcmpServer} (hc : s.stop = some c) (h : DeadlineStep s c s') :
      Step s .stopDeadline s'
  | close {c : ℕ} : Step s (.close c) (s.closeSession c)
  | finish {c : ℕ} (hshut : (s.sessions[c]?.map ServedSession.isOpen) = some false) :
      Step s (.finish c) { s with sessions := s.sessions.modify c fun x => { x with closed := true } }

/-- **Every step of the machine is one of these.** -/
theorem step_of_next (h : machine.next s e = some s') : Step s e s' := by
  change s.next e = some s' at h
  cases e with
  | endpoint => exact (Option.some.inj h) ▸ .endpoint
  | accept move => exact .accept (acceptStep_of_next h)
  | onUpgrade i admitted =>
    simp only [next, Option.ite_none_right_eq_some] at h
    obtain ⟨hi, h⟩ := h
    cases admitted with
    | true => exact (Option.some.inj h) ▸ .upgrade hi
    | false => exact (Option.some.inj h) ▸ .overload
  | task k move =>
    obtain ⟨t, ht, h⟩ := Option.bind_eq_some_iff.mp h
    exact .task ht (taskStep_of_next h)
  | closeSessions => exact (Option.some.inj h) ▸ .closeSessions
  | closing q =>
    obtain ⟨pc, hq, h⟩ := Option.bind_eq_some_iff.mp h
    exact .closing hq (closingStep_of_next h)
  | stop awaiter =>
    simp only [next, Option.ite_none_right_eq_some, Option.some.injEq] at h
    obtain ⟨⟨hnone, hhook⟩, rfl⟩ := h
    exact .stop hnone hhook
  | stopGoes =>
    obtain ⟨c, hc, h⟩ := Option.bind_eq_some_iff.mp h
    exact .stopGoes hc (stopStep_of_next h)
  | stopDeadline =>
    obtain ⟨c, hc, h⟩ := Option.bind_eq_some_iff.mp h
    exact .stopDeadline hc (deadlineStep_of_next h)
  | close c => exact (Option.some.inj h) ▸ .close
  | finish c =>
    simp only [next, Option.ite_none_right_eq_some, Option.some.injEq] at h
    obtain ⟨hshut, rfl⟩ := h
    exact .finish hshut

/-! ## What is done to tasks in their places -/

/-- A task that was modified in a field other than its place. -/
theorem modify_back {g : ConnectionTask → ConnectionTask} {j : ℕ}
    (hu : (s.tasks.modify j g)[k]? = some u)
    (hg : ∀ t, (g t).upgrade = t.upgrade ∧ (g t).pc = t.pc) :
    ∃ t, s.tasks[k]? = some t ∧ u.upgrade = t.upgrade ∧ u.pc = t.pc := by
  obtain ⟨t, ht, rfl⟩ := getElem?_modify_cases hu
  refine ⟨t, ht, ?_⟩
  split
  · exact hg t
  · exact ⟨rfl, rfl⟩

theorem modify_forth {g : ConnectionTask → ConnectionTask} {j : ℕ}
    (hg : ∀ t, (g t).upgrade = t.upgrade ∧ (g t).pc = t.pc) (ht : s.tasks[k]? = some t) :
    ∃ u, (s.tasks.modify j g)[k]? = some u ∧ u.upgrade = t.upgrade ∧ u.pc = t.pc := by
  refine ⟨if j = k then g t else t, by simp [List.getElem?_modify, ht], ?_⟩
  split
  · exact hg t
  · exact ⟨rfl, rfl⟩

/-- A task that is told to abort stays where it is. -/
theorem abortAll_forth (p : ℕ → ConnectionTask → Bool) (ht : s.tasks[k]? = some t) :
    (s.abortAll p).tasks[k]? = some { t with aborted := t.aborted || p k t } := by
  simp only [abortAll, List.getElem?_mapIdx, ht, Option.map_some]
  cases hp : p k t <;> simp

theorem abortAll_back {p : ℕ → ConnectionTask → Bool} (hu : (s.abortAll p).tasks[k]? = some u) :
    ∃ t, s.tasks[k]? = some t ∧ u = { t with aborted := t.aborted || p k t } := by
  cases ht : s.tasks[k]? with
  | none => simp [abortAll, List.getElem?_mapIdx, ht] at hu
  | some t => exact ⟨t, rfl, Option.some.inj (hu.symm.trans (abortAll_forth p ht))⟩

/-! ## What a step leaves as it is -/

/-- A hook that is over drops the `stop` it was awaiting, and touches nothing else. -/
inductive Left (s : VcmpServer) (k : ℕ) : VcmpServer → Prop
  | same : Left s k s
  | dropped {c : StopCall} (hc : s.stop = some c) (hawaits : c.awaiter = some k)
      (hnot : c.pc ≠ .returned) :
      Left s k { s.dropClosing c.call with stop := some { c with pc := .dropped } }

theorem left_leaveHook (s : VcmpServer) (k : ℕ) : Left s k (s.leaveHook k) := by
  unfold leaveHook
  split
  · rename_i c hc
    split
    · rename_i hand
      exact .dropped hc hand.1 hand.2
    · exact .same
  · exact .same

theorem leaveHook_eq (s : VcmpServer) (k : ℕ) : s.leaveHook k =
    { s with closings := (s.leaveHook k).closings, stop := (s.leaveHook k).stop } := by
  have hdrop : ∀ o, s.dropClosing o = { s with closings := (s.dropClosing o).closings } := by
    intro o
    cases o <;> rfl
  have hleft := left_leaveHook s k
  generalize s.leaveHook k = u at hleft
  cases hleft with
  | same => rfl
  | @dropped c => rw [hdrop c.call]

theorem dropPending_eq (s : VcmpServer) (o : Option ℕ) :
    s.dropPending o = { s with endpoints := (s.dropPending o).endpoints } := by
  cases o <;> rfl

/-- **A task changes its own place**, and of the rest only endpoints,
sessions and a `stop`. -/
theorem taskStep_eq {move : TaskMove} (h : TaskStep s k t move s') : ∃ pc, s' = { s with
    tasks := s.tasks.set k { t with pc := pc }, endpoints := s'.endpoints, sessions := s'.sessions
    closings := s'.closings, stop := s'.stop } := by
  have hleave : ∀ pc, (s.setTask k { t with pc := pc }).leaveHook k = { s with
      tasks := s.tasks.set k { t with pc := pc }
      closings := ((s.setTask k { t with pc := pc }).leaveHook k).closings
      stop := ((s.setTask k { t with pc := pc }).leaveHook k).stop } := fun pc => leaveHook_eq _ k
  have hdrop : ∀ pc o, (s.setTask k { t with pc := pc }).dropPending o = { s with
      tasks := s.tasks.set k { t with pc := pc }
      endpoints := ((s.setTask k { t with pc := pc }).dropPending o).endpoints } :=
    fun pc o => dropPending_eq _ o
  cases h with
  | failed | released => exact ⟨_, (hdrop _ _).trans (by rw [hdrop])⟩
  | hookEnds | notified | aborts | panics => exact ⟨_, (hleave _).trans (by rw [hleave])⟩
  | _ => exact ⟨_, rfl⟩

/-- What the end of a hook does to a `stop`. -/
theorem stop_leaveHook (s : VcmpServer) (k : ℕ) :
    (s.leaveHook k).stop = s.stop ∧ (∀ c, s.stop = some c → c.awaiter = some k → c.pc = .returned) ∨
      ∃ c, s.stop = some c ∧ (s.leaveHook k).stop = some { c with pc := .dropped } := by
  unfold leaveHook
  split
  · rename_i c hc
    split
    · exact .inr ⟨c, hc, rfl⟩
    · rename_i hnot
      refine .inl ⟨rfl, fun d hd hawaits => ?_⟩
      obtain rfl := Option.some.inj (hc.symm.trans hd)
      by_contra hret
      exact hnot ⟨hawaits, hret⟩
  · rename_i hnone
    refine .inl ⟨rfl, fun c hc => ?_⟩
    rw [hnone] at hc
    cases hc

/-- **A task that leaves a hook drops the `stop` it was awaiting there**, and
no other step of it does anything to one. -/
theorem taskStep_stop {move : TaskMove} (h : TaskStep s k t move s') :
    s'.stop = s.stop ∧ (t.pc.inHook = true → ∀ c, s.stop = some c → c.awaiter = some k →
      c.pc = .returned) ∨ ∃ c, s.stop = some c ∧ s'.stop = some { c with pc := .dropped } := by
  have hleave : ∀ v, ((s.setTask k v).leaveHook k).stop = s.stop ∧
      (t.pc.inHook = true → ∀ c, s.stop = some c → c.awaiter = some k → c.pc = .returned) ∨
      ∃ c, s.stop = some c ∧ ((s.setTask k v).leaveHook k).stop = some { c with pc := .dropped } :=
    fun v => (stop_leaveHook (s.setTask k v) k).imp_left fun hsame => ⟨hsame.1, fun _ => hsame.2⟩
  cases h with
  | hookEnds | notified | aborts | panics => exact hleave _
  | failed hpc | released hpc =>
    refine .inl ⟨by rw [dropPending_eq]; rfl, fun hin => ?_⟩
    rw [hpc] at hin
    cases hin
  | lost hpc =>
    refine .inl ⟨rfl, fun hin => ?_⟩
    rcases hpc with hpc | ⟨i, hpc⟩ <;> rw [hpc] at hin <;> cases hin
  | _ hpc =>
    refine .inl ⟨rfl, fun hin => ?_⟩
    rw [hpc] at hin
    cases hin

/-- What a step of another makes of a task. -/
theorem task_of_next (hn : machine.next s e = some s') (ht : s.tasks[k]? = some t)
    (hnot : ∀ move, e ≠ .task k move) :
    ∃ u, s'.tasks[k]? = some u ∧ u.upgrade = t.upgrade ∧ u.pc = t.pc := by
  have hsame : s'.tasks = s.tasks → ∃ u, s'.tasks[k]? = some u ∧ u.upgrade = t.upgrade ∧ u.pc = t.pc :=
    fun htasks => ⟨t, htasks.symm ▸ ht, rfl, rfl⟩
  have hconcat : ∀ v, s'.tasks = s.tasks ++ [v] →
      ∃ u, s'.tasks[k]? = some u ∧ u.upgrade = t.upgrade ∧ u.pc = t.pc := by
    intro v htasks
    refine ⟨t, ?_, rfl, rfl⟩
    rw [htasks, getElem?_append_some ht]
  have hmodify : ∀ (j : ℕ) (g : ConnectionTask → ConnectionTask), s'.tasks = s.tasks.modify j g →
      (∀ t, (g t).upgrade = t.upgrade ∧ (g t).pc = t.pc) →
      ∃ u, s'.tasks[k]? = some u ∧ u.upgrade = t.upgrade ∧ u.pc = t.pc := by
    intro j g htasks hg
    rw [htasks]
    exact modify_forth hg ht
  have habort : ∀ p, s'.tasks = (s.abortAll p).tasks →
      ∃ u, s'.tasks[k]? = some u ∧ u.upgrade = t.upgrade ∧ u.pc = t.pc := by
    intro p htasks
    rw [htasks]
    exact ⟨_, abortAll_forth p ht, rfl, rfl⟩
  cases step_of_next hn with
  | accept hs =>
    cases hs with
    | accepts => exact hconcat _ rfl
    | readies | joins | joinsLast => exact hmodify _ _ rfl fun _ => ⟨rfl, rfl⟩
    | aborts => exact habort _ rfl
    | _ => exact hsame rfl
  | upgrade => exact hconcat _ rfl
  | @task j v move _ hv hs =>
    obtain ⟨pc, heq⟩ := taskStep_eq hs
    have hj : j ≠ k := by
      rintro rfl
      exact hnot move rfl
    refine ⟨t, ?_, rfl, rfl⟩
    rw [heq]
    exact (List.getElem?_set_ne hj).trans ht
  | closing _ hs => cases hs <;> exact hsame rfl
  | stopGoes _ hs => cases hs <;> exact hsame rfl
  | stopDeadline _ hs =>
    cases hs with
    | others => exact habort _ rfl
    | loop => exact hsame rfl
  | _ => exact hsame rfl

/-- **Where a task was before a step**: where it is, or it took the step, or it is new. -/
theorem task_before (hn : machine.next s e = some s') (hu : s'.tasks[k]? = some u) :
    (∃ t, s.tasks[k]? = some t ∧ u.upgrade = t.upgrade ∧ u.pc = t.pc) ∨
      (∃ move t, e = .task k move ∧ s.tasks[k]? = some t ∧ TaskStep s k t move s') ∨
      u = { upgrade := false, pc := .gated } ∨
      ∃ i, e = .onUpgrade i true ∧ i < s.endpoints.length ∧ u = { upgrade := true, pc := .reserved i } := by
  by_cases hlt : k < s.tasks.length
  · have ht := List.getElem?_eq_getElem hlt
    by_cases hown : ∃ move, e = .task k move
    · obtain ⟨move, rfl⟩ := hown
      have hstep := step_of_next hn
      cases hstep with
      | task hv hs => exact .inr (.inl ⟨move, _, rfl, hv, hs⟩)
    · obtain ⟨v, hv, hup, hpc⟩ := task_of_next hn ht fun move hmove => hown ⟨move, hmove⟩
      obtain rfl := Option.some.inj (hu.symm.trans hv)
      exact .inl ⟨_, ht, hup, hpc⟩
  · have hnone : s.tasks[k]? = none := List.getElem?_eq_none (Nat.not_lt.mp hlt)
    have hsame : s'.tasks.length = s.tasks.length → False := by
      intro hlength
      have hlt' := (List.getElem?_eq_some_iff.mp hu).1
      omega
    cases step_of_next hn with
    | accept hs =>
      cases hs with
      | accepts =>
        rcases getElem?_concat_cases hu with ⟨-, rfl⟩ | hu
        · exact .inr (.inr (.inl rfl))
        · rw [hnone] at hu
          cases hu
      | readies | joins | joinsLast => exact (hsame (by simp)).elim
      | aborts => exact (hsame (by simp [abortAll])).elim
      | _ => exact (hsame rfl).elim
    | @upgrade i hi =>
      rcases getElem?_concat_cases hu with ⟨-, rfl⟩ | hu
      · exact .inr (.inr (.inr ⟨i, rfl, hi, rfl⟩))
      · rw [hnone] at hu
        cases hu
    | task ht hs =>
      obtain ⟨pc, heq⟩ := taskStep_eq hs
      exact (hsame (by rw [heq]; simp)).elim
    | closing _ hs => cases hs <;> exact (hsame rfl).elim
    | stopGoes _ hs => cases hs <;> exact (hsame rfl).elim
    | stopDeadline _ hs =>
      cases hs with
      | others => exact (hsame (by simp [abortAll])).elim
      | loop => exact (hsame rfl).elim
    | _ => exact (hsame rfl).elim

/-- **What a step makes of a `stop`.** -/
theorem stop_of_next (hn : machine.next s e = some s') : s'.stop = s.stop ∨
    (∃ c, s.stop = some c ∧ s'.stop = some { c with pc := .dropped }) ∨
    (s.stop = none ∧ ∃ awaiter, s'.stop = some { awaiter := awaiter }) ∨
    (∃ c, s.stop = some c ∧ StopStep s c s') ∨ ∃ c, s.stop = some c ∧ DeadlineStep s c s' := by
  cases step_of_next hn with
  | accept hs => cases hs <;> exact .inl rfl
  | task _ hs => exact (taskStep_stop hs).imp And.left .inl
  | closing _ hs => cases hs <;> exact .inl rfl
  | stop hnone => exact .inr (.inr (.inl ⟨hnone, _, rfl⟩))
  | stopGoes hc hs => exact .inr (.inr (.inr (.inl ⟨_, hc, hs⟩)))
  | stopDeadline hc hs => exact .inr (.inr (.inr (.inr ⟨_, hc, hs⟩)))
  | _ => exact .inl rfl

/-- Only `endpoint()` adds an endpoint. -/
theorem length_endpoints_of_next (hn : machine.next s e = some s') (hne : e ≠ .endpoint) :
    s'.endpoints.length = s.endpoints.length := by
  have hdrop : ∀ (w : VcmpServer) o, (w.dropPending o).endpoints.length = w.endpoints.length := by
    rintro w (_ | i)
    · rfl
    · exact List.length_modify ..
  cases step_of_next hn with
  | endpoint => exact absurd rfl hne
  | accept hs => cases hs <;> rfl
  | task ht hs =>
    cases hs with
    | counted | inserted | removed | unlisted => exact List.length_modify ..
    | failed | released => exact hdrop _ _
    | hookEnds | notified | aborts | panics => rw [leaveHook_eq]; rfl
    | _ => rfl
  | closing _ hs => cases hs <;> rfl
  | stopGoes _ hs => cases hs <;> rfl
  | stopDeadline _ hs => cases hs <;> rfl
  | _ => rfl

end VcmpServer

end Vcmp
