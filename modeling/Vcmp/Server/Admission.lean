import Vcmp.Resources.Budget
import Vcmp.Server.Shown
import Vcmp.Server.Closing
/-!
# The server and its budget

The permit of a connection is taken where it is accepted, and goes from
the task of the connection to the task that drives its session, which
drops it behind the close. A hook has a permit of its own while it runs.
Here the server is run with the budget that it asks, which others share:
a step that needs a permit can be taken where the budget grants it, and
what is held is dropped where its holder ends, returns, panics or is
aborted.

`closed()` resolves before the driving task drops the permit, so a
session that has closed may be counted for a moment still.
-/

namespace Vcmp

/-- What a connection holds, and a hook. -/
def Permit.connection : Permit := ⟨.connection, 0⟩

def Permit.hook : Permit := ⟨.handler, 0⟩

/-- Before the session that takes the permit over. -/
def TaskPc.connecting : TaskPc → Bool
  | .gated | .handshaking | .responding _ | .checking _ | .reserved _ | .upgrading _ | .starting _ => true
  | _ => false

/-- **The permits that a task holds** where it is. -/
def TaskPc.permits (pc : TaskPc) : List Permit :=
  (if pc.connecting then [.connection] else []) ++ if pc.inHook then [.hook] else []

/-- The server, and the budget that it shares. -/
structure AdmittedServer where
  server : VcmpServer
  budget : ResourceBudget
  /-- The sessions whose driving task has not ended. -/
  driven : List ℕ := []
  /-- What others hold of the budget. -/
  elsewhere : List Permit := []
  deriving DecidableEq, Repr

namespace VcmpServer

/-- What a step asks the budget for, and whether it goes by a grant or by a refusal. -/
def Event.asks : Event → Option (Resource × Bool)
  | .accept .accepts => some (.connection, true)
  | .onUpgrade _ admitted => some (.connection, admitted)
  | .task _ (.prepare true admitted) => some (.handler, admitted)
  | .task _ (.decide true) => some (.handler, true)
  | _ => none

/-- The permit that it takes. -/
def Event.takes (e : Event) : Option Permit :=
  match e.asks with
  | some (resource, true) => some ⟨resource, 0⟩
  | _ => none

/-- The permit that a step of a task drops. -/
def taskDrops (s : VcmpServer) (pc : TaskPc) : TaskMove → Option Permit
  | .fails => some .connection
  | .goes =>
    match pc with
    | .checking _ => if s.stopped then some .connection else none
    | _ => none
  | .hookEnds | .panics => some .hook
  | .aborts =>
    match pc with
    | .gated | .handshaking | .responding _ => some .connection
    | .hooking _ _ | .notifying _ _ => some .hook
    | _ => none
  | _ => none

def drops (s : VcmpServer) : Event → Option Permit
  | .task k move => s.tasks[k]?.bind fun t => s.taskDrops t.pc move
  | _ => none

/-- The session that a step spawns, with the permit of its connection. -/
def spawns (s : VcmpServer) : Event → Option ℕ
  | .task k .goes =>
    match s.tasks[k]?.map ConnectionTask.pc with
    | some (.starting _) => some s.sessions.length
    | _ => none
  | _ => none

end VcmpServer

namespace AdmittedServer

inductive Event where
  | server (e : VcmpServer.Event)
  /-- A connection is accepted and not admitted. -/
  | turnsAway
  /-- The `on_disconnected` hook of a task is there and not admitted. -/
  | unheard (k : ℕ)
  /-- The driving task of a session that has closed ends. -/
  | ends (c : ℕ)
  /-- Others that share the budget. -/
  | reserve (resource : Resource) (bytes : ℕ)
  | drop (p : Permit)
  deriving DecidableEq, Repr

/-- The budget behind a reservation that was granted, or refused. -/
def reserved (b : ResourceBudget) (resource : Resource) (granted : Bool) : Option ResourceBudget :=
  match b.reserve resource 0 with
  | (some _, b') => if granted then some b' else none
  | (none, b') => if granted then none else some b'

def giveBack (b : ResourceBudget) : Option Permit → ResourceBudget
  | some p => b.release p
  | none => b

def next (s : AdmittedServer) : Event → Option AdmittedServer
  | .server e =>
    (s.server.next e).bind fun server =>
      match e.asks with
      | some (resource, granted) =>
        (reserved s.budget resource granted).map fun budget => { s with server := server, budget := budget }
      | none => some { s with
          server := server
          budget := giveBack s.budget (s.server.drops e)
          driven := s.driven ++ (s.server.spawns e).toList }
  | .turnsAway =>
    if s.server.accept = .selecting then
      (reserved s.budget .connection false).map fun budget => { s with budget := budget }
    else none
  | .unheard k =>
    (s.server.next (.task k (.decide false))).bind fun server =>
      (reserved s.budget .handler false).map fun budget => { s with server := server, budget := budget }
  | .ends c =>
    if c ∈ s.driven ∧ (s.server.sessions[c]?.map ServedSession.closed) = some true then
      some { s with budget := s.budget.release .connection, driven := s.driven.erase c }
    else none
  | .reserve resource bytes =>
    match s.budget.reserve resource bytes with
    | (some p, b) => some { s with budget := b, elsewhere := p :: s.elsewhere }
    | (none, b) => some { s with budget := b }
  | .drop p =>
    if p ∈ s.elsewhere then
      some { s with budget := s.budget.release p, elsewhere := s.elsewhere.erase p }
    else none

/-- **The server with a budget**, which nothing is taken from at its start. -/
def machine : Machine AdmittedServer Event where
  init s := ∃ n limits, s = { server := { endpoints := List.replicate n {} }, budget := .new limits }
  next := next

end AdmittedServer

/-! ## What the tasks hold -/

namespace VcmpServer

variable {s s' : VcmpServer} {k : ℕ} {t : ConnectionTask} {e : Event} {c : Counter}

/-- What the tasks weigh on a counter. -/
def held (s : VcmpServer) (c : Counter) : ℕ := total (fun t => total c.weight t.pc.permits) s.tasks

/-- What is dropped, or handed on, weighs on a counter. -/
def weighs (c : Counter) (o : Option Permit) : ℕ := total c.weight o.toList

theorem held_congr {g : ConnectionTask → ConnectionTask} (hg : ∀ t, (g t).pc = t.pc) (k : ℕ)
    (h : s'.tasks = s.tasks.modify k g) : s'.held c = s.held c := by
  unfold held
  rw [h]
  exact total_modify fun t => by rw [hg]

theorem held_abortAll (p : ℕ → ConnectionTask → Bool) (h : s'.tasks = (s.abortAll p).tasks) :
    s'.held c = s.held c := by
  unfold held
  rw [h]
  refine total_congr fun j => ?_
  simp only [abortAll, List.getElem?_mapIdx, Option.map_map]
  refine congrArg (fun g => Option.map g s.tasks[j]?) (funext fun t => ?_)
  simp only [Function.comp_apply]
  split <;> rfl

/-- A task that moves, holding less or more. -/
theorem held_of_task (ht : s.tasks[k]? = some t) (pc : TaskPc)
    (htasks : s'.tasks = s.tasks.set k { t with pc := pc }) :
    s'.held c + total c.weight t.pc.permits = s.held c + total c.weight pc.permits := by
  unfold held
  rw [htasks]
  exact total_set ht

/-- What an unwinding task held it drops. -/
theorem weighs_unwound {pc : TaskPc} (h : pc.awaits = true) :
    total c.weight pc.permits = weighs c (s.taskDrops pc .aborts) ∧ pc.unwound.permits = [] := by
  cases pc <;> first | exact ⟨rfl, rfl⟩ | cases h

/-- **What the tasks hold moves by what a step takes, drops and hands on.** -/
theorem held_taskStep (ht : s.tasks[k]? = some t) {move : TaskMove} (h : TaskStep s k t move s') :
    s'.held c + weighs c (s.drops (.task k move)) +
      weighs c ((s.spawns (.task k move)).map fun _ => .connection) =
      s.held c + weighs c (Event.takes (.task k move)) := by
  have moves : ∀ pc, s'.tasks = s.tasks.set k { t with pc := pc } →
      total c.weight t.pc.permits + weighs c (Event.takes (.task k move)) =
        total c.weight pc.permits + weighs c (s.taskDrops t.pc move) +
          weighs c ((s.spawns (.task k move)).map fun _ => .connection) →
      s'.held c + weighs c (s.drops (.task k move)) +
        weighs c ((s.spawns (.task k move)).map fun _ => .connection) =
        s.held c + weighs c (Event.takes (.task k move)) := by
    intro pc htasks hpc
    have hset := held_of_task (c := c) ht pc htasks
    have hdrops : s.drops (.task k move) = s.taskDrops t.pc move := by simp [drops, ht]
    rw [hdrops]
    omega
  have hspawns : (s.tasks[k]?).map ConnectionTask.pc = some t.pc := by rw [ht]; rfl
  cases h with
  | aborts _ hawaits =>
    obtain ⟨hheld, hunwound⟩ := weighs_unwound (s := s) (c := c) hawaits
    refine moves _ (by rw [leaveHook_eq]; rfl) ?_
    rw [hheld, hunwound]
    simp [weighs, Event.takes, Event.asks, spawns]
  | panics hhook =>
    obtain ⟨-, hunwound⟩ := weighs_unwound (s := s) (c := c) (TaskPc.awaits_of_inHook hhook)
    refine moves _ (by rw [leaveHook_eq]; rfl) ?_
    have hheld : t.pc.permits = [.hook] := by
      cases hpc : t.pc <;> rw [hpc] at hhook <;> first | rfl | cases hhook
    rw [hheld, hunwound]
    simp [weighs, Event.takes, Event.asks, spawns, taskDrops]
  | lost hpc =>
    refine moves _ rfl ?_
    rcases hpc with hpc | ⟨i, hpc⟩ <;>
      simp [hpc, weighs, Event.takes, Event.asks, spawns, taskDrops, TaskPc.permits, TaskPc.connecting,
        TaskPc.inHook]
  | hookEnds hpc | notified hpc =>
    refine moves _ (by rw [leaveHook_eq]; rfl) ?_
    simp [hpc, weighs, Event.takes, Event.asks, spawns, taskDrops, TaskPc.permits, TaskPc.connecting,
      TaskPc.inHook]
  | failed hpc =>
    refine moves _ (by rw [dropPending_eq]; rfl) ?_
    simp [hpc, weighs, Event.takes, Event.asks, spawns, taskDrops, TaskPc.permits, TaskPc.connecting,
      TaskPc.inHook]
  | released hpc =>
    refine moves _ (by rw [dropPending_eq]; rfl) ?_
    simp [hpc, hspawns, weighs, Event.takes, Event.asks, spawns, taskDrops, TaskPc.permits,
      TaskPc.connecting, TaskPc.inHook]
  | inserted hpc =>
    refine moves _ rfl ?_
    cases t.upgrade <;>
      simp [hpc, hspawns, weighs, Event.takes, Event.asks, spawns, taskDrops, TaskPc.permits,
        TaskPc.connecting, TaskPc.inHook]
  | turnedAway hpc hstopped =>
    refine moves _ rfl ?_
    simp [hpc, hstopped, hspawns, weighs, Event.takes, Event.asks, spawns, taskDrops, TaskPc.permits,
      TaskPc.connecting, TaskPc.inHook]
  | letIn hpc hstopped =>
    refine moves _ rfl ?_
    simp [hpc, hstopped, hspawns, weighs, Event.takes, Event.asks, spawns, taskDrops, TaskPc.permits,
      TaskPc.connecting, TaskPc.inHook]
  | overloaded hpc =>
    refine moves _ rfl ?_
    simp [hpc, weighs, Event.takes, Event.asks, spawns, taskDrops, TaskPc.permits, TaskPc.connecting,
      TaskPc.inHook]
  | hooked hpc | notifies hpc =>
    refine moves _ rfl ?_
    simp [hpc, weighs, Event.takes, Event.asks, spawns, taskDrops, TaskPc.permits, TaskPc.connecting,
      TaskPc.inHook, Permit.hook]
  | _ hpc =>
    refine moves _ rfl ?_
    simp [hpc, hspawns, weighs, Event.takes, Event.asks, spawns, taskDrops, TaskPc.permits,
      TaskPc.connecting, TaskPc.inHook]

theorem held_of_next (hn : machine.next s e = some s') :
    s'.held c + weighs c (s.drops e) + weighs c ((s.spawns e).map fun _ => .connection) =
      s.held c + weighs c e.takes := by
  have spawn : ∀ t : ConnectionTask, t.pc.permits = [.connection] → s'.tasks = s.tasks ++ [t] →
      s'.held c = s.held c + c.weight .connection := by
    intro t hpermits htasks
    simp [held, htasks, hpermits]
  cases step_of_next hn with
  | accept hs =>
    cases hs with
    | accepts => exact spawn { upgrade := false, pc := .gated } rfl rfl
    | @readies k => exact held_congr (g := fun t => { t with ready := true }) (fun _ => rfl) k rfl
    | @joins k | @joinsLast k =>
      exact held_congr (g := fun t => { t with joined := true }) (fun _ => rfl) k rfl
    | aborts =>
      have hall : (s.abortAll fun _ t => !t.upgrade && !t.joined).held c = s.held c := held_abortAll _ rfl
      exact hall
    | _ => rfl
  | @upgrade i => exact spawn { upgrade := true, pc := .reserved i } rfl rfl
  | task ht hs => exact held_taskStep ht hs
  | closing _ hs => cases hs <;> rfl
  | stopGoes _ hs => cases hs <;> rfl
  | stopDeadline _ hs =>
    cases hs with
    | @others j =>
      have hall : (s.abortAll fun i _ => i ∈ s.connections.tasks && i ≠ j).held c = s.held c :=
        held_abortAll _ rfl
      exact hall
    | loop => rfl
  | _ => rfl

/-- What asks the budget drops nothing, and spawns no session. -/
theorem drops_of_asks {r : Resource} {granted : Bool} (h : e.asks = some (r, granted)) :
    s.drops e = none ∧ s.spawns e = none := by
  cases e with
  | task k move =>
    cases move with
    | prepare | decide =>
      refine ⟨?_, rfl⟩
      cases ht : s.tasks[k]? <;> simp [drops, ht, taskDrops]
    | _ => cases h
  | accept move => exact ⟨rfl, rfl⟩
  | onUpgrade => exact ⟨rfl, rfl⟩
  | _ => cases h

/-- **A session was there, or it is the one that the step spawns.** -/
theorem spawns_of_next (hn : machine.next s e = some s') {d : ℕ} {y : ServedSession}
    (hy : s'.sessions[d]? = some y) :
    (∃ x, s.sessions[d]? = some x ∧ (y.closed = false → x.closed = false)) ∨ s.spawns e = some d := by
  have same : s'.sessions = s.sessions →
      ∃ x, s.sessions[d]? = some x ∧ (y.closed = false → x.closed = false) :=
    fun h => ⟨y, h ▸ hy, id⟩
  have modified : ∀ (i : ℕ) (g : ServedSession → ServedSession), s'.sessions = s.sessions.modify i g →
      (∀ x, x.closed = true → (g x).closed = true) →
      ∃ x, s.sessions[d]? = some x ∧ (y.closed = false → x.closed = false) := by
    intro i g h hg
    rw [h] at hy
    obtain ⟨x, hx, rfl⟩ := getElem?_modify_cases hy
    refine ⟨x, hx, fun hno => ?_⟩
    split at hno
    · by_contra hclosed
      rw [hg x (by simpa using hclosed)] at hno
      cases hno
    · exact hno
  cases step_of_next hn with
  | accept hs => cases hs <;> exact .inl (same rfl)
  | @task k t _ _ ht hs =>
    cases hs with
    | spawned hpc =>
      rcases getElem?_concat_cases hy with ⟨rfl, rfl⟩ | hy
      · exact .inr (by simp [spawns, ht, hpc])
      · exact .inl ⟨y, hy, id⟩
    | overloaded | cleaned =>
      exact .inl (modified _ (fun x => { x with isOpen := false }) rfl fun _ hx => hx)
    | failed | released => exact .inl (same (by rw [dropPending_eq]; rfl))
    | hookEnds | notified | aborts | panics => exact .inl (same (by rw [leaveHook_eq]; rfl))
    | _ => exact .inl (same rfl)
  | closing _ hs =>
    cases hs with
    | closes => exact .inl (modified _ (fun x => { x with isOpen := false }) rfl fun _ hx => hx)
    | _ => exact .inl (same rfl)
  | stopGoes _ hs => cases hs <;> exact .inl (same rfl)
  | stopDeadline _ hs => cases hs <;> exact .inl (same rfl)
  | close => exact .inl (modified _ (fun x => { x with isOpen := false }) rfl fun _ hx => hx)
  | finish => exact .inl (modified _ (fun x => { x with closed := true }) rfl fun _ _ => rfl)
  | _ => exact .inl (same rfl)

theorem length_of_spawns (hn : machine.next s e = some s') {d : ℕ} (h : s.spawns e = some d) :
    d = s.sessions.length ∧ d < s'.sessions.length := by
  cases step_of_next hn with
  | @task k t move _ ht hs =>
    cases hs with
    | spawned hpc =>
      simp only [spawns, ht, hpc, Option.map_some, Option.some.injEq] at h
      exact ⟨h.symm, by simp [← h]⟩
    | lost | matched | shaken | upgraded | failed | unhooked | hooked | overloaded | hookEnds | closedSeen
    | notifies | silent | notified | aborts | panics => cases h
    | _ hpc => simp [spawns, ht, hpc] at h
  | _ => cases h

end VcmpServer

/-! ## The accounts -/

namespace AdmittedServer

variable {s s' : AdmittedServer} {e : Event} {c : Counter}

/-- **What is held of the budget**, by whom. -/
def permits (s : AdmittedServer) : List Permit :=
  s.server.tasks.flatMap (fun t => t.pc.permits) ++ s.driven.map (fun _ => .connection) ++ s.elsewhere

theorem total_permits (s : AdmittedServer) (c : Counter) : total c.weight s.permits =
    s.server.held c + s.driven.length * c.weight .connection + total c.weight s.elsewhere := by
  have hdriven : ∀ l : List ℕ,
      total (fun _ => c.weight .connection) l = l.length * c.weight .connection := by
    intro l
    induction l with
    | nil => simp
    | cons d l ih => rw [total_cons, ih, List.length_cons, Nat.add_mul, Nat.one_mul, Nat.add_comm]
  rw [permits, total_append, total_append, total_flatMap, total_map, hdriven]
  rfl

/-- **The accounts are right**, and every session that has not closed is driven. -/
structure Accounted (s : AdmittedServer) : Prop where
  tallies : s.budget.Tallies s.permits
  bounded : s.budget.Bounded
  driven : ∀ (d : ℕ) (x : ServedSession), s.server.sessions[d]? = some x → x.closed = false → d ∈ s.driven
  nodup : s.driven.Nodup
  spawned : ∀ d ∈ s.driven, d < s.server.sessions.length

theorem accounted_start (n : ℕ) (limits : ResourceLimits) : Accounted
    { server := { endpoints := List.replicate n {} }, budget := .new limits } where
  tallies := ResourceBudget.tallies_new limits
  bounded := ResourceBudget.bounded_new limits
  driven d x hx := by simp at hx
  nodup := List.nodup_nil
  spawned d hd := by cases hd

theorem reserved_eq_some {b b' : ResourceBudget} {r : Resource} {granted : Bool}
    (h : reserved b r granted = some b') :
    (granted = true ∧ ∃ p, b.reserve r 0 = (some p, b')) ∨
      (granted = false ∧ b.reserve r 0 = (none, b')) := by
  unfold reserved at h
  split at h <;> rename_i hr <;> cases granted <;>
    simp only [Bool.false_eq_true, if_false, if_true, reduceCtorEq, Option.some.injEq] at h <;> subst h
  · exact .inl ⟨rfl, _, hr⟩
  · exact .inr ⟨rfl, hr⟩

/-- Where a step of the server asks the budget. -/
theorem Accounted.asks (h : s.Accounted) {e : VcmpServer.Event} {server : VcmpServer}
    (hn : VcmpServer.machine.next s.server e = some server) {r : Resource} {granted : Bool}
    (hasks : e.asks = some (r, granted)) {budget : ResourceBudget}
    (hb : reserved s.budget r granted = some budget) :
    Accounted { s with server := server, budget := budget } := by
  obtain ⟨hdrops, hspawns⟩ := VcmpServer.drops_of_asks (s := s.server) hasks
  have hheld : ∀ c, server.held c = s.server.held c + VcmpServer.weighs c e.takes := by
    intro c
    have hmoves := VcmpServer.held_of_next (c := c) hn
    rw [hdrops, hspawns] at hmoves
    exact hmoves
  refine ⟨?_, ?_, fun d x hx hno => ?_, h.nodup, fun d hd => ?_⟩
  · rcases reserved_eq_some hb with ⟨rfl, p, hr⟩ | ⟨rfl, hr⟩
    · refine h.tallies.grant hr fun c => ?_
      obtain ⟨-, rfl, -⟩ := ResourceBudget.reserve_some hr
      have htakes : VcmpServer.weighs c e.takes = c.weight ⟨r, 0⟩ := by
        simp [VcmpServer.weighs, VcmpServer.Event.takes, hasks]
      rw [total_permits, total_permits]
      dsimp only
      rw [hheld, htakes]
      omega
    · refine (h.tallies.refuse hr).congr fun c => ?_
      have htakes : VcmpServer.weighs c e.takes = 0 := by
        simp [VcmpServer.weighs, VcmpServer.Event.takes, hasks]
      rw [total_permits, total_permits]
      dsimp only
      rw [hheld, htakes, Nat.add_zero]
  · rcases reserved_eq_some hb with ⟨-, p, hr⟩ | ⟨-, hr⟩
    · exact h.bounded.reserve hr
    · exact h.bounded.reserve hr
  · rcases VcmpServer.spawns_of_next hn hx with ⟨y, hy, hclosed⟩ | hspawn
    · exact h.driven d y hy (hclosed hno)
    · rw [hspawns] at hspawn
      cases hspawn
  · exact Nat.lt_of_lt_of_le (h.spawned d hd) (VcmpServer.length_sessions_le hn)

/-- Where it does not, and drops what its task is done with or hands it on. -/
theorem Accounted.goes (h : s.Accounted) {e : VcmpServer.Event} {server : VcmpServer}
    (hn : VcmpServer.machine.next s.server e = some server) (hasks : e.asks = none) :
    Accounted { s with
      server := server
      budget := giveBack s.budget (s.server.drops e)
      driven := s.driven ++ (s.server.spawns e).toList } := by
  have hheld : ∀ c, server.held c + VcmpServer.weighs c (s.server.drops e) +
      (s.server.spawns e).toList.length * c.weight .connection = s.server.held c := by
    intro c
    have hmoves := VcmpServer.held_of_next (c := c) hn
    have htakes : e.takes = none := by simp [VcmpServer.Event.takes, hasks]
    rw [htakes] at hmoves
    rw [← (show _ = s.server.held c from hmoves)]
    cases s.server.spawns e <;> simp [VcmpServer.weighs]
  have htotal : ∀ (budget : ResourceBudget) (c : Counter), VcmpServer.weighs c (s.server.drops e) +
      total c.weight (permits { s with
        server := server, budget := budget, driven := s.driven ++ (s.server.spawns e).toList }) =
      total c.weight s.permits := by
    intro budget c
    rw [total_permits, total_permits, ← hheld c]
    simp only [List.length_append, Nat.add_mul]
    omega
  refine ⟨?_, ?_, fun d x hx hno => ?_, ?_, fun d hd => ?_⟩
  · cases hdrops : s.server.drops e with
    | none =>
      refine h.tallies.congr fun c => ?_
      rw [← htotal s.budget c, hdrops]
      exact (Nat.zero_add _).symm
    | some p =>
      refine h.tallies.drop fun c => ?_
      rw [← htotal s.budget c, hdrops]
      simp [VcmpServer.weighs, permits]
  · cases s.server.drops e with
    | none => exact h.bounded
    | some p => exact h.bounded.release p
  · rcases VcmpServer.spawns_of_next hn hx with ⟨y, hy, hclosed⟩ | hspawn
    · exact List.mem_append_left _ (h.driven d y hy (hclosed hno))
    · exact List.mem_append_right _ (by simp [hspawn])
  · cases hspawn : s.server.spawns e with
    | none => simpa using h.nodup
    | some d =>
      have hlength := (VcmpServer.length_of_spawns hn hspawn).1
      refine List.nodup_append.mpr ⟨h.nodup, by simp, fun a ha b hb => ?_⟩
      obtain rfl : b = d := by simpa using hb
      have hlt := h.spawned a ha
      omega
  · rcases List.mem_append.mp hd with hd | hd
    · exact Nat.lt_of_lt_of_le (h.spawned d hd) (VcmpServer.length_sessions_le hn)
    · exact (VcmpServer.length_of_spawns hn (by simpa using hd)).2

/-- Where only the budget moves, and what others hold of it. -/
theorem Accounted.others (h : s.Accounted) {budget : ResourceBudget} {elsewhere : List Permit}
    (htallies : budget.Tallies (permits { s with budget := budget, elsewhere := elsewhere }))
    (hbounded : budget.Bounded) : Accounted { s with budget := budget, elsewhere := elsewhere } :=
  ⟨htallies, hbounded, h.driven, h.nodup, h.spawned⟩

theorem Accounted.step (h : s.Accounted) (hn : machine.next s e = some s') : s'.Accounted := by
  change s.next e = some s' at hn
  cases e with
  | server e =>
    obtain ⟨server, hserver, hn⟩ := Option.bind_eq_some_iff.mp hn
    cases hasks : e.asks with
    | some asked =>
      obtain ⟨r, granted⟩ := asked
      rw [hasks] at hn
      obtain ⟨budget, hb, rfl⟩ := Option.map_eq_some_iff.mp hn
      exact h.asks hserver hasks hb
    | none =>
      rw [hasks] at hn
      obtain rfl := Option.some.inj hn
      exact h.goes hserver hasks
  | turnsAway =>
    simp only [next, Option.ite_none_right_eq_some] at hn
    obtain ⟨budget, hb, rfl⟩ := Option.map_eq_some_iff.mp hn.2
    obtain ⟨-, hr⟩ := (reserved_eq_some hb).resolve_left (by simp)
    exact h.others (h.tallies.refuse hr) (h.bounded.reserve hr)
  | unheard k =>
    obtain ⟨server, hserver, hn⟩ := Option.bind_eq_some_iff.mp hn
    obtain ⟨budget, hb, rfl⟩ := Option.map_eq_some_iff.mp hn
    obtain ⟨-, hr⟩ := (reserved_eq_some hb).resolve_left (by simp)
    -- the task goes on as without a hook, and the refusal is counted
    have hgoes := h.goes (e := .task k (.decide false)) hserver rfl
    have hdrops : s.server.drops (.task k (.decide false)) = none := by
      cases ht : s.server.tasks[k]? <;> simp [VcmpServer.drops, ht, VcmpServer.taskDrops]
    have hsame : Accounted { s with server := server } := by
      rw [hdrops] at hgoes
      simpa [giveBack, VcmpServer.spawns] using hgoes
    exact hsame.others (hsame.tallies.refuse hr) (hsame.bounded.reserve hr)
  | ends c =>
    simp only [next, Option.ite_none_right_eq_some, Option.some.injEq] at hn
    obtain ⟨⟨hmem, hclosed⟩, rfl⟩ := hn
    refine ⟨h.tallies.drop fun c' => ?_, h.bounded.release _, fun d x hx hno => ?_, h.nodup.erase c,
      fun d hd => h.spawned d (List.mem_of_mem_erase hd)⟩
    · rw [total_permits, total_permits]
      have hlength : (s.driven.erase c).length + 1 = s.driven.length :=
        List.length_erase_add_one hmem
      dsimp only
      rw [← hlength, Nat.add_mul]
      omega
    · refine (List.mem_erase_of_ne ?_).mpr (h.driven d x hx hno)
      rintro rfl
      rw [hx] at hclosed
      simp [hno] at hclosed
  | reserve r n =>
    simp only [next] at hn
    split at hn <;> rename_i hr <;> obtain rfl := Option.some.inj hn
    · refine h.others (h.tallies.grant hr fun c => ?_) (h.bounded.reserve hr)
      rw [total_permits, total_permits]
      simp only [total_cons]
      omega
    · exact h.others (h.tallies.refuse hr) (h.bounded.reserve hr)
  | drop p =>
    simp only [next, Option.ite_none_right_eq_some, Option.some.injEq] at hn
    obtain ⟨hmem, rfl⟩ := hn
    refine h.others (h.tallies.drop fun c => ?_) (h.bounded.release p)
    rw [total_permits, total_permits, ← total_erase hmem]
    dsimp only
    omega

theorem accounted_of_reachable (h : machine.Reachable s) : s.Accounted := by
  have hinit : ∀ s, machine.init s → s.Accounted := by
    rintro s ⟨n, limits, rfl⟩
    exact accounted_start n limits
  exact h.invariant hinit fun s e s' _ hn hs => hs.step hn

theorem server_of_reachable (h : machine.Reachable s) : VcmpServer.machine.Reachable s.server := by
  refine h.invariant (P := fun s => VcmpServer.machine.Reachable s.server) ?_ ?_
  · rintro s ⟨n, limits, rfl⟩
    exact .of_init ⟨n, rfl⟩
  · intro s e s' _ hn hs
    change s.next e = some s' at hn
    cases e with
    | server e =>
      obtain ⟨server, hserver, hn⟩ := Option.bind_eq_some_iff.mp hn
      cases hasks : e.asks with
      | some asked =>
        rw [hasks] at hn
        obtain ⟨budget, -, rfl⟩ := Option.map_eq_some_iff.mp hn
        exact hs.step trivial hserver
      | none =>
        rw [hasks] at hn
        obtain rfl := Option.some.inj hn
        exact hs.step trivial hserver
    | turnsAway =>
      simp only [next, Option.ite_none_right_eq_some] at hn
      obtain ⟨budget, -, rfl⟩ := Option.map_eq_some_iff.mp hn.2
      exact hs
    | unheard k =>
      obtain ⟨server, hserver, hn⟩ := Option.bind_eq_some_iff.mp hn
      obtain ⟨budget, -, rfl⟩ := Option.map_eq_some_iff.mp hn
      exact hs.step (e := .task k (.decide false)) trivial hserver
    | ends c =>
      simp only [next, Option.ite_none_right_eq_some, Option.some.injEq] at hn
      obtain ⟨-, rfl⟩ := hn
      exact hs
    | reserve r n =>
      simp only [next] at hn
      split at hn <;> obtain rfl := Option.some.inj hn <;> exact hs
    | drop p =>
      simp only [next, Option.ite_none_right_eq_some, Option.some.injEq] at hn
      obtain ⟨-, rfl⟩ := hn
      exact hs

/-! ## What is counted -/

theorem held_connections (s : VcmpServer) :
    s.held .connections = s.tasks.countP fun t => t.pc.connecting := by
  have hweight : ∀ t : ConnectionTask, total Counter.connections.weight t.pc.permits =
      if t.pc.connecting then 1 else 0 := by
    intro t
    unfold TaskPc.permits
    cases t.pc.connecting <;> cases t.pc.inHook <;> rfl
  simp only [VcmpServer.held, hweight, total_ite, Nat.one_mul]

theorem held_handlerTasks (s : VcmpServer) :
    s.held .handlerTasks = s.tasks.countP fun t => t.pc.inHook := by
  have hweight : ∀ t : ConnectionTask, total Counter.handlerTasks.weight t.pc.permits =
      if t.pc.inHook then 1 else 0 := by
    intro t
    unfold TaskPc.permits
    cases t.pc.connecting <;> cases t.pc.inHook <;> rfl
  simp only [VcmpServer.held, hweight, total_ite, Nat.one_mul]

/-- Sessions that have not closed are driven, each by a task of its own. -/
theorem Accounted.unclosed_le (h : s.Accounted) :
    s.server.sessions.countP (fun x => !x.closed) ≤ s.driven.length := by
  rw [← countP_range, List.countP_eq_length_filter]
  refine (List.subperm_of_subset (List.nodup_range.filter _) fun d hd => ?_).length_le
  obtain ⟨-, hany⟩ := List.mem_filter.mp hd
  obtain ⟨x, hx, hno⟩ := (Option.any_eq_true _ _).mp hany
  exact h.driven d x hx (by simpa using hno)

/-- **What the budget of a server admits.** -/
structure Admits (s : AdmittedServer) : Prop where
  /-- With its budget a server does what it does without, -/
  server : VcmpServer.machine.Reachable s.server
  /-- a connection counts from its acceptance until its session is driven no more, -/
  connections : s.budget.usage.connections = s.server.tasks.countP (fun t => t.pc.connecting) +
    s.driven.length + total Counter.connections.weight s.elsewhere
  /-- a hook while it runs, -/
  hooks : s.budget.usage.handlerTasks = s.server.tasks.countP (fun t => t.pc.inHook) +
    total Counter.handlerTasks.weight s.elsewhere
  within : ∀ c : Counter, c.value s.budget.usage ≤ c.limit s.budget.limits
  /-- so there are no more connections and sessions than the limit says, and no more hooks. -/
  sessions : s.server.tasks.countP (fun t => t.pc.connecting) +
    s.server.sessions.countP (fun x => !x.closed) ≤ s.budget.limits.connections
  running : s.server.tasks.countP (fun t => t.pc.inHook) ≤ s.budget.limits.handlerTasks
  /-- A connection is turned away only where all are taken, -/
  turned : ∀ s', machine.next s .turnsAway = some s' →
    s.budget.usage.connections = s.budget.limits.connections ∧ s'.server = s.server
  /-- and so is the upgrade of an endpoint refused, -/
  refused : ∀ i s', machine.next s (.server (.onUpgrade i false)) = some s' →
    s.budget.usage.connections = s.budget.limits.connections ∧ s'.server = s.server
  /-- and where nothing is left of them nothing is counted for them. -/
  finished : (∀ t ∈ s.server.tasks, t.pc = .ended) → s.driven = [] →
    ∀ c : Counter, c.value s.budget.usage = total c.weight s.elsewhere

/-- The budget refuses a connection where all are taken. -/
theorem full_of_refused {b b' : ResourceBudget} (hle : b.usage.connections ≤ b.limits.connections)
    (h : reserved b .connection false = some b') : b.usage.connections = b.limits.connections := by
  obtain ⟨-, hr⟩ := (reserved_eq_some h).resolve_left (by simp)
  obtain ⟨hfull, -⟩ := ResourceBudget.reserve_none hr
  simp only [ResourceSnapshot.admits, decide_eq_false_iff_not, Nat.not_lt] at hfull
  exact Nat.le_antisymm hle hfull

/-- **In every run the budget counts what is there**, however connections,
upgrades, hooks and sessions end. -/
theorem admits_of_reachable (h : machine.Reachable s) : s.Admits := by
  have haccounted := accounted_of_reachable h
  have hvalue : ∀ c : Counter, c.value s.budget.usage =
      s.server.held c + s.driven.length * c.weight .connection + total c.weight s.elsewhere :=
    fun c => (haccounted.tallies c).trans (total_permits s c)
  have hconnections : s.budget.usage.connections = s.server.tasks.countP (fun t => t.pc.connecting) +
      s.driven.length + total Counter.connections.weight s.elsewhere := by
    have hcount := hvalue .connections
    rw [held_connections] at hcount
    simpa [Counter.value, Counter.weight, Permit.connection] using hcount
  have hhooks : s.budget.usage.handlerTasks = s.server.tasks.countP (fun t => t.pc.inHook) +
      total Counter.handlerTasks.weight s.elsewhere := by
    have hcount := hvalue .handlerTasks
    rw [held_handlerTasks] at hcount
    simpa [Counter.value, Counter.weight, Permit.connection] using hcount
  have hwithin := haccounted.bounded
  refine
    { server := server_of_reachable h, connections := hconnections, hooks := hhooks, within := hwithin
      sessions := ?_, running := ?_, turned := fun s' hn => ?_, refused := fun i s' hn => ?_
      finished := fun hended hdriven c => ?_ }
  · have hle : s.budget.usage.connections ≤ s.budget.limits.connections := hwithin .connections
    have hunclosed := haccounted.unclosed_le
    omega
  · have hle : s.budget.usage.handlerTasks ≤ s.budget.limits.handlerTasks := hwithin .handlerTasks
    omega
  · change s.next .turnsAway = some s' at hn
    simp only [next, Option.ite_none_right_eq_some] at hn
    obtain ⟨budget, hb, rfl⟩ := Option.map_eq_some_iff.mp hn.2
    exact ⟨full_of_refused (hwithin .connections) hb, rfl⟩
  · change s.next (.server (.onUpgrade i false)) = some s' at hn
    obtain ⟨server, hserver, hrest⟩ := Option.bind_eq_some_iff.mp hn
    obtain ⟨budget, hb, rfl⟩ := Option.map_eq_some_iff.mp hrest
    simp only [VcmpServer.next, Bool.false_eq_true, if_false, Option.ite_none_right_eq_some,
      Option.some.injEq] at hserver
    exact ⟨full_of_refused (hwithin .connections) hb, hserver.2.symm⟩
  · have hnone : s.server.held c = 0 := by
      refine total_eq_zero fun t ht => ?_
      rw [hended t ht]
      rfl
    rw [hvalue, hnone, hdriven]
    simp

/-- A server for one connection and one hook at a time. -/
def oneLimits : ResourceLimits where
  connections := 1
  queuedMessages := 0
  queuedBytes := 0
  controlMessages := 0
  controlBytes := 0
  pendingRequests := 0
  handlerTasks := 1
  handlerBytes := 0

/-- A connection is served and in its `on_connected` hook while another is
turned away. -/
def fullRun : List Event := List.flatten [
  [.server (.accept .accepts), .server (.accept .goes), .server (.accept .goes), .turnsAway],
  [.server (.task 0 .goes), .server (.task 0 (.matched 0)), .server (.task 0 .succeeds)],
  List.replicate 3 (.server (.task 0 .goes)), [.server (.task 0 (.prepare true true)), .turnsAway]]

theorem admits_of_reachable_fullRun : ∃ s,
    machine.run { server := { endpoints := List.replicate 1 {} }, budget := .new oneLimits } fullRun =
      some s ∧ s.budget.usage = { connections := 1, handlerTasks := 1, overloads := 2 } ∧
      s.driven = [0] ∧ s.Admits := by
  have hrun : (machine.run { server := { endpoints := List.replicate 1 {} }, budget := .new oneLimits }
      fullRun).any (fun s => decide (s.driven = [0] ∧
        s.budget.usage = { connections := 1, handlerTasks := 1, overloads := 2 })) = true := by
    decide +kernel
  obtain ⟨s, hs, hend⟩ := Machine.exists_of_run hrun
  obtain ⟨hdriven, husage⟩ := of_decide_eq_true hend
  exact ⟨s, hs, husage, hdriven, admits_of_reachable (Machine.reachable_of_run ⟨1, oneLimits, rfl⟩ hs)⟩

end AdmittedServer

end Vcmp
