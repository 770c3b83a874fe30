import Vcmp.Server.Path
import Vcmp.Server.Closing
/-!
# The choice of an endpoint

The request of a connection is answered in the handshake, by the
endpoints as they are registered then: the first whose pattern matches
the path takes it, and where none does the answer is 404. Endpoints are
only ever added behind the others, so the choice stays the earliest.
-/

namespace Vcmp

variable {Addr : Type*}

/-- A request of the handshake, and the peer it is from. -/
structure Request (Addr : Type*) where
  path : String
  headers : List (String × String)
  remoteAddr : Addr

/-- Information about the connection that a session belongs to. -/
structure ConnectInfo (Addr : Type*) where
  path : String
  params : PathParams
  headers : List (String × String)
  remoteAddr : Option Addr

/-- What the session of a request is told of it. -/
def Request.connectInfo (request : Request Addr) (params : PathParams) : ConnectInfo Addr where
  path := request.path
  params := params
  headers := request.headers
  remoteAddr := some request.remoteAddr

/-- The response to a refused request. -/
structure ErrorResponse where
  status : ℕ
  body : Option String
  deriving DecidableEq, Repr

namespace ErrorResponse

def notFound : ErrorResponse := { status := 404, body := some "No such endpoint" }

end ErrorResponse

namespace VcmpServer

variable {s s' : VcmpServer} {k i : ℕ} {t u : ConnectionTask} {e : Event}

/-- A task that unwinds is at its endpoint still, or has none. -/
theorem TaskPc.endpoint_unwound {pc : TaskPc} (h : pc.unwound.endpoint = some i) :
    pc.endpoint = some i := by
  cases pc <;> simp_all [TaskPc.unwound, TaskPc.endpoint]

/-- **A task gets its endpoint where the request is matched**, and has no other after that. -/
theorem endpoint_of_taskStep {move : TaskMove} (ht : s.tasks[k]? = some t)
    (h : TaskStep s k t move s') (hu : s'.tasks[k]? = some u) : u.upgrade = t.upgrade ∧
      ∀ i, u.pc.endpoint = some i → t.pc.endpoint = some i ∨ move = .matched i := by
  have hset : ∀ pc, s'.tasks = s.tasks.set k { t with pc := pc } →
      (∀ i, pc.endpoint = some i → t.pc.endpoint = some i ∨ move = .matched i) →
      u.upgrade = t.upgrade ∧
        ∀ i, u.pc.endpoint = some i → t.pc.endpoint = some i ∨ move = .matched i := by
    intro pc htasks hpc
    rw [htasks, getElem?_set_self' ht, Option.some.injEq] at hu
    subst hu
    exact ⟨rfl, hpc⟩
  cases h with
  | @matched i hpc => exact hset (.responding i) rfl fun j hj => .inr (by cases hj; rfl)
  | @inserted i c hpc =>
    refine hset _ rfl fun j hj => .inl ?_
    rw [hpc]
    split at hj <;> exact hj
  | lost | turnedAway | unlisted => exact hset .ended rfl (by simp [TaskPc.endpoint])
  | failed | released =>
    refine hset _ (by rw [dropPending_eq]; rfl) fun j hj => .inl ?_
    simp_all [TaskPc.endpoint]
  | hookEnds | notified =>
    refine hset _ (by rw [leaveHook_eq]; rfl) fun j hj => .inl ?_
    simp_all [TaskPc.endpoint]
  | aborts | panics =>
    exact hset _ (by rw [leaveHook_eq]; rfl) fun j hj => .inl (TaskPc.endpoint_unwound hj)
  | _ hpc =>
    refine hset _ rfl fun j hj => .inl ?_
    rw [hpc]
    exact hj

/-- **Where a bare task got its endpoint**: before the step, or in it. -/
theorem endpoint_of_next (hn : machine.next s e = some s') (hu : s'.tasks[k]? = some u)
    (hbare : u.upgrade = false) (hi : u.pc.endpoint = some i) :
    (∃ t, s.tasks[k]? = some t ∧ t.upgrade = false ∧ t.pc.endpoint = some i) ∨
      e = .task k (.matched i) := by
  obtain ⟨t, ht, hup, hpc⟩ | ⟨move, t, rfl, ht, hs⟩ | rfl | ⟨j, -, -, rfl⟩ := task_before hn hu
  · exact .inl ⟨t, ht, by rw [← hup, hbare], by rw [← hpc, hi]⟩
  · obtain ⟨hup, hend⟩ := endpoint_of_taskStep ht hs hu
    obtain hold | rfl := hend i hi
    · exact .inl ⟨t, ht, by rw [← hup, hbare], hold⟩
    · exact .inr rfl
  · cases hi
  · cases hbare

/-- A task stays on the side it was spawned on. -/
theorem upgrade_of_next (hn : machine.next s e = some s') (ht : s.tasks[k]? = some t) :
    ∃ u, s'.tasks[k]? = some u ∧ u.upgrade = t.upgrade := by
  by_cases hown : ∃ move, e = .task k move
  · obtain ⟨move, rfl⟩ := hown
    cases step_of_next hn with
    | task hv hs =>
      obtain rfl := Option.some.inj (ht.symm.trans hv)
      obtain ⟨pc, heq⟩ := taskStep_eq hs
      have htasks : s'.tasks = s.tasks.set k { t with pc := pc } := by rw [heq]
      exact ⟨{ t with pc := pc }, by rw [htasks, getElem?_set_self' ht], rfl⟩
  · obtain ⟨u, hu, hup, -⟩ := task_of_next hn ht fun move hmove => hown ⟨move, hmove⟩
    exact ⟨u, hu, hup⟩

end VcmpServer

namespace Routing

/-- The first endpoint whose pattern matches, by its number. -/
def findEndpoint (patterns : List PathPattern) (path : String) : Option (ℕ × PathParams) :=
  patterns.zipIdx.findSome? fun p => (p.1.matches path).map fun params => (p.2, params)

/-- The callback of `handle_connection`. -/
def callback (patterns : List PathPattern) (request : Request Addr) :
    Except ErrorResponse (ℕ × ConnectInfo Addr) :=
  match findEndpoint patterns request.path with
  | some (i, params) => .ok (i, request.connectInfo params)
  | none => .error .notFound

/-- **The earliest endpoint whose pattern matches**, and what it matches with. -/
structure Earliest (patterns : List PathPattern) (path : String) (i : ℕ) (params : PathParams) :
    Prop where
  found : ∃ p, patterns[i]? = some p ∧ p.matches path = some params
  before : ∀ j < i, ∀ p, patterns[j]? = some p → p.matches path = none

variable {patterns : List PathPattern} {pattern : PathPattern} {path : String} {i : ℕ}
  {params : PathParams} {request : Request Addr}

theorem earliest_zero : Earliest (pattern :: patterns) path 0 params ↔
    pattern.matches path = some params := by
  constructor
  · rintro ⟨⟨p, hp, hm⟩, -⟩
    obtain rfl : pattern = p := by simpa using hp
    exact hm
  · exact fun h => ⟨⟨pattern, rfl, h⟩, fun j hj => absurd hj (Nat.not_lt_zero j)⟩

theorem earliest_succ : Earliest (pattern :: patterns) path (i + 1) params ↔
    pattern.matches path = none ∧ Earliest patterns path i params := by
  constructor
  · rintro ⟨⟨p, hp, hm⟩, hbefore⟩
    exact ⟨hbefore 0 (by omega) pattern rfl, ⟨p, by simpa using hp, hm⟩,
      fun j hj q hq => hbefore (j + 1) (by omega) q (by simpa using hq)⟩
  · rintro ⟨hnone, ⟨p, hp, hm⟩, hbefore⟩
    refine ⟨⟨p, by simpa using hp, hm⟩, ?_⟩
    rintro (_ | j) hj q hq
    · obtain rfl : pattern = q := by simpa using hq
      exact hnone
    · exact hbefore j (by omega) q (by simpa using hq)

/-- An endpoint added behind the others changes nothing for a path that has one. -/
theorem Earliest.append (h : Earliest patterns path i params) (more : List PathPattern) :
    Earliest (patterns ++ more) path i params := by
  obtain ⟨⟨p, hp, hm⟩, hbefore⟩ := h
  have hi := (List.getElem?_eq_some_iff.mp hp).1
  refine ⟨⟨p, getElem?_append_some hp, hm⟩, fun j hj q hq => ?_⟩
  rw [List.getElem?_append_left (by omega)] at hq
  exact hbefore j hj q hq

theorem Earliest.lt (h : Earliest patterns path i params) : i < patterns.length := by
  obtain ⟨p, hp, -⟩ := h.found
  exact (List.getElem?_eq_some_iff.mp hp).1

/-- The scan, from the number it has reached. -/
theorem findSome?_zipIdx (n k : ℕ) : (patterns.zipIdx n).findSome?
      (fun p => (p.1.matches path).map fun params => (p.2, params)) = some (k, params) ↔
    ∃ i, k = n + i ∧ Earliest patterns path i params := by
  induction patterns generalizing n with
  | nil => simpa using fun i _ h => by simpa using h.lt
  | cons pattern patterns ih =>
    rw [List.zipIdx_cons, List.findSome?_cons]
    cases hm : pattern.matches path with
    | some found =>
      simp only [Option.map_some, Option.some.injEq, Prod.mk.injEq]
      constructor
      · rintro ⟨rfl, rfl⟩
        exact ⟨0, rfl, earliest_zero.mpr hm⟩
      · rintro ⟨_ | i, rfl, h⟩
        · exact ⟨rfl, Option.some.inj (hm.symm.trans (earliest_zero.mp h))⟩
        · rw [earliest_succ, hm] at h
          exact absurd h.1 (by simp)
    | none =>
      simp only [Option.map_none]
      rw [ih]
      constructor
      · rintro ⟨i, rfl, h⟩
        exact ⟨i + 1, by omega, earliest_succ.mpr ⟨hm, h⟩⟩
      · rintro ⟨_ | i, rfl, h⟩
        · rw [earliest_zero, hm] at h
          cases h
        · exact ⟨i, by omega, (earliest_succ.mp h).2⟩

theorem findEndpoint_eq_some :
    findEndpoint patterns path = some (i, params) ↔ Earliest patterns path i params := by
  rw [findEndpoint, findSome?_zipIdx]
  constructor
  · rintro ⟨j, rfl, h⟩
    rwa [Nat.zero_add]
  · exact fun h => ⟨i, by omega, h⟩

theorem findEndpoint_eq_none :
    findEndpoint patterns path = none ↔ ∀ p ∈ patterns, p.matches path = none := by
  simp only [findEndpoint, List.findSome?_eq_none_iff, Option.map_eq_none_iff]
  constructor
  · intro h p hp
    obtain ⟨i, hi⟩ := List.mem_iff_getElem?.mp hp
    exact h (p, i) (List.mem_zipIdx_iff_getElem?.mpr hi)
  · exact fun h p hp => h p.1 (List.mem_of_getElem? (List.mem_zipIdx_iff_getElem?.mp hp))

/-- **The request goes to the earliest endpoint that matches its path.** -/
theorem callback_eq_ok {info : ConnectInfo Addr} : callback patterns request = .ok (i, info) ↔
    Earliest patterns request.path i info.params ∧ info = request.connectInfo info.params := by
  unfold callback
  cases hfind : findEndpoint patterns request.path with
  | some found =>
    obtain ⟨j, found⟩ := found
    simp only [Except.ok.injEq, Prod.mk.injEq]
    constructor
    · rintro ⟨rfl, rfl⟩
      exact ⟨findEndpoint_eq_some.mp hfind, rfl⟩
    · rintro ⟨h, hinfo⟩
      obtain ⟨rfl, rfl⟩ : i = j ∧ info.params = found := by
        simpa [findEndpoint_eq_some.mpr h] using hfind
      exact ⟨rfl, hinfo.symm⟩
  | none =>
    refine ⟨(by rintro ⟨⟩), fun h => ?_⟩
    rw [findEndpoint_eq_some.mpr h.1] at hfind
    cases hfind

/-- **It is refused where none matches.** -/
theorem callback_eq_error {response : ErrorResponse} : callback patterns request = .error response ↔
    response = .notFound ∧ ∀ p ∈ patterns, p.matches request.path = none := by
  unfold callback
  cases hfind : findEndpoint patterns request.path with
  | some found =>
    refine ⟨(by rintro ⟨⟩), fun h => ?_⟩
    rw [findEndpoint_eq_none.mpr h.2] at hfind
    cases hfind
  | none =>
    simp only [Except.error.injEq]
    exact ⟨fun h => ⟨h.symm, findEndpoint_eq_none.mp hfind⟩, fun h => h.1.symm⟩

/-! ## The server with its patterns -/

/-- **A server, the patterns of its endpoints, and what each request was answered.** -/
structure Routed (Addr : Type*) where
  server : VcmpServer
  patterns : List PathPattern
  answers : ℕ → Option (Except ErrorResponse (ℕ × ConnectInfo Addr)) := fun _ => none

/-- One step: of the server, or one that its patterns decide. -/
inductive Event where
  /-- `endpoint()` with its pattern. -/
  | endpoint (pattern : String)
  /-- The handshake of the task `k` reads its request. -/
  | request (k : ℕ)
  | server (e : VcmpServer.Event)
  deriving DecidableEq, Repr

/-- The server's own steps, which the patterns have no part in. -/
def plain : VcmpServer.Event → Bool
  | .endpoint => false
  | .task _ (.matched _) => false
  | _ => true

/-- The step, where the task `k` serves the connection of `requests k`. -/
def next (requests : ℕ → Request Addr) (r : Routed Addr) : Event → Option (Routed Addr)
  | .endpoint pattern => (VcmpServer.machine.next r.server .endpoint).map fun s =>
      { r with server := s, patterns := r.patterns ++ [PathPattern.parse pattern] }
  | .request k =>
    if (r.server.tasks[k]?.map ConnectionTask.pc) = some .handshaking ∧ (r.answers k).isNone then
      match callback r.patterns (requests k) with
      | .ok (i, info) => (VcmpServer.machine.next r.server (.task k (.matched i))).map fun s =>
          { r with server := s, answers := Function.update r.answers k (some (.ok (i, info))) }
      | .error response =>
        -- the handshake fails behind the response
        some { r with answers := Function.update r.answers k (some (.error response)) }
    else none
  | .server e =>
    if plain e then (VcmpServer.machine.next r.server e).map fun s => { r with server := s } else none

/-- **The machine of a server that was bound with some endpoints.** -/
def machine (requests : ℕ → Request Addr) : Machine (Routed Addr) Event where
  init r := ∃ texts : List String, r =
    { server := { endpoints := List.replicate texts.length {} }
      patterns := texts.map PathPattern.parse }
  next := next requests

/-- What a step of the machine can do. -/
inductive Step (requests : ℕ → Request Addr) (r : Routed Addr) : Event → Routed Addr → Prop
  | endpoint {pattern : String} {s : VcmpServer}
      (hs : VcmpServer.machine.next r.server .endpoint = some s) :
      Step requests r (.endpoint pattern)
        { r with server := s, patterns := r.patterns ++ [PathPattern.parse pattern] }
  | routed {k i : ℕ} {info : ConnectInfo Addr} {s : VcmpServer}
      (hnone : r.answers k = none) (hcall : callback r.patterns (requests k) = .ok (i, info))
      (hs : VcmpServer.machine.next r.server (.task k (.matched i)) = some s) :
      Step requests r (.request k)
        { r with server := s, answers := Function.update r.answers k (some (.ok (i, info))) }
  | refused {k : ℕ} {t : ConnectionTask} {response : ErrorResponse}
      (hnone : r.answers k = none) (ht : r.server.tasks[k]? = some t) (hpc : t.pc = .handshaking)
      (hcall : callback r.patterns (requests k) = .error response) :
      Step requests r (.request k)
        { r with answers := Function.update r.answers k (some (.error response)) }
  | server {e : VcmpServer.Event} {s : VcmpServer} (hplain : plain e = true)
      (hs : VcmpServer.machine.next r.server e = some s) :
      Step requests r (.server e) { r with server := s }

variable {requests : ℕ → Request Addr} {r r' : Routed Addr} {e : Event}

/-- **Every step of the machine is one of these.** -/
theorem step_of_next (h : (machine requests).next r e = some r') : Step requests r e r' := by
  change next requests r e = some r' at h
  cases e with
  | endpoint pattern =>
    simp only [next, Option.map_eq_some_iff] at h
    obtain ⟨s, hs, rfl⟩ := h
    exact .endpoint hs
  | request k =>
    simp only [next, Option.ite_none_right_eq_some, Option.map_eq_some_iff,
      Option.isNone_iff_eq_none] at h
    obtain ⟨⟨⟨t, ht, hpc⟩, hnone⟩, h⟩ := h
    split at h
    · rename_i i info hcall
      obtain ⟨s, hs, rfl⟩ := Option.map_eq_some_iff.mp h
      exact .routed hnone hcall hs
    · rename_i response hcall
      obtain rfl := Option.some.inj h
      exact .refused hnone ht hpc hcall
  | server e =>
    simp only [next, Option.ite_none_right_eq_some, Option.map_eq_some_iff] at h
    obtain ⟨hplain, s, hs, rfl⟩ := h
    exact .server hplain hs

/-- **A run of the machine is a run of the server.** -/
theorem server_of_reachable (h : (machine requests).Reachable r) :
    VcmpServer.machine.Reachable r.server := by
  refine h.project (f := Routed.server) ?_ ?_
  · rintro _ ⟨texts, rfl⟩
    exact ⟨texts.length, rfl⟩
  · intro r e r' _ _ hn
    cases step_of_next hn with
    | endpoint hs | routed _ _ hs | server _ hs => exact .single trivial hs
    | refused => exact .refl _

/-! ## Every run -/

/-- What an answer says, over the endpoints that are registered by now. -/
structure Answered (requests : ℕ → Request Addr) (r : Routed Addr) (k : ℕ)
    (answer : Except ErrorResponse (ℕ × ConnectInfo Addr)) : Prop where
  ok : ∀ i info, answer = .ok (i, info) → Earliest r.patterns (requests k).path i info.params ∧
    info = (requests k).connectInfo info.params
  error : ∀ response, answer = .error response → response = .notFound ∧
    ∃ n ≤ r.patterns.length, ∀ p ∈ r.patterns.take n, p.matches (requests k).path = none

/-- **Where the connections of the listener are routed.** -/
structure Chosen (requests : ℕ → Request Addr) (r : Routed Addr) : Prop where
  /-- Every endpoint has its pattern. -/
  length : r.patterns.length = r.server.endpoints.length
  parsed : ∀ p ∈ r.patterns, p = PathPattern.parse p.source
  answered : ∀ k answer, r.answers k = some answer → Answered requests r k answer
  /-- A connection is at the endpoint its request was answered with, -/
  task : ∀ (k i : ℕ) (t : ConnectionTask), r.server.tasks[k]? = some t → t.upgrade = false →
    t.pc.endpoint = some i → ∃ info, r.answers k = some (.ok (i, info))
  /-- and so is its session. -/
  session : ∀ (c : ℕ) (x : ServedSession), r.server.sessions[c]? = some x →
    ∃ t : ConnectionTask, r.server.tasks[x.task]? = some t ∧
      (t.upgrade = false → ∃ info, r.answers x.task = some (.ok (x.endpoint, info)))

theorem Answered.append {k : ℕ} {answer : Except ErrorResponse (ℕ × ConnectInfo Addr)}
    (h : Answered requests r k answer) (more : List PathPattern)
    (hpatterns : r'.patterns = r.patterns ++ more) : Answered requests r' k answer where
  ok i info heq := by
    rw [hpatterns]
    exact ⟨(h.ok i info heq).1.append more, (h.ok i info heq).2⟩
  error response heq := by
    obtain ⟨hresponse, n, hn, hnone⟩ := h.error response heq
    refine ⟨hresponse, n, ?_, ?_⟩ <;> rw [hpatterns]
    · rw [List.length_append]
      omega
    · rwa [List.take_append_of_le_length hn]

/-- The answer that the callback gives is one. -/
theorem answered_callback (hpatterns : r'.patterns = r.patterns) (k : ℕ) :
    Answered requests r' k (callback r.patterns (requests k)) where
  ok i info heq := by
    rw [hpatterns]
    exact callback_eq_ok.mp heq
  error response heq := by
    obtain ⟨hresponse, hnone⟩ := callback_eq_error.mp heq
    refine ⟨hresponse, r.patterns.length, by rw [hpatterns], ?_⟩
    rwa [hpatterns, List.take_length]

/-- **The server moves**, and what was answered stays. -/
theorem Chosen.moves (h : Chosen requests r) {e : VcmpServer.Event}
    (hs : VcmpServer.machine.next r.server e = some r'.server)
    (hlength : r'.patterns.length = r'.server.endpoints.length)
    (hparsed : ∀ p ∈ r'.patterns, p = PathPattern.parse p.source)
    (hanswered : ∀ k answer, r'.answers k = some answer → Answered requests r' k answer)
    (hkept : ∀ k answer, r.answers k = some answer → r'.answers k = some answer)
    (hmatched : ∀ k i, e = .task k (.matched i) → ∃ info, r'.answers k = some (.ok (i, info))) :
    Chosen requests r' where
  length := hlength
  parsed := hparsed
  answered := hanswered
  task := by
    intro k i u hu hbare hi
    obtain ⟨t, ht, hbare, hi⟩ | rfl := VcmpServer.endpoint_of_next hs hu hbare hi
    · obtain ⟨info, hinfo⟩ := h.task k i t ht hbare hi
      exact ⟨info, hkept k _ hinfo⟩
    · exact hmatched k i rfl
  session := by
    intro c y hy
    obtain ⟨x, hx, hages⟩ | ⟨-, k, i, rfl, rfl, t, ht, hpc⟩ := VcmpServer.session_of_next hs hy
    · obtain ⟨t, ht, hsession⟩ := h.session c x hx
      obtain ⟨u, hu, hup⟩ := VcmpServer.upgrade_of_next hs ht
      rw [hages.task, hages.endpoint]
      refine ⟨u, hu, fun hbare => ?_⟩
      obtain ⟨info, hinfo⟩ := hsession (hup ▸ hbare)
      exact ⟨info, hkept _ _ hinfo⟩
    · obtain ⟨u, hu, hup⟩ := VcmpServer.upgrade_of_next hs ht
      refine ⟨u, hu, fun hbare => ?_⟩
      obtain ⟨info, hinfo⟩ := h.task k i t ht (hup ▸ hbare) (by rw [hpc]; rfl)
      exact ⟨info, hkept _ _ hinfo⟩

/-- What is answered anew is answered by the callback. -/
theorem answers_update {k : ℕ} {answer : Except ErrorResponse (ℕ × ConnectInfo Addr)}
    (r' : Routed Addr) (h : Chosen requests r) (hnone : r.answers k = none)
    (hcall : callback r.patterns (requests k) = answer)
    (hpatterns : r'.patterns = r.patterns)
    (hanswers : r'.answers = Function.update r.answers k (some answer)) :
    (∀ j a, r'.answers j = some a → Answered requests r' j a) ∧
      (∀ j a, r.answers j = some a → r'.answers j = some a) := by
  refine ⟨fun j a ha => ?_, fun j a ha => ?_⟩
  · rw [hanswers, Function.update_apply] at ha
    split at ha
    · rename_i hj
      obtain rfl := Option.some.inj ha
      subst hj
      rw [← hcall]
      exact answered_callback hpatterns j
    · exact (h.answered j a ha).append [] (by rw [hpatterns, List.append_nil])
  · have hj : j ≠ k := by
      rintro rfl
      rw [hnone] at ha
      cases ha
    rw [hanswers, Function.update_of_ne hj, ha]

theorem Chosen.step (h : Chosen requests r) (hn : (machine requests).next r e = some r') :
    Chosen requests r' := by
  cases step_of_next hn with
  | @endpoint pattern s hs =>
    refine h.moves hs ?_ ?_ (fun k a ha => (h.answered k a ha).append _ rfl) (fun k a ha => ha)
      (fun k i heq => (by cases heq))
    · cases VcmpServer.step_of_next hs with
      | endpoint => simp [h.length]
    · intro p hp
      rw [List.mem_append, List.mem_singleton] at hp
      obtain hp | rfl := hp
      · exact h.parsed p hp
      · rfl
  | @routed k i info s hnone hcall hs =>
    obtain ⟨hanswered, hkept⟩ := answers_update { r with
      server := s, answers := Function.update r.answers k (some (.ok (i, info))) } h hnone hcall rfl rfl
    refine h.moves hs ?_ h.parsed hanswered hkept fun j l heq => ?_
    · rw [h.length, ← VcmpServer.length_endpoints_of_next hs (by simp)]
    · cases heq
      exact ⟨info, Function.update_self ..⟩
  | @refused k t response hnone ht hpc hcall =>
    obtain ⟨hanswered, hkept⟩ := answers_update { r with
      answers := Function.update r.answers k (some (.error response)) } h hnone hcall rfl rfl
    refine ⟨h.length, h.parsed, hanswered, fun j i u hu hbare hi => ?_, fun c x hx => ?_⟩
    · obtain ⟨info, hinfo⟩ := h.task j i u hu hbare hi
      exact ⟨info, hkept _ _ hinfo⟩
    · obtain ⟨u, hu, hsession⟩ := h.session c x hx
      refine ⟨u, hu, fun hbare => ?_⟩
      obtain ⟨info, hinfo⟩ := hsession hbare
      exact ⟨info, hkept _ _ hinfo⟩
  | @server e s hplain hs =>
    refine h.moves hs ?_ h.parsed (fun k a ha => ?_) (fun k a ha => ha) fun k i heq => ?_
    · rw [h.length, ← VcmpServer.length_endpoints_of_next hs]
      rintro rfl
      cases hplain
    · exact (h.answered k a ha).append [] (List.append_nil _).symm
    · subst heq
      cases hplain

theorem chosen_of_reachable (h : (machine requests).Reachable r) : Chosen requests r := by
  refine h.invariant ?_ fun r e r' _ hn hr => hr.step hn
  rintro _ ⟨texts, rfl⟩
  refine ⟨by simp, fun p hp => ?_, fun k a ha => (by cases ha), fun k i t ht => ?_, fun c x hx => ?_⟩
  · obtain ⟨text, -, rfl⟩ := List.mem_map.mp hp
    rfl
  · simp at ht
  · simp at hx

/-- **Where connections go**, of a server that listens. -/
structure Routes (requests : ℕ → Request Addr) (r : Routed Addr) : Prop where
  parsed : ∀ p ∈ r.patterns, p = PathPattern.parse p.source
  /-- A connection is at the earliest endpoint whose pattern matches, told what it matched with, -/
  task : ∀ (k i : ℕ) (t : ConnectionTask), r.server.tasks[k]? = some t → t.upgrade = false →
    t.pc.endpoint = some i → ∃ params, Earliest r.patterns (requests k).path i params ∧
      r.answers k = some (.ok (i, (requests k).connectInfo params))
  /-- and so is its session. -/
  session : ∀ (c : ℕ) (x : ServedSession) (t : ConnectionTask), r.server.sessions[c]? = some x →
    r.server.tasks[x.task]? = some t → t.upgrade = false →
      ∃ params, Earliest r.patterns (requests x.task).path x.endpoint params
  /-- A request is answered by the endpoints there are when it is read. -/
  request : ∀ (k : ℕ) (t : ConnectionTask), r.server.tasks[k]? = some t → t.pc = .handshaking →
    r.answers k = none → ∃ r', (machine requests).next r (.request k) = some r' ∧
      r'.answers k = some (callback r.patterns (requests k))
  /-- Where none matches the answer is 404, -/
  rejects : ∀ k, (∀ p ∈ r.patterns, p.matches (requests k).path = none) →
    callback r.patterns (requests k) = .error .notFound
  /-- and who was refused has no endpoint and no session. -/
  refused : ∀ k response, r.answers k = some (.error response) → response = .notFound ∧
    ∀ t : ConnectionTask, r.server.tasks[k]? = some t → t.upgrade = false → t.pc.endpoint = none ∧
      ∀ (c : ℕ) (x : ServedSession), r.server.sessions[c]? = some x → x.task ≠ k

/-- A request that is read in the handshake is answered. -/
theorem Chosen.answers (h : Chosen requests r) {k : ℕ} {t : ConnectionTask}
    (ht : r.server.tasks[k]? = some t) (hpc : t.pc = .handshaking) (hnone : r.answers k = none) :
    ∃ r', (machine requests).next r (.request k) = some r' ∧
      r'.answers k = some (callback r.patterns (requests k)) := by
  have hasked : (r.server.tasks[k]?.map ConnectionTask.pc) = some .handshaking ∧
      (r.answers k).isNone := by simp [ht, hpc, hnone]
  change ∃ r', next requests r (.request k) = some r' ∧ _
  rw [next, if_pos hasked]
  cases hcall : callback r.patterns (requests k) with
  | error response => exact ⟨_, rfl, Function.update_self ..⟩
  | ok found =>
    obtain ⟨i, info⟩ := found
    have hlt : i < r.server.endpoints.length := h.length ▸ (callback_eq_ok.mp hcall).1.lt
    have hmoves : VcmpServer.machine.next r.server (.task k (.matched i)) =
        some (r.server.setTask k { t with pc := .responding i }) := by
      simp [VcmpServer.machine, VcmpServer.next, ht, VcmpServer.taskNext, hpc, hlt]
    simp only [hmoves, Option.map_some]
    exact ⟨_, rfl, Function.update_self ..⟩

/-- **Matching is exact, and the earliest match takes the connection**, in every run. -/
theorem routes_of_reachable (h : (machine requests).Reachable r) :
    (∀ pattern path, PathPattern.Exact pattern path) ∧ Routes requests r := by
  have hchosen := chosen_of_reachable h
  have htask : ∀ (k i : ℕ) info, r.answers k = some (.ok (i, info)) →
      Earliest r.patterns (requests k).path i info.params ∧
        r.answers k = some (.ok (i, (requests k).connectInfo info.params)) := by
    intro k i info hinfo
    obtain ⟨hearliest, heq⟩ := (hchosen.answered k _ hinfo).ok i info rfl
    exact ⟨hearliest, by rw [hinfo, ← heq]⟩
  refine ⟨PathPattern.exact_of_path, hchosen.parsed, ?_, ?_, ?_, ?_, ?_⟩
  · intro k i t ht hbare hi
    obtain ⟨info, hinfo⟩ := hchosen.task k i t ht hbare hi
    exact ⟨info.params, htask k i info hinfo⟩
  · intro c x t hx ht hbare
    obtain ⟨u, hu, hsession⟩ := hchosen.session c x hx
    obtain rfl := Option.some.inj (ht.symm.trans hu)
    obtain ⟨info, hinfo⟩ := hsession hbare
    exact ⟨info.params, (htask _ _ info hinfo).1⟩
  · exact fun k t ht hpc hnone => hchosen.answers ht hpc hnone
  · exact fun k hnone => callback_eq_error.mpr ⟨rfl, hnone⟩
  · intro k response hrefused
    refine ⟨((hchosen.answered k _ hrefused).error response rfl).1, fun t ht hbare => ⟨?_, ?_⟩⟩
    · cases hi : t.pc.endpoint with
      | none => rfl
      | some i =>
        obtain ⟨info, hinfo⟩ := hchosen.task k i t ht hbare hi
        rw [hrefused] at hinfo
        cases hinfo
    · rintro c x hx rfl
      obtain ⟨u, hu, hsession⟩ := hchosen.session c x hx
      obtain rfl := Option.some.inj (ht.symm.trans hu)
      obtain ⟨info, hinfo⟩ := hsession hbare
      rw [hrefused] at hinfo
      cases hinfo

/-- Two drivers' endpoints, and a connection to each that is read in its handshake. -/
def routedRun : List Event :=
  [.server (.accept .accepts), .server (.accept .goes), .server (.accept .goes),
    .server (.task 0 .goes), .endpoint "/drivers/\x7bdriver\x7d/", .request 0]

/-- The one path of the run. -/
def routedRequest (_ : ℕ) : Request ℕ :=
  { path := "//drivers/kerong", headers := [], remoteAddr := 0 }

/-- The connection is at the second endpoint, which was registered while it waited. -/
theorem routes_of_reachable_routedRun : ∃ r : Routed ℕ,
    (machine routedRequest).run { server := { endpoints := [{}] }
                                  patterns := [PathPattern.parse "/keypad"] } routedRun = some r ∧
      r.server.tasks.map ConnectionTask.pc = [.responding 1] ∧
      (∀ pattern path, PathPattern.Exact pattern path) ∧ Routes routedRequest r := by
  have hrun : ((machine routedRequest).run { server := { endpoints := [{}] }
                                             patterns := [PathPattern.parse "/keypad"] } routedRun).any
      (fun r => decide (r.server.tasks.map ConnectionTask.pc = [.responding 1])) = true := by
    decide +kernel
  obtain ⟨r, hr, hend⟩ := Machine.exists_of_run hrun
  exact ⟨r, hr, of_decide_eq_true hend,
    routes_of_reachable (Machine.reachable_of_run ⟨["/keypad"], rfl⟩ hr)⟩

end Routing

end Vcmp
