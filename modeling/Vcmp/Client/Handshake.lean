import Mathlib.Data.List.Nodup
/-!
# The headers of the handshake

An attempt to connect sends the configured headers and those that the
per-attempt factory returned. `append` adds a value to a name and
`insert` replaces its values, so a static header is added to what the
request has and a returned one replaces it. The map itself is the `http`
crate's; `Http.Lawful` says what is relied on.
-/

namespace Vcmp

/-- The request of a WebSocket handshake. -/
structure ClientRequest (Uri HeaderMap : Type) where
  uri : Uri
  headers : HeaderMap

/-- **What the client uses of the `http` and `tungstenite` crates.** -/
structure Http where
  Uri : Type
  Name : Type
  Value : Type
  HeaderMap : Type
  /-- `tungstenite::Error`. -/
  Error : Type
  decEqName : DecidableEq Name
  /-- `HeaderName::from_bytes`. -/
  fromBytes : String → Option Name
  /-- `HeaderName::to_string`. -/
  nameText : Name → String
  /-- `HeaderValue::from_str`. -/
  fromStr : String → Option Value
  append : HeaderMap → Name → Value → HeaderMap
  insert : HeaderMap → Name → Value → HeaderMap
  /-- The values of a name, in order. -/
  getAll : HeaderMap → Name → List Value
  intoClientRequest : String → Except Error (ClientRequest Uri HeaderMap)

instance (H : Http) : DecidableEq H.Name := H.decEqName

/-- The text with its ASCII letters in lower case. -/
def asciiLower (text : String) : String := String.ofList (text.toList.map Char.toLower)

namespace Http

/-- **What is relied on**: a value is added or replaces all of its name's,
and names are the same up to case. -/
structure Lawful (H : Http) : Prop where
  append : ∀ headers name value other, H.getAll (H.append headers name value) other =
    if other = name then H.getAll headers other ++ [value] else H.getAll headers other
  insert : ∀ headers name value other, H.getAll (H.insert headers name value) other =
    if other = name then [value] else H.getAll headers other
  ignoresCase : ∀ a b n m, H.fromBytes a = some n → H.fromBytes b = some m →
    (n = m ↔ asciiLower a = asciiLower b)

variable (H : Http)

/-- Names and values that `from_bytes` and `from_str` accept. -/
def WellFormed (headers : List (String × String)) : Prop :=
  ∀ p ∈ headers, (H.fromBytes p.1).isSome ∧ (H.fromStr p.2).isSome

/-- A header as it is read, where it is well formed. -/
def read (p : String × String) : Option (H.Name × H.Value) :=
  (H.fromBytes p.1).bind fun name => (H.fromStr p.2).map fun value => (name, value)

/-- The names of a list of headers. -/
def names (headers : List (String × String)) : List H.Name :=
  (headers.filterMap H.read).map Prod.fst

/-- The values of a name in a list of headers, in order. -/
def values (headers : List (String × String)) (name : H.Name) : List H.Value :=
  ((headers.filterMap H.read).filter fun p => p.1 = name).map Prod.snd

/-- **The merge**: what the factory returned for the names it returned, and for every
other name the base and behind it the static headers. -/
def Merged (base : H.HeaderMap) (statics returned : List (String × String)) (out : H.HeaderMap) :
    Prop :=
  ∀ name, H.getAll out name =
    if name ∈ H.names returned then H.values returned name
    else H.getAll base name ++ H.values statics name

/-- No name stands twice in a list of headers, in whatever case. -/
def NamesOnce (headers : List (String × String)) : Prop :=
  (headers.map fun p => asciiLower p.1).Nodup

end Http

/-- Why an attempt to connect failed. -/
inductive ConnectError (E : Type) where
  | overloaded
  | credentials
  | header (name : String)
  | webSocket (error : E)
  deriving DecidableEq, Repr

/-- What an attempt is configured with. -/
structure ClientConfig where
  url : String
  headers : List (String × String) := []

namespace VcmpClient

variable (H : Http)

/-- The loop over a list of headers, putting each into the map. -/
def setHeaders (put : H.HeaderMap → H.Name → H.Value → H.HeaderMap) :
    List (String × String) → H.HeaderMap → Except (ConnectError H.Error) H.HeaderMap
  | [], headers => .ok headers
  | (name, value) :: rest, headers =>
    match H.fromBytes name with
    | none => .error (.header name)
    | some name =>
      match H.fromStr value with
      | none => .error (.header (H.nameText name))
      | some value => setHeaders put rest (put headers name value)

/-- The loop over the configured headers. -/
def addStatic := setHeaders H H.append

/-- The loop over the headers that the factory returned. -/
def addPerAttempt := setHeaders H H.insert

/-- **The request that `connect` sends**, where the connection is admitted
or not, and with what the factory returns, if there is one. -/
def connectRequest {ε : Type} (config : ClientConfig) (admitted : Bool)
    (factory : Option (Except ε (List (String × String)))) :
    Except (ConnectError H.Error) (ClientRequest H.Uri H.HeaderMap) := do
  if !admitted then throw .overloaded
  let request ← (H.intoClientRequest config.url).mapError .webSocket
  let headers ← addStatic H config.headers request.headers
  match factory with
  | some result =>
    let returned ← result.mapError fun _ => .credentials
    let headers ← addPerAttempt H returned headers
    return { request with headers := headers }
  | none => return { request with headers := headers }

variable {H} {headers returned statics : List (String × String)} {map base : H.HeaderMap}
  {put : H.HeaderMap → H.Name → H.Value → H.HeaderMap} {name : H.Name} {p : String × String}

theorem read_eq_some {value : H.Value} : H.read p = some (name, value) ↔
    H.fromBytes p.1 = some name ∧ H.fromStr p.2 = some value := by
  simp only [Http.read, Option.bind_eq_some_iff, Option.map_eq_some_iff, Prod.mk.injEq]
  constructor
  · rintro ⟨n, hn, v, hv, rfl, rfl⟩
    exact ⟨hn, hv⟩
  · rintro ⟨hn, hv⟩
    exact ⟨name, hn, value, hv, rfl, rfl⟩

theorem wellFormed_cons : H.WellFormed (p :: headers) ↔
    (∃ q, H.read p = some q) ∧ H.WellFormed headers := by
  simp only [Http.WellFormed, List.forall_mem_cons, Option.isSome_iff_exists]
  refine and_congr_left fun _ => ⟨?_, ?_⟩
  · rintro ⟨⟨n, hn⟩, v, hv⟩
    exact ⟨(n, v), read_eq_some.mpr ⟨hn, hv⟩⟩
  · rintro ⟨⟨n, v⟩, hq⟩
    exact ⟨⟨n, (read_eq_some.mp hq).1⟩, v, (read_eq_some.mp hq).2⟩

/-- **The loop puts every header into the map**, in order, where all are well formed. -/
theorem setHeaders_eq (h : H.WellFormed headers) (map : H.HeaderMap) : setHeaders H put headers map =
    .ok ((headers.filterMap H.read).foldl (fun m q => put m q.1 q.2) map) := by
  induction headers generalizing map with
  | nil => rfl
  | cons p headers ih =>
    obtain ⟨⟨⟨n, v⟩, hq⟩, hrest⟩ := wellFormed_cons.mp h
    obtain ⟨hn, hv⟩ := read_eq_some.mp hq
    simp only [setHeaders, hn, hv]
    rw [ih hrest, List.filterMap_cons_some hq, List.foldl_cons]

/-- What `append` makes of a name. -/
theorem getAll_append (hH : H.Lawful) (pairs : List (H.Name × H.Value)) (map : H.HeaderMap) :
    H.getAll (pairs.foldl (fun m q => H.append m q.1 q.2) map) name =
      H.getAll map name ++ (pairs.filter fun q => q.1 = name).map Prod.snd := by
  induction pairs generalizing map with
  | nil => simp
  | cons q pairs ih =>
    rw [List.foldl_cons, ih, hH.append]
    by_cases hq : q.1 = name
    · simp [hq]
    · simp [hq, Ne.symm hq]

/-- **What `insert` makes of a name**: the last value of the list, where it has one. -/
theorem getAll_insert (hH : H.Lawful) (pairs : List (H.Name × H.Value)) (map : H.HeaderMap) :
    H.getAll (pairs.foldl (fun m q => H.insert m q.1 q.2) map) name =
      match ((pairs.filter fun q => q.1 = name).map Prod.snd).getLast? with
      | some value => [value]
      | none => H.getAll map name := by
  induction pairs generalizing map with
  | nil => rfl
  | cons q pairs ih =>
    rw [List.foldl_cons, ih, hH.insert]
    by_cases hq : q.1 = name
    · rw [List.filter_cons_of_pos (by simpa using hq), List.map_cons, List.getLast?_cons,
        if_pos hq.symm]
      cases ((pairs.filter fun q => q.1 = name).map Prod.snd).getLast? <;> rfl
    · rw [List.filter_cons_of_neg (by simpa using hq), if_neg (Ne.symm hq)]

/-- What both loops make of a name, where the headers are well formed. -/
theorem getAll_merged (hH : H.Lawful) (base : H.HeaderMap) (name : H.Name) :
    H.getAll ((returned.filterMap H.read).foldl (fun m q => H.insert m q.1 q.2)
        ((statics.filterMap H.read).foldl (fun m q => H.append m q.1 q.2) base)) name =
      match (H.values returned name).getLast? with
      | some value => [value]
      | none => H.getAll base name ++ H.values statics name := by
  rw [getAll_insert hH, getAll_append hH]
  rfl

theorem mem_names : name ∈ H.names headers ↔ H.values headers name ≠ [] := by
  simp only [Http.names, Http.values, List.mem_map, ne_eq, List.map_eq_nil_iff,
    List.filter_eq_nil_iff, not_forall, not_not, decide_eq_true_eq]
  constructor
  · rintro ⟨q, hq, rfl⟩
    exact ⟨q, hq, rfl⟩
  · rintro ⟨q, hq, rfl⟩
    exact ⟨q, hq, rfl⟩

/-- What a merge holds of a name that was returned. -/
theorem merged_returned {out : H.HeaderMap} (h : H.Merged base statics returned out)
    (hname : H.values returned name ≠ []) : H.getAll out name = H.values returned name := by
  rw [h name, if_pos (mem_names.mpr hname)]

/-- How often a name stands in a list is how many values it has there. -/
theorem count_names (headers : List (String × String)) (name : H.Name) :
    (H.names headers).count name = (H.values headers name).length := by
  rw [Http.names, Http.values, List.length_map, List.count, List.countP_map, List.countP_eq_length_filter]
  congr 2

/-- **The merge is right for a name that is returned once**, and for one that is not returned. -/
theorem last_eq_values_iff : (∀ name, name ∈ H.names returned →
      (H.values returned name).getLast?.toList = H.values returned name) ↔
    (H.names returned).Nodup := by
  rw [List.nodup_iff_count_le_one]
  refine forall_congr' fun name => ?_
  rw [count_names, mem_names]
  rcases H.values returned name with _ | ⟨value, _ | ⟨second, rest⟩⟩
  · simp
  · simp
  · refine ⟨fun h => ?_, fun h => ?_⟩
    · have hlength := congrArg List.length (h (by simp))
      simp [List.getLast?_cons] at hlength
    · simp at h

theorem mem_names_iff (hH : H.Lawful) (h : H.WellFormed headers) {a : String}
    (ha : H.fromBytes a = some name) :
    name ∈ H.names headers ↔ asciiLower a ∈ headers.map fun p => asciiLower p.1 := by
  simp only [Http.names, List.mem_map, List.mem_filterMap]
  constructor
  · rintro ⟨⟨n, v⟩, ⟨p, hp, hread⟩, rfl⟩
    exact ⟨p, hp, (hH.ignoresCase _ _ _ _ (read_eq_some.mp hread).1 ha).mp rfl⟩
  · rintro ⟨p, hp, hlower⟩
    obtain ⟨n, hn⟩ := Option.isSome_iff_exists.mp (h p hp).1
    obtain ⟨v, hv⟩ := Option.isSome_iff_exists.mp (h p hp).2
    exact ⟨(n, v), ⟨p, hp, read_eq_some.mpr ⟨hn, hv⟩⟩, (hH.ignoresCase _ _ _ _ hn ha).mpr hlower⟩

/-- Read names are distinct where the texts are, up to case. -/
theorem nodup_names (hH : H.Lawful) (h : H.WellFormed headers) :
    (H.names headers).Nodup ↔ Http.NamesOnce headers := by
  induction headers with
  | nil => simp [Http.names, Http.NamesOnce]
  | cons p headers ih =>
    obtain ⟨⟨⟨n, v⟩, hread⟩, hrest⟩ := wellFormed_cons.mp h
    have hnames : H.names (p :: headers) = n :: H.names headers := by
      rw [Http.names, List.filterMap_cons_some hread, List.map_cons]
      rfl
    rw [hnames, List.nodup_cons, ih hrest, mem_names_iff hH hrest (read_eq_some.mp hread).1,
      Http.NamesOnce, Http.NamesOnce, List.map_cons, List.nodup_cons]

/-- The request that is sent, where all headers are well formed. -/
theorem connectRequest_eq {ε : Type} {config : ClientConfig} {request : ClientRequest H.Uri H.HeaderMap}
    (hbase : H.intoClientRequest config.url = .ok request) (hstatics : H.WellFormed config.headers)
    {factory : Option (List (String × String))} (hreturned : H.WellFormed (factory.getD [])) :
    connectRequest H config true (factory.map (Except.ok (ε := ε))) = .ok { request with
      headers := ((factory.getD []).filterMap H.read).foldl (fun m q => H.insert m q.1 q.2)
        ((config.headers.filterMap H.read).foldl (fun m q => H.append m q.1 q.2) request.headers) } := by
  cases factory with
  | none =>
    simp only [connectRequest, hbase, addStatic, setHeaders_eq hstatics]
    rfl
  | some returned =>
    have hloop : H.WellFormed returned := hreturned
    simp only [connectRequest, hbase, addStatic, addPerAttempt, setHeaders_eq hstatics,
      Option.map_some, Option.getD_some]
    change (addPerAttempt H returned _ >>= _) = _
    rw [addPerAttempt, setHeaders_eq hloop]
    rfl

/-- **The headers are merged without loss exactly where the factory returns
no name twice**: of a name that it returns more than once only the last
value is sent. -/
theorem connectRequest_merged_iff {ε : Type} (hH : H.Lawful) {config : ClientConfig}
    {request : ClientRequest H.Uri H.HeaderMap}
    (hbase : H.intoClientRequest config.url = .ok request) (hstatics : H.WellFormed config.headers)
    {factory : Option (List (String × String))} (hreturned : H.WellFormed (factory.getD [])) :
    ∃ out, connectRequest H config true (factory.map (Except.ok (ε := ε))) = .ok out ∧
      out.uri = request.uri ∧
      (H.Merged request.headers config.headers (factory.getD []) out.headers ↔
        Http.NamesOnce (factory.getD [])) := by
  refine ⟨_, connectRequest_eq hbase hstatics hreturned, rfl, ?_⟩
  rw [← nodup_names hH hreturned, ← last_eq_values_iff, Http.Merged]
  refine forall_congr' fun name => ?_
  rw [getAll_merged hH]
  by_cases hname : name ∈ H.names (factory.getD [])
  · rw [if_pos hname]
    cases hlast : (H.values (factory.getD []) name).getLast? with
    | none => exact absurd (List.getLast?_eq_none_iff.mp hlast) (mem_names.mp hname)
    | some value => simp [hname]
  · have hnone : H.values (factory.getD []) name = [] := by
      by_contra hne
      exact hname (mem_names.mpr hne)
    simp [hname, hnone]

/-! ## The crate's map, as a list -/

/-- A character of an HTTP token. -/
def isToken (c : Char) : Bool := c.isAlphanum || "!#$%&'*+-.^_`|~".toList.contains c

/-- A header map as the list of its names and values, names in lower case;
the key of the handshake is drawn at random. -/
def listHttp (key : String) : Http where
  Uri := String
  Name := String
  Value := String
  HeaderMap := List (String × String)
  Error := String
  decEqName := inferInstance
  fromBytes name :=
    if name.toList ≠ [] ∧ name.toList.all isToken then some (asciiLower name) else none
  nameText := id
  fromStr value :=
    if value.toList.all fun c => c = '\t' || (' ' ≤ c && c ≤ '~') then some value else none
  append headers name value := headers ++ [(name, value)]
  insert headers name value := (headers.filter fun p => p.1 ≠ name) ++ [(name, value)]
  getAll headers name := (headers.filter fun p => p.1 = name).map Prod.snd
  intoClientRequest url :=
    if url.toList.take 5 = "ws://".toList then
      .ok { uri := url, headers :=
        [("host", String.ofList ((url.toList.drop 5).takeWhile fun c => c ≠ '/')),
          ("connection", "Upgrade"), ("upgrade", "websocket"), ("sec-websocket-version", "13"),
          ("sec-websocket-key", key)] }
    else .error "URL scheme not supported"

theorem lawful_listHttp (key : String) : (listHttp key).Lawful where
  append := by
    intro (headers : List (String × String)) (name : String) (value : String) (other : String)
    change ((headers ++ [(name, value)]).filter fun p => p.1 = other).map Prod.snd =
      if other = name then (headers.filter fun p => p.1 = other).map Prod.snd ++ [value]
      else (headers.filter fun p => p.1 = other).map Prod.snd
    rw [List.filter_append, List.map_append]
    by_cases h : other = name
    · simp [h]
    · simp [h, Ne.symm h]
  insert := by
    intro (headers : List (String × String)) (name : String) (value : String) (other : String)
    change (((headers.filter fun p => p.1 ≠ name) ++ [(name, value)]).filter
        fun p => p.1 = other).map Prod.snd =
      if other = name then [value] else (headers.filter fun p => p.1 = other).map Prod.snd
    rw [List.filter_append, List.map_append, List.filter_filter]
    by_cases h : other = name
    · subst h
      simp
    · simp only [h, Ne.symm h, if_false, decide_false, List.filter_cons_of_neg, Bool.false_eq_true,
        not_false_eq_true, List.filter_nil, List.map_nil, List.append_nil]
      congr 2
      funext p
      by_cases hp : p.1 = other
      · simp [hp, h]
      · simp [hp]
  ignoresCase := by
    intro a b (n : String) (m : String) ha hb
    obtain ⟨-, ha⟩ := Option.ite_none_right_eq_some.mp ha
    obtain ⟨-, hb⟩ := Option.ite_none_right_eq_some.mp hb
    rw [← Option.some.inj ha, ← Option.some.inj hb]
    exact Iff.rfl

/-- The map of one handshake. -/
def sampleHttp : Http := listHttp "dGhlIHNhbXBsZSBub25jZQ=="

/-- A client with a static proof. -/
def driverConfig : ClientConfig where
  url := "ws://localhost:2000/drivers/kerong"
  headers := [("authorization", "stale"), ("Accept", "a"), ("accept", "b")]

/-- A fresh proof and a cookie. -/
def freshHeaders : List (String × String) :=
  [("Authorization", "fresh"), ("Cookie", "session=1")]

/-- The fresh proof replaces the stale one, and nothing is lost. -/
theorem connectRequest_merged_iff_freshHeaders : ∃ request out,
    sampleHttp.intoClientRequest driverConfig.url = .ok request ∧
      connectRequest sampleHttp driverConfig true (some (Except.ok (ε := Unit) freshHeaders)) =
        .ok out ∧
      sampleHttp.Merged request.headers driverConfig.headers freshHeaders out.headers := by
  have hbase : sampleHttp.intoClientRequest driverConfig.url = .ok
      { uri := driverConfig.url, headers := [("host", "localhost:2000"), ("connection", "Upgrade"),
          ("upgrade", "websocket"), ("sec-websocket-version", "13"),
          ("sec-websocket-key", "dGhlIHNhbXBsZSBub25jZQ==")] } := by rfl
  have hreturned : sampleHttp.WellFormed ((some freshHeaders).getD []) := by
    unfold Http.WellFormed
    decide +kernel
  obtain ⟨out, hout, -, hmerged⟩ := connectRequest_merged_iff (ε := Unit) (lawful_listHttp _) hbase
    (by unfold Http.WellFormed; decide +kernel) hreturned
  exact ⟨_, out, hbase, hout, hmerged.mpr (by unfold Http.NamesOnce; decide +kernel)⟩

/-- Two cookies. -/
def twoCookies : List (String × String) := [("Cookie", "session=1"), ("cookie", "route=2")]

/-- **Of two cookies that the factory returns only one is sent.** -/
theorem not_merged_twoCookies : ∃ request out,
    sampleHttp.intoClientRequest driverConfig.url = .ok request ∧
      connectRequest sampleHttp driverConfig true (some (Except.ok (ε := Unit) twoCookies)) =
        .ok out ∧
      sampleHttp.values twoCookies "cookie" = ["session=1", "route=2"] ∧
      sampleHttp.getAll out.headers "cookie" = ["route=2"] ∧
      ¬ sampleHttp.Merged request.headers driverConfig.headers twoCookies out.headers := by
  have hvalues : sampleHttp.values twoCookies "cookie" = ["session=1", "route=2"] := by rfl
  have hne : sampleHttp.values twoCookies "cookie" ≠ [] := by
    rw [hvalues]
    exact List.cons_ne_nil _ _
  refine ⟨_, _, rfl, rfl, hvalues, rfl, fun hmerged => ?_⟩
  have hboth := (merged_returned hmerged hne).trans hvalues
  exact absurd (congrArg List.length hboth) (by decide +kernel)

end VcmpClient

end Vcmp
