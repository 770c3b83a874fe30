import Mathlib.Data.List.Basic
import Mathlib.Data.List.Nodup
/-!
# Path patterns

The pattern of an endpoint and the path of a request are both taken apart
at their slashes, and what is empty between two slashes is left out. A
segment in braces is a parameter. `Fits` says which paths a pattern is
for, and the parameters that `matches` returns are read off it.
-/

namespace Vcmp

/-- The non-empty segments between slashes. -/
def segmentsOf (text : String) : List String :=
  ((text.toList.splitOn '/').filter fun s => !s.isEmpty).map String.ofList

/-- `path.split('?').next()`. -/
def beforeQuery (path : String) : String :=
  String.ofList (((path.toList.splitOn '?').head?).getD path.toList)

/-- The segments of a path, up to its query. -/
def pathSegments (path : String) : List String := segmentsOf (beforeQuery path)

/-- A segment of a pattern. -/
inductive Segment where
  | literal (text : String)
  | param (name : String)
  deriving DecidableEq, Repr

namespace Segment

/-- `strip_prefix` of one character. -/
def stripPrefix (c : Char) : List Char → Option (List Char)
  | [] => none
  | d :: rest => if d = c then some rest else none

/-- `strip_suffix` of one character. -/
def stripSuffix (c : Char) (text : List Char) : Option (List Char) :=
  (stripPrefix c text.reverse).map List.reverse

/-- A segment in braces is a parameter. -/
def parse (s : String) : Segment :=
  match (stripPrefix '\x7b' s.toList).bind (stripSuffix '\x7d') with
  | some name => .param (String.ofList name)
  | none => .literal s

end Segment

/-- The parameters of a path: a map that keeps one value for a key. -/
abbrev PathParams := List (String × String)

namespace PathParams

/-- The value of a key. -/
def get (params : PathParams) (key : String) : Option String :=
  (params.find? (·.1 = key)).map Prod.snd

/-- `HashMap::insert`, replacing a previous value. -/
def insert (params : PathParams) (key value : String) : PathParams :=
  (key, value) :: params.filter (·.1 ≠ key)

end PathParams

/-- **The path pattern of an endpoint.** -/
structure PathPattern where
  source : String
  segments : List Segment
  deriving DecidableEq, Repr

namespace PathPattern

/-- `PathPattern::parse`. -/
def parse (pattern : String) : PathPattern :=
  { source := pattern, segments := (segmentsOf pattern).map Segment.parse }

/-- The loop over the segments of the pattern and of the path. -/
def matchSegments : List Segment → List String → PathParams → Option PathParams
  | .literal text :: segments, actual :: rest, params =>
    if text = actual then matchSegments segments rest params else none
  | .param name :: segments, actual :: rest, params =>
    matchSegments segments rest (params.insert name actual)
  | _, _, params => some params

/-- `PathPattern::matches`. -/
def «matches» (pattern : PathPattern) (path : String) : Option PathParams :=
  if (pathSegments path).length ≠ pattern.segments.length then none
  else matchSegments pattern.segments (pathSegments path) []

end PathPattern

/-! ## Splitting -/

section Splitting

variable {a b path text : String}

/-- No piece of a split contains what it was split on. -/
theorem not_mem_of_mem_splitOn {c : Char} : ∀ {text piece : List Char},
    piece ∈ text.splitOn c → c ∉ piece
  | [], piece, h => by
    rw [List.splitOn_nil, List.mem_singleton] at h
    simp [h]
  | d :: text, piece, h => by
    rw [List.splitOn_cons_eq_if_modifyHead] at h
    obtain ⟨first, rest, heq⟩ := List.exists_cons_of_ne_nil (List.splitOn_ne_nil c text)
    by_cases hd : d = c
    · rw [if_pos (by simpa using hd), List.mem_cons] at h
      obtain rfl | h := h
      · simp
      · exact not_mem_of_mem_splitOn h
    · rw [if_neg (by simpa using hd), heq, List.modifyHead_cons, List.mem_cons] at h
      obtain rfl | h := h
      · rw [List.mem_cons, not_or]
        exact ⟨fun hc => hd hc.symm, not_mem_of_mem_splitOn (heq ▸ List.mem_cons_self ..)⟩
      · exact not_mem_of_mem_splitOn (heq ▸ List.mem_cons_of_mem _ h)

/-- The first piece of a split is what stands before the separator. -/
theorem head?_splitOn (c : Char) (text : List Char) :
    (text.splitOn c).head? = some (text.takeWhile (fun d => d ≠ c)) := by
  induction text with
  | nil => rfl
  | cons d text ih =>
    rw [List.splitOn_cons_eq_if_modifyHead]
    obtain ⟨first, rest, heq⟩ := List.exists_cons_of_ne_nil (List.splitOn_ne_nil c text)
    rw [heq, List.head?_cons, Option.some.injEq] at ih
    by_cases hd : d = c
    · simp [hd]
    · rw [if_neg (by simpa using hd), heq, List.modifyHead_cons, List.head?_cons, ih,
        List.takeWhile_cons_of_pos (by simpa using hd)]

/-- **A segment is non-empty and has no slash.** -/
theorem segment_of_mem {s : String} (h : s ∈ segmentsOf text) : s ≠ "" ∧ '/' ∉ s.toList := by
  simp only [segmentsOf, List.mem_map, List.mem_filter] at h
  obtain ⟨piece, ⟨hmem, hne⟩, rfl⟩ := h
  refine ⟨?_, ?_⟩
  · intro he
    rw [String.ofList_eq_empty_iff] at he
    simp [he] at hne
  · rw [String.toList_ofList]
    exact not_mem_of_mem_splitOn hmem

/-- **Segments split at a slash.** -/
theorem segmentsOf_append (a b : String) :
    segmentsOf (a ++ "/" ++ b) = segmentsOf a ++ segmentsOf b := by
  have htext : (a ++ "/" ++ b).toList = a.toList ++ '/' :: b.toList := by simp
  rw [segmentsOf, htext, List.splitOn_append_cons_self, List.filter_append, List.map_append]
  rfl

@[simp] theorem segmentsOf_empty : segmentsOf "" = [] := by decide

theorem takeWhile_append_ne (c : Char) (xs ys : List Char) :
    (xs ++ ys).takeWhile (fun d => d ≠ c) =
      if c ∈ xs then xs.takeWhile (fun d => d ≠ c) else xs ++ ys.takeWhile (fun d => d ≠ c) := by
  induction xs with
  | nil => simp
  | cons x xs ih =>
    by_cases hx : x = c
    · simp [hx]
    · rw [List.cons_append, List.takeWhile_cons_of_pos (by simpa using hx), ih,
        List.takeWhile_cons_of_pos (by simpa using hx)]
      by_cases hc : c ∈ xs
      · rw [if_pos hc, if_pos (List.mem_cons_of_mem _ hc)]
      · rw [if_neg hc, if_neg (by simp [hc, Ne.symm hx]), List.cons_append]

/-- **The path up to its query**: what follows the first question mark is not read. -/
theorem beforeQuery_append (a b : String) :
    beforeQuery (a ++ b) = if '?' ∈ a.toList then beforeQuery a else a ++ beforeQuery b := by
  simp only [beforeQuery, head?_splitOn, Option.getD_some, String.toList_append,
    takeWhile_append_ne]
  split
  · rfl
  · rw [String.ofList_append, String.ofList_toList]

theorem pathSegments_append (a b : String) :
    pathSegments (a ++ b) =
      if '?' ∈ a.toList then pathSegments a else segmentsOf (a ++ beforeQuery b) := by
  rw [pathSegments, beforeQuery_append]
  split <;> rfl

theorem pathSegments_of_not_mem (h : '?' ∉ a.toList) : pathSegments a = segmentsOf a := by
  have hempty : beforeQuery "" = "" := by decide
  have happend := pathSegments_append a ""
  rwa [if_neg h, hempty, String.append_empty] at happend

/-- **The query is not read.** -/
theorem pathSegments_query (path query : String) :
    pathSegments (path ++ ("?" ++ query)) = pathSegments path := by
  have hquery : beforeQuery ("?" ++ query) = "" := by
    rw [beforeQuery_append, if_pos (by decide)]
    decide
  rw [pathSegments_append, hquery, String.append_empty]
  split
  · rfl
  · rename_i h
    exact (pathSegments_of_not_mem h).symm

/-! ## Slashes that separate nothing -/

theorem segmentsOf_leading (text : String) : segmentsOf ("/" ++ text) = segmentsOf text := by
  simpa using segmentsOf_append "" text

theorem segmentsOf_trailing (text : String) : segmentsOf (text ++ "/") = segmentsOf text := by
  simpa using segmentsOf_append text ""

theorem segmentsOf_doubled (a b : String) :
    segmentsOf (a ++ "//" ++ b) = segmentsOf (a ++ "/" ++ b) := by
  have htwo : a ++ "//" ++ b = (a ++ "/") ++ "/" ++ b := by
    simp only [String.append_assoc]
    rfl
  rw [htwo, segmentsOf_append, segmentsOf_trailing, segmentsOf_append]

theorem pathSegments_leading (path : String) : pathSegments ("/" ++ path) = pathSegments path := by
  rw [pathSegments_append, if_neg (by decide), segmentsOf_leading]
  rfl

theorem pathSegments_trailing (path : String) : pathSegments (path ++ "/") = pathSegments path := by
  have hslash : beforeQuery "/" = "/" := by decide
  rw [pathSegments_append, hslash, segmentsOf_trailing]
  split
  · rfl
  · rename_i h
    exact (pathSegments_of_not_mem h).symm

theorem pathSegments_doubled (a b : String) :
    pathSegments (a ++ "//" ++ b) = pathSegments (a ++ "/" ++ b) := by
  have hone : beforeQuery ("/" ++ b) = "/" ++ beforeQuery b := by
    rw [beforeQuery_append, if_neg (by decide)]
  have htwo : beforeQuery ("//" ++ b) = "//" ++ beforeQuery b := by
    rw [beforeQuery_append, if_neg (by decide)]
  rw [String.append_assoc, String.append_assoc, pathSegments_append, pathSegments_append, hone,
    htwo, ← String.append_assoc, ← String.append_assoc, segmentsOf_doubled]

end Splitting

/-! ## Braces -/

/-- A name in braces. -/
def braced (name : String) : String := "\x7b" ++ name ++ "\x7d"

theorem toList_braced (name : String) : (braced name).toList = '\x7b' :: (name.toList ++ ['\x7d']) := by
  simp [braced]

theorem braced_inj {a b : String} (h : braced a = braced b) : a = b := by
  have hchars := congrArg String.toList h
  rw [toList_braced, toList_braced, List.cons.injEq, List.append_left_inj] at hchars
  exact String.toList_inj.mp hchars.2

namespace Segment

theorem stripPrefix_eq {c : Char} {text rest : List Char} :
    stripPrefix c text = some rest ↔ text = c :: rest := by
  cases text with
  | nil => simp [stripPrefix]
  | cons d tail =>
    simp only [stripPrefix, Option.ite_none_right_eq_some, Option.some.injEq, List.cons.injEq]

theorem stripSuffix_eq {c : Char} {text rest : List Char} :
    stripSuffix c text = some rest ↔ text = rest ++ [c] := by
  simp only [stripSuffix, Option.map_eq_some_iff, stripPrefix_eq]
  constructor
  · rintro ⟨back, hback, rfl⟩
    simpa using congrArg List.reverse hback
  · rintro rfl
    exact ⟨rest.reverse, by simp, by simp⟩

/-- The two `strip`s leave a name exactly where there is one in braces. -/
theorem strip_eq {s : String} {chars : List Char} :
    (stripPrefix '\x7b' s.toList).bind (stripSuffix '\x7d') = some chars ↔
      s = braced (String.ofList chars) := by
  simp only [Option.bind_eq_some_iff, stripPrefix_eq, stripSuffix_eq]
  rw [← String.toList_inj, toList_braced, String.toList_ofList]
  simp

/-- **A parameter is a name in braces**, whatever the name. -/
theorem parse_eq_param {s name : String} : parse s = .param name ↔ s = braced name := by
  unfold parse
  split
  · rename_i chars heq
    rw [strip_eq] at heq
    rw [Segment.param.injEq, heq]
    exact ⟨fun h => h ▸ rfl, braced_inj⟩
  · rename_i heq
    refine ⟨(by rintro ⟨⟩), fun h => ?_⟩
    have hsome : (stripPrefix '\x7b' s.toList).bind (stripSuffix '\x7d') = some name.toList :=
      strip_eq.mpr (by rw [String.ofList_toList, h])
    rw [heq] at hsome
    cases hsome

/-- **Every other segment is literal.** -/
theorem parse_eq_literal {s text : String} :
    parse s = .literal text ↔ s = text ∧ ∀ name, s ≠ braced name := by
  constructor
  · intro h
    refine ⟨?_, fun name hs => ?_⟩
    · unfold parse at h
      split at h
      · cases h
      · exact Segment.literal.inj h
    · rw [parse_eq_param.mpr hs] at h
      cases h
  · rintro ⟨rfl, hne⟩
    cases hs : parse s with
    | param name => exact absurd (parse_eq_param.mp hs) (hne name)
    | literal text =>
      unfold parse at hs
      split at hs
      · cases hs
      · rw [Segment.literal.inj hs]

end Segment

/-! ## The parameters of a path -/

namespace PathParams

variable {params : PathParams} {key value name v : String}

/-- The keys of the map. -/
def keys (params : PathParams) : List String := params.map Prod.fst

theorem get_insert : (params.insert key value).get name =
    if key = name then some value else params.get name := by
  unfold get insert
  rw [List.find?_cons]
  by_cases h : key = name
  · simp [h]
  · rw [if_neg h]
    simp only [h, decide_false]
    rw [List.find?_filter]
    congr 2
    funext p
    by_cases hp : p.1 = name
    · simp [hp, Ne.symm h]
    · simp [hp]

theorem mem_keys_insert : name ∈ (params.insert key value).keys ↔ name = key ∨ name ∈ params.keys := by
  simp only [keys, insert, List.map_cons, List.mem_cons, List.mem_map, List.mem_filter]
  constructor
  · rintro (h | ⟨p, ⟨hp, -⟩, rfl⟩)
    · exact .inl h
    · exact .inr ⟨p, hp, rfl⟩
  · rintro (h | ⟨p, hp, rfl⟩)
    · exact .inl h
    · by_cases hk : p.1 = key
      · exact .inl hk
      · exact .inr ⟨p, ⟨hp, by simpa using hk⟩, rfl⟩

/-- **A key stays unique.** -/
theorem nodup_insert (h : params.keys.Nodup) : (params.insert key value).keys.Nodup := by
  simp only [keys, insert, List.map_cons, List.nodup_cons, List.mem_map, List.mem_filter]
  refine ⟨?_, ?_⟩
  · rintro ⟨p, ⟨-, hp⟩, rfl⟩
    simp at hp
  · exact h.sublist (List.filter_sublist.map Prod.fst)

end PathParams

/-! ## Matching -/

/-- **A path is for a pattern**: it has as many segments, the same ones
wherever the pattern's is not in braces. -/
structure Fits (patterns actuals : List String) : Prop where
  length : patterns.length = actuals.length
  literal : ∀ (i : ℕ) (s v : String), patterns[i]? = some s → actuals[i]? = some v →
    (∀ name, s ≠ braced name) → s = v

/-- The segment at the last position that carries a name. -/
def LastAt (patterns actuals : List String) (name v : String) : Prop :=
  ∃ i : ℕ, patterns[i]? = some (braced name) ∧ actuals[i]? = some v ∧
    ∀ j : ℕ, i < j → patterns[j]? ≠ some (braced name)

/-- No name is carried twice. -/
def DistinctNames (patterns : List String) : Prop :=
  ∀ (i j : ℕ) (name : String), patterns[i]? = some (braced name) →
    patterns[j]? = some (braced name) → i = j

/-- A segment of the pattern with the parameters filled in. -/
def PathParams.fill (params : PathParams) : Segment → Option String
  | .literal text => some text
  | .param name => params.get name

/-- The pattern with the parameters filled in. -/
def PathPattern.substitute (pattern : PathPattern) (params : PathParams) : Option (List String) :=
  pattern.segments.mapM params.fill

section Matching

variable {patterns actuals : List String} {s a v name : String} {params result : PathParams}

theorem fits_nil : Fits [] [] := ⟨rfl, by simp⟩

theorem fits_cons : Fits (s :: patterns) (a :: actuals) ↔
    ((∀ name, s ≠ braced name) → s = a) ∧ Fits patterns actuals := by
  constructor
  · rintro ⟨hlen, hlit⟩
    exact ⟨hlit 0 s a rfl rfl, by simpa using hlen,
      fun i t v ht hv => hlit (i + 1) t v (by simpa using ht) (by simpa using hv)⟩
  · rintro ⟨hhead, hlen, hlit⟩
    refine ⟨by simpa using hlen, ?_⟩
    rintro (_ | i) t v ht hv hne
    · obtain rfl : s = t := by simpa using ht
      obtain rfl : a = v := by simpa using hv
      exact hhead hne
    · exact hlit i t v (by simpa using ht) (by simpa using hv) hne

theorem lastAt_cons : LastAt (s :: patterns) (a :: actuals) name v ↔
    LastAt patterns actuals name v ∨ s = braced name ∧ a = v ∧ braced name ∉ patterns := by
  constructor
  · rintro ⟨_ | i, hs, hv, hlast⟩
    · refine .inr ⟨by simpa using hs, by simpa using hv, fun hmem => ?_⟩
      obtain ⟨j, hj⟩ := List.mem_iff_getElem?.mp hmem
      exact hlast (j + 1) (by omega) (by simpa using hj)
    · exact .inl ⟨i, by simpa using hs, by simpa using hv,
        fun j hj => by simpa using hlast (j + 1) (by omega)⟩
  · rintro (⟨i, hs, hv, hlast⟩ | ⟨rfl, rfl, hnone⟩)
    · refine ⟨i + 1, by simpa using hs, by simpa using hv, ?_⟩
      rintro (_ | j) hj
      · omega
      · simpa using hlast j (by omega)
    · refine ⟨0, rfl, rfl, ?_⟩
      rintro (_ | j) hj hcarries
      · omega
      · exact hnone (List.mem_of_getElem? (by simpa using hcarries))

/-- A name some position carries has a last one. -/
theorem exists_lastAt (hlen : patterns.length = actuals.length) (h : braced name ∈ patterns) :
    ∃ v, LastAt patterns actuals name v := by
  induction patterns generalizing actuals with
  | nil => simp at h
  | cons s patterns ih =>
    cases actuals with
    | nil => simp at hlen
    | cons a actuals =>
      by_cases hrest : braced name ∈ patterns
      · obtain ⟨v, hv⟩ := ih (by simpa using hlen) hrest
        exact ⟨v, lastAt_cons.mpr (.inl hv)⟩
      · obtain h | h := List.mem_cons.mp h
        · exact ⟨a, lastAt_cons.mpr (.inr ⟨h.symm, rfl, hrest⟩)⟩
        · exact absurd h hrest

theorem LastAt.mem (h : LastAt patterns actuals name v) : braced name ∈ patterns ∧ v ∈ actuals := by
  obtain ⟨i, hs, hv, -⟩ := h
  exact ⟨List.mem_of_getElem? hs, List.mem_of_getElem? hv⟩

/-- **The loop goes through exactly the paths that fit.** -/
theorem isSome_matchSegments (hlen : patterns.length = actuals.length) :
    (PathPattern.matchSegments (patterns.map Segment.parse) actuals params).isSome ↔
      Fits patterns actuals := by
  induction patterns generalizing actuals params with
  | nil =>
    obtain rfl : actuals = [] := by simpa using hlen.symm
    simp [PathPattern.matchSegments, fits_nil]
  | cons s patterns ih =>
    cases actuals with
    | nil => simp at hlen
    | cons a actuals =>
      have hrest : patterns.length = actuals.length := by simpa using hlen
      rw [fits_cons, List.map_cons]
      cases hs : Segment.parse s with
      | literal text =>
        obtain ⟨rfl, hne⟩ := Segment.parse_eq_literal.mp hs
        rw [PathPattern.matchSegments]
        by_cases heq : s = a
        · rw [if_pos heq, ih hrest]
          exact ⟨fun h => ⟨fun _ => heq, h⟩, fun h => h.2⟩
        · rw [if_neg heq]
          exact ⟨fun h => by simp at h, fun h => absurd (h.1 hne) heq⟩
      | param name =>
        rw [PathPattern.matchSegments, ih hrest]
        exact ⟨fun h => ⟨fun hne => absurd (Segment.parse_eq_param.mp hs) (hne name), h⟩,
          fun h => h.2⟩

/-- What the loop adds to the parameters it began with. -/
structure Collected (patterns actuals : List String) (params result : PathParams) : Prop where
  nodup : params.keys.Nodup → result.keys.Nodup
  keys : ∀ name, name ∈ result.keys ↔ braced name ∈ patterns ∨ name ∈ params.keys
  get : ∀ name v, result.get name = some v ↔
    LastAt patterns actuals name v ∨ braced name ∉ patterns ∧ params.get name = some v

/-- A literal segment adds nothing. -/
theorem Collected.literal (hne : ∀ name, s ≠ braced name)
    (h : Collected patterns actuals params result) :
    Collected (s :: patterns) (a :: actuals) params result := by
  have hmem : ∀ name, braced name ∈ s :: patterns ↔ braced name ∈ patterns := fun name => by
    rw [List.mem_cons, or_iff_right (Ne.symm (hne name))]
  refine ⟨h.nodup, fun name => by rw [hmem, h.keys], fun name v => ?_⟩
  rw [lastAt_cons, hmem, h.get]
  exact or_congr_left (by simp [hne name])

/-- A parameter is the one of its name, unless a later segment carries it too. -/
theorem Collected.param (h : Collected patterns actuals (params.insert name a) result) :
    Collected (braced name :: patterns) (a :: actuals) params result := by
  refine ⟨fun hnd => h.nodup (PathParams.nodup_insert hnd), fun other => ?_, fun other v => ?_⟩
  · rw [h.keys, PathParams.mem_keys_insert, List.mem_cons]
    have hsame : braced other = braced name ↔ other = name := ⟨braced_inj, congrArg _⟩
    rw [hsame]
    tauto
  · rw [h.get, PathParams.get_insert, lastAt_cons, List.mem_cons]
    by_cases heq : name = other
    · subst heq
      simp only [if_true, true_or, not_true, false_and, or_false, true_and, Option.some.injEq]
      tauto
    · have hne : braced name ≠ braced other := fun hb => heq (braced_inj hb)
      simp only [if_neg heq, hne, Ne.symm hne, false_or, false_and, or_false]

/-- **The loop collects the parameters at their last positions.** -/
theorem matchSegments_collected (hlen : patterns.length = actuals.length)
    (h : PathPattern.matchSegments (patterns.map Segment.parse) actuals params = some result) :
    Collected patterns actuals params result := by
  induction patterns generalizing actuals params with
  | nil =>
    obtain rfl : actuals = [] := by simpa using hlen.symm
    obtain rfl : params = result := by simpa [PathPattern.matchSegments] using h
    exact ⟨id, fun name => by simp, fun name v => by simp [LastAt]⟩
  | cons s patterns ih =>
    cases actuals with
    | nil => simp at hlen
    | cons a actuals =>
      have hrest : patterns.length = actuals.length := by simpa using hlen
      rw [List.map_cons] at h
      cases hs : Segment.parse s with
      | literal text =>
        rw [hs, PathPattern.matchSegments, Option.ite_none_right_eq_some] at h
        exact (ih hrest h.2).literal (Segment.parse_eq_literal.mp hs).2
      | param name =>
        rw [hs, PathPattern.matchSegments] at h
        rw [Segment.parse_eq_param.mp hs]
        exact (ih hrest h).param

/-- Filling in segment by segment. -/
theorem mapM_eq_some {α β : Type*} {f : α → Option β} {xs : List α} {ys : List β}
    (hlen : xs.length = ys.length)
    (h : ∀ (i : ℕ) x y, xs[i]? = some x → ys[i]? = some y → f x = some y) : xs.mapM f = some ys := by
  induction xs generalizing ys with
  | nil =>
    obtain rfl : ys = [] := by simpa using hlen.symm
    rfl
  | cons x xs ih =>
    cases ys with
    | nil => simp at hlen
    | cons y ys =>
      have htail := ih (by simpa using hlen)
        fun i x' y' hx hy => h (i + 1) x' y' (by simpa using hx) (by simpa using hy)
      rw [List.mapM_cons, h 0 x y rfl rfl, htail]
      rfl

/-- **What the map of a path holds**, over the segments of the pattern and of the path. -/
structure PathParams.Binds (params : PathParams) (patterns actuals : List String) : Prop where
  nodup : params.keys.Nodup
  keys : ∀ name, name ∈ params.keys ↔ braced name ∈ patterns
  get : ∀ name v, params.get name = some v ↔ LastAt patterns actuals name v
  bound : ∀ name ∈ params.keys, ∃ v, params.get name = some v ∧ v ≠ "" ∧ '/' ∉ v.toList

/-- The loop's map, where the segments of the path are segments. -/
theorem binds_of_collected (h : Collected patterns actuals [] params)
    (hfits : Fits patterns actuals) (hseg : ∀ v ∈ actuals, v ≠ "" ∧ '/' ∉ v.toList) :
    params.Binds patterns actuals := by
  have hget : ∀ name v, params.get name = some v ↔ LastAt patterns actuals name v := by
    intro name v
    rw [h.get, or_iff_left]
    rintro ⟨-, hnone⟩
    simp [PathParams.get] at hnone
  have hkeys : ∀ name, name ∈ params.keys ↔ braced name ∈ patterns := fun name => by
    rw [h.keys, or_iff_left (by simp [PathParams.keys])]
  refine ⟨h.nodup List.nodup_nil, hkeys, hget, fun name hname => ?_⟩
  obtain ⟨v, hlast⟩ := exists_lastAt hfits.length ((hkeys name).mp hname)
  exact ⟨v, (hget name v).mpr hlast, hseg v hlast.mem.2⟩

/-- **The map filled into the pattern gives the path back**, where no name is carried twice. -/
theorem PathParams.Binds.fill (h : params.Binds patterns actuals) (hfits : Fits patterns actuals)
    (hdistinct : DistinctNames patterns) :
    (patterns.map Segment.parse).mapM params.fill = some actuals := by
  refine mapM_eq_some (by simpa using hfits.length) fun i segment v hsegment hv => ?_
  rw [List.getElem?_map, Option.map_eq_some_iff] at hsegment
  obtain ⟨s, hs, rfl⟩ := hsegment
  cases hparse : Segment.parse s with
  | literal text =>
    obtain ⟨rfl, hne⟩ := Segment.parse_eq_literal.mp hparse
    rw [PathParams.fill, hfits.literal i s v hs hv hne]
  | param name =>
    obtain rfl := Segment.parse_eq_param.mp hparse
    refine (h.get name v).mpr ⟨i, hs, hv, fun j hj hcarries => ?_⟩
    have := hdistinct i j name hs hcarries
    omega

end Matching

namespace PathPattern

variable {pattern path : String} {params : PathParams}

theorem matches_eq (pattern path : String) : (parse pattern).matches path =
    if (pathSegments path).length ≠ (segmentsOf pattern).length then none
    else matchSegments ((segmentsOf pattern).map Segment.parse) (pathSegments path) [] := by
  simp only [«matches», parse, List.length_map]

/-- **Matching is complete and exact.** -/
theorem isSome_matches : ((parse pattern).matches path).isSome ↔
    Fits (segmentsOf pattern) (pathSegments path) := by
  rw [matches_eq]
  by_cases hlen : (segmentsOf pattern).length = (pathSegments path).length
  · rw [if_neg (by simpa using hlen.symm), isSome_matchSegments hlen]
  · rw [if_pos (Ne.symm hlen)]
    exact ⟨fun h => by simp at h, fun h => absurd h.length hlen⟩

/-- **The map of a match.** -/
theorem binds_of_matches (h : (parse pattern).matches path = some params) :
    params.Binds (segmentsOf pattern) (pathSegments path) := by
  have hfits : Fits (segmentsOf pattern) (pathSegments path) :=
    isSome_matches.mp (Option.isSome_of_mem h)
  rw [matches_eq, if_neg (by simpa using hfits.length.symm)] at h
  exact binds_of_collected (matchSegments_collected hfits.length h) hfits
    fun v hv => segment_of_mem hv

example : (parse "/drivers/\x7bdriver\x7d").matches "/drivers/kerong?x=/y" =
    some [("driver", "kerong")] := by decide +kernel
example : (parse "/").matches "" = some [] := by decide +kernel

/-- A path is matched by its segments. -/
theorem matches_congr_path (p : PathPattern) {path path' : String}
    (h : pathSegments path = pathSegments path') : p.matches path = p.matches path' := by
  unfold «matches»
  rw [h]

/-- A pattern matches by its segments. -/
theorem matches_congr_pattern {pattern pattern' : String}
    (h : segmentsOf pattern = segmentsOf pattern') (path : String) :
    (parse pattern).matches path = (parse pattern').matches path := by
  rw [matches_eq, matches_eq, h]

/-- **Which paths a pattern is for, and what it makes of them.** -/
structure Exact (pattern path : String) : Prop where
  isSome : ((parse pattern).matches path).isSome ↔ Fits (segmentsOf pattern) (pathSegments path)
  binds : ∀ params, (parse pattern).matches path = some params →
    params.Binds (segmentsOf pattern) (pathSegments path)
  substitute : ∀ params, (parse pattern).matches path = some params →
    DistinctNames (segmentsOf pattern) → (parse pattern).substitute params = some (pathSegments path)
  query : ∀ query, (parse pattern).matches (path ++ ("?" ++ query)) = (parse pattern).matches path
  leading : (parse pattern).matches ("/" ++ path) = (parse pattern).matches path
  trailing : (parse pattern).matches (path ++ "/") = (parse pattern).matches path
  doubled : ∀ a b, path = a ++ "/" ++ b →
    (parse pattern).matches (a ++ "//" ++ b) = (parse pattern).matches path
  /-- And the same for the slashes of the pattern. -/
  patternLeading : (parse ("/" ++ pattern)).matches path = (parse pattern).matches path
  patternTrailing : (parse (pattern ++ "/")).matches path = (parse pattern).matches path
  patternDoubled : ∀ a b, pattern = a ++ "/" ++ b →
    (parse (a ++ "//" ++ b)).matches path = (parse pattern).matches path

/-- **Every pattern is exact on every path.** -/
theorem exact_of_path (pattern path : String) : Exact pattern path where
  isSome := isSome_matches
  binds _ h := binds_of_matches h
  substitute _ h hdistinct :=
    (binds_of_matches h).fill (isSome_matches.mp (Option.isSome_of_mem h)) hdistinct
  query query := matches_congr_path _ (pathSegments_query path query)
  leading := matches_congr_path _ (pathSegments_leading path)
  trailing := matches_congr_path _ (pathSegments_trailing path)
  doubled a b h := by
    subst h
    exact matches_congr_path _ (pathSegments_doubled a b)
  patternLeading := matches_congr_pattern (segmentsOf_leading pattern) path
  patternTrailing := matches_congr_pattern (segmentsOf_trailing pattern) path
  patternDoubled a b h := by
    subst h
    exact matches_congr_pattern (segmentsOf_doubled a b) path

end PathPattern

end Vcmp
