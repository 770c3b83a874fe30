import Vcmp.Session.Payload
import Vcmp.Wire.Grammar
import Vcmp.Json.Codec
/-!
# Problem details on the wire

Written, a problem detail is one object: the declared members, absent
ones left out, then the additional members. Read, every member with a
declared key is taken for the declared member and a second one is an
error. So a problem detail survives exactly where no additional member
has a declared key, which `with_extra` does not ask for.
-/

namespace Vcmp

namespace Json

/-- **One value for a key**, as in a map. The order of the members is the
one the map is walked in. -/
def IsMap (members : List (String × Json)) : Prop := (members.map Prod.fst).Nodup

theorem isMap_insertMember {members : List (String × Json)} {member : String × Json}
    (h : IsMap members) : IsMap (insertMember members member) := by
  have hrest : ((removeMember members member.1).map Prod.fst).Sublist (members.map Prod.fst) :=
    List.filter_sublist.map Prod.fst
  have hfresh : member.1 ∉ (removeMember members member.1).map Prod.fst := by
    simp [removeMember]
  simp only [IsMap, insertMember, List.map_append, List.map_cons, List.map_nil]
  refine List.nodup_append.mpr ⟨h.sublist hrest, by simp, ?_⟩
  intro a ha b hb
  rw [List.mem_singleton.mp hb]
  rintro rfl
  exact hfresh ha

/-- Filling a map with the members of one gives it back, in its order. -/
theorem foldl_insertMember {acc members : List (String × Json)} (h : IsMap (acc ++ members)) :
    members.foldl insertMember acc = acc ++ members := by
  induction members generalizing acc with
  | nil => simp
  | cons m ms ih =>
    have hfresh : ∀ a ∈ acc, a.1 ≠ m.1 := by
      intro a ha heq
      rw [IsMap, List.map_append, List.nodup_append] at h
      exact h.2.2 _ (List.mem_map_of_mem ha) _ (List.mem_map_of_mem List.mem_cons_self) heq
    have hinsert : insertMember acc m = acc ++ [m] := by
      rw [insertMember, removeMember_of_fresh hfresh]
    rw [List.foldl_cons, hinsert, ih (by simpa using h), List.append_assoc, List.singleton_append]

/-- What a map is filled with is where its members come from. -/
theorem mem_of_mem_foldl {acc members : List (String × Json)} {m : String × Json}
    (h : m ∈ members.foldl insertMember acc) : m ∈ acc ∨ m ∈ members := by
  induction members generalizing acc with
  | nil => exact .inl h
  | cons n ns ih =>
    rcases ih h with hacc | hns
    · rw [insertMember, List.mem_append, List.mem_singleton] at hacc
      rcases hacc with hacc | rfl
      · exact .inl (List.mem_filter.mp hacc).1
      · exact .inr List.mem_cons_self
    · exact .inr (List.mem_cons_of_mem _ hns)

end Json

namespace ProblemDetail

/-- **What the constructor and the builders make.** -/
inductive Built : ProblemDetail → Prop where
  | new (status : UInt16) (title : String) : Built (.new status title)
  | withDetail {p : ProblemDetail} (detail : String) (h : Built p) : Built (p.withDetail detail)
  | withType {p : ProblemDetail} (type_ : String) (h : Built p) : Built (p.withType type_)
  | withInstance {p : ProblemDetail} (instance_ : String) (h : Built p) :
      Built (p.withInstance instance_)
  | withExtra {p : ProblemDetail} (key : String) (value : Json) (h : Built p) :
      Built (p.withExtra key value)

/-- The builders keep the additional members a map. -/
theorem Built.isMap {p : ProblemDetail} (h : Built p) : Json.IsMap p.extra := by
  induction h with
  | new => exact List.nodup_nil
  | withDetail _ _ ih | withType _ _ ih | withInstance _ _ ih => exact ih
  | withExtra _ _ _ ih => exact Json.isMap_insertMember ih

/-- **No additional member has the key of a declared one.** -/
def Undeclared (p : ProblemDetail) : Prop := ∀ m ∈ p.extra, m.1 ∉ declared

/-! ## Reading what was written -/

/-- The declared members that are written. -/
def header (p : ProblemDetail) : List (String × Json) :=
  [("title", .str p.title), ("status", statusJson p.status)] ++
    (p.type_.map fun s => ("type", Json.str s)).toList ++
    (p.instance_.map fun s => ("instance", Json.str s)).toList ++
    (p.detail.map fun s => ("detail", Json.str s)).toList

theorem members_eq (p : ProblemDetail) : p.members = p.header ++ p.extra := rfl

/-- The keys of the header are declared ones, in their order. -/
theorem header_keys (p : ProblemDetail) : (p.header.map Prod.fst).Sublist declared := by
  have hoptional : ∀ (key : String) (o : Option String),
      ((o.map fun s => (key, Json.str s)).toList.map Prod.fst).Sublist [key] := by
    rintro key (- | s)
    · exact List.nil_sublist _
    · exact List.Sublist.refl _
  have hall := ((((List.Sublist.refl ["title", "status"]).append (hoptional "type" p.type_)).append
    (hoptional "instance" p.instance_)).append (hoptional "detail" p.detail))
  simp only [header, List.map_append]
  exact hall

theorem header_declared {p : ProblemDetail} {m : String × Json} (h : m ∈ p.header) :
    m.1 ∈ declared :=
  p.header_keys.subset (List.mem_map_of_mem h)

/-- No key stands in the header twice. -/
theorem countP_header (p : ProblemDetail) (key : String) : p.header.countP (·.1 = key) ≤ 1 := by
  have hnodup : (p.header.map Prod.fst).Nodup := p.header_keys.nodup (by decide)
  have hcount := List.nodup_iff_count_le_one.mp hnodup key
  rw [List.count, List.countP_map] at hcount
  exact hcount

/-- Behind the header, members that are not declared change no count. -/
theorem countP_members {p : ProblemDetail} (h : Undeclared p) {key : String}
    (hkey : key ∈ declared) : p.members.countP (·.1 = key) ≤ 1 := by
  have hextra : p.extra.countP (·.1 = key) = 0 := by
    rw [List.countP_eq_zero]
    intro m hm heq
    exact h m hm (of_decide_eq_true heq ▸ hkey)
  rw [members_eq, List.countP_append, hextra]
  exact countP_header p key

/-- A declared key is looked up in the header. -/
theorem find_members {p : ProblemDetail} (h : Undeclared p) {key : String}
    (hkey : key ∈ declared) : p.members.find? (·.1 = key) = p.header.find? (·.1 = key) := by
  have hextra : p.extra.find? (·.1 = key) = none := by
    rw [List.find?_eq_none]
    intro m hm heq
    exact h m hm (of_decide_eq_true heq ▸ hkey)
  rw [members_eq, List.find?_append, hextra, Option.or_none]

/-- What the header says for each declared key. -/
theorem find_header (p : ProblemDetail) :
    (p.header.find? (·.1 = "title")).map Prod.snd = some (.str p.title) ∧
      (p.header.find? (·.1 = "status")).map Prod.snd = some (statusJson p.status) ∧
      (p.header.find? (·.1 = "type")).map Prod.snd = p.type_.map .str ∧
      (p.header.find? (·.1 = "instance")).map Prod.snd = p.instance_.map .str ∧
      (p.header.find? (·.1 = "detail")).map Prod.snd = p.detail.map .str := by
  obtain ⟨title, status, type_, instance_, detail, extra⟩ := p
  rcases type_ with - | type_ <;> rcases instance_ with - | instance_ <;>
    rcases detail with - | detail <;> simp [header]

theorem readText_map (o : Option String) : readText (o.map .str) = some o := by
  rcases o with - | s <;> rfl

theorem readStatus_statusJson (status : UInt16) :
    readStatus (some (statusJson status)) = some status := by
  have hlt := status.toNat_lt
  simp only [readStatus, statusJson]
  rw [if_pos ⟨by omega, by omega⟩]
  simp

/-- What is read is what the header, and the map of the others, say. -/
theorem readExtra_members {p : ProblemDetail} (hmap : Json.IsMap p.extra) (h : Undeclared p) :
    readExtra p.members = p.extra := by
  have hheader : p.header.filter (·.1 ∉ declared) = [] := by
    rw [List.filter_eq_nil_iff]
    intro m hm hnot
    exact of_decide_eq_true hnot (header_declared hm)
  have hextra : p.extra.filter (·.1 ∉ declared) = p.extra := by
    rw [List.filter_eq_self]
    intro m hm
    exact decide_eq_true (h m hm)
  rw [readExtra, members_eq, List.filter_append, hheader, hextra, List.nil_append,
    Json.foldl_insertMember (by simpa using hmap), List.nil_append]

/-- **Without declared keys among the additional members, all is read
back.** -/
theorem ofJson_toJson {p : ProblemDetail} (hmap : Json.IsMap p.extra) (h : Undeclared p) :
    ofJson p.toJson = some p := by
  have hdeclared : declared.all (fun key => p.members.countP (·.1 = key) ≤ 1) = true := by
    rw [List.all_eq_true]
    intro key hkey
    exact decide_eq_true (countP_members h hkey)
  have hfind : ∀ key ∈ declared, p.members.find? (·.1 = key) = p.header.find? (·.1 = key) :=
    fun _ => find_members h
  obtain ⟨htitle, hstatus, htype, hinstance, hdetail⟩ := find_header p
  simp only [toJson, ofJson, hdeclared, if_true, hfind "title" (by decide),
    hfind "status" (by decide), hfind "type" (by decide), hfind "instance" (by decide),
    hfind "detail" (by decide), htitle, hstatus, htype, hinstance, hdetail,
    readStatus_statusJson, readText_map, readExtra_members hmap h]
  rfl

/-- What is read as an additional member has no declared key. -/
theorem undeclared_of_ofJson {j : Json} {p : ProblemDetail} (h : ofJson j = some p) :
    Undeclared p := by
  cases j with
  | obj members =>
    simp only [ofJson] at h
    split at h
    · split at h
      · cases h
        intro m hm
        rcases Json.mem_of_mem_foldl hm with hnil | hmem
        · cases hnil
        · exact of_decide_eq_true (List.mem_filter.mp hmem).2
      · cases h
    · cases h
  | _ => cases h

/-- **A problem detail is read back from what it is written as if and only
if no additional member has a declared key.** -/
theorem ofJson_toJson_iff {p : ProblemDetail} (hmap : Json.IsMap p.extra) :
    ofJson p.toJson = some p ↔ Undeclared p :=
  ⟨undeclared_of_ofJson, ofJson_toJson hmap⟩

end ProblemDetail

/-! ## The answer to a failed message -/

section

variable (J : JsonText)

/-- The problem a `NAK` is read as: the one of its document, if it is one. -/
theorem readNak_problem (j : Json) :
    (readNak J (Frame.normalize (some (J.toText j)))).problem =
      (ProblemDetail.ofJson j).getD ((VcmpError.internal "Message handling failed").withDetail
        "The NAK payload could not be parsed.").problem := by
  rw [Frame.normalize_of_ne (by simpa using J.toText_ne_empty j)]
  simp only [readNak, J.round_trip, Option.bind_some, VcmpError.ofJson, VcmpError.intoPeerError]
  rcases ProblemDetail.ofJson j with - | p <;> rfl

/-- A `NAK` carries the problem of a handler's error under the same
condition: the error in its place has no additional members. -/
theorem readNak_toJson_iff {error : VcmpError} (hmap : Json.IsMap error.problem.extra) :
    (readNak J (Frame.normalize (some (J.toText error.toJson)))).problem = error.problem ↔
      error.problem.Undeclared := by
  rw [readNak_problem, VcmpError.toJson]
  rcases hread : ProblemDetail.ofJson error.problem.toJson with - | p
  · have hno : ¬ error.problem.Undeclared := fun h => by
      rw [ProblemDetail.ofJson_toJson hmap h] at hread
      cases hread
    refine iff_of_false (fun heq => hno ?_) hno
    rw [← heq]
    rintro m ⟨⟩
  · rw [← ProblemDetail.ofJson_toJson_iff hmap, hread, Option.getD_some, Option.some.injEq]

/-- **Problem details survive the wire, if and only if no additional member
has a declared key**: as a text, and as the answer a failed message gets. -/
theorem problem_round_trip_iff {error : VcmpError} (hbuilt : error.problem.Built) {id : String}
    (hid : Frame.IsId id) :
    ((J.ofText (J.toText error.problem.toJson)).bind ProblemDetail.ofJson = some error.problem ↔
        error.problem.Undeclared) ∧
      ∃ payload, Frame.parse (nakFrame J id error).serialize = .ok (.nak id payload) ∧
        ((readNak J payload).problem = error.problem ↔ error.problem.Undeclared) := by
  refine ⟨?_, _, Frame.parse_mkNak hid _, readNak_toJson_iff J hbuilt.isMap⟩
  rw [J.round_trip, Option.bind_some]
  exact ProblemDetail.ofJson_toJson_iff hbuilt.isMap

end

/-- An answer with a retry hint is read back whole. -/
theorem problem_round_trip_retry :
    let error : VcmpError :=
      .ofProblem ((ProblemDetail.new 429 "Slow down").withExtra "retryAfter" (.str "5"))
    ∃ payload, Frame.parse (nakFrame compactJson "AAAAAAAAAAAA" error).serialize =
        .ok (.nak "AAAAAAAAAAAA" payload) ∧
      (readNak compactJson payload).problem = error.problem := by
  intro error
  have hid : Frame.IsId "AAAAAAAAAAAA" := ⟨by decide, by simp⟩
  have hundeclared : error.problem.Undeclared := by
    intro m hm
    rw [List.mem_singleton.mp hm]
    decide
  have hbuilt : error.problem.Built := .withExtra _ _ (.new 429 "Slow down")
  obtain ⟨-, payload, hparse, hiff⟩ := problem_round_trip_iff compactJson hbuilt hid
  exact ⟨payload, hparse, hiff.mpr hundeclared⟩

/-- An additional `title` is written as a second one, and reading fails. -/
theorem problem_round_trip_fails :
    ¬ ∀ p : ProblemDetail, p.Built →
      (compactJson.ofText (compactJson.toText p.toJson)).bind ProblemDetail.ofJson = some p := by
  intro h
  have hbuilt : ((ProblemDetail.new 500 "Error").withExtra "title" (.str "Other")).Built :=
    .withExtra _ _ (.new 500 "Error")
  have hread := h _ hbuilt
  rw [compactJson.round_trip, Option.bind_some,
    ProblemDetail.ofJson_toJson_iff hbuilt.isMap] at hread
  exact hread ("title", .str "Other") (by simp [ProblemDetail.withExtra, Json.insertMember])
    (by decide)

end Vcmp
