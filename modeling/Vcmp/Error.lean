import Vcmp.Json.Value
import Mathlib.Data.UInt
/-!
# Errors and problem details

Every fallible operation reports a problem detail and, beside it, where
the error comes from. Only the detail is written to the wire, so the
origin is lost there: what comes back is an error of no known origin.

A problem detail is read member by member. A declared member must have
its type and may stand at most once, `null` and a missing member are the
default, and every other member is kept.
-/

namespace Vcmp

/-- The problem detail carried by a `NAK`. -/
structure ProblemDetail where
  title : String
  status : UInt16
  type_ : Option String
  instance_ : Option String
  detail : Option String
  /-- Any additional members. -/
  extra : List (String × Json)

namespace ProblemDetail

/-- `ProblemDetail::new`. -/
def new (status : UInt16) (title : String) : ProblemDetail :=
  ⟨title, status, none, none, none, []⟩

/-- `ProblemDetail::with_detail`. -/
def withDetail (p : ProblemDetail) (detail : String) : ProblemDetail :=
  { p with detail := some detail }

/-- `ProblemDetail::with_type`. -/
def withType (p : ProblemDetail) (type_ : String) : ProblemDetail :=
  { p with type_ := some type_ }

/-- `ProblemDetail::with_instance`. -/
def withInstance (p : ProblemDetail) (instance_ : String) : ProblemDetail :=
  { p with instance_ := some instance_ }

/-- `ProblemDetail::with_extra`. -/
def withExtra (p : ProblemDetail) (key : String) (value : Json) : ProblemDetail :=
  { p with extra := Json.insertMember p.extra (key, value) }

/-- `default_status`. -/
def defaultStatus : UInt16 := 500

/-- A status as a JSON number. -/
def statusJson (status : UInt16) : Json :=
  .int ⟨status.toNat, by omega, by have := status.toNat_lt; omega⟩

/-- The members in the order they are written, absent ones left out. -/
def members (p : ProblemDetail) : List (String × Json) :=
  [("title", .str p.title), ("status", statusJson p.status)] ++
    (p.type_.map fun s => ("type", Json.str s)).toList ++
    (p.instance_.map fun s => ("instance", Json.str s)).toList ++
    (p.detail.map fun s => ("detail", Json.str s)).toList ++ p.extra

/-- The document a problem detail is written as. -/
def toJson (p : ProblemDetail) : Json := .obj p.members

/-- The keys of the declared members. -/
def declared : List String := ["title", "status", "type", "instance", "detail"]

/-- `null_to_default`, with the default of a missing member. -/
def readTitle : Option Json → Option String
  | none | some .null => some ""
  | some (.str s) => some s
  | some _ => none

/-- `null_to_status`, with the default of a missing member. -/
def readStatus : Option Json → Option UInt16
  | none | some .null => some defaultStatus
  | some (.int n) =>
    if 0 ≤ n.val ∧ n.val < 65536 then some (UInt16.ofNat n.val.toNat) else none
  | some _ => none

/-- An optional text. -/
def readText : Option Json → Option (Option String)
  | none | some .null => some none
  | some (.str s) => some (some s)
  | some _ => none

/-- The members that are not declared, as a map is filled with them. -/
def readExtra (members : List (String × Json)) : List (String × Json) :=
  (members.filter (·.1 ∉ declared)).foldl Json.insertMember []

/-- The problem detail a document is read as. -/
def ofJson : Json → Option ProblemDetail
  | .obj members =>
    let value (key : String) : Option Json := (members.find? (·.1 = key)).map Prod.snd
    if declared.all fun key => members.countP (·.1 = key) ≤ 1 then
      match readTitle (value "title"), readStatus (value "status"), readText (value "type"),
        readText (value "instance"), readText (value "detail") with
      | some title, some status, some type_, some instance_, some detail =>
        some ⟨title, status, type_, instance_, detail, readExtra members⟩
      | _, _, _, _, _ => none
    else none
  | _ => none

end ProblemDetail

/-- Where an error comes from. -/
inductive ErrorKind where
  | other
  | localTransport
  | peerNak
  deriving DecidableEq, Repr

/-- The error of every fallible operation. -/
structure VcmpError where
  problem : ProblemDetail
  kind : ErrorKind

namespace VcmpError

/-- `VcmpError::from(ProblemDetail)`. -/
def ofProblem (problem : ProblemDetail) : VcmpError := ⟨problem, .other⟩

/-- `VcmpError::new`. -/
def new (status : UInt16) (title : String) : VcmpError := ofProblem (.new status title)

/-- `VcmpError::bad_request`. -/
def badRequest (title : String) : VcmpError := new 400 title

/-- `VcmpError::internal`. -/
def internal (title : String) : VcmpError := new 500 title

/-- `VcmpError::with_detail`. -/
def withDetail (error : VcmpError) (detail : String) : VcmpError :=
  { error with problem := { error.problem with detail := some detail } }

/-- `VcmpError::status`. -/
def status (error : VcmpError) : UInt16 := error.problem.status

/-- `VcmpError::is_transport`. -/
def isTransport (error : VcmpError) : Bool := error.kind == .localTransport

/-- `VcmpError::transport`. -/
def transport (status : UInt16) (title : String) : VcmpError :=
  { new status title with kind := .localTransport }

/-- `VcmpError::into_peer_error`. -/
def intoPeerError (error : VcmpError) : VcmpError := { error with kind := .peerNak }

/-- `VcmpError::session_not_open`. -/
def sessionNotOpen (detail : String) : VcmpError :=
  (transport 503 "Session not open").withDetail detail

/-- `VcmpError::session_closed`. -/
def sessionClosed (detail : String) : VcmpError :=
  (transport 503 "Session closed").withDetail detail

/-- `VcmpError::transport_overloaded`. -/
def transportOverloaded : VcmpError := transport 503 "Transport overloaded"

/-- `VcmpError::acknowledgement_timeout`. -/
def acknowledgementTimeout : VcmpError :=
  (transport 504 "Acknowledgement timed out").withDetail
    "Delivery or mutation outcome is unknown; do not automatically replay."

/-- `VcmpError::not_connected`. -/
def notConnected (detail : String) : VcmpError :=
  (transport 503 "Not connected").withDetail detail

/-- `VcmpError::clone`: the source is dropped, the origin kept. -/
def clone (error : VcmpError) : VcmpError := { problem := error.problem, kind := error.kind }

/-- The error a document is read as: never of local origin. -/
def ofJson (j : Json) : Option VcmpError := (ProblemDetail.ofJson j).map ofProblem

/-- The document an error is written as. -/
def toJson (error : VcmpError) : Json := error.problem.toJson

end VcmpError

/-! ## Errors of any type -/

/-- An error of any type, as the conversions see it. -/
inductive AnyError where
  | vcmp (error : VcmpError)
  /-- Another type, by its name and the message it displays. -/
  | other (typeName message : String)

namespace AnyError

/-- A reversed path up to its last `::`. -/
def lastSegment : List Char → List Char
  | ':' :: ':' :: _ => []
  | c :: cs => c :: lastSegment cs
  | [] => []

/-- `short_type_name`: without generic arguments, the last path segment. -/
def shortTypeName (name : String) : String :=
  String.ofList (lastSegment (name.toList.takeWhile (· ≠ '<')).reverse).reverse

example : shortTypeName "std::option::Option<alloc::string::String>" = "Option" := by decide

/-- `VcmpError::from_error`. -/
def fromError : AnyError → VcmpError
  | .vcmp error => error
  | .other typeName message => (VcmpError.internal (shortTypeName typeName)).withDetail message

/-- `VcmpError::from(Box<dyn Error>)`. -/
def unbox : AnyError → VcmpError
  | .vcmp error => error
  | .other _ message => .ofProblem ((ProblemDetail.new 500 "Error").withDetail message)

/-- What the error displays. -/
def message : AnyError → String
  | .vcmp error =>
    let text := error.problem.title ++ " (" ++ toString error.problem.status.toNat ++ ")"
    match error.problem.detail with
    | some detail => text ++ ": " ++ detail
    | none => text
  | .other _ message => message

/-- `ResultExt::or_problem`. -/
def orProblem (error : AnyError) (status : UInt16) (title : String) : VcmpError :=
  (VcmpError.new status title).withDetail error.message

end AnyError

end Vcmp
