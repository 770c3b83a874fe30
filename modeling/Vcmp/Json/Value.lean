import Mathlib.Algebra.Group.Int.Defs
import Mathlib.Algebra.Group.Nat.Defs
import Mathlib.Data.List.Basic
import Mathlib.Data.Nat.Notation
import Mathlib.Data.Int.Notation
/-!
# JSON documents

A document keeps what the text says: an object lists its members in the
order they stand in, a repeated key included. The last of the members
with one key is the one that counts, and removing a key removes them
all, as for a map filled from left to right.

`JsonText` is the library between documents and texts, with what is
assumed of it. A text is read member by member, so a repeated key survives
it, and the numbers of a document are those the library holds, integers of
64 bits and finite doubles. `serde_json` reads them back as they were
written but for the last digit of some doubles, and documents but for those
nested deeper than it reads. `Json/Codec.lean` gives one that reads all.
-/

namespace Vcmp

/-- An integer a JSON number is read as exactly: one of `i64` or `u64`. -/
structure JsonInteger where
  val : ℤ
  lower : -2 ^ 63 ≤ val
  upper : val < 2 ^ 64
  deriving DecidableEq, Repr

/-- A finite `f64`, `mantissa * 2 ^ (exponent - 1074)` with its sign: the
mantissa has 53 bits, and its first one is set but for the smallest exponent. -/
structure JsonFloat where
  negative : Bool
  mantissa : ℕ
  exponent : ℕ
  bits : mantissa < 2 ^ 53
  finite : exponent ≤ 2045
  normal : exponent = 0 ∨ 2 ^ 52 ≤ mantissa
  deriving DecidableEq, Repr

/-- **A JSON document.** -/
inductive Json where
  | null
  | bool (b : Bool)
  | int (n : JsonInteger)
  /-- Any other number. -/
  | float (x : JsonFloat)
  | str (s : String)
  | arr (items : List Json)
  | obj (members : List (String × Json))

namespace Json

/-- `Value::get` with a key. -/
def get? (j : Json) (key : String) : Option Json :=
  match j with
  | .obj members => (members.reverse.find? (·.1 = key)).map Prod.snd
  | _ => none

/-- `Value::as_str`. -/
def asStr : Json → Option String
  | .str s => some s
  | _ => none

/-- The members without those of a key. -/
def removeMember (members : List (String × Json)) (key : String) : List (String × Json) :=
  members.filter (·.1 ≠ key)

/-- `Map::remove`, on an object; other documents have no members. -/
def remove (j : Json) (key : String) : Json :=
  match j with
  | .obj members => .obj (removeMember members key)
  | j => j

/-- `Map::insert`: the member replaces the one of its key. -/
def insertMember (members : List (String × Json)) (member : String × Json) :
    List (String × Json) :=
  removeMember members member.1 ++ [member]

theorem removeMember_of_fresh {members : List (String × Json)} {key : String}
    (h : ∀ m ∈ members, m.1 ≠ key) : removeMember members key = members := by
  refine List.filter_eq_self.mpr ?_
  intro m hm
  simpa using h m hm

/-- A key set in front of members that do not have it is the one found. -/
theorem get?_obj_cons_of_fresh {members : List (String × Json)} {key : String} {value : Json}
    (h : ∀ m ∈ members, m.1 ≠ key) : (obj ((key, value) :: members)).get? key = some value := by
  have hnone : members.reverse.find? (·.1 = key) = none := by
    refine List.find?_eq_none.mpr ?_
    intro m hm
    simpa using h m (List.mem_reverse.mp hm)
  simp [get?, hnone]

/-- **Tagging and untagging cancel**, on members without the tag. -/
theorem remove_obj_cons_of_fresh {members : List (String × Json)} {key : String} {value : Json}
    (h : ∀ m ∈ members, m.1 ≠ key) :
    (obj ((key, value) :: members)).remove key = obj members := by
  have hrest := removeMember_of_fresh h
  simp only [remove, removeMember, obj.injEq] at hrest ⊢
  rw [List.filter_cons_of_neg (by simp), hrest]

end Json

/-- **A JSON library**: how documents are written and texts are read. -/
structure JsonText where
  /-- The text of a document. -/
  toText : Json → String
  /-- The document of a text, if it is one. -/
  ofText : String → Option Json
  /-- A document survives its text: members in their order, and numbers as they are held. -/
  round_trip : ∀ j, ofText (toText j) = some j
  /-- The one text of nothing. -/
  null_text : toText .null = "null"
  /-- No document is the empty text. -/
  empty : ofText "" = none

namespace JsonText

variable (J : JsonText)

theorem toText_injective {j k : Json} (h : J.toText j = J.toText k) : j = k := by
  have hj := J.round_trip j
  rw [h, J.round_trip] at hj
  exact (Option.some.inj hj).symm

theorem toText_ne_empty (j : Json) : J.toText j ≠ "" := by
  intro h
  have hj := J.round_trip j
  rw [h, J.empty] at hj
  exact absurd hj (by simp)

/-- **`null` is the one document whose text is `null`.** -/
theorem toText_eq_null {j : Json} : J.toText j = "null" ↔ j = .null := by
  constructor
  · intro h
    exact J.toText_injective (h.trans J.null_text.symm)
  · rintro rfl; exact J.null_text

end JsonText

end Vcmp
