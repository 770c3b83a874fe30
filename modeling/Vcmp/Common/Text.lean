import Mathlib.Algebra.GroupWithZero.Nat
import Mathlib.Data.List.Basic
import Mathlib.Data.Nat.Notation
/-!
# Texts by byte offset

A text is a sequence of characters, but its length and every offset into
it count UTF-8 bytes. Cutting at an offset succeeds only on a character
boundary inside the text, and the numeral reader is the one of the
standard library: an optional plus sign, at least one decimal digit,
nothing else, and a value that fits.
-/

namespace Vcmp

/-- The number of UTF-8 bytes of a list of characters. -/
def byteSize (cs : List Char) : ℕ := (cs.map Char.utf8Size).sum

@[simp] theorem byteSize_nil : byteSize [] = 0 := rfl

@[simp] theorem byteSize_cons (c : Char) (cs : List Char) :
    byteSize (c :: cs) = c.utf8Size + byteSize cs := by
  simp [byteSize]

@[simp] theorem byteSize_append (cs ds : List Char) :
    byteSize (cs ++ ds) = byteSize cs + byteSize ds := by
  simp [byteSize]

theorem utf8ByteSize_ofList (cs : List Char) :
    (String.ofList cs).utf8ByteSize = byteSize cs := by
  induction cs with
  | nil => rfl
  | cons c cs ih =>
    have hsplit : String.ofList (c :: cs) = String.singleton c ++ String.ofList cs := by
      rw [← String.toList_inj]
      simp
    rw [hsplit, String.utf8ByteSize_append, String.utf8ByteSize_singleton, ih, byteSize_cons]

/-- **A text's length is the byte size of its characters.** -/
theorem utf8ByteSize_eq (s : String) : s.utf8ByteSize = byteSize s.toList := by
  rw [← utf8ByteSize_ofList, String.ofList_toList]

/-- An ASCII text has as many bytes as characters. -/
theorem byteSize_of_ascii {cs : List Char} (h : ∀ c ∈ cs, c.utf8Size = 1) :
    byteSize cs = cs.length := by
  induction cs with
  | nil => rfl
  | cons c cs ih =>
    rw [byteSize_cons, h c (by simp), ih fun d hd => h d (by simp [hd])]
    simp [Nat.add_comm]

/-! ## Cutting -/

/-- The text cut at a byte offset: `none` past the end or inside a
character, as for `str::get`. -/
def splitBytes : ℕ → List Char → Option (List Char × List Char)
  | 0, cs => some ([], cs)
  | _ + 1, [] => none
  | n + 1, c :: cs =>
    if c.utf8Size ≤ n + 1 then
      (splitBytes (n + 1 - c.utf8Size) cs).map fun p => (c :: p.1, p.2)
    else none

/-- **A cut restores the text, at the offset asked for.** -/
theorem splitBytes_eq_some {n : ℕ} {cs pre post : List Char}
    (h : splitBytes n cs = some (pre, post)) : cs = pre ++ post ∧ byteSize pre = n := by
  induction cs generalizing n pre with
  | nil =>
    cases n with
    | zero => simp only [splitBytes, Option.some.injEq, Prod.mk.injEq] at h; simp [← h.1, ← h.2]
    | succ n => simp [splitBytes] at h
  | cons c cs ih =>
    cases n with
    | zero => simp only [splitBytes, Option.some.injEq, Prod.mk.injEq] at h; simp [← h.1, ← h.2]
    | succ n =>
      simp only [splitBytes, Option.ite_none_right_eq_some, Option.map_eq_some_iff,
        Prod.mk.injEq] at h
      obtain ⟨hle, ⟨a, b⟩, hsplit, rfl, rfl⟩ := h
      obtain ⟨rfl, hsize⟩ := ih hsplit
      refine ⟨rfl, ?_⟩
      rw [byteSize_cons, hsize]
      omega

/-- **Cutting at the size of a prefix gives the prefix.** -/
@[simp] theorem splitBytes_append (pre post : List Char) :
    splitBytes (byteSize pre) (pre ++ post) = some (pre, post) := by
  induction pre with
  | nil => cases post <;> rfl
  | cons c cs ih =>
    obtain ⟨k, hk⟩ : ∃ k, c.utf8Size + byteSize cs = k + 1 :=
      ⟨c.utf8Size + byteSize cs - 1, by have := Char.utf8Size_pos c; omega⟩
    have hrest : k + 1 - c.utf8Size = byteSize cs := by omega
    have hle : c.utf8Size ≤ k + 1 := by omega
    rw [byteSize_cons, hk, List.cons_append, splitBytes, if_pos hle, hrest, ih]
    rfl

/-- **Cutting twice is cutting once, further on.** -/
theorem splitBytes_add (pre rest : List Char) (m : ℕ) :
    splitBytes (byteSize pre + m) (pre ++ rest) =
      (splitBytes m rest).map fun p => (pre ++ p.1, p.2) := by
  induction pre with
  | nil => simp
  | cons c cs ih =>
    have hpos := Char.utf8Size_pos c
    obtain ⟨k, hk⟩ : ∃ k, c.utf8Size + byteSize cs + m = k + 1 :=
      ⟨c.utf8Size + byteSize cs + m - 1, by omega⟩
    have hrest : k + 1 - c.utf8Size = byteSize cs + m := by omega
    have hle : c.utf8Size ≤ k + 1 := by omega
    rw [byteSize_cons, hk, List.cons_append, splitBytes, if_pos hle, hrest, ih, Option.map_map]
    rfl

/-! ## Bytes -/

/-- The UTF-8 bytes of a list of characters. -/
def utf8 (cs : List Char) : List UInt8 := cs.flatMap String.utf8EncodeChar

@[simp] theorem utf8_append (cs ds : List Char) : utf8 (cs ++ ds) = utf8 cs ++ utf8 ds := by
  simp [utf8]

@[simp] theorem length_utf8 (cs : List Char) : (utf8 cs).length = byteSize cs := by
  simp only [utf8, List.length_flatMap, String.length_utf8EncodeChar]
  rfl

/-- `str::is_char_boundary`. -/
def isCharBoundary (n : ℕ) (cs : List Char) : Bool := (splitBytes n cs).isSome

/-- **A boundary is where the text is in two parts.** -/
theorem isCharBoundary_iff {n : ℕ} {cs : List Char} :
    isCharBoundary n cs ↔ ∃ pre post, cs = pre ++ post ∧ byteSize pre = n := by
  constructor
  · intro h
    obtain ⟨⟨pre, post⟩, hsplit⟩ := Option.isSome_iff_exists.mp h
    exact ⟨pre, post, splitBytes_eq_some hsplit⟩
  · rintro ⟨pre, post, rfl, rfl⟩
    simp [isCharBoundary]

@[simp] theorem isCharBoundary_zero (cs : List Char) : isCharBoundary 0 cs = true :=
  isCharBoundary_iff.mpr ⟨[], cs, rfl, rfl⟩

@[simp] theorem isCharBoundary_byteSize (cs : List Char) : isCharBoundary (byteSize cs) cs = true :=
  isCharBoundary_iff.mpr ⟨cs, [], by simp, rfl⟩

/-- **Between two boundaries stand whole characters.** -/
theorem slice_utf8 {m n : ℕ} {cs : List Char} (hm : isCharBoundary m cs) (hn : isCharBoundary n cs)
    (hle : m ≤ n) : ∃ part, ((utf8 cs).take n).drop m = utf8 part := by
  obtain ⟨pre, post, rfl, rfl⟩ := isCharBoundary_iff.mp hm
  obtain ⟨k, rfl⟩ := Nat.exists_eq_add_of_le hle
  rw [isCharBoundary, splitBytes_add, Option.isSome_map] at hn
  obtain ⟨⟨part, rest⟩, hsplit⟩ := Option.isSome_iff_exists.mp hn
  obtain ⟨rfl, rfl⟩ := splitBytes_eq_some hsplit
  refine ⟨part, ?_⟩
  rw [← List.append_assoc, utf8_append, ← byteSize_append, ← length_utf8 (pre ++ part),
    List.take_left, utf8_append, ← length_utf8 pre, List.drop_left]

/-- **Behind a boundary that is not the end the next one is at most four
bytes on.** -/
theorem exists_next_boundary {m : ℕ} {cs : List Char} (hm : isCharBoundary m cs)
    (hlt : m < byteSize cs) : ∃ n, m < n ∧ n ≤ m + 4 ∧ isCharBoundary n cs := by
  obtain ⟨pre, post, rfl, rfl⟩ := isCharBoundary_iff.mp hm
  rcases post with - | ⟨c, post⟩
  · simp at hlt
  · have hpos := Char.utf8Size_pos c
    have hfour := Char.utf8Size_le_four c
    refine ⟨byteSize (pre ++ [c]), ?_, ?_, ?_⟩
    · rw [byteSize_append, byteSize_cons, byteSize_nil]
      omega
    · rw [byteSize_append, byteSize_cons, byteSize_nil]
      omega
    · exact isCharBoundary_iff.mpr ⟨pre ++ [c], post, by simp, rfl⟩

/-! ## Numerals -/

/-- One past the greatest `u64`. -/
def u64Bound : ℕ := 2 ^ 64

/-- The digits of a numeral behind its optional plus sign. -/
def unsigned : List Char → List Char
  | '+' :: cs => cs
  | cs => cs

/-- `str::parse::<u64>`. -/
def parseU64 (cs : List Char) : Option ℕ :=
  if unsigned cs ≠ [] ∧ (unsigned cs).all Char.isDigit ∧
      Nat.ofDigitChars 10 (unsigned cs) 0 < u64Bound then
    some (Nat.ofDigitChars 10 (unsigned cs) 0)
  else none

theorem parseU64_lt {cs : List Char} {n : ℕ} (h : parseU64 cs = some n) : n < u64Bound := by
  simp only [parseU64, Option.ite_none_right_eq_some, Option.some.injEq] at h
  obtain ⟨⟨-, -, hlt⟩, rfl⟩ := h
  exact hlt

theorem unsigned_of_digits {cs : List Char} (h : ∀ c ∈ cs, c.isDigit) : unsigned cs = cs := by
  rcases cs with - | ⟨c, cs⟩
  · rfl
  · have hc : c ≠ '+' := by
      rintro rfl
      exact absurd (h '+' (by simp)) (by decide)
    unfold unsigned
    split
    · rename_i heq
      exact absurd (List.cons.inj heq).1 hc
    · rfl

/-- **A decimal numeral**: one digit or more, nothing else, and a value
that fits. -/
structure Decimal (digits : List Char) (n : ℕ) : Prop where
  nonempty : digits ≠ []
  digit : ∀ c ∈ digits, c.isDigit
  value : Nat.ofDigitChars 10 digits 0 = n
  fits : n < u64Bound

/-- **The reader takes the decimal numerals, and those behind a plus sign.** -/
theorem parseU64_iff {cs : List Char} {n : ℕ} :
    parseU64 cs = some n ↔ Decimal (unsigned cs) n := by
  simp only [parseU64, Option.ite_none_right_eq_some, Option.some.injEq]
  constructor
  · rintro ⟨⟨hne, hall, hlt⟩, rfl⟩
    exact ⟨hne, List.all_eq_true.mp hall, rfl, hlt⟩
  · rintro ⟨hne, hall, rfl, hlt⟩
    exact ⟨⟨hne, List.all_eq_true.mpr hall, hlt⟩, rfl⟩

/-- No numeral begins with a plus sign. -/
theorem Decimal.not_plus {cs : List Char} {n : ℕ} : ¬ Decimal ('+' :: cs) n := fun h =>
  absurd (h.digit '+' (by simp)) (by decide)

theorem Decimal.unsigned {cs : List Char} {n : ℕ} (h : Decimal cs n) : unsigned cs = cs :=
  unsigned_of_digits h.digit

/-- A sign is there to be dropped, or there is none. -/
theorem unsigned_cases (cs : List Char) : cs = '+' :: unsigned cs ∨ cs = unsigned cs := by
  unfold Vcmp.unsigned
  split
  · exact .inl rfl
  · exact .inr rfl

/-- The decimal text of a number is a numeral. -/
theorem decimal_toDigits {n : ℕ} (h : n < u64Bound) : Decimal (Nat.toDigits 10 n) n where
  nonempty hnil := by
    have := Nat.length_toDigits_pos (b := 10) (n := n)
    simp [hnil] at this
  digit _ hc := Nat.isDigit_of_mem_toDigits (by decide) (by decide) hc
  value := Nat.ofDigitChars_ten_toDigits
  fits := h

/-- **A number's decimal text reads back as the number.** -/
theorem parseU64_toDigits {n : ℕ} (h : n < u64Bound) : parseU64 (Nat.toDigits 10 n) = some n := by
  rw [parseU64_iff, (decimal_toDigits h).unsigned]
  exact decimal_toDigits h

theorem toList_repr (n : ℕ) : (Nat.repr n).toList = Nat.toDigits 10 n :=
  String.toList_ofList

end Vcmp
