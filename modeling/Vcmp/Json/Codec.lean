import Vcmp.Json.Value
import Vcmp.Common.Text
/-!
# A JSON text codec

Compact printing and a reader for it, with the round trip. The printer
escapes the quote, the backslash and the control characters, and writes
the exact value of a number that is not an integer, in decimal and with an
exponent. The reader takes blanks, the short escapes and decimal fractions
as well, and rounds a number to the nearest `f64`.
-/

namespace Vcmp

namespace Json

/-! ## Printing -/

/-- The digit of a value below sixteen. -/
def hexDigit (n : ℕ) : Char := "0123456789abcdef".toList.getD n '0'

/-- A character inside a string literal. -/
def escape (c : Char) : List Char :=
  if c = '"' then ['\\', '"']
  else if c = '\\' then ['\\', '\\']
  else if c.toNat < 32 then
    ['\\', 'u', '0', '0', hexDigit (c.toNat / 16), hexDigit (c.toNat % 16)]
  else [c]

/-- A string literal. -/
def printString (s : String) : List Char := '"' :: s.toList.flatMap escape ++ ['"']

/-- An integer in decimal. -/
def printInt : ℤ → List Char
  | .ofNat n => Nat.toDigits 10 n
  | .negSucc n => '-' :: Nat.toDigits 10 (n + 1)

/-- The value of a float in decimal, exactly. -/
def printFloat (x : JsonFloat) : List Char :=
  (if x.negative then ['-'] else []) ++
    Nat.toDigits 10 (x.mantissa * 5 ^ (1074 - x.exponent) * 2 ^ (x.exponent - 1074)) ++
    'e' :: printInt (-(1074 - x.exponent : ℕ))

mutual

/-- A document's text. -/
def print : Json → List Char
  | .null => ['n', 'u', 'l', 'l']
  | .bool true => ['t', 'r', 'u', 'e']
  | .bool false => ['f', 'a', 'l', 's', 'e']
  | .int n => printInt n.val
  | .float x => printFloat x
  | .str s => printString s
  | .arr [] => ['[', ']']
  | .arr (j :: js) => '[' :: (print j ++ printItems js)
  | .obj [] => ['{', '}']
  | .obj (m :: ms) => '{' :: (printMember m ++ printMembers ms)

/-- The items behind the first one. -/
def printItems : List Json → List Char
  | [] => [']']
  | j :: js => ',' :: (print j ++ printItems js)

/-- The members behind the first one. -/
def printMembers : List (String × Json) → List Char
  | [] => ['}']
  | m :: ms => ',' :: (printMember m ++ printMembers ms)

/-- One member. -/
def printMember : String × Json → List Char
  | (key, value) => printString key ++ ':' :: print value

end

/-! ## Reading -/

/-- The text behind its blanks. -/
def skipBlanks (cs : List Char) : List Char :=
  cs.dropWhile fun c => c = ' ' ∨ c = '\n' ∨ c = '\t' ∨ c = '\r'

/-- The value of a hexadecimal digit. -/
def hexValue (c : Char) : Option ℕ :=
  if c.isDigit then some (c.toNat - '0'.toNat)
  else if 'a' ≤ c ∧ c ≤ 'f' then some (c.toNat - 'a'.toNat + 10)
  else if 'A' ≤ c ∧ c ≤ 'F' then some (c.toNat - 'A'.toNat + 10)
  else none

/-- The character a short escape stands for. -/
def shortEscape (c : Char) : Option Char :=
  if c = '"' ∨ c = '\\' ∨ c = '/' then some c
  else if c = 'n' then some '\n'
  else if c = 't' then some '\t'
  else if c = 'r' then some '\r'
  else if c = 'b' then some '\x08'
  else if c = 'f' then some '\x0c'
  else none

/-- The character of four hexadecimal digits. -/
def hexChar (a b c d : Char) : Option Char :=
  match hexValue a, hexValue b, hexValue c, hexValue d with
  | some a, some b, some c, some d => some (Char.ofNat (4096 * a + 256 * b + 16 * c + d))
  | _, _, _, _ => none

/-- The first character of a string literal's body and the body behind it;
no character at the closing quote. -/
def readChar : List Char → Option (Option Char × List Char)
  | [] => none
  | c :: cs =>
    if c = '"' then some (none, cs)
    else if c = '\\' then
      match cs with
      | [] => none
      | d :: ds =>
        if d = 'u' then
          match ds with
          | x :: y :: z :: w :: rest => (hexChar x y z w).map fun c => (some c, rest)
          | _ => none
        else (shortEscape d).map fun c => (some c, ds)
    else if c.toNat < 32 then none
    else some (some c, cs)

/-- The characters of a string literal behind its opening quote. -/
def readString : ℕ → List Char → Option (List Char × List Char)
  | 0, _ => none
  | n + 1, cs =>
    match readChar cs with
    | none => none
    | some (none, rest) => some ([], rest)
    | some (some c, rest) => (readString n rest).map fun p => (c :: p.1, p.2)

/-- The sign of a number and the text behind it. -/
def readSign (cs : List Char) : Bool × List Char :=
  if cs.head? = some '-' then (true, cs.tail) else (false, cs)

/-- An integer of given sign and digits. -/
def signed (negative : Bool) (digits : List Char) : ℤ :=
  if negative then -(Nat.ofDigitChars 10 digits 0 : ℤ) else Nat.ofDigitChars 10 digits 0

/-- The integer at the head of a text. -/
def readInt (cs : List Char) : Option (ℤ × List Char) :=
  let digits := (readSign cs).2.takeWhile Char.isDigit
  if digits = [] then none
  else some (signed (readSign cs).1 digits, (readSign cs).2.dropWhile Char.isDigit)

/-- The fraction of a number: its digits, none without a point. -/
def readFraction (cs : List Char) : List Char × List Char :=
  if cs.head? = some '.' then
    (cs.tail.takeWhile Char.isDigit, cs.tail.dropWhile Char.isDigit)
  else ([], cs)

/-- The exponent of a number, if it has one. -/
def readExponent (cs : List Char) : Option (Option ℤ × List Char) :=
  if cs.head? = some 'e' ∨ cs.head? = some 'E' then
    (readInt (if cs.tail.head? = some '+' then cs.tail.tail else cs.tail)).map fun p =>
      (some p.1, p.2)
  else some (none, cs)

/-- `p / q` rounded to an integer, a half to the even one. -/
def roundQuotient (p q : ℕ) : ℕ :=
  if 2 * (p % q) < q ∨ (2 * (p % q) = q ∧ p / q % 2 = 0) then p / q else p / q + 1

/-- The float of a mantissa of at most 53 bits; none where it is too large. -/
def floatOf (negative : Bool) (mantissa exponent : ℕ) : Option JsonFloat :=
  -- rounding up may have made it the next power of two
  let (mantissa, exponent) :=
    if mantissa = 2 ^ 53 then (2 ^ 52, exponent + 1) else (mantissa, exponent)
  if h : mantissa < 2 ^ 53 ∧ exponent ≤ 2045 ∧ (exponent = 0 ∨ 2 ^ 52 ≤ mantissa) then
    some ⟨negative, mantissa, exponent, h.1, h.2.1, h.2.2⟩
  else none

/-- The `f64` nearest to `p / q`. -/
def nearest (negative : Bool) (p q : ℕ) : Option JsonFloat :=
  let exponent := (p * 2 ^ 1074 / q).log2 - 52
  floatOf negative (roundQuotient (p * 2 ^ 1074) (q * 2 ^ exponent)) exponent

/-- The float of digits and a power of ten. -/
def readFloat (negative : Bool) (digits : List Char) (exponent : ℤ) : Option Json :=
  (nearest negative (Nat.ofDigitChars 10 digits 0 * 10 ^ exponent.toNat)
    (10 ^ (-exponent).toNat)).map .float

/-- An integer of the exact range, or the float it is rounded to. -/
def ofInt (negative : Bool) (digits : List Char) : Option Json :=
  let n := signed negative digits
  if h : -2 ^ 63 ≤ n ∧ n < 2 ^ 64 then some (.int ⟨n, h.1, h.2⟩) else readFloat negative digits 0

/-- The number at the head of a text. -/
def readNumber (cs : List Char) : Option (Json × List Char) :=
  let negative := (readSign cs).1
  let digits := (readSign cs).2.takeWhile Char.isDigit
  let (fraction, rest) := readFraction ((readSign cs).2.dropWhile Char.isDigit)
  if digits = [] then none
  else
    match readExponent rest with
    | none => none
    | some (some exponent, rest) =>
      (readFloat negative (digits ++ fraction) (exponent - fraction.length)).map (·, rest)
    | some (none, rest) =>
      if fraction = [] then (ofInt negative digits).map (·, rest)
      else (readFloat negative (digits ++ fraction) (-fraction.length)).map (·, rest)

/-- The text behind a word. -/
def readWord : List Char → List Char → Option (List Char)
  | [], cs => some cs
  | _ :: _, [] => none
  | w :: ws, c :: cs => if w = c then readWord ws cs else none

mutual

/-- The document at the head of a text; the fuel bounds the nesting. -/
def read : ℕ → List Char → Option (Json × List Char)
  | 0, _ => none
  | n + 1, cs =>
    match skipBlanks cs with
    | [] => none
    | c :: rest =>
      if c = 'n' then (readWord ['u', 'l', 'l'] rest).map fun r => (.null, r)
      else if c = 't' then (readWord ['r', 'u', 'e'] rest).map fun r => (.bool true, r)
      else if c = 'f' then (readWord ['a', 'l', 's', 'e'] rest).map fun r => (.bool false, r)
      else if c = '"' then (readString n rest).map fun p => (.str (String.ofList p.1), p.2)
      else if c = '[' then
        if (skipBlanks rest).head? = some ']' then some (.arr [], (skipBlanks rest).tail)
        else
          match read n rest with
          | none => none
          | some (j, rest) => (readItems n rest).map fun p => (.arr (j :: p.1), p.2)
      else if c = '{' then
        if (skipBlanks rest).head? = some '}' then some (.obj [], (skipBlanks rest).tail)
        else
          match readMember n rest with
          | none => none
          | some (m, rest) => (readMembers n rest).map fun p => (.obj (m :: p.1), p.2)
      else readNumber (c :: rest)

/-- The items behind the first one. -/
def readItems : ℕ → List Char → Option (List Json × List Char)
  | 0, _ => none
  | n + 1, cs =>
    match skipBlanks cs with
    | [] => none
    | c :: rest =>
      if c = ']' then some ([], rest)
      else if c = ',' then
        match read n rest with
        | none => none
        | some (j, rest) => (readItems n rest).map fun p => (j :: p.1, p.2)
      else none

/-- The members behind the first one. -/
def readMembers : ℕ → List Char → Option (List (String × Json) × List Char)
  | 0, _ => none
  | n + 1, cs =>
    match skipBlanks cs with
    | [] => none
    | c :: rest =>
      if c = '}' then some ([], rest)
      else if c = ',' then
        match readMember n rest with
        | none => none
        | some (m, rest) => (readMembers n rest).map fun p => (m :: p.1, p.2)
      else none

/-- One member. -/
def readMember : ℕ → List Char → Option ((String × Json) × List Char)
  | 0, _ => none
  | n + 1, cs =>
    if (skipBlanks cs).head? = some '"' then
      match readString n (skipBlanks cs).tail with
      | none => none
      | some (key, rest) =>
        if (skipBlanks rest).head? = some ':' then
          (read n (skipBlanks rest).tail).map fun p => ((String.ofList key, p.1), p.2)
        else none
    else none

end

/-- The document a text is, blanks around it apart. -/
def ofChars (cs : List Char) : Option Json :=
  match read (cs.length + 1) cs with
  | some (j, rest) => if skipBlanks rest = [] then some j else none
  | none => none

example : (ofChars "\x7b \"a\" : [1, -2.5, null] \x7d".toList).map print =
    (ofChars "\x7b\"a\":[1,-25e-1,null]\x7d".toList).map print := by decide +kernel

/-! ## The round trip -/

theorem hexValue_hexDigit {n : ℕ} (h : n < 16) : hexValue (hexDigit n) = some n := by
  have key : ∀ k : Fin 16, hexValue (hexDigit k) = some k.val := by decide
  exact key ⟨n, h⟩

theorem hexChar_control {c : Char} (h : c.toNat < 32) :
    hexChar '0' '0' (hexDigit (c.toNat / 16)) (hexDigit (c.toNat % 16)) = some c := by
  have hzero : hexValue '0' = some 0 := by decide
  have hval : 4096 * 0 + 256 * 0 + 16 * (c.toNat / 16) + c.toNat % 16 = c.toNat := by omega
  simp only [hexChar, hzero, hexValue_hexDigit (show c.toNat / 16 < 16 by omega),
    hexValue_hexDigit (show c.toNat % 16 < 16 by omega), hval, Char.ofNat_toNat]

/-- **An escaped character is read back.** -/
theorem readChar_escape (c : Char) (rest : List Char) :
    readChar (escape c ++ rest) = some (some c, rest) := by
  unfold escape
  by_cases hq : c = '"'
  · subst hq; rfl
  by_cases hb : c = '\\'
  · subst hb; rfl
  by_cases hc : c.toNat < 32
  · simp [hq, hb, hc, readChar, hexChar_control hc]
  · simp [hq, hb, hc, readChar]

theorem readString_escape (s : List Char) (rest : List Char) {n : ℕ} (h : s.length < n) :
    readString n (s.flatMap escape ++ '"' :: rest) = some (s, rest) := by
  induction s generalizing n with
  | nil =>
    obtain ⟨m, rfl⟩ : ∃ m, n = m + 1 := ⟨n - 1, by simp at h; omega⟩
    simp [readString, readChar]
  | cons c cs ih =>
    obtain ⟨m, rfl⟩ : ∃ m, n = m + 1 := ⟨n - 1, by omega⟩
    rw [List.flatMap_cons, List.append_assoc, readString, readChar_escape]
    simp [ih (n := m) (by simp at h; omega)]

theorem length_le_escape (s : List Char) : s.length ≤ (s.flatMap escape).length := by
  induction s with
  | nil => simp
  | cons c cs ih =>
    have hpos : 1 ≤ (escape c).length := by
      unfold escape
      split_ifs <;> simp
    simp only [List.flatMap_cons, List.length_cons, List.length_append]
    omega

/-- A text no number goes on in. -/
def Stops (cs : List Char) : Prop := ∀ c ∈ cs.head?, c ∈ [',', ']', '}']

theorem Stops.nil : Stops [] := by simp [Stops]

theorem Stops.cons {c : Char} (h : c ∈ [',', ']', '}']) (cs : List Char) : Stops (c :: cs) := by
  simpa [Stops] using h

theorem not_digit_of_all {cs : List Char} (h : cs.all (fun c => !c.isDigit) = true) {c : Char}
    (hc : c ∈ cs) : ¬ c.isDigit := by simpa using List.all_eq_true.mp h c hc

theorem Stops.not_digit {cs : List Char} (h : Stops cs) : ∀ c ∈ cs.head?, ¬ c.isDigit :=
  fun c hc => not_digit_of_all (by decide) (h c hc)

theorem Stops.head_ne {cs : List Char} (h : Stops cs) {c : Char} (hc : c ∉ [',', ']', '}']) :
    cs.head? ≠ some c := fun heq => hc (h c heq)

theorem span_digits {digits rest : List Char} (hd : ∀ c ∈ digits, c.isDigit)
    (hr : ∀ c ∈ rest.head?, ¬ c.isDigit) :
    (digits ++ rest).takeWhile Char.isDigit = digits ∧
      (digits ++ rest).dropWhile Char.isDigit = rest := by
  rw [List.takeWhile_append_of_pos hd, List.dropWhile_append_of_pos hd]
  rcases rest with - | ⟨c, cs⟩
  · simp
  · have hc : c.isDigit = false := by simpa using hr c (by simp)
    simp [hc]

theorem toDigits_isDigit (n : ℕ) : ∀ c ∈ Nat.toDigits 10 n, c.isDigit := fun c hc =>
  Nat.isDigit_of_mem_toDigits (by decide) (by decide) hc

theorem toDigits_ne_nil (n : ℕ) : Nat.toDigits 10 n ≠ [] := by
  have := Nat.length_toDigits_pos (b := 10) (n := n)
  intro hnil
  simp [hnil] at this

theorem readSign_digits {digits rest : List Char} (hd : ∀ c ∈ digits, c.isDigit)
    (hne : digits ≠ []) : readSign (digits ++ rest) = (false, digits ++ rest) := by
  obtain ⟨c, cs, rfl⟩ := List.exists_cons_of_ne_nil hne
  have hc : c ≠ '-' := by
    rintro rfl
    exact absurd (hd '-' (by simp)) (by decide)
  simp [readSign, hc]

/-- What the sign and the digits of a printed integer are read as. -/
theorem readSign_printInt (k : ℤ) (rest : List Char) :
    ∃ negative digits, readSign (printInt k ++ rest) = (negative, digits ++ rest) ∧
      (∀ c ∈ digits, c.isDigit) ∧ digits ≠ [] ∧ signed negative digits = k := by
  cases k with
  | ofNat n =>
    refine ⟨false, Nat.toDigits 10 n, ?_, toDigits_isDigit n, toDigits_ne_nil n, ?_⟩
    · exact readSign_digits (toDigits_isDigit n) (toDigits_ne_nil n)
    · simp [signed, Nat.ofDigitChars_ten_toDigits]
  | negSucc n =>
    refine ⟨true, Nat.toDigits 10 (n + 1), rfl, toDigits_isDigit _, toDigits_ne_nil _, ?_⟩
    simp only [signed, Nat.ofDigitChars_ten_toDigits, if_true]
    omega

theorem readInt_printInt (k : ℤ) {rest : List Char} (h : ∀ c ∈ rest.head?, ¬ c.isDigit) :
    readInt (printInt k ++ rest) = some (k, rest) := by
  obtain ⟨negative, digits, hs, hd, hne, hk⟩ := readSign_printInt k rest
  obtain ⟨ht, hr⟩ := span_digits hd h
  simp [readInt, hs, ht, hr, hne, hk]

theorem ofInt_val (n : JsonInteger) {negative : Bool} {digits : List Char}
    (h : signed negative digits = n.val) : ofInt negative digits = some (.int n) := by
  obtain ⟨val, lower, upper⟩ := n
  subst h
  exact dif_pos ⟨lower, upper⟩

theorem readNumber_int (n : JsonInteger) {rest : List Char} (h : Stops rest) :
    readNumber (printInt n.val ++ rest) = some (.int n, rest) := by
  obtain ⟨negative, digits, hs, hd, hne, hk⟩ := readSign_printInt n.val rest
  obtain ⟨ht, hr⟩ := span_digits hd h.not_digit
  have hdot : rest.head? ≠ some '.' := h.head_ne (by decide)
  have hexp : ¬ (rest.head? = some 'e' ∨ rest.head? = some 'E') := by
    rintro (he | he)
    · exact h.head_ne (by decide) he
    · exact h.head_ne (by decide) he
  simp [readNumber, hs, ht, hr, readFraction, hdot, readExponent, hexp, hne, ofInt_val n hk]

/-! A float is printed exactly, so what is read is nearest to itself. -/

theorem roundQuotient_mul (m : ℕ) {q : ℕ} (hq : 0 < q) : roundQuotient (m * q) q = m := by
  simp [roundQuotient, hq]

/-- The first bit of a normal mantissa says the exponent. -/
theorem exponent_eq (x : JsonFloat) :
    (x.mantissa * 2 ^ x.exponent).log2 - 52 = x.exponent := by
  have hpow : 0 < 2 ^ x.exponent := Nat.two_pow_pos _
  rcases x.normal with hzero | hfirst
  · have hlt : x.mantissa.log2 < 53 := by
      rcases Nat.eq_zero_or_pos x.mantissa with hnone | hpos
      · rw [hnone]
        decide
      · exact (Nat.log2_lt (by omega)).mpr x.bits
    rw [hzero, Nat.pow_zero, Nat.mul_one]
    omega
  · have hlog : (x.mantissa * 2 ^ x.exponent).log2 = 52 + x.exponent := by
      refine (Nat.log2_eq_iff (Nat.ne_of_gt (Nat.mul_pos (by omega) hpow))).mpr ⟨?_, ?_⟩
      · rw [Nat.pow_add]
        exact Nat.mul_le_mul_right _ hfirst
      · rw [show 52 + x.exponent + 1 = 53 + x.exponent by omega, Nat.pow_add]
        exact Nat.mul_lt_mul_of_pos_right x.bits hpow
    omega

theorem floatOf_self (x : JsonFloat) : floatOf x.negative x.mantissa x.exponent = some x := by
  have hne : x.mantissa ≠ 2 ^ 53 := Nat.ne_of_lt x.bits
  simp only [floatOf, if_neg hne]
  exact dif_pos ⟨x.bits, x.finite, x.normal⟩

/-- **A float is the one nearest to its value.** -/
theorem nearest_exact (x : JsonFloat) {p q : ℕ} (hq : 0 < q)
    (h : p * 2 ^ 1074 = x.mantissa * 2 ^ x.exponent * q) : nearest x.negative p q = some x := by
  unfold nearest
  generalize p * 2 ^ 1074 = scaled at h ⊢
  subst h
  have hpos : 0 < 2 ^ x.exponent * q := Nat.mul_pos (Nat.two_pow_pos _) hq
  simp only [Nat.mul_div_cancel _ hq, exponent_eq]
  rw [Nat.mul_assoc, Nat.mul_comm q, roundQuotient_mul _ hpos, floatOf_self]

theorem printInt_head_ne_plus (k : ℤ) (rest : List Char) :
    (printInt k ++ rest).head? ≠ some '+' := by
  cases k with
  | ofNat n =>
    obtain ⟨c, cs, hc⟩ := List.exists_cons_of_ne_nil (toDigits_ne_nil n)
    have hdigit : c.isDigit := toDigits_isDigit n c (by simp [hc])
    simp only [printInt, hc, List.cons_append, List.head?_cons, ne_eq, Option.some.injEq]
    rintro rfl
    exact absurd hdigit (by decide)
  | negSucc n => simp [printInt]

/-- Powers of five and two for the power of ten. -/
theorem pow_split (m : ℕ) {c d e k : ℕ} (h : c + k = d + e) :
    m * 5 ^ d * 2 ^ c * 2 ^ k = m * 2 ^ e * 10 ^ d := by
  have htwo : 2 ^ c * 2 ^ k = 2 ^ d * 2 ^ e := by rw [← Nat.pow_add, ← Nat.pow_add, h]
  calc m * 5 ^ d * 2 ^ c * 2 ^ k = m * 5 ^ d * (2 ^ c * 2 ^ k) := Nat.mul_assoc _ _ _
    _ = m * 2 ^ e * (5 ^ d * 2 ^ d) := by rw [htwo]; ac_rfl
    _ = m * 2 ^ e * 10 ^ d := by rw [← Nat.mul_pow]

theorem readFloat_printed (x : JsonFloat) : readFloat x.negative
    (Nat.toDigits 10 (x.mantissa * 5 ^ (1074 - x.exponent) * 2 ^ (x.exponent - 1074)))
    (-(1074 - x.exponent : ℕ)) = some (.float x) := by
  have hvalue := pow_split x.mantissa
    (show x.exponent - 1074 + 1074 = 1074 - x.exponent + x.exponent by omega)
  have hneg : (-(-((1074 - x.exponent : ℕ) : ℤ))).toNat = 1074 - x.exponent := by omega
  have hpos : (-((1074 - x.exponent : ℕ) : ℤ)).toNat = 0 := by omega
  rw [readFloat, Nat.ofDigitChars_ten_toDigits, hneg, hpos, Nat.pow_zero, Nat.mul_one,
    nearest_exact x (Nat.pow_pos (by decide)) hvalue]
  rfl

/-- The sign and the digits of a printed float. -/
theorem readSign_signed (negative : Bool) (n : ℕ) (rest : List Char) :
    readSign ((if negative then ['-'] else []) ++ Nat.toDigits 10 n ++ rest) =
      (negative, Nat.toDigits 10 n ++ rest) := by
  cases negative with
  | false => exact readSign_digits (toDigits_isDigit n) (toDigits_ne_nil n)
  | true => rfl

theorem readNumber_float (x : JsonFloat) {rest : List Char} (h : Stops rest) :
    readNumber (printFloat x ++ rest) = some (.float x, rest) := by
  have hread := readFloat_printed x
  unfold printFloat
  generalize x.mantissa * 5 ^ (1074 - x.exponent) * 2 ^ (x.exponent - 1074) = n at hread ⊢
  generalize -((1074 - x.exponent : ℕ) : ℤ) = e at hread ⊢
  have hs := readSign_signed x.negative n ('e' :: (printInt e ++ rest))
  rw [List.append_assoc] at hs
  have hstop : ∀ c ∈ ('e' :: (printInt e ++ rest)).head?, ¬ c.isDigit := by
    simp only [List.head?_cons, Option.mem_def, Option.some.injEq]
    rintro c rfl
    decide
  obtain ⟨ht, hr⟩ := span_digits (toDigits_isDigit n) hstop
  have hexp := readInt_printInt e h.not_digit
  have hplus := printInt_head_ne_plus e rest
  simp only [List.append_assoc, List.cons_append]
  simp [readNumber, hs, ht, hr, readFraction, readExponent, hplus, hexp, hread,
    -List.head?_append]

/-- The first character of a document's text is no blank. -/
theorem skipBlanks_cons {c : Char} {cs : List Char}
    (h : c ∉ [' ', '\n', '\t', '\r']) : skipBlanks (c :: cs) = c :: cs := by
  simp only [List.mem_cons, List.not_mem_nil, or_false, not_or] at h
  simp [skipBlanks, h]

theorem printInt_cons (k : ℤ) : ∃ c cs, printInt k = c :: cs ∧ (c = '-' ∨ c.isDigit) := by
  cases k with
  | ofNat n =>
    obtain ⟨c, cs, hc⟩ := List.exists_cons_of_ne_nil (toDigits_ne_nil n)
    exact ⟨c, cs, hc, .inr (toDigits_isDigit n c (by simp [hc]))⟩
  | negSucc n => exact ⟨'-', _, rfl, .inl rfl⟩

theorem printFloat_cons (x : JsonFloat) : ∃ c cs, printFloat x = c :: cs ∧
    (c = '-' ∨ c.isDigit) := by
  unfold printFloat
  generalize x.mantissa * 5 ^ (1074 - x.exponent) * 2 ^ (x.exponent - 1074) = n
  cases x.negative with
  | false =>
    obtain ⟨c, cs, hc⟩ := List.exists_cons_of_ne_nil (toDigits_ne_nil n)
    rw [hc]
    exact ⟨c, _, rfl, .inr (toDigits_isDigit n c (by simp [hc]))⟩
  | true => exact ⟨'-', _, rfl, .inl rfl⟩

/-- A character that begins a number begins nothing else. -/
theorem read_of_number {c : Char} {cs : List Char} (n : ℕ) (h : c = '-' ∨ c.isDigit) :
    read (n + 1) (c :: cs) = readNumber (c :: cs) := by
  have hne : ∀ d ∈ ['n', 't', 'f', '"', '[', '{', ' ', '\n', '\t', '\r'], c ≠ d := by
    intro d hd
    rintro rfl
    rcases h with rfl | h
    · exact absurd hd (by decide)
    · exact absurd h (not_digit_of_all (by decide) hd)
  simp only [List.mem_cons, List.not_mem_nil, or_false, forall_eq_or_imp, forall_eq] at hne
  obtain ⟨h1, h2, h3, h4, h5, h6, h7⟩ := hne
  rw [read, skipBlanks_cons (by simpa using h7)]
  simp [h1, h2, h3, h4, h5, h6]

/-- What a document's text may begin with. -/
theorem print_cons (j : Json) : ∃ c cs, print j = c :: cs ∧
    c ∉ [' ', '\n', '\t', '\r', ']', '}'] := by
  have hfirst : ∀ {c : Char}, c = '-' ∨ c.isDigit → c ∉ [' ', '\n', '\t', '\r', ']', '}'] := by
    rintro c (rfl | h)
    · decide
    · exact fun hmem => absurd h (not_digit_of_all (by decide) hmem)
  cases j with
  | null => exact ⟨_, _, rfl, by decide⟩
  | bool b => cases b <;> exact ⟨_, _, rfl, by decide⟩
  | int n =>
    obtain ⟨c, cs, hc, h⟩ := printInt_cons n.val
    exact ⟨c, cs, hc, hfirst h⟩
  | float x =>
    obtain ⟨c, cs, hc, h⟩ := printFloat_cons x
    exact ⟨c, cs, hc, hfirst h⟩
  | str s => exact ⟨_, _, rfl, by decide⟩
  | arr items => cases items <;> exact ⟨_, _, by simp only [print]; rfl, by decide⟩
  | obj members => cases members <;> exact ⟨_, _, by simp only [print]; rfl, by decide⟩

theorem printMember_cons (m : String × Json) : ∃ cs, printMember m = '"' :: cs := by
  obtain ⟨key, value⟩ := m
  exact ⟨_, by rw [printMember, printString, List.cons_append, List.cons_append]⟩

mutual

/-- **A printed document is read back**, whatever follows it. -/
theorem read_print (j : Json) {n : ℕ} (rest : List Char) (hn : (print j).length < n)
    (h : Stops rest) : read n (print j ++ rest) = some (j, rest) := by
  obtain ⟨n, rfl⟩ : ∃ m, n = m + 1 := ⟨n - 1, by omega⟩
  cases j with
  | null => simp [print, read, skipBlanks_cons, readWord]
  | bool b => cases b <;> simp [print, read, skipBlanks_cons, readWord]
  | int k =>
    obtain ⟨c, cs, hc, hk⟩ := printInt_cons k.val
    have hread := readNumber_int k h
    rw [print, hc, List.cons_append, read_of_number n hk, ← List.cons_append, ← hc, hread]
  | float x =>
    obtain ⟨c, cs, hc, hk⟩ := printFloat_cons x
    have hread := readNumber_float x h
    rw [print, hc, List.cons_append, read_of_number n hk, ← List.cons_append, ← hc, hread]
  | str s =>
    have hlen := length_le_escape s.toList
    simp only [print, printString, List.length_cons, List.length_append] at hn
    have hread := readString_escape s.toList rest (n := n) (by omega)
    simp [print, printString, read, skipBlanks_cons, hread]
  | arr items =>
    cases items with
    | nil => simp [print, read, skipBlanks_cons]
    | cons j js =>
      simp only [print, List.length_cons, List.length_append] at hn
      obtain ⟨c, cs, hc, hfirst⟩ := print_cons j
      have hskip : skipBlanks (print j ++ (printItems js ++ rest)) =
          print j ++ (printItems js ++ rest) := by
        rw [hc, List.cons_append]
        exact skipBlanks_cons fun hm => hfirst (by simp at hm ⊢; tauto)
      have hhead : (print j ++ (printItems js ++ rest)).head? ≠ some ']' := by
        rw [hc]
        simp only [List.cons_append, List.head?_cons, ne_eq, Option.some.injEq]
        rintro rfl
        exact hfirst (by simp)
      have hj := read_print j (n := n) (printItems js ++ rest) (by omega)
        (by cases js <;> simp [printItems, Stops])
      have hjs := readItems_print js (n := n) (rest) (by omega)
      simp [print, read, skipBlanks_cons, hskip, hhead, hj, hjs, -List.head?_append]
  | obj members =>
    cases members with
    | nil => simp [print, read, skipBlanks_cons]
    | cons m ms =>
      simp only [print, List.length_cons, List.length_append] at hn
      obtain ⟨cs, hc⟩ := printMember_cons m
      have hskip : skipBlanks (printMember m ++ (printMembers ms ++ rest)) =
          printMember m ++ (printMembers ms ++ rest) := by
        rw [hc, List.cons_append]
        exact skipBlanks_cons (by decide)
      have hhead : (printMember m ++ (printMembers ms ++ rest)).head? ≠ some '}' := by
        rw [hc]; simp
      have hm := readMember_print m (n := n) (printMembers ms ++ rest) (by omega)
        (by cases ms <;> simp [printMembers, Stops])
      have hms := readMembers_print ms (n := n) (rest) (by omega)
      simp [print, read, skipBlanks_cons, hskip, hhead, hm, hms, -List.head?_append]

theorem readItems_print (js : List Json) {n : ℕ} (rest : List Char)
    (hn : (printItems js).length < n) :
    readItems n (printItems js ++ rest) = some (js, rest) := by
  obtain ⟨n, rfl⟩ : ∃ m, n = m + 1 := ⟨n - 1, by omega⟩
  cases js with
  | nil => simp [printItems, readItems, skipBlanks_cons]
  | cons j js =>
    simp only [printItems, List.length_cons, List.length_append] at hn
    have hj := read_print j (n := n) (printItems js ++ rest) (by omega)
      (by cases js <;> simp [printItems, Stops])
    have hjs := readItems_print js (n := n) (rest) (by omega)
    simp [printItems, readItems, skipBlanks_cons, hj, hjs]

theorem readMembers_print (ms : List (String × Json)) {n : ℕ} (rest : List Char)
    (hn : (printMembers ms).length < n) :
    readMembers n (printMembers ms ++ rest) = some (ms, rest) := by
  obtain ⟨n, rfl⟩ : ∃ m, n = m + 1 := ⟨n - 1, by omega⟩
  cases ms with
  | nil => simp [printMembers, readMembers, skipBlanks_cons]
  | cons m ms =>
    simp only [printMembers, List.length_cons, List.length_append] at hn
    have hm := readMember_print m (n := n) (printMembers ms ++ rest) (by omega)
      (by cases ms <;> simp [printMembers, Stops])
    have hms := readMembers_print ms (n := n) (rest) (by omega)
    simp [printMembers, readMembers, skipBlanks_cons, hm, hms]

theorem readMember_print (m : String × Json) {n : ℕ} (rest : List Char)
    (hn : (printMember m).length < n) (h : Stops rest) :
    readMember n (printMember m ++ rest) = some (m, rest) := by
  obtain ⟨n, rfl⟩ : ∃ m, n = m + 1 := ⟨n - 1, by omega⟩
  obtain ⟨key, value⟩ := m
  simp only [printMember, printString, List.length_cons, List.length_append] at hn
  have hlen := length_le_escape key.toList
  have hkey := readString_escape key.toList (':' :: (print value ++ rest)) (n := n) (by omega)
  have hvalue := read_print value (n := n) (rest) (by omega) h
  simp [printMember, printString, readMember, skipBlanks_cons, hkey, hvalue]

end

/-- **A document's text is the document.** -/
theorem ofChars_print (j : Json) : ofChars (print j) = some j := by
  have hread := read_print j (n := (print j).length + 1) ([]) (by omega) .nil
  rw [List.append_nil] at hread
  simp [ofChars, hread, skipBlanks]

end Json

/-- The codec as a JSON library. -/
def compactJson : JsonText where
  toText j := String.ofList j.print
  ofText text := Json.ofChars text.toList
  round_trip j := by rw [String.toList_ofList, Json.ofChars_print]
  null_text := by decide
  empty := by decide +kernel

end Vcmp
