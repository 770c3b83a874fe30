import Vcmp.Common.Bits
import Vcmp.Wire.Frame
/-!
# Ids on the wire

`base64url_no_pad` packs up to three bytes into a word and looks up six
bits of it at a time. What it is for is stated apart from it: base64url
without padding is the bytes as one row of bits, cut into digits of six,
zero behind the end, and it is read back by cutting the digits into
bytes. `encodeChecked` is the encoder with its accesses as the source
makes them, with no value where one would panic.
-/

namespace Vcmp

namespace Frame

/-! ## The encoding and its decoder -/

/-- **base64url without padding**: `⌈4n / 3⌉` letters for `n` bytes. -/
def toBase64Url (bytes : List UInt8) : List Char :=
  (regroup 8 6 ((4 * bytes.length + 2) / 3) (bytes.map UInt8.toNat)).map (base64Url.getD · 'A')

/-- The reader of base64url: no value for a letter outside of the alphabet. -/
def ofBase64Url (text : List Char) : Option (List UInt8) :=
  (text.mapM fun c => base64Url.idxOf? c).map fun ds =>
    (regroup 6 8 (6 * ds.length / 8) ds).map UInt8.ofNat

/-- A byte has no bits behind its eighth. -/
theorem testBit_byte {b j : ℕ} (hb : b < 2 ^ 8) (hj : 8 ≤ j) : b.testBit j = false :=
  Nat.testBit_lt_two_pow (Nat.lt_of_lt_of_le hb (Nat.pow_le_pow_right (by decide) hj))

/-- **The word of a chunk holds its bytes in a row.** -/
theorem testBit_triple {a b c k : ℕ} (hb : b < 2 ^ 8) (hc : c < 2 ^ 8)
    (hk : k < 24) : (a <<< 16 ||| b <<< 8 ||| c).testBit k = bitAt 8 [a, b, c] (23 - k) := by
  rw [Nat.testBit_or, Nat.testBit_or, Nat.testBit_shiftLeft, Nat.testBit_shiftLeft, bitAt]
  obtain hlow | ⟨hmid, hlt⟩ | hhigh : k < 8 ∨ (8 ≤ k ∧ k < 16) ∨ 16 ≤ k := by omega
  · have hdiv : (23 - k) / 8 = 2 := by omega
    have hbit : 8 - 1 - (23 - k) % 8 = k := by omega
    have hno : ¬ 16 ≤ k := by omega
    simp [hdiv, hbit, hno, Nat.not_le.mpr hlow]
  · have hdiv : (23 - k) / 8 = 1 := by omega
    have hbit : 8 - 1 - (23 - k) % 8 = k - 8 := by omega
    simp [hdiv, hbit, hmid, Nat.not_le.mpr hlt, testBit_byte hc hmid]
  · have hdiv : (23 - k) / 8 = 0 := by omega
    have hbit : 8 - 1 - (23 - k) % 8 = k - 16 := by omega
    have hmid : 8 ≤ k := by omega
    have hbyte : 8 ≤ k - 8 := by omega
    simp [hdiv, hbit, hhigh, hmid, testBit_byte hc hmid, testBit_byte hb hbyte]

/-- So six bits of it at a time are the digits of the bytes. -/
theorem triple_digit {a b c i : ℕ} (hb : b < 2 ^ 8) (hc : c < 2 ^ 8)
    (hi : i < 4) : (a <<< 16 ||| b <<< 8 ||| c) >>> (18 - 6 * i) &&& 0x3f =
      digitAt 6 (bitAt 8 [a, b, c]) i := by
  have hmask : (0x3f : ℕ) = 2 ^ 6 - 1 := by decide
  rw [hmask]
  refine eq_digitAt (Nat.lt_of_le_of_lt Nat.and_le_right (by decide)) fun k hk => ?_
  rw [Nat.testBit_and, Nat.testBit_shiftRight, Nat.testBit_two_pow_sub_one, decide_eq_true hk,
    Bool.and_true, testBit_triple hb hc (by omega)]
  congr 1
  omega

/-- **A chunk is encoded as the digits of its bytes.** -/
theorem encodeChunk_eq {chunk : List UInt8} (hle : chunk.length ≤ 3) : encodeChunk chunk =
    (regroup 8 6 (chunk.length + 1) (chunk.map UInt8.toNat)).map (base64Url.getD · 'A') := by
  unfold encodeChunk regroup digitsOf
  rw [List.map_map]
  refine List.map_congr_left fun i hi => ?_
  have hi : i < chunk.length + 1 := List.mem_range.mp hi
  have hbyte : ∀ k, (chunk[k]?.getD 0).toNat = (chunk.map UInt8.toNat).getD k 0 := by
    intro k
    rw [List.getD_eq_getElem?_getD, List.getElem?_map]
    cases chunk[k]? <;> rfl
  -- the bytes that are missing are zero in the word, as behind the end of the row
  have hrow : bitAt 8 [(chunk[0]?.getD 0).toNat, (chunk[1]?.getD 0).toNat, (chunk[2]?.getD 0).toNat] =
      bitAt 8 (chunk.map UInt8.toNat) := by
    funext j
    unfold bitAt
    congr 1
    rw [hbyte, hbyte, hbyte]
    obtain h | h | h | h : j / 8 = 0 ∨ j / 8 = 1 ∨ j / 8 = 2 ∨ 3 ≤ j / 8 := by omega
    · rw [h]; rfl
    · rw [h]; rfl
    · rw [h]; rfl
    · rw [List.getD_eq_default _ _ (by simpa using h), List.getD_eq_default _ _ (by simp; omega)]
  simp only [Function.comp_apply]
  rw [triple_digit (UInt8.toNat_lt _) (UInt8.toNat_lt _) (by omega), hrow]

/-- **The code computes base64url without padding.** -/
theorem base64UrlNoPad_eq (bytes : List UInt8) : base64UrlNoPad bytes = toBase64Url bytes := by
  induction bytes using base64UrlNoPad.induct with
  | case1 => rfl
  | case2 a =>
    have hcount : (4 * [a].length + 2) / 3 = [a].length + 1 := by simp
    rw [base64UrlNoPad, encodeChunk_eq (by simp), toBase64Url, hcount]
  | case3 a b =>
    have hcount : (4 * [a, b].length + 2) / 3 = [a, b].length + 1 := by simp
    rw [base64UrlNoPad, encodeChunk_eq (by simp), toBase64Url, hcount]
  | case4 a b c rest ih =>
    have hcount : (4 * (a :: b :: c :: rest).length + 2) / 3 = 4 + (4 * rest.length + 2) / 3 := by
      simp only [List.length_cons]
      omega
    have hcut : regroup 8 6 (4 + (4 * rest.length + 2) / 3)
        ([a.toNat, b.toNat, c.toNat] ++ rest.map UInt8.toNat) =
        regroup 8 6 4 [a.toNat, b.toNat, c.toNat] ++
          regroup 8 6 ((4 * rest.length + 2) / 3) (rest.map UInt8.toNat) :=
      regroup_append (by decide) rfl
    rw [base64UrlNoPad, ih, encodeChunk_eq (by simp), toBase64Url, toBase64Url, hcount,
      ← List.map_append]
    exact congrArg _ hcut.symm

/-! ## What it keeps -/

/-- A letter of the alphabet is found at its own place. -/
theorem idxOf?_base64Url {d : ℕ} (hd : d < 2 ^ 6) :
    base64Url.idxOf? (base64Url.getD d 'A') = some d := by
  have key : ∀ d < 2 ^ 6, base64Url.idxOf? (base64Url.getD d 'A') = some d := by decide +kernel
  exact key d hd

theorem mem_base64Url {d : ℕ} (hd : d < 2 ^ 6) : base64Url.getD d 'A' ∈ base64Url := by
  have hlt : d < base64Url.length := Nat.lt_of_lt_of_eq hd (by decide)
  rw [List.getD_eq_getElem _ _ hlt]
  exact List.getElem_mem hlt

theorem mapM_eq_some_map {α β : Type} {f : α → Option β} {g : α → β} {l : List α}
    (h : ∀ a ∈ l, f a = some (g a)) : l.mapM f = some (l.map g) := by
  induction l with
  | nil => rfl
  | cons a l ih =>
    rw [List.mapM_cons, h a List.mem_cons_self, ih fun b hb => h b (List.mem_cons_of_mem a hb)]
    rfl

theorem length_toBase64Url (bytes : List UInt8) :
    (toBase64Url bytes).length = (4 * bytes.length + 2) / 3 := by
  simp [toBase64Url]

/-- **What was encoded is read back.** -/
theorem ofBase64Url_toBase64Url (bytes : List UInt8) :
    ofBase64Url (toBase64Url bytes) = some bytes := by
  have hlength : 6 * ((4 * bytes.length + 2) / 3) / 8 = (bytes.map UInt8.toNat).length := by
    rw [List.length_map]
    omega
  have hroom : 8 * (bytes.map UInt8.toNat).length ≤ 6 * ((4 * bytes.length + 2) / 3) := by
    rw [List.length_map]
    omega
  have hbytes : ∀ d ∈ bytes.map UInt8.toNat, d < 2 ^ 8 := by
    intro d hd
    obtain ⟨b, -, rfl⟩ := List.mem_map.mp hd
    exact b.toNat_lt
  have hletters : (toBase64Url bytes).mapM (fun c => base64Url.idxOf? c) =
      some (regroup 8 6 ((4 * bytes.length + 2) / 3) (bytes.map UInt8.toNat)) := by
    have hread : ∀ d ∈ regroup 8 6 ((4 * bytes.length + 2) / 3) (bytes.map UInt8.toNat),
        base64Url.idxOf? (base64Url.getD d 'A') = some ((fun d => d) d) :=
      fun d hd => idxOf?_base64Url (lt_of_mem_digitsOf hd)
    rw [toBase64Url, List.mapM_map]
    exact (mapM_eq_some_map hread).trans (congrArg some (List.map_id' _))
  rw [ofBase64Url, hletters, Option.map_some, length_regroup, hlength,
    regroup_regroup (by decide) hroom hbytes, List.map_map]
  refine congrArg some (List.map_id'' (fun b => ?_) bytes)
  exact UInt8.ofNat_toNat

/-- So different bytes have different encodings. -/
theorem toBase64Url_injective : Function.Injective toBase64Url := by
  intro a b h
  have hread := congrArg ofBase64Url h
  rwa [ofBase64Url_toBase64Url, ofBase64Url_toBase64Url, Option.some.injEq] at hread

/-! ## The accesses -/

/-- `bytes.chunks(3)`. -/
def chunks3 : List UInt8 → List (List UInt8)
  | [] => []
  | [a] => [[a]]
  | [a, b] => [[a, b]]
  | a :: b :: c :: rest => [a, b, c] :: chunks3 rest

/-- A difference that panics where it would be negative. -/
def checkedSub (a b : ℕ) : Option ℕ := if b ≤ a then some (a - b) else none

/-- A shift that panics where it is as wide as the word. -/
def checkedShr (word : UInt32) (n : ℕ) : Option UInt32 :=
  if n < 32 then some (word >>> UInt32.ofNat n) else none

/-- One chunk, with no value where the source would panic. Only the first
byte is indexed: the others are asked for, and zero where they are missing. -/
def encodeChunkChecked (chunk : List UInt8) : Option (List Char) := do
  let b0 ← chunk[0]?
  let b1 := chunk[1]?.getD 0
  let b2 := chunk[2]?.getD 0
  let triple := b0.toUInt32 <<< 16 ||| b1.toUInt32 <<< 8 ||| b2.toUInt32
  (List.range (chunk.length + 1)).mapM fun i => do
    let shift ← checkedSub 18 (6 * i)
    let word ← checkedShr triple shift
    base64Url[(word &&& 0x3f).toNat]?

/-- `base64url_no_pad`, with no value where it would panic. -/
def encodeChecked (bytes : List UInt8) : Option (List Char) := do
  let parts ← (chunks3 bytes).mapM encodeChunkChecked
  return parts.flatten

/-- The word does not leave its 32 bits. -/
theorem toNat_index (a b c : UInt8) {shift : ℕ} (hshift : shift ≤ 18) :
    ((a.toUInt32 <<< 16 ||| b.toUInt32 <<< 8 ||| c.toUInt32) >>> UInt32.ofNat shift &&& 0x3f).toNat =
      (a.toNat <<< 16 ||| b.toNat <<< 8 ||| c.toNat) >>> shift &&& 0x3f := by
  have ha := a.toNat_lt
  have hb := b.toNat_lt
  have hfitsa : a.toNat <<< 16 < 2 ^ 32 := by rw [Nat.shiftLeft_eq]; omega
  have hfitsb : b.toNat <<< 8 < 2 ^ 32 := by rw [Nat.shiftLeft_eq]; omega
  have hwide : (16 : UInt32).toNat % 32 = 16 ∧ (8 : UInt32).toNat % 32 = 8 := by decide
  have hmod : (UInt32.ofNat shift).toNat % 32 = shift := by
    rw [UInt32.toNat_ofNat_of_lt' (Nat.lt_of_le_of_lt hshift (by decide)),
      Nat.mod_eq_of_lt (by omega)]
  rw [UInt32.toNat_and, UInt32.toNat_shiftRight, UInt32.toNat_or, UInt32.toNat_or,
    UInt32.toNat_shiftLeft, UInt32.toNat_shiftLeft, hmod, hwide.1, hwide.2,
    UInt8.toNat_toUInt32, UInt8.toNat_toUInt32, UInt8.toNat_toUInt32, Nat.mod_eq_of_lt hfitsa,
    Nat.mod_eq_of_lt hfitsb]
  rfl

/-- A chunk is encoded without a panic. -/
theorem encodeChunkChecked_eq {a : UInt8} {rest : List UInt8} (hle : rest.length ≤ 2) :
    encodeChunkChecked (a :: rest) = some (encodeChunk (a :: rest)) := by
  refine mapM_eq_some_map fun i hi => ?_
  have hi : i < rest.length + 1 + 1 := List.mem_range.mp hi
  have hshift : checkedSub 18 (6 * i) = some (18 - 6 * i) := if_pos (by omega)
  have hword : ∀ word, checkedShr word (18 - 6 * i) = some (word >>> UInt32.ofNat (18 - 6 * i)) :=
    fun word => if_pos (by omega)
  have hindex : (a.toNat <<< 16 ||| ((a :: rest)[1]?.getD 0).toNat <<< 8 |||
      ((a :: rest)[2]?.getD 0).toNat) >>> (18 - 6 * i) &&& 0x3f < base64Url.length :=
    Nat.lt_of_le_of_lt Nat.and_le_right (by decide)
  rw [hshift, Option.bind_eq_bind, Option.bind_some, hword, Option.bind_eq_bind, Option.bind_some,
    toNat_index _ _ _ (by omega), List.getElem?_eq_getElem hindex,
    ← List.getD_eq_getElem _ 'A' hindex]
  rfl

theorem length_of_mem_chunks3 {bytes chunk : List UInt8} (h : chunk ∈ chunks3 bytes) :
    ∃ a rest, chunk = a :: rest ∧ rest.length ≤ 2 := by
  induction bytes using chunks3.induct with
  | case1 => cases h
  | case2 a =>
    rw [chunks3, List.mem_singleton] at h
    exact ⟨a, [], h, by simp⟩
  | case3 a b =>
    rw [chunks3, List.mem_singleton] at h
    exact ⟨a, [b], h, by simp⟩
  | case4 a b c rest ih =>
    rw [chunks3, List.mem_cons] at h
    rcases h with rfl | h
    · exact ⟨a, [b, c], rfl, by simp⟩
    · exact ih h

theorem flatten_chunks3 (bytes : List UInt8) :
    ((chunks3 bytes).map encodeChunk).flatten = base64UrlNoPad bytes := by
  induction bytes using chunks3.induct with
  | case1 => rfl
  | case2 a => simp [chunks3, base64UrlNoPad]
  | case3 a b => simp [chunks3, base64UrlNoPad]
  | case4 a b c rest ih => simp [chunks3, base64UrlNoPad, ih]

/-- **No shift, index or access to a chunk is out of range.** -/
theorem encodeChecked_eq (bytes : List UInt8) : encodeChecked bytes = some (base64UrlNoPad bytes) := by
  have hchunks : (chunks3 bytes).mapM encodeChunkChecked =
      some ((chunks3 bytes).map encodeChunk) := by
    refine mapM_eq_some_map fun chunk hmem => ?_
    obtain ⟨a, rest, rfl, hle⟩ := length_of_mem_chunks3 hmem
    exact encodeChunkChecked_eq hle
  rw [encodeChecked, hchunks, ← flatten_chunks3]
  rfl

/-- **Bytes are encoded as the standard says**, and without loss. -/
structure EncodesFaithfully (bytes : List UInt8) : Prop where
  /-- No access panics. -/
  inRange : encodeChecked bytes = some (base64UrlNoPad bytes)
  /-- It is base64url without padding, -/
  encodes : base64UrlNoPad bytes = toBase64Url bytes
  length : (base64UrlNoPad bytes).length = (4 * bytes.length + 2) / 3
  letters : ∀ c ∈ base64UrlNoPad bytes, c ∈ base64Url
  /-- and the reader of it gets the bytes back. -/
  decodes : ofBase64Url (base64UrlNoPad bytes) = some bytes

theorem encodesFaithfully (bytes : List UInt8) : EncodesFaithfully bytes := by
  have hcode := base64UrlNoPad_eq bytes
  refine ⟨encodeChecked_eq bytes, hcode, ?_, fun c hc => ?_, ?_⟩
  · rw [hcode, length_toBase64Url]
  · rw [hcode] at hc
    obtain ⟨d, hd, rfl⟩ := List.mem_map.mp hc
    exact mem_base64Url (lt_of_mem_digitsOf hd)
  · rw [hcode, ofBase64Url_toBase64Url]

/-- **An id the codec reads back** from every frame that carries it. -/
structure ReadsBack (id : String) : Prop where
  isId : IsId id
  message (payload : String) :
    parse (Frame.message id payload).serialize = .ok (.message id payload)
  ack (payload : Option String) : parse (mkAck id payload).serialize = .ok (mkAck id payload)
  nak (payload : Option String) : parse (mkNak id payload).serialize = .ok (mkNak id payload)

theorem readsBack_of_isId {id : String} (h : IsId id) : ReadsBack id :=
  ⟨h, parse_msg h, parse_mkAck h, parse_mkNak h⟩

/-- **Ids are encoded without loss**, from bytes of any number; nine random
ones give an id that is read back, and different ones different ids. -/
theorem base64Url_spec :
    (∀ bytes, EncodesFaithfully bytes) ∧ Function.Injective base64UrlNoPad ∧
      (∀ bytes, ReadsBack (generateId bytes)) ∧ Function.Injective generateId := by
  have hinjective : Function.Injective base64UrlNoPad := by
    rw [funext base64UrlNoPad_eq]
    exact toBase64Url_injective
  refine ⟨encodesFaithfully, hinjective, fun bytes => readsBack_of_isId (isId_generateId bytes), ?_⟩
  intro a b h
  exact Vector.toList_inj.mp (hinjective (String.ofList_injective h))

example : ofBase64Url "Zm9vYmE".toList = some [0x66, 0x6f, 0x6f, 0x62, 0x61] := by decide +kernel

end Frame

end Vcmp
