import Mathlib.Algebra.Group.Nat.Defs
import Mathlib.Data.List.GetD
import Mathlib.Data.Nat.Init
/-!
# Rows of bits

A row of digits of one width read as a row of bits, most significant
first and zero behind the end, and cut into digits of another width. Codes
that write a word of some bits as letters of a smaller alphabet do this
and nothing else, so what they lose and keep is settled here: nothing is
lost where the new digits have room for the old ones
(`regroup_regroup`).
-/

namespace Vcmp

variable {v w n m i j : ℕ} {ds es : List ℕ} {bits bits' : ℕ → Bool}

/-- The bit `j` of a row of digits of `w` bits. -/
def bitAt (w : ℕ) (ds : List ℕ) (j : ℕ) : Bool := (ds.getD (j / w) 0).testBit (w - 1 - j % w)

/-- The digit `i` of `w` bits of a row of bits. -/
def digitAt (w : ℕ) (bits : ℕ → Bool) (i : ℕ) : ℕ :=
  Nat.ofBits fun k : Fin w => bits (w * i + (w - 1 - k))

/-- The first `n` digits of `w` bits. -/
def digitsOf (w n : ℕ) (bits : ℕ → Bool) : List ℕ := (List.range n).map (digitAt w bits)

/-- **Digits of `v` bits cut into `n` digits of `w` bits.** -/
def regroup (v w n : ℕ) (ds : List ℕ) : List ℕ := digitsOf w n (bitAt v ds)

@[simp] theorem length_digitsOf (w n : ℕ) (bits : ℕ → Bool) : (digitsOf w n bits).length = n := by
  simp [digitsOf]

@[simp] theorem length_regroup (v w n : ℕ) (ds : List ℕ) : (regroup v w n ds).length = n :=
  length_digitsOf w n _

theorem digitAt_lt (w : ℕ) (bits : ℕ → Bool) (i : ℕ) : digitAt w bits i < 2 ^ w :=
  Nat.ofBits_lt_two_pow _

theorem lt_of_mem_digitsOf {d : ℕ} (h : d ∈ digitsOf w n bits) : d < 2 ^ w := by
  obtain ⟨i, -, rfl⟩ := List.mem_map.mp h
  exact digitAt_lt w bits i

theorem testBit_digitAt {k : ℕ} (hk : k < w) :
    (digitAt w bits i).testBit k = bits (w * i + (w - 1 - k)) :=
  Nat.testBit_ofBits_lt _ k hk

/-- A number of `w` bits is known by them. -/
theorem eq_digitAt {d : ℕ} (hd : d < 2 ^ w)
    (h : ∀ k < w, d.testBit k = bits (w * i + (w - 1 - k))) : d = digitAt w bits i := by
  refine Nat.eq_of_testBit_eq fun k => ?_
  by_cases hk : k < w
  · rw [h k hk, testBit_digitAt hk]
  · have hle : 2 ^ w ≤ 2 ^ k := Nat.pow_le_pow_right (by decide) (by omega)
    rw [Nat.testBit_lt_two_pow (by omega),
      Nat.testBit_lt_two_pow (Nat.lt_of_lt_of_le (digitAt_lt w bits i) hle)]

/-- **A digit cut out of digits of its own width is the digit.** -/
theorem digitAt_bitAt (hlt : ds.getD i 0 < 2 ^ w) : digitAt w (bitAt w ds) i = ds.getD i 0 := by
  refine (eq_digitAt hlt fun k hk => ?_).symm
  have hdiv : (w * i + (w - 1 - k)) / w = i := by
    rw [Nat.mul_add_div (by omega), Nat.div_eq_of_lt (by omega), Nat.add_zero]
  have hmod : (w * i + (w - 1 - k)) % w = w - 1 - k := by
    rw [Nat.mul_add_mod, Nat.mod_eq_of_lt (by omega)]
  have hback : w - 1 - (w - 1 - k) = k := by omega
  rw [bitAt, hdiv, hmod, hback]

/-- **The bits of digits are the bits they were cut from.** -/
theorem bitAt_digitsOf (hw : 0 < w) (hj : j < w * n) : bitAt w (digitsOf w n bits) j = bits j := by
  have hi : j / w < n := Nat.div_lt_of_lt_mul hj
  have hmod : j % w < w := Nat.mod_lt j hw
  have hget : (digitsOf w n bits).getD (j / w) 0 = digitAt w bits (j / w) := by
    simp [digitsOf, List.getD_eq_getElem?_getD, List.getElem?_range hi]
  have hplace : w * (j / w) + (w - 1 - (w - 1 - j % w)) = j := by
    have hsplit := Nat.div_add_mod j w
    omega
  rw [bitAt, hget, testBit_digitAt (by omega), hplace]

theorem digitsOf_congr (h : ∀ j < w * n, bits j = bits' j) :
    digitsOf w n bits = digitsOf w n bits' := by
  refine List.map_congr_left fun i hi => ?_
  have hi : i < n := List.mem_range.mp hi
  refine eq_digitAt (digitAt_lt w bits i) fun k hk => ?_
  have hle : w * (i + 1) ≤ w * n := Nat.mul_le_mul_left w hi
  rw [Nat.mul_add] at hle
  rw [testBit_digitAt hk, h _ (by omega)]

/-- **Digits are those of their own bits.** -/
theorem digitsOf_bitAt (h : ∀ d ∈ ds, d < 2 ^ w) : digitsOf w ds.length (bitAt w ds) = ds := by
  refine List.ext_getElem (by simp) fun i hi hi' => ?_
  have hget : ds.getD i 0 = ds[i] := by simp [hi']
  have hlt : ds.getD i 0 < 2 ^ w := hget ▸ h _ (List.getElem_mem hi')
  rw [← hget, ← digitAt_bitAt hlt]
  simp [digitsOf]

/-- **Nothing is lost** where the new digits have room for all the bits:
cut back, they are the old digits. -/
theorem regroup_regroup (hw : 0 < w) (hroom : v * ds.length ≤ w * n) (h : ∀ d ∈ ds, d < 2 ^ v) :
    regroup w v ds.length (regroup v w n ds) = ds := by
  calc regroup w v ds.length (regroup v w n ds)
      = digitsOf v ds.length (bitAt v ds) :=
        digitsOf_congr fun j hj => bitAt_digitsOf hw (Nat.lt_of_lt_of_le hj hroom)
    _ = ds := digitsOf_bitAt h

/-! ## Rows in a row -/

/-- Behind the first digits come the bits of the others. -/
theorem bitAt_append (hw : 0 < w) : bitAt w (ds ++ es) (w * ds.length + j) = bitAt w es j := by
  have hdiv : (w * ds.length + j) / w = ds.length + j / w := Nat.mul_add_div hw _ _
  have hmod : (w * ds.length + j) % w = j % w := Nat.mul_add_mod _ _ _
  rw [bitAt, bitAt, hdiv, hmod, List.getD_append_right _ _ _ _ (Nat.le_add_right _ _),
    Nat.add_sub_cancel_left]

/-- The bits of the first digits. -/
theorem bitAt_append_left (hj : j < w * ds.length) : bitAt w (ds ++ es) j = bitAt w ds j := by
  rw [bitAt, bitAt, List.getD_append _ _ _ _ (Nat.div_lt_of_lt_mul hj)]

theorem digitAt_add : digitAt w bits (m + i) = digitAt w (fun j => bits (w * m + j)) i := by
  refine eq_digitAt (digitAt_lt w bits _) fun k hk => ?_
  rw [testBit_digitAt hk, Nat.mul_add, Nat.add_assoc]

theorem digitsOf_add : digitsOf w (m + n) bits =
    digitsOf w m bits ++ digitsOf w n fun j => bits (w * m + j) := by
  simp only [digitsOf, List.range_add, List.map_append, List.map_map]
  refine congrArg _ (List.map_congr_left fun i _ => ?_)
  exact digitAt_add

/-- **Where the digits of a first part fill new digits, they are cut apart
from the rest.** -/
theorem regroup_append (hv : 0 < v) (hfull : v * ds.length = w * m) :
    regroup v w (m + n) (ds ++ es) = regroup v w m ds ++ regroup v w n es := by
  unfold regroup
  rw [digitsOf_add]
  refine congrArg₂ _ (digitsOf_congr fun j hj => bitAt_append_left (by omega)) ?_
  exact digitsOf_congr fun j _ => by rw [← hfull, bitAt_append hv]

end Vcmp
