import Mathlib.Algebra.BigOperators.Group.List.Basic
import Mathlib.Algebra.GroupWithZero.Nat
import Mathlib.Algebra.Order.BigOperators.Group.List
import Mathlib.Algebra.Order.Group.Nat
import Mathlib.Algebra.BigOperators.Group.Finset.Basic
import Mathlib.Data.Fintype.BigOperators
/-!
# Tallies

The total weight of a list of holdings, and how it moves when one of
them is taken, given back or replaced. An account that is kept by adding
and subtracting agrees with its holdings when both move this way.

Lists are positions here as well: `getElem?_set_cases` says what stands
where after one position was overwritten.
-/

namespace Vcmp

variable {α ι : Type*} {f : α → ℕ} {a b : α} {l : List α} {i j : ℕ}

/-- The total weight of a list. -/
def total (f : α → ℕ) (l : List α) : ℕ := (l.map f).sum

@[simp] theorem total_nil : total f [] = 0 := rfl

@[simp] theorem total_cons : total f (a :: l) = f a + total f l := by
  simp [total]

@[simp] theorem total_append {m : List α} : total f (l ++ m) = total f l + total f m := by
  simp [total]

@[simp] theorem total_map {β : Type*} {g : β → α} {m : List β} :
    total f (m.map g) = total (fun x => f (g x)) m := by
  simp [total, Function.comp_def]

theorem total_flatMap {β : Type*} {g : β → List α} {m : List β} :
    total f (m.flatMap g) = total (fun b => total f (g b)) m := by
  induction m with
  | nil => rfl
  | cons b m ih => rw [List.flatMap_cons, total_append, ih, total_cons]

/-- Where holdings of a kind weigh the same, and the others nothing. -/
theorem total_ite (q : α → Bool) (n : ℕ) (l : List α) :
    total (fun a => if q a then n else 0) l = n * l.countP q := by
  induction l with
  | nil => rfl
  | cons a l ih =>
    rw [total_cons, ih, List.countP_cons, Nat.mul_add, Nat.add_comm]
    cases q a <;> simp

/-- Taking out a holding takes out its weight. -/
theorem total_erase [BEq α] [LawfulBEq α] (h : a ∈ l) :
    f a + total f (l.erase a) = total f l := by
  rw [← total_cons]
  exact ((List.perm_cons_erase h).map f).sum_eq.symm

/-- A holding weighs no more than all of them. -/
theorem le_total (h : a ∈ l) : f a ≤ total f l :=
  List.single_le_sum (fun _ _ => Nat.zero_le _) _ (List.mem_map_of_mem h)

/-- **Replacing a holding changes the total by the difference.** -/
theorem total_set (h : l[i]? = some a) : total f (l.set i b) + f a = total f l + f b := by
  induction l generalizing i with
  | nil => simp at h
  | cons c l ih =>
    cases i with
    | zero =>
      simp only [List.getElem?_cons_zero, Option.some.injEq] at h
      subst h
      simp only [List.set_cons_zero, total_cons]
      omega
    | succ i =>
      have hrest := ih (by simpa using h)
      simp only [List.set_cons_succ, total_cons]
      omega

/-- Modifying a holding that keeps its weight. -/
theorem total_modify {g : α → α} (hg : ∀ a, f (g a) = f a) : total f (l.modify i g) = total f l := by
  induction l generalizing i with
  | nil => simp
  | cons a l ih =>
    cases i with
    | zero => simp [hg]
    | succ i => simp [ih]

/-- **A change of one holding adds what it adds to that**, behind every place. -/
theorem total_drop_modify_le {g : α → α} {n : ℕ} (hg : ∀ a, f (g a) ≤ f a + n) (i j : ℕ) :
    total f ((l.modify i g).drop j) ≤ total f (l.drop j) + n := by
  induction l generalizing i j with
  | nil => simp
  | cons a l ih =>
    cases j with
    | zero =>
      cases i with
      | zero =>
        have hhead := hg a
        simp only [List.modify_zero_cons, List.drop_zero, total_cons]
        omega
      | succ i =>
        have hrest := ih i 0
        simp only [List.drop_zero] at hrest
        simp only [List.modify_succ_cons, List.drop_zero, total_cons]
        omega
    | succ j =>
      cases i with
      | zero => simp
      | succ i => simpa using ih i j

theorem total_add {g : α → ℕ} : total (fun a => f a + g a) l = total f l + total g l := by
  induction l with
  | nil => rfl
  | cons a l ih =>
    simp only [total_cons, ih]
    omega

/-- Lists that weigh the same at every place weigh the same. -/
theorem total_congr {m : List α} (h : ∀ i : ℕ, m[i]?.map f = l[i]?.map f) : total f m = total f l := by
  have hmap : m.map f = l.map f := List.ext_getElem? fun i => by simpa using h i
  rw [total, hmap, total]

/-- **Taking out the holding with a key** takes out its weight, where keys differ. -/
theorem total_filter_ne {κ : Type*} [DecidableEq κ] (key : α → κ) (hkeys : (l.map key).Nodup)
    (h : a ∈ l) : total f (l.filter (key · ≠ key a)) + f a = total f l := by
  induction l with
  | nil => cases h
  | cons b l ih =>
    rw [List.map_cons, List.nodup_cons] at hkeys
    by_cases hba : key b = key a
    · have hrest : l.filter (key · ≠ key a) = l := by
        rw [List.filter_eq_self]
        intro c hc
        simp only [ne_eq, decide_not, Bool.not_eq_true', decide_eq_false_iff_not]
        intro hca
        exact hkeys.1 (List.mem_map.mpr ⟨c, hc, hca.trans hba.symm⟩)
      have hab : a = b := by
        rcases List.mem_cons.mp h with rfl | h
        · rfl
        · exact absurd (List.mem_map.mpr ⟨a, h, hba.symm⟩) hkeys.1
      subst hab
      have hout : (a :: l).filter (key · ≠ key a) = l := by
        rw [List.filter_cons_of_neg (by simp), hrest]
      rw [hout, total_cons]
      omega
    · have hmem : a ∈ l := by
        rcases List.mem_cons.mp h with rfl | h
        · exact absurd rfl hba
        · exact h
      have hrest := ih hkeys.2 hmem
      have hkeep : (b :: l).filter (key · ≠ key a) = b :: l.filter (key · ≠ key a) :=
        List.filter_cons_of_pos (by simpa using hba)
      rw [hkeep, total_cons, total_cons]
      omega

/-- Where everything weighs something, there are no more than the tally. -/
theorem length_le_total (h : ∀ a ∈ l, 1 ≤ f a) : l.length ≤ total f l := by
  induction l with
  | nil => exact Nat.zero_le _
  | cons a l ih =>
    have hhead := h a (by simp)
    have htail := ih fun b hb => h b (by simp [hb])
    simp only [List.length_cons, total_cons]
    omega

/-- A list of weightless holdings weighs nothing. -/
theorem total_eq_zero (h : ∀ a ∈ l, f a = 0) : total f l = 0 := by
  rw [total, List.sum_eq_zero]
  simpa using h

/-- **Where only one holding weighs anything**, the total is no more than it may weigh. -/
theorem total_le_of_unique {n : ℕ} (hle : ∀ a ∈ l, f a ≤ n)
    (hone : ∀ (i j : ℕ) (a b : α), l[i]? = some a → l[j]? = some b → f a ≠ 0 → f b ≠ 0 → i = j) :
    total f l ≤ n := by
  induction l with
  | nil => exact Nat.zero_le n
  | cons c l ih =>
    rw [total_cons]
    by_cases hc : f c = 0
    · have hrest := ih (fun a ha => hle a (List.mem_cons_of_mem c ha)) fun i j a b hi hj ha hb => by
        have hsucc := hone (i + 1) (j + 1) a b hi hj ha hb
        omega
      omega
    · -- whatever else weighs something would stand where the first does
      have hrest : total f l = 0 := by
        refine total_eq_zero fun a ha => ?_
        by_contra hne
        obtain ⟨i, hi⟩ := List.getElem?_of_mem ha
        exact absurd (hone 0 (i + 1) c a rfl hi hc hne) (by omega)
      have hfirst := hle c List.mem_cons_self
      omega

/-- **The totals of the parts are the total**, whoever each holding is of. -/
theorem sum_total_filter [Fintype ι] [DecidableEq ι] (owner : α → ι) (l : List α) :
    ∑ i, total f (l.filter (owner · = i)) = total f l := by
  induction l with
  | nil => simp
  | cons a l ih =>
    have hsplit : ∀ i, total f ((a :: l).filter (owner · = i)) =
        (if owner a = i then f a else 0) + total f (l.filter (owner · = i)) := by
      intro i
      by_cases h : owner a = i <;> simp [h]
    simp only [hsplit, Finset.sum_add_distrib, ih, total_cons, Finset.sum_ite_eq,
      Finset.mem_univ, if_true]

/-- Whose holding it is, the parts but one are as before. -/
theorem total_filter_erase [BEq α] [LawfulBEq α] [DecidableEq ι] (owner : α → ι) (h : a ∈ l)
    (i : ι) : (if owner a = i then f a else 0) + total f ((l.erase a).filter (owner · = i)) =
      total f (l.filter (owner · = i)) := by
  have hperm := (List.perm_cons_erase h).filter (owner · = i)
  have htotal : total f (l.filter (owner · = i)) =
      total f ((a :: l.erase a).filter (owner · = i)) := (hperm.map f).sum_eq
  rw [htotal]
  by_cases ho : owner a = i <;> simp [ho]

/-! ## Positions -/

/-- **What stands where after a position was overwritten.** -/
theorem getElem?_set_cases (h : (l.set i b)[j]? = some a) :
    (j = i ∧ a = b) ∨ (j ≠ i ∧ l[j]? = some a) := by
  rw [List.getElem?_set] at h
  by_cases hij : i = j
  · subst hij
    rw [if_pos rfl] at h
    split at h
    · exact .inl ⟨rfl, (Option.some.inj h).symm⟩
    · exact absurd h (by simp)
  · rw [if_neg hij] at h
    exact .inr ⟨fun h => hij h.symm, h⟩

/-- What stands where after a list was extended by one. -/
theorem getElem?_concat_cases (h : (l ++ [b])[j]? = some a) :
    (j = l.length ∧ a = b) ∨ l[j]? = some a := by
  rw [List.getElem?_append] at h
  split at h
  · exact .inr h
  · rename_i hlen
    rcases hk : j - l.length with - | k
    · rw [hk] at h
      exact .inl ⟨by omega, (by simpa using h.symm)⟩
    · rw [hk] at h
      simp at h

/-- What stands somewhere stands there after more was appended. -/
theorem getElem?_append_some {m : List α} (h : l[i]? = some a) : (l ++ m)[i]? = some a := by
  rw [List.getElem?_append_left (List.getElem?_eq_some_iff.mp h).1, h]

theorem getElem?_of_extends {m : List α} (h : l <+: m) (hi : l[i]? = some a) : m[i]? = some a := by
  obtain ⟨more, rfl⟩ := h
  exact getElem?_append_some hi

/-- What stands where after a position was modified. -/
theorem getElem?_modify_cases {g : α → α} (h : (l.modify i g)[j]? = some a) :
    ∃ b, l[j]? = some b ∧ a = if i = j then g b else b := by
  rw [List.getElem?_modify, Option.map_eq_map, Option.map_eq_some_iff] at h
  obtain ⟨b, hb, rfl⟩ := h
  exact ⟨b, hb, rfl⟩

/-- A position that is there is still there after an overwriting. -/
theorem getElem?_set_self' (h : l[i]? = some a) : (l.set i b)[i]? = some b := by
  obtain ⟨hlt, -⟩ := List.getElem?_eq_some_iff.mp h
  simp [hlt]

/-- What is known of a place stays known of it, where an overwriting keeps it. -/
theorem exists_getElem?_set {p : α → Prop} (h : ∃ c, l[j]? = some c ∧ p c) (hi : l[i]? = some a)
    (hp : p a → p b) : ∃ c, (l.set i b)[j]? = some c ∧ p c := by
  obtain ⟨c, hc, hpc⟩ := h
  by_cases hij : i = j
  · subst hij
    obtain rfl : c = a := Option.some.inj (hc.symm.trans hi)
    exact ⟨b, getElem?_set_self' hi, hp hpc⟩
  · exact ⟨c, (List.getElem?_set_ne hij).trans hc, hpc⟩

/-- A place where something stands that a list has once. -/
theorem index_eq_of_filter {p : α → Bool} (h : l.filter p = [b]) {c d : α} (hc : l[i]? = some c)
    (hd : l[j]? = some d) (hpc : p c = true) (hpd : p d = true) : i = j := by
  have least : ∀ {i j : ℕ} {c d : α}, l[i]? = some c → l[j]? = some d → p c = true → p d = true →
      ¬ i < j := by
    intro i j c d hc hd hpc hpd hij
    have hfront : c ∈ (l.take j).filter p :=
      List.mem_filter.mpr ⟨List.mem_of_getElem? (by rw [List.getElem?_take_of_lt hij]; exact hc), hpc⟩
    have hback : d ∈ (l.drop j).filter p :=
      List.mem_filter.mpr ⟨List.mem_of_getElem? (i := 0) (by rw [List.getElem?_drop]; exact hd), hpd⟩
    have hlength := congrArg List.length h
    rw [← List.take_append_drop j l, List.filter_append, List.length_append] at hlength
    have hone := List.length_pos_of_mem hfront
    have htwo := List.length_pos_of_mem hback
    simp only [List.length_singleton] at hlength
    omega
  have hle := least hc hd hpc hpd
  have hge := least hd hc hpd hpc
  omega

/-- Modifying a position overwrites it with what was made of it. -/
theorem modify_eq_set {g : α → α} (h : l[i]? = some a) : l.modify i g = l.set i (g a) := by
  refine List.ext_getElem? fun j => ?_
  rw [List.getElem?_modify, List.getElem?_set]
  obtain ⟨hlt, rfl⟩ := List.getElem?_eq_some_iff.mp h
  by_cases hij : i = j
  · subst hij
    simp [hlt]
  · cases l[j]? <;> simp [hij]

/-- Positions with the same key are the same, where the keys are distinct. -/
theorem index_eq_of_filterMap {κ : Type*} {g : α → Option κ} {c : κ} (h : (l.filterMap g).Nodup)
    (hi : l[i]? = some a) (hj : l[j]? = some b) (ha : g a = some c) (hb : g b = some c) : i = j := by
  have hpairs := List.pairwise_iff_getElem.mp (List.pairwise_filterMap.mp h)
  obtain ⟨hilt, rfl⟩ := List.getElem?_eq_some_iff.mp hi
  obtain ⟨hjlt, rfl⟩ := List.getElem?_eq_some_iff.mp hj
  rcases Nat.lt_trichotomy i j with hlt | heq | hgt
  · exact absurd rfl (hpairs i j hilt hjlt hlt c ha c hb)
  · exact heq
  · exact absurd rfl (hpairs j i hjlt hilt hgt c hb c ha)

/-- Distinct numbers below a bound are no more than the bound. -/
theorem length_le_of_lt {ps : List ℕ} {n : ℕ} (hnodup : ps.Nodup) (hlt : ∀ p ∈ ps, p < n) :
    ps.length ≤ n := by
  have hsub : ps ⊆ List.range n := fun p hp => List.mem_range.mpr (hlt p hp)
  have hle := (List.subperm_of_subset hnodup hsub).length_le
  rwa [List.length_range] at hle

/-- All positions of a list, counted by what stands there. -/
theorem countP_range (q : α → Bool) (l : List α) :
    (List.range l.length).countP (fun p => (l[p]?).any q) = l.countP q := by
  induction l using List.reverseRecOn with
  | nil => rfl
  | append_singleton l a ih =>
    have hold : (List.range l.length).countP (fun p => ((l ++ [a])[p]?).any q) =
        (List.range l.length).countP (fun p => (l[p]?).any q) := by
      refine List.countP_congr fun p hp => ?_
      rw [List.getElem?_append_left (List.mem_range.mp hp)]
    rw [List.length_append, List.length_singleton, List.range_succ, List.countP_append, hold, ih,
      List.countP_append]
    simp

/-- **Distinct positions are no more than the list has**, of any kind. -/
theorem countP_positions_le (q : α → Bool) {ps : List ℕ} (hnodup : ps.Nodup)
    (hlt : ∀ p ∈ ps, p < l.length) : ps.countP (fun p => (l[p]?).any q) ≤ l.countP q := by
  have hsub : ps ⊆ List.range l.length := fun p hp => List.mem_range.mpr (hlt p hp)
  rw [← countP_range q l]
  exact (List.subperm_of_subset hnodup hsub).countP_le _

end Vcmp
