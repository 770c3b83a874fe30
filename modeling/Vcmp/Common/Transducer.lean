import Mathlib.Data.List.Basic
import Mathlib.Data.Option.Basic
/-!
# Transducers

A transducer reads pieces one at a time and puts out a list for each, and
may come to an end, after which it puts out nothing. What it puts out
only grows with what it reads (`run_prefix`), and two of them may stand
one behind the other (`andThen`).

What pieces may come in a state is a condition of its own (`Meets`), and
where one transducer stands for another it has to do so only on such
pieces.

Where one undoes an encoding message by message (`Decodes`), it undoes
the encoding of any list of messages, and of a list cut off anywhere it
makes the messages that are complete, and nothing else.
-/

namespace Vcmp

/-- **A transducer**: the state it starts in, and for a piece the state
after it, none where it has ended, with what is put out. -/
structure Transducer (σ φ μ : Type*) where
  start : σ
  step : σ → φ → Option σ × List μ

namespace Transducer

variable {σ τ φ μ ν : Type*} (T : Transducer σ φ μ)

/-- The state after a list of pieces, and all that was put out. -/
def run (T : Transducer σ φ μ) : Option σ → List φ → Option σ × List μ
  | none, _ => (none, [])
  | some s, [] => (some s, [])
  | some s, f :: l => ((run T (T.step s f).1 l).1, (T.step s f).2 ++ (run T (T.step s f).1 l).2)

/-- What is put out from the start. -/
def output (l : List φ) : List μ := (T.run (some T.start) l).2

@[simp] theorem run_none (l : List φ) : T.run none l = (none, []) := by
  cases l <;> rfl

@[simp] theorem run_nil (o : Option σ) : T.run o [] = (o, []) := by
  cases o <;> rfl

theorem run_cons (s : σ) (f : φ) (l : List φ) : T.run (some s) (f :: l) =
    ((T.run (T.step s f).1 l).1, (T.step s f).2 ++ (T.run (T.step s f).1 l).2) := rfl

/-- One list after another. -/
theorem run_append (o : Option σ) (l m : List φ) : T.run o (l ++ m) =
    ((T.run (T.run o l).1 m).1, (T.run o l).2 ++ (T.run (T.run o l).1 m).2) := by
  induction l generalizing o with
  | nil => simp
  | cons f l ih =>
    cases o with
    | none => simp
    | some s => simp only [List.cons_append, run_cons, ih, List.append_assoc]

/-- **What is put out only grows.** -/
theorem run_prefix (o : Option σ) {l m : List φ} (h : l <+: m) :
    (T.run o l).2 <+: (T.run o m).2 := by
  obtain ⟨k, rfl⟩ := h
  rw [run_append]
  exact List.prefix_append _ _

/-! ## Pieces that change nothing -/

/-- Pieces that change nothing and put out nothing. -/
def Skips (p : φ → Prop) : Prop := ∀ s f, p f → T.step s f = (some s, [])

variable {T}

/-- **What is skipped may as well not be there.** -/
theorem Skips.run_filter {p : φ → Prop} [DecidablePred p] (h : T.Skips p) (o : Option σ)
    (l : List φ) : T.run o l = T.run o (l.filter fun f => ¬ p f) := by
  induction l generalizing o with
  | nil => rfl
  | cons f l ih =>
    cases o with
    | none => simp
    | some s =>
      by_cases hf : p f
      · rw [List.filter_cons_of_neg (by simpa using hf), run_cons, h s f hf, ih]
        rfl
      · rw [List.filter_cons_of_pos (by simpa using hf), run_cons, run_cons, ih]

/-! ## Pieces that may come -/

/-- Each piece of a list, as long as the transducer goes on, meets a
condition in the state it comes in. -/
def Meets (T : Transducer σ φ μ) (ok : σ → φ → Prop) : Option σ → List φ → Prop
  | none, _ => True
  | some _, [] => True
  | some s, f :: l => ok s f ∧ Meets T ok (T.step s f).1 l

section

variable (T) {ok : σ → φ → Prop}

@[simp] theorem meets_none (l : List φ) : T.Meets ok none l := by
  cases l <;> trivial

@[simp] theorem meets_nil (o : Option σ) : T.Meets ok o [] := by
  cases o <;> trivial

theorem meets_cons (s : σ) (f : φ) (l : List φ) :
    T.Meets ok (some s) (f :: l) ↔ ok s f ∧ T.Meets ok (T.step s f).1 l := Iff.rfl

theorem meets_append (o : Option σ) (l m : List φ) :
    T.Meets ok o (l ++ m) ↔ T.Meets ok o l ∧ T.Meets ok (T.run o l).1 m := by
  induction l generalizing o with
  | nil => simp
  | cons f l ih =>
    cases o with
    | none => simp
    | some s => simp only [List.cons_append, meets_cons, run_cons, ih, and_assoc]

end

/-- What meets the condition does so without what is skipped, and the other
way round where that meets it anywhere. -/
theorem Skips.meets_filter {p : φ → Prop} [DecidablePred p] {ok : σ → φ → Prop} (h : T.Skips p)
    {l : List φ} (hok : ∀ s, ∀ f ∈ l, p f → ok s f) (o : Option σ) :
    T.Meets ok o (l.filter fun f => ¬ p f) → T.Meets ok o l := by
  induction l generalizing o with
  | nil => exact id
  | cons f l ih =>
    cases o with
    | none => exact fun _ => meets_none T _
    | some s =>
      have hrest := fun s g hg => hok s g (List.mem_cons_of_mem f hg)
      by_cases hf : p f
      · rw [List.filter_cons_of_neg (by simpa using hf), meets_cons, h s f hf]
        exact fun hm => ⟨hok s f List.mem_cons_self hf, ih hrest _ hm⟩
      · rw [List.filter_cons_of_pos (by simpa using hf), meets_cons, meets_cons]
        exact fun hm => ⟨hm.1, ih hrest _ hm.2⟩

/-! ## One behind another -/

/-- **One transducer reading what another puts out.** It ends where either does. -/
def andThen (T : Transducer σ φ μ) (U : Transducer τ μ ν) : Transducer (σ × τ) φ ν where
  start := (T.start, U.start)
  step p f :=
    let r := T.step p.1 f
    let r' := U.run (some p.2) r.2
    (r.1.bind fun s => r'.1.map fun t => (s, t), r'.2)

/-! ## One seen as another -/

/-- **One transducer follows another** on the pieces that may come, as long
as the other goes on: from related states they put out the same. Where
the other has ended, nothing is asked of what comes after. -/
structure Follows (T : Transducer σ φ μ) (U : Transducer τ φ μ) (ok : τ → φ → Prop)
    (rel : σ → τ → Prop) : Prop where
  start : rel T.start U.start
  output : ∀ s t f, rel s t → ok t f → (T.step s f).2 = (U.step t f).2
  goesOn : ∀ s t t' f, rel s t → ok t f → (U.step t f).1 = some t' →
    ∃ s', (T.step s f).1 = some s' ∧ rel s' t'

/-- A transducer follows itself. -/
theorem Follows.refl (U : Transducer τ φ μ) (ok : τ → φ → Prop) : U.Follows U ok Eq where
  start := rfl
  output _ _ _ h _ := by rw [h]
  goesOn := by
    rintro s t t' f rfl _ h
    exact ⟨t', h, rfl⟩

open Classical in
/-- A transducer that ends at the first piece that may not come, with something put out. -/
noncomputable def guarded (U : Transducer τ φ μ) (ok : τ → φ → Prop) (out : List μ) :
    Transducer τ φ μ where
  start := U.start
  step t f := if ok t f then U.step t f else (none, out)

/-- It follows the other. -/
theorem follows_guarded (U : Transducer τ φ μ) (ok : τ → φ → Prop) (out : List μ) :
    (U.guarded ok out).Follows U ok Eq where
  start := rfl
  output := by
    rintro s t f rfl hf
    simp only [guarded, if_pos hf]
  goesOn := by
    rintro s t t' f rfl hf h
    exact ⟨t', by simp only [guarded, if_pos hf, h], rfl⟩

/-- **One transducer puts out what another does** on the pieces that may
come, and ends where it does. -/
structure Refines (T : Transducer σ φ μ) (U : Transducer τ φ μ) (ok : τ → φ → Prop)
    (rel : σ → τ → Prop) : Prop where
  start : rel T.start U.start
  step : ∀ s t f, rel s t → ok t f →
    (T.step s f).2 = (U.step t f).2 ∧ Option.Rel rel (T.step s f).1 (U.step t f).1

theorem Refines.run {U : Transducer τ φ μ} {ok : τ → φ → Prop} {rel : σ → τ → Prop}
    (h : T.Refines U ok rel) {o : Option σ} {o' : Option τ} (hrel : Option.Rel rel o o')
    {l : List φ} (hl : U.Meets ok o' l) :
    (T.run o l).2 = (U.run o' l).2 ∧ Option.Rel rel (T.run o l).1 (U.run o' l).1 := by
  induction l generalizing o o' with
  | nil => simp [hrel]
  | cons f l ih =>
    cases hrel with
    | none => simp
    | some hs =>
      obtain ⟨hf, hl⟩ := hl
      obtain ⟨hout, hnext⟩ := h.step _ _ f hs hf
      obtain ⟨hrest, hend⟩ := ih hnext hl
      simp only [run_cons]
      exact ⟨by rw [hout, hrest], hend⟩

theorem Refines.output_eq {U : Transducer τ φ μ} {ok : τ → φ → Prop} {rel : σ → τ → Prop}
    (h : T.Refines U ok rel) {l : List φ} (hl : U.Meets ok (some U.start) l) :
    T.output l = U.output l :=
  (h.run (.some h.start) hl).1

/-- **Behind a reader that ends with the other, following is refining.** -/
theorem Follows.andThen {κ : Type*} {U : Transducer τ φ μ} {ok : τ → φ → Prop}
    {rel : σ → τ → Prop} (h : T.Follows U ok rel) (V : Transducer κ μ ν)
    (hends : ∀ t f v, (U.step t f).1 = none → (V.run (some v) (U.step t f).2).1 = none) :
    (T.andThen V).Refines (U.andThen V) (fun q => ok q.1) fun p q => rel p.1 q.1 ∧ p.2 = q.2 where
  start := ⟨h.start, rfl⟩
  step := by
    rintro ⟨s, v⟩ ⟨t, w⟩ f ⟨hrel, rfl⟩ hf
    have hout := h.output s t f hrel hf
    refine ⟨by simp only [Transducer.andThen, hout], ?_⟩
    simp only [Transducer.andThen, hout]
    rcases hU : (U.step t f).1 with - | t'
    · rw [hends t f v hU]
      cases (T.step s f).1 <;> exact .none
    · obtain ⟨s', hs', hrel'⟩ := h.goesOn s t t' f hrel hf hU
      rw [hs']
      cases (V.run (some v) (U.step t f).2).1 with
      | none => exact .none
      | some v' => exact .some ⟨hrel', rfl⟩

/-! ## Encodings -/

/-- **An encoding a transducer undoes**, from its start and back to it: the
message is put out with the last piece, and nothing before. -/
structure Decodes (T : Transducer σ φ μ) (encode : μ → List φ) (ok : μ → Prop) : Prop where
  whole : ∀ m, ok m → T.run (some T.start) (encode m) = (some T.start, [m])
  torn : ∀ m, ok m → ∀ l, l <+: encode m → l ≠ encode m → (T.run (some T.start) l).2 = []

namespace Decodes

variable {encode : μ → List φ} {ok : μ → Prop} (h : T.Decodes encode ok)
include h

/-- **Message after message**, what is encoded meets a condition where each
message does by itself. -/
theorem meets_flatMap {ok' : σ → φ → Prop} {ms : List μ} (hok : ∀ m ∈ ms, ok m)
    (hmeets : ∀ m ∈ ms, T.Meets ok' (some T.start) (encode m)) :
    T.Meets ok' (some T.start) (ms.flatMap encode) := by
  induction ms with
  | nil => exact meets_nil T _
  | cons m ms ih =>
    rw [List.flatMap_cons, meets_append, h.whole m (hok m List.mem_cons_self)]
    exact ⟨hmeets m List.mem_cons_self, ih (fun m' hm' => hok m' (List.mem_cons_of_mem _ hm'))
      fun m' hm' => hmeets m' (List.mem_cons_of_mem _ hm')⟩

/-- **Of a list cut off anywhere, the messages that are complete**: those
whose encodings are in the part that is left. -/
theorem run_cut {ms : List μ} (hok : ∀ m ∈ ms, ok m) {l : List φ} (hl : l <+: ms.flatMap encode) :
    ∃ k ≤ ms.length, (T.run (some T.start) l).2 = ms.take k ∧
      ((ms.take k).flatMap encode).length ≤ l.length ∧
      (k < ms.length → l.length < ((ms.take (k + 1)).flatMap encode).length) := by
  induction ms generalizing l with
  | nil =>
    obtain rfl : l = [] := by simpa using hl
    exact ⟨0, Nat.le_refl _, rfl, Nat.le_refl _, fun hk => absurd hk (by simp)⟩
  | cons m ms ih =>
    have hm := hok m List.mem_cons_self
    obtain ⟨more, hmore⟩ := hl
    rw [List.flatMap_cons] at hmore
    by_cases hfull : encode m <+: l
    · obtain ⟨rest, rfl⟩ := hfull
      have hrest : rest ++ more = ms.flatMap encode := by simpa using hmore
      obtain ⟨k, hk, hout, hle, hlt⟩ :=
        ih (fun m' hm' => hok m' (List.mem_cons_of_mem _ hm')) ⟨more, hrest⟩
      refine ⟨k + 1, by simpa using hk, ?_, ?_, fun hk' => ?_⟩
      · rw [run_append, h.whole m hm, List.take_succ_cons, ← hout]
        rfl
      · simp only [List.take_succ_cons, List.flatMap_cons, List.length_append]
        omega
      · have := hlt (by simpa using hk')
        simp only [List.take_succ_cons, List.flatMap_cons, List.length_append]
        omega
    · -- the first message is torn
      have hshort : l <+: encode m := by
        rcases List.append_eq_append_iff.mp hmore with ⟨part, hpart, -⟩ | ⟨part, hpart, -⟩
        · exact ⟨part, hpart.symm⟩
        · exact absurd ⟨part, hpart.symm⟩ hfull
      have hne : l ≠ encode m := fun heq => hfull (heq ▸ List.prefix_rfl)
      have hlen : l.length ≠ (encode m).length := fun hlen => hne (hshort.eq_of_length hlen)
      have hle := hshort.length_le
      refine ⟨0, Nat.zero_le _, h.torn m hm l hshort hne, Nat.zero_le _, fun _ => ?_⟩
      simp only [Nat.zero_add, List.take_succ_cons, List.take_zero, List.flatMap_cons,
        List.flatMap_nil, List.append_nil]
      omega

end Decodes

end Transducer

end Vcmp
