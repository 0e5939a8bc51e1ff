import DryadSynth.Dispatch.Meaning
import DryadSynth.Library.Worklist

/-!
# Multiplying equations by ten

For the grammar that has only multiples of ten, `timesTen` multiplies both sides of every equation
by ten.  Numerals are multiplied as Java `int`s.  Together with formatting this keeps the meaning
of a definition except where a text is looked up that is not there, and where the arithmetic of
`int`s makes a difference.
-/

namespace Sygus.Format

open LIA Lists Worklist

/-- A side of an equation times ten.  There is an exception for a formula. -/
def timesTenSide : Expr → Option Expr
  | .num n => (parseInt n).map fun num => .num ((num * 10).bmod (2 ^ 32))
  | e => if e.sort = some .int then some (.mul [e, .num 10]) else none

/-- The nodes of `timesTen`, and what becomes of them. -/
def timesTenFold : Fold Expr Expr where
  children
    | .app _ args => args
    | _ => []
  combine
    | .app .eq _, newArgs => (newArgs.mapM timesTenSide).map (.app .eq)
    | .app o _, newArgs => some (.app o newArgs)
    | e, _ => some e

/-- `timesTen`.  The outer `Option` is for the iterations, the inner one for exceptions. -/
def timesTen (fuel : ℕ) (orig : Expr) : Option (Option Expr) :=
  timesTenFold.run fuel (fun _ => none) orig

/-! ### Numerals that overflow -/

/-- A numeral that is no Java `int` any more when it is multiplied by ten. -/
def overflows : Expr → Bool
  | .num n => ! decide (InRange (n * 10))
  | _ => false

/-- A side of an equation times ten, numerals by the arithmetic of `int`s. -/
def tenfold : Expr → Expr
  | .num n => .num ((n * 10).bmod (2 ^ 32))
  | e => .mul [e, .num 10]

mutual

/-- The expression with both sides of those equations multiplied by ten where a numeral
overflows. -/
def overflowed : Expr → Expr
  | .app o l =>
      .app o (if o = .eq ∧ l.any overflows then (overflowedAll l).map tenfold else overflowedAll l)
  | e => e

def overflowedAll : List Expr → List Expr
  | [] => []
  | e :: l => overflowed e :: overflowedAll l

end

section TimesTen

variable {converted : ConvertMethod} {arg0 a a' b b' e e' : Expr} {o : Op} {l l' es : List Expr}
variable {value : Expr → Option Expr} {n : ℤ} {s : Srt}

theorem overflowedAll_eq (l : List Expr) :
  overflowedAll l = l.map overflowed
  := by
  induction l with
  | nil => rfl
  | cons e l ih => rw [overflowedAll, ih, List.map_cons]

/-- Where no numeral overflows in an equation, there is nothing to multiply. -/
theorem overflowed_eq (h : e.every fun o l => o = .eq → ∀ a ∈ l, overflows a = false) :
  overflowed e = e
  := by
  induction e with
  | num n => rfl
  | var x => rfl
  | app o l ih =>
      obtain ⟨hfits, hargs⟩ := every_app.mp h
      have hl : overflowedAll l = l := by
        rw [overflowedAll_eq]
        exact (List.map_congr_left fun a ha => ih a ha (hargs a ha)).trans (List.map_id l)
      rw [overflowed, hl, if_neg]
      rintro ⟨ho, hany⟩
      obtain ⟨a, ha, hover⟩ := List.any_eq_true.mp hany
      rw [hfits ho a ha] at hover
      cases hover

theorem children_sizeOf {t u : Expr} (h : u ∈ timesTenFold.children t) :
  sizeOf u < sizeOf t
  := by
  cases t with
  | num n => cases h
  | var x => cases h
  | app o args => exact sizeOf_lt_app h

/-- The result for an application of another operator than equality, from those for its
arguments. -/
theorem value_app (hvalue : Solves timesTenFold (fun _ => none) value) (ho : o ≠ .eq)
    (h : value (.app o l) = some e') :
  ∃ l', l.mapM value = some l' ∧ e' = .app o l'
  := by
  rw [hvalue.result rfl] at h
  obtain ⟨l', hl, h⟩ := Option.bind_eq_some_iff.mp h
  refine ⟨l', hl, ?_⟩
  simp only [timesTenFold] at h
  apply (Option.some.inj h).symm

/-- The result for an equation. -/
theorem value_eq_app (hvalue : Solves timesTenFold (fun _ => none) value)
    (h : value (.app .eq l) = some e') :
  ∃ l' es, l.mapM value = some l' ∧ l'.mapM timesTenSide = some es ∧ e' = .app .eq es
  := by
  rw [hvalue.result rfl] at h
  obtain ⟨l', hl, h⟩ := Option.bind_eq_some_iff.mp h
  obtain ⟨es, hes, rfl⟩ := Option.map_eq_some_iff.mp h
  exact ⟨l', es, hl, hes, rfl⟩

/-- Numerals are kept, and there are no new ones. -/
theorem value_num (hvalue : Solves timesTenFold (fun _ => none) value) (h : value e = some e') :
  e' = .num n ↔ e = .num n
  := by
  cases e with
  | num m =>
      rw [hvalue.result rfl] at h
      cases h
      rfl
  | var x =>
      rw [hvalue.result rfl] at h
      cases h
      rfl
  | app o l =>
      by_cases ho : o = .eq
      · subst ho
        obtain ⟨l', es, -, -, rfl⟩ := value_eq_app hvalue h
        simp
      · obtain ⟨l', -, rfl⟩ := value_app hvalue ho h
        simp

theorem overflowed_num :
  overflowed e = .num n ↔ e = .num n
  := by
  cases e with
  | num m => rfl
  | var x => rfl
  | app o l => simp [overflowed]

theorem timesTenSide_eq (h : timesTenSide e = some e') :
  e.sort = some .int ∧ e' = tenfold e
  := by
  unfold timesTenSide at h
  split at h
  · next n =>
      obtain ⟨num, hnum, rfl⟩ := Option.map_eq_some_iff.mp h
      rw [parseInt] at hnum
      split at hnum
      · cases hnum
        exact ⟨rfl, rfl⟩
      · cases hnum
  · next hne =>
      split at h
      · next hsort =>
          cases h
          use hsort
          cases e with
          | num n => exact absurd rfl (hne n)
          | var x => rfl
          | app o l => rfl
      · cases h

theorem tenfold_of_ne (hne : ∀ n, e ≠ .num n) :
  tenfold e = .mul [e, .num 10]
  := by
  cases e with
  | num n => exact absurd rfl (hne n)
  | var x => rfl
  | app o l => rfl

theorem sort_tenfold (hs : e.sort = some .int) :
  (tenfold e).sort = some .int
  := by
  unfold tenfold
  split
  · rfl
  · simp [hs]

/-- Ten times the number, unless a numeral overflows. -/
theorem intVal_tenfold (h : overflows e = false) (M : Model) :
  (tenfold e).intVal M = e.intVal M * 10
  := by
  unfold tenfold
  split
  · next n =>
      have hrange : InRange (n * 10) := by simpa [overflows] using h
      have hmod : (n * 10).bmod (2 ^ 32) = n * 10 := by
        apply Int.bmod_eq_of_le_mul_two
        · have hlow := hrange.1
          push_cast
          omega
        · have hhigh := hrange.2
          push_cast
          omega
      rw [hmod]
      rfl
  · simp

/-- Both sides of an equation between numbers can be multiplied by ten. -/
theorem preserves_tenfold (ha : overflows a = false) (hb : overflows b = false)
    (has : a.sort = some .int) (hbs : b.sort = some .int) :
  Preserves (.eq a b) (.eq (tenfold a) (tenfold b))
  := by
  apply Preserves.of_holds
  intro s hs
  obtain ⟨rfl, -⟩ := sort_eq.mp hs
  have hat := sort_tenfold has
  have hbt := sort_tenfold hbs
  refine ⟨rfl, sort_eq.mpr ⟨rfl, .int, hat, hbt⟩, fun M => ?_⟩
  rw [holds_eq_of_int hat hbt, holds_eq_of_int has hbs, intVal_tenfold ha, intVal_tenfold hb]
  apply mul_left_inj' (by decide)

theorem overflows_overflowed :
  overflows (overflowed e) = overflows e
  := by
  cases e with
  | num n => rfl
  | var x => rfl
  | app o l => rfl

/-- The side of an equation, before it is multiplied. -/
theorem preserves_side (hvalue : Solves timesTenFold (fun _ => none) value)
    (h : value e = some e') (hpres : Preserves (overflowed e) e') :
  Preserves (tenfold (overflowed e)) (tenfold e')
  := by
  by_cases hnum : ∃ n, e = .num n
  · obtain ⟨n, rfl⟩ := hnum
    rw [(value_num hvalue h).mpr rfl]
    exact .refl _
  · have hne : ∀ n, e ≠ .num n := fun n hn => hnum ⟨n, hn⟩
    rw [tenfold_of_ne fun n hn => hne n (overflowed_num.mp hn),
      tenfold_of_ne fun n hn => hne n ((value_num hvalue h).mp hn)]
    exact .app .mul (.cons hpres (.cons (.refl _) .nil))

/-- The result for an equation from those for its sides. -/
theorem preserves_equation (hvalue : Solves timesTenFold (fun _ => none) value)
    (ha : value a = some a') (hb : value b = some b') (hes : [a', b'].mapM timesTenSide = some es)
    (has : (overflowed a).sort = some s) (hbs : (overflowed b).sort = some s)
    (hpa : Preserves (overflowed a) a') (hpb : Preserves (overflowed b) b') :
  (overflowed (.eq a b)).sort = some .bool ∧ Preserves (overflowed (.eq a b)) (.app .eq es)
  := by
  obtain ⟨c, _, hc, hrest, rfl⟩ := List.forall₂_cons_left_iff.mp (mapM_eq_some_iff.mp hes)
  obtain ⟨d, _, hd, hnil, rfl⟩ := List.forall₂_cons_left_iff.mp hrest
  cases hnil
  obtain ⟨hcs, rfl⟩ := timesTenSide_eq hc
  obtain ⟨-, rfl⟩ := timesTenSide_eq hd
  obtain rfl : s = .int := Option.some.inj ((hpa s has).1.symm.trans hcs)
  have hsides : List.Forall₂ Preserves [tenfold (overflowed a), tenfold (overflowed b)]
      [tenfold a', tenfold b'] :=
    .cons (preserves_side hvalue ha hpa) (.cons (preserves_side hvalue hb hpb) .nil)
  rw [overflowed, overflowedAll_eq]
  split
  · constructor
    · apply sort_eq.mpr ⟨rfl, .int, sort_tenfold has, sort_tenfold hbs⟩
    · exact .app .eq hsides
  · next hnone =>
      have hfits : overflows a = false ∧ overflows b = false := by simpa using hnone
      constructor
      · apply sort_eq.mpr ⟨rfl, .int, has, hbs⟩
      · refine (preserves_tenfold ?_ ?_ has hbs).trans (.app .eq hsides)
        · rw [overflows_overflowed, hfits.1]
        · rw [overflows_overflowed, hfits.2]

/-- The meaning of the result is the one where the equations that overflow are multiplied. -/
theorem value_spec (hvalue : Solves timesTenFold (fun _ => none) value)
    (h : value e = some e') (hs : e.sort = some s) :
  (overflowed e).sort = some s ∧ Preserves (overflowed e) e'
  := by
  induction e generalizing e' s with
  | num n =>
      rw [hvalue.result rfl] at h
      cases h
      exact ⟨hs, .refl _⟩
  | var x =>
      rw [hvalue.result rfl] at h
      cases h
      exact ⟨hs, .refl _⟩
  | app o l ih =>
      by_cases ho : o = .eq
      · subst ho
        obtain ⟨l', es, hl, hes, rfl⟩ := value_eq_app hvalue h
        rw [sort_app, Op.sort, equalSort_eq_some] at hs
        obtain ⟨rfl, t, ht⟩ := hs
        obtain ⟨a, b, rfl⟩ : ∃ a b, l = [a, b] :=
          List.length_eq_two.mp (by simpa using congrArg List.length ht)
        simp only [List.map_cons, List.map_nil, List.cons.injEq, and_true] at ht
        obtain ⟨a', _, ha, hrest, rfl⟩ := List.forall₂_cons_left_iff.mp (mapM_eq_some_iff.mp hl)
        obtain ⟨b', _, hb, hnil, rfl⟩ := List.forall₂_cons_left_iff.mp hrest
        cases hnil
        obtain ⟨has, hpa⟩ := ih a (by simp) ha ht.1
        obtain ⟨hbs, hpb⟩ := ih b (by simp) hb ht.2
        apply preserves_equation hvalue ha hb hes has hbs hpa hpb
      · obtain ⟨l', hl, rfl⟩ := value_app hvalue ho h
        have hargs : ∀ a ∈ l, ∀ b, value a = some b →
            (overflowed a).sort = a.sort ∧ Preserves (overflowed a) b := by
          intro a ha b hb
          obtain ⟨t, ht⟩ := exists_sort_of_app hs ha
          obtain ⟨hsort, hpres⟩ := ih a ha hb ht
          exact ⟨hsort.trans ht.symm, hpres⟩
        have heq : overflowed (.app o l) = .app o (l.map overflowed) := by
          rw [overflowed, overflowedAll_eq, if_neg fun h => ho h.1]
        have hsorts : (l.map overflowed).map Expr.sort = l.map Expr.sort := by
          rw [List.map_map]
          apply List.map_congr_left
          intro a ha
          obtain ⟨b, hb⟩ := exists_of_mapM hl ha
          apply (hargs a ha b hb).1
        rw [heq]
        constructor
        · rw [sort_app, hsorts, ← sort_app, hs]
        · apply Preserves.app
          rw [List.forall₂_map_left_iff]
          exact forall₂_of_mapM hl fun a ha b hb => (hargs a ha b hb).2

/-- `timesTen` ends.  What it returns means what the expression does if it makes no difference
that the equations in which a numeral overflows are multiplied by ten. -/
theorem timesTen_spec (e : Expr) :
  ∃ r, (∃ n, ∀ m ≥ n, timesTen m e = some r) ∧
    ∀ e', r = some e' → (Preserves e e' ↔ Preserves e (overflowed e))
  := by
  have hrank : ∀ t, ∀ u ∈ timesTenFold.children t, sizeOf u < sizeOf t :=
    fun _ _ => children_sizeOf
  obtain ⟨value, hvalue⟩ := exists_solves sizeOf hrank fun _ => none
  refine ⟨_, hvalue.run sizeOf hrank e, fun e' he' => ?_⟩
  rw [← hvalue.result rfl] at he'
  constructor
  · intro hpres s hs
    obtain ⟨hsort, hover⟩ := value_spec hvalue he' hs
    exact hpres.of_trans hover (fun t ht => by rwa [hsort, ← hs]) s hs
  · intro hpres s hs
    apply hpres.trans (value_spec hvalue he' hs).2 s hs

/-! ### Both together -/

/-- The text that formatting leaves for an expression means what the expression does if and only
if the texts are there that are looked up, and it makes no difference that the least `int` is
printed as zero.  Multiplying the equations by ten keeps the meaning if and only if it makes no
difference in the equations in which a numeral overflows. -/
theorem keepsMeaning_iff
    (harg : converted = .ADDSUB → ∃ x : Var, arg0 = .var x ∧ x.sort = .int) (hlin : Linear e) :
  (∀ new cache, formatFullCLIA converted arg0 e (fun _ => none) = some (some new, cache) →
    (Parses cache e ↔ Found e ∧ Preserves e (withoutLowest converted e))) ∧
  ∃ r, (∃ n, ∀ m ≥ n, timesTen m e = some r) ∧
    ∀ e', r = some e' → (Preserves e e' ↔ Preserves e (overflowed e))
  := ⟨fun _ _ heq => formatFullCLIA_parses harg hlin heq, timesTen_spec e⟩

/-- Without the least `int`, and without equations in which ten times a numeral is no `int`, both
keep the meaning, as long as the texts are there that are looked up. -/
theorem keepsMeaning_of_fits
    (harg : converted = .ADDSUB → ∃ x : Var, arg0 = .var x ∧ x.sort = .int) (hlin : Linear e)
    (hne : e ≠ .num (-2 ^ 31)) (hlow : e.every fun _ l => Expr.num (-2 ^ 31) ∉ l)
    (hten : e.every fun o l => o = .eq → ∀ a ∈ l, overflows a = false) :
  (∀ new cache, formatFullCLIA converted arg0 e (fun _ => none) = some (some new, cache) →
    (Parses cache e ↔ Found e)) ∧
  ∃ r, (∃ n, ∀ m ≥ n, timesTen m e = some r) ∧ ∀ e', r = some e' → Preserves e e'
  := by
  constructor
  · intro new cache heq
    rw [formatFullCLIA_parses harg hlin heq, withoutLowest_eq hne hlow]
    exact and_iff_left (.refl e)
  · obtain ⟨r, hrun, hpres⟩ := timesTen_spec e
    refine ⟨r, hrun, fun e' he' => (hpres e' he').mpr ?_⟩
    rw [overflowed_eq hten]
    exact .refl e

end TimesTen

/-- Minus two times a variable. -/
def doubled : Expr := .mul [.num (-2), .var ⟨"x", .int⟩]

theorem keepsMeaning_iff_doubled :
  ∃ new cache,
    formatFullCLIA .ADDSUB (.var ⟨"x", .int⟩) doubled (fun _ => none) = some (some new, cache) ∧
      (Parses cache doubled ↔ Found doubled ∧ Preserves doubled (withoutLowest .ADDSUB doubled))
  := by
  have hlin : Linear doubled := linear_app.mpr ⟨fun _ => ⟨_, _, .inl rfl⟩, by simp [Linear]⟩
  exact ⟨_, _, rfl, (keepsMeaning_iff (fun _ => ⟨_, rfl, rfl⟩) hlin).1 _ _ rfl⟩

/-- Two times a sum of three variables. -/
def doubledSum : Expr :=
  .mul [.num 2, .add [.var ⟨"x", .int⟩, .var ⟨"y", .int⟩, .var ⟨"z", .int⟩]]

/-- An equation with a numeral that is no `int` any more when it is multiplied by ten. -/
def largeEquation : Expr := .eq (.var ⟨"x", .int⟩) (.num 214748365)

/-- The text of the sum is looked up as that of `(+ (+ x y) z)`, which has not been formatted; the
least `int` is printed as zero; and ten times the numeral of the equation is negative. -/
theorem not_keepsMeaning :
  (Linear doubledSum ∧ ∃ new cache,
    formatFullCLIA .FULLCLIA (.var ⟨"x", .int⟩) doubledSum (fun _ => none)
      = some (some new, cache) ∧ ¬ Parses cache doubledSum) ∧
  (∃ new cache,
    formatFullCLIA .FULLCLIA (.var ⟨"x", .int⟩) (.num (-2 ^ 31)) (fun _ => none)
      = some (some new, cache) ∧ ¬ Parses cache (.num (-2 ^ 31))) ∧
  ∃ n e', timesTen n largeEquation = some (some e') ∧ ¬ Preserves largeEquation e'
  := by
  refine ⟨⟨?_, ?_⟩, ?_, ?_⟩
  · exact linear_app.mpr ⟨fun _ => ⟨_, _, .inl rfl⟩, by simp [Linear, every_app]⟩
  · refine ⟨_, _, rfl, ?_⟩
    rintro ⟨t, r, ht, hr, -⟩
    cases ht
    cases hr
  · refine ⟨_, _, rfl, ?_⟩
    rintro ⟨t, r, ht, hr, hpres⟩
    cases ht
    cases hr
    obtain ⟨-, heval⟩ := hpres .int rfl
    have hvalue := heval ⟨fun _ => .int 0, fun _ _ => .int 0⟩
    revert hvalue
    decide
  · refine ⟨5, _, rfl, ?_⟩
    intro hpres
    obtain ⟨-, heval⟩ := hpres .bool rfl
    have hvalue := heval ⟨fun _ => .int 214748365, fun _ _ => .int 0⟩
    revert hvalue
    decide

end Sygus.Format
