import DryadSynth.Invariant.Extraction

/-!
# How conditions are read

The conjuncts of a disjunct that have no primed variables are its conditions.  A condition is read
from the values of its sides at the origin and the unit vectors, that is, as if its sides were the
linear functions with these values.  If this makes no difference for any of the conditions, the
regions that are read contain the states that meet all of them.
-/

namespace Sygus.Invariant

open LIA Lists

variable {n : ℕ} {vars : Variables n} {M : Model} {s : State n}

/-! ### Conjuncts -/

/-- A conjunction holds when all its conjuncts do. -/
theorem holds_conjuncts (e : Expr) :
  (∀ c ∈ getArgsListForAnd e, c.Holds M) ↔ e.Holds M
  := by
  have h := exists_getArgsList (dual_not_holds M) e
  rw [← not_iff_not]
  push Not
  apply h

theorem sort_getArgsList {o : Op}
    (ho : ∀ l, (Expr.app o l).sort = some .bool → ∀ e ∈ l, e.sort = some .bool) {e c : Expr}
    (he : e.sort = some .bool) (hc : c ∈ getArgsList o e) :
  c.sort = some .bool
  := by
  induction e with
  | num k => cases he
  | var x =>
      rw [List.mem_singleton.mp hc]
      apply he
  | app o' args ih =>
      by_cases ho' : o = o'
      · subst ho'
        rw [getArgsList_self] at hc
        obtain ⟨a, ha, hca⟩ := List.mem_flatMap.mp hc
        apply ih a ha (ho args he a ha) hca
      · rw [getArgsList_of_not_isApp (isApp_of_ne ho')] at hc
        rw [List.mem_singleton.mp hc]
        apply he

theorem sort_conjuncts {e c : Expr} (he : e.sort = some .bool) (hc : c ∈ getArgsListForAnd e) :
  c.sort = some .bool
  := sort_getArgsList (fun _ h => (sort_and.mp h).2) he hc

theorem sort_disjuncts {e c : Expr} (he : e.sort = some .bool) (hc : c ∈ getArgsListForOr e) :
  c.sort = some .bool
  := sort_getArgsList (fun _ h => (sort_or.mp h).2) he hc

/-- The atoms without primed variables. -/
def conditions (conj : Expr) : List Expr :=
  (getArgsListForAnd conj).filter fun c => !Region.hasPrime c

/-- The atoms with primed variables. -/
def updates (conj : Expr) : List Expr := (getArgsListForAnd conj).filter Region.hasPrime

theorem mem_conditions_and {c : Expr} {args : List Expr} :
  c ∈ conditions (.and args) ↔ ∃ e ∈ args, c ∈ conditions e
  := by
  simp only [conditions, getArgsListForAnd, getArgsList_self, List.mem_filter, List.mem_flatMap]
  grind

theorem mem_updates_and {c : Expr} {args : List Expr} :
  c ∈ updates (.and args) ↔ ∃ e ∈ args, c ∈ updates e
  := by
  simp only [updates, getArgsListForAnd, getArgsList_self, List.mem_filter, List.mem_flatMap]
  grind

/-- A conjunction holds when the atoms of both kinds do. -/
theorem holds_conj (conj : Expr) :
  conj.Holds M ↔ (∀ c ∈ conditions conj, c.Holds M) ∧ ∀ u ∈ updates conj, u.Holds M
  := by
  rw [← holds_conjuncts]
  simp only [conditions, updates, List.mem_filter, Bool.not_eq_true', and_imp]
  constructor
  · intro h
    exact ⟨fun c hc _ => h c hc, fun u hu _ => h u hu⟩
  · rintro ⟨hc, hu⟩ c hmem
    cases hprime : Region.hasPrime c with
    | false => exact hc c hmem hprime
    | true => exact hu c hmem hprime

/-- The value of an expression in a state. -/
def Variables.value (vars : Variables n) (M : Model) (e : Expr) (s : State n) : ℤ :=
  e.intVal (vars.model M s)

namespace Region

section Loop

variable {todo nonConds condList nonConds' condList' : List Expr}

/-- The loop sorts the conjuncts by whether they have primed variables. -/
theorem conjLoop_spec (h : conjLoop todo nonConds condList = some (nonConds', condList')) :
  (∀ c, c ∈ nonConds' ↔ c ∈ nonConds ∨ ∃ e ∈ todo, c ∈ updates e) ∧
    ∀ c, c ∈ condList' ↔ c ∈ condList ∨ ∃ e ∈ todo, c ∈ conditions e
  := by
  have hatom : ∀ e, (∀ args, e = .and args → False) → getArgsListForAnd e = [e] := by
    intro e hand
    cases e with
    | num k => rfl
    | var x => rfl
    | app o args => exact getArgsList_of_not_isApp (isApp_of_ne fun ho => hand args (ho ▸ rfl))
  induction todo, nonConds, condList using conjLoop.induct with
  | case1 nonConds condList =>
      rw [conjLoop] at h
      cases h
      simp
  | case2 todo nonConds condList args ih =>
      rw [conjLoop] at h
      obtain ⟨hnon, hcond⟩ := ih h
      constructor
      · intro c
        rw [hnon c]
        simp only [List.mem_append, List.mem_cons, or_and_right, exists_or, exists_eq_left,
          mem_updates_and]
        apply or_congr_right or_comm
      · intro c
        rw [hcond c]
        simp only [List.mem_append, List.mem_cons, or_and_right, exists_or, exists_eq_left,
          mem_conditions_and]
        apply or_congr_right or_comm
  | case3 todo nonConds condList e hand hisAtom hprime ih =>
      rw [conjLoop, if_pos hisAtom, if_pos hprime] at h
      · obtain ⟨hnon, hcond⟩ := ih h
        have hupdates : updates e = [e] := by simp [updates, hatom e hand, hprime]
        have hconditions : conditions e = [] := by simp [conditions, hatom e hand, hprime]
        constructor
        · intro c
          rw [hnon c]
          simp [hupdates, or_assoc]
        · intro c
          rw [hcond c]
          simp [hconditions]
      · apply hand
  | case4 todo nonConds condList e hand hisAtom hprime ih =>
      rw [conjLoop, if_pos hisAtom, if_neg hprime] at h
      · obtain ⟨hnon, hcond⟩ := ih h
        rw [Bool.not_eq_true] at hprime
        have hupdates : updates e = [] := by simp [updates, hatom e hand, hprime]
        have hconditions : conditions e = [e] := by simp [conditions, hatom e hand, hprime]
        constructor
        · intro c
          rw [hnon c]
          simp [hupdates]
        · intro c
          rw [hcond c]
          simp [hconditions, or_assoc]
      · apply hand
  | case5 todo nonConds condList e hand hisAtom =>
      rw [conjLoop, if_neg hisAtom] at h
      · cases h
      · apply hand

end Loop

/-! ### Conditions -/

/-- The linear function with the values of a given one at the origin and the unit vectors. -/
def interpolate (f : State n → ℤ) : Cond n := ⟨fun i => f (Pi.single i 1) - f 0, f 0⟩

theorem value_interpolate_sub (f g : State n → ℤ) (z : ℤ) :
  (interpolate fun s => f s - g s - z).value s
    = (interpolate f).value s - (interpolate g).value s - z
  := by
  have hsum : ∑ i, (f (Pi.single i 1) - g (Pi.single i 1) - z - (f 0 - g 0 - z)) * s i
      = ∑ i, (f (Pi.single i 1) - f 0) * s i - ∑ i, (g (Pi.single i 1) - g 0) * s i := by
    rw [← Finset.sum_sub_distrib]
    apply Finset.sum_congr rfl
    intro i _
    ring
  simp only [Cond.value, interpolate]
  rw [hsum]
  ring

/-- A linear function is not changed. -/
theorem interpolate_value (c : Cond n) :
  interpolate c.value = c
  := by
  cases c
  simp [interpolate, Cond.value, Pi.single_apply]

/-- A comparison of integers. -/
def compares : Op → ℤ → ℤ → Prop
  | .ge, x, y => y ≤ x
  | .gt, x, y => y < x
  | .le, x, y => x ≤ y
  | .lt, x, y => x < y
  | .eq, x, y => x = y
  | _, _, _ => False

/-- A comparison holds with linear functions for its sides. -/
def Interpolated (vars : Variables n) (M : Model) (s : State n) : Expr → Prop
  | .app o [a, b] =>
      compares o ((interpolate (vars.value M a)).value s) ((interpolate (vars.value M b)).value s)
  | _ => False

section ReadCond

variable {S : Solver} {e a b l r cond : Expr} {c : Cond n} {strict : Bool}

theorem sort_getCoeff (hS : S.Correct) (he : e.sort = some .int) (k : ℕ) :
  (getCoeff S vars e k).sort = some .int
  := by
  apply (hS.simplify _ _ _).1
  apply Variables.sort_substitute _ he
  intro i
  split
  · rfl
  · rfl

/-- A coefficient is the value at a unit vector. -/
theorem intVal_getCoeff (hS : S.Correct) (he : e.sort = some .int) (k : ℕ) :
  (getCoeff S vars e k).intVal M = vars.value M e fun i => if i.val = k then 1 else 0
  := by
  have hsort : ∀ i : Fin n, (if i.val = k then Expr.num 1 else .num 0).sort = some .int := by
    intro i
    split
    · rfl
    · rfl
  rw [getCoeff, (hS.simplify _).intVal (Variables.sort_substitute hsort he), Expr.intVal,
    Variables.eval_substitute hsort]
  · rw [Variables.value, Expr.intVal]
    congr 3
    funext i
    split
    · rfl
    · rfl
  · intro i j hj
    split at hj
    · cases hj
    · cases hj

theorem intVal_getConstant (hS : S.Correct) (he : e.sort = some .int) :
  (getConstant S vars e).intVal M = vars.value M e 0
  := by
  rw [getConstant, intVal_getCoeff hS he]
  congr 1
  funext i
  apply if_neg i.isLt.ne

theorem intVal_getCoeffArray (hS : S.Correct) (he : e.sort = some .int) (i : Fin n) :
  (getCoeffArray S vars e (getConstant S vars e) i).intVal M
    = (interpolate (vars.value M e)).coeffTbl i
  := by
  rw [getCoeffArray, (hS.simplify _).intVal, intVal_sub, intVal_getConstant hS he,
    intVal_getCoeff hS he, interpolate]
  · congr 2
    funext j
    simp [Pi.single_apply, Fin.ext_iff]
  · simp [sort_getCoeff hS he, getConstant]

theorem intVal_of_convertExprToInt {z : ℤ} (h : convertExprToInt e = some z) :
  e.intVal M = z
  := by
  unfold convertExprToInt parseInt at h
  split at h
  · split at h
    · exact Option.some.inj h
    · cases h
  · cases h

theorem results_spec {α : Type} {f : Fin n → Option α} {g : Fin n → α}
    (h : results f = some g) (i : Fin n) :
  f i = some (g i)
  := by
  unfold results at h
  split at h
  · rw [← Option.some.inj h]
    simp
  · cases h

/-- The inequality that is read for `l - r ≥ 0`, or for `l - r > 0`. -/
theorem eq_interpolate_of_toCond (hS : S.Correct) (hl : l.sort = some .int)
    (hr : r.sort = some .int) (h : toCond (linearize S vars l r strict) = some c) (M : Model) :
  c = interpolate fun s => vars.value M l s - vars.value M r s - if strict then 1 else 0
  := by
  obtain ⟨coefficient, hcoefficient, h⟩ := Option.bind_eq_some_iff.mp h
  obtain ⟨constant, hconstant, h⟩ := Option.bind_eq_some_iff.mp h
  have hsort : ∀ e : Expr, e.sort = some .int → ∀ i : Fin n,
      (getCoeffArray S vars e (getConstant S vars e) i).sort = some .int := by
    intro e he i
    apply (hS.simplify _ _ _).1
    simp [sort_getCoeff hS he, getConstant]
  have hconst : ∀ e : Expr, e.sort = some .int → (getConstant S vars e).sort = some .int :=
    fun e he => sort_getCoeff hS he n
  rw [← Option.some.inj h, interpolate]
  congr 1
  · funext i
    rw [← intVal_of_convertExprToInt (M := M) (results_spec hcoefficient i), linearize,
      (hS.simplify _).intVal (by simp [hsort, hl, hr]), intVal_sub, intVal_getCoeffArray hS hl,
      intVal_getCoeffArray hS hr, interpolate, interpolate]
    ring
  · rw [← intVal_of_convertExprToInt (M := M) hconstant, linearize]
    cases strict with
    | false =>
        rw [(hS.simplify _).intVal (by simp [hconst, hl, hr])]
        simp [intVal_getConstant hS, hl, hr]
    | true =>
        rw [(hS.simplify _).intVal (by simp [hconst, hl, hr])]
        simp [intVal_getConstant hS, hl, hr]

/-- The inequality that is read for a comparison has linear functions for its sides. -/
theorem readCond_spec (hS : S.Correct) (hsort : cond.sort = some .bool)
    (h : readCond S vars cond = some c) (M : Model) (s : State n) :
  0 ≤ c.value s ↔ Interpolated vars M s cond
  := by
  obtain ⟨entry, hentry, hcond⟩ := Option.bind_eq_some_iff.mp h
  unfold normalize at hentry
  split at hentry
  · next a b =>
      obtain ⟨-, ha, hb⟩ := sort_ge.mp hsort
      rw [← Option.some.inj hentry] at hcond
      rw [eq_interpolate_of_toCond hS ha hb hcond M, value_interpolate_sub, Interpolated, compares]
      simp
  · next a b =>
      obtain ⟨-, ha, hb⟩ := sort_gt.mp hsort
      rw [← Option.some.inj hentry] at hcond
      rw [eq_interpolate_of_toCond hS ha hb hcond M, value_interpolate_sub, Interpolated, compares]
      grind
  · next a b =>
      obtain ⟨-, ha, hb⟩ := sort_le.mp hsort
      rw [← Option.some.inj hentry] at hcond
      rw [eq_interpolate_of_toCond hS hb ha hcond M, value_interpolate_sub, Interpolated, compares]
      simp
  · next a b =>
      obtain ⟨-, ha, hb⟩ := sort_lt.mp hsort
      rw [← Option.some.inj hentry] at hcond
      rw [eq_interpolate_of_toCond hS hb ha hcond M, value_interpolate_sub, Interpolated, compares]
      grind
  · cases hentry

end ReadCond

section Readable

variable {S : Solver} {o : Op} {a b c e : Expr}

/-- A comparison that means the same with the linear functions for its sides. -/
structure Linear (vars : Variables n) (o : Op) (a b : Expr) : Prop where
  left : a.sort = some .int
  right : b.sort = some .int
  interpolated : ∀ M s,
    compares o (vars.value M a s) (vars.value M b s) ↔ Interpolated vars M s (.app o [a, b])

/-- A condition that is read as it is: one that does not matter, a comparison of linear functions,
or its negation.  Of several negations it is the innermost one that is read. -/
inductive ReadCond (vars : Variables n) : Expr → Prop where
  | tru : ReadCond vars .tru
  | not_fls : ReadCond vars (.not .fls)
  | not_not_tru : ReadCond vars (.not (.not .tru))
  | compare {o : Op} {a b : Expr} : o ∈ [.ge, .gt, .le, .lt, .eq] → Linear vars o a b →
      ReadCond vars (.app o [a, b])
  | not_compare {o : Op} {a b : Expr} : o ∈ [.ge, .gt, .le, .lt, .eq] → Linear vars o a b →
      ReadCond vars (.not (.app o [a, b]))
  | not_not_not {e : Expr} : ReadCond vars (.not e) → ReadCond vars (.not (.not (.not e)))

/-- Sides with linear values make a comparison linear. -/
theorem linear_of_value {f g : Cond n} (ha : a.sort = some .int) (hb : b.sort = some .int)
    (hf : ∀ M, vars.value M a = f.value) (hg : ∀ M, vars.value M b = g.value) :
  Linear vars o a b
  := by
  refine ⟨ha, hb, fun M s => ?_⟩
  rw [Interpolated, hf, hg, interpolate_value, interpolate_value]

/-- The sides of a comparison of linear functions may be replaced. -/
theorem Linear.holds_iff (ho : o ∈ [.ge, .gt, .le, .lt, .eq]) (h : Linear vars o a b) :
  (Expr.app o [a, b]).Holds (vars.model M s) ↔ Interpolated vars M s (.app o [a, b])
  := by
  rw [← h.interpolated]
  simp only [List.mem_cons, List.not_mem_nil, or_false] at ho
  rcases ho with rfl | rfl | rfl | rfl | rfl
  · apply holds_ge
  · apply holds_gt
  · apply holds_le
  · apply holds_lt
  · apply holds_eq_of_int h.left h.right

/-- The pair of expressions has different values, as linear functions. -/
def Differ (vars : Variables n) (M : Model) (s : State n) (p : Expr × Expr) : Prop :=
  ¬Interpolated vars M s (.eq p.1 p.2)

/-- What a condition stands for. -/
theorem eliminateNegation_spec (hc : ReadCond vars c) {el : Eliminated}
    (h : eliminateNegation c = some el) (M : Model) (s : State n) :
  c.Holds (vars.model M s) ↔
    (∀ q ∈ el.nnCondList, Interpolated vars M s q) ∧ ∀ p ∈ el.neTermList, Differ vars M s p
  := by
  induction hc with
  | tru =>
      simp only [eliminateNegation, Option.some.injEq] at h
      simp [← h]
  | not_fls =>
      simp only [eliminateNegation, Option.some.injEq] at h
      simp [← h]
  | not_not_tru =>
      simp only [eliminateNegation, Option.some.injEq] at h
      simp [← h]
  | @compare o a b ho hlinear =>
      rw [hlinear.holds_iff ho]
      simp only [List.mem_cons, List.not_mem_nil, or_false] at ho
      rcases ho with rfl | rfl | rfl | rfl | rfl
      case inr.inr.inr.inr =>
        simp only [eliminateNegation, toArithExpr, hlinear.left, hlinear.right, if_true,
          Option.bind_eq_bind, Option.bind_some, Option.some.injEq] at h
        simp [← h, Interpolated, compares, le_antisymm_iff]
      all_goals
        simp only [eliminateNegation, Option.some.injEq] at h
        simp [← h]
  | @not_compare o a b ho hlinear =>
      rw [holds_not, hlinear.holds_iff ho]
      simp only [List.mem_cons, List.not_mem_nil, or_false] at ho
      rcases ho with rfl | rfl | rfl | rfl | rfl
      all_goals
        simp only [eliminateNegation, Option.some.injEq] at h
        simp [← h, Interpolated, compares, Differ]
  | @not_not_not e hc ih =>
      rw [holds_not, holds_not, not_not]
      apply ih
      rw [← h, eliminateNegation, eliminateNegation]

theorem toArithExpr_eq_some {e' : Expr} (h : toArithExpr e = some e') :
  e' = e ∧ e.sort = some .int
  := by
  unfold toArithExpr at h
  split at h
  · next hsort => exact ⟨(Option.some.inj h).symm, hsort⟩
  · cases h

theorem sort_nnCondList {el : Eliminated} (hs : c.sort = some .bool)
    (h : eliminateNegation c = some el) {q : Expr} (hq : q ∈ el.nnCondList) :
  q.sort = some .bool
  := by
  fun_induction eliminateNegation c with
  | case4 args ih =>
      exact ih (sort_not.mp hs).2 h
  | case11 a b =>
      obtain ⟨a', hcasta, h₁⟩ := Option.bind_eq_some_iff.mp h
      obtain ⟨b', hcastb, h₂⟩ := Option.bind_eq_some_iff.mp h₁
      obtain ⟨rfl, ha⟩ := toArithExpr_eq_some hcasta
      obtain ⟨rfl, hb⟩ := toArithExpr_eq_some hcastb
      rw [← Option.some.inj h₂] at hq
      simp only [List.mem_cons, List.not_mem_nil, or_false] at hq
      rcases hq with rfl | rfl
      · exact sort_le.mpr ⟨rfl, ha, hb⟩
      · exact sort_ge.mpr ⟨rfl, ha, hb⟩
  | case12 c =>
      rw [← Option.some.inj h] at hq
      rw [List.mem_singleton.mp hq]
      apply hs
  | _ =>
      rw [← Option.some.inj h] at hq
      simp_all

end Readable

/-! ### Regions -/

section Regions

variable {S : Solver}

/-- One of the lists of comparisons holds, with linear functions for the sides. -/
def SomeHolds (vars : Variables n) (M : Model) (s : State n) (neCondList : List (List Expr)) :
    Prop :=
  ∃ neCond ∈ neCondList, ∀ q ∈ neCond, Interpolated vars M s q

/-- After an iteration either the one expression is less, or the other one. -/
theorem someHolds_splitNeq {neCondList neCondList' : List (List Expr)} {p : Expr × Expr}
    (h : splitNeq neCondList p = some neCondList') (M : Model) (s : State n) :
  SomeHolds vars M s neCondList' ↔ SomeHolds vars M s neCondList ∧ Differ vars M s p
  := by
  obtain ⟨a, ha, h⟩ := Option.bind_eq_some_iff.mp h
  obtain ⟨b, hb, h⟩ := Option.bind_eq_some_iff.mp h
  obtain ⟨rfl, -⟩ := toArithExpr_eq_some ha
  obtain ⟨rfl, -⟩ := toArithExpr_eq_some hb
  rw [← Option.some.inj h]
  have hdiffer : Differ vars M s p ↔
      Interpolated vars M s (.lt p.1 p.2) ∨ Interpolated vars M s (.gt p.1 p.2) := by
    simp [Differ, Interpolated, compares, lt_or_lt_iff_ne]
  rw [hdiffer, and_or_left]
  simp only [SomeHolds, List.mem_append, List.mem_map, or_and_right, exists_or,
    exists_exists_and_eq_and]
  grind

theorem someHolds_foldlM {neTermList : List (Expr × Expr)}
    {neCondList neCondList' : List (List Expr)}
    (h : neTermList.foldlM splitNeq neCondList = some neCondList') (M : Model) (s : State n) :
  SomeHolds vars M s neCondList' ↔
    SomeHolds vars M s neCondList ∧ ∀ p ∈ neTermList, Differ vars M s p
  := by
  induction neTermList generalizing neCondList with
  | nil =>
      cases h
      simp
  | cons p neTermList ih =>
      rw [List.foldlM_cons] at h
      obtain ⟨neCondList₁, h₁, h⟩ := Option.bind_eq_some_iff.mp h
      rw [ih h, someHolds_splitNeq h₁, List.forall_mem_cons, and_assoc]

theorem someHolds_constructNeqsCond {neTermList : List (Expr × Expr)}
    {neCondList : List (List Expr)} (h : constructNeqsCond neTermList = some neCondList)
    (M : Model) (s : State n) :
  SomeHolds vars M s neCondList ↔ ∀ p ∈ neTermList, Differ vars M s p
  := by
  rw [someHolds_foldlM h]
  simp [SomeHolds]

theorem sort_constructNeqsCond {neTermList : List (Expr × Expr)} {neCondList : List (List Expr)}
    (h : constructNeqsCond neTermList = some neCondList) :
  ∀ neCond ∈ neCondList, ∀ q ∈ neCond, q.sort = some .bool
  := by
  refine foldlM_invariant (I := fun l => ∀ neCond ∈ l, ∀ q ∈ neCond, q.sort = some .bool)
    (by simp) ?_ h
  intro p _ neCondList neCondList' hsort h
  obtain ⟨a, hcast, h⟩ := Option.bind_eq_some_iff.mp h
  obtain ⟨rfl, ha⟩ := toArithExpr_eq_some hcast
  obtain ⟨b, hcast, h⟩ := Option.bind_eq_some_iff.mp h
  obtain ⟨rfl, hb⟩ := toArithExpr_eq_some hcast
  rw [← Option.some.inj h]
  intro neCond hneCond q hq
  rcases List.mem_append.mp hneCond with hneCond | hneCond
  · obtain ⟨neCond, hmem, rfl⟩ := List.mem_map.mp hneCond
    rcases List.mem_append.mp hq with hq | hq
    · apply hsort neCond hmem q hq
    · rw [List.mem_singleton.mp hq]
      exact sort_lt.mpr ⟨rfl, ha, hb⟩
  · obtain ⟨neCond, hmem, rfl⟩ := List.mem_map.mp hneCond
    rcases List.mem_append.mp hq with hq | hq
    · apply hsort neCond hmem q hq
    · rw [List.mem_singleton.mp hq]
      exact sort_gt.mpr ⟨rfl, ha, hb⟩

theorem constructNeqsCond_ne_nil {neTermList : List (Expr × Expr)} {neCondList : List (List Expr)}
    (h : constructNeqsCond neTermList = some neCondList) :
  neCondList ≠ []
  := by
  refine foldlM_invariant (I := fun l => l ≠ []) (by simp) ?_ h
  intro p _ neCondList neCondList' hne h
  obtain ⟨a, -, h⟩ := Option.bind_eq_some_iff.mp h
  obtain ⟨b, -, h⟩ := Option.bind_eq_some_iff.mp h
  rw [← Option.some.inj h]
  simp [hne]

theorem contains_ofConds {conds : List (Cond n)} :
  (ofConds conds).Contains s ↔ ∀ c ∈ conds, 0 ≤ c.value s
  := by
  unfold ofConds
  split
  · next hnil =>
      rw [hnil]
      simp [Contains, Cond.value]
  · rfl

/-- The inequalities of some comparisons hold when these hold with linear functions for their
sides. -/
theorem forall_readCond (hS : S.Correct) {l : List Expr} {conds : List (Cond n)}
    (hsort : ∀ q ∈ l, q.sort = some .bool) (h : l.mapM (readCond S vars) = some conds) (M : Model)
    (s : State n) :
  (∀ c ∈ conds, 0 ≤ c.value s) ↔ ∀ q ∈ l, Interpolated vars M s q
  := by
  have hall : List.Forall₂ (fun q c => 0 ≤ c.value s ↔ Interpolated vars M s q) l conds :=
    forall₂_of_mapM h fun q hq c hc => readCond_spec hS (hsort q hq) hc M s
  apply forall_iff_of_forall₂ hall fun _ _ h => h

/-- What some conditions stand for. -/
theorem holds_conditions {condList : List Expr} {eliminated : List Eliminated}
    (hread : ∀ c ∈ condList, ReadCond vars c)
    (h : condList.mapM eliminateNegation = some eliminated) (M : Model) (s : State n) :
  (∀ c ∈ condList, c.Holds (vars.model M s)) ↔
    (∀ q ∈ eliminated.flatMap Eliminated.nnCondList, Interpolated vars M s q) ∧
      ∀ p ∈ eliminated.flatMap Eliminated.neTermList, Differ vars M s p
  := by
  have hall := forall₂_of_mapM (R := fun c el => c.Holds (vars.model M s) ↔
      (∀ q ∈ el.nnCondList, Interpolated vars M s q) ∧ ∀ p ∈ el.neTermList, Differ vars M s p)
    h fun c hc el hel => eliminateNegation_spec (hread c hc) hel M s
  rw [← forall_iff_of_forall₂ hall fun _ _ h => h.symm]
  simp only [List.mem_flatMap]
  grind

/-- One region for each list of comparisons, with the inequalities of all of them. -/
theorem exists_contains (hS : S.Correct) {l : List Expr} {neCondList : List (List Expr)}
    {regionMap : List (Cond n)} {regions : List (Region n)}
    (hl : ∀ q ∈ l, q.sort = some .bool)
    (hneCondList : ∀ neCond ∈ neCondList, ∀ q ∈ neCond, q.sort = some .bool)
    (hregionMap : l.mapM (readCond S vars) = some regionMap)
    (hregions : neCondList.mapM (fun neCond => do
      let full ← neCond.mapM (readCond S vars)
      some (ofConds (regionMap ++ full))) = some regions) (M : Model) (s : State n) :
  (∃ r ∈ regions, r.Contains s) ↔
    (∀ q ∈ l, Interpolated vars M s q) ∧ SomeHolds vars M s neCondList
  := by
  have hall := forall₂_of_mapM (R := fun neCond r => r.Contains s ↔
      (∀ q ∈ l, Interpolated vars M s q) ∧ ∀ q ∈ neCond, Interpolated vars M s q)
    hregions fun neCond hneCond r hr => by
      obtain ⟨full, hfull, hr⟩ := Option.bind_eq_some_iff.mp hr
      rw [← Option.some.inj hr, contains_ofConds, List.forall_mem_append,
        forall_readCond hS hl hregionMap M s,
        forall_readCond hS (hneCondList neCond hneCond) hfull M s]
  rw [exists_iff_of_forall₂ hall fun _ _ h => h, SomeHolds]
  grind

/-- The regions contain the states that meet the conditions. -/
theorem fromConj_spec (hS : S.Correct) {conj : Expr} {regions : List (Region n)}
    {nonConds : List Expr} (hsort : conj.sort = some .bool)
    (h : fromConj S vars conj = some (regions, nonConds))
    (hread : ∀ c ∈ conditions conj, ReadCond vars c) :
  (∀ u, u ∈ nonConds ↔ u ∈ updates conj) ∧ regions ≠ [] ∧ ∀ M s,
    (∃ r ∈ regions, r.Contains s) ↔ ∀ c ∈ conditions conj, c.Holds (vars.model M s)
  := by
  obtain ⟨⟨nonConds', condList⟩, hloop, h⟩ := Option.bind_eq_some_iff.mp h
  obtain ⟨eliminated, heliminated, h⟩ := Option.bind_eq_some_iff.mp h
  obtain ⟨neCondList, hneCondList, h⟩ := Option.bind_eq_some_iff.mp h
  obtain ⟨regionMap, hregionMap, h⟩ := Option.bind_eq_some_iff.mp h
  obtain ⟨regions', hregions, h⟩ := Option.bind_eq_some_iff.mp h
  cases h
  obtain ⟨hnonConds, hcondList⟩ := conjLoop_spec hloop
  simp only [List.not_mem_nil, false_or, List.mem_singleton, exists_eq_left] at hnonConds hcondList
  have hnnCondList : ∀ q ∈ eliminated.flatMap Eliminated.nnCondList, q.sort = some .bool := by
    intro q hq
    obtain ⟨el, hel, hq⟩ := List.mem_flatMap.mp hq
    obtain ⟨c, hc, hel⟩ := exists_of_forall₂ (mapM_eq_some_iff.mp heliminated) hel
    obtain ⟨hc, -⟩ := List.mem_filter.mp ((hcondList c).mp hc)
    apply sort_nnCondList (sort_conjuncts hsort hc) hel hq
  refine ⟨hnonConds,
    ne_nil_of_forall₂ (mapM_eq_some_iff.mp hregions) (constructNeqsCond_ne_nil hneCondList),
    fun M s => ?_⟩
  rw [exists_contains hS hnnCondList (sort_constructNeqsCond hneCondList) hregionMap hregions M s,
    someHolds_constructNeqsCond hneCondList, ← holds_conditions _ heliminated]
  · simp only [hcondList]
  · intro c hc
    apply hread c ((hcondList c).mp hc)

end Regions

end Region

end Sygus.Invariant
