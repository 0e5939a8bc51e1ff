import DryadSynth.SSI.PushInNots

/-!
# The literals of a constraint

With the negations pushed in, a constraint is made of its literals by conjunction and disjunction.
A comparison below a negation is the opposite one as a literal.  For one function the literals with
calls of functions that are defined later are taken to be true.  Both are read off the constraint
here, and pushing in the negations does not change them.
-/

namespace Sygus.SSI

open LIA Lists

/-! ### Literals -/

/-- The expression or its negation. -/
def signed (sign : Bool) (e : Expr) : Expr := if sign then e else .not e

mutual

/-- The literals of a formula, or with the sign `false` of its negation. -/
def literals : Expr → Bool → List Expr
  | .num n, sign => [signed sign (.num n)]
  | .var x, sign => [signed sign (.var x)]
  | .not a, sign => literals a !sign
  | .and l, sign => literalsAll l sign
  | .or l, sign => literalsAll l sign
  | .ge a b, sign => [if sign then .ge a b else .lt a b]
  | .gt a b, sign => [if sign then .gt a b else .le a b]
  | .le a b, sign => [if sign then .le a b else .gt a b]
  | .lt a b, sign => [if sign then .lt a b else .ge a b]
  | .eq a b, sign => if sign then [.eq a b] else [.lt a b, .gt a b]
  | .implies a b, sign => literals a (!sign) ++ literals b sign
  | .ite c a b, sign =>
      if (Expr.ite c a b).sort = some .bool then
        literals c (!sign) ++ literals a sign ++ (literals c sign ++ literals b sign)
      else [signed sign (.ite c a b)]
  | .app o args, sign => [signed sign (.app o args)]

def literalsAll : List Expr → Bool → List Expr
  | [], _ => []
  | e :: l, sign => literals e sign ++ literalsAll l sign

end

/-- The comparison is strict. -/
def isStrict : Op → Bool
  | .gt | .lt => true
  | _ => false

/-- The literal is a comparison. -/
def IsComparison (q : Expr) : Prop := ∃ o a b, isComparison o = true ∧ q = .app o [a, b]

/-- One of the functions is called. -/
def mentions (later : List FuncDecl) (e : Expr) : Bool := e.calls.any fun c => c.1 ∈ later

/-- What stands for a comparison: with a call of one of the functions it is true, or with the sign
`false` it is false. -/
def relaxAtom (later : List FuncDecl) (e : Expr) (sign : Bool) : Expr :=
  if mentions later e then (if sign then .tru else .fls) else e

section Relax

variable (later : List FuncDecl)

mutual

/-- The formula in which the literals with calls of the functions are true.  With the sign `false`
the literals of the negation are. -/
def relax : Expr → Bool → Expr
  | .num n, _ => .num n
  | .var x, _ => .var x
  | .not a, sign => .not (relax a !sign)
  | .and l, sign => .and (relaxAll l sign)
  | .or l, sign => .or (relaxAll l sign)
  | .ge a b, sign => relaxAtom later (.ge a b) sign
  | .gt a b, sign => relaxAtom later (.gt a b) sign
  | .le a b, sign => relaxAtom later (.le a b) sign
  | .lt a b, sign => relaxAtom later (.lt a b) sign
  | .eq a b, sign => relaxAtom later (.eq a b) sign
  | .implies a b, sign => .or [.not (relax a !sign), relax b sign]
  | .ite c a b, sign =>
      if (Expr.ite c a b).sort = some .bool then
        .and [.or [.not (relax c !sign), relax a sign], .or [relax c sign, relax b sign]]
      else .ite c a b
  | .app o args, _ => .app o args

def relaxAll : List Expr → Bool → List Expr
  | [], _ => []
  | e :: l, sign => relax e sign :: relaxAll l sign

end

end Relax

section Shapes

variable {later : List FuncDecl} {o : Op} {a b c e q : Expr} {l l' args : List Expr} {sign : Bool}

theorem literalsAll_eq (l : List Expr) (sign : Bool) :
  literalsAll l sign = l.flatMap fun e => literals e sign
  := by
  induction l with
  | nil => rfl
  | cons e l ih => rw [literalsAll, ih, List.flatMap_cons]

theorem relaxAll_eq (l : List Expr) (sign : Bool) :
  relaxAll later l sign = l.map fun e => relax later e sign
  := by
  induction l with
  | nil => rfl
  | cons e l ih => rw [relaxAll, ih, List.map_cons]

theorem literals_connective (ho : isConnective o = true) :
  literals (.app o l) sign = l.flatMap fun e => literals e sign
  := by
  rw [← literalsAll_eq]
  cases o with
  | and | or => rfl
  | _ => cases ho

theorem literals_order (ho : isOrder o = true) :
  literals (.app o [a, b]) sign = [.app (if sign then o else dual o) [a, b]]
  := by
  cases o with
  | ge | gt | le | lt => cases sign <;> rfl
  | _ => cases ho

theorem literals_other (h : isOther o args = true) :
  literals (.app o args) sign = [signed sign (.app o args)]
  := by
  revert h
  generalize he : Expr.app o args = e
  fun_cases literals e sign with
  | case1 | case2 => cases he
  | case13 =>
      cases he
      rename_i hbool
      exact fun h => absurd hbool (of_decide_eq_true h)
  | case14 | case15 => exact fun _ => rfl
  | _ =>
      cases he
      exact fun h => Bool.noConfusion h

theorem relax_connective (ho : isConnective o = true) :
  relax later (.app o l) sign = .app o (l.map fun e => relax later e sign)
  := by
  rw [← relaxAll_eq]
  cases o with
  | and | or => rfl
  | _ => cases ho

theorem relax_order (ho : isOrder o = true) :
  relax later (.app o [a, b]) sign = relaxAtom later (.app o [a, b]) sign
  := by
  cases o with
  | ge | gt | le | lt => rfl
  | _ => cases ho

theorem relax_comparison (ho : isComparison o = true) :
  relax later (.app o [a, b]) sign = relaxAtom later (.app o [a, b]) sign
  := by
  cases o with
  | ge | gt | le | lt | eq => rfl
  | _ => cases ho

theorem literals_comparison (ho : isComparison o = true) :
  literals (.app o [a, b]) true = [.app o [a, b]]
  := by
  cases o with
  | ge | gt | le | lt | eq => rfl
  | _ => cases ho

theorem relax_other (h : isOther o args = true) :
  relax later (.app o args) sign = .app o args
  := by
  revert h
  generalize he : Expr.app o args = e
  fun_cases relax later e sign with
  | case1 | case2 => cases he
  | case12 =>
      cases he
      rename_i hbool
      exact fun h => absurd hbool (of_decide_eq_true h)
  | case13 | case14 => exact fun _ => rfl
  | _ =>
      cases he
      exact fun h => Bool.noConfusion h

theorem mentions_iff :
  mentions later e = true ↔ ∃ c ∈ e.calls, c.1 ∈ later
  := by simp [mentions]

theorem mentions_congr {e' : Expr} (h : ∀ c, c ∈ e'.calls ↔ c ∈ e.calls) :
  mentions later e' = mentions later e
  := by
  rw [Bool.eq_iff_iff, mentions_iff, mentions_iff]
  simp only [h]

end Shapes

/-! ### What a literal mentions -/

/-- All calls and variables of the first expression occur in the second one. -/
structure Within (q e : Expr) : Prop where
  calls : ∀ c ∈ q.calls, c ∈ e.calls
  vars : ∀ x ∈ q.vars, x ∈ e.vars

section Within

variable {o o' : Op} {e q : Expr} {l : List Expr} {sign : Bool}

/-- Connectives and comparisons are no functions. -/
theorem ne_func (ho : isConnective o = true ∨ isOrder o = true) (g : FuncDecl) :
  o ≠ .func g
  := by
  rintro rfl
  simp [isConnective, isOrder] at ho

theorem dual_ne_func (ho : isConnective o = true ∨ isOrder o = true) (g : FuncDecl) :
  dual o ≠ .func g
  := by
  rcases ho with ho | ho
  · apply ne_func (.inl (isConnective_dual ho))
  · apply ne_func (.inr (isOrder_dual ho))

theorem isComparison_ne_func (ho : isComparison o = true) (g : FuncDecl) :
  o ≠ .func g
  := by
  rintro rfl
  cases ho

theorem calls_of_isComparison (ho : isComparison o) :
  (Expr.app o l).calls = [] ↔ ∀ e ∈ l, e.calls = []
  := calls_app_eq_nil (isComparison_ne_func ho)

theorem isComparison_of_isOrder (ho : isOrder o = true) :
  isComparison o = true
  := by
  cases o with
  | ge | gt | le | lt => rfl
  | _ => cases ho

theorem Within.arg (h : Within q e) (he : e ∈ l) :
  Within q (.app o l)
  := ⟨fun c hc => mem_calls_app.mpr (.inr ⟨e, he, h.calls c hc⟩),
    fun x hx => mem_vars_app.mpr ⟨e, he, h.vars x hx⟩⟩

theorem Within.same (ho : isComparison o' = true) (l : List Expr) :
  Within (.app o' l) (.app o l)
  := by
  constructor
  · intro c hc
    rcases mem_calls_app.mp hc with ⟨g, hg, -⟩ | hc
    · exact absurd hg (isComparison_ne_func ho g)
    · exact mem_calls_app.mpr (.inr hc)
  · exact fun x hx => mem_vars_app.mpr (mem_vars_app.mp hx)

theorem Within.signed (sign : Bool) (e : Expr) :
  Within (signed sign e) e
  := by
  cases sign with
  | true => exact ⟨fun _ => id, fun _ => id⟩
  | false =>
      constructor
      · intro c hc
        simpa [SSI.signed, mem_calls_app] using hc
      · intro x hx
        simpa [SSI.signed] using hx

/-- Literals mention what the formula does. -/
theorem within_of_mem_literals (hq : q ∈ literals e sign) :
  Within q e
  := by
  induction e generalizing q sign with
  | num n =>
      rw [List.mem_singleton.mp hq]
      apply Within.signed
  | var x =>
      rw [List.mem_singleton.mp hq]
      apply Within.signed
  | app o l ih =>
      generalize he : Expr.app o l = e at hq ⊢
      cases shape e with
      | num n => cases he
      | var x => cases he
      | not a =>
          cases he
          apply (ih a (by simp) hq).arg (by simp)
      | connective hc l =>
          cases he
          rw [literals_connective hc] at hq
          obtain ⟨e, he, hq⟩ := List.mem_flatMap.mp hq
          apply (ih e he hq).arg he
      | order hc a b =>
          cases he
          rw [literals_order hc, List.mem_singleton] at hq
          rw [hq]
          apply Within.same
          split
          · exact isComparison_of_isOrder hc
          · exact isComparison_of_isOrder (isOrder_dual hc)
      | eq a b =>
          cases he
          cases sign with
          | true =>
              rw [List.mem_singleton.mp hq]
              exact Within.same rfl _
          | false =>
              rcases List.mem_pair.mp hq with rfl | rfl
              · exact Within.same rfl _
              · exact Within.same rfl _
      | implies a b =>
          cases he
          rcases List.mem_append.mp hq with hq | hq
          · apply (ih a (by simp) hq).arg (by simp)
          · apply (ih b (by simp) hq).arg (by simp)
      | ite c a b hbool =>
          cases he
          rw [literals, if_pos hbool] at hq
          simp only [List.mem_append] at hq
          rcases hq with (hq | hq) | hq | hq
          · apply (ih c (by simp) hq).arg (by simp)
          · apply (ih a (by simp) hq).arg (by simp)
          · apply (ih c (by simp) hq).arg (by simp)
          · apply (ih b (by simp) hq).arg (by simp)
      | other hother =>
          cases he
          rw [literals_other hother, List.mem_singleton] at hq
          rw [hq]
          apply Within.signed

end Within

/-! ### Terms -/

section Terms

variable (f : FuncDecl)

mutual

/-- The variables that occur outside the calls of the function. -/
def outerVars : Expr → List Var
  | .num _ => []
  | .var x => [x]
  | .app o args => if o = .func f then [] else outerVarsAll args

def outerVarsAll : List Expr → List Var
  | [] => []
  | e :: l => outerVars e ++ outerVarsAll l

end

/-- The terms that are linear in the calls of the function. -/
inductive LinearIn : Expr → Prop
  | free {e : Expr} : (∀ c ∈ e.calls, c.1 ≠ f) → LinearIn e
  | call (args : List Expr) : LinearIn (.func f args)
  | add {l : List Expr} : (∀ e ∈ l, LinearIn e) → LinearIn (.add l)
  | sub {l : List Expr} : (∀ e ∈ l, LinearIn e) → LinearIn (.sub l)
  | mul (n : ℤ) {e : Expr} : LinearIn e → LinearIn (.mul [.num n, e])
  | mulNum (n : ℤ) {e : Expr} : LinearIn e → LinearIn (.mul [e, .num n])

end Terms

/-- The comparison is not strict, and linear in the calls of the function. -/
def IsLinear (f : FuncDecl) (q : Expr) : Prop :=
  ∃ o a b, q = .app o [a, b] ∧ isComparison o = true ∧ isStrict o = false ∧ LinearIn f a
    ∧ LinearIn f b

/-- Pushing in negations leaves the arguments of all calls. -/
def Flat (e : Expr) : Prop := ∀ c ∈ e.calls, ∀ a ∈ c.2, Pushed a

/-- A rule for pushing in negations: the relation follows each step. -/
structure PushRule (R : Expr → Expr → Prop) : Prop where
  refl (e : Expr) : R e e
  trans {e e' e'' : Expr} : R e e' → R e' e'' → R e e''
  plain {o : Op} {l l' : List Expr} : isPlain o l = true → List.Forall₂ R l l' →
    R (.app o l) (.app o l')
  not {a a' : Expr} : R a a' → R (.not a) (.not a')
  not_not (a : Expr) : R (.not (.not a)) a
  not_connective {o : Op} (l : List Expr) : isConnective o = true →
    R (.not (.app o l)) (.app (dual o) (l.map .not))
  not_order {o : Op} (a b : Expr) : isOrder o = true →
    R (.not (.app o [a, b])) (.app (dual o) [a, b])
  not_eq {a b : Expr} : a.sort = some .int → b.sort = some .int →
    R (.not (.eq a b)) (.or [.lt a b, .gt a b])
  implies (a b : Expr) : R (.implies a b) (.or [.not a, b])
  ite {c a b : Expr} : (Expr.ite c a b).sort = some .bool →
    R (.ite c a b) (.and [.or [.not c, a], .or [c, b]])

/-- What follows each step holds of every expression and its result. -/
theorem PushRule.pushInNots {R : Expr → Expr → Prop} (h : PushRule R) {n : ℕ} {e p : Expr}
    (hp : SSI.pushInNots n e = some p) :
  R e p
  := by
  induction n generalizing e p with
  | zero => cases hp
  | succ n ih =>
      have hplain : ∀ {o : Op} {l : List Expr}, isPlain o l = true →
          pushStep (SSI.pushInNots n) (.app o l) = some p → R (.app o l) p := by
        intro o l ho hp
        rw [pushStep_plain ho] at hp
        obtain ⟨l', hl', rfl⟩ := Option.map_eq_some_iff.mp hp
        rw [mapM_eq_some_iff] at hl'
        apply h.plain ho (hl'.imp fun _ _ => ih)
      have hbind : ∀ {a : Expr},
          ((SSI.pushInNots n a).bind fun q => SSI.pushInNots n (.not q)) = some p →
          R (.not a) p := by
        intro a hp
        obtain ⟨q, hq, hp⟩ := Option.bind_eq_some_iff.mp hp
        apply h.trans (h.not (ih hq)) (ih hp)
      rw [SSI.pushInNots] at hp
      cases shape e with
      | num n =>
          cases hp
          apply h.refl
      | var x =>
          cases hp
          apply h.refl
      | not a =>
          change pushNot (SSI.pushInNots n) a = some p at hp
          cases shape a with
          | num n => exact hbind hp
          | var x => exact hbind hp
          | not a => exact h.trans (h.not_not a) (ih hp)
          | connective ho l =>
              rw [pushNot_connective ho] at hp
              apply h.trans (h.not_connective l ho) (ih hp)
          | order ho a b =>
              rw [pushNot_order ho] at hp
              apply h.trans (h.not_order a b ho) (ih hp)
          | eq a b =>
              rw [pushNot] at hp
              split at hp
              · next hint => exact h.trans (h.not_eq hint.1 hint.2) (ih hp)
              · cases hp
          | implies a b => exact hbind hp
          | ite c a b _ => exact hbind hp
          | other ho =>
              rw [pushNot_other ho] at hp
              apply hbind hp
      | connective ho l => exact hplain (isPlain_of_isConnective ho l) hp
      | order ho a b => exact hplain (isPlain_of_isOrder ho _) hp
      | eq a b => exact hplain (o := .eq) rfl hp
      | implies a b => exact h.trans (h.implies a b) (ih hp)
      | ite c a b hbool =>
          rw [pushStep, if_pos hbool] at hp
          apply h.trans (h.ite hbool) (ih hp)
      | other ho => exact hplain (isPlain_of_isOther ho) hp

theorem PushRule.pushes {R : Expr → Expr → Prop} (h : PushRule R) {e p : Expr} (hp : Pushes e p) :
  R e p
  := by
  obtain ⟨n, hn⟩ := hp
  exact h.pushInNots hn

/-! ### What pushing in negations keeps of a term -/

/-- The second expression comes from the first one by pushing in negations, as far as the calls of
the function matter. -/
structure Matches (f : FuncDecl) (e p : Expr) : Prop where
  preserves : Preserves e p
  self : Pushed e → p = e
  calls : Flat e → ∀ c, c ∈ p.calls ↔ c ∈ e.calls
  linear : Flat e → LinearIn f e → LinearIn f p
  outer : Flat e → ∀ x ∈ outerVars f p, x ∈ outerVars f e

section Matches

variable {f : FuncDecl} {o : Op} {a b c e e' e'' p q : Expr} {l l' : List Expr} {x : Var}

theorem outerVarsAll_eq (l : List Expr) :
  outerVarsAll f l = l.flatMap (outerVars f)
  := by
  induction l with
  | nil => rfl
  | cons e l ih => rw [outerVarsAll, ih, List.flatMap_cons]

theorem mem_outerVars_app :
  x ∈ outerVars f (.app o l) ↔ o ≠ .func f ∧ ∃ e ∈ l, x ∈ outerVars f e
  := by
  rw [outerVars]
  split
  · next ho => simp [ho]
  · next ho => simp [ho, outerVarsAll_eq]

theorem Flat.arg (h : Flat (.app o l)) (he : e ∈ l) :
  Flat e
  := fun c hc => h c (mem_calls_app.mpr (.inr ⟨e, he, hc⟩))

theorem Flat.congr (h : Flat e) (hcalls : ∀ c, c ∈ p.calls ↔ c ∈ e.calls) :
  Flat p
  := fun c hc => h c ((hcalls c).mp hc)

theorem Matches.refl (e : Expr) :
  Matches f e e
  := ⟨Preserves.refl e, fun _ => rfl, fun _ _ => Iff.rfl, fun _ => id, fun _ _ => id⟩

theorem Matches.trans (h : Matches f e e') (h' : Matches f e' e'') :
  Matches f e e''
  := by
  have hflat : Flat e → Flat e' := fun he => he.congr (h.calls he)
  refine ⟨h.preserves.trans h'.preserves, ?_, ?_, ?_, ?_⟩
  · intro he
    obtain rfl := h.self he
    apply h'.self he
  · intro he c
    rw [h'.calls (hflat he), h.calls he]
  · exact fun he hl => h'.linear (hflat he) (h.linear he hl)
  · exact fun he x hx => h.outer he x (h'.outer (hflat he) x hx)

theorem calls_of_matches (h : List.Forall₂ (Matches f) l l') (hl : ∀ e ∈ l, Flat e)
    (c : FuncDecl × List Expr) :
  (∃ p ∈ l', c ∈ p.calls) ↔ ∃ e ∈ l, c ∈ e.calls
  := by
  induction h with
  | nil => simp
  | cons hhead _ ih =>
      obtain ⟨he, hl⟩ := List.forall_mem_cons.mp hl
      rw [List.exists_mem_cons_iff, List.exists_mem_cons_iff, ih hl, hhead.calls he]

theorem self_of_matches (h : List.Forall₂ (Matches f) l l') (hl : ∀ e ∈ l, Pushed e) :
  l' = l
  := by
  induction h with
  | nil => rfl
  | cons hhead _ ih =>
      obtain ⟨he, hl⟩ := List.forall_mem_cons.mp hl
      rw [hhead.self he, ih hl]

/-- The arguments of an application keep the calls. -/
theorem calls_app_of_matches (h : List.Forall₂ (Matches f) l l') (hflat : Flat (.app o l))
    (c : FuncDecl × List Expr) :
  c ∈ (Expr.app o l').calls ↔ c ∈ (Expr.app o l).calls
  := by
  rw [mem_calls_app, mem_calls_app, calls_of_matches h fun e he => hflat.arg he]
  apply or_congr_left
  apply exists_congr
  rintro g
  apply and_congr_right
  rintro rfl
  rw [self_of_matches h (hflat (g, l) (mem_calls_app.mpr (.inl ⟨g, rfl, rfl⟩)))]

theorem linear_of_matches (h : List.Forall₂ (Matches f) l l') (hflat : ∀ e ∈ l, Flat e)
    (hl : ∀ e ∈ l, LinearIn f e) :
  ∀ p ∈ l', LinearIn f p
  := by
  induction h with
  | nil => exact nofun
  | cons hhead _ ih =>
      obtain ⟨hf, hflat⟩ := List.forall_mem_cons.mp hflat
      obtain ⟨he, hl⟩ := List.forall_mem_cons.mp hl
      rw [List.forall_mem_cons]
      exact ⟨hhead.linear hf he, ih hflat hl⟩

theorem Matches.plain (ho : isPlain o l = true) (h : List.Forall₂ (Matches f) l l') :
  Matches f (.app o l) (.app o l')
  := by
  refine ⟨Preserves.app o (h.imp fun _ _ h => h.preserves), ?_, ?_, ?_, ?_⟩
  · intro he
    rw [self_of_matches h (pushed_app.mp he).2]
  · exact fun hflat => calls_app_of_matches h hflat
  · intro hflat hlinear
    have hargs : ∀ e ∈ l, Flat e := fun e he => hflat.arg he
    cases hlinear with
    | free hfree => exact .free fun c hc => hfree c ((calls_app_of_matches h hflat c).mp hc)
    | call args => exact .call l'
    | add hl => exact .add (linear_of_matches h hargs hl)
    | sub hl => exact .sub (linear_of_matches h hargs hl)
    | mul n hlinear =>
        cases h with
        | cons hn h =>
            cases h with
            | cons he h =>
                cases h
                rw [hn.self trivial]
                exact .mul n (he.linear (hargs _ (by simp)) hlinear)
    | mulNum n hlinear =>
        cases h with
        | cons he h =>
            cases h with
            | cons hn h =>
                cases h
                rw [hn.self trivial]
                exact .mulNum n (he.linear (hargs _ (by simp)) hlinear)
  · intro hflat x hx
    obtain ⟨ho', p, hp, hx⟩ := mem_outerVars_app.mp hx
    obtain ⟨e, he, hep⟩ := exists_of_forall₂ h hp
    exact mem_outerVars_app.mpr ⟨ho', e, he, hep.outer (hflat.arg he) x hx⟩

theorem Matches.not (h : Matches f e p) :
  Matches f (.not e) (.not p)
  := by
  have hl : List.Forall₂ (Matches f) [e] [p] := .cons h .nil
  refine ⟨h.preserves.not, ?_, ?_, ?_, ?_⟩
  · exact fun he => absurd (pushed_app.mp he).1 Bool.false_ne_true
  · exact fun hflat => calls_app_of_matches hl hflat
  · intro hflat hlinear
    cases hlinear with
    | free hfree => exact .free fun c hc => hfree c ((calls_app_of_matches hl hflat c).mp hc)
  · intro hflat x hx
    have hne : Op.not ≠ .func f := nofun
    simp only [mem_outerVars_app, hne, ne_eq, not_false_eq_true, List.mem_singleton,
      exists_eq_left, true_and] at hx ⊢
    apply h.outer (hflat.arg (by simp)) x hx

/-- A step at the head of a formula. -/
theorem Matches.step (ho : isPlain o l = false) (hpreserves : Preserves (.app o l) e)
    (hcalls : ∀ c, c ∈ e.calls ↔ c ∈ (Expr.app o l).calls)
    (houter : ∀ x ∈ outerVars f e, x ∈ outerVars f (.app o l)) :
  Matches f (.app o l) e
  := by
  refine ⟨hpreserves, ?_, fun _ => hcalls, ?_, fun _ => houter⟩
  · intro h
    rw [(pushed_app.mp h).1] at ho
    cases ho
  · intro _ hlinear
    cases hlinear with
    | free hfree => exact .free fun c hc => hfree c ((hcalls c).mp hc)
    | _ => cases ho

theorem matches_rule (f : FuncDecl) :
  PushRule (Matches f)
  where
  refl := Matches.refl
  trans := Matches.trans
  plain := Matches.plain
  not := Matches.not
  not_not a := by
    apply Matches.step rfl Preserves.not_not
    · simp [mem_calls_app]
    · simp [mem_outerVars_app]
  not_connective {o} l ho := by
    have ho' : isConnective o = true ∨ isOrder o = true := .inl ho
    apply Matches.step rfl (preserves_not_connective ho)
    · simp [mem_calls_app, ne_func ho', dual_ne_func ho']
    · simp [mem_outerVars_app, ne_func ho']
  not_order {o} a b ho := by
    have ho' : isConnective o = true ∨ isOrder o = true := .inr ho
    apply Matches.step rfl (preserves_not_order ho)
    · simp [mem_calls_app, ne_func ho', dual_ne_func ho']
    · simp [mem_outerVars_app, ne_func ho']
  not_eq ha _ := by
    apply Matches.step rfl (Preserves.not_eq ha)
    · simp [mem_calls_app]
    · simp [mem_outerVars_app]
  implies a b := by
    apply Matches.step rfl Preserves.implies
    · simp [mem_calls_app]
    · simp [mem_outerVars_app]
  ite hbool := by
    apply Matches.step _ (Preserves.ite (sort_ite.mp hbool).2.1)
    · simp [mem_calls_app]
      tauto
    · simp [mem_outerVars_app]
      tauto
    · simp [isPlain, hbool]

end Matches

/-! ### What pushing in negations keeps of a formula -/

/-- A comparison with negations pushed in in its sides, or any two literals the second one of which
is no comparison.  An equation that is negated twice becomes two comparisons. -/
inductive Similar (f : FuncDecl) : Expr → Expr → Prop
  | comparison {o o' : Op} {a b a' b' : Expr} : isComparison o = true → isComparison o' = true →
      (o' = o ∨ o = .eq ∧ isStrict o' = false) → Matches f a a' → Matches f b b' →
        Similar f (.app o [a, b]) (.app o' [a', b'])
  | other {q q' : Expr} : ¬IsComparison q' → Similar f q q'

/-- Every literal of one of the lists comes from one, or has become one, of the other. -/
structure Covers (f : FuncDecl) (l l' : List Expr) : Prop where
  old : ∀ q' ∈ l', ∃ q ∈ l, Similar f q q'
  new : ∀ q ∈ l, ∃ q' ∈ l', Similar f q q'

/-- The literals of both formulas are the same, with the negations pushed in in the terms. -/
structure SameLiterals (f : FuncDecl) (e p : Expr) : Prop where
  term : Matches f e p
  covers (s : Srt) : e.sort = some s → ∀ sign, Covers f (literals e sign) (literals p sign)

section Same

variable {f : FuncDecl} {o : Op} {a b c e e' e'' p q q' q'' : Expr} {l l' l'' : List Expr}
  {s : Srt} {sign : Bool} {later : List FuncDecl}

theorem not_isComparison_signed (ho : ¬isComparison o) (l : List Expr) (sign : Bool) :
  ¬IsComparison (signed sign (.app o l))
  := by
  rintro ⟨o', a, b, ho', heq⟩
  cases sign with
  | true =>
      obtain ⟨rfl, -⟩ := Expr.app.inj heq
      exact ho ho'
  | false =>
      obtain ⟨rfl, -⟩ := Expr.app.inj heq
      cases ho'

theorem Similar.same {o : Op} {a b a' b' : Expr} (ho : isComparison o = true)
    (ha : Matches f a a') (hb : Matches f b b') :
  Similar f (.app o [a, b]) (.app o [a', b'])
  := .comparison ho ho (.inl rfl) ha hb

theorem Similar.refl (q : Expr) :
  Similar f q q
  := by
  by_cases hq : IsComparison q
  · obtain ⟨o, a, b, ho, rfl⟩ := hq
    exact .same ho (.refl a) (.refl b)
  · exact .other hq

theorem Similar.trans (h : Similar f q q') (h' : Similar f q' q'') :
  Similar f q q''
  := by
  cases h' with
  | other hq => exact .other hq
  | @comparison o' o'' a b a' b' ho' ho'' hop ha hb =>
      cases h with
      | other hq => exact absurd ⟨o', a, b, ho', rfl⟩ hq
      | comparison ho _ hop' ha' hb' =>
          refine .comparison ho ho'' ?_ (ha'.trans ha) (hb'.trans hb)
          rcases hop with rfl | ⟨rfl, hstrict⟩
          · exact hop'
          · rcases hop' with rfl | ⟨rfl, -⟩
            · exact .inr ⟨rfl, hstrict⟩
            · exact .inr ⟨rfl, hstrict⟩

theorem Covers.refl (l : List Expr) :
  Covers f l l
  := ⟨fun q hq => ⟨q, hq, .refl q⟩, fun q hq => ⟨q, hq, .refl q⟩⟩

theorem Covers.trans (h : Covers f l l') (h' : Covers f l' l'') :
  Covers f l l''
  := by
  constructor
  · intro q'' hq''
    obtain ⟨q', hq', hsim'⟩ := h'.old q'' hq''
    obtain ⟨q, hq, hsim⟩ := h.old q' hq'
    exact ⟨q, hq, hsim.trans hsim'⟩
  · intro q hq
    obtain ⟨q', hq', hsim⟩ := h.new q hq
    obtain ⟨q'', hq'', hsim'⟩ := h'.new q' hq'
    exact ⟨q'', hq'', hsim.trans hsim'⟩

theorem Covers.singleton (h : Similar f q q') :
  Covers f [q] [q']
  := by
  constructor
  · intro r hr
    rw [List.mem_singleton.mp hr]
    exact ⟨q, List.mem_singleton_self q, h⟩
  · intro r hr
    rw [List.mem_singleton.mp hr]
    exact ⟨q', List.mem_singleton_self q', h⟩

theorem Covers.flatMap {g : Expr → List Expr} (h : List.Forall₂ (fun e p => Covers f (g e) (g p))
    l l') :
  Covers f (l.flatMap g) (l'.flatMap g)
  := by
  constructor
  · intro q' hq'
    obtain ⟨p, hp, hq'⟩ := List.mem_flatMap.mp hq'
    obtain ⟨e, he, hcovers⟩ := exists_of_forall₂ h hp
    obtain ⟨q, hq, hsim⟩ := hcovers.old q' hq'
    exact ⟨q, List.mem_flatMap.mpr ⟨e, he, hq⟩, hsim⟩
  · intro q hq
    obtain ⟨e, he, hq⟩ := List.mem_flatMap.mp hq
    obtain ⟨p, hp, hcovers⟩ := exists_of_forall₂ h.flip he
    obtain ⟨q', hq', hsim⟩ := hcovers.new q hq
    exact ⟨q', List.mem_flatMap.mpr ⟨p, hp, hq'⟩, hsim⟩

theorem Similar.of_isComparison (h : Similar f q q') (hq : IsComparison q') :
  IsComparison q
  := by
  cases h with
  | comparison ho _ _ _ _ => exact ⟨_, _, _, ho, rfl⟩
  | other hnot => exact absurd hq hnot

theorem Flat.literal (h : Flat e) (hq : q ∈ literals e sign) :
  Flat q
  := fun c hc => h c ((within_of_mem_literals hq).calls c hc)

/-- The second literal is a comparison whose sides come from those of the first one. -/
theorem Similar.sides (h : Similar f q q') (hq' : IsComparison q') :
  ∃ o o' a b a' b', q = .app o [a, b] ∧ q' = .app o' [a', b'] ∧ isComparison o = true
    ∧ isComparison o' = true ∧ (o' = o ∨ o = .eq ∧ isStrict o' = false) ∧ Matches f a a'
    ∧ Matches f b b'
  := by
  cases h with
  | comparison ho ho' hop ha hb => exact ⟨_, _, _, _, _, _, rfl, rfl, ho, ho', hop, ha, hb⟩
  | other hnot => exact absurd hq' hnot

theorem Similar.mem_calls (h : Similar f q q') (hq' : IsComparison q') (hflat : Flat q)
    (c : FuncDecl × List Expr) :
  c ∈ q'.calls ↔ c ∈ q.calls
  := by
  obtain ⟨o, o', a, b, a', b', rfl, rfl, ho, ho', -, ha, hb⟩ := h.sides hq'
  have ha := ha.calls (hflat.arg (by simp)) c
  have hb := hb.calls (hflat.arg (by simp)) c
  simp [mem_calls_app, isComparison_ne_func ho, isComparison_ne_func ho', ha, hb]

theorem Similar.mentions (h : Similar f q q') (hq' : IsComparison q') (hflat : Flat q) :
  mentions later q' = mentions later q
  := mentions_congr (h.mem_calls hq' hflat)

theorem Similar.mem_outerVars (h : Similar f q q') (hq' : IsComparison q') (hflat : Flat q)
    {x : Var} (hx : x ∈ outerVars f q') :
  x ∈ outerVars f q
  := by
  obtain ⟨o, o', a, b, a', b', rfl, rfl, ho, ho', -, ha, hb⟩ := h.sides hq'
  obtain ⟨-, e, he, hmem⟩ := mem_outerVars_app.mp hx
  refine mem_outerVars_app.mpr ⟨isComparison_ne_func ho f, ?_⟩
  rcases List.mem_pair.mp he with rfl | rfl
  · exact ⟨a, by simp, ha.outer (hflat.arg (by simp)) x hmem⟩
  · exact ⟨b, by simp, hb.outer (hflat.arg (by simp)) x hmem⟩

theorem Similar.isLinear (h : Similar f q q') (hq' : IsComparison q') (hflat : Flat q)
    (hlinear : IsLinear f q) :
  IsLinear f q'
  := by
  obtain ⟨o, o', a, b, a', b', rfl, rfl, ho, ho', hop, ha, hb⟩ := h.sides hq'
  obtain ⟨o₁, a₁, b₁, heq, -, hstrict, hla, hlb⟩ := hlinear
  obtain ⟨rfl, hargs⟩ := Expr.app.inj heq
  obtain ⟨rfl, rfl⟩ : a = a₁ ∧ b = b₁ := by simpa using hargs
  refine ⟨o', a', b', rfl, ho', ?_, ha.linear (hflat.arg (by simp)) hla,
    hb.linear (hflat.arg (by simp)) hlb⟩
  rcases hop with rfl | ⟨-, hop⟩
  · exact hstrict
  · exact hop

theorem SameLiterals.refl (e : Expr) :
  SameLiterals f e e
  := ⟨Matches.refl e, fun _ _ _ => Covers.refl _⟩

theorem SameLiterals.trans (h : SameLiterals f e e') (h' : SameLiterals f e' e'') :
  SameLiterals f e e''
  := by
  refine ⟨h.term.trans h'.term, fun s hs sign => (h.covers s hs sign).trans ?_⟩
  apply h'.covers s (h.term.preserves s hs).1 sign

/-- A step that leaves the literals. -/
theorem SameLiterals.step (h : Matches f e p)
    (heq : ∀ sign, literals e sign = literals p sign) :
  SameLiterals f e p
  := by
  refine ⟨h, fun s _ sign => ?_⟩
  rw [heq]
  apply Covers.refl

theorem sorts_of_preserves (hs : (Expr.app o l).sort = some s)
    (h : List.Forall₂ Preserves l l') :
  l'.map Expr.sort = l.map Expr.sort
  := by
  have hargs := fun e he => exists_sort_of_app (e := e) hs he
  clear hs
  induction h with
  | nil => rfl
  | cons hhead _ ih =>
      obtain ⟨s, hs⟩ := hargs _ List.mem_cons_self
      rw [List.map_cons, List.map_cons, (hhead s hs).1, hs,
        ih fun e he => hargs e (List.mem_cons_of_mem _ he)]

/-- A comparison has two sides. -/
theorem exists_pair (ho : isComparison o = true) (hs : (Expr.app o l).sort = some s) :
  ∃ a b, l = [a, b]
  := by
  have hlength : l.length = 2 := by
    rw [sort_app] at hs
    cases o with
    | ge | gt | le | lt =>
        simpa using congrArg List.length (compareSort_eq_some.mp hs).2
    | eq =>
        obtain ⟨-, t, ht⟩ := equalSort_eq_some.mp hs
        simpa using congrArg List.length ht
    | _ => cases ho
  exact List.length_eq_two.mp hlength

theorem SameLiterals.plain (ho : isPlain o l = true) (h : List.Forall₂ (SameLiterals f) l l') :
  SameLiterals f (.app o l) (.app o l')
  := by
  have hterm := h.imp fun _ _ h => h.term
  refine ⟨Matches.plain ho hterm, fun s hs sign => ?_⟩
  have hsorts := sorts_of_preserves hs (hterm.imp fun _ _ h => h.preserves)
  have hargs : List.Forall₂ (fun e p => ∀ sign, Covers f (literals e sign) (literals p sign))
      l l' := by
    have hsort := fun e he => exists_sort_of_app (e := e) hs he
    clear hsorts hterm hs ho
    induction h with
    | nil => exact .nil
    | cons hhead _ ih =>
        obtain ⟨⟨t, ht⟩, hl⟩ := List.forall_mem_cons.mp hsort
        exact .cons (hhead.covers t ht) (ih hl)
  have hpair : ∀ {a b}, l = [a, b] → ∃ a' b', l' = [a', b'] ∧ Matches f a a' ∧ Matches f b b' := by
    rintro a b rfl
    obtain ⟨a', l₁, ha, hl₁, rfl⟩ := List.forall₂_cons_left_iff.mp hterm
    obtain ⟨b', l₂, hb, hl₂, rfl⟩ := List.forall₂_cons_left_iff.mp hl₁
    obtain rfl := List.forall₂_nil_left_iff.mp hl₂
    exact ⟨a', b', rfl, ha, hb⟩
  generalize he : Expr.app o l = e at hs
  cases shape e with
  | num n => cases he
  | var x => cases he
  | not a => cases he; cases ho
  | connective hc l =>
      cases he
      rw [literals_connective hc, literals_connective hc]
      apply Covers.flatMap
      apply hargs.imp fun _ _ h => h sign
  | order hc a b =>
      cases he
      obtain ⟨a', b', rfl, ha, hb⟩ := hpair rfl
      rw [literals_order hc, literals_order hc]
      apply Covers.singleton
      apply Similar.same _ ha hb
      split
      · exact isComparison_of_isOrder hc
      · exact isComparison_of_isOrder (isOrder_dual hc)
  | eq a b =>
      cases he
      obtain ⟨a', b', rfl, ha, hb⟩ := hpair rfl
      cases sign with
      | true => exact .singleton (.same rfl ha hb)
      | false =>
          constructor
          · intro q hq
            rcases List.mem_pair.mp hq with rfl | rfl
            · exact ⟨.lt a b, by simp [literals], .same rfl ha hb⟩
            · exact ⟨.gt a b, by simp [literals], .same rfl ha hb⟩
          · intro q hq
            rcases List.mem_pair.mp hq with rfl | rfl
            · exact ⟨.lt a' b', by simp [literals], .same rfl ha hb⟩
            · exact ⟨.gt a' b', by simp [literals], .same rfl ha hb⟩
  | implies a b => cases he; cases ho
  | ite c a b hbool => cases he; exact absurd hbool (of_decide_eq_true ho)
  | other hother =>
      cases he
      rw [literals_other hother, literals_other (isOther_congr hother hsorts)]
      apply Covers.singleton
      refine .other (not_isComparison_signed ?_ _ _)
      intro hcomparison
      obtain ⟨a, b, rfl⟩ : ∃ a b, l = [a, b] := exists_pair hcomparison hs
      cases o with
      | ge | gt | le | lt | eq => cases hother
      | _ => cases hcomparison

theorem sameLiterals_rule (f : FuncDecl) :
  PushRule (SameLiterals f)
  where
  refl := SameLiterals.refl
  trans := SameLiterals.trans
  plain := SameLiterals.plain
  not h := ⟨h.term.not, fun s hs sign => by
    obtain ⟨-, ht⟩ := sort_not.mp hs
    apply h.covers _ ht⟩
  not_not a := by
    apply SameLiterals.step ((matches_rule f).not_not a)
    intro sign
    rw [literals, literals, Bool.not_not]
  not_connective l ho := by
    apply SameLiterals.step ((matches_rule f).not_connective l ho)
    intro sign
    rw [literals, literals_connective ho, literals_connective (isConnective_dual ho),
      List.flatMap_map]
    rfl
  not_order {o} a b ho := by
    apply SameLiterals.step ((matches_rule f).not_order a b ho)
    intro sign
    rw [literals, literals_order ho, literals_order (isOrder_dual ho)]
    cases o with
    | ge | gt | le | lt => cases sign <;> rfl
    | _ => cases ho
  not_eq {a b} ha hb := by
    refine ⟨(matches_rule f).not_eq ha hb, fun s _ sign => ?_⟩
    cases sign with
    | true => apply Covers.refl
    | false =>
        -- the negation of the disjunction has two comparisons for the equation
        constructor
        · intro q hq
          refine ⟨.eq a b, by simp [literals], ?_⟩
          rcases List.mem_pair.mp hq with rfl | rfl
          · exact .comparison rfl rfl (.inr ⟨rfl, rfl⟩) (.refl a) (.refl b)
          · exact .comparison rfl rfl (.inr ⟨rfl, rfl⟩) (.refl a) (.refl b)
        · intro q hq
          rw [List.mem_singleton.mp hq]
          refine ⟨.ge a b, by simp [literals, literalsAll], ?_⟩
          exact .comparison rfl rfl (.inr ⟨rfl, rfl⟩) (.refl a) (.refl b)
  implies a b := by
    apply SameLiterals.step ((matches_rule f).implies a b)
    intro sign
    simp [literals, literalsAll]
  ite hbool := by
    apply SameLiterals.step ((matches_rule f).ite hbool)
    intro sign
    simp [literals, literalsAll, hbool]

end Same

/-! ### Literals that are taken to be true -/

/-- Taking literals to be true gives formulas of the same meaning. -/
structure SameRelaxed (f : FuncDecl) (later : List FuncDecl) (e p : Expr) : Prop where
  term : Matches f e p
  relax (s : Srt) : Flat e → e.sort = some s → ∀ sign,
    Preserves (relax later e sign) (relax later p sign)

section Relaxed

variable {f : FuncDecl} {later : List FuncDecl} {o : Op} {a b c e e' e'' p : Expr}
  {l l' : List Expr} {s : Srt} {sign : Bool}

theorem sort_relaxAtom (hs : e.sort = some s) (hbool : s = .bool) (sign : Bool) :
  (relaxAtom later e sign).sort = some s
  := by
  rw [relaxAtom]
  split
  · split
    · exact sort_tru.mpr hbool
    · exact sort_fls.mpr hbool
  · exact hs

theorem bool_of_isComparison (ho : isComparison o = true) (hs : (Expr.app o l).sort = some s) :
  s = .bool
  := by
  rw [sort_app] at hs
  cases o with
  | ge | gt | le | lt => exact (compareSort_eq_some.mp hs).1
  | eq => exact (equalSort_eq_some.mp hs).1
  | _ => cases ho

theorem preserves_and_singleton (ho : isComparison o) :
  Preserves (.app o l) (.and [.app o l])
  := by
  refine Preserves.of_holds fun s hs => ?_
  obtain rfl := bool_of_isComparison ho hs
  exact ⟨rfl, by simpa using hs, fun M => by simp⟩

theorem sort_relax (hs : e.sort = some s) (sign : Bool) :
  (relax later e sign).sort = some s
  := by
  induction e generalizing s sign with
  | num n => exact hs
  | var x => exact hs
  | app o l ih =>
      generalize he : Expr.app o l = e at hs
      cases shape e with
      | num n => cases he
      | var x => cases he
      | not a =>
          cases he
          rw [relax]
          rw [sort_not] at hs ⊢
          exact ⟨hs.1, ih a (by simp) hs.2 _⟩
      | connective hc l =>
          cases he
          rw [relax_connective hc]
          exact sort_app_map (fun e he t ht => ih e he ht sign) hs
      | order hc a b =>
          cases he
          rw [relax_order hc]
          apply sort_relaxAtom hs (bool_of_isComparison (isComparison_of_isOrder hc) hs)
      | eq a b =>
          cases he
          exact sort_relaxAtom hs (bool_of_isComparison rfl hs) sign
      | implies a b =>
          cases he
          obtain ⟨rfl, ha, hb⟩ := sort_implies.mp hs
          simp [relax, ih a (by simp) ha, ih b (by simp) hb]
      | ite c a b hbool =>
          cases he
          obtain ⟨hc, ha, hb⟩ := sort_ite.mp hbool
          obtain rfl := Option.some.inj (hs.symm.trans hbool)
          simp [relax, hbool, ih c (by simp) hc, ih a (by simp) ha, ih b (by simp) hb]
      | other hother =>
          cases he
          rw [relax_other hother]
          exact hs

/-- When no literal is taken to be true, the formula keeps its meaning. -/
theorem relax_preserves (hs : e.sort = some s) (sign : Bool) :
  Preserves e (relax [] e sign)
  := by
  have hatom : ∀ e : Expr, relaxAtom [] e sign = e := by
    intro e
    simp [relaxAtom, mentions]
  induction e generalizing s sign with
  | num n => exact .refl _
  | var x => exact .refl _
  | app o l ih =>
      generalize he : Expr.app o l = e at hs
      cases shape e with
      | num n => cases he
      | var x => cases he
      | not a =>
          cases he
          exact (ih a (by simp) (sort_not.mp hs).2 _ (by simp [relaxAtom, mentions])).not
      | connective hc l =>
          cases he
          rw [relax_connective hc]
          apply Preserves.map
          intro e he
          obtain ⟨t, ht⟩ := exists_sort_of_app hs he
          apply ih e he ht sign hatom
      | order hc a b =>
          cases he
          rw [relax_order hc, hatom]
          apply Preserves.refl
      | eq a b =>
          cases he
          rw [relax, hatom]
          apply Preserves.refl
      | implies a b =>
          cases he
          obtain ⟨rfl, ha, hb⟩ := sort_implies.mp hs
          have ha' := ih a (by simp) ha (!sign) (by simp [relaxAtom, mentions])
          have hb' := ih b (by simp) hb sign hatom
          exact Preserves.implies.trans (.app .or (.cons ha'.not (.cons hb' .nil)))
      | ite c a b hbool =>
          cases he
          obtain ⟨hc, ha, hb⟩ := sort_ite.mp hbool
          have hc' := fun sign => ih c (by simp) hc sign (by simp [relaxAtom, mentions])
          have ha' := ih a (by simp) ha sign hatom
          have hb' := ih b (by simp) hb sign hatom
          rw [relax, if_pos hbool]
          apply (Preserves.ite ha).trans
          apply Preserves.app
          exact .cons (.app .or (.cons (hc' _).not (.cons ha' .nil)))
            (.cons (.app .or (.cons (hc' _) (.cons hb' .nil))) .nil)
      | other hother =>
          cases he
          rw [relax_other hother]
          apply Preserves.refl

theorem SameRelaxed.refl (e : Expr) :
  SameRelaxed f later e e
  := ⟨Matches.refl e, fun _ _ _ _ => Preserves.refl _⟩

theorem SameRelaxed.trans (h : SameRelaxed f later e e') (h' : SameRelaxed f later e' e'') :
  SameRelaxed f later e e''
  := by
  refine ⟨h.term.trans h'.term, fun s hflat hs sign => (h.relax s hflat hs sign).trans ?_⟩
  apply h'.relax s (hflat.congr (h.term.calls hflat)) (h.term.preserves s hs).1

theorem relaxAtom_matches (hflat : Flat (.app o l)) (h : List.Forall₂ (Matches f) l l') :
  Preserves (relaxAtom later (.app o l) sign) (relaxAtom later (.app o l') sign)
  := by
  rw [relaxAtom, relaxAtom, mentions_congr (calls_app_of_matches h hflat)]
  split
  · apply Preserves.refl
  · exact .app o (h.imp fun _ _ h => h.preserves)

theorem SameRelaxed.plain (ho : isPlain o l = true)
    (h : List.Forall₂ (SameRelaxed f later) l l') :
  SameRelaxed f later (.app o l) (.app o l')
  := by
  have hterm := h.imp fun _ _ h => h.term
  refine ⟨Matches.plain ho hterm, fun s hflat hs sign => ?_⟩
  have hsorts := sorts_of_preserves hs (hterm.imp fun _ _ h => h.preserves)
  have hpair : ∀ {a b}, l = [a, b] → ∃ a' b', l' = [a', b'] := by
    rintro a b rfl
    exact List.length_eq_two.mp hterm.length_eq.symm
  generalize he : Expr.app o l = e at hs hflat
  cases shape e with
  | num n => cases he
  | var x => cases he
  | not a => cases he; cases ho
  | connective hc l =>
      cases he
      rw [relax_connective hc, relax_connective hc]
      apply Preserves.app
      rw [List.forall₂_map_left_iff, List.forall₂_map_right_iff]
      have hsort := fun e he => exists_sort_of_app (e := e) hs he
      have hargs : ∀ e ∈ l, Flat e := fun e he => hflat.arg he
      clear hsorts hterm hs ho hflat hpair
      induction h with
      | nil => exact .nil
      | cons hhead _ ih =>
          obtain ⟨⟨t, ht⟩, hl⟩ := List.forall_mem_cons.mp hsort
          obtain ⟨hflat, hargs⟩ := List.forall_mem_cons.mp hargs
          exact .cons (hhead.relax t hflat ht sign) (ih hl hargs)
  | order hc a b =>
      cases he
      obtain ⟨a', b', rfl⟩ := hpair rfl
      rw [relax_order hc, relax_order hc]
      apply relaxAtom_matches hflat hterm
  | eq a b =>
      cases he
      obtain ⟨a', b', rfl⟩ := hpair rfl
      exact relaxAtom_matches (o := .eq) hflat hterm
  | implies a b => cases he; cases ho
  | ite c a b hbool => cases he; exact absurd hbool (of_decide_eq_true ho)
  | other hother =>
      cases he
      rw [relax_other hother, relax_other (isOther_congr hother hsorts)]
      exact .app o (hterm.imp fun _ _ h => h.preserves)

theorem preserves_not_tru :
  Preserves (.not .tru) .fls
  := by
  apply Preserves.of_holds
  simp

theorem preserves_not_fls :
  Preserves (.not .fls) .tru
  := by
  apply Preserves.of_holds
  simp

theorem sameRelaxed_rule (f : FuncDecl) (later : List FuncDecl) :
  PushRule (SameRelaxed f later)
  where
  refl := SameRelaxed.refl
  trans := SameRelaxed.trans
  plain := SameRelaxed.plain
  not h := ⟨h.term.not, fun s hflat hs sign =>
    (h.relax _ (hflat.arg (by simp)) (sort_not.mp hs).2 _).not⟩
  not_not a := by
    refine ⟨(matches_rule f).not_not a, fun s _ _ sign => ?_⟩
    rw [relax, relax, Bool.not_not]
    apply Preserves.not_not
  not_connective {o} l ho := by
    refine ⟨(matches_rule f).not_connective l ho, fun s _ _ sign => ?_⟩
    have hmap : (l.map Expr.not).map (fun e => relax later e sign)
        = (l.map fun e => relax later e !sign).map .not := by
      rw [List.map_map, List.map_map]
      rfl
    rw [relax, relax_connective ho, relax_connective (isConnective_dual ho), hmap]
    apply preserves_not_connective ho
  not_order {o} a b ho := by
    refine ⟨(matches_rule f).not_order a b ho, fun s _ _ sign => ?_⟩
    have ho' : isConnective o = true ∨ isOrder o = true := .inr ho
    have hmentions : mentions later (.app (dual o) [a, b]) = mentions later (.app o [a, b]) := by
      apply mentions_congr
      simp [mem_calls_app, ne_func ho', dual_ne_func ho']
    rw [relax, relax_order ho, relax_order (isOrder_dual ho), relaxAtom, relaxAtom, hmentions]
    split
    · cases sign with
      | true => exact preserves_not_fls
      | false => exact preserves_not_tru
    · apply preserves_not_order ho
  not_eq {a b} ha hb := by
    refine ⟨(matches_rule f).not_eq ha hb, fun s _ _ sign => ?_⟩
    have hmentions : ∀ o ∈ [Op.lt, Op.gt],
        mentions later (.app o [a, b]) = mentions later (.eq a b) := by
      intro o ho
      apply mentions_congr
      rcases List.mem_pair.mp ho with rfl | rfl
      · simp [mem_calls_app]
      · simp [mem_calls_app]
    simp only [relax, relaxAll, relaxAtom, hmentions .lt (by simp), hmentions .gt (by simp)]
    split
    · cases sign with
      | true =>
          apply Preserves.of_holds
          simp
      | false =>
          apply Preserves.of_holds
          simp
    · apply Preserves.not_eq ha
  implies a b := by
    refine ⟨(matches_rule f).implies a b, fun s _ _ sign => ?_⟩
    simp only [relax, relaxAll]
    apply Preserves.refl
  ite {c a b} hbool := by
    refine ⟨(matches_rule f).ite hbool, fun s _ _ sign => ?_⟩
    simp only [relax, relaxAll, if_pos hbool]
    apply Preserves.refl

end Relaxed

end Sygus.SSI
