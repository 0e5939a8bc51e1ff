import DryadSynth.SSI.Candidates
import DryadSynth.Library.LIA.Every

/-!
# Where pushing in negations ends

A negation that comes to a Boolean constant, a Boolean variable or a Boolean application is pushed
into the same expression again, and one that comes to an equation between formulas fails.
`pushable` finds the expressions for which neither happens.  For these, and for no others, the
recursion ends; the cache does not change this.
-/

namespace Sygus.SSI

open LIA Lists

mutual

/-- With the sign `true`: pushing in the negations of the expression ends.  With the sign `false`:
it ends for the negated expression. -/
def pushable : Expr → Bool → Bool
  | .num _, sign => sign
  | .var _, sign => sign
  | .not a, sign => pushable a !sign
  | .and l, sign => pushableAll l sign
  | .or l, sign => pushableAll l sign
  | .ge a b, _ => pushable a true && pushable b true
  | .gt a b, _ => pushable a true && pushable b true
  | .le a b, _ => pushable a true && pushable b true
  | .lt a b, _ => pushable a true && pushable b true
  | .eq a b, sign =>
      (sign || (a.sort = some .int && b.sort = some .int)) && pushable a true && pushable b true
  | .implies a b, sign =>
      pushable a false && pushable b true && (sign || (pushable a true && pushable b false))
  | .ite c a b, sign =>
      if (Expr.ite c a b).sort = some .bool then
        pushable c false && pushable c true && pushable a true && pushable b true
          && (sign || (pushable a false && pushable b false))
      else sign && pushable c true && pushable a true && pushable b true
  | .app _ args, sign => sign && pushableAll args true

def pushableAll : List Expr → Bool → Bool
  | [], _ => true
  | e :: l, sign => pushable e sign && pushableAll l sign

end

/-! ### The shapes of expressions -/

/-- The other one of two connectives, or the comparison that holds where the given one does not. -/
def dual : Op → Op
  | .and => .or
  | .or => .and
  | .ge => .lt
  | .gt => .le
  | .lt => .ge
  | .le => .gt
  | o => o

/-- The operator connects formulas. -/
def isConnective : Op → Bool
  | .and | .or => true
  | _ => false

/-- The operator compares integers by their order. -/
def isOrder : Op → Bool
  | .ge | .gt | .le | .lt => true
  | _ => false

/-- An application that pushing in treats by its arguments. -/
def isOther (o : Op) (args : List Expr) : Bool :=
  match o, args with
  | .and, _ | .or, _ | .not, [_] | .implies, [_, _] => false
  | .ge, [_, _] | .gt, [_, _] | .le, [_, _] | .lt, [_, _] | .eq, [_, _] => false
  | .ite, [c, a, b] => (Expr.ite c a b).sort ≠ some .bool
  | _, _ => true

/-- An application that pushing in keeps, with other arguments. -/
def isPlain (o : Op) (args : List Expr) : Bool :=
  match o, args with
  | .not, [_] | .implies, [_, _] => false
  | .ite, [c, a, b] => (Expr.ite c a b).sort ≠ some .bool
  | _, _ => true

/-- The shapes that are treated differently. -/
inductive Shape : Expr → Prop
  | num (n : ℤ) : Shape (.num n)
  | var (x : Var) : Shape (.var x)
  | not (a : Expr) : Shape (.not a)
  | connective {o : Op} (ho : isConnective o = true) (l : List Expr) : Shape (.app o l)
  | order {o : Op} (ho : isOrder o = true) (a b : Expr) : Shape (.app o [a, b])
  | eq (a b : Expr) : Shape (.eq a b)
  | implies (a b : Expr) : Shape (.implies a b)
  | ite (c a b : Expr) (h : (Expr.ite c a b).sort = some .bool) : Shape (.ite c a b)
  | other {o : Op} {args : List Expr} (h : isOther o args = true) : Shape (.app o args)

section Shapes

variable {push : Expr → Option Expr} {o : Op} {a b c e : Expr} {l args : List Expr} {sign : Bool}

theorem shape (e : Expr) :
  Shape e
  := by
  cases e with
  | num n => exact .num n
  | var x => exact .var x
  | app o args =>
      by_cases h : isOther o args = true
      · exact .other h
      · revert h
        fun_cases isOther o args with
        | case1 => exact fun _ => .connective rfl args
        | case2 => exact fun _ => .connective rfl args
        | case3 a => exact fun _ => .not a
        | case4 a b => exact fun _ => .implies a b
        | case5 a b => exact fun _ => .order rfl a b
        | case6 a b => exact fun _ => .order rfl a b
        | case7 a b => exact fun _ => .order rfl a b
        | case8 a b => exact fun _ => .order rfl a b
        | case9 a b => exact fun _ => .eq a b
        | case10 c a b => exact fun h => .ite c a b (by simpa using h)
        | case11 => exact fun h => absurd rfl h

theorem pushableAll_eq (l : List Expr) (sign : Bool) :
  pushableAll l sign = l.all fun e => pushable e sign
  := by
  induction l with
  | nil => rfl
  | cons e l ih => rw [pushableAll, ih, List.all_cons]

theorem pushStep_plain (h : isPlain o args = true) :
  pushStep push (.app o args) = (args.mapM push).map (.app o)
  := by
  revert h
  generalize he : Expr.app o args = e
  fun_cases pushStep push e with
  | case1 k => cases he
  | case2 x => cases he
  | case3 o' => cases he; exact fun _ => rfl
  | case4 a => cases he; exact fun h => Bool.noConfusion h
  | case5 a b => cases he; exact fun h => Bool.noConfusion h
  | case6 c a b hbool => cases he; exact fun h => absurd hbool (of_decide_eq_true h)
  | case7 c a b hbool => cases he; exact fun _ => rfl
  | case8 o' args' => cases he; exact fun _ => rfl

theorem isPlain_of_isConnective (ho : isConnective o = true) (args : List Expr) :
  isPlain o args = true
  := by
  cases o with
  | and | or => rfl
  | _ => cases ho

theorem isPlain_of_isOrder (ho : isOrder o = true) (args : List Expr) :
  isPlain o args = true
  := by
  cases o with
  | ge | gt | le | lt => rfl
  | _ => cases ho

theorem isPlain_of_isOther (h : isOther o args = true) :
  isPlain o args = true
  := by
  revert h
  fun_cases isPlain o args with
  | case1 a => exact nofun
  | case2 a b => exact nofun
  | case3 c a b => exact id
  | case4 => exact fun _ => rfl

theorem pushNot_connective (ho : isConnective o = true) :
  pushNot push (.app o l) = push (.app (dual o) (l.map .not))
  := by
  cases o with
  | and | or => rfl
  | _ => cases ho

theorem pushNot_order (ho : isOrder o = true) :
  pushNot push (.app o [a, b]) = push (.app (dual o) [a, b])
  := by
  cases o with
  | ge | gt | le | lt => rfl
  | _ => cases ho

theorem pushNot_other (h : isOther o args = true) :
  pushNot push (.app o args) = (push (.app o args)).bind fun p => push (.not p)
  := by
  revert h
  generalize he : Expr.app o args = e
  fun_cases pushNot push e with
  | case10 inner => exact fun _ => rfl
  | _ => cases he; exact fun h => Bool.noConfusion h

theorem pushable_connective (ho : isConnective o = true) :
  pushable (.app o l) sign = l.all fun e => pushable e sign
  := by
  rw [← pushableAll_eq]
  cases o with
  | and | or => rfl
  | _ => cases ho

theorem pushable_order (ho : isOrder o = true) :
  pushable (.app o [a, b]) sign = (pushable a true && pushable b true)
  := by
  cases o with
  | ge | gt | le | lt => rfl
  | _ => cases ho

theorem pushable_other (h : isOther o args = true) :
  pushable (.app o args) sign = (sign && args.all fun e => pushable e true)
  := by
  rw [← pushableAll_eq]
  revert h
  generalize he : Expr.app o args = e
  fun_cases pushable e sign with
  | case1 | case2 => cases he
  | case12 =>
      cases he
      rename_i hbool
      exact fun h => absurd hbool (of_decide_eq_true h)
  | case13 =>
      cases he
      intro _
      simp [pushableAll, Bool.and_assoc]
  | case14 =>
      cases he
      intro _
      rfl
  | _ =>
      cases he
      nofun

end Shapes

/-! ### Results -/

section Pushes

variable {push push' : Expr → Option Expr} {o : Op} {a b c e p q : Expr}
variable {l l' args args' : List Expr}
  {n m : ℕ}

/-- Pushing in ends, with the result `p`. -/
def Pushes (e p : Expr) : Prop := ∃ n, pushInNots n e = some p

theorem mapM_mono (h : ∀ e p, push e = some p → push' e = some p) (hl : l.mapM push = some l') :
  l.mapM push' = some l'
  := by
  rw [mapM_eq_some_iff] at *
  apply hl.imp h

theorem bind_mono (h : ∀ e p, push e = some p → push' e = some p)
    (hp : ((push e).bind fun q => push (.not q)) = some p) :
  ((push' e).bind fun q => push' (.not q)) = some p
  := by
  obtain ⟨q, hq, hp⟩ := Option.bind_eq_some_iff.mp hp
  rw [h e q hq, Option.bind_some]
  apply h _ p hp

theorem pushNot_mono (h : ∀ e p, push e = some p → push' e = some p)
    (hp : pushNot push e = some p) :
  pushNot push' e = some p
  := by
  cases shape e with
  | num n => exact bind_mono h hp
  | var x => exact bind_mono h hp
  | not a => exact h a p hp
  | connective ho l =>
      rw [pushNot_connective ho] at *
      apply h _ p hp
  | order ho a b =>
      rw [pushNot_order ho] at *
      apply h _ p hp
  | eq a b =>
      rw [pushNot] at *
      split at hp
      · rename_i hab
        rw [if_pos hab]
        apply h _ p hp
      · cases hp
  | implies a b => exact bind_mono h hp
  | ite c a b _ => exact bind_mono h hp
  | other ho =>
      rw [pushNot_other ho] at *
      apply bind_mono h hp

theorem pushStep_plain_mono (ho : isPlain o args = true)
    (h : ∀ e p, push e = some p → push' e = some p)
    (hp : pushStep push (.app o args) = some p) :
  pushStep push' (.app o args) = some p
  := by
  rw [pushStep_plain ho] at *
  obtain ⟨args', hargs', hp⟩ := Option.map_eq_some_iff.mp hp
  rw [mapM_mono h hargs', Option.map_some, hp]

theorem pushStep_mono (h : ∀ e p, push e = some p → push' e = some p)
    (hp : pushStep push e = some p) :
  pushStep push' e = some p
  := by
  cases shape e with
  | num n => exact hp
  | var x => exact hp
  | not a => exact pushNot_mono h hp
  | connective ho l => exact pushStep_plain_mono (isPlain_of_isConnective ho l) h hp
  | order ho a b => exact pushStep_plain_mono (isPlain_of_isOrder ho [a, b]) h hp
  | eq a b => exact pushStep_plain_mono (o := .eq) rfl h hp
  | implies a b => exact h _ p hp
  | ite c a b hbool =>
      rw [pushStep, if_pos hbool] at *
      apply h _ p hp
  | other ho => exact pushStep_plain_mono (isPlain_of_isOther ho) h hp

/-- More calls give the same result. -/
theorem pushInNots_mono (hnm : n ≤ m) (h : pushInNots n e = some p) :
  pushInNots m e = some p
  := by
  induction n generalizing m e p with
  | zero => cases h
  | succ n ih =>
      obtain ⟨k, rfl⟩ := Nat.exists_eq_add_of_le' (Nat.one_le_of_lt hnm)
      exact pushStep_mono (fun e p => ih (by omega)) h

theorem Pushes.unique (h : Pushes e p) (h' : Pushes e q) :
  p = q
  := by
  obtain ⟨n, hn⟩ := h
  obtain ⟨m, hm⟩ := h'
  have hn' := pushInNots_mono (le_max_left n m) hn
  have hm' := pushInNots_mono (le_max_right n m) hm
  apply Option.some.inj (hn'.symm.trans hm')

theorem Pushes.preserves (h : Pushes e p) :
  Preserves e p
  := by
  obtain ⟨n, hn⟩ := h
  apply pushInNots_preserves hn

theorem pushes_num (k : ℤ) :
  Pushes (.num k) (.num k)
  := ⟨1, rfl⟩

theorem pushes_var (x : Var) :
  Pushes (.var x) (.var x)
  := ⟨1, rfl⟩

theorem pushes_args (h : List.Forall₂ Pushes args args') :
  ∃ n, args.mapM (pushInNots n) = some args'
  := by
  induction h with
  | nil => exact ⟨0, rfl⟩
  | cons hhead _ ih =>
      obtain ⟨n, hn⟩ := hhead
      obtain ⟨m, hm⟩ := ih
      use max n m
      rw [List.mapM_cons, pushInNots_mono (le_max_left n m) hn,
        mapM_mono (fun _ _ => pushInNots_mono (le_max_right n m)) hm]
      rfl

theorem pushes_plain (ho : isPlain o args = true) (h : List.Forall₂ Pushes args args') :
  Pushes (.app o args) (.app o args')
  := by
  obtain ⟨n, hn⟩ := pushes_args h
  use n + 1
  rw [pushInNots, pushStep_plain ho, hn, Option.map_some]

theorem pushes_implies (h : Pushes (.or [.not a, b]) p) :
  Pushes (.implies a b) p
  := by
  obtain ⟨n, hn⟩ := h
  exact ⟨n + 1, hn⟩

theorem pushes_ite (hbool : (Expr.ite c a b).sort = some .bool)
    (h : Pushes (.and [.or [.not c, a], .or [c, b]]) p) :
  Pushes (.ite c a b) p
  := by
  obtain ⟨n, hn⟩ := h
  use n + 1
  rw [pushInNots, pushStep, if_pos hbool, hn]

theorem pushes_not_not (h : Pushes a p) :
  Pushes (.not (.not a)) p
  := by
  obtain ⟨n, hn⟩ := h
  exact ⟨n + 1, hn⟩

theorem pushes_not_connective (ho : isConnective o = true)
    (h : Pushes (.app (dual o) (l.map .not)) p) :
  Pushes (.not (.app o l)) p
  := by
  obtain ⟨n, hn⟩ := h
  use n + 1
  change pushNot _ _ = _
  rw [pushNot_connective ho, hn]

theorem pushes_not_order (ho : isOrder o = true) (h : Pushes (.app (dual o) [a, b]) p) :
  Pushes (.not (.app o [a, b])) p
  := by
  obtain ⟨n, hn⟩ := h
  use n + 1
  change pushNot _ _ = _
  rw [pushNot_order ho, hn]

theorem pushes_not_eq (ha : a.sort = some .int) (hb : b.sort = some .int)
    (h : Pushes (.or [.lt a b, .gt a b]) p) :
  Pushes (.not (.eq a b)) p
  := by
  obtain ⟨n, hn⟩ := h
  use n + 1
  change pushNot (pushInNots n) (.eq a b) = some p
  rw [pushNot, if_pos ⟨ha, hb⟩, hn]

/-- A negation that is pushed in after the formula below it. -/
theorem pushes_not_bind (he : ∀ push, pushNot push e = (push e).bind fun q => push (.not q))
    (h : Pushes e q) (h' : Pushes (.not q) p) :
  Pushes (.not e) p
  := by
  obtain ⟨n, hn⟩ := h
  obtain ⟨m, hm⟩ := h'
  use max n m + 1
  change pushNot _ _ = _
  rw [he, pushInNots_mono (le_max_left n m) hn, Option.bind_some,
    pushInNots_mono (le_max_right n m) hm]

end Pushes

/-! ### Expressions without negations -/

/-- Pushing in leaves the shape of every application in the expression. -/
def Pushed (e : Expr) : Prop := e.every fun o args => isPlain o args = true

section Pushed

variable {o : Op} {a b c e p : Expr} {l l' args args' : List Expr} {s : Srt}

theorem pushed_app :
  Pushed (.app o l) ↔ isPlain o l = true ∧ ∀ e ∈ l, Pushed e
  := every_app

theorem pushed_order (ho : isOrder o = true) (ha : Pushed a) (hb : Pushed b) :
  Pushed (.app o [a, b])
  := pushed_app.mpr ⟨isPlain_of_isOrder ho _, by simp [ha, hb]⟩

theorem pushed_connective (ho : isConnective o = true) (h : ∀ e ∈ l, Pushed e) :
  Pushed (.app o l)
  := pushed_app.mpr ⟨isPlain_of_isConnective ho l, h⟩

theorem Pushed.pushes_self (h : Pushed p) :
  Pushes p p
  := by
  induction p with
  | num n => exact pushes_num n
  | var x => exact pushes_var x
  | app o l ih =>
      obtain ⟨ho, hl⟩ := pushed_app.mp h
      apply pushes_plain ho
      rw [List.forall₂_same]
      intro e he
      apply ih e he (hl e he)

theorem Pushed.pushable_true (h : Pushed p) :
  pushable p true = true
  := by
  induction p with
  | num n => rfl
  | var x => rfl
  | app o l ih =>
      obtain ⟨ho, hl⟩ := pushed_app.mp h
      have hargs : ∀ e ∈ l, pushable e true = true := fun e he => ih e he (hl e he)
      generalize he : Expr.app o l = e at *
      cases shape e with
      | num n => cases he
      | var x => cases he
      | not a => cases he; cases ho
      | connective hc l =>
          cases he
          rw [pushable_connective hc, List.all_eq_true]
          apply hargs
      | order hc a b =>
          cases he
          rw [pushable_order hc, hargs a (by simp), hargs b (by simp), Bool.and_self]
      | eq a b =>
          cases he
          rw [pushable, hargs a (by simp), hargs b (by simp)]
          rfl
      | implies a b => cases he; cases ho
      | ite c a b hbool => cases he; exact absurd hbool (of_decide_eq_true ho)
      | other hother =>
          cases he
          rw [pushable_other hother, Bool.true_and, List.all_eq_true]
          apply hargs

/-- Results for the elements of a list, with what is known of them. -/
theorem exists_forall₂ {f : Expr → Expr} {R : Expr → Expr → Prop}
    (h : ∀ e ∈ l, ∃ p, Pushes (f e) p ∧ R e p) :
  ∃ l', List.Forall₂ Pushes (l.map f) l' ∧ List.Forall₂ R l l'
  := by
  obtain ⟨l', hl'⟩ := Lists.exists_forall₂.mpr h
  use l'
  constructor
  · rw [List.forall₂_map_left_iff]
    exact hl'.imp fun _ _ h => h.1
  · exact hl'.imp fun _ _ h => h.2

theorem isConnective_dual (ho : isConnective o = true) :
  isConnective (dual o) = true
  := by
  cases o with
  | and | or => rfl
  | _ => cases ho

theorem isOrder_dual (ho : isOrder o = true) :
  isOrder (dual o) = true
  := by
  cases o with
  | ge | gt | le | lt => rfl
  | _ => cases ho

/-- The two orders that stand for an inequality. -/
theorem pushes_ne (ha : Pushed a) (hb : Pushed b) :
  Pushed (.or [.lt a b, .gt a b])
  := by
  apply pushed_connective rfl
  simp only [List.forall_mem_cons, List.not_mem_nil, false_implies, implies_true, and_true]
  exact ⟨pushed_order rfl ha hb, pushed_order rfl ha hb⟩

/-- The negation of an expression without negations. -/
theorem Pushed.exists_pushes_not (h : Pushed p) (hp : pushable p false = true) :
  ∃ p', Pushes (.not p) p' ∧ Pushed p' ∧ pushable p' false = true
  := by
  induction p with
  | num n => cases hp
  | var x => cases hp
  | app o l ih =>
      obtain ⟨ho, hl⟩ := pushed_app.mp h
      generalize he : Expr.app o l = e at *
      cases shape e with
      | num n => cases he
      | var x => cases he
      | not a => cases he; cases ho
      | connective hc l =>
          cases he
          rw [pushable_connective hc, List.all_eq_true] at hp
          obtain ⟨l', hl', hall⟩ := exists_forall₂ fun e he => ih e he (hl e he) (hp e he)
          have hpushed : ∀ q ∈ l', Pushed q := forall_of_forall₂ hall fun _ _ h => h.1
          have hfalse : ∀ q ∈ l', pushable q false = true := forall_of_forall₂ hall fun _ _ h => h.2
          refine ⟨.app (dual o) l', ?_, ?_, ?_⟩
          · apply pushes_not_connective hc
            apply pushes_plain (isPlain_of_isConnective (isConnective_dual hc) _) hl'
          · apply pushed_connective (isConnective_dual hc) hpushed
          · rw [pushable_connective (isConnective_dual hc), List.all_eq_true]
            apply hfalse
      | order hc a b =>
          cases he
          have hpushed := pushed_order (isOrder_dual hc) (hl a (by simp)) (hl b (by simp))
          refine ⟨.app (dual o) [a, b], pushes_not_order hc hpushed.pushes_self, hpushed, ?_⟩
          rw [pushable_order (isOrder_dual hc), ← pushable_order hc, hp]
      | eq a b =>
          cases he
          have ha := hl a (by simp)
          have hb := hl b (by simp)
          simp only [pushable, Bool.false_or, Bool.and_eq_true, decide_eq_true_eq] at hp
          refine ⟨_, pushes_not_eq hp.1.1.1 hp.1.1.2 (pushes_ne ha hb).pushes_self,
            pushes_ne ha hb, ?_⟩
          simp [pushable, pushableAll, ha.pushable_true, hb.pushable_true]
      | implies a b => cases he; cases ho
      | ite c a b hbool => cases he; exact absurd hbool (of_decide_eq_true ho)
      | other hother =>
          cases he
          rw [pushable_other hother] at hp
          cases hp

theorem sorts_of_pushes {t : Srt} (hs : (Expr.app o args).sort = some t)
    (h : List.Forall₂ Pushes args args') :
  args'.map Expr.sort = args.map Expr.sort
  := by
  have hargs := fun e he => exists_sort_of_app (e := e) hs he
  clear hs
  induction h with
  | nil => rfl
  | cons hhead _ ih =>
      obtain ⟨s, hs⟩ := hargs _ List.mem_cons_self
      rw [List.map_cons, List.map_cons, (hhead.preserves s hs).1, hs,
        ih fun e he => hargs e (List.mem_cons_of_mem _ he)]

theorem isOther_congr (h : isOther o args = true)
    (hsort : args'.map Expr.sort = args.map Expr.sort) :
  isOther o args' = true
  := by
  have hlen : args.length = args'.length := by simpa using (congrArg List.length hsort).symm
  revert h
  fun_cases isOther o args' with
  | case1 | case2 => exact id
  | case3 a =>
      obtain ⟨a', rfl⟩ := List.length_eq_one_iff.mp hlen
      apply id
  | case4 a b | case5 a b | case6 a b | case7 a b | case8 a b | case9 a b =>
      obtain ⟨a', b', rfl⟩ := List.length_eq_two.mp hlen
      apply id
  | case10 c a b =>
      obtain ⟨c', a', b', rfl⟩ := List.length_eq_three.mp hlen
      rw [isOther, Expr.ite, sort_app, ← hsort, ← sort_app]
      apply id
  | case11 => exact fun _ => rfl

end Pushed

/-! ### Where the recursion ends -/

section Ends

variable {o : Op} {a b c e p : Expr} {l l' args args' : List Expr} {s : Srt} {n : ℕ}

/-- The result of pushing in the negations of `e`, or with the sign `false` of its negation. -/
structure Result (e : Expr) (sign : Bool) (p : Expr) : Prop where
  pushes : Pushes (if sign then e else .not e) p
  pushed : Pushed p
  opposite : pushable p false = pushable e !sign

/-- The expression has a result with a sign if it is pushable with the sign. -/
def HasResults (e : Expr) : Prop :=
  ∀ sign, pushable e sign = true → ∃ p, Result e sign p

theorem Result.positive (h : Result e true p) : Pushes e p := h.pushes

theorem Result.negative (h : Result e false p) : Pushes (.not e) p := h.pushes

/-- Results for the arguments of an application that is kept. -/
theorem exists_results (h : ∀ e ∈ l, HasResults e) (hl : l.all (fun e => pushable e true) = true) :
  ∃ l', List.Forall₂ Pushes l l' ∧ List.Forall₂ (fun e p => Result e true p) l l'
  := by
  rw [List.all_eq_true] at hl
  obtain ⟨l', hl', hall⟩ := exists_forall₂ fun e he => by
    obtain ⟨p, hp⟩ := h e he true (hl e he)
    exact ⟨p, hp.positive, hp⟩
  rw [List.map_id'] at hl'
  exact ⟨l', hl', hall⟩

/-- A formula that is only treated by its arguments. -/
theorem Result.plain (ho : isPlain o args = true) (ho' : isPlain o args' = true)
    (h : List.Forall₂ (fun e p => Result e true p) args args')
    (hpushable : pushable (.app o args') false = pushable (.app o args) false) :
  Result (.app o args) true (.app o args')
  := by
  refine ⟨pushes_plain ho (h.imp fun _ _ h => h.positive), ?_, hpushable⟩
  exact pushed_app.mpr ⟨ho', forall_of_forall₂ h fun _ _ h => h.pushed⟩

/-- From the result of an expression to the one of its negation, where the negation is pushed in
after the expression. -/
theorem Result.bind (he : ∀ push, pushNot push e = (push e).bind fun q => push (.not q))
    (h : Result e true p) (hfalse : pushable e false = true) (htrue : pushable e true = true) :
  ∃ p', Result e false p'
  := by
  have hp : pushable p false = true := h.opposite.trans hfalse
  obtain ⟨p', hp', hpushed, hfalse'⟩ := h.pushed.exists_pushes_not hp
  exact ⟨p', pushes_not_bind he h.positive hp', hpushed, hfalse'.trans htrue.symm⟩

theorem HasResults.not (h : HasResults a) :
  HasResults (.not a)
  := by
  intro sign hsign
  rw [pushable] at hsign
  obtain ⟨p, hp⟩ := h (!sign) hsign
  refine ⟨p, ?_, hp.pushed, ?_⟩
  · cases sign with
    | true => exact hp.negative
    | false => exact pushes_not_not hp.positive
  · rw [hp.opposite, pushable]

theorem HasResults.connective (ho : isConnective o = true) (h : ∀ e ∈ l, HasResults e) :
  HasResults (.app o l)
  := by
  intro sign hsign
  rw [pushable_connective ho, List.all_eq_true] at hsign
  obtain ⟨l', hl', hall⟩ := exists_forall₂ fun e he => by
    obtain ⟨p, hp⟩ := h e he sign (hsign e he)
    exact ⟨p, hp.pushes, hp⟩
  have hpushed : ∀ q ∈ l', Pushed q := forall_of_forall₂ hall fun _ _ h => h.pushed
  have hpushable : (l'.all fun q => pushable q false) = l.all fun e => pushable e !sign := by
    rw [Bool.eq_iff_iff, List.all_eq_true, List.all_eq_true]
    apply forall_iff_of_forall₂ hall
    intro e q hq
    rw [hq.opposite]
  cases sign with
  | true =>
      rw [List.map_congr_left fun e _ => if_pos rfl, List.map_id'] at hl'
      refine ⟨.app o l', pushes_plain (isPlain_of_isConnective ho l) hl',
        pushed_connective ho hpushed, ?_⟩
      rw [pushable_connective ho, pushable_connective ho, hpushable]
  | false =>
      refine ⟨.app (dual o) l', pushes_not_connective ho ?_,
        pushed_connective (isConnective_dual ho) hpushed, ?_⟩
      · apply pushes_plain (isPlain_of_isConnective (isConnective_dual ho) _) hl'
      · rw [pushable_connective (isConnective_dual ho), pushable_connective ho, hpushable]

theorem HasResults.order (ho : isOrder o = true) (ha : HasResults a) (hb : HasResults b) :
  HasResults (.app o [a, b])
  := by
  intro sign hsign
  rw [pushable_order ho, Bool.and_eq_true] at hsign
  obtain ⟨p, hp⟩ := ha true hsign.1
  obtain ⟨q, hq⟩ := hb true hsign.2
  have hpushable : ∀ {o' : Op}, isOrder o' = true → pushable (.app o' [p, q]) false
      = pushable (.app o [a, b]) !sign := by
    intro o' ho'
    rw [pushable_order ho', pushable_order ho, hsign.1, hsign.2, hp.pushed.pushable_true,
      hq.pushed.pushable_true]
  have hargs : List.Forall₂ Pushes [a, b] [p, q] := .cons hp.positive (.cons hq.positive .nil)
  cases sign with
  | true =>
      exact ⟨.app o [p, q], pushes_plain (isPlain_of_isOrder ho _) hargs,
        pushed_order ho hp.pushed hq.pushed, hpushable ho⟩
  | false =>
      have ho' := isOrder_dual ho
      exact ⟨.app (dual o) [p, q],
        pushes_not_order ho (pushes_plain (isPlain_of_isOrder ho' _) hargs),
        pushed_order ho' hp.pushed hq.pushed, hpushable ho'⟩

theorem HasResults.eq {t : Srt} (hs : (Expr.eq a b).sort = some t) (ha : HasResults a)
    (hb : HasResults b) :
  HasResults (.eq a b)
  := by
  intro sign hsign
  have hab : pushable a true = true ∧ pushable b true = true := by
    simp only [pushable, Bool.and_eq_true] at hsign
    exact ⟨hsign.1.2, hsign.2⟩
  obtain ⟨p, hp⟩ := ha true hab.1
  obtain ⟨q, hq⟩ := hb true hab.2
  have hargs : List.Forall₂ Pushes [a, b] [p, q] := .cons hp.positive (.cons hq.positive .nil)
  have hsorts := sorts_of_pushes hs hargs
  simp only [List.map_cons, List.map_nil, List.cons.injEq, and_true] at hsorts
  cases sign with
  | true =>
      refine ⟨.eq p q, pushes_plain rfl hargs, ?_, ?_⟩
      · apply pushed_app.mpr ⟨rfl, by simp [hp.pushed, hq.pushed]⟩
      · simp [pushable, hsorts, hab, hp.pushed.pushable_true, hq.pushed.pushable_true]
  | false =>
      simp only [pushable, Bool.false_or, Bool.and_eq_true, decide_eq_true_eq] at hsign
      obtain ⟨⟨⟨hint, hint'⟩, -⟩, -⟩ := hsign
      refine ⟨.or [.lt p q, .gt p q], ?_, pushes_ne hp.pushed hq.pushed, ?_⟩
      · apply pushes_not_eq hint hint'
        apply pushes_plain rfl
        exact .cons (pushes_plain rfl hargs) (.cons (pushes_plain rfl hargs) .nil)
      · simp [pushable, pushableAll, hab, hp.pushed.pushable_true, hq.pushed.pushable_true]

/-- A formula that becomes another one, and whose negation is pushed in after it. -/
theorem HasResults.of_pushes (h : HasResults a)
    (he : ∀ push, pushNot push e = (push e).bind fun q => push (.not q))
    (hpushes : ∀ p, Pushes a p → Pushes e p) (htrue : pushable e true = pushable a true)
    (hfalse : pushable e false = (pushable a true && pushable a false)) :
  HasResults e
  := by
  intro sign hsign
  have ha : pushable a true = true := by
    cases sign with
    | true => rw [← htrue, hsign]
    | false =>
        rw [hfalse, Bool.and_eq_true] at hsign
        apply hsign.1
  obtain ⟨p, hp⟩ := h true ha
  have hresult : Result e true p := by
    refine ⟨hpushes p hp.positive, hp.pushed, ?_⟩
    rw [hp.opposite, Bool.not_true, hfalse, ha, Bool.true_and]
  cases sign with
  | true => exact ⟨p, hresult⟩
  | false => exact hresult.bind he hsign (htrue.trans ha)

theorem HasResults.implies (ha : HasResults a) (hb : HasResults b) :
  HasResults (.implies a b)
  := by
  have hor : HasResults (.or [.not a, b]) := by
    apply HasResults.connective rfl
    simp only [List.forall_mem_cons, List.not_mem_nil, false_implies, implies_true, and_true]
    exact ⟨ha.not, hb⟩
  apply hor.of_pushes (fun _ => rfl) fun _ => pushes_implies
  · simp [pushable, pushableAll]
  · simp only [pushable, pushableAll, Bool.not_true, Bool.not_false, Bool.and_true, Bool.false_or]

theorem HasResults.ite (hbool : (Expr.ite c a b).sort = some .bool) (hc : HasResults c)
    (ha : HasResults a) (hb : HasResults b) :
  HasResults (.ite c a b)
  := by
  have hand : HasResults (.and [.or [.not c, a], .or [c, b]]) := by
    have hor : ∀ {d e : Expr}, HasResults d → HasResults e → HasResults (.or [d, e]) := by
      intro d e hd he
      apply HasResults.connective rfl
      simp only [List.forall_mem_cons, List.not_mem_nil, false_implies, implies_true, and_true]
      exact ⟨hd, he⟩
    apply HasResults.connective rfl
    simp only [List.forall_mem_cons, List.not_mem_nil, false_implies, implies_true, and_true]
    exact ⟨hor hc.not ha, hor hc hb⟩
  apply hand.of_pushes (fun _ => rfl) fun _ => pushes_ite hbool
  · simp only [pushable, if_pos hbool, pushableAll]
    grind
  · simp only [pushable, if_pos hbool, pushableAll]
    grind

theorem HasResults.other {t : Srt} (hs : (Expr.app o args).sort = some t)
    (ho : isOther o args = true) (h : ∀ e ∈ args, HasResults e) :
  HasResults (.app o args)
  := by
  intro sign hsign
  rw [pushable_other ho, Bool.and_eq_true] at hsign
  obtain ⟨rfl, hargs⟩ := hsign
  obtain ⟨args', hpushes, hall⟩ := exists_results h hargs
  have ho' := isOther_congr ho (sorts_of_pushes hs hpushes)
  refine ⟨.app o args', Result.plain (isPlain_of_isOther ho) (isPlain_of_isOther ho') hall ?_⟩
  rw [pushable_other ho', pushable_other ho]
  rfl

theorem hasResults (hs : e.sort = some s) :
  HasResults e
  := by
  induction e generalizing s with
  | num n =>
      intro sign hsign
      cases hsign
      exact ⟨.num n, pushes_num n, trivial, rfl⟩
  | var x =>
      intro sign hsign
      cases hsign
      exact ⟨.var x, pushes_var x, trivial, rfl⟩
  | app o l ih =>
      have hargs : ∀ e ∈ l, HasResults e := by
        intro e he
        obtain ⟨t, ht⟩ := exists_sort_of_app hs he
        apply ih e he ht
      clear ih
      generalize he : Expr.app o l = e at *
      cases shape e with
      | num n => cases he
      | var x => cases he
      | not a => cases he; exact (hargs a (by simp)).not
      | connective ho l => cases he; exact .connective ho hargs
      | order ho a b => cases he; exact .order ho (hargs a (by simp)) (hargs b (by simp))
      | eq a b => cases he; exact .eq hs (hargs a (by simp)) (hargs b (by simp))
      | implies a b => cases he; exact .implies (hargs a (by simp)) (hargs b (by simp))
      | ite c a b hbool =>
          cases he
          exact .ite hbool (hargs c (by simp)) (hargs a (by simp)) (hargs b (by simp))
      | other ho => cases he; exact .other hs ho hargs

theorem preserves_not_connective (ho : isConnective o = true) :
  Preserves (.not (.app o l)) (.app (dual o) (l.map .not))
  := by
  cases o with
  | and => exact Preserves.not_and
  | or => exact Preserves.not_or
  | _ => cases ho

theorem preserves_not_order (ho : isOrder o = true) :
  Preserves (.not (.app o [a, b])) (.app (dual o) [a, b])
  := by
  cases o with
  | ge => exact Preserves.not_ge
  | gt => exact Preserves.not_gt
  | le => exact Preserves.not_le
  | lt => exact Preserves.not_lt
  | _ => cases ho

/-- The recursion ends for the pushable expressions only. -/
theorem pushable_of_pushInNots (hs : e.sort = some s) (h : pushInNots n e = some p) :
  pushable e true = true
  := by
  induction n generalizing e p s with
  | zero => cases h
  | succ n ih =>
      -- the arguments of an application that is kept
      have hplain : ∀ {o : Op} {args : List Expr}, isPlain o args = true →
          (Expr.app o args).sort = some s → pushStep (pushInNots n) (.app o args) = some p →
          ∀ e ∈ args, pushable e true = true := by
        intro o args ho hs h e he
        rw [pushStep_plain ho] at h
        obtain ⟨args', hargs', -⟩ := Option.map_eq_some_iff.mp h
        obtain ⟨q, hq⟩ := exists_of_mapM hargs' he
        obtain ⟨t, ht⟩ := exists_sort_of_app hs he
        apply ih ht hq
      -- a negation that is pushed in after the formula below it
      have hbind : ∀ a, (Expr.not a).sort = some s →
          ((pushInNots n a).bind fun q => pushInNots n (.not q)) = some p →
          pushable (.not a) true = true := by
        intro a hs h
        obtain ⟨q, hq, hp⟩ := Option.bind_eq_some_iff.mp h
        obtain ⟨t, ht⟩ := exists_sort_of_app hs (by simp : a ∈ [a])
        obtain ⟨p', hp'⟩ := hasResults ht true (ih ht hq)
        obtain rfl : q = p' := Pushes.unique ⟨n, hq⟩ hp'.positive
        have hsq := ((hp'.positive.preserves.not) s hs).1
        have hnot := ih hsq hp
        rw [pushable, Bool.not_true, hp'.opposite] at hnot
        rwa [pushable]
      rw [pushInNots] at h
      cases shape e with
      | num n => rfl
      | var x => rfl
      | not a =>
          change pushNot (pushInNots n) a = some p at h
          cases shape a with
          | num n => exact hbind _ hs h
          | var x => exact hbind _ hs h
          | not a =>
              have ha := ih (Preserves.not_not s hs).1 h
              simpa [pushable] using ha
          | connective ho l =>
              rw [pushNot_connective ho] at h
              have hl := ih (preserves_not_connective ho s hs).1 h
              rw [pushable_connective (isConnective_dual ho), List.all_map] at hl
              rw [pushable, pushable_connective ho]
              apply hl
          | order ho a b =>
              rw [pushNot_order ho] at h
              have hab := ih (preserves_not_order ho s hs).1 h
              rw [pushable_order (isOrder_dual ho)] at hab
              rw [pushable, pushable_order ho, hab]
          | eq a b =>
              rw [pushNot] at h
              split at h
              · rename_i hint
                have hab := ih (Preserves.not_eq hint.1 s hs).1 h
                simp only [pushable, pushableAll, Bool.and_true, Bool.and_self] at hab
                simp [pushable, hint, hab]
              · cases h
          | implies a b => exact hbind _ hs h
          | ite c a b _ => exact hbind _ hs h
          | other ho =>
              rw [pushNot_other ho] at h
              apply hbind _ hs h
      | connective ho l =>
          rw [pushable_connective ho, List.all_eq_true]
          apply hplain (isPlain_of_isConnective ho l) hs h
      | order ho a b =>
          have hab := hplain (isPlain_of_isOrder ho _) hs h
          rw [pushable_order ho, hab a (by simp), hab b (by simp), Bool.and_self]
      | eq a b =>
          have hab := hplain (o := .eq) rfl hs h
          rw [pushable, hab a (by simp), hab b (by simp)]
          rfl
      | implies a b =>
          have hor := ih (Preserves.implies s hs).1 h
          simpa [pushable, pushableAll] using hor
      | ite c a b hbool =>
          rw [pushStep, if_pos hbool] at h
          have hand := ih (Preserves.ite (sort_ite.mp hbool).2.1 s hs).1 h
          simp only [pushable, pushableAll, Bool.not_true, Bool.and_true] at hand
          rw [pushable, if_pos hbool]
          grind
      | other ho =>
          rw [pushable_other ho, Bool.true_and, List.all_eq_true]
          apply hplain (isPlain_of_isOther ho) hs h

end Ends

/-! ### The cache -/

/-- What one call does with an expression. -/
inductive Plan where
  /-- It returns the expression. -/
  | keep (e : Expr)
  /-- It pushes in the negations of another one. -/
  | call (e : Expr)
  /-- It pushes them in in a formula, and then in the negation of the result. -/
  | again (inner : Expr)
  /-- It pushes them in in the arguments. -/
  | each (o : Op) (args : List Expr)
  /-- A cast fails. -/
  | fail

/-- The cases of `pushInNots` for the negation of an expression. -/
def planNot : Expr → Plan
  | .not a => .call a
  | .and l => .call (.or (l.map .not))
  | .or l => .call (.and (l.map .not))
  | .ge a b => .call (.lt a b)
  | .gt a b => .call (.le a b)
  | .lt a b => .call (.ge a b)
  | .le a b => .call (.gt a b)
  | .eq a b =>
      if a.sort = some .int ∧ b.sort = some .int then .call (.or [.lt a b, .gt a b]) else .fail
  | inner => .again inner

/-- The cases of `pushInNots`. -/
def plan : Expr → Plan
  | .num k => .keep (.num k)
  | .var x => .keep (.var x)
  | .app o [] => .keep (.app o [])
  | .not inner => planNot inner
  | .implies a b => .call (.or [.not a, b])
  | .ite c a b =>
      if (Expr.ite c a b).sort = some .bool then .call (.and [.or [.not c, a], .or [c, b]])
      else .each .ite [c, a, b]
  | .app o args => .each o args

/-- The results so far. -/
abbrev PushCache := Expr → Option Expr

/-- The calls for the arguments, with the cache handed on from one to the next. -/
def cachedArgs (push : Expr → PushCache → Option (Expr × PushCache)) :
    List Expr → PushCache → Option (List Expr × PushCache)
  | [], cache => some ([], cache)
  | e :: l, cache => do
      let (p, cache) ← push e cache
      let (l', cache) ← cachedArgs push l cache
      return (p :: l', cache)

/-- What a call does that finds no result in the cache. -/
def Plan.cached (push : Expr → PushCache → Option (Expr × PushCache)) :
    Plan → PushCache → Option (Expr × PushCache)
  | keep e, cache => some (e, cache)
  | call e, cache => push e cache
  | again inner, cache => do
      let (innerPushed, cache) ← push inner cache
      push (.not innerPushed) cache
  | each o l, cache => do
      let (args, cache) ← cachedArgs push l cache
      return (.app o args, cache)
  | fail, _ => none

/-- `pushInNots` with its cache, in calls nested at most `n` deep. -/
def pushInNotsCached : ℕ → Expr → PushCache → Option (Expr × PushCache)
  | 0, _, _ => none
  | n + 1, expr, cache =>
      match cache expr with
      | some pushed => some (pushed, cache)
      | none => do
          let (pushed, cache) ← (plan expr).cached (pushInNotsCached n) cache
          return (pushed, Function.update cache expr (some pushed))

/-- What a call does without a cache. -/
def Plan.plain (push : Expr → Option Expr) : Plan → Option Expr
  | keep e => some e
  | call e => push e
  | again inner => (push inner).bind fun innerPushed => push (.not innerPushed)
  | each o l => (l.mapM push).map (.app o)
  | fail => none

section Cache

variable {push : Expr → Option Expr} {o : Op} {a e p : Expr} {l l' args : List Expr} {n : ℕ}
  {pushC : Expr → PushCache → Option (Expr × PushCache)} {cache cache' : PushCache}

theorem plain_planNot (a : Expr) :
  (planNot a).plain push = pushNot push a
  := by
  fun_cases planNot a with
  | case8 a b hint =>
      rw [pushNot, if_pos hint]
      rfl
  | case9 a b hint =>
      rw [pushNot, if_neg hint]
      rfl
  | case10 inner =>
      rw [pushNot]
      · rfl
      all_goals assumption
  | _ => rfl

/-- A call without a cache does what is planned for the expression. -/
theorem plain_plan (e : Expr) :
  (plan e).plain push = pushStep push e
  := by
  fun_cases plan e with
  | case4 a => exact plain_planNot a
  | case6 c a b hbool =>
      rw [pushStep, if_pos hbool]
      rfl
  | case7 c a b hbool =>
      rw [pushStep, if_neg hbool]
      rfl
  | case8 o args =>
      rw [pushStep]
      · rfl
      all_goals assumption
  | _ => rfl

/-- The entries of the cache are results. -/
def SoundCache (cache : PushCache) : Prop := ∀ e p, cache e = some p → Pushes e p

theorem SoundCache.update (h : SoundCache cache) (hp : Pushes e p) :
  SoundCache (Function.update cache e (some p))
  := by
  intro e' p' h'
  by_cases he : e' = e
  · subst he
    rw [Function.update_self] at h'
    obtain rfl := Option.some.inj h'
    apply hp
  · rw [Function.update_of_ne he] at h'
    apply h e' p' h'

/-- What calls with a cache return are results, and so are the entries they leave. -/
def Returns (pushC : Expr → PushCache → Option (Expr × PushCache)) : Prop :=
  ∀ e cache p cache', SoundCache cache → pushC e cache = some (p, cache') →
    Pushes e p ∧ SoundCache cache'

theorem Returns.cachedArgs (h : Returns pushC) (hcache : SoundCache cache)
    (hl : cachedArgs pushC l cache = some (l', cache')) :
  List.Forall₂ Pushes l l' ∧ SoundCache cache'
  := by
  induction l generalizing cache l' with
  | nil =>
      cases hl
      exact ⟨.nil, hcache⟩
  | cons e l ih =>
      obtain ⟨⟨p, c⟩, hp, hl⟩ := Option.bind_eq_some_iff.mp hl
      obtain ⟨⟨l₁, c₁⟩, hl₁, hl⟩ := Option.bind_eq_some_iff.mp hl
      cases hl
      obtain ⟨hpushes, hc⟩ := h e cache p c hcache hp
      obtain ⟨hall, hc₁⟩ := ih hc hl₁
      exact ⟨.cons hpushes hall, hc₁⟩

theorem Returns.cached (h : Returns pushC) (hcache : SoundCache cache) {plan : Plan}
    (hp : plan.cached pushC cache = some (p, cache')) :
  (∃ n, plan.plain (pushInNots n) = some p) ∧ SoundCache cache'
  := by
  cases plan with
  | keep e =>
      cases hp
      exact ⟨⟨0, rfl⟩, hcache⟩
  | call e => exact h e cache p cache' hcache hp
  | again inner =>
      obtain ⟨⟨q, c⟩, hq, hp⟩ := Option.bind_eq_some_iff.mp hp
      obtain ⟨⟨n, hn⟩, hc⟩ := h inner cache q c hcache hq
      obtain ⟨⟨m, hm⟩, hc'⟩ := h _ c p cache' hc hp
      refine ⟨⟨max n m, ?_⟩, hc'⟩
      rw [Plan.plain, pushInNots_mono (le_max_left n m) hn, Option.bind_some,
        pushInNots_mono (le_max_right n m) hm]
  | each o l =>
      obtain ⟨⟨args, c⟩, hargs, hp⟩ := Option.bind_eq_some_iff.mp hp
      cases hp
      obtain ⟨hall, hc⟩ := h.cachedArgs hcache hargs
      obtain ⟨n, hn⟩ := pushes_args hall
      refine ⟨⟨n, ?_⟩, hc⟩
      rw [Plan.plain, hn, Option.map_some]
  | fail => cases hp

theorem returns_pushInNotsCached (n : ℕ) :
  Returns (pushInNotsCached n)
  := by
  induction n with
  | zero => exact fun _ _ _ _ _ => nofun
  | succ n ih =>
      intro e cache p cache' hcache h
      rw [pushInNotsCached] at h
      split at h
      · rename_i q hq
        cases h
        exact ⟨hcache e p hq, hcache⟩
      · obtain ⟨⟨q, c⟩, hq, h⟩ := Option.bind_eq_some_iff.mp h
        cases h
        obtain ⟨⟨m, hm⟩, hc⟩ := ih.cached hcache hq
        rw [plain_plan] at hm
        have hpushes : Pushes e p := ⟨m + 1, hm⟩
        exact ⟨hpushes, hc.update hpushes⟩

/-- Calls with a cache return where calls without one do. -/
def Follows (push : Expr → Option Expr) (pushC : Expr → PushCache → Option (Expr × PushCache)) :
    Prop :=
  ∀ e p cache, push e = some p → SoundCache cache →
    ∃ cache', pushC e cache = some (p, cache') ∧ SoundCache cache'

theorem Follows.cachedArgs (h : Follows push pushC) (hl : l.mapM push = some l')
    (hcache : SoundCache cache) :
  ∃ cache', cachedArgs pushC l cache = some (l', cache') ∧ SoundCache cache'
  := by
  rw [mapM_eq_some_iff] at hl
  induction hl generalizing cache with
  | nil => exact ⟨cache, rfl, hcache⟩
  | cons hp _ ih =>
      obtain ⟨c, hc, hsound⟩ := h _ _ cache hp hcache
      obtain ⟨c', hc', hsound'⟩ := ih hsound
      refine ⟨c', ?_, hsound'⟩
      rw [SSI.cachedArgs, hc, Option.bind_eq_bind, Option.bind_some]
      dsimp only
      rw [hc']
      rfl

theorem Follows.cached (h : Follows push pushC) {plan : Plan} (hp : plan.plain push = some p)
    (hcache : SoundCache cache) :
  ∃ cache', plan.cached pushC cache = some (p, cache') ∧ SoundCache cache'
  := by
  cases plan with
  | keep e =>
      cases hp
      exact ⟨cache, rfl, hcache⟩
  | call e => exact h e p cache hp hcache
  | again inner =>
      obtain ⟨q, hq, hp⟩ := Option.bind_eq_some_iff.mp hp
      obtain ⟨c, hc, hsound⟩ := h inner q cache hq hcache
      obtain ⟨c', hc', hsound'⟩ := h _ p c hp hsound
      refine ⟨c', ?_, hsound'⟩
      rw [Plan.cached, hc, Option.bind_eq_bind, Option.bind_some]
      apply hc'
  | each o l =>
      obtain ⟨args, hargs, rfl⟩ := Option.map_eq_some_iff.mp hp
      obtain ⟨c, hc, hsound⟩ := h.cachedArgs hargs hcache
      refine ⟨c, ?_, hsound⟩
      rw [Plan.cached, hc]
      rfl
  | fail => cases hp

theorem follows_pushInNots (n : ℕ) :
  Follows (pushInNots n) (pushInNotsCached n)
  := by
  induction n with
  | zero => exact fun _ _ _ => nofun
  | succ n ih =>
      intro e p cache hp hcache
      have hpushes : Pushes e p := ⟨n + 1, hp⟩
      rw [pushInNotsCached]
      cases hq : cache e with
      | some q =>
          obtain rfl := hpushes.unique (hcache e q hq)
          exact ⟨cache, rfl, hcache⟩
      | none =>
          rw [pushInNots, ← plain_plan] at hp
          obtain ⟨c, hc, hsound⟩ := ih.cached hp hcache
          refine ⟨Function.update c e (some p), ?_, hsound.update hpushes⟩
          dsimp only
          rw [hc]
          rfl

end Cache

/-! ### Termination -/

/-- No application of a negation in the expression. -/
def NoNot (e : Expr) : Prop := e.every fun o _ => o ≠ .not

/-- Started with an empty cache `pushInNots` ends, with an equivalent formula without negations.
It throws for quantifiers only. -/
def Eliminates (e : Expr) : Prop :=
  ∃ p, (∃ n, ∀ m ≥ n, ∃ cache, pushInNotsCached m e (fun _ => none) = some (p, cache))
    ∧ NoNot p ∧ p.sort = some .bool ∧ ∀ M, p.Holds M ↔ e.Holds M

theorem Pushed.noNot {p : Expr} {s : Srt} (h : Pushed p) (hs : p.sort = some s) :
  NoNot p
  := by
  induction p generalizing s with
  | num n => trivial
  | var x => trivial
  | app o args ih =>
      obtain ⟨ho, hargs⟩ := pushed_app.mp h
      rw [NoNot, every_app]
      constructor
      · rintro rfl
        rw [sort_app, Op.sort] at hs
        split at hs
        · rename_i hl
          have hlen : args.length = 1 := by simpa using congrArg List.length hl
          obtain ⟨a, rfl⟩ := List.length_eq_one_iff.mp hlen
          cases ho
        · cases hs
      · intro e he
        obtain ⟨t, ht⟩ := exists_sort_of_app hs he
        apply ih e he (hargs e he) ht

theorem soundCache_empty :
  SoundCache fun _ => none
  := fun _ _ => nofun

/-- A formula with a result is pushable. -/
theorem Eliminates.pushable {e : Expr} (hs : e.sort = some .bool) (h : Eliminates e) :
  pushable e true = true
  := by
  obtain ⟨p, ⟨n, hn⟩, -⟩ := h
  obtain ⟨cache, hcache⟩ := hn n le_rfl
  obtain ⟨⟨m, hm⟩, -⟩ := returns_pushInNotsCached n e _ p cache soundCache_empty hcache
  apply pushable_of_pushInNots hs hm

/-- The negations are eliminated just in the pushable formulas. -/
theorem eliminates_iff {e : Expr} (hs : e.sort = some .bool) :
  Eliminates e ↔ pushable e true = true
  := by
  constructor
  · apply Eliminates.pushable hs
  · intro h
    obtain ⟨p, hp⟩ := hasResults hs true h
    obtain ⟨n, hn⟩ := hp.positive
    have hpreserves := hp.positive.preserves
    have hsort := (hpreserves _ hs).1
    refine ⟨p, ⟨n, ?_⟩, hp.pushed.noNot hsort, hsort, hpreserves.holds hs⟩
    intro m hm
    obtain ⟨cache, hcache, -⟩ := follows_pushInNots m e p _ (pushInNots_mono hm hn) soundCache_empty
    exact ⟨cache, hcache⟩

/-- A formula with negations, an implication and a conditional. -/
def guardedBetween : Expr :=
  let x : Expr := .var ⟨"x", .int⟩
  .and [.not (.implies (.ge x (.num 0)) (.lt x (.num 10))),
    .ite (.eq x (.num 5)) (.var ⟨"p", .bool⟩) (.not (.le x (.num 7)))]

theorem eliminates_iff_guardedBetween :
  Eliminates guardedBetween ↔ pushable guardedBetween true = true
  := eliminates_iff (by decide)

/-- The negation of a variable. -/
theorem not_eliminates_not_var :
  ¬Eliminates (.not (.var ⟨"p", .bool⟩))
  := by
  intro h
  have hpushable := h.pushable (by decide)
  apply absurd hpushable (by decide)

end Sygus.SSI
