import DryadSynth.SSI.Soundness

/-!
# Single invocation with a commutative function

The arguments of all calls are brought into the order of the first one.  A definition is found
for the case that the first argument is at least as great as the second one, and the other case
uses it with the arguments exchanged.
-/

namespace Sygus.SSI

open LIA Boundary Reduce

/-! ### When to run -/

/-- The number of arguments in the declaration of an operator. -/
def domainLength : Op → ℕ
  | .func f => f.domain.length
  | .ite => 3
  | .not => 1
  | .tru | .fls => 0
  | _ => 2

/-- The equation says that an operator commutes. -/
def isCommConstr : Expr → Bool
  | .eq (.app o (arg1 :: arg2 :: _)) (.app o' (arg1' :: arg2' :: _)) =>
      o = o' ∧ domainLength o = 2 ∧ arg1 = arg2' ∧ arg2 = arg1'
  | _ => false

def Problem.checkSSIComm (P : Problem) : Bool :=
  P.constraints.any isCommConstr ∧
    (isSSI P.rdcdRequests (.and (P.constraints.filter fun e => !isCommConstr e)) ⟨[], []⟩).1

/-! ### The method -/

section Exchange

variable (f : FuncDecl)

/-- Bring the arguments of a call into the order of the first one. -/
def exchangeCall (args : List Expr) (commuCache : Option (Expr × Expr)) :
    Option (Expr × Option (Expr × Expr)) :=
  match args, commuCache with
  | [a, b], none => some (.func f [a, b], some (a, b))
  | [a, b], some (x, y) =>
      if x = a ∧ y = b then some (.func f [a, b], some (x, y))
      else if y = a ∧ x = b then some (.func f [b, a], some (x, y))
      else none
  | _, _ => none

mutual

/-- Bring the arguments of all calls into the order of the first one. -/
def exchangeCommu : Expr → Option (Expr × Expr) → Option (Expr × Option (Expr × Expr))
  | .num n, commuCache => some (.num n, commuCache)
  | .var x, commuCache => some (.var x, commuCache)
  | .app o args, commuCache =>
      if o = .func f then exchangeCall f args commuCache
      else do
        let (args', commuCache) ← exchangeCommuAll args commuCache
        return (.app o args', commuCache)

def exchangeCommuAll :
    List Expr → Option (Expr × Expr) → Option (List Expr × Option (Expr × Expr))
  | [], commuCache => some ([], commuCache)
  | e :: l, commuCache => do
      let (e', commuCache) ← exchangeCommu e commuCache
      let (l', commuCache) ← exchangeCommuAll l commuCache
      return (e' :: l', commuCache)

end

end Exchange

/-- A constant that occurs in none of the expressions. -/
def mkFreshConst (l : List Expr) : Var :=
  ⟨"temp!" ++ ((l.flatMap Expr.vars).map Var.name).foldr (· ++ ·) "", .int⟩

section Run

variable (S : Simplifier) (P : Problem)

/-- The definition for both orders of the arguments. -/
def symmetrize (x y temp onesideDef : Expr) : Expr :=
  .ite (.ge x y) onesideDef
    (((onesideDef.substitute [x] [temp]).substitute [y] [x]).substitute [temp] [y])

/-- The result, if there is one function with two integer arguments. -/
def runCommu (n : ℕ) : Option (FuncDecl × Definition) :=
  match P.requests with
  | [r] => do
      let (constrt, commuCache) ← exchangeCommu r.rdcdFunc P.finalConstraint none
      let (x, y) ← commuCache
      if x.sort = some .int ∧ y.sort = some .int then
        let sideConstrt := .implies (.ge x y) (S.simplify constrt)
        let pushedConstr ← pushInNots n sideConstrt
        let (onesideDef, _) ← getDef S P r [] pushedConstr
        let partConstr ← reduceConstr S P r.func.name [] pushedConstr
        let temp := mkFreshConst [x, y, partConstr, onesideDef]
        let def' := symmetrize x y (.var temp) onesideDef
        return (r.rdcdFunc, ⟨r.requestUsedArgs,
          def'.substitute [x, y] (r.requestUsedArgs.map .var)⟩)
      else none
  | _ => none

end Run

/-- The result makes the constraint valid, if the problem is accepted and has a solution. -/
def Problem.SSICommuSound (P : Problem) (S : Simplifier) : Prop :=
  P.checkSSIComm = true → ∀ n result, runCommu S P n = some result → (∃ F, P.Solves F) →
    (rewriteResults [result] P.finalConstraint).Valid

/-! ### The order of the arguments -/

section Orient

variable {f : FuncDecl} {x y : Var} {e : Expr} {l : List Expr} {M : Model}

/-- All calls are calls of `f` with the two variables, in one of the orders. -/
def CallsOf (f : FuncDecl) (x y : Var) (e : Expr) : Prop :=
  ∀ c ∈ e.calls, c = (f, [.var x, .var y]) ∨ c = (f, [.var y, .var x])

/-- The expression with the arguments of all calls in one order. -/
def orient (f : FuncDecl) (x y : Var) (e : Expr) : Expr :=
  e.substitute [.func f [.var y, .var x]] [.func f [.var x, .var y]]

/-- The first call in a list has the variables in this order. -/
def First (f : FuncDecl) (x y : Var) (calls : List (FuncDecl × List Expr)) : Prop :=
  ∀ c ∈ calls.head?, c = (f, [.var x, .var y])

/-- The cached arguments after some calls. -/
def cacheAfter (x y : Var) (calls : List (FuncDecl × List Expr))
    (commuCache : Option (Expr × Expr)) : Option (Expr × Expr) :=
  if calls = [] then commuCache else some (.var x, .var y)

theorem cacheAfter_append (calls calls' : List (FuncDecl × List Expr))
    (c : Option (Expr × Expr)) :
  cacheAfter x y (calls ++ calls') c = cacheAfter x y calls' (cacheAfter x y calls c)
  := by
  simp only [cacheAfter, List.append_eq_nil_iff]
  split
  · next h => rw [if_pos h.2, if_pos h.1]
  · next h =>
      split
      · next h' => rw [if_neg fun h'' => h ⟨h'', h'⟩]
      · rfl

theorem calls_app_of_ne {o : Op} (ho : ∀ g, o ≠ .func g) (l : List Expr) :
  (Expr.app o l).calls = Expr.callsAll l
  := by
  cases o with
  | func g => exact absurd rfl (ho g)
  | _ => rfl

/-- How the arguments of a call are exchanged. -/
theorem exchangeCall_eq (hxy : x ≠ y) {args : List Expr} {c : Option (Expr × Expr)}
    (hargs : args = [.var x, .var y] ∨ args = [.var y, .var x])
    (hc : c = some (.var x, .var y) ∨ c = none ∧ args = [.var x, .var y]) :
  exchangeCall f args c = some (.func f [.var x, .var y], some (.var x, .var y))
  := by
  rcases hc with rfl | ⟨rfl, rfl⟩
  · rcases hargs with rfl | rfl
    · simp [exchangeCall]
    · simp [exchangeCall, hxy]
  · rfl

theorem orient_call {args : List Expr}
    (hargs : args = [.var x, .var y] ∨ args = [.var y, .var x]) :
  orient f x y (.func f args) = .func f [.var x, .var y]
  := by
  rw [orient, Expr.substitute]
  simp only [lookup_singleton]
  rw [replace_app]
  rcases hargs with rfl | rfl
  · split
    · rfl
    · simp [Expr.replace]
  · rw [if_pos rfl, Option.getD_some]

theorem orient_app {o : Op} (ho : ∀ g, o ≠ .func g) (l : List Expr) :
  orient f x y (.app o l) = .app o (l.map (orient f x y))
  := by
  rw [orient, Expr.substitute]
  simp only [lookup_singleton]
  rw [replace_app, if_neg, Option.getD_none]
  · congr 1
    apply List.map_congr_left
    intro e _
    rw [orient, Expr.substitute]
    simp only [lookup_singleton]
  · intro h
    apply ho f (Expr.app.inj h).1

/-- What the exchange does, once the first call has its arguments in this order. -/
theorem exchangeCommu_eq (hxy : x ≠ y) {c : Option (Expr × Expr)} (hcalls : CallsOf f x y e)
    (hc : c = some (.var x, .var y) ∨ c = none ∧ First f x y e.calls) :
  exchangeCommu f e c = some (orient f x y e, cacheAfter x y e.calls c)
  := by
  induction e generalizing c with
  | num n => rfl
  | var z =>
      rw [orient, Expr.substitute]
      simp only [lookup_singleton]
      rfl
  | app o args ih =>
      by_cases hfunc : ∃ g, o = .func g
      · obtain ⟨g, rfl⟩ := hfunc
        have hcall := hcalls (g, args) (mem_calls_app.mpr (Or.inl ⟨g, rfl, rfl⟩))
        simp only [Prod.mk.injEq, ← and_or_left] at hcall
        obtain ⟨rfl, hargs⟩ := hcall
        have hne : (Expr.func g args).calls ≠ [] := List.cons_ne_nil _ _
        rw [exchangeCommu, if_pos rfl, orient_call hargs, cacheAfter, if_neg hne]
        apply exchangeCall_eq hxy hargs
        exact hc.imp_right fun h => ⟨h.1, (Prod.mk.inj (h.2 _ rfl)).2⟩
      · push Not at hfunc
        rw [exchangeCommu, if_neg (hfunc f), orient_app hfunc, calls_app_of_ne hfunc]
        rw [calls_app_of_ne hfunc] at hc
        have hlist : ∀ e ∈ args, CallsOf f x y e := fun e he c hc =>
          hcalls c (mem_calls_app.mpr (Or.inr ⟨e, he, hc⟩))
        have hall : exchangeCommuAll f args c
            = some (args.map (orient f x y), cacheAfter x y (Expr.callsAll args) c) := by
          clear hcalls
          induction args generalizing c with
          | nil => rfl
          | cons e l ihl =>
              have hhead : c = some (.var x, .var y) ∨ c = none ∧ First f x y e.calls := by
                refine hc.imp_right fun h => ⟨h.1, fun d hd => h.2 d ?_⟩
                rw [Expr.callsAll, List.head?_append, hd]
                rfl
              have htail : cacheAfter x y e.calls c = some (.var x, .var y) ∨
                  cacheAfter x y e.calls c = none ∧ First f x y (Expr.callsAll l) := by
                rw [cacheAfter]
                split
                · next hnil =>
                    rw [Expr.callsAll, hnil, List.nil_append] at hc
                    apply hc
                · apply Or.inl rfl
              rw [exchangeCommuAll, ih e List.mem_cons_self (hlist e List.mem_cons_self) hhead]
              have hrest := ihl (fun e he => ih e (List.mem_cons_of_mem _ he)) htail
                (fun e he => hlist e (List.mem_cons_of_mem _ he))
              rw [Expr.callsAll, cacheAfter_append, Option.bind_eq_bind, Option.bind_some]
              simp only [hrest]
              rfl
        rw [hall]
        rfl

/-- The order does not matter where the function commutes. -/
theorem eval_orient
    (h : (Expr.func f [.var x, .var y]).eval M = (Expr.func f [.var y, .var x]).eval M) :
  (orient f x y e).eval M = e.eval M
  := by
  rw [orient, Expr.substitute]
  simp only [lookup_singleton]
  apply eval_replace
  · intro t t' ht
    split at ht
    · next heq =>
        rw [heq, ← Option.some.inj ht]
        apply h
    · cases ht
  · intro z _
    rfl
  · rfl

theorem sort_orient (hsort : x.sort = y.sort) {s : Srt} (hs : e.sort = some s) :
  (orient f x y e).sort = some s
  := by
  rw [orient, Expr.substitute]
  simp only [lookup_singleton]
  apply sort_replace _ hs
  intro t t' s ht hs
  split at ht
  · next heq =>
      rw [heq, sort_func] at hs
      rw [← Option.some.inj ht, sort_func, hs.1, ← hs.2]
      simp [hsort]
  · cases ht

/-- All calls get their arguments in the same order. -/
theorem calls_orient (hcalls : CallsOf f x y e) :
  ∀ c ∈ (orient f x y e).calls, c = (f, [.var x, .var y])
  := by
  induction e with
  | num n =>
      intro c hc
      cases hc
  | var z =>
      rw [orient, Expr.substitute]
      simp only [lookup_singleton]
      intro c hc
      cases hc
  | app o args ih =>
      by_cases hfunc : ∃ g, o = .func g
      · obtain ⟨g, rfl⟩ := hfunc
        have hcall := hcalls (g, args) (mem_calls_app.mpr (Or.inl ⟨g, rfl, rfl⟩))
        simp only [Prod.mk.injEq, ← and_or_left] at hcall
        obtain ⟨rfl, hargs⟩ := hcall
        rw [orient_call hargs]
        intro c hc
        simpa [Expr.calls, Expr.callsAll] using hc
      · push Not at hfunc
        rw [orient_app hfunc]
        intro c hc
        rcases mem_calls_app.mp hc with ⟨g, hg, -⟩ | ⟨e', he', hc⟩
        · apply absurd hg (hfunc g)
        · obtain ⟨e, he, rfl⟩ := List.mem_map.mp he'
          exact ih e he (fun c hc => hcalls c (mem_calls_app.mpr (Or.inr ⟨e, he, hc⟩))) c hc

theorem CallsOf.arg {o : Op} (h : CallsOf f x y (.app o l)) (he : e ∈ l) :
  CallsOf f x y e
  := fun c hc => h c (mem_calls_app.mpr (.inr ⟨e, he, hc⟩))

theorem orient_num (n : ℤ) :
  orient f x y (.num n) = .num n
  := by
  rw [orient, Expr.substitute]
  simp only [lookup_singleton]
  rfl

theorem orient_var (z : Var) :
  orient f x y (.var z) = .var z
  := by
  rw [orient, Expr.substitute]
  simp only [lookup_singleton]
  rfl

/-- Without calls there is nothing to bring into order. -/
theorem orient_eq_self (h : e.calls = []) :
  orient f x y e = e
  := by
  induction e with
  | num n => exact orient_num n
  | var z => exact orient_var z
  | app o l ih =>
      have ho : ∀ g, o ≠ .func g := by
        rintro g rfl
        cases h
      rw [orient_app ho]
      rw [calls_app_eq_nil ho] at h
      congr 1
      rw [List.map_congr_left (g := id), List.map_id]
      exact fun e he => ih e he (h e he)

/-- What mentions variables outside the calls does so afterwards. -/
theorem outerVars_orient (hcalls : CallsOf f x y e) {z : Var}
    (hz : z ∈ outerVars f (orient f x y e)) :
  z ∈ outerVars f e
  := by
  induction e with
  | num n => rwa [orient_num] at hz
  | var z' => rwa [orient_var] at hz
  | app o l ih =>
      by_cases hfunc : ∃ g, o = .func g
      · obtain ⟨g, rfl⟩ := hfunc
        have hcall := hcalls (g, l) (mem_calls_app.mpr (.inl ⟨g, rfl, rfl⟩))
        simp only [Prod.mk.injEq, ← and_or_left] at hcall
        obtain ⟨rfl, hargs⟩ := hcall
        rw [orient_call hargs] at hz
        exact absurd rfl (mem_outerVars_app.mp hz).1
      · push Not at hfunc
        rw [orient_app hfunc] at hz
        obtain ⟨ho, e', he', hz⟩ := mem_outerVars_app.mp hz
        obtain ⟨e, he, rfl⟩ := List.mem_map.mp he'
        exact mem_outerVars_app.mpr ⟨ho, e, he, ih e he (hcalls.arg he) hz⟩

theorem linear_orient (hcalls : CallsOf f x y e) (h : LinearIn f e) :
  LinearIn f (orient f x y e)
  := by
  have hmap : ∀ {l : List Expr}, (∀ e ∈ l, CallsOf f x y e → LinearIn f (orient f x y e)) →
      (∀ e ∈ l, CallsOf f x y e) → ∀ e ∈ l.map (orient f x y), LinearIn f e := by
    intro l ih hl e' he'
    obtain ⟨e, he, rfl⟩ := List.mem_map.mp he'
    exact ih e he (hl e he)
  have hadd : ∀ g, Op.add ≠ .func g := nofun
  have hsub : ∀ g, Op.sub ≠ .func g := nofun
  have hmul : ∀ g, Op.mul ≠ .func g := nofun
  induction h with
  | @free e hfree =>
      have hnil : e.calls = [] := by
        rw [List.eq_nil_iff_forall_not_mem]
        intro c hc
        rcases hcalls c hc with rfl | rfl
        · exact hfree _ hc rfl
        · exact hfree _ hc rfl
      rw [orient_eq_self hnil]
      exact .free hfree
  | call args =>
      have hcall := hcalls (f, args) (mem_calls_app.mpr (.inl ⟨f, rfl, rfl⟩))
      rw [orient_call (by simpa using hcall)]
      exact .call _
  | add _ ih =>
      rw [orient_app hadd]
      exact .add (hmap ih fun e he => hcalls.arg he)
  | sub _ ih =>
      rw [orient_app hsub]
      exact .sub (hmap ih fun e he => hcalls.arg he)
  | mul n _ ih =>
      rw [orient_app hmul, List.map_cons, orient_num]
      exact .mul n (ih (hcalls.arg (by simp)))
  | mulNum n _ ih =>
      rw [orient_app hmul, List.map_cons, List.map_cons, orient_num]
      exact .mulNum n (ih (hcalls.arg (by simp)))

/-- The literals with the arguments of all calls in one order. -/
theorem literals_orient (hsort : x.sort = y.sort) {s : Srt} (hs : e.sort = some s)
    (hcalls : CallsOf f x y e) (sign : Bool) :
  literals (orient f x y e) sign = (literals e sign).map (orient f x y)
  := by
  have hnot : ∀ g, Op.not ≠ .func g := by simp
  have hsigned : ∀ e sign, orient f x y (signed sign e) = signed sign (orient f x y e) := by
    intro e sign
    cases sign with
    | true => rfl
    | false => exact orient_app hnot [e]
  induction e generalizing s sign with
  | num n =>
      rw [orient_num, literals, List.map_singleton, hsigned, orient_num]
  | var z =>
      rw [orient_var, literals, List.map_singleton, hsigned, orient_var]
  | app o l ih =>
      have harg : ∀ e ∈ l, ∀ sign, literals (orient f x y e) sign
          = (literals e sign).map (orient f x y) := by
        intro e he sign
        obtain ⟨t, ht⟩ := exists_sort_of_app hs he
        exact ih e he ht (hcalls.arg he) sign
      clear ih
      generalize he : Expr.app o l = e at hs hcalls
      cases shape e with
      | num n => cases he
      | var z => cases he
      | not a =>
          cases he
          rw [orient_app hnot]
          exact harg a (by simp) _
      | connective hc l =>
          cases he
          rw [orient_app (ne_func (.inl hc)), literals_connective hc, literals_connective hc,
            List.flatMap_map, List.map_flatMap]
          apply List.flatMap_congr
          exact fun e he => harg e he sign
      | order hc a b =>
          cases he
          have ho' : ∀ g, (if sign then o else dual o) ≠ .func g := by
            split
            · exact ne_func (.inr hc)
            · exact dual_ne_func (.inr hc)
          rw [orient_app (ne_func (.inr hc)), literals_order hc, List.map_singleton,
            orient_app ho']
          exact literals_order hc
      | eq a b =>
          cases he
          have heq : ∀ g, Op.eq ≠ .func g := by simp
          have hlt : ∀ g, Op.lt ≠ .func g := by simp
          have hgt : ∀ g, Op.gt ≠ .func g := by simp
          rw [orient_app heq]
          cases sign with
          | true =>
              change [_] = [_]
              rw [orient_app heq]
              rfl
          | false =>
              change [_, _] = [_, _]
              rw [orient_app hlt, orient_app hgt]
              rfl
      | implies a b =>
          cases he
          have himplies : ∀ g, Op.implies ≠ .func g := by simp
          rw [orient_app himplies]
          change literals _ _ ++ literals _ _ = _
          rw [harg a (by simp), harg b (by simp), literals, List.map_append]
      | ite c a b hbool =>
          cases he
          have hite : ∀ g, Op.ite ≠ .func g := by simp
          have hbool' : (Expr.ite (orient f x y c) (orient f x y a) (orient f x y b)).sort
              = some .bool := by
            have h := sort_orient (f := f) (y := y) hsort hbool
            rw [orient_app hite] at h
            exact h
          rw [orient_app hite]
          change literals (.ite (orient f x y c) (orient f x y a) (orient f x y b)) _ = _
          rw [literals, if_pos hbool', literals, if_pos hbool]
          simp only [harg c (by simp), harg a (by simp), harg b (by simp), List.map_append]
      | @other o l hother =>
          cases he
          rw [literals_other hother, List.map_singleton, hsigned]
          by_cases hfunc : ∃ g, o = .func g
          · obtain ⟨g, rfl⟩ := hfunc
            have hcall := hcalls (g, l) (mem_calls_app.mpr (.inl ⟨g, rfl, rfl⟩))
            simp only [Prod.mk.injEq, ← and_or_left] at hcall
            obtain ⟨rfl, hargs⟩ := hcall
            rw [orient_call hargs]
            exact literals_other rfl
          · push Not at hfunc
            rw [orient_app hfunc]
            apply literals_other (isOther_congr hother _)
            rw [List.map_map]
            apply List.map_congr_left
            intro e he
            obtain ⟨t, ht⟩ := exists_sort_of_app hs he
            rw [Function.comp_apply, sort_orient hsort ht, ht]

end Orient

/-! ### The definition for both orders -/

/-- The model with the values of two variables exchanged. -/
def swap (M : Model) (x y : Var) : Model := M.bind [x, y] [M.value y, M.value x]

section Symmetrize

variable {M M' R : Model} {x y temp : Var} {body : Expr} {X : List Var}

theorem value_bind_singleton {v : Value} (hv : v.sort = x.sort) :
  (M.bind [x] [v]).value x = v
  := by
  have hfits : Fits [x] [v] := by simp [Fits, hv]
  have h := values_bind (M := M) (List.nodup_singleton x) hfits
  simpa [Model.values] using h

theorem sort_value (M : Model) (x : Var) :
  (M.value x).sort = x.sort
  := Value.sort_cast _ _

theorem values_bind_pair {u w : Value} (hxy : x ≠ y) (hu : u.sort = x.sort)
    (hw : w.sort = y.sort) :
  (M.bind [x, y] [u, w]).value x = u ∧ (M.bind [x, y] [u, w]).value y = w
  := by
  have hfits : Fits [x, y] [u, w] := by simp [Fits, hu, hw]
  have h := values_bind (M := M) (by simp [hxy]) hfits
  simpa [Model.values] using h

theorem value_bind_pair_of_ne {u w : Value} {z : Var} (hx : z ≠ x) (hy : z ≠ y) :
  (M.bind [x, y] [u, w]).value z = M.value z
  := value_bind_of_not_mem (by simp [hx, hy])

theorem value_swap_of_ne {z : Var} (hx : z ≠ x) (hy : z ≠ y) :
  (swap M x y).value z = M.value z
  := value_bind_pair_of_ne hx hy

theorem swap_values (hxy : x ≠ y) (hsort : x.sort = y.sort) :
  (swap M x y).value x = M.value y ∧ (swap M x y).value y = M.value x
  := values_bind_pair hxy ((sort_value M y).trans hsort.symm) ((sort_value M x).trans hsort)

/-- Exchanging the values twice. -/
theorem swap_swap (hxy : x ≠ y) (hsort : x.sort = y.sort) (z : Var) :
  (swap (swap M x y) x y).value z = M.value z
  := by
  have h := swap_values (M := M) hxy hsort
  have h' := swap_values (M := swap M x y) hxy hsort
  by_cases hx : z = x
  · rw [hx, h'.1, h.2]
  · by_cases hy : z = y
    · rw [hy, h'.2, h.1]
    · rw [value_swap_of_ne hx hy, value_swap_of_ne hx hy]

/-- Nothing changes where both variables have the same value. -/
theorem value_swap_of_eq (hxy : x ≠ y) (hsort : x.sort = y.sort) (h : M.value x = M.value y)
    (z : Var) :
  (swap M x y).value z = M.value z
  := by
  have hswap := swap_values (M := M) hxy hsort
  by_cases hx : z = x
  · rw [hx, hswap.1, h]
  · by_cases hy : z = y
    · rw [hy, hswap.2, h]
    · apply value_swap_of_ne hx hy

/-- The model in which the first variable is the greater one. -/
def ordered (M : Model) (x y : Var) : Model :=
  if (M.value y).toInt ≤ (M.value x).toInt then M else swap M x y

/-- Substituting for one variable. -/
theorem eval_substitute_var {t : Expr} (ht : t.sort = some x.sort) (e : Expr) :
  (e.substitute [.var x] [t]).eval M = e.eval (M.bind [x] [t.eval M])
  := by
  have hsort : [t].map Expr.sort = [x].map fun x => some x.sort := by simp [ht]
  apply eval_substitute hsort e

/-- The definition for both orders has the value of the definition for one of them. -/
theorem intVal_symmetrize (hxy : x ≠ y) (hx : x.sort = .int) (hy : y.sort = .int)
    (htemp : temp.sort = .int) (hxtemp : temp ≠ x) (hytemp : temp ≠ y) (hfresh : temp ∉ X)
    (hdepends : ∀ M M' : Model, (∀ z ∈ X, M.value z = M'.value z) →
      body.intVal M = body.intVal M') :
  (symmetrize (.var x) (.var y) (.var temp) body).intVal M = body.intVal (ordered M x y)
  := by
  have hcond : (Expr.ge (.var x) (.var y)).Holds M ↔ (M.value y).toInt ≤ (M.value x).toInt :=
    holds_ge _ _
  rw [symmetrize, intVal_ite, ordered]
  by_cases hge : (M.value y).toInt ≤ (M.value x).toInt
  · rw [if_pos (hcond.mpr hge), if_pos hge]
  · rw [if_neg fun h => hge (hcond.mp h), if_neg hge, Expr.intVal]
    rw [eval_substitute_var (by rw [sort_var, hy, htemp]),
      eval_substitute_var (by rw [sort_var, hx, hy]),
      eval_substitute_var (by rw [sort_var, hx, htemp])]
    apply hdepends
    intro z hz
    have hztemp : z ≠ temp := fun h => hfresh (h ▸ hz)
    have hswap := swap_values (M := M) hxy (hx.trans hy.symm)
    simp only [eval_var]
    change ((((M.bind [temp] [M.value y]).bind [y] [_]).bind [x] [_]).value z) = _
    by_cases hzx : z = x
    · rw [hzx, value_bind_singleton, hswap.1]
      · change ((M.bind [temp] [M.value y]).bind [y] [_]).value temp = _
        rw [value_bind_of_not_mem (by simpa using hytemp), value_bind_singleton]
        rw [sort_value, hy, htemp]
      · change (((M.bind [temp] [M.value y]).bind [y] [_]).value temp).sort = _
        rw [sort_value, hx, htemp]
    · rw [value_bind_of_not_mem (by simpa using hzx)]
      by_cases hzy : z = y
      · rw [hzy, value_bind_singleton, hswap.2]
        · change (M.bind [temp] [M.value y]).value x = _
          rw [value_bind_of_not_mem (by simpa using hxtemp.symm)]
        · change ((M.bind [temp] [M.value y]).value x).sort = _
          rw [sort_value, hx, hy]
      · rw [value_bind_of_not_mem (by simpa using hzy),
          value_bind_of_not_mem (by simpa using hztemp), value_swap_of_ne hzx hzy]

theorem length_foldr_append (l : List String) {s : String} (hs : s ∈ l) :
  s.length ≤ (l.foldr (· ++ ·) "").length
  := by
  induction l with
  | nil => cases hs
  | cons t l ih =>
      rw [List.foldr_cons, String.length_append]
      rcases List.mem_cons.mp hs with rfl | hs
      · apply Nat.le_add_right _ _
      · apply (ih hs).trans (Nat.le_add_left _ _)

/-- A fresh constant is new. -/
theorem mkFreshConst_not_mem {l : List Expr} {e : Expr} (he : e ∈ l) :
  mkFreshConst l ∉ e.vars
  := by
  intro h
  have hmem : (mkFreshConst l).name ∈ (l.flatMap Expr.vars).map Var.name :=
    List.mem_map_of_mem (List.mem_flatMap.mpr ⟨e, he, h⟩)
  have hlength := length_foldr_append _ hmem
  rw [mkFreshConst, String.length_append] at hlength
  have htemp : "temp!".length = 5 := rfl
  omega

end Symmetrize

/-! ### Soundness -/

/-- A single function is the current one everywhere. -/
theorem hasNonCurrent_self (name : String) (e : Expr) :
  hasNonCurrent [name] name e = false
  := by
  induction e with
  | num n => rfl
  | var x => simp [hasNonCurrent]
  | app o args ih =>
      have hany : anyNonCurrent [name] name args = false := by
        rw [anyNonCurrent_eq, List.any_eq_false]
        intro e he
        rw [ih e he]
        apply Bool.false_ne_true
      cases o with
      | func f => simp [hasNonCurrent, hany]
      | _ => exact hany

/-- With one function, nothing is lost from the constraint. -/
theorem killNonCurrent_self {name : String} {e k : Expr}
    (h : killNonCurrent [name] name e = some k) :
  k = e
  := by
  induction e generalizing k with
  | num n => cases h
  | var x => cases h
  | app o args ih =>
      rcases killNonCurrent_app h with ⟨l', -, hl', rfl⟩ | ⟨-, rfl⟩
      · congr 1
        apply eq_of_forall₂ hl'
        intro e he k hk
        apply ih e he hk
      · rw [hasNonCurrent_self]
        rfl

/-- Simplifying a formula leaves its comparisons linear and not strict. -/
def Simplifier.KeepsLinear (S : Simplifier) (f : FuncDecl) (args : List Expr) : Prop :=
  ∀ e : Expr, e.sort = some .bool → (∀ c ∈ e.calls, c = (f, args)) →
    (∀ q ∈ literals e true, q.calls = [] ∨ IsLinear f q) →
      (∀ c ∈ (S.simplify e).calls, c = (f, args.map S.simplify)) ∧
        ∀ q ∈ literals (S.simplify e) true, q.calls = [] ∨ IsLinear f q

/-- The problem fits the method: there is one integer function of two integers, called with two
different variables in both orders.  It occurs linearly in comparisons that are not strict, and no
other variable of the constraint is a formal argument.  Where the first variable is not the smaller
one and the constraint holds, it does with the same value for both orders, and what it requires of a
value there it also requires where the variables are exchanged. -/
structure Commutes (P : Problem) (r : Request) (x y : Var) : Prop where
  requests : P.requests = [r]
  range : r.func.range = .int
  sorts : r.requestUsedArgs.map Var.sort = [.int, .int]
  ne : x ≠ y
  sort_fst : x.sort = .int
  sort_snd : y.sort = .int
  calls : CallsOf r.rdcdFunc x y P.finalConstraint
  first : First r.rdcdFunc x y P.finalConstraint.calls
  linear : ∀ q ∈ literals P.finalConstraint true, q.calls = [] ∨ IsLinear r.rdcdFunc q
  capture : ∀ z ∈ r.requestUsedArgs, z ∈ P.finalConstraint.vars → z = x ∨ z = y
  solvable (M : Model) : (M.value y).toInt ≤ (M.value x).toInt → P.finalConstraint.Holds M →
    ∃ v, P.finalConstraint.Holds (M.const fun _ => v)
  symmetric (M : Model) (v : ℤ) : (M.value y).toInt < (M.value x).toInt →
    P.finalConstraint.Holds (M.const fun _ => v) →
      P.finalConstraint.Holds ((swap M x y).const fun _ => v)

section Sound

variable {S : Simplifier} {P : Problem} {r : Request} {x y : Var} {M R : Model} {u w : Value}
variable {temp : Var} {body partConstr : Expr} {cache : List Expr} {n : ℕ} {e : Expr}

/-- The reported definition, before the formal arguments replace the variables. -/
def commuDefinition (r : Request) (x y temp : Var) (body : Expr) : Definition :=
  ⟨r.requestUsedArgs, (symmetrize (.var x) (.var y) (.var temp) body).substitute
    [.var x, .var y] (r.requestUsedArgs.map .var)⟩

section

variable (hP : P.WellFormed) (h : Commutes P r x y)
include hP h

/-- The value of the reported definition. -/
theorem Commutes.eval_commuDefinition {formals : List Expr}
    (hget : GetsDef [.var x, .var y] formals partConstr body cache)
    (hcapture : ∀ z ∈ r.requestUsedArgs, z ∈ partConstr.vars → z = x ∨ z = y)
    (htemp : temp.sort = .int) (hx : temp ≠ x) (hy : temp ≠ y) (hfresh : temp ∉ partConstr.vars)
    (hu : u.sort = .int) (hw : w.sort = .int) (hRx : R.value x = u) (hRy : R.value y = w)
    (hR : ∀ z, z ≠ x → z ≠ y → R.value z = M.value z) :
  ((commuDefinition r x y temp body).eval M [u, w]).toInt = body.intVal (ordered R x y)
  := by
  have hfits : Fits r.requestUsedArgs [u, w] := by
    rw [Fits, h.sorts]
    simp [hu, hw]
  have hr : r ∈ P.requests := by simp [h.requests]
  let N := M.bind r.requestUsedArgs [u, w]
  have hN : (r.requestUsedArgs.map Expr.var).map (Expr.eval N) = [u, w] := by
    rw [eval_map_var]
    apply values_bind (hP.nodup r hr) hfits
  have hsorts : (r.requestUsedArgs.map Expr.var).map Expr.sort
      = [x, y].map fun z => some z.sort := by
    have hmap := congrArg (List.map some) h.sorts
    rw [List.map_map] at hmap
    rw [List.map_map]
    apply hmap.trans (by simp [h.sort_fst, h.sort_snd])
  rw [Definition.eval, commuDefinition]
  change (Expr.eval N (Expr.substitute ([x, y].map .var) _ _)).toInt = _
  rw [eval_substitute hsorts, hN]
  change Expr.intVal _ _ = _
  rw [intVal_symmetrize h.ne h.sort_fst h.sort_snd htemp hx hy hfresh hget.depends]
  have hbind := values_bind_pair (M := N) h.ne (hu.trans h.sort_fst.symm) (hw.trans h.sort_snd.symm)
  have hvalues : ∀ z ∈ partConstr.vars, (N.bind [x, y] [u, w]).value z = R.value z := by
    intro z hz
    by_cases hzx : z = x
    · rw [hzx, hbind.1, hRx]
    · by_cases hzy : z = y
      · rw [hzy, hbind.2, hRy]
      · rw [value_bind_pair_of_ne hzx hzy, hR z hzx hzy]
        apply value_bind_of_not_mem
        intro hformal
        apply (hcapture z hformal hz).elim hzx hzy
  apply hget.depends
  intro z hz
  rw [ordered, ordered, hbind.1, hbind.2, hRx, hRy]
  split
  · apply hvalues z hz
  · have hswap := swap_values (M := N.bind [x, y] [u, w]) h.ne (h.sort_fst.trans h.sort_snd.symm)
    have hswap' := swap_values (M := R) h.ne (h.sort_fst.trans h.sort_snd.symm)
    by_cases hzx : z = x
    · rw [hzx, hswap.1, hswap'.1, hbind.2, hRy]
    · by_cases hzy : z = y
      · rw [hzy, hswap.2, hswap'.2, hbind.1, hRx]
      · rw [value_swap_of_ne hzx hzy, value_swap_of_ne hzx hzy]
        apply hvalues z hz

/-- The value of the reported definition is the same for both orders of the arguments. -/
theorem Commutes.calls_commuDefinition {formals : List Expr}
    (hget : GetsDef [.var x, .var y] formals partConstr body cache)
    (hcapture : ∀ z ∈ r.requestUsedArgs, z ∈ partConstr.vars → z = x ∨ z = y)
    (htemp : temp.sort = .int) (hx : temp ≠ x) (hy : temp ≠ y) (hfresh : temp ∉ partConstr.vars)
    {args : List Expr} (hargs : args = [.var x, .var y] ∨ args = [.var y, .var x]) :
  ((commuDefinition r x y temp body).eval M (args.map (Expr.eval M))).toInt
    = body.intVal (ordered M x y)
  := by
  have hint : ∀ z : Var, z.sort = .int → (M.value z).sort = .int :=
    fun z hz => (sort_value M z).trans hz
  rcases hargs with rfl | rfl
  · exact h.eval_commuDefinition hP hget hcapture htemp hx hy hfresh (hint x h.sort_fst)
      (hint y h.sort_snd) rfl rfl fun _ _ _ => rfl
  · have hswap := swap_values (M := M) h.ne (h.sort_fst.trans h.sort_snd.symm)
    refine (h.eval_commuDefinition hP (R := swap M x y) hget hcapture htemp hx hy hfresh
      (hint y h.sort_snd) (hint x h.sort_fst) hswap.1 hswap.2 ?_).trans ?_
    · exact fun z hzx hzy => value_swap_of_ne hzx hzy
    · apply hget.depends
      intro z _
      rw [ordered, ordered, hswap.1, hswap.2]
      -- exchanging the values exchanges the cases, except where they are equal
      rcases lt_trichotomy (M.value x).toInt (M.value y).toInt with hlt | heq | hgt
      · rw [if_pos hlt.le, if_neg (not_le.mpr hlt)]
      · have heq' : M.value x = M.value y := by
          rw [Value.eq_int (hint x h.sort_fst), Value.eq_int (hint y h.sort_snd), heq]
        rw [if_pos heq.le, if_pos heq.ge]
        apply value_swap_of_eq h.ne (h.sort_fst.trans h.sort_snd.symm) heq' z
      · rw [if_neg (not_le.mpr hgt), if_pos hgt.le]
        apply swap_swap h.ne (h.sort_fst.trans h.sort_snd.symm) z

omit hP in
/-- The constraint in a model where the function has one value for both orders. -/
theorem Commutes.holds_const {v : ℤ} {N : Model} (hvar : N.var = M.var)
    (hfunc : ∀ args, args = [.var x, .var y] ∨ args = [.var y, .var x] →
      (N.func r.rdcdFunc (args.map (Expr.eval N))).toInt = v) :
  P.finalConstraint.Holds N ↔ P.finalConstraint.Holds (M.const fun _ => v)
  := by
  rw [Expr.Holds, Expr.Holds, eval_congr_calls (N := M.const fun _ => v)]
  · intro z _
    rw [value_const, Model.value, Model.value, hvar]
  · intro c hc
    have hargs : c.1 = r.rdcdFunc ∧ (c.2 = [.var x, .var y] ∨ c.2 = [.var y, .var x]) := by
      rcases h.calls c hc with rfl | rfl
      · exact ⟨rfl, Or.inl rfl⟩
      · exact ⟨rfl, Or.inr rfl⟩
    have hrange : r.rdcdFunc.range = .int := h.range
    rw [hargs.1, hrange]
    change Value.int _ = Value.int v
    rw [hfunc c.2 hargs.2]

omit hP in
theorem Commutes.definesAll (htemp : temp.sort = .int) (hsort : body.sort = some .int)
    (hcalls : body.calls = []) :
  DefinesAll [(r.rdcdFunc, commuDefinition r x y temp body)]
  := by
  have hvar : ∀ z z' : Var, z.sort = z'.sort → [Expr.var z'].map Expr.sort
      = [z].map fun z => some z.sort := by
    intro z z' hz
    simp [hz]
  have hother := sort_substitute (hvar temp y (htemp.trans h.sort_snd.symm))
    (sort_substitute (hvar y x (h.sort_snd.trans h.sort_fst.symm))
      (sort_substitute (hvar x temp (h.sort_fst.trans htemp.symm)) hsort))
  have hge : (Expr.ge (.var x) (.var y)).sort = some .bool := by
    rw [sort_ge, sort_var, sort_var, h.sort_fst, h.sort_snd]
    exact ⟨rfl, rfl, rfl⟩
  have hsorts : (r.requestUsedArgs.map Expr.var).map Expr.sort
      = [x, y].map fun z => some z.sort := by
    have hmap := congrArg (List.map some) h.sorts
    rw [List.map_map] at hmap
    rw [List.map_map]
    apply hmap.trans (by simp [h.sort_fst, h.sort_snd])
  refine ⟨List.nodup_singleton _, ?_, ?_⟩
  · intro p hp
    obtain rfl := List.mem_singleton.mp hp
    refine ⟨rfl, ?_⟩
    have hrange : r.rdcdFunc.range = .int := h.range
    rw [hrange]
    apply sort_substitute hsorts (sort_ite.mpr ⟨hge, hsort, hother⟩)
  · intro p hp
    obtain rfl := List.mem_singleton.mp hp
    apply calls_substitute_vars
    have ho : ∀ g, Op.ite ≠ .func g := nofun
    rw [symmetrize, calls_app_eq_nil ho]
    intro e he
    simp only [List.mem_cons, List.not_mem_nil, or_false] at he
    rcases he with rfl | rfl | rfl
    · rfl
    · apply hcalls
    · apply calls_substitute_vars [y]
      apply calls_substitute_vars [x]
      apply calls_substitute_vars [temp] hcalls

omit hP in
/-- The constraint with the arguments of the calls in one order. -/
theorem Commutes.holds_orient (M : Model) (v : ℤ) :
  (orient r.rdcdFunc x y P.finalConstraint).Holds (M.const fun _ => v)
    ↔ P.finalConstraint.Holds (M.const fun _ => v)
  := by
  have hrange : r.rdcdFunc.range = .int := h.range
  rw [Expr.Holds, eval_orient]
  · rfl
  · rw [eval_func_const (c := (r.rdcdFunc, [])) hrange,
      eval_func_const (c := (r.rdcdFunc, [])) hrange]

/-- The literals with the arguments of the calls in one order are linear. -/
theorem Commutes.linear_literals :
  ∀ q ∈ literals (orient r.rdcdFunc x y P.finalConstraint) true,
    q.calls = [] ∨ IsLinear r.rdcdFunc q
  := by
  rw [literals_orient (h.sort_fst.trans h.sort_snd.symm) hP.sort h.calls]
  intro q hq
  obtain ⟨q, hmem, rfl⟩ := List.mem_map.mp hq
  have hcalls : CallsOf r.rdcdFunc x y q := fun c hc =>
    h.calls c ((within_of_mem_literals hmem).calls c hc)
  rcases h.linear q hmem with hnil | ⟨o, a, b, rfl, ho, hstrict, ha, hb⟩
  · rw [orient_eq_self hnil]
    exact .inl hnil
  · rw [orient_app (isComparison_ne_func ho)]
    exact .inr ⟨o, _, _, rfl, ho, hstrict, linear_orient (hcalls.arg (by simp)) ha,
      linear_orient (hcalls.arg (by simp)) hb⟩

omit h in
/-- The constraint for one order is a formula. -/
theorem sort_side (hS : S.Correct) {f : FuncDecl} (hx : x.sort = .int) (hy : y.sort = .int) :
  (Expr.implies (.ge (.var x) (.var y)) (S.simplify (orient f x y P.finalConstraint))).sort
    = some .bool
  := by
  have horient := sort_orient (f := f) (hx.trans hy.symm) hP.sort
  rw [sort_implies, sort_ge, sort_var, sort_var, hx, hy]
  exact ⟨rfl, ⟨rfl, rfl, rfl⟩, (hS.simplify.preserves _ _ horient).1⟩

/-- What the constraint for one order says. -/
theorem Commutes.holds_partConstr (hS : S.Correct) {pushed : Expr}
    (hpush : pushInNots n (.implies (.ge (.var x) (.var y))
      (S.simplify (orient r.rdcdFunc x y P.finalConstraint))) = some pushed)
    (hpart : reduceConstr S P r.func.name [] pushed = some partConstr) :
  partConstr.sort = some .bool ∧ ∀ (M : Model) (v : ℤ), partConstr.Holds (M.const fun _ => v)
    ↔ ((M.value y).toInt ≤ (M.value x).toInt → P.finalConstraint.Holds (M.const fun _ => v))
  := by
  have horient := sort_orient (f := r.rdcdFunc) (h.sort_fst.trans h.sort_snd.symm) hP.sort
  have hside := sort_side hP hS (f := r.rdcdFunc) h.sort_fst h.sort_snd
  have hpushed := pushInNots_preserves hpush
  obtain ⟨k, hk, rfl⟩ := Option.map_eq_some_iff.mp hpart
  rw [Problem.names, h.requests] at hk
  obtain rfl := killNonCurrent_self hk
  have hsort := (hpushed _ hside).1
  refine ⟨(hS.simplify.preserves _ _ hsort).1, fun M v => ?_⟩
  have hcond : (Expr.ge (.var x) (.var y)).Holds (M.const fun _ => v)
      ↔ (M.value y).toInt ≤ (M.value x).toInt := holds_ge _ _
  rw [(hS.simplify.preserves _).holds hsort]
  change Expr.Holds _ _ ↔ _
  rw [hpushed.holds hside, holds_implies, hcond, (hS.simplify.preserves _).holds horient,
    h.holds_orient]

/-- What is left of the constraint is regular, and mentions no formal argument but those of the
calls. -/
theorem Commutes.regular (hS : S.Correct) (hlocal : S.Local)
    (hN : S.Normalizes r.rdcdFunc [.var x, .var y])
    (hkeep : S.KeepsLinear r.rdcdFunc [.var x, .var y]) {pushed : Expr}
    (hpush : pushInNots n (.implies (.ge (.var x) (.var y))
      (S.simplify (orient r.rdcdFunc x y P.finalConstraint))) = some pushed)
    (hpart : reduceConstr S P r.func.name [] pushed = some partConstr)
    (hget : getDef S P r [] pushed = some (body, cache)) :
  Regular S P.rdcdRequests r.rdcdFunc [.var x, .var y] partConstr ∧
    ∀ z ∈ r.requestUsedArgs, z ∈ partConstr.vars → z = x ∨ z = y
  := by
  have hsort := h.sort_fst.trans h.sort_snd.symm
  have hargs : [Expr.var x, Expr.var y].map S.simplify = [.var x, .var y] := by
    simp [hlocal.var]
  have horient := sort_orient (f := r.rdcdFunc) hsort hP.sort
  obtain ⟨hcalls, hliterals⟩ := hkeep _ horient (calls_orient h.calls) (h.linear_literals hP)
  rw [hargs] at hcalls
  have hside := sort_side hP hS (f := r.rdcdFunc) h.sort_fst h.sort_snd
  generalize hc' : S.simplify (orient r.rdcdFunc x y P.finalConstraint) = c' at *
  obtain ⟨k, hk, rfl⟩ := Option.map_eq_some_iff.mp hpart
  rw [Problem.names, h.requests] at hk
  obtain rfl : pushed = k := (killNonCurrent_self hk).symm
  have hpushed := pushInNots_preserves hpush _ hside
  have hcombined : Combined pushed := combined_of_killNonCurrent hpushed.1 hk
  have hsideCalls : ∀ c ∈ (Expr.implies (.ge (.var x) (.var y)) c').calls,
      c = (r.rdcdFunc, [.var x, .var y]) := by
    intro c hc
    apply hcalls
    simpa [mem_calls_app] using hc
  have hflat : Flat (.implies (.ge (.var x) (.var y)) c') := by
    intro c hc a ha
    rw [hsideCalls c hc] at ha
    simp only [List.mem_cons, List.not_mem_nil, or_false] at ha
    rcases ha with rfl | rfl
    · trivial
    · trivial
  have hmatches := (matches_rule r.rdcdFunc).pushInNots hpush
  have hlinear : ∀ q' ∈ literals pushed true, q'.calls = [] ∨ IsLinear r.rdcdFunc q' := by
    intro q' hq'
    have hcomparison := hcombined.isComparison q' hq'
    have hsame := (sameLiterals_rule r.rdcdFunc).pushInNots hpush
    obtain ⟨q, hq, hsim⟩ := (hsame.covers .bool hside true).old q' hq'
    have hflat' := hflat.literal hq
    have hq'' : q.calls = [] ∨ IsLinear r.rdcdFunc q := by
      rcases List.mem_append.mp hq with hq | hq
      · rw [List.mem_singleton.mp hq]
        exact .inl rfl
      · exact hliterals q hq
    rcases hq'' with hnil | hlinear
    · left
      rw [List.eq_nil_iff_forall_not_mem] at hnil ⊢
      exact fun c hc => hnil c ((hsim.mem_calls hcomparison hflat' c).mp hc)
    · exact .inr (hsim.isLinear hcomparison hflat' hlinear)
  have hpushedCalls : ∀ c ∈ pushed.calls, c = (r.rdcdFunc, [.var x, .var y]) := fun c hc =>
    hsideCalls c ((hmatches.calls hflat c).mp hc)
  have hbuilt := hN.simplify hpushed.1 hpushedCalls (hcombined.built_of_literals hlinear)
  have hreg : Regular S P.rdcdRequests r.rdcdFunc [.var x, .var y] (S.simplify pushed) := by
    rw [getDef] at hget
    obtain ⟨partConstr, hconstr, hget⟩ := Option.bind_eq_some_iff.mp hget
    obtain rfl := Option.some.inj (hpart.symm.trans hconstr)
    obtain ⟨normed, hnormed, hget⟩ := Option.bind_eq_some_iff.mp hget
    obtain ⟨st, hst, -⟩ := Option.bind_eq_some_iff.mp hget
    have hf : r.rdcdFunc ∈ P.rdcdRequests := by simp [Problem.rdcdRequests, h.requests]
    have hregular := hbuilt.regular hS hN hf hnormed hst
    rwa [hargs] at hregular
  refine ⟨hreg, fun z hformal hz => ?_⟩
  rcases outer_or_arg r.rdcdFunc hz with hz | ⟨c, hc, -, a, ha, hz⟩
  · have hz := hmatches.outer hflat z (hlocal.simplify _ _ z hz)
    obtain ⟨-, e, he, hmem⟩ := mem_outerVars_app.mp hz
    rcases List.mem_pair.mp he with rfl | rfl
    · simpa [outerVars, outerVarsAll] using hmem
    · rw [← hc'] at hmem
      have hmem := outerVars_orient h.calls (hlocal.simplify _ _ z hmem)
      exact h.capture z hformal (outerVars_subset hmem)
  · rw [hreg.calls c hc] at ha
    simp only [List.mem_cons, List.not_mem_nil, or_false] at ha
    rcases ha with rfl | rfl
    · left
      simpa using hz
    · right
      simpa using hz

end

end Sound

/-! ### Examples -/

section Examples

/-- A simplifier that drops trivial equations. -/
def tidy : Simplifier := ⟨dropTrivial, id, id, id⟩

theorem tidy_correct :
  tidy.Correct
  := by
  have hid : Simplifies id := ⟨Preserves.refl, fun h => h⟩
  exact ⟨simplifies_dropTrivial, hid, hid, List.Perm.refl⟩

/-- A function of two integers. -/
def binary : Request := requestOf "f" [⟨"x", .int⟩, ⟨"y", .int⟩]

/-- A commutative function that satisfies other constraints. -/
def commutative (constraints : List Expr) : Problem where
  requests := [binary]
  constraints := .eq (.func binary.rdcdFunc [.var ⟨"x", .int⟩, .var ⟨"y", .int⟩])
    (.func binary.rdcdFunc [.var ⟨"y", .int⟩, .var ⟨"x", .int⟩]) :: constraints
  finalConstraint := .and (.eq (.func binary.rdcdFunc [.var ⟨"x", .int⟩, .var ⟨"y", .int⟩])
    (.func binary.rdcdFunc [.var ⟨"y", .int⟩, .var ⟨"x", .int⟩]) :: constraints)

/-- A commutative function that is at least as great as both arguments. -/
def upperBound : Problem :=
  commutative [.ge (callOf binary) (.var ⟨"x", .int⟩), .ge (callOf binary) (.var ⟨"y", .int⟩)]

theorem wellFormed_upperBound :
  upperBound.WellFormed
  := by
  refine ⟨by decide, by decide, by decide, ?_⟩
  apply constraints_iff rfl (by decide)

theorem holds_commutative (constraints : List Expr) (M : Model) :
  (commutative constraints).finalConstraint.Holds M
    ↔ (Expr.func binary.rdcdFunc [.var ⟨"x", .int⟩, .var ⟨"y", .int⟩]).eval M
        = (Expr.func binary.rdcdFunc [.var ⟨"y", .int⟩, .var ⟨"x", .int⟩]).eval M ∧
      ∀ e ∈ constraints, e.Holds M
  := by rw [commutative, holds_and, List.forall_mem_cons, holds_eq]

theorem holds_upperBound_const (M : Model) (v : ℤ) :
  upperBound.finalConstraint.Holds (M.const fun _ => v)
    ↔ (M.value ⟨"x", .int⟩).toInt ≤ v ∧ (M.value ⟨"y", .int⟩).toInt ≤ v
  := by
  rw [upperBound, holds_commutative]
  simp only [List.forall_mem_cons, List.not_mem_nil, false_implies, implies_true, and_true,
    holds_ge]
  apply and_iff_right rfl

theorem callSimplifier_keepsLinear (f : FuncDecl) (xs : List Var) :
  callSimplifier.KeepsLinear f (xs.map .var)
  := by
  intro e hs hcalls hliterals
  rw [simplify_of_bool hs, simplify_vars]
  refine ⟨fun c hc => hcalls c (calls_dropTrivial hc), ?_⟩
  fun_cases dropTrivial e with
  | case1 l =>
      intro q hq
      apply hliterals
      rw [literals_connective rfl] at hq ⊢
      obtain ⟨e, he, hq⟩ := List.mem_flatMap.mp hq
      exact List.mem_flatMap.mpr ⟨e, List.mem_of_mem_filter he, hq⟩
  | case2 e _ => exact hliterals

theorem commutes_upperBound :
  Commutes upperBound binary ⟨"x", .int⟩ ⟨"y", .int⟩
  := by
  constructor
  · rfl
  · rfl
  · rfl
  · decide
  · rfl
  · rfl
  · unfold CallsOf
    decide
  · unfold First
    decide
  · intro q hq
    right
    have hfree : ∀ z : Var, LinearIn binary.rdcdFunc (.var z) := fun z => .free nofun
    rcases List.mem_cons.mp hq with rfl | hq
    · exact ⟨.eq, _, _, rfl, rfl, rfl, .call _, .call _⟩
    · rcases List.mem_pair.mp hq with rfl | rfl
      · exact ⟨.ge, _, _, rfl, rfl, rfl, .call _, hfree _⟩
      · exact ⟨.ge, _, _, rfl, rfl, rfl, .call _, hfree _⟩
  · decide
  · intro M _ hM
    obtain ⟨hcomm, hbounds⟩ := (holds_commutative _ M).mp hM
    simp only [List.forall_mem_cons, List.not_mem_nil, false_implies, implies_true, and_true,
      holds_ge] at hbounds
    exact ⟨_, (holds_upperBound_const M _).mpr hbounds⟩
  · intro M v _ hM
    rw [holds_upperBound_const] at hM ⊢
    have hswap := swap_values (M := M) (x := ⟨"x", .int⟩) (y := ⟨"y", .int⟩) (by decide) rfl
    rw [hswap.1, hswap.2]
    apply hM.symm

/-- A commutative function that is at least as great as the second argument. -/
def aboveSecond : Problem := commutative [.ge (callOf binary) (.var ⟨"y", .int⟩)]

theorem wellFormed_aboveSecond :
  aboveSecond.WellFormed
  := by
  refine ⟨by decide, by decide, by decide, ?_⟩
  apply constraints_iff rfl (by decide)

/-- The greater one of the arguments is a solution. -/
theorem solves_aboveSecond :
  aboveSecond.Solves fun _ vs => .int (max (vs.headD (.int 0)).toInt (vs.getLastD (.int 0)).toInt)
  := by
  intro M
  rw [aboveSecond, holds_commutative]
  constructor
  · apply congrArg Value.int (max_comm _ _)
  · simp only [List.forall_mem_cons, List.not_mem_nil, false_implies, implies_true, and_true,
      holds_ge]
    apply le_max_right _ _

end Examples

end Sygus.SSI
