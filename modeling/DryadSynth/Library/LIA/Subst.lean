import DryadSynth.Library.LIA.Sort

/-!
# Substitution

Replacing subexpressions, and expanding the calls of a function symbol to its definition.  The
value after a replacement is the value in a model that agrees with the replacement; the value
after an expansion is the value in the model in which the symbol is the function defined.
-/

namespace LIA

section Congruence

variable {M M' : Model}

theorem apply_congr (h : M.func = M'.func) (o : Op) (l : List Value) :
  o.apply M l = o.apply M' l
  := by
  cases o with
  | func f => simp only [Op.apply, h]
  | _ => rfl

theorem apply_congr_of_ne {o : Op} (ho : ∀ f, o = .func f → M.func f = M'.func f)
    (l : List Value) :
  o.apply M l = o.apply M' l
  := by
  cases o with
  | func f => simp only [Op.apply, ho f rfl]
  | _ => rfl

/-- Arguments that keep their sorts keep the sort of an application. -/
theorem sort_app_map {f : Expr → Expr} {o : Op} {l : List Expr} {s : Srt}
    (hf : ∀ e ∈ l, ∀ t, e.sort = some t → (f e).sort = some t)
    (h : (Expr.app o l).sort = some s) :
  (Expr.app o (l.map f)).sort = some s
  := by
  rw [sort_app, List.map_map] at *
  rw [← h, List.map_congr_left]
  intro e he
  obtain ⟨t, ht⟩ := exists_sort_of_app ((sort_app o l).trans h) he
  rw [Function.comp_apply, hf e he t ht, ht]

end Congruence

/-! ### Variables and function symbols -/

mutual

/-- The variables of an expression. -/
def Expr.vars : Expr → List Var
  | .num _ => []
  | .var x => [x]
  | .app _ args => Expr.varsAll args

/-- The variables of a list of expressions. -/
def Expr.varsAll : List Expr → List Var
  | [] => []
  | e :: l => e.vars ++ Expr.varsAll l

end

mutual

/-- The function symbols of an expression. -/
def Expr.funcs : Expr → List FuncDecl
  | .num _ => []
  | .var _ => []
  | .app (.func f) args => f :: Expr.funcsAll args
  | .app _ args => Expr.funcsAll args

/-- The function symbols of a list of expressions. -/
def Expr.funcsAll : List Expr → List FuncDecl
  | [] => []
  | e :: l => e.funcs ++ Expr.funcsAll l

end

section Vars

variable {M M' : Model}

@[simp]
theorem vars_num (n : ℤ) :
  (Expr.num n).vars = []
  := rfl

@[simp]
theorem vars_var (x : Var) :
  (Expr.var x).vars = [x]
  := rfl

@[simp]
theorem mem_vars_app {x : Var} {o : Op} {args : List Expr} :
  x ∈ (Expr.app o args).vars ↔ ∃ e ∈ args, x ∈ e.vars
  := by
  rw [Expr.vars]
  induction args with
  | nil => simp [Expr.varsAll]
  | cons e l ih => simp [Expr.varsAll, ih]

theorem mem_funcsAll {f : FuncDecl} {args : List Expr} :
  f ∈ Expr.funcsAll args ↔ ∃ e ∈ args, f ∈ e.funcs
  := by
  induction args with
  | nil => simp [Expr.funcsAll]
  | cons e l ih => simp [Expr.funcsAll, ih]

theorem mem_funcs_app {f : FuncDecl} {o : Op} {args : List Expr} :
  f ∈ (Expr.app o args).funcs ↔ o = .func f ∨ ∃ e ∈ args, f ∈ e.funcs
  := by
  rw [← mem_funcsAll]
  cases o with
  | func g => simp [Expr.funcs, eq_comm]
  | _ => simp [Expr.funcs]

/-- The value of an expression depends on its variables and function symbols only. -/
theorem eval_congr {e : Expr} (hvar : ∀ x ∈ e.vars, M.var x = M'.var x)
    (hfunc : ∀ f ∈ e.funcs, M.func f = M'.func f) :
  e.eval M = e.eval M'
  := by
  induction e with
  | num n => rfl
  | var x => rw [eval_var, eval_var, hvar x (by simp)]
  | app o args ih =>
      have hargs : args.map (Expr.eval M) = args.map (Expr.eval M') := by
        apply List.map_congr_left
        intro e he
        apply ih e he
        · intro x hx
          apply hvar x (mem_vars_app.mpr ⟨e, he, hx⟩)
        · intro f hf
          apply hfunc f (mem_funcs_app.mpr (Or.inr ⟨e, he, hf⟩))
      rw [eval_app, eval_app, hargs]
      apply apply_congr_of_ne
      intro f hf
      apply hfunc f (mem_funcs_app.mpr (Or.inl hf))

end Vars

/-! ### Replacing subexpressions -/

mutual

/-- Replace the outermost subexpressions that `σ` maps. -/
def Expr.replace (σ : Expr → Option Expr) : Expr → Expr
  | .num n => (σ (.num n)).getD (.num n)
  | .var x => (σ (.var x)).getD (.var x)
  | .app o args => (σ (.app o args)).getD (.app o (Expr.replaceAll σ args))

/-- Replace in every expression of a list. -/
def Expr.replaceAll (σ : Expr → Option Expr) : List Expr → List Expr
  | [] => []
  | e :: l => e.replace σ :: Expr.replaceAll σ l

end

/-- Replace the expressions of `src` by those of `dst` at the same positions.  Where `src`
repeats an expression its last position counts. -/
def Expr.substitute (src dst : List Expr) (e : Expr) : Expr :=
  e.replace fun t => (src.zip dst).reverse.lookup t

/-- The model in which the variables `xs` have the values `vs`. -/
def Model.bind (M : Model) (xs : List Var) (vs : List Value) : Model :=
  { M with var := fun x => ((xs.zip vs).reverse.lookup x).getD (M.var x) }

section Replace

variable {M M' : Model} {σ : Expr → Option Expr}

theorem replaceAll_eq (l : List Expr) :
  Expr.replaceAll σ l = l.map (Expr.replace σ)
  := by
  induction l with
  | nil => rfl
  | cons e l ih => rw [Expr.replaceAll, ih, List.map_cons]

theorem replace_app (o : Op) (args : List Expr) :
  (Expr.app o args).replace σ
    = (σ (.app o args)).getD (.app o (args.map (Expr.replace σ)))
  := by rw [Expr.replace, replaceAll_eq]

/-- Replaced expressions with the variables `X` have in `M'` the values their replacements have in
`M`. -/
theorem eval_replace_on {X : Var → Prop}
    (hσ : ∀ t t', σ t = some t' → (∀ x ∈ t.vars, X x) → t'.eval M = t.eval M')
    (hvar : ∀ x, X x → σ (.var x) = none → (Expr.var x).eval M = (Expr.var x).eval M')
    (hfunc : M.func = M'.func) {e : Expr} (he : ∀ x ∈ e.vars, X x) :
  (e.replace σ).eval M = e.eval M'
  := by
  induction e with
  | num n =>
      rw [Expr.replace]
      cases h : σ (.num n) with
      | none => rfl
      | some t' => exact hσ _ t' h he
  | var x =>
      rw [Expr.replace]
      cases h : σ (.var x) with
      | none => exact hvar x (he x (by simp)) h
      | some t' => exact hσ _ t' h he
  | app o args ih =>
      rw [replace_app]
      cases h : σ (.app o args) with
      | none =>
          rw [Option.getD_none, eval_app, eval_app, List.map_map, apply_congr hfunc]
          congr 1
          apply List.map_congr_left
          intro e hmem
          exact ih e hmem fun x hx => he x (mem_vars_app.mpr ⟨e, hmem, hx⟩)
      | some t' => exact hσ _ t' h he

/-- Replaced expressions have in `M'` the values their replacements have in `M`. -/
theorem eval_replace (hσ : ∀ t t', σ t = some t' → t'.eval M = t.eval M')
    (hvar : ∀ x, σ (.var x) = none → (Expr.var x).eval M = (Expr.var x).eval M')
    (hfunc : M.func = M'.func) (e : Expr) :
  (e.replace σ).eval M = e.eval M'
  := by
  apply eval_replace_on (X := fun _ => True) (fun t t' h _ => hσ t t' h) (fun x _ => hvar x) hfunc
  exact fun _ _ => trivial

theorem sort_replace (hσ : ∀ t t' s, σ t = some t' → t.sort = some s → t'.sort = some s)
    {e : Expr} {s : Srt} (h : e.sort = some s) :
  (e.replace σ).sort = some s
  := by
  induction e generalizing s with
  | num n =>
      rw [Expr.replace]
      cases h' : σ (.num n) with
      | none => exact h
      | some t' => exact hσ _ t' s h' h
  | var x =>
      rw [Expr.replace]
      cases h' : σ (.var x) with
      | none => exact h
      | some t' => exact hσ _ t' s h' h
  | app o args ih =>
      rw [replace_app]
      cases h' : σ (.app o args) with
      | none => exact sort_app_map (fun e he t ht => ih e he ht) h
      | some t' => exact hσ _ t' s h' h

end Replace

section Lookup

variable {M : Model} {xs : List Var} {as : List Expr}

theorem mem_of_lookup {α β : Type} [DecidableEq α] {l : List (α × β)} {a : α} {b : β}
    (h : l.lookup a = some b) :
  (a, b) ∈ l
  := by
  obtain ⟨l₁, l₂, rfl, -⟩ := List.lookup_eq_some_iff.mp h
  simp

/-- The replacement of a variable. -/
theorem lookup_var (xs : List Var) (as : List Expr) (x : Var) :
  ((xs.map Expr.var).zip as).reverse.lookup (Expr.var x) = (xs.zip as).reverse.lookup x
  := by
  rw [List.zip_map_left, ← List.map_reverse]
  induction (xs.zip as).reverse with
  | nil => rfl
  | cons p l ih =>
      have hbeq : (Expr.var x == Expr.var p.1) = (x == p.1) := by
        rw [Bool.eq_iff_iff]
        simp
      rw [List.map_cons, List.lookup_cons, List.lookup_cons, ih]
      simp only [Prod.map_fst, Prod.map_snd, id, hbeq]

/-- Only variables are replaced. -/
theorem eq_var_of_lookup {t t' : Expr}
    (h : ((xs.map Expr.var).zip as).reverse.lookup t = some t') :
  ∃ x, t = .var x ∧ (xs.zip as).reverse.lookup x = some t'
  := by
  have hmem := List.mem_reverse.mp (mem_of_lookup h)
  obtain ⟨x, -, rfl⟩ := List.mem_map.mp (List.of_mem_zip hmem).1
  use x, rfl
  rwa [lookup_var] at h

/-- The value a variable is bound to. -/
theorem lookup_eval (xs : List Var) (as : List Expr) (x : Var) :
  (xs.zip (as.map (Expr.eval M))).reverse.lookup x
    = ((xs.zip as).reverse.lookup x).map (Expr.eval M)
  := by
  rw [List.zip_map_right, ← List.map_reverse]
  induction (xs.zip as).reverse with
  | nil => rfl
  | cons p l ih =>
      rw [List.map_cons, List.lookup_cons, List.lookup_cons, ih]
      simp only [Prod.map_fst, Prod.map_snd, id]
      split
      · rfl
      · rfl

theorem sort_of_lookup (hsort : as.map Expr.sort = xs.map fun x => some x.sort) {x : Var}
    {a : Expr} (h : (xs.zip as).reverse.lookup x = some a) :
  a.sort = some x.sort
  := by
  have hmem := List.mem_reverse.mp (mem_of_lookup h)
  obtain ⟨i, hi, hget⟩ := List.mem_iff_getElem.mp hmem
  rw [List.getElem_zip, Prod.mk.injEq] at hget
  obtain ⟨rfl, rfl⟩ := hget
  have hi' : i < xs.length ∧ i < as.length := by simpa using hi
  have hget := List.getElem_of_eq hsort (i := i) (by simpa using hi'.2)
  simpa using hget

/-- Substituting for variables is binding them to the values of the replacements. -/
theorem eval_substitute (hsort : as.map Expr.sort = xs.map fun x => some x.sort) (e : Expr) :
  (e.substitute (xs.map .var) as).eval M = e.eval (M.bind xs (as.map (Expr.eval M)))
  := by
  have hfunc : M.func = (M.bind xs (as.map (Expr.eval M))).func := rfl
  refine eval_replace ?_ ?_ hfunc e
  · intro t t' h
    obtain ⟨x, rfl, hx⟩ := eq_var_of_lookup h
    simp only [eval_var, Model.bind]
    rw [lookup_eval, hx, Option.map_some, Option.getD_some,
      Value.cast_of_sort (sort_eval (sort_of_lookup hsort hx) M)]
  · intro x h
    rw [lookup_var] at h
    simp only [eval_var, Model.bind]
    rw [lookup_eval, h, Option.map_none, Option.getD_none]

theorem sort_substitute (hsort : as.map Expr.sort = xs.map fun x => some x.sort) {e : Expr}
    {s : Srt} (h : e.sort = some s) :
  (e.substitute (xs.map .var) as).sort = some s
  := by
  apply sort_replace _ h
  intro t t' s h' hs
  obtain ⟨x, rfl, hx⟩ := eq_var_of_lookup h'
  rw [sort_of_lookup hsort hx, ← hs, sort_var]

end Lookup

/-! ### Expanding definitions -/

/-- A definition of a function: its parameters and its body. -/
structure Definition where
  params : List Var
  body : Expr
  deriving DecidableEq

/-- The body of a definition with arguments for its parameters. -/
def Definition.apply (d : Definition) (args : List Expr) : Expr :=
  d.body.substitute (d.params.map .var) args

mutual

/-- Replace the calls of `f` by its definition. -/
def Expr.expand (f : FuncDecl) (d : Definition) : Expr → Expr
  | .num n => .num n
  | .var x => .var x
  | .app o args =>
      if o = .func f then d.apply (Expr.expandAll f d args) else .app o (Expr.expandAll f d args)

/-- Expand in every expression of a list. -/
def Expr.expandAll (f : FuncDecl) (d : Definition) : List Expr → List Expr
  | [] => []
  | e :: l => e.expand f d :: Expr.expandAll f d l

end

/-- The model in which `f` is the function `g`. -/
def Model.withFunc (M : Model) (f : FuncDecl) (g : List Value → Value) : Model :=
  { M with func := Function.update M.func f g }

/-- The function a definition defines.  Variables of the body that are no parameters have their
values in the model. -/
def Definition.eval (d : Definition) (M : Model) (vs : List Value) : Value :=
  d.body.eval (M.bind d.params vs)

/-- The model in which `f` is the function that `d` defines. -/
def Model.define (M : Model) (f : FuncDecl) (d : Definition) : Model :=
  M.withFunc f (d.eval M)

section Expand

variable {M : Model} {f : FuncDecl} {d : Definition}

theorem expandAll_eq (l : List Expr) :
  Expr.expandAll f d l = l.map (Expr.expand f d)
  := by
  induction l with
  | nil => rfl
  | cons e l ih => rw [Expr.expandAll, ih, List.map_cons]

theorem expand_app (o : Op) (args : List Expr) :
  (Expr.app o args).expand f d
    = if o = .func f then d.apply (args.map (Expr.expand f d))
      else .app o (args.map (Expr.expand f d))
  := by rw [Expr.expand, expandAll_eq]

theorem expand_app_of_ne {o : Op} (h : o ≠ .func f) (args : List Expr) :
  (Expr.app o args).expand f d = .app o (args.map (Expr.expand f d))
  := by rw [expand_app, if_neg h]

theorem expand_call (args : List Expr) :
  (Expr.func f args).expand f d
    = d.apply (args.map (Expr.expand f d))
  := by rw [Expr.func, expand_app, if_pos rfl]

/-- The definition has the sorts of the declaration. -/
structure Defines (f : FuncDecl) (d : Definition) : Prop where
  domain : f.domain = d.params.map Var.sort
  range : d.body.sort = some f.range

/-- The arguments of a call have the sorts of the parameters. -/
theorem Defines.sorts (h : Defines f d) {args : List Expr} {s : Srt}
    (hargs : (Expr.func f args).sort = some s) :
  s = f.range ∧ args.map Expr.sort = d.params.map fun x => some x.sort
  := by
  obtain ⟨hs, hdomain⟩ := sort_func.mp hargs
  rw [h.domain, List.map_map] at hdomain
  exact ⟨hs, hdomain⟩

theorem Defines.sort_expand (h : Defines f d) {e : Expr} {s : Srt}
    (hs : e.sort = some s) :
  (e.expand f d).sort = some s
  := by
  induction e generalizing s with
  | num n => exact hs
  | var x => exact hs
  | app o args ih =>
      have hmap := sort_app_map (fun e he t ht => ih e he ht) hs
      by_cases ho : o = .func f
      · rw [ho] at hs hmap ⊢
        obtain ⟨rfl, hargs⟩ := h.sorts hmap
        rw [expand_call]
        apply sort_substitute hargs h.range
      · rw [expand_app_of_ne ho]
        apply hmap

/-- Expanding a definition is interpreting the symbol by the function it defines. -/
theorem Defines.eval_expand (h : Defines f d) {e : Expr} {s : Srt}
    (hs : e.sort = some s) :
  (e.expand f d).eval M = e.eval (M.define f d)
  := by
  induction e generalizing s with
  | num n => rfl
  | var x => rfl
  | app o args ih =>
      have hargs : (args.map (Expr.expand f d)).map (Expr.eval M)
          = args.map (Expr.eval (M.define f d)) := by
        rw [List.map_map]
        apply List.map_congr_left
        intro e he
        obtain ⟨t, ht⟩ := exists_sort_of_app hs he
        apply ih e he ht
      by_cases ho : o = .func f
      · rw [ho] at hs ⊢
        have hmap := sort_app_map (fun e he t ht => h.sort_expand ht) hs
        obtain ⟨rfl, hsorts⟩ := h.sorts hmap
        rw [expand_call, Definition.apply, eval_substitute hsorts, hargs, eval_app]
        simp only [Op.apply, Model.define, Model.withFunc, Function.update_self, Definition.eval]
        rw [Value.cast_of_sort (sort_eval h.range _)]
      · rw [expand_app_of_ne ho, eval_app, eval_app, hargs]
        apply apply_congr_of_ne
        intro g hg
        have hne : g ≠ f := by
          rintro rfl
          apply ho hg
        simp only [Model.define, Model.withFunc, Function.update_of_ne hne]

theorem Defines.holds_expand (h : Defines f d) {e : Expr} {s : Srt}
    (hs : e.sort = some s) :
  (e.expand f d).Holds M ↔ e.Holds (M.define f d)
  := by
  rw [Expr.Holds, h.eval_expand hs]
  rfl

end Expand

/-! ### Substituting one variable after the other -/

/-- Substitute for the variables one after the other. -/
def Expr.substituteEach (ps : List (Var × Expr)) (e : Expr) : Expr :=
  ps.foldl (fun e p => e.substitute [.var p.1] [p.2]) e

section Each

variable {M : Model}

theorem bind_cons (M : Model) (x : Var) (v : Value) (xs : List Var) (vs : List Value) :
  M.bind (x :: xs) (v :: vs) = (M.bind [x] [v]).bind xs vs
  := by
  simp only [Model.bind, Model.mk.injEq, and_true]
  funext y
  rw [List.zip_cons_cons, List.reverse_cons, List.lookup_append]
  cases (xs.zip vs).reverse.lookup y with
  | none => simp
  | some w => simp

theorem lookup_eq_none {xs : List Var} {x : Var} (hx : x ∉ xs) (vs : List Value) :
  (xs.zip vs).reverse.lookup x = none
  := by
  rw [List.lookup_eq_none_iff]
  rintro ⟨y, w⟩ hp
  have hy := (List.of_mem_zip (List.mem_reverse.mp hp)).1
  rw [bne_iff_ne]
  rintro rfl
  apply hx hy

theorem lookup_of_mem {α β : Type} [DecidableEq α] {l : List (α × β)}
    (hnodup : (l.map Prod.fst).Nodup) {a : α} {b : β} (h : (a, b) ∈ l) :
  l.lookup a = some b
  := by
  induction l with
  | nil => cases h
  | cons p l ih =>
      rw [List.map_cons, List.nodup_cons] at hnodup
      rw [List.lookup_cons]
      rcases List.mem_cons.mp h with rfl | h
      · simp
      · have hne : (a == p.1) = false := by
          rw [beq_eq_false_iff_ne]
          rintro rfl
          apply hnodup.1 (List.mem_map.mpr ⟨(p.1, b), h, rfl⟩)
        rw [hne, ih hnodup.2 h]

/-- The value of a bound variable, when no variable is bound twice. -/
theorem var_bind_of_mem {xs : List Var} {vs : List Value} (hnodup : xs.Nodup)
    (hlength : xs.length ≤ vs.length) {x : Var} {v : Value} (h : (x, v) ∈ xs.zip vs) :
  (M.bind xs vs).var x = v
  := by
  have hkeys : ((xs.zip vs).reverse.map Prod.fst).Nodup := by
    rw [List.map_reverse, List.nodup_reverse, List.map_fst_zip hlength]
    apply hnodup
  simp only [Model.bind]
  rw [lookup_of_mem hkeys (List.mem_reverse.mpr h), Option.getD_some]

theorem var_bind_of_not_mem {xs : List Var} {vs : List Value} {x : Var} (hx : x ∉ xs) :
  (M.bind xs vs).var x = M.var x
  := by
  simp only [Model.bind]
  rw [lookup_eq_none hx, Option.getD_none]

theorem bind_comm {x : Var} {xs : List Var} (hx : x ∉ xs) (v : Value) (vs : List Value) :
  (M.bind xs vs).bind [x] [v] = (M.bind [x] [v]).bind xs vs
  := by
  simp only [Model.bind, Model.mk.injEq, and_true]
  funext y
  by_cases hy : y = x
  · rw [hy, lookup_eq_none hx]
    simp
  · have hbeq : (y == x) = false := by simpa using hy
    simp [List.lookup_cons, hbeq]

/-- Substituting one after the other is substituting all at once, when a replacement mentions no
other replaced variable. -/
theorem eval_substituteEach {ps : List (Var × Expr)} (hnodup : (ps.map Prod.fst).Nodup)
    (hsort : ∀ p ∈ ps, p.2.sort = some p.1.sort)
    (hfree : ∀ p ∈ ps, ∀ y ∈ p.2.vars, y ∈ ps.map Prod.fst → y = p.1) (e : Expr) :
  (e.substituteEach ps).eval M
    = e.eval (M.bind (ps.map Prod.fst) (ps.map fun p => p.2.eval M))
  := by
  induction ps generalizing e with
  | nil => rfl
  | cons p ps ih =>
      rw [List.map_cons, List.nodup_cons] at hnodup
      have hrest := ih hnodup.2 (fun q hq => hsort q (List.mem_cons_of_mem _ hq))
        fun q hq y hy hmem => hfree q (List.mem_cons_of_mem _ hq) y hy
          (List.mem_cons_of_mem _ hmem)
      have heval : p.2.eval (M.bind (ps.map Prod.fst) (ps.map fun q => q.2.eval M))
          = p.2.eval M := by
        refine eval_congr ?_ fun _ _ => rfl
        intro y hy
        apply var_bind_of_not_mem
        intro hmem
        have := hfree p List.mem_cons_self y hy (List.mem_cons_of_mem _ hmem)
        exact hnodup.1 (this ▸ hmem)
      have hp : [p.2].map Expr.sort = [p.1].map fun x => some x.sort := by
        simp [hsort p List.mem_cons_self]
      change ((e.substitute [.var p.1] [p.2]).substituteEach ps).eval M = _
      rw [hrest]
      have h := eval_substitute (M := M.bind (ps.map Prod.fst) (ps.map fun q => q.2.eval M)) hp e
      rw [List.map_singleton, List.map_singleton, heval] at h
      rw [h, bind_comm hnodup.1, ← bind_cons]
      rfl

theorem sort_substituteEach {ps : List (Var × Expr)}
    (hsort : ∀ p ∈ ps, p.2.sort = some p.1.sort) {e : Expr} {s : Srt} (h : e.sort = some s) :
  (e.substituteEach ps).sort = some s
  := by
  induction ps generalizing e with
  | nil => exact h
  | cons p ps ih =>
      have hp : [p.2].map Expr.sort = [p.1].map fun x => some x.sort := by
        simp [hsort p List.mem_cons_self]
      apply ih fun q hq => hsort q (List.mem_cons_of_mem _ hq)
      apply sort_substitute hp h

end Each

end LIA
