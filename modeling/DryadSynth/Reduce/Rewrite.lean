import DryadSynth.Library.LIA.Subst
import DryadSynth.Library.Worklist

/-!
# Rewriting the calls of a function

`DefinedFunc.rewrite` replaces the calls of a function symbol by a definition, with a stack of the
expressions that are to be rewritten and a cache of the ones that are.  Variables are function
symbols without arguments.
-/

namespace Sygus.Rewrite

open LIA Worklist Lists

/-- `getFuncDecl`, where it is a declared symbol. -/
def getFuncDecl : Expr → Option FuncDecl
  | .num _ => none
  | .var x => some ⟨x.name, [], x.sort⟩
  | .app (.func f) _ => some f
  | .app _ _ => none

def getArgs : Expr → List Expr
  | .app _ args => args
  | _ => []

/-- A constant, or a numeral: that is no application, and left as it is like a constant. -/
def isConst (expr : Expr) : Bool := (getArgs expr).isEmpty

def update (expr : Expr) (newArgs : List Expr) : Expr :=
  match expr with
  | .app o _ => .app o newArgs
  | expr => expr

/-- `apply`, which the solver refuses for arguments of other sorts. -/
def apply (d : Definition) (argList : List Expr) : Option Expr :=
  if argList.map Expr.sort = d.params.map fun x => some x.sort then some (d.apply argList)
  else none

/-- What an iteration of the loop does with the expression on top of the stack. -/
def rewriting (d : Definition) (func : FuncDecl) : Fold Expr Expr where
  children expr :=
    if isConst expr = true ∧ getFuncDecl expr ≠ some func then [] else getArgs expr
  combine expr newArgs :=
    if isConst expr = true ∧ getFuncDecl expr ≠ some func then some expr
    else if getFuncDecl expr = some func then apply d newArgs
    else some (update expr newArgs)

/-- `rewrite(orig, func)` in at most `n` iterations. -/
def rewrite (d : Definition) (func : FuncDecl) (n : ℕ) (orig : Expr) : Option (Option Expr) :=
  (rewriting d func).run n (fun _ => none) orig

/-- The model in which `f` is the function `g`, as a variable if it has no arguments. -/
def interpret (M : Model) (f : FuncDecl) (g : List Value → Value) : Model where
  var := if f.domain = [] then Function.update M.var ⟨f.name, f.range⟩ (g []) else M.var
  func := Function.update M.func f g

mutual

/-- The declared symbols of an expression. -/
def decls : Expr → List FuncDecl
  | .num _ => []
  | .var x => [⟨x.name, [], x.sort⟩]
  | .app (.func f) args => f :: declsAll args
  | .app _ args => declsAll args

def declsAll : List Expr → List FuncDecl
  | [] => []
  | e :: l => decls e ++ declsAll l

end

theorem mem_declsAll {f : FuncDecl} {args : List Expr} :
  f ∈ declsAll args ↔ ∃ e ∈ args, f ∈ decls e
  := by
  induction args with
  | nil => simp [declsAll]
  | cons e l ih => simp [declsAll, ih]

theorem mem_decls_app {f : FuncDecl} {o : Op} {args : List Expr} :
  f ∈ decls (.app o args) ↔ o = .func f ∨ ∃ e ∈ args, f ∈ decls e
  := by
  rw [← mem_declsAll]
  cases o with
  | func g => simp [decls, eq_comm]
  | _ => simp [decls]

/-! ### Correctness -/

section Correctness

variable {d : Definition} {f : FuncDecl} {value : Expr → Option Expr} {e e' : Expr}

/-- The expression `e'` is `e` with its calls of `f` replaced by `d`. -/
structure Rewritten (d : Definition) (f : FuncDecl) (e e' : Expr) : Prop where
  sort : e'.sort = e.sort
  eval (M : Model) : e'.eval M = e.eval (interpret M f (d.eval M))
  decls : f ∉ decls d.body → f ∉ decls e'

theorem sizeOf_lt_of_mem_children {expr u : Expr} (h : u ∈ (rewriting d f).children expr) :
  sizeOf u < sizeOf expr
  := by
  have hu : u ∈ getArgs expr := by
    rw [rewriting] at h
    dsimp only at h
    split at h
    · cases h
    · apply h
  cases expr with
  | num n => cases hu
  | var x => cases hu
  | app o args => exact sizeOf_lt_app hu

theorem getFuncDecl_app (o : Op) (args : List Expr) :
  getFuncDecl (.app o args) = some f ↔ o = .func f
  := by
  cases o with
  | func g => simp [getFuncDecl]
  | _ => simp [getFuncDecl]

theorem result_num (n : ℤ) :
  (rewriting d f).result value (.num n) = some (.num n)
  := rfl

theorem result_var (x : Var) :
  (rewriting d f).result value (.var x)
    = if (⟨x.name, [], x.sort⟩ : FuncDecl) = f then apply d [] else some (.var x)
  := by
  simp only [Fold.result, rewriting, getFuncDecl, isConst, getArgs, Option.some.injEq, update]
  split <;> simp_all

theorem result_app (o : Op) (args : List Expr) :
  (rewriting d f).result value (.app o args)
    = (args.mapM value).bind fun args' =>
        if o = .func f then apply d args' else some (.app o args')
  := by
  simp only [Fold.result, rewriting]
  by_cases h : isConst (.app o args) = true ∧ getFuncDecl (.app o args) ≠ some f
  · have hargs : args = [] := List.isEmpty_iff.mp h.1
    have ho : o ≠ .func f := fun ho => h.2 ((getFuncDecl_app o args).mpr ho)
    rw [if_pos h, hargs]
    simp [ho, hargs ▸ h]
  · simp only [if_neg h, getFuncDecl_app, getArgs, update]

theorem decls_substitute {xs : List Var} {as : List Expr}
    (h : f ∈ decls (e.substitute (xs.map .var) as)) :
  f ∈ decls e ∨ ∃ a ∈ as, f ∈ decls a
  := by
  rw [Expr.substitute] at h
  induction e with
  | num n =>
      rw [Expr.replace] at h
      cases h' : ((xs.map Expr.var).zip as).reverse.lookup (.num n) with
      | none =>
          rw [h'] at h
          exact .inl h
      | some t =>
          obtain ⟨x, hx, -⟩ := eq_var_of_lookup h'
          cases hx
  | var x =>
      rw [Expr.replace, lookup_var] at h
      cases h' : (xs.zip as).reverse.lookup x with
      | none =>
          rw [h'] at h
          exact .inl h
      | some t =>
          rw [h'] at h
          have hmem := List.mem_reverse.mp (mem_of_lookup h')
          exact .inr ⟨t, (List.of_mem_zip hmem).2, h⟩
  | app o args ih =>
      rw [replace_app] at h
      cases h' : ((xs.map Expr.var).zip as).reverse.lookup (.app o args) with
      | none =>
          rw [h', Option.getD_none, mem_decls_app] at h
          rcases h with rfl | ⟨u, hu, hf⟩
          · exact .inl (mem_decls_app.mpr (.inl rfl))
          · obtain ⟨v, hv, rfl⟩ := List.mem_map.mp hu
            rcases ih v hv hf with hf | ha
            · exact .inl (mem_decls_app.mpr (.inr ⟨v, hv, hf⟩))
            · exact .inr ha
      | some t =>
          obtain ⟨x, hx, -⟩ := eq_var_of_lookup h'
          cases hx

/-- Rewritten arguments: their sorts, their values and their symbols. -/
theorem rewritten_args {args args' : List Expr} (h : List.Forall₂ (Rewritten d f) args args') :
  args'.map Expr.sort = args.map Expr.sort
    ∧ (∀ M, args'.map (Expr.eval M) = args.map (Expr.eval (interpret M f (d.eval M))))
    ∧ (f ∉ decls d.body → ∀ e ∈ args', f ∉ decls e)
  := by
  refine ⟨?_, ?_, ?_⟩
  · induction h with
    | nil => rfl
    | cons hhead _ ih => rw [List.map_cons, List.map_cons, hhead.sort, ih]
  · intro M
    induction h with
    | nil => rfl
    | cons hhead _ ih => rw [List.map_cons, List.map_cons, hhead.eval, ih]
  · intro hbody
    exact forall_of_forall₂ h fun _ _ h => h.decls hbody

theorem Rewritten.app {o : Op} (ho : o ≠ .func f) {args args' : List Expr}
    (h : List.Forall₂ (Rewritten d f) args args') :
  Rewritten d f (.app o args) (.app o args')
  := by
  obtain ⟨hsort, heval, hdecls⟩ := rewritten_args h
  constructor
  · rw [sort_app, sort_app, hsort]
  · intro M
    rw [eval_app, eval_app, heval]
    apply apply_congr_of_ne
    rintro g rfl
    have hne : g ≠ f := by
      rintro rfl
      apply ho rfl
    simp only [interpret, Function.update_of_ne hne]
  · intro hbody hf
    rcases mem_decls_app.mp hf with rfl | ⟨e, he, hf⟩
    · apply ho rfl
    · apply hdecls hbody e he hf

/-- A call becomes the definition with the rewritten arguments. -/
theorem Rewritten.call (hd : Defines f d) {args args' : List Expr} {s : Srt}
    (hs : (Expr.func f args).sort = some s) (h : List.Forall₂ (Rewritten d f) args args') :
  ∃ e, apply d args' = some e ∧ Rewritten d f (.func f args) e
  := by
  obtain ⟨hsort, heval, hdecls⟩ := rewritten_args h
  obtain ⟨rfl, hsorts⟩ := hd.sorts hs
  rw [← hsort] at hsorts
  use d.apply args'
  refine ⟨if_pos hsorts, ?_, ?_, ?_⟩
  · rw [hs]
    apply sort_substitute hsorts hd.range
  · intro M
    rw [Definition.apply, eval_substitute hsorts, heval, eval_app]
    simp only [Op.apply, interpret, Function.update_self, Definition.eval]
    rw [Value.cast_of_sort (sort_eval hd.range _)]
  · intro hbody hf
    rcases decls_substitute hf with hf | ⟨a, ha, hf⟩
    · apply hbody hf
    · apply hdecls hbody a ha hf

/-- A variable that is a function symbol without arguments is a call of it. -/
theorem Rewritten.var {x : Var}
    (h : Rewritten d ⟨x.name, [], x.sort⟩ (.func ⟨x.name, [], x.sort⟩ []) e) :
  Rewritten d ⟨x.name, [], x.sort⟩ (.var x) e
  := by
  constructor
  · rw [h.sort]
    rfl
  · intro M
    rw [h.eval, eval_app, eval_var]
    simp only [Op.apply, interpret, if_pos, Function.update_self, List.map_nil]
  · apply h.decls

/-- The results for well-sorted expressions. -/
theorem value_spec (hd : Defines f d) (h : Solves (rewriting d f) (fun _ => none) value) {s : Srt}
    (hs : e.sort = some s) :
  ∃ e', value e = some e' ∧ Rewritten d f e e'
  := by
  induction e generalizing s with
  | num n =>
      rw [h.result rfl, result_num]
      exact ⟨_, rfl, rfl, fun _ => rfl, fun _ => nofun⟩
  | var x =>
      rw [h.result rfl, result_var]
      split
      · rename_i hx
        subst hx
        have hdomain : d.params.map Var.sort = [] := hd.domain.symm
        have hs : (Expr.func ⟨x.name, [], x.sort⟩ []).sort = some x.sort := by
          rw [sort_func]
          exact ⟨rfl, rfl⟩
        obtain ⟨e', he', hrewritten⟩ := Rewritten.call hd hs .nil
        exact ⟨e', he', hrewritten.var⟩
      · rename_i hx
        refine ⟨_, rfl, rfl, ?_, ?_⟩
        · intro M
          rw [eval_var, eval_var, interpret]
          dsimp only
          split
          · rename_i hdomain
            have hne : x ≠ ⟨f.name, f.range⟩ := by
              rintro rfl
              apply hx
              rw [← hdomain]
            rw [Function.update_of_ne hne]
          · rfl
        · intro _ hf
          apply hx (List.mem_singleton.mp hf).symm
  | app o args ih =>
      rw [h.result rfl, result_app]
      obtain ⟨args', hargs', hall⟩ := exists_mapM fun e he => by
        obtain ⟨t, ht⟩ := exists_sort_of_app hs he
        apply ih e he ht
      rw [hargs', Option.bind_some]
      split
      · rename_i ho
        subst ho
        apply Rewritten.call hd hs hall
      · rename_i ho
        exact ⟨_, rfl, .app ho hall⟩

/-- Rewriting ends.  The value of the result is the value of the expression where the symbol is
interpreted by the function that the definition defines; the symbol stays where the definition
mentions it only. -/
theorem rewrite_eval (hd : Defines f d) {orig : Expr} {s : Srt} (hs : orig.sort = some s) :
  ∃ e, (∃ n, ∀ m ≥ n, rewrite d f m orig = some (some e)) ∧ e.sort = some s
    ∧ (∀ M, e.eval M = orig.eval (interpret M f (d.eval M)))
    ∧ (f ∉ decls d.body → f ∉ decls e)
  := by
  have hrank : ∀ t, ∀ u ∈ (rewriting d f).children t, sizeOf u < sizeOf t :=
    fun _ _ => sizeOf_lt_of_mem_children
  obtain ⟨value, hvalue⟩ := exists_solves sizeOf hrank fun _ => none
  obtain ⟨e, he, hrewritten⟩ := value_spec hd hvalue hs
  obtain ⟨n, hn⟩ := hvalue.run sizeOf hrank orig
  rw [← hvalue.result rfl, he] at hn
  exact ⟨e, ⟨n, hn⟩, hrewritten.sort.trans hs, hrewritten.eval, hrewritten.decls⟩

end Correctness

/-! ### A function applied to itself -/

/-- A function on the integers. -/
def step : FuncDecl := ⟨"step", [.int], .int⟩

/-- A definition that calls the function it is for. -/
def stepDef : Definition :=
  ⟨[⟨"x", .int⟩], .add [.func step [.var ⟨"y", .int⟩], .mul [.num 2, .var ⟨"x", .int⟩]]⟩

/-- The function applied to its own result for the variable `x`. -/
def twice : Expr := .func step [.func step [.var ⟨"x", .int⟩]]

theorem rewrite_eval_twice :
  ∃ e, (∃ n, ∀ m ≥ n, rewrite stepDef step m twice = some (some e)) ∧ e.sort = some .int
    ∧ (∀ M, e.eval M = twice.eval (interpret M step (stepDef.eval M)))
    ∧ (step ∉ decls stepDef.body → step ∉ decls e)
  := by
  have hd : Defines step stepDef := ⟨rfl, by decide⟩
  have hs : twice.sort = some .int := by decide
  apply rewrite_eval hd hs

example :
  rewrite stepDef step 6 twice
    = some (some (.add [.func step [.var ⟨"y", .int⟩],
        .mul [.num 2, .add [.func step [.var ⟨"y", .int⟩], .mul [.num 2, .var ⟨"x", .int⟩]]]]))
  := by decide

end Sygus.Rewrite
