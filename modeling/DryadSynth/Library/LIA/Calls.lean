import DryadSynth.Library.LIA.Closed

/-!
# Calls

The calls of function symbols in an expression, with their arguments.  The value of an expression
depends on the functions at the arguments of its calls only.
-/

namespace LIA

mutual

/-- The calls in an expression. -/
def Expr.calls : Expr → List (FuncDecl × List Expr)
  | .num _ => []
  | .var _ => []
  | .app (.func f) args => (f, args) :: Expr.callsAll args
  | .app _ args => Expr.callsAll args

/-- The calls in a list of expressions. -/
def Expr.callsAll : List Expr → List (FuncDecl × List Expr)
  | [] => []
  | e :: l => e.calls ++ Expr.callsAll l

end

/-- The model in which each function has one value. -/
def Model.const (M : Model) (v : FuncDecl → ℤ) : Model := { M with func := fun f _ => .int (v f) }

/-- The values of functions that are called with the same arguments everywhere. -/
def Model.valuesAt (M : Model) (as : FuncDecl → List Expr) (f : FuncDecl) : ℤ :=
  (M.func f ((as f).map (Expr.eval M))).toInt

section Calls

variable {M N : Model} {c : FuncDecl × List Expr} {e : Expr} {v w : FuncDecl → ℤ}
  {as : FuncDecl → List Expr}

@[simp]
theorem calls_num (n : ℤ) :
  (Expr.num n).calls = []
  := rfl

@[simp]
theorem calls_var (x : Var) :
  (Expr.var x).calls = []
  := rfl

theorem mem_callsAll {args : List Expr} :
  c ∈ Expr.callsAll args ↔ ∃ e ∈ args, c ∈ e.calls
  := by
  induction args with
  | nil => simp [Expr.callsAll]
  | cons e l ih => simp [Expr.callsAll, ih]

theorem mem_calls_app {o : Op} {args : List Expr} :
  c ∈ (Expr.app o args).calls
    ↔ (∃ f, o = .func f ∧ c = (f, args)) ∨ ∃ e ∈ args, c ∈ e.calls
  := by
  rw [← mem_callsAll]
  cases o with
  | func g => simp [Expr.calls]
  | _ => simp [Expr.calls]

theorem exists_mem_calls_app {o : Op} {args : List Expr} {P : FuncDecl × List Expr → Prop} :
  (∃ c ∈ (Expr.app o args).calls, P c)
    ↔ (∃ f, o = .func f ∧ P (f, args)) ∨ ∃ e ∈ args, ∃ c ∈ e.calls, P c
  := by
  simp only [mem_calls_app]
  constructor
  · rintro ⟨c, ⟨f, rfl, rfl⟩ | ⟨e, he, hc⟩, hP⟩
    · exact .inl ⟨f, rfl, hP⟩
    · exact .inr ⟨e, he, c, hc, hP⟩
  · rintro (⟨f, rfl, hP⟩ | ⟨e, he, c, hc, hP⟩)
    · exact ⟨_, .inl ⟨f, rfl, rfl⟩, hP⟩
    · exact ⟨c, .inr ⟨e, he, hc⟩, hP⟩

/-- The value of an expression depends on the functions at the arguments of the calls only. -/
theorem eval_congr_calls (hvar : ∀ x ∈ e.vars, M.value x = N.value x)
    (hcalls : ∀ c ∈ e.calls, (M.func c.1 (c.2.map (Expr.eval M))).cast c.1.range
      = (N.func c.1 (c.2.map (Expr.eval M))).cast c.1.range) :
  e.eval M = e.eval N
  := by
  induction e with
  | num n => rfl
  | var x => exact hvar x (by simp)
  | app o args ih =>
      have hargs : args.map (Expr.eval M) = args.map (Expr.eval N) := by
        apply List.map_congr_left
        intro e he
        apply ih e he
        · intro x hx
          apply hvar x (mem_vars_app.mpr ⟨e, he, hx⟩)
        · intro c hc
          apply hcalls c (mem_calls_app.mpr (Or.inr ⟨e, he, hc⟩))
      rw [eval_app, eval_app, ← hargs]
      by_cases ho : ∃ f, o = .func f
      · obtain ⟨f, rfl⟩ := ho
        apply hcalls (f, args) (mem_calls_app.mpr (Or.inl ⟨f, rfl, rfl⟩))
      · apply apply_congr_of_ne
        intro f hf
        apply absurd ⟨f, hf⟩ ho

@[simp]
theorem value_const (x : Var) :
  (M.const v).value x = M.value x
  := rfl

/-- Calls of functions that have one value. -/
theorem eval_func_const (hf : c.1.range = .int) (args : List Expr) :
  (Expr.func c.1 args).eval (M.const v) = .int (v c.1)
  := by
  rw [eval_app, Op.apply, hf]
  rfl

theorem eval_const_congr (h : ∀ c ∈ e.calls, v c.1 = w c.1) :
  e.eval (M.const v) = e.eval (M.const w)
  := by
  apply eval_congr_calls
  · intro x _
    rfl
  · intro c hc
    simp only [Model.const, h c hc]

/-- Functions that are called with the same arguments everywhere can be taken for constants. -/
theorem eval_const_valuesAt (h : ∀ c ∈ e.calls, c.1.range = .int ∧ c.2 = as c.1) :
  e.eval M = e.eval (M.const (M.valuesAt as))
  := by
  apply eval_congr_calls
  · intro x _
    rfl
  · intro c hc
    obtain ⟨hrange, hargs⟩ := h c hc
    rw [hrange, hargs]
    rfl

theorem sort_of_mem_calls {s : Srt} (hs : e.sort = some s) (hc : c ∈ e.calls) :
  c.2.map Expr.sort = c.1.domain.map some
  := by
  induction e generalizing s with
  | num n => cases hc
  | var x => cases hc
  | app o args ih =>
      rcases mem_calls_app.mp hc with ⟨f, rfl, rfl⟩ | ⟨e, he, hc⟩
      · exact (sort_func.mp hs).2
      · obtain ⟨t, ht⟩ := exists_sort_of_app hs he
        apply ih e he ht hc

theorem const_const (M : Model) (v w : FuncDecl → ℤ) :
  (M.const v).const w = M.const w
  := rfl

theorem eval_const_of_calls_nil (h : e.calls = []) :
  e.eval (M.const v) = e.eval M
  := by
  apply eval_congr_calls
  · intro x _
    rfl
  · intro c hc
    rw [h] at hc
    cases hc

end Calls

end LIA
