import DryadSynth.Library.LIA.Subst

/-!
# Closed definitions

The values of a list of variables in a model, and definitions whose body mentions nothing but the
parameters.  Such a definition of a formula is a relation on lists of values.
-/

namespace LIA

/-- The value of a variable. -/
def Model.value (M : Model) (x : Var) : Value := (M.var x).cast x.sort

def Model.values (M : Model) (xs : List Var) : List Value := xs.map M.value

/-- The values have the sorts of the variables. -/
def Fits (xs : List Var) (vs : List Value) : Prop := vs.map Value.sort = xs.map Var.sort

instance : Inhabited Model := ⟨⟨fun _ => .int 0, fun _ _ => .int 0⟩⟩

section Values

variable {M M' : Model} {xs ys : List Var} {vs ws : List Value}

/-- The value of an expression depends on the values of its variables only. -/
theorem eval_congr_value {e : Expr} (hvar : ∀ x ∈ e.vars, M.value x = M'.value x)
    (hfunc : ∀ f ∈ e.funcs, M.func f = M'.func f) :
  e.eval M = e.eval M'
  := by
  induction e with
  | num n => rfl
  | var x => exact hvar x (by simp)
  | app o args ih =>
      have hargs : args.map (Expr.eval M) = args.map (Expr.eval M') := by
        apply List.map_congr_left
        intro e he
        apply ih e he
        · intro x hx
          apply hvar x (mem_vars_app.mpr ⟨e, he, hx⟩)
        · intro f hf
          apply hfunc f (mem_funcs_app.mpr (Or.inr ⟨e, he, hf⟩))
      rw [eval_app, eval_app, hargs]
      apply apply_congr_of_ne
      intro f hf
      apply hfunc f (mem_funcs_app.mpr (Or.inl hf))

/-- The values of well-sorted arguments have their sorts. -/
theorem sort_evals {args : List Expr} {ss : List Srt} (h : args.map Expr.sort = ss.map some) :
  (args.map (Expr.eval M)).map Value.sort = ss
  := by
  induction args generalizing ss with
  | nil =>
      cases ss with
      | nil => rfl
      | cons s ss => cases h
  | cons e args ih =>
      cases ss with
      | nil => cases h
      | cons s ss =>
          rw [List.map_cons, List.map_cons, List.cons.injEq] at h
          rw [List.map_cons, List.map_cons, sort_eval h.1, ih h.2]

/-- The value of a well-sorted expression depends on the functions at fitting arguments only. -/
theorem eval_congr_func {e : Expr} {s : Srt} (hs : e.sort = some s)
    (hvar : ∀ x ∈ e.vars, M.value x = M'.value x)
    (hfunc : ∀ f ∈ e.funcs, ∀ vs : List Value, vs.map Value.sort = f.domain →
      (M.func f vs).cast f.range = (M'.func f vs).cast f.range) :
  e.eval M = e.eval M'
  := by
  induction e generalizing s with
  | num n => rfl
  | var x => exact hvar x (by simp)
  | app o args ih =>
      have hargs : args.map (Expr.eval M) = args.map (Expr.eval M') := by
        apply List.map_congr_left
        intro e he
        obtain ⟨t, ht⟩ := exists_sort_of_app hs he
        apply ih e he ht
        · intro x hx
          apply hvar x (mem_vars_app.mpr ⟨e, he, hx⟩)
        · intro f hf
          apply hfunc f (mem_funcs_app.mpr (Or.inr ⟨e, he, hf⟩))
      rw [eval_app, eval_app, hargs]
      by_cases ho : ∃ f, o = .func f
      · obtain ⟨f, rfl⟩ := ho
        apply hfunc f (mem_funcs_app.mpr (Or.inl rfl))
        apply sort_evals (sort_func.mp hs).2
      · apply apply_congr_of_ne
        intro f hf
        apply absurd ⟨f, hf⟩ ho

theorem eval_map_var (xs : List Var) :
  (xs.map Expr.var).map (Expr.eval M) = M.values xs
  := by
  rw [List.map_map]
  rfl

theorem holds_var_eq_num {x : Var} (hx : x.sort = .int) (n : ℤ) :
  (Expr.eq (.var x) (.num n)).Holds M ↔ (M.value x).toInt = n
  := by
  rw [holds_eq_of_int (by rw [sort_var, hx]) rfl]
  rfl

theorem Fits.length (h : Fits xs vs) :
  vs.length = xs.length
  := by simpa using congrArg List.length h

theorem fits_values (M : Model) (xs : List Var) :
  Fits xs (M.values xs)
  := by
  rw [Fits, Model.values, List.map_map]
  apply List.map_congr_left
  intro x _
  apply Value.sort_cast _ _

theorem value_bind_of_not_mem {x : Var} (hx : x ∉ xs) :
  (M.bind xs vs).value x = M.value x
  := by rw [Model.value, var_bind_of_not_mem hx, Model.value]

/-- Variables that are bound have the values they are bound to. -/
theorem values_bind (hnodup : xs.Nodup) (h : Fits xs vs) :
  (M.bind xs vs).values xs = vs
  := by
  apply List.ext_getElem
  · simp [Model.values, h.length]
  · intro i hi hi'
    have hi'' : i < xs.length := by simpa [Model.values] using hi
    have hvar : (M.bind xs vs).var xs[i] = vs[i] := by
      apply var_bind_of_mem hnodup h.length.ge
      rw [List.mem_iff_getElem]
      exact ⟨i, by simp [hi'', hi'], by simp⟩
    have hsort : vs[i].sort = xs[i].sort := by
      have := List.getElem_of_eq h (i := i) (by simpa using hi')
      simpa using this
    simp only [Model.values, List.getElem_map, Model.value, hvar]
    apply Value.cast_of_sort hsort

/-- A bound variable has its value whatever the model was before. -/
theorem value_bind (hnodup : xs.Nodup)
    (hfits : Fits xs vs) {x : Var} (hx : x ∈ xs) :
  (M.bind xs vs).value x = (M'.bind xs vs).value x
  := by
  have h : (M.bind xs vs).values xs = (M'.bind xs vs).values xs := by
    rw [values_bind hnodup hfits, values_bind hnodup hfits]
  apply List.map_inj_left.mp h x hx

end Values

namespace Definition

variable {d : Definition} {M : Model} {vs : List Value}

/-- The body mentions the parameters only, and no function symbols. -/
structure Closed (d : Definition) : Prop where
  vars : ∀ x ∈ d.body.vars, x ∈ d.params
  funcs : d.body.funcs = []

/-- Wherever the body mentions a parameter, the list has the same variable in its place. -/
def NamedAs (d : Definition) (xs : List Var) : Prop := ∀ x ∈ d.body.vars, (x, x) ∈ d.params.zip xs

instance decidableNamedAs (d : Definition) (xs : List Var) : Decidable (d.NamedAs xs) :=
  inferInstanceAs (Decidable (∀ x ∈ d.body.vars, (x, x) ∈ d.params.zip xs))

/-- The relation that a formula defines. -/
def Holds (d : Definition) (vs : List Value) : Prop := (d.eval default vs).toBool = true

/-- The body of a closed definition has its value at the values of the parameters. -/
theorem Closed.eval_body (h : d.Closed) (hnodup : d.params.Nodup) (M : Model) :
  d.body.eval M = d.eval default (M.values d.params)
  := by
  apply eval_congr_value
  · intro x hx
    have hvalues := values_bind (M := default) hnodup (fits_values M d.params)
    apply (List.map_inj_left.mp hvalues x (h.vars x hx)).symm
  · rw [h.funcs]
    nofun

theorem Closed.holds_body (h : d.Closed) (hnodup : d.params.Nodup) (M : Model) :
  d.body.Holds M ↔ d.Holds (M.values d.params)
  := by rw [Expr.Holds, h.eval_body hnodup, Holds]

/-- The body can be read with the variables of a list for the parameters. -/
theorem Closed.holds_body_of_namedAs {xs : List Var} (h : d.Closed) (hnodup : d.params.Nodup)
    (hsort : d.params.map Var.sort = xs.map Var.sort) (hxs : d.NamedAs xs) (M : Model) :
  d.body.Holds M ↔ d.Holds (M.values xs)
  := by
  have hfits : Fits d.params (M.values xs) := (fits_values M xs).trans hsort.symm
  rw [Expr.Holds, Holds]
  have heval : d.body.eval M = d.eval default (M.values xs) := by
    apply eval_congr_value
    · intro x hx
      obtain ⟨i, hi, hget⟩ := List.mem_iff_getElem.mp (hxs x hx)
      rw [List.getElem_zip, Prod.mk.injEq] at hget
      have hi' : i < d.params.length ∧ i < xs.length := by simpa using hi
      have hvalues := congrArg (·[i]?) (values_bind (M := default) hnodup hfits)
      simp only [Model.values, List.getElem?_map, List.getElem?_eq_getElem hi'.1,
        List.getElem?_eq_getElem hi'.2, hget.1, hget.2, Option.map_some,
        Option.some.injEq] at hvalues
      apply hvalues.symm
    · rw [h.funcs]
      intro f hf
      cases hf
  rw [heval]

/-- The base model does not matter to a closed definition. -/
theorem Closed.eval_eq (h : d.Closed) (hnodup : d.params.Nodup) (hfits : Fits d.params vs) :
  d.eval M vs = d.eval default vs
  := by rw [Definition.eval, h.eval_body hnodup, values_bind hnodup hfits]

end Definition

end LIA
