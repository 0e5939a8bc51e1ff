import DryadSynth.Library.LIA.Calls
import DryadSynth.Reduce.Request

/-!
# Arguments that the others determine

Once the variables that occur in unused arguments only have been given values, the used arguments of
a call may determine the unused ones.  Then a solution can be read as a function of the used ones.
-/

namespace Sygus.Reduce

open LIA

/-- The calls have an argument with this number, and it is not used. -/
def Dropped (rs : List Request) (o : Op) (i : ℕ) : Prop :=
  ∃ r ∈ rs, o = .func r.func ∧ ∃ x, r.requestArgs[i]? = some x ∧ x ∉ r.requestUsedArgs

/-- The expression `a` occurs outside of the arguments that are not used. -/
inductive Occurs (rs : List Request) (a : Expr) : Expr → Prop
  | refl : Occurs rs a a
  | arg {o : Op} {args : List Expr} {i : ℕ} {b : Expr} :
      args[i]? = some b → ¬ Dropped rs o i → Occurs rs a b → Occurs rs a (.app o args)

/-- The variables that occur in unused arguments only have the values they have in `N`. -/
def Frozen (rs : List Request) (e : Expr) (N M : Model) : Prop :=
  ∀ x, ¬ Occurs rs (.var x) e → M.value x = N.value x

/-- The values of the arguments. -/
def actuals (rs : List Request) (F : Interp) (M : Model) (args : List Expr) : List Value :=
  args.map (Expr.eval (withFuncs M (rs.map Request.func) F))

/-- Whatever the functions are, the variables that occur in unused arguments only can be given
values for which in any two calls of one function, in whatever models, the used arguments determine
the other ones. -/
def Determined (rs : List Request) (e : Expr) : Prop :=
  ∀ F, ∃ N, ∀ r ∈ rs, ∀ args args', Occurs rs (.func r.func args) e →
    Occurs rs (.func r.func args') e → ∀ M M', Frozen rs e N M → Frozen rs e N M' →
      r.select (actuals rs F M args) = r.select (actuals rs F M' args') →
      actuals rs F M args = actuals rs F M' args'

section Determined

variable {rs : List Request} {r : Request} {a b c e : Expr} {F : Interp} {M N : Model}
variable {us vs ws : List Value}

theorem Occurs.trans (h : Occurs rs a b) (h' : Occurs rs b c) :
  Occurs rs a c
  := by
  induction h' with
  | refl => exact h
  | arg hb hkept _ ih => exact .arg hb hkept ih

theorem Occurs.mem_calls {f : FuncDecl} {args : List Expr} (h : Occurs rs (.func f args) e) :
  (f, args) ∈ e.calls
  := by
  induction h with
  | refl => exact mem_calls_app.mpr (.inl ⟨f, rfl, rfl⟩)
  | arg hb _ _ ih => exact mem_calls_app.mpr (.inr ⟨_, List.mem_of_getElem? hb, ih⟩)

/-- The value of a used argument. -/
theorem Request.WellFormed.value_select (h : r.WellFormed) (hfits : Fits r.requestArgs vs) {i : ℕ}
    {x : Var} (hx : r.requestArgs[i]? = some x) :
  vs[i]? = some ((Model.bind default r.requestArgs vs).value x)
  := by
  have hvalues := congrArg (fun l => l[i]?) (values_bind (M := default) h.nodup hfits)
  simp only [Model.values, List.getElem?_map, hx] at hvalues
  exact hvalues.symm

/-- Values that agree at the used arguments. -/
theorem Request.WellFormed.select_congr (h : r.WellFormed) (hvs : Fits r.requestArgs vs)
    (hws : Fits r.requestArgs ws)
    (heq : ∀ (i : ℕ) x, r.requestArgs[i]? = some x → x ∈ r.requestUsedArgs → vs[i]? = ws[i]?) :
  r.select vs = r.select ws
  := by
  apply List.map_congr_left
  intro x hx
  obtain ⟨i, hi⟩ := List.getElem?_of_mem (h.used hx)
  have hvalue := heq i x hi hx
  rw [h.value_select hvs hi, h.value_select hws hi] at hvalue
  exact Option.some.inj hvalue

/-- The arguments of some call have these values. -/
def Attained (rs : List Request) (F : Interp) (e : Expr) (N : Model) (r : Request)
    (us : List Value) : Prop :=
  ∃ args M, Occurs rs (.func r.func args) e ∧ Frozen rs e N M ∧ actuals rs F M args = us

/-- The function of the used arguments that `F` is at the arguments of the calls. -/
noncomputable def settle (rs : List Request) (F : Interp) (e : Expr) (N : Model) : Interp :=
  fun f vs =>
    match rs.find? fun r => r.func = f with
    | some r => F f (Classical.epsilon fun us => Attained rs F e N r us ∧ r.select us = r.select vs)
    | none => .int 0

theorem WellFormedAll.settle_func (hrs : WellFormedAll rs) (hr : r ∈ rs) (vs : List Value) :
  settle rs F e N r.func vs
    = F r.func (Classical.epsilon fun us => Attained rs F e N r us ∧ r.select us = r.select vs)
  := by
  have hfind : (rs.find? fun r' => r'.func = r.func) = some r := by
    apply hrs.find hr (by simp)
    intro r' hr'
    rw [of_decide_eq_true hr']
  rw [settle, hfind]

/-- At the arguments of the calls the function has not changed. -/
theorem WellFormedAll.settle_actuals (hrs : WellFormedAll rs) (hr : r ∈ rs)
    (hdetermined : ∀ us us', Attained rs F e N r us → Attained rs F e N r us' →
      r.select us = r.select us' → us = us')
    (hus : Attained rs F e N r us) (hselect : r.select us = r.select vs) :
  settle rs F e N r.func vs = F r.func us
  := by
  have hexists : ∃ us, Attained rs F e N r us ∧ r.select us = r.select vs := ⟨us, hus, hselect⟩
  obtain ⟨hattained, hselect'⟩ := Classical.epsilon_spec hexists
  rw [hrs.settle_func hr, hdetermined _ us hattained hus (hselect'.trans hselect.symm)]

theorem WellFormedAll.independent_settle (hrs : WellFormedAll rs) :
  Independent rs (settle rs F e N)
  := by
  intro r hr vs ws _ _ hselect
  rw [hrs.settle_func hr, hrs.settle_func hr, hselect]

open Classical in
/-- The model with the values of `N` for the variables that occur in unused arguments only. -/
noncomputable def freeze (rs : List Request) (e : Expr) (N M : Model) : Model :=
  { M with var := fun x => if Occurs rs (.var x) e then M.var x else N.var x }

theorem frozen_freeze :
  Frozen rs e N (freeze rs e N M)
  := by
  intro x hx
  simp only [Model.value, freeze, if_neg hx]

theorem WellFormedAll.not_dropped (hrs : WellFormedAll rs) (hr : r ∈ rs) {i : ℕ} {x : Var}
    (hx : r.requestArgs[i]? = some x) (hused : x ∈ r.requestUsedArgs) :
  ¬ Dropped rs (.func r.func) i
  := by
  rintro ⟨r', hr', hfunc, x', hx', hunused⟩
  obtain rfl : r = r' := by
    apply List.inj_on_of_nodup_map hrs.names hr hr'
    rw [Op.func.inj hfunc]
  rw [hx] at hx'
  apply hunused (Option.some.inj hx' ▸ hused)

/-- Outside of the unused arguments, expressions have the values they have for `F` when the
variables that occur in these only are frozen. -/
theorem WellFormedAll.eval_settle (hrs : WellFormedAll rs)
    (hdetermined : ∀ r ∈ rs, ∀ us us', Attained rs F e N r us → Attained rs F e N r us' →
      r.select us = r.select us' → us = us')
    (hb : Occurs rs b e) {s : Srt} (hs : b.sort = some s) :
  b.eval (withFuncs M (rs.map Request.func) (settle rs F e N))
    = b.eval (withFuncs (freeze rs e N M) (rs.map Request.func) F)
  := by
  induction b generalizing s with
  | num n => rfl
  | var x =>
      rw [eval_var, eval_var]
      simp only [withFuncs, freeze, if_pos hb]
  | app o args ih =>
      have hargs : ∀ i c, args[i]? = some c → ¬ Dropped rs o i →
          c.eval (withFuncs M (rs.map Request.func) (settle rs F e N))
            = c.eval (withFuncs (freeze rs e N M) (rs.map Request.func) F) := by
        intro i c hc hkept
        obtain ⟨t, ht⟩ := exists_sort_of_app hs (List.mem_of_getElem? hc)
        apply ih c (List.mem_of_getElem? hc) _ ht
        exact (Occurs.arg hc hkept .refl).trans hb
      rw [eval_app, eval_app]
      by_cases hcall : ∃ r ∈ rs, o = .func r.func
      · obtain ⟨r, hr, rfl⟩ := hcall
        have hwf := hrs.wellFormed r hr
        obtain ⟨-, hsorts⟩ := sort_func.mp hs
        rw [hwf.domain] at hsorts
        have hattained : Attained rs F e N r (actuals rs F (freeze rs e N M) args) :=
          ⟨args, freeze rs e N M, hb, frozen_freeze, rfl⟩
        have hselect : r.select (actuals rs F (freeze rs e N M) args)
            = r.select (args.map
              (Expr.eval (withFuncs M (rs.map Request.func) (settle rs F e N)))) := by
          apply hwf.select_congr (sort_evals hsorts) (sort_evals hsorts)
          intro i x hx hused
          simp only [List.getElem?_map]
          cases hc : args[i]? with
          | none => rfl
          | some c => rw [Option.map_some, Option.map_some,
              hargs i c hc (hrs.not_dropped hr hx hused)]
        have hfunc : r.func ∈ rs.map Request.func := List.mem_map_of_mem hr
        have hM : ∀ (M : Model) (H : Interp),
            (withFuncs M (rs.map Request.func) H).func r.func = H r.func := fun _ _ => if_pos hfunc
        rw [Op.apply, Op.apply, hM, hM,
          hrs.settle_actuals hr (hdetermined r hr) hattained hselect]
        rfl
      · have hkept : ∀ i, ¬ Dropped rs o i := by
          rintro i ⟨r, hr, ho, -⟩
          apply hcall ⟨r, hr, ho⟩
        have hvalues : args.map (Expr.eval (withFuncs M (rs.map Request.func) (settle rs F e N)))
            = args.map (Expr.eval (withFuncs (freeze rs e N M) (rs.map Request.func) F)) := by
          apply List.map_congr_left
          intro c hc
          obtain ⟨i, hi⟩ := List.getElem?_of_mem hc
          apply hargs i c hi (hkept i)
        rw [hvalues]
        apply apply_congr_of_ne
        rintro f rfl
        have hf : f ∉ rs.map Request.func := by
          intro hf
          obtain ⟨r, hr, rfl⟩ := List.mem_map.mp hf
          apply hcall ⟨r, hr, rfl⟩
        simp only [withFuncs, if_neg hf]
        rfl

/-- From a solution one is built that does not depend on the unused arguments. -/
theorem WellFormedAll.exists_independent (hrs : WellFormedAll rs) (hs : e.sort = some .bool)
    (he : Determined rs e) (hF : ∀ M, e.Holds (withFuncs M (rs.map Request.func) F)) :
  ∃ F', (∀ M, e.Holds (withFuncs M (rs.map Request.func) F')) ∧ Independent rs F'
  := by
  obtain ⟨N, hN⟩ := he F
  refine ⟨settle rs F e N, ?_, hrs.independent_settle⟩
  intro M
  have hdetermined : ∀ r ∈ rs, ∀ us us', Attained rs F e N r us → Attained rs F e N r us' →
      r.select us = r.select us' → us = us' := by
    rintro r hr us us' ⟨args, M, hargs, hM, rfl⟩ ⟨args', M', hargs', hM', rfl⟩
    apply hN r hr args args' hargs hargs' M M' hM hM'
  rw [Expr.Holds, hrs.eval_settle hdetermined .refl hs]
  apply hF

end Determined

/-! ### Fewer arguments -/

/-- Requests of which other arguments are used. -/
def withUsed (used : Request → List Var) (rs : List Request) : List Request :=
  rs.map fun r => { r with requestUsedArgs := used r }

section Fewer

variable {used : Request → List Var} {rs : List Request} {e : Expr} {F : Interp}

theorem func_withUsed (used : Request → List Var) (rs : List Request) :
  (withUsed used rs).map Request.func = rs.map Request.func
  := by
  rw [withUsed, List.map_map]
  rfl

theorem WellFormedAll.withUsed (hrs : WellFormedAll rs)
    (hused : ∀ r ∈ rs, used r ⊆ r.requestUsedArgs) :
  WellFormedAll (withUsed used rs)
  := by
  constructor
  · intro r' hr'
    obtain ⟨r, hr, rfl⟩ := List.mem_map.mp hr'
    have hwf := hrs.wellFormed r hr
    exact ⟨hwf.domain, hwf.nodup, List.Subset.trans (hused r hr) hwf.used⟩
  · have hnames : (Reduce.withUsed used rs).map (fun r => r.func.name)
        = rs.map fun r => r.func.name := by
      rw [Reduce.withUsed, List.map_map]
      rfl
    rw [hnames]
    exact hrs.names

/-- What depends on fewer arguments only depends on the others no more. -/
theorem Independent.of_withUsed (hused : ∀ r ∈ rs, used r ⊆ r.requestUsedArgs)
    (h : Independent (withUsed used rs) F) :
  Independent rs F
  := by
  intro r hr vs ws hvs hws hselect
  apply h { r with requestUsedArgs := used r } (List.mem_map.mpr ⟨r, hr, rfl⟩) vs ws hvs hws
  apply List.map_congr_left
  intro x hx
  apply List.map_inj_left.mp hselect x (hused r hr hx)

end Fewer

end Sygus.Reduce
