import DryadSynth.Library.LIA.Calls
import DryadSynth.Library.LIA.Closed
import DryadSynth.Library.LIA.Every
import DryadSynth.Library.Lists

/-!
# Several definitions

Definitions of several functions are expanded one after the other.  If each mentions no function
but its own, the calls that are left belong to the model from before, so all functions are defined
at once.  Expanding does not leave a connective without arguments where there was none.
-/

namespace LIA

/-- The model in which the functions are those that the definitions define, in terms of the
functions of the model. -/
def Model.defines (M : Model) : List (FuncDecl × Definition) → Model
  | [] => M
  | p :: l => (M.defines l).withFunc p.1 (p.2.eval M)

/-- Expand the definitions one after the other. -/
def Expr.expandEach (l : List (FuncDecl × Definition)) (e : Expr) : Expr :=
  l.foldl (fun e p => e.expand p.1 p.2) e

/-- The definitions are for different functions of their sorts, and each mentions no function but
its own. -/
structure Own (l : List (FuncDecl × Definition)) : Prop where
  defines : ∀ p ∈ l, Defines p.1 p.2
  funcs : ∀ p ∈ l, ∀ g ∈ p.2.body.funcs, g = p.1
  nodup : (l.map Prod.fst).Nodup

section Each

variable {M : Model} {p : FuncDecl × Definition} {l : List (FuncDecl × Definition)} {e : Expr}
  {s : Srt}

theorem Own.tail (h : Own (p :: l)) :
  Own l
  where
  defines q hq := h.defines q (List.mem_cons_of_mem p hq)
  funcs q hq := h.funcs q (List.mem_cons_of_mem p hq)
  nodup := (List.nodup_cons.mp h.nodup).2

theorem var_defines (l : List (FuncDecl × Definition)) :
  (M.defines l).var = M.var
  := by
  induction l with
  | nil => rfl
  | cons p l ih => exact ih

theorem const_defines (l : List (FuncDecl × Definition)) (v : FuncDecl → ℤ) :
  (M.defines l).const v = M.const v
  := by rw [Model.const, Model.const, var_defines]

theorem func_defines_of_not_mem {f : FuncDecl} (hf : f ∉ l.map Prod.fst) :
  (M.defines l).func f = M.func f
  := by
  induction l with
  | nil => rfl
  | cons p l ih =>
      rw [List.map_cons, List.mem_cons, not_or] at hf
      rw [Model.defines, Model.withFunc]
      dsimp only
      rw [Function.update_of_ne hf.1]
      apply ih hf.2

theorem func_defines_of_mem (h : (l.map Prod.fst).Nodup) (hp : p ∈ l) :
  (M.defines l).func p.1 = p.2.eval M
  := by
  induction l with
  | nil => cases hp
  | cons q l ih =>
      rw [List.map_cons, List.nodup_cons] at h
      rw [Model.defines, Model.withFunc]
      dsimp only
      rcases List.mem_cons.mp hp with rfl | hp
      · rw [Function.update_self]
      · have hne : p.1 ≠ q.1 := by
          intro heq
          apply h.1
          rw [← heq]
          apply List.mem_map_of_mem hp
        rw [Function.update_of_ne hne]
        apply ih h.2 hp

theorem Own.sort_expandEach (h : Own l) (hs : e.sort = some s) :
  (e.expandEach l).sort = some s
  := by
  induction l generalizing e with
  | nil => exact hs
  | cons p l ih =>
      apply ih h.tail
      apply (h.defines p List.mem_cons_self).sort_expand hs

/-- A definition that mentions its own function only. -/
theorem Own.eval_head (h : Own (p :: l)) (vs : List Value) :
  p.2.eval (M.defines l) vs = p.2.eval M vs
  := by
  apply eval_congr
  · intro x _
    simp only [Model.bind, var_defines]
  · intro g hg
    obtain rfl := h.funcs p List.mem_cons_self g hg
    apply func_defines_of_not_mem (List.nodup_cons.mp h.nodup).1

/-- Expanding the definitions is interpreting the functions by what they define. -/
theorem Own.eval_expandEach (h : Own l) (hs : e.sort = some s) :
  (e.expandEach l).eval M = e.eval (M.defines l)
  := by
  induction l generalizing e with
  | nil => rfl
  | cons p l ih =>
      have hp := h.defines p List.mem_cons_self
      have heval : p.2.eval (M.defines l) = p.2.eval M := funext h.eval_head
      rw [Expr.expandEach, List.foldl_cons]
      apply (ih h.tail (hp.sort_expand hs)).trans
      rw [hp.eval_expand hs, Model.define, heval]
      rfl

theorem Own.holds_expandEach (h : Own l) (hs : e.sort = some s) :
  (e.expandEach l).Holds M ↔ e.Holds (M.defines l)
  := by
  rw [Expr.Holds, h.eval_expandEach hs]
  rfl

end Each

/-! ### Connectives with arguments -/

/-- Every conjunction and every disjunction has arguments. -/
def Expr.NonEmpty (e : Expr) : Prop := e.every fun o l => o = .and ∨ o = .or → l ≠ []

section NonEmpty

variable {e : Expr} {o : Op} {l : List Expr}

theorem nonEmpty_app :
  (Expr.app o l).NonEmpty ↔ (o = .and ∨ o = .or → l ≠ []) ∧ ∀ e ∈ l, e.NonEmpty
  := every_app

theorem nonEmpty_map {f : Expr → Expr} (h : (Expr.app o l).NonEmpty)
    (hf : ∀ e ∈ l, (f e).NonEmpty) :
  (Expr.app o (l.map f)).NonEmpty
  := by
  rw [nonEmpty_app] at h ⊢
  constructor
  · intro ho hnil
    apply h.1 ho (List.map_eq_nil_iff.mp hnil)
  · intro e he
    obtain ⟨e', he', rfl⟩ := List.mem_map.mp he
    apply hf e' he'

theorem nonEmpty_replace {σ : Expr → Option Expr} (hσ : ∀ t t', σ t = some t' → t'.NonEmpty)
    (h : e.NonEmpty) :
  (e.replace σ).NonEmpty
  := by
  induction e with
  | num n =>
      rw [Expr.replace]
      cases h' : σ (.num n) with
      | none => exact h
      | some t' => exact hσ _ t' h'
  | var x =>
      rw [Expr.replace]
      cases h' : σ (.var x) with
      | none => exact h
      | some t' => exact hσ _ t' h'
  | app o args ih =>
      rw [replace_app]
      cases h' : σ (.app o args) with
      | none =>
          apply nonEmpty_map h
          intro e he
          apply ih e he ((nonEmpty_app.mp h).2 e he)
      | some t' => exact hσ _ t' h'

theorem nonEmpty_apply {d : Definition} {args : List Expr} (hd : d.body.NonEmpty)
    (hargs : ∀ a ∈ args, a.NonEmpty) :
  (d.apply args).NonEmpty
  := by
  apply nonEmpty_replace _ hd
  intro t t' ht
  have hmem := List.mem_reverse.mp (mem_of_lookup ht)
  apply hargs t' (List.of_mem_zip hmem).2

theorem nonEmpty_expand {f : FuncDecl} {d : Definition} (hd : d.body.NonEmpty) (h : e.NonEmpty) :
  (e.expand f d).NonEmpty
  := by
  induction e with
  | num n => exact h
  | var x => exact h
  | app o args ih =>
      have hargs : ∀ e ∈ args, (e.expand f d).NonEmpty := by
        intro e he
        apply ih e he ((nonEmpty_app.mp h).2 e he)
      rw [expand_app]
      split
      · apply nonEmpty_apply hd
        intro a ha
        obtain ⟨e, he, rfl⟩ := List.mem_map.mp ha
        apply hargs e he
      · apply nonEmpty_map h hargs

/-- A connective without arguments as a constant. -/
def fillApp (o : Op) (l : List Expr) : Expr :=
  if l = [] ∧ o = .and then .tru
  else if l = [] ∧ o = .or then .fls
  else .app o l

mutual

/-- Replace the connectives without arguments by constants. -/
def Expr.fill : Expr → Expr
  | .num n => .num n
  | .var x => .var x
  | .app o args => fillApp o (Expr.fillAll args)

def Expr.fillAll : List Expr → List Expr
  | [] => []
  | e :: l => e.fill :: Expr.fillAll l

end

theorem fillAll_eq (l : List Expr) :
  Expr.fillAll l = l.map Expr.fill
  := by
  induction l with
  | nil => rfl
  | cons e l ih => rw [Expr.fillAll, ih, List.map_cons]

theorem nonEmpty_fillApp (h : ∀ e ∈ l, e.NonEmpty) :
  (fillApp o l).NonEmpty
  := by
  unfold fillApp
  split
  · simp [nonEmpty_app]
  · split
    · simp [nonEmpty_app]
    · next hand hor =>
        apply nonEmpty_app.mpr ⟨_, h⟩
        rintro (rfl | rfl) hl
        · apply hand ⟨hl, rfl⟩
        · apply hor ⟨hl, rfl⟩

theorem fillApp_preserves (o : Op) (l : List Expr) :
  Preserves (.app o l) (fillApp o l)
  := by
  unfold fillApp
  split
  · next h =>
      obtain ⟨rfl, rfl⟩ := h
      apply Preserves.of_holds
      simp
  · split
    · next h =>
        obtain ⟨rfl, rfl⟩ := h
        apply Preserves.of_holds
        simp
    · apply Preserves.refl

theorem nonEmpty_fill (e : Expr) :
  e.fill.NonEmpty
  := by
  induction e with
  | num n => exact trivial
  | var x => exact trivial
  | app o args ih =>
      rw [Expr.fill, fillAll_eq]
      apply nonEmpty_fillApp
      intro e he
      obtain ⟨e', he', rfl⟩ := List.mem_map.mp he
      apply ih e' he'

theorem fill_preserves (e : Expr) :
  Preserves e e.fill
  := by
  induction e with
  | num n => exact Preserves.refl _
  | var x => exact Preserves.refl _
  | app o args ih =>
      rw [Expr.fill, fillAll_eq]
      apply (Preserves.map o ih).trans (fillApp_preserves o _)

end NonEmpty

/-! ### The variables of an expanded call -/

theorem mem_vars_replace {σ : Expr → Option Expr} {e : Expr} {y : Var}
    (hy : y ∈ (e.replace σ).vars) :
  (y ∈ e.vars ∧ σ (.var y) = none) ∨ ∃ t t', σ t = some t' ∧ y ∈ t'.vars
  := by
  induction e with
  | num n =>
      rw [Expr.replace] at hy
      cases h : σ (.num n) with
      | none =>
          rw [h] at hy
          cases hy
      | some t' =>
          rw [h] at hy
          exact .inr ⟨_, t', h, hy⟩
  | var x =>
      rw [Expr.replace] at hy
      cases h : σ (.var x) with
      | none =>
          rw [h, Option.getD_none, vars_var, List.mem_singleton] at hy
          subst hy
          exact .inl ⟨by simp, h⟩
      | some t' =>
          rw [h] at hy
          exact .inr ⟨_, t', h, hy⟩
  | app o args ih =>
      rw [replace_app] at hy
      cases h : σ (.app o args) with
      | none =>
          rw [h, Option.getD_none, mem_vars_app] at hy
          obtain ⟨e', he', hy⟩ := hy
          obtain ⟨e, he, rfl⟩ := List.mem_map.mp he'
          rcases ih e he hy with ⟨hy, hnone⟩ | hy
          · exact .inl ⟨mem_vars_app.mpr ⟨e, he, hy⟩, hnone⟩
          · exact .inr hy
      | some t' =>
          rw [h] at hy
          exact .inr ⟨_, t', h, hy⟩

theorem mem_vars_apply {d : Definition} {args : List Expr} {y : Var}
    (hy : y ∈ (d.apply args).vars) :
  y ∈ d.body.vars ∨ ∃ a ∈ args, y ∈ a.vars
  := by
  rcases mem_vars_replace hy with ⟨hy, -⟩ | ⟨t, t', ht, hy⟩
  · exact .inl hy
  · have hmem := List.mem_reverse.mp (mem_of_lookup ht)
    exact .inr ⟨t', (List.of_mem_zip hmem).2, hy⟩

theorem mem_of_lookup_eq_none {α β : Type} [DecidableEq α] {l : List (α × β)} {a : α}
    (h : l.reverse.lookup a = none) :
  a ∉ l.map Prod.fst
  := by
  rw [List.lookup_eq_none_iff] at h
  intro ha
  obtain ⟨p, hp, rfl⟩ := List.mem_map.mp ha
  simpa using h p (List.mem_reverse.mpr hp)

/-- With arguments for all parameters, the parameters are gone. -/
theorem mem_vars_apply_of_length {d : Definition} {args : List Expr} {y : Var}
    (hlength : d.params.length = args.length) (hy : y ∈ (d.apply args).vars) :
  (y ∈ d.body.vars ∧ y ∉ d.params) ∨ ∃ a ∈ args, y ∈ a.vars
  := by
  rcases mem_vars_replace hy with ⟨hy, hnone⟩ | ⟨t, t', ht, hy⟩
  · rw [lookup_var] at hnone
    have hnot := mem_of_lookup_eq_none hnone
    rw [List.map_fst_zip hlength.le] at hnot
    exact .inl ⟨hy, hnot⟩
  · have hmem := List.mem_reverse.mp (mem_of_lookup ht)
    exact .inr ⟨t', (List.of_mem_zip hmem).2, hy⟩

theorem sort_substitute_of_sorts {src dst : List Expr} (h : src.map Expr.sort = dst.map Expr.sort)
    {e : Expr} {s : Srt} (hs : e.sort = some s) :
  (e.substitute src dst).sort = some s
  := by
  apply sort_replace _ hs
  intro t t' s' ht hs'
  rw [← Lists.eq_of_mem_zip h (List.mem_reverse.mp (mem_of_lookup ht)), hs']

/-- With the parameters put in for arguments, an expression defines a function that has its value
at the arguments. -/
theorem eval_definition_substitute {M : Model} {xs : List Var} {as : List Expr} {e : Expr}
    (hnodup : xs.Nodup) (hsorts : as.map Expr.sort = xs.map fun x => some x.sort)
    (hcapture : ∀ x ∈ e.vars, x ∈ xs → .var x ∈ as) :
  (Definition.mk xs (e.substitute as (xs.map .var))).eval M (as.map (Expr.eval M)) = e.eval M
  := by
  have hmap : as.map Expr.sort = (xs.map Var.sort).map some := by
    rw [hsorts, List.map_map]
    rfl
  have hfits : Fits xs (as.map (Expr.eval M)) := sort_evals hmap
  have hvalues := values_bind (M := M) hnodup hfits
  rw [← eval_map_var] at hvalues
  have hlength : as.length = (xs.map Expr.var).length := by
    simpa using congrArg List.length hsorts
  have hfunc : (M.bind xs (as.map (Expr.eval M))).func = M.func := rfl
  refine eval_replace_on (X := fun x => x ∈ e.vars) ?_ ?_ hfunc fun _ => id
  · intro t t' h _
    have hmem := List.mem_reverse.mp (mem_of_lookup h)
    exact (Lists.eq_of_mem_zip hvalues.symm hmem).symm
  · intro x hx h
    apply value_bind_of_not_mem
    intro hformal
    apply mem_of_lookup_eq_none h
    rw [List.map_fst_zip hlength.le]
    apply hcapture x hx hformal

/-! ### The functions of the calls -/

theorem funcs_eq_map_calls (e : Expr) :
  e.funcs = e.calls.map Prod.fst
  := by
  induction e with
  | num n => rfl
  | var x => rfl
  | app o args ih =>
      have hall : Expr.funcsAll args = (Expr.callsAll args).map Prod.fst := by
        induction args with
        | nil => rfl
        | cons e l ihl =>
            rw [Expr.funcsAll, Expr.callsAll, List.map_append, ih e List.mem_cons_self,
              ihl fun e' he' => ih e' (List.mem_cons_of_mem e he')]
      cases o with
      | func f => rw [Expr.funcs, Expr.calls, List.map_cons, hall]
      | _ => apply hall

end LIA
