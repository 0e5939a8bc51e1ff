import DryadSynth.Library.LIA.Sort

/-!
# Conditions on all applications in an expression

A condition on operators and their arguments, required of every application in an expression; and
applications of an operator to more than two arguments as nested binary ones.
-/

namespace LIA

namespace Expr

mutual

/-- Every application in the expression satisfies `P`. -/
def every (P : Op → List Expr → Prop) : Expr → Prop
  | num _ => True
  | var _ => True
  | app o args => P o args ∧ everyAll P args

def everyAll (P : Op → List Expr → Prop) : List Expr → Prop
  | [] => True
  | e :: l => e.every P ∧ everyAll P l

end

end Expr

section Every

variable {P Q : Op → List Expr → Prop} {o : Op} {a b c e : Expr} {l : List Expr}

theorem everyAll_iff (l : List Expr) :
  Expr.everyAll P l ↔ ∀ e ∈ l, e.every P
  := by
  induction l with
  | nil => simp [Expr.everyAll]
  | cons e l ih => rw [Expr.everyAll, ih, List.forall_mem_cons]

@[simp]
theorem every_num (n : ℤ) :
  (Expr.num n).every P
  := trivial

@[simp]
theorem every_var (x : Var) :
  (Expr.var x).every P
  := trivial

theorem every_app :
  (Expr.app o l).every P ↔ P o l ∧ ∀ e ∈ l, e.every P
  := by rw [Expr.every, everyAll_iff]

/-- A condition that follows from another one on the application and on its arguments. -/
theorem every_mono (hPQ : ∀ o l, P o l → (∀ a ∈ l, a.every P) → Q o l) (h : e.every P) :
  e.every Q
  := by
  induction e with
  | num n => exact trivial
  | var x => exact trivial
  | app o args ih =>
      rw [every_app] at h ⊢
      use hPQ _ _ h.1 h.2
      intro e he
      apply ih e he (h.2 e he)

end Every

/-! ### Nested binary applications -/

/-- The operator applied to the first expression and the first of the list, the result and the
second one, and so on. -/
def nest (o : Op) (a : Expr) (l : List Expr) : Expr :=
  l.foldl (fun acc e => .app o [acc, e]) a

section Nest

variable {P : Op → List Expr → Prop} {o : Op} {a e : Expr} {l : List Expr} {M : Model}

@[simp]
theorem nest_nil :
  nest o a [] = a
  := rfl

@[simp]
theorem nest_cons :
  nest o a (e :: l) = nest o (.app o [a, e]) l
  := rfl

theorem every_of_nest (h : (nest o a l).every P) :
  a.every P
  := by
  induction l generalizing a with
  | nil => exact h
  | cons e l ih => exact (every_app.mp (ih h)).2 a List.mem_cons_self

theorem every_nest (hP : ∀ x y, P o [x, y]) :
  (nest o a l).every P ↔ a.every P ∧ ∀ e ∈ l, e.every P
  := by
  induction l generalizing a with
  | nil => simp
  | cons e l ih =>
      rw [nest_cons, ih, every_app, List.forall_mem_cons, List.forall_mem_cons,
        List.forall_mem_cons, and_iff_right (hP a e), and_assoc, and_assoc,
        and_iff_right (List.forall_mem_nil _)]

theorem sort_nest {s : Srt} (ho : ∀ x y, x.sort = some s → y.sort = some s →
    (Expr.app o [x, y]).sort = some s) (ha : a.sort = some s) (hl : ∀ e ∈ l, e.sort = some s) :
  (nest o a l).sort = some s
  := by
  induction l generalizing a with
  | nil => exact ha
  | cons e l ih =>
      obtain ⟨he, hl⟩ := List.forall_mem_cons.mp hl
      apply ih (ho a e ha he) hl

theorem holds_nest_and :
  (nest .and a l).Holds M ↔ a.Holds M ∧ ∀ e ∈ l, e.Holds M
  := by
  induction l generalizing a with
  | nil => simp
  | cons e l ih => rw [nest_cons, ih, holds_and_pair, List.forall_mem_cons, and_assoc]

theorem holds_nest_or :
  (nest .or a l).Holds M ↔ a.Holds M ∨ ∃ e ∈ l, e.Holds M
  := by
  induction l generalizing a with
  | nil => simp
  | cons e l ih => rw [nest_cons, ih, holds_or_pair, List.exists_mem_cons_iff, or_assoc]

theorem intVal_nest_add :
  (nest .add a l).intVal M = a.intVal M + (l.map (Expr.intVal M)).sum
  := by
  induction l generalizing a with
  | nil => simp
  | cons e l ih =>
      have hpair : (Expr.app .add [a, e]).intVal M = a.intVal M + e.intVal M := by
        simp
      rw [nest_cons, ih, hpair, List.map_cons, List.sum_cons, add_assoc]

theorem intVal_nest_sub :
  (nest .sub a l).intVal M = a.intVal M - (l.map (Expr.intVal M)).sum
  := by
  induction l generalizing a with
  | nil => simp
  | cons e l ih =>
      have hpair : (Expr.app .sub [a, e]).intVal M = a.intVal M - e.intVal M := intVal_sub a e
      rw [nest_cons, ih, hpair, List.map_cons, List.sum_cons, sub_sub]

/-- A conjunction of more than two formulas. -/
theorem preserves_nest_and :
  Preserves (.and (a :: l)) (nest .and a l)
  := by
  apply Preserves.of_holds
  intro s hs
  obtain ⟨rfl, hl⟩ := sort_and.mp hs
  obtain ⟨ha, hl⟩ := List.forall_mem_cons.mp hl
  refine ⟨rfl, sort_nest ?_ ha hl, fun M => ?_⟩
  · intro x y hx hy
    simp [hx, hy]
  · rw [holds_nest_and, holds_and, List.forall_mem_cons]

theorem preserves_nest_or :
  Preserves (.or (a :: l)) (nest .or a l)
  := by
  apply Preserves.of_holds
  intro s hs
  obtain ⟨rfl, hl⟩ := sort_or.mp hs
  obtain ⟨ha, hl⟩ := List.forall_mem_cons.mp hl
  refine ⟨rfl, sort_nest ?_ ha hl, fun M => ?_⟩
  · intro x y hx hy
    simp [hx, hy]
  · rw [holds_nest_or, holds_or, List.exists_mem_cons_iff]

/-- An expression that can only be of sort `Int` is preserved with its integer. -/
theorem Preserves.of_intVal {e e' : Expr}
    (hint : ∀ s, e.sort = some s → s = .int ∧ e'.sort = some .int ∧
      ∀ M, e'.intVal M = e.intVal M) :
  Preserves e e'
  := by
  intro s hs
  obtain ⟨rfl, hs', hval⟩ := hint s hs
  exact ⟨hs', fun M => (eval_eq_of_int hs' hs).mpr (hval M)⟩

theorem preserves_nest_add :
  Preserves (.add (a :: l)) (nest .add a l)
  := by
  apply Preserves.of_intVal
  intro s hs
  obtain ⟨rfl, hl⟩ := sort_add.mp hs
  obtain ⟨ha, hl⟩ := List.forall_mem_cons.mp hl
  refine ⟨rfl, sort_nest ?_ ha hl, fun M => ?_⟩
  · intro x y hx hy
    simp [hx, hy]
  · rw [intVal_nest_add, intVal_add, List.map_cons, List.sum_cons]

/-- A difference of at least two numbers; of one number it is its negation. -/
theorem preserves_nest_sub (hl : l ≠ []) :
  Preserves (.sub (a :: l)) (nest .sub a l)
  := by
  apply Preserves.of_intVal
  intro s hs
  obtain ⟨rfl, hsort⟩ := sort_sub.mp hs
  obtain ⟨ha, hsort⟩ := List.forall_mem_cons.mp hsort
  refine ⟨rfl, sort_nest ?_ ha hsort, fun M => ?_⟩
  · intro x y hx hy
    simp [hx, hy]
  · obtain ⟨e, l, rfl⟩ := List.exists_cons_of_ne_nil hl
    rw [intVal_nest_sub, Expr.intVal, Expr.intVal, eval_app]
    change _ = (a.eval M).toInt - (((e :: l).map (Expr.eval M)).map Value.toInt).sum
    rw [List.map_map]
    rfl

end Nest

end LIA
