import DryadSynth.Library.LIA.Subst

/-!
# Quantified formulas

Formulas with quantifiers over variables, on top of the expressions without quantifiers.  A
quantifier over a list of variables ranges over the models that differ in these variables only.
-/

namespace LIA

/-- A formula with quantifiers. -/
inductive Quantified where
  | qf (e : Expr)
  | not (φ : Quantified)
  | and (φ ψ : Quantified)
  | or (φ ψ : Quantified)
  | implies (φ ψ : Quantified)
  | all (xs : List Var) (φ : Quantified)
  | ex (xs : List Var) (φ : Quantified)

/-- The models differ in the variables `xs` only. -/
structure AgreeOff (xs : List Var) (M M' : Model) : Prop where
  func : M'.func = M.func
  var : ∀ x ∉ xs, M'.var x = M.var x

namespace AgreeOff

variable {xs ys : List Var} {M M' M'' : Model}

theorem refl (xs : List Var) (M : Model) :
  AgreeOff xs M M
  := ⟨rfl, fun _ _ => rfl⟩

theorem symm (h : AgreeOff xs M M') :
  AgreeOff xs M' M
  := ⟨h.func.symm, fun x hx => (h.var x hx).symm⟩

theorem trans (h : AgreeOff xs M M') (h' : AgreeOff xs M' M'') :
  AgreeOff xs M M''
  := ⟨h'.func.trans h.func, fun x hx => (h'.var x hx).trans (h.var x hx)⟩

theorem mono (h : AgreeOff xs M M') (hsub : xs ⊆ ys) :
  AgreeOff ys M M'
  := ⟨h.func, fun x hx => h.var x fun hx' => hx (hsub hx')⟩

theorem eq (h : AgreeOff [] M M') :
  M' = M
  := by
  cases M
  cases M'
  simp only [Model.mk.injEq]
  exact ⟨funext fun x => h.var x List.not_mem_nil, h.func⟩

/-- An expression that does not mention the variables has one value. -/
theorem eval_eq (h : AgreeOff xs M M') {e : Expr} (he : ∀ x ∈ e.vars, x ∉ xs) :
  e.eval M' = e.eval M
  := eval_congr (fun x hx => h.var x (he x hx)) fun f _ => by rw [h.func]

theorem holds_iff (h : AgreeOff xs M M') {e : Expr} (he : ∀ x ∈ e.vars, x ∉ xs) :
  e.Holds M' ↔ e.Holds M
  := by rw [Expr.Holds, h.eval_eq he, Expr.Holds]

end AgreeOff

namespace Quantified

/-- The formula is true in the model. -/
def Holds (M : Model) : Quantified → Prop
  | qf e => e.Holds M
  | not φ => ¬ φ.Holds M
  | and φ ψ => φ.Holds M ∧ ψ.Holds M
  | or φ ψ => φ.Holds M ∨ ψ.Holds M
  | implies φ ψ => φ.Holds M → ψ.Holds M
  | all xs φ => ∀ M', AgreeOff xs M M' → φ.Holds M'
  | ex xs φ => ∃ M', AgreeOff xs M M' ∧ φ.Holds M'

/-- The formula is true in some model. -/
def Satisfiable (φ : Quantified) : Prop := ∃ M, φ.Holds M

@[simp]
theorem holds_qf {M : Model} {e : Expr} : (qf e).Holds M ↔ e.Holds M := Iff.rfl

@[simp]
theorem holds_not {M : Model} {φ : Quantified} : (not φ).Holds M ↔ ¬ φ.Holds M := Iff.rfl

@[simp]
theorem holds_and {M : Model} {φ ψ : Quantified} :
  (and φ ψ).Holds M ↔ φ.Holds M ∧ ψ.Holds M
  := Iff.rfl

@[simp]
theorem holds_or {M : Model} {φ ψ : Quantified} :
  (or φ ψ).Holds M ↔ φ.Holds M ∨ ψ.Holds M
  := Iff.rfl

@[simp]
theorem holds_implies {M : Model} {φ ψ : Quantified} :
  (implies φ ψ).Holds M ↔ (φ.Holds M → ψ.Holds M)
  := Iff.rfl

theorem holds_ex {M : Model} {xs : List Var} {φ : Quantified} :
  (ex xs φ).Holds M ↔ ∃ M', AgreeOff xs M M' ∧ φ.Holds M'
  := Iff.rfl

/-- The negation of a formula has no model precisely when the formula holds in every one. -/
theorem not_satisfiable_not {φ : Quantified} :
  ¬ (not φ).Satisfiable ↔ ∀ M, φ.Holds M
  := by simp only [Satisfiable, holds_not, not_exists, not_not]

/-- The expressions in the formula are well sorted. -/
def WellSorted : Quantified → Prop
  | qf e => e.sort = some .bool
  | not φ => φ.WellSorted
  | and φ ψ => φ.WellSorted ∧ ψ.WellSorted
  | or φ ψ => φ.WellSorted ∧ ψ.WellSorted
  | implies φ ψ => φ.WellSorted ∧ ψ.WellSorted
  | all _ φ => φ.WellSorted
  | ex _ φ => φ.WellSorted

end Quantified

/-! ### Solvers -/

/-- The answer to a satisfiability check. -/
inductive Status where
  | SATISFIABLE
  | UNSATISFIABLE
  | UNKNOWN
  deriving DecidableEq, Repr

/-- A solver: a satisfiability check, quantifier elimination where it succeeds, simplification
and fresh variables. -/
structure Solver where
  check : Quantified → Status
  qe : Quantified → Option Expr
  simplify : Expr → Expr
  freshConst : List Var → Srt → Var

/-- The solver decides satisfiability, its transformations preserve meaning, and fresh variables
are fresh. -/
structure Solver.Correct (S : Solver) : Prop where
  sat {φ : Quantified} : φ.WellSorted → (S.check φ = .SATISFIABLE ↔ φ.Satisfiable)
  unsat {φ : Quantified} : φ.WellSorted → (S.check φ = .UNSATISFIABLE ↔ ¬ φ.Satisfiable)
  qe {φ : Quantified} {e : Expr} : φ.WellSorted → S.qe φ = some e →
    e.sort = some .bool ∧ ∀ M, (e.Holds M ↔ φ.Holds M)
  simplify (e : Expr) : Preserves e (S.simplify e)
  fresh (xs : List Var) (s : Srt) : S.freshConst xs s ∉ xs
  sort_fresh (xs : List Var) (s : Srt) : (S.freshConst xs s).sort = s

namespace Solver

variable {S : Solver} {φ : Quantified}

/-- The formula without its quantifiers, where they can be eliminated. -/
def eliminate (S : Solver) (φ : Quantified) : Quantified :=
  match S.qe φ with
  | some e => .qf e
  | none => φ

/-- The solver finds that the formula has no counterexample. -/
def valid (S : Solver) (φ : Quantified) : Bool := S.check (.not φ) = .UNSATISFIABLE

theorem Correct.holds_eliminate (hS : S.Correct) (hφ : φ.WellSorted) (M : Model) :
  (S.eliminate φ).Holds M ↔ φ.Holds M
  := by
  unfold eliminate
  split
  · next e he => exact (hS.qe hφ he).2 M
  · rfl

theorem Correct.wellSorted_eliminate (hS : S.Correct) (hφ : φ.WellSorted) :
  (S.eliminate φ).WellSorted
  := by
  unfold eliminate
  split
  · next e he => exact (hS.qe hφ he).1
  · apply hφ

theorem Correct.valid_iff (hS : S.Correct) (hφ : φ.WellSorted) :
  S.valid φ = true ↔ ∀ M, φ.Holds M
  := by
  have hnot : (Quantified.not φ).WellSorted := hφ
  rw [valid, decide_eq_true_iff, hS.unsat hnot, Quantified.not_satisfiable_not]

end Solver

open Classical in
/-- The solver that eliminates the quantifiers of every formula that is equivalent to an
expression, and simplifies nothing. -/
noncomputable def Solver.ideal : Solver where
  check φ := if φ.Satisfiable then .SATISFIABLE else .UNSATISFIABLE
  qe φ :=
    if h : ∃ e : Expr, e.sort = some .bool ∧ ∀ M, (e.Holds M ↔ φ.Holds M) then some h.choose
    else none
  simplify := id
  freshConst xs s :=
    ⟨String.ofList (List.replicate ((xs.map fun x : Var => x.name.length).sum + 1) 'k'), s⟩

theorem Solver.ideal_correct :
  Solver.ideal.Correct
  := by
  constructor
  · intro φ _
    simp [Solver.ideal]
  · intro φ _
    simp [Solver.ideal]
  · intro φ e _ h
    simp only [Solver.ideal] at h
    split at h
    · next hex =>
        rw [← Option.some.inj h]
        apply hex.choose_spec
    · cases h
  · intro e
    apply Preserves.refl e
  · intro xs s hmem
    have hle := List.le_sum_of_mem (List.mem_map_of_mem (f := fun x : Var => x.name.length) hmem)
    simp [Solver.ideal] at hle
  · intro xs s
    rfl

/-- The ideal solver eliminates what can be eliminated. -/
theorem Solver.ideal_qe {φ : Quantified} {e : Expr} (hsort : e.sort = some .bool)
    (he : ∀ M, (e.Holds M ↔ φ.Holds M)) :
  ∃ e', Solver.ideal.qe φ = some e' ∧ e'.sort = some .bool ∧ ∀ M, (e'.Holds M ↔ φ.Holds M)
  := by
  have h : ∃ e : Expr, e.sort = some .bool ∧ ∀ M, (e.Holds M ↔ φ.Holds M) := ⟨e, hsort, he⟩
  use h.choose
  constructor
  · simp only [Solver.ideal]
    rw [dif_pos h]
  · apply h.choose_spec

end LIA
