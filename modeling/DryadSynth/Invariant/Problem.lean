import DryadSynth.Library.Reach
import DryadSynth.Library.LIA.Closed

/-!
# Invariant problems

An invariant problem gives a precondition, a transition relation and a postcondition as defined
functions with parameters of their own, and asks for a predicate on the arguments.  Its
constraint is that of an invariant of the transition system which the definitions describe.
-/

namespace Sygus.Invariant

open LIA Reach

/-- An invariant problem, with the variables its parsing declared. -/
structure InvProblem where
  name : String
  requestArgs : List Var
  vars : List Var
  regularVars : List Var
  pre : Definition
  trans : Definition
  post : Definition

/-- The copy of a variable for the state after a transition. -/
def prime (x : Var) : Var := ⟨x.name ++ "!", x.sort⟩

namespace InvProblem

variable (P : InvProblem)

/-- The symbol of the invariant. -/
def inv : FuncDecl := ⟨P.name, P.requestArgs.map Var.sort, .bool⟩

def transArgsOrig : List Var := P.trans.params.take (P.trans.params.length / 2)

def transArgsPrime : List Var := P.trans.params.drop (P.trans.params.length / 2)

def startCstrt : Expr :=
  .implies P.pre.body (.func P.inv (P.pre.params.map .var))

def loopCstrt : Expr :=
  .implies (.and [P.trans.body, .func P.inv (P.transArgsOrig.map .var)])
    (.func P.inv (P.transArgsPrime.map .var))

def endCstrt : Expr :=
  .implies (.func P.inv (P.post.params.map .var)) P.post.body

def invCombinedConstraint : Expr := .and [P.startCstrt, P.loopCstrt, P.endCstrt]

/-- A predicate that satisfies the constraint. -/
def Solves (I : List Value → Value) : Prop :=
  ∀ M : Model, P.invCombinedConstraint.Holds (M.withFunc P.inv I)

/-- The definitions are closed formulas over parameters of the sorts of the arguments, those of
the transition twice. -/
structure WellFormed (P : InvProblem) : Prop where
  nodup_args : P.requestArgs.Nodup
  nodup_pre : P.pre.params.Nodup
  nodup_trans : P.trans.params.Nodup
  nodup_post : P.post.params.Nodup
  params_pre : P.pre.params.map Var.sort = P.requestArgs.map Var.sort
  params_trans : P.trans.params.map Var.sort
    = P.requestArgs.map Var.sort ++ P.requestArgs.map Var.sort
  params_post : P.post.params.map Var.sort = P.requestArgs.map Var.sort
  closed_pre : P.pre.Closed
  closed_trans : P.trans.Closed
  closed_post : P.post.Closed
  sort_pre : P.pre.body.sort = some .bool
  sort_trans : P.trans.body.sort = some .bool
  sort_post : P.post.body.sort = some .bool

/-- The definitions have the arguments themselves as their parameters. -/
structure NamedAlike (P : InvProblem) : Prop where
  pre : P.pre.params = P.requestArgs
  trans : P.trans.params = P.requestArgs ++ P.requestArgs.map prime
  post : P.post.params = P.requestArgs

/-- The transition system of the definitions, on the values of the arguments. -/
def system : System (List Value) where
  pre := {vs | Fits P.requestArgs vs ∧ P.pre.Holds vs}
  trans vs vs' :=
    Fits P.requestArgs vs ∧ Fits P.requestArgs vs' ∧ P.trans.Holds (vs ++ vs')
  post := {vs | Fits P.requestArgs vs ∧ P.post.Holds vs}

/-- The argument lists of which a predicate is true. -/
def truths (I : List Value → Value) : Set (List Value) :=
  {vs | Fits P.requestArgs vs ∧ (I vs).toBool = true}

end InvProblem

section Calls

variable {M : Model} {f : FuncDecl}

theorem holds_call (hf : f.range = .bool) (args : List Expr) :
  (Expr.func f args).Holds M ↔ (M.func f (args.map (Expr.eval M))).toBool = true
  := by
  rw [Expr.Holds, eval_app, Op.apply, hf]
  rfl

theorem holds_call_withFunc (hf : f.range = .bool) (I : List Value → Value) (xs : List Var) :
  (Expr.func f (xs.map .var)).Holds (M.withFunc f I) ↔ (I (M.values xs)).toBool = true
  := by
  rw [holds_call hf, eval_map_var]
  simp only [Model.withFunc, Function.update_self]
  rfl

end Calls

namespace InvProblem

variable {P : InvProblem} {I : List Value → Value}

theorem values_trans (P : InvProblem) (M : Model) :
  M.values P.transArgsOrig ++ M.values P.transArgsPrime = M.values P.trans.params
  := by
  rw [Model.values, Model.values, ← List.map_append, transArgsOrig, transArgsPrime,
    List.take_append_drop, Model.values]

/-- The model after a transition: the arguments have the values of their primed copies. -/
def next (P : InvProblem) (M : Model) : Model :=
  M.bind P.requestArgs (M.values (P.requestArgs.map prime))

theorem fits_values_prime (M : Model) (xs : List Var) :
  Fits xs (M.values (xs.map prime))
  := by
  have h := fits_values M (xs.map prime)
  rw [Fits, List.map_map] at h
  apply h

theorem sort_call {xs : List Var}
    (hxs : xs.map Var.sort = P.requestArgs.map Var.sort) :
  (Expr.func P.inv (xs.map .var)).sort = some .bool
  := by
  refine sort_func.mpr ⟨rfl, ?_⟩
  change (xs.map Expr.var).map Expr.sort = (P.requestArgs.map Var.sort).map some
  rw [← hxs, List.map_map, List.map_map]
  rfl

section

variable (hP : P.WellFormed)
include hP

theorem WellFormed.length_trans :
  P.trans.params.length / 2 = P.requestArgs.length
  := by
  have h := congrArg List.length hP.params_trans
  simp only [List.length_map, List.length_append] at h
  omega

theorem WellFormed.fits_trans {vs vs' : List Value} (h : Fits P.requestArgs vs)
    (h' : Fits P.requestArgs vs') :
  Fits P.trans.params (vs ++ vs')
  := by
  rw [Fits, List.map_append, h, h', hP.params_trans]

theorem WellFormed.fits_transArgs (M : Model) :
  Fits P.requestArgs (M.values P.transArgsOrig) ∧ Fits P.requestArgs (M.values P.transArgsPrime)
  := by
  have h := fits_values M P.trans.params
  rw [← P.values_trans, Fits, List.map_append, hP.params_trans] at h
  apply List.append_inj h
  have hlength := hP.length_trans
  have hlength' := congrArg List.length hP.params_trans
  simp only [List.length_map, List.length_append] at hlength'
  simp only [Model.values, transArgsOrig, List.length_map, List.length_take]
  omega

theorem WellFormed.sort_invCombinedConstraint :
  P.invCombinedConstraint.sort = some .bool
  := by
  have horig : P.transArgsOrig.map Var.sort = P.requestArgs.map Var.sort := by
    have h := (hP.fits_transArgs default).1
    rw [Fits, fits_values] at h
    apply h
  have hprime : P.transArgsPrime.map Var.sort = P.requestArgs.map Var.sort := by
    have h := (hP.fits_transArgs default).2
    rw [Fits, fits_values] at h
    apply h
  simp [invCombinedConstraint, startCstrt, loopCstrt, endCstrt, hP.sort_pre, hP.sort_trans,
    hP.sort_post, sort_call hP.params_pre, sort_call hP.params_post, sort_call horig,
    sort_call hprime]

theorem WellFormed.funcs_invCombinedConstraint :
  ∀ f ∈ P.invCombinedConstraint.funcs, f = P.inv
  := by
  intro f hf
  have hcall : ∀ xs : List Var,
      (Op.func P.inv = .func f ∨ ∃ e ∈ xs.map Expr.var, f ∈ e.funcs) → f = P.inv := by
    rintro xs (h | ⟨e, he, h⟩)
    · apply (Op.func.inj h).symm
    · obtain ⟨x, -, rfl⟩ := List.mem_map.mp he
      cases h
  simp only [invCombinedConstraint, startCstrt, loopCstrt, endCstrt, mem_funcs_app, List.mem_cons,
    List.not_mem_nil, or_false, exists_eq_or_imp, exists_eq_left, reduceCtorEq, false_or,
    hP.closed_pre.funcs, hP.closed_trans.funcs, hP.closed_post.funcs] at hf
  rcases hf with h | (h | h) | h
  · apply hcall _ h
  · apply hcall _ h
  · apply hcall _ h
  · apply hcall _ h

/-- The constraint at the values of the parameters in each model. -/
theorem WellFormed.solves_iff_models :
  P.Solves I ↔
    (∀ M : Model, P.pre.Holds (M.values P.pre.params) →
      (I (M.values P.pre.params)).toBool = true) ∧
    (∀ M : Model, P.trans.Holds (M.values P.trans.params) ∧
      (I (M.values P.transArgsOrig)).toBool = true →
      (I (M.values P.transArgsPrime)).toBool = true) ∧
    ∀ M : Model, (I (M.values P.post.params)).toBool = true →
      P.post.Holds (M.values P.post.params)
  := by
  have hbody : ∀ {d : Definition}, d.Closed → d.params.Nodup → ∀ M : Model,
      d.body.Holds (M.withFunc P.inv I) ↔ d.Holds (M.values d.params) :=
    fun hd hnodup M => hd.holds_body hnodup (M.withFunc P.inv I)
  simp only [Solves, invCombinedConstraint, startCstrt, loopCstrt, endCstrt, holds_and,
    holds_implies, List.forall_mem_cons, List.not_mem_nil, false_imp_iff, implies_true,
    and_true, holds_call_withFunc (f := P.inv) rfl, hbody hP.closed_pre hP.nodup_pre,
    hbody hP.closed_trans hP.nodup_trans, hbody hP.closed_post hP.nodup_post, forall_and]

/-- A predicate solves the constraint when it is an invariant of the transition system. -/
theorem WellFormed.solves_iff :
  P.Solves I ↔ IsInvariant P.system (P.truths I)
  := by
  rw [hP.solves_iff_models]
  constructor
  · rintro ⟨hpre, htrans, hpost⟩
    constructor
    · rintro vs ⟨hfits, hvs⟩
      have h := hpre (Model.bind default P.pre.params vs)
      rw [values_bind hP.nodup_pre (hfits.trans hP.params_pre.symm)] at h
      exact ⟨hfits, h hvs⟩
    · rintro vs ⟨-, hI⟩ vs' ⟨hfits, hfits', hvs⟩
      have hall := hP.fits_trans hfits hfits'
      have h := htrans (Model.bind default P.trans.params (vs ++ vs'))
      have hvalues := P.values_trans (Model.bind default P.trans.params (vs ++ vs'))
      rw [values_bind hP.nodup_trans hall] at h hvalues
      have hlength := (hP.fits_transArgs
        (Model.bind default P.trans.params (vs ++ vs'))).1.length.trans hfits.length.symm
      obtain ⟨horig, hprime⟩ := List.append_inj hvalues hlength
      rw [horig, hprime] at h
      exact ⟨hfits', h ⟨hvs, hI⟩⟩
    · rintro vs ⟨hfits, hI⟩
      have h := hpost (Model.bind default P.post.params vs)
      rw [values_bind hP.nodup_post (hfits.trans hP.params_post.symm)] at h
      exact ⟨hfits, h hI⟩
  · intro h
    refine ⟨fun M hM => ?_, fun M ⟨hM, hI⟩ => ?_, fun M hI => ?_⟩
    · apply (h.pre ⟨(fits_values M _).trans hP.params_pre, hM⟩).2
    · obtain ⟨hfits, hfits'⟩ := hP.fits_transArgs M
      rw [← P.values_trans] at hM
      apply (h.closed _ ⟨hfits, hI⟩ _ ⟨hfits, hfits', hM⟩).2
    · apply (h.post ⟨(fits_values M _).trans hP.params_post, hI⟩).2

/-- A formula over the arguments solves the constraint when it satisfies the three conditions. -/
theorem WellFormed.solves_iff_bodies (hnames : P.NamedAlike) {d : Definition}
    (hparams : d.params = P.requestArgs) (hd : d.Closed) :
  P.Solves (d.eval default) ↔
    (∀ M, P.pre.body.Holds M → d.body.Holds M) ∧
    (∀ M, P.trans.body.Holds M → d.body.Holds M → d.body.Holds (P.next M)) ∧
    ∀ M, d.body.Holds M → P.post.body.Holds M
  := by
  have hnodup : d.params.Nodup := hparams ▸ hP.nodup_args
  have hhalf : P.trans.params.length / 2 = P.requestArgs.length := hP.length_trans
  have horig : P.transArgsOrig = P.requestArgs := by
    rw [transArgsOrig, hhalf, hnames.trans, List.take_left]
  have hprime : P.transArgsPrime = P.requestArgs.map prime := by
    rw [transArgsPrime, hhalf, hnames.trans, List.drop_left]
  have hbody : ∀ M : Model, (d.eval default (M.values P.requestArgs)).toBool = true
      ↔ d.body.Holds M := by
    intro M
    rw [hd.holds_body hnodup, hparams]
    rfl
  have hnext : ∀ M : Model, (d.eval default (M.values (P.requestArgs.map prime))).toBool = true
      ↔ d.body.Holds (P.next M) := by
    intro M
    rw [← hbody, next, values_bind hP.nodup_args (fits_values_prime M _)]
  have hpre : ∀ M : Model, P.pre.Holds (M.values P.requestArgs) ↔ P.pre.body.Holds M := by
    intro M
    rw [hP.closed_pre.holds_body hP.nodup_pre, hnames.pre]
  have hpost : ∀ M : Model, P.post.Holds (M.values P.requestArgs) ↔ P.post.body.Holds M := by
    intro M
    rw [hP.closed_post.holds_body hP.nodup_post, hnames.post]
  simp only [hP.solves_iff_models, ← hP.closed_trans.holds_body hP.nodup_trans, horig, hprime,
    hnames.pre, hnames.post, hbody, hnext, hpre, hpost, and_imp]

open Classical in
/-- There is a solution when the transition system has an invariant. -/
theorem WellFormed.exists_solves_iff :
  (∃ I, P.Solves I) ↔ ∃ J, IsInvariant P.system J
  := by
  constructor
  · rintro ⟨I, hI⟩
    exact ⟨_, hP.solves_iff.mp hI⟩
  · rintro ⟨J, hJ⟩
    use fun vs => .bool (decide (vs ∈ J))
    rw [hP.solves_iff]
    have htruths : P.truths (fun vs => .bool (decide (vs ∈ J)))
        = {vs | Fits P.requestArgs vs ∧ vs ∈ J} := by
      ext vs
      simp [truths, Value.toBool]
    rw [htruths]
    constructor
    · intro vs hvs
      exact ⟨hvs.1, hJ.pre hvs⟩
    · intro vs hvs vs' hstep
      exact ⟨hstep.2.1, hJ.closed vs hvs.2 vs' hstep⟩
    · intro vs hvs
      apply hJ.post hvs.2

end

end InvProblem

/-! ### The arguments that are used -/

namespace InvProblem

variable (P : InvProblem)

/-- The variable whose name, with a last character added, is that of a primed one. -/
def unprime (x : Var) : Option Var :=
  P.vars.find? fun y => y.name = String.ofList x.name.toList.dropLast

/-- The variables that are not in the postcondition and either not in the precondition or, in
their primed copy, not in the transition. -/
def unused : List Var :=
  let unusedFromPre := P.regularVars.filter (· ∉ P.pre.body.vars)
  let unusedPrimeFromTrans := P.vars.filter fun x => x ∉ P.regularVars ∧ x ∉ P.trans.body.vars
  let unusedFromTrans := unusedPrimeFromTrans.filterMap P.unprime
  (unusedFromPre ++ unusedFromTrans).filter (· ∉ P.post.body.vars)

def requestUsedArgs : List Var :=
  let usedList := P.requestArgs.filter (· ∉ P.unused)
  if usedList = [] then P.requestArgs else usedList

/-- The symbol of the reduced invariant, on the used arguments. -/
def rdcdInv : FuncDecl := ⟨P.name, P.requestUsedArgs.map Var.sort, .bool⟩

/-- The reduced invariant as a function of all arguments. -/
def reduction : Definition :=
  ⟨P.requestArgs, .func P.rdcdInv (P.requestUsedArgs.map .var)⟩

/-- The values of the used arguments. -/
def select (vs : List Value) : List Value :=
  (Model.bind default P.requestArgs vs).values P.requestUsedArgs

variable {P}

theorem requestUsedArgs_subset :
  P.requestUsedArgs ⊆ P.requestArgs
  := by
  rw [requestUsedArgs]
  split
  · apply List.Subset.refl _
  · apply List.filter_subset_self _

/-- An argument that the postcondition mentions is used. -/
theorem mem_requestUsedArgs_of_post {x : Var} (hx : x ∈ P.requestArgs)
    (hpost : x ∈ P.post.body.vars) :
  x ∈ P.requestUsedArgs
  := by
  rw [requestUsedArgs]
  split
  · apply hx
  · rw [List.mem_filter]
    exact ⟨hx, by simp [unused, hpost]⟩

theorem WellFormed.nodup_used (hP : P.WellFormed) :
  P.requestUsedArgs.Nodup
  := by
  rw [requestUsedArgs]
  split
  · apply hP.nodup_args
  · apply hP.nodup_args.filter _

theorem WellFormed.values_used (hP : P.WellFormed) {M : Model} {vs : List Value}
    (hfits : Fits P.requestArgs vs) :
  (M.bind P.requestArgs vs).values P.requestUsedArgs = P.select vs
  := by
  apply List.map_congr_left
  intro x hx
  apply value_bind hP.nodup_args hfits (requestUsedArgs_subset hx)

end InvProblem

end Sygus.Invariant
