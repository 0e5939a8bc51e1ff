import DryadSynth.Library.LIA.Classes
import DryadSynth.Invariant.Problem

/-!
# Divide and conquer for invariants

The variables of an invariant problem are divided into classes.  For each class the three
formulas are projected to it, and the invariants that are found for the projections are combined.
What is projected how, and whether the combination is a conjunction or a disjunction, depends on
which of the formulas are rectangles or crosses.
-/

namespace Sygus.Invariant

open LIA Reach

/-- The kinds of problems that are divided. -/
inductive DnCType where
  | RECPOST
  | CROSSPRE
  | RCCRSS
  deriving DecidableEq, Repr

/-- Variables with their primed copies. -/
def withPrime (xs : List Var) : List Var := xs ++ xs.map prime

/-! ### When to divide -/

section Check

variable (S : Solver) (P : InvProblem) (relation : List (List Var))

/-- The formula follows from its projections to `xs` and to `ys`. -/
def isSquare (xs ys : List Var) (e : Expr) : Bool :=
  S.valid (.implies (.and (.ex xs (.qf e)) (.ex ys (.qf e))) (.qf e))

/-- Where the formula holds, it does for all values of `xs` or for all values of `ys`. -/
def isCross (xs ys : List Var) (e : Expr) : Bool :=
  S.valid (.implies (.qf e) (.or (.all xs (.qf e)) (.all ys (.qf e))))

def checkINVSquarePost : Bool :=
  relation.length > 1 && relation.all fun args =>
    let otherargs := others P.requestArgs args
    isSquare S args otherargs P.post.body
      && isSquare S (withPrime args) (withPrime otherargs) P.trans.body

def checkINVCrossPre : Bool :=
  relation.length > 1 && relation.all fun args =>
    let otherargs := others P.requestArgs args
    isCross S args otherargs P.pre.body
      -- here the transition has to hold for all values of the ones and of the others
      && S.valid (.implies (.qf P.trans.body) (.and (.all (withPrime args) (.qf P.trans.body))
        (.all (withPrime otherargs) (.qf P.trans.body))))

def checkINVRecCross : Bool :=
  relation.length > 1 && relation.all fun args =>
    let otherargs := others P.requestArgs args
    isSquare S args otherargs P.pre.body && isCross S args otherargs P.post.body

def checkINVDnC : Option DnCType :=
  if checkINVSquarePost S P relation then some .RECPOST
  else if checkINVCrossPre S P relation then some .CROSSPRE
  else if checkINVRecCross S P relation then some .RCCRSS
  else none

end Check

/-! ### Subproblems -/

/-- The problem for one class of variables. -/
structure SubProblem where
  usedArgs : List Var
  pre : Quantified
  trans : Quantified
  post : Quantified

namespace InvProblem

variable (S : Solver) (P : InvProblem) (dnctype : DnCType)

/-- The projection of the precondition. -/
def preWithoutArg (args : List Var) : Quantified :=
  let otherargs := others P.requestArgs args
  match dnctype with
  | .RECPOST | .RCCRSS => .ex otherargs (.qf P.pre.body)
  | .CROSSPRE => .all otherargs (.qf P.pre.body)

/-- The projection of the postcondition. -/
def postWithoutArg (args : List Var) : Quantified :=
  let otherargs := others P.requestArgs args
  match dnctype with
  | .RECPOST => .ex otherargs (.qf P.post.body)
  | .CROSSPRE | .RCCRSS => .all otherargs (.qf P.post.body)

/-- The projection of the transition. -/
def transWithoutArg (args : List Var) : Quantified :=
  let otherargs := others P.requestArgs args
  match dnctype with
  | .RECPOST | .RCCRSS => .ex (withPrime otherargs) (.qf P.trans.body)
  | .CROSSPRE => .all (withPrime otherargs) (.qf P.trans.body)

/-- The subproblem of a class, unless its precondition does not imply its postcondition. -/
def genSubproblem (args : List Var) : Option SubProblem :=
  let pre := S.eliminate (P.preWithoutArg dnctype args)
  let post := S.eliminate (P.postWithoutArg dnctype args)
  if S.valid (.implies pre post) then
    some ⟨args, pre, S.eliminate (P.transWithoutArg dnctype args), post⟩
  else none

/-- What is found for a class: nothing if its subproblem is discarded or left unsolved. -/
def subresult (solveSubproblem : ℕ → SubProblem → Option Definition) (p : List Var × ℕ) :
    Option Definition :=
  (P.genSubproblem S dnctype p.1).bind (solveSubproblem p.2)

def subresults (solveSubproblem : ℕ → SubProblem → Option Definition)
    (relation : List (List Var)) : List Definition :=
  relation.zipIdx.filterMap (P.subresult S dnctype solveSubproblem)

/-- Put two results together. -/
def combine (dnctype : DnCType) (combined subrslt : Definition) : Definition :=
  match dnctype with
  | .RECPOST => { combined with body := .and [combined.body, subrslt.body] }
  | _ => { combined with body := .or [combined.body, subrslt.body] }

/-- The combined result; there is none when `subresults.get(0)` throws an exception. -/
def solve (solveSubproblem : ℕ → SubProblem → Option Definition) (relation : List (List Var)) :
    Option Definition :=
  match P.subresults S dnctype solveSubproblem relation with
  | [] => none
  | subrslt :: rest =>
      match dnctype with
      | .RCCRSS => some subrslt
      | _ => some (rest.foldl (combine dnctype) subrslt)

end InvProblem

/-- The definition is an invariant of the subproblem: a formula over its variables that satisfies
the three conditions. -/
structure SubProblem.IsSolution (P : InvProblem) (q : SubProblem) (d : Definition) : Prop where
  params : d.params = P.requestArgs
  vars : ∀ x ∈ d.body.vars, x ∈ q.usedArgs
  funcs : d.body.funcs = []
  sort : d.body.sort = some .bool
  pre : ∀ M, q.pre.Holds M → d.body.Holds M
  trans : ∀ M, q.trans.Holds M → d.body.Holds M →
    d.body.Holds (M.bind q.usedArgs (M.values (q.usedArgs.map prime)))
  post : ∀ M, d.body.Holds M → q.post.Holds M

/-! ### What the checks mean -/

section Checks

variable {S : Solver} {P : InvProblem} {relation : List (List Var)} {xs ys : List Var} {e : Expr}

theorem isSquare_iff (hS : S.Correct) (he : e.sort = some .bool) :
  isSquare S xs ys e = true
    ↔ ∀ M, (Quantified.ex xs (.qf e)).Holds M → (Quantified.ex ys (.qf e)).Holds M → e.Holds M
  := by
  rw [isSquare, hS.valid_iff]
  · simp only [Quantified.holds_implies, Quantified.holds_and, and_imp, Quantified.holds_qf]
  · exact ⟨⟨he, he⟩, he⟩

theorem isCross_iff (hS : S.Correct) (he : e.sort = some .bool) :
  isCross S xs ys e = true
    ↔ ∀ M, e.Holds M →
        (Quantified.all xs (.qf e)).Holds M ∨ (Quantified.all ys (.qf e)).Holds M
  := by
  rw [isCross, hS.valid_iff]
  · simp only [Quantified.holds_implies, Quantified.holds_or, Quantified.holds_qf]
  · exact ⟨he, he, he⟩

end Checks

/-! ### The parts of a combination -/

section Parts

variable {S : Solver} {P : InvProblem} {dnctype : DnCType} {args : List Var} {d : Definition}
variable {M : Model}

/-- A formula over the arguments that is an invariant of a projected problem. -/
structure IsPart (P : InvProblem) (dnctype : DnCType) (args : List Var) (d : Definition) :
    Prop where
  params : d.params = P.requestArgs
  vars : ∀ x ∈ d.body.vars, x ∈ P.requestArgs
  funcs : d.body.funcs = []
  pre : ∀ M, (P.preWithoutArg dnctype args).Holds M → d.body.Holds M
  trans : ∀ M, (P.transWithoutArg dnctype args).Holds M → d.body.Holds M →
    d.body.Holds (P.next M)
  post : ∀ M, d.body.Holds M → (P.postWithoutArg dnctype args).Holds M

theorem wellSorted_preWithoutArg (hP : P.WellFormed) :
  (P.preWithoutArg dnctype args).WellSorted
  := by
  cases dnctype with
  | _ => exact hP.sort_pre

theorem wellSorted_postWithoutArg (hP : P.WellFormed) :
  (P.postWithoutArg dnctype args).WellSorted
  := by
  cases dnctype with
  | _ => exact hP.sort_post

theorem wellSorted_transWithoutArg (hP : P.WellFormed) :
  (P.transWithoutArg dnctype args).WellSorted
  := by
  cases dnctype with
  | _ => exact hP.sort_trans

/-- The values after a transition of the variables of one class. -/
theorem value_next {xs : List Var} (hnodup : xs.Nodup) {x : Var} (hx : x ∈ xs) :
  (M.bind xs (M.values (xs.map prime))).value x = M.value (prime x)
  := by
  have h : (M.bind xs (M.values (xs.map prime))).values xs
      = xs.map fun x => M.value (prime x) := by
    rw [values_bind hnodup (InvProblem.fits_values_prime M xs), Model.values, List.map_map]
    rfl
  apply List.map_inj_left.mp h x hx

theorem SubProblem.IsSolution.isPart (hS : S.Correct) (hP : P.WellFormed) (hnodup : args.Nodup)
    (hsub : args ⊆ P.requestArgs) {q : SubProblem}
    (hq : P.genSubproblem S dnctype args = some q) (hd : q.IsSolution P d) :
  IsPart P dnctype args d
  := by
  rw [InvProblem.genSubproblem] at hq
  split at hq
  · obtain rfl := Option.some.inj hq
    have hvars : ∀ x ∈ d.body.vars, x ∈ args := hd.vars
    refine ⟨hd.params, fun x hx => hsub (hvars x hx), hd.funcs, ?_, ?_, ?_⟩
    · intro M hM
      apply hd.pre M ((hS.holds_eliminate (wellSorted_preWithoutArg hP) M).mpr hM)
    · intro M hM hdM
      have h := hd.trans M ((hS.holds_eliminate (wellSorted_transWithoutArg hP) M).mpr hM) hdM
      have heval : d.body.eval (M.bind args (M.values (args.map prime)))
          = d.body.eval (P.next M) := by
        apply eval_congr_value
        · intro x hx
          rw [value_next hnodup (hvars x hx), InvProblem.next,
            value_next hP.nodup_args (hsub (hvars x hx))]
        · intro f _
          rfl
      rw [Expr.Holds, ← heval]
      apply h
    · intro M hM
      apply (hS.holds_eliminate (wellSorted_postWithoutArg hP) M).mp (hd.post M hM)
  · cases hq

end Parts

/-! ### Combinations -/

section Combine

variable {P : InvProblem} {dnctype : DnCType} {d d' : Definition} {ds : List Definition}
variable {M : Model}

/-- A formula over the arguments. -/
structure IsFormula (P : InvProblem) (d : Definition) : Prop where
  params : d.params = P.requestArgs
  vars : ∀ x ∈ d.body.vars, x ∈ P.requestArgs
  funcs : d.body.funcs = []

theorem IsPart.isFormula {args : List Var} (h : IsPart P dnctype args d) :
  IsFormula P d
  := ⟨h.params, h.vars, h.funcs⟩

theorem IsFormula.closed (h : IsFormula P d) :
  d.Closed
  := ⟨fun x hx => h.params ▸ h.vars x hx, h.funcs⟩

theorem holds_combine_and :
  (InvProblem.combine .RECPOST d d').body.Holds M ↔ d.body.Holds M ∧ d'.body.Holds M
  := holds_and_pair _ _

theorem holds_combine_or (hd : dnctype ≠ .RECPOST) :
  (InvProblem.combine dnctype d d').body.Holds M ↔ d.body.Holds M ∨ d'.body.Holds M
  := by
  cases dnctype with
  | RECPOST => exact absurd rfl hd
  | _ => exact holds_or_pair _ _

theorem IsFormula.combine (h : IsFormula P d) (h' : IsFormula P d') :
  IsFormula P (InvProblem.combine dnctype d d')
  := by
  have hvars : ∀ o : Op, ∀ x ∈ (Expr.app o [d.body, d'.body]).vars, x ∈ P.requestArgs := by
    intro o x hx
    rw [mem_vars_app] at hx
    simp only [List.mem_cons, List.not_mem_nil, or_false, exists_eq_or_imp, exists_eq_left] at hx
    rcases hx with hx | hx
    · apply h.vars x hx
    · apply h'.vars x hx
  have hfuncs : ∀ o : Op, (∀ f, o ≠ .func f) → (Expr.app o [d.body, d'.body]).funcs = [] := by
    intro o ho
    rw [List.eq_nil_iff_forall_not_mem]
    intro f hf
    rw [mem_funcs_app] at hf
    simp only [List.mem_cons, List.not_mem_nil, or_false, exists_eq_or_imp, exists_eq_left,
      h.funcs, h'.funcs] at hf
    apply ho f hf
  cases dnctype with
  | RECPOST => exact ⟨h.params, hvars .and, hfuncs .and nofun⟩
  | _ => exact ⟨h.params, hvars .or, hfuncs .or nofun⟩

theorem IsFormula.foldl (h : IsFormula P d) (hds : ∀ d' ∈ ds, IsFormula P d') :
  IsFormula P (ds.foldl (InvProblem.combine dnctype) d)
  := by
  induction ds generalizing d with
  | nil => exact h
  | cons d' ds ih =>
      apply ih (h.combine (hds d' List.mem_cons_self))
      intro d'' hd''
      apply hds d'' (List.mem_cons_of_mem _ hd'')

theorem holds_foldl_and :
  (ds.foldl (InvProblem.combine .RECPOST) d).body.Holds M ↔ ∀ d' ∈ d :: ds, d'.body.Holds M
  := by
  induction ds generalizing d with
  | nil => simp
  | cons d' ds ih =>
      rw [List.foldl_cons, ih, List.forall_mem_cons, holds_combine_and, List.forall_mem_cons,
        List.forall_mem_cons, and_assoc]

theorem holds_foldl_or (hd : dnctype ≠ .RECPOST) :
  (ds.foldl (InvProblem.combine dnctype) d).body.Holds M ↔ ∃ d' ∈ d :: ds, d'.body.Holds M
  := by
  induction ds generalizing d with
  | nil => simp
  | cons d' ds ih =>
      rw [List.foldl_cons, ih, List.exists_mem_cons_iff, holds_combine_or hd,
        List.exists_mem_cons_iff, List.exists_mem_cons_iff, or_assoc]

end Combine

/-! ### Soundness of the combination -/

/-- What is found for a subproblem is an invariant of it. -/
def SolvesCorrectly (S : Solver) (P : InvProblem) (dnctype : DnCType)
    (solveSubproblem : ℕ → SubProblem → Option Definition) (relation : List (List Var)) : Prop :=
  ∀ p ∈ relation.zipIdx, ∀ q, P.genSubproblem S dnctype p.1 = some q →
    ∀ d, solveSubproblem p.2 q = some d → q.IsSolution P d

/-- Something is found.  When the postcondition is a rectangle, what is found implies the
projected postconditions of all classes for which nothing is; when the precondition is a cross,
the projected preconditions of these classes imply what is found. -/
def Covered (S : Solver) (P : InvProblem) (dnctype : DnCType)
    (solveSubproblem : ℕ → SubProblem → Option Definition) (relation : List (List Var)) : Prop :=
  P.subresults S dnctype solveSubproblem relation ≠ [] ∧
    ∀ p ∈ relation.zipIdx, P.subresult S dnctype solveSubproblem p = none → ∀ M,
      match dnctype with
      | .RECPOST => (∀ d ∈ P.subresults S dnctype solveSubproblem relation, d.body.Holds M) →
          (Quantified.ex (others P.requestArgs p.1) (.qf P.post.body)).Holds M
      | .CROSSPRE => (Quantified.all (others P.requestArgs p.1) (.qf P.pre.body)).Holds M →
          ∃ d ∈ P.subresults S dnctype solveSubproblem relation, d.body.Holds M
      | .RCCRSS => True

/-- The combination of parts, in terms of the parts. -/
def IsCombination (dnctype : DnCType) (ds : List Definition) (d : Definition) : Prop :=
  match dnctype with
  | .RECPOST => ∀ M, d.body.Holds M ↔ ∀ d' ∈ ds, d'.body.Holds M
  | .CROSSPRE => ∀ M, d.body.Holds M ↔ ∃ d' ∈ ds, d'.body.Holds M
  | .RCCRSS => d ∈ ds

section Solve

variable {S : Solver} {P : InvProblem} {dnctype : DnCType} {relation : List (List Var)}
variable {solveSubproblem : ℕ → SubProblem → Option Definition} {M : Model} {d : Definition}

theorem holds_of_all {xs : List Var} {φ : Quantified} (h : (Quantified.all xs φ).Holds M) :
  φ.Holds M
  := h M (.refl xs M)

theorem holds_ex_of_holds {xs : List Var} {φ : Quantified} (h : φ.Holds M) :
  (Quantified.ex xs φ).Holds M
  := ⟨M, .refl xs M, h⟩

theorem mem_subresults :
  d ∈ P.subresults S dnctype solveSubproblem relation
    ↔ ∃ p ∈ relation.zipIdx, P.subresult S dnctype solveSubproblem p = some d
  := List.mem_filterMap

theorem fst_mem_of_mem_zipIdx {α : Type} {l : List α} {p : α × ℕ} (h : p ∈ l.zipIdx) :
  p.1 ∈ l
  := by
  rw [List.mem_zipIdx_iff_getElem?] at h
  apply List.mem_of_getElem? h

section

variable (hS : S.Correct) (hP : P.WellFormed) (hcover : Cover P.requestArgs relation)
variable (hnodup : ∀ args ∈ relation, args.Nodup)
variable (hsolve : SolvesCorrectly S P dnctype solveSubproblem relation)
include hS hP hcover hnodup hsolve

theorem SolvesCorrectly.isPart_of_subresult {p : List Var × ℕ} (hp : p ∈ relation.zipIdx)
    (hd : P.subresult S dnctype solveSubproblem p = some d) :
  IsPart P dnctype p.1 d
  := by
  obtain ⟨q, hq, hqd⟩ := Option.bind_eq_some_iff.mp hd
  have hargs := fst_mem_of_mem_zipIdx hp
  apply (hsolve p hp q hq d hqd).isPart hS hP (hnodup _ hargs) (hcover.subset _ hargs) hq

theorem SolvesCorrectly.exists_isPart
    (hd : d ∈ P.subresults S dnctype solveSubproblem relation) :
  ∃ args ∈ relation, IsPart P dnctype args d
  := by
  obtain ⟨p, hp, hpd⟩ := mem_subresults.mp hd
  exact ⟨p.1, fst_mem_of_mem_zipIdx hp,
    hsolve.isPart_of_subresult hS hP hcover hnodup hp hpd⟩

end

/-- The checks for the kind of a problem. -/
theorem check_of_checkINVDnC (h : checkINVDnC S P relation = some dnctype) :
  match dnctype with
  | .RECPOST => checkINVSquarePost S P relation = true
  | .CROSSPRE => checkINVCrossPre S P relation = true
  | .RCCRSS => checkINVRecCross S P relation = true
  := by
  rw [checkINVDnC] at h
  split at h
  · next hcheck =>
      obtain rfl := Option.some.inj h
      apply hcheck
  · split at h
    · next hcheck =>
        obtain rfl := Option.some.inj h
        apply hcheck
    · split at h
      · next hcheck =>
          obtain rfl := Option.some.inj h
          apply hcheck
      · cases h

/-- A transition is one of all projected problems. -/
theorem holds_transWithoutArg (hS : S.Correct) (hP : P.WellFormed)
    (hcheck : checkINVDnC S P relation = some dnctype) {args : List Var} (hargs : args ∈ relation)
    (h : P.trans.body.Holds M) :
  (P.transWithoutArg dnctype args).Holds M
  := by
  cases dnctype with
  | RECPOST => exact holds_ex_of_holds h
  | RCCRSS => exact holds_ex_of_holds h
  | CROSSPRE =>
      have hcross := check_of_checkINVDnC hcheck
      simp only [checkINVCrossPre, Bool.and_eq_true, List.all_eq_true] at hcross
      have hvalid := (hcross.2 args hargs).2
      rw [hS.valid_iff] at hvalid
      · apply (hvalid M h).2
      · exact ⟨hP.sort_trans, hP.sort_trans, hP.sort_trans⟩

theorem isCombination_solve (hd : P.solve S dnctype solveSubproblem relation = some d) :
  IsCombination dnctype (P.subresults S dnctype solveSubproblem relation) d
  := by
  rw [InvProblem.solve] at hd
  split at hd
  · cases hd
  · next subrslt rest hresults =>
      rw [hresults]
      cases dnctype with
      | RECPOST =>
          obtain rfl := Option.some.inj hd
          exact fun M => holds_foldl_and
      | CROSSPRE =>
          obtain rfl := Option.some.inj hd
          exact fun M => holds_foldl_or nofun
      | RCCRSS =>
          obtain rfl := Option.some.inj hd
          apply List.mem_cons_self

theorem solve_eq_none_iff :
  P.solve S dnctype solveSubproblem relation = none
    ↔ P.subresults S dnctype solveSubproblem relation = []
  := by
  rw [InvProblem.solve]
  split
  · next h => simp [h]
  · next h =>
      rw [h]
      cases dnctype with
      | _ => simp

/-- The combination is a formula over the arguments when the parts are. -/
theorem isFormula_solve (hd : P.solve S dnctype solveSubproblem relation = some d)
    (hresults : ∀ d' ∈ P.subresults S dnctype solveSubproblem relation, IsFormula P d') :
  IsFormula P d
  := by
  rw [InvProblem.solve] at hd
  split at hd
  · cases hd
  · next subrslt rest heq =>
      rw [heq] at hresults
      have hfirst := hresults subrslt List.mem_cons_self
      have hrest : ∀ d' ∈ rest, IsFormula P d' :=
        fun d' hd' => hresults d' (List.mem_cons_of_mem _ hd')
      cases dnctype with
      | RCCRSS =>
          obtain rfl := Option.some.inj hd
          apply hfirst
      | _ =>
          obtain rfl := Option.some.inj hd
          apply hfirst.foldl hrest

section

variable (hS : S.Correct) (hP : P.WellFormed) (hcover : Cover P.requestArgs relation)
variable (hnodup : ∀ args ∈ relation, args.Nodup)
variable (hsolve : SolvesCorrectly S P dnctype solveSubproblem relation)
include hS hP hcover hnodup hsolve

/-- Something is found for a class, or nothing is. -/
theorem SolvesCorrectly.part_or_none {args : List Var} (hargs : args ∈ relation) :
  (∃ d ∈ P.subresults S dnctype solveSubproblem relation, IsPart P dnctype args d) ∨
    ∃ k, (args, k) ∈ relation.zipIdx
      ∧ P.subresult S dnctype solveSubproblem (args, k) = none
  := by
  obtain ⟨k, hk⟩ := List.mem_iff_getElem?.mp hargs
  have hmem : (args, k) ∈ relation.zipIdx := List.mem_zipIdx_iff_getElem?.mpr hk
  cases hresult : P.subresult S dnctype solveSubproblem (args, k) with
  | none => exact .inr ⟨k, hmem, hresult⟩
  | some d =>
      left
      use d, mem_subresults.mpr ⟨_, hmem, hresult⟩
      apply hsolve.isPart_of_subresult hS hP hcover hnodup hmem hresult

/-- The combination is kept by a transition. -/
theorem SolvesCorrectly.holds_next (hcheck : checkINVDnC S P relation = some dnctype)
    (hd : P.solve S dnctype solveSubproblem relation = some d) (htrans : P.trans.body.Holds M)
    (hM : d.body.Holds M) :
  d.body.Holds (P.next M)
  := by
  have hpart : ∀ d' ∈ P.subresults S dnctype solveSubproblem relation,
      d'.body.Holds M → d'.body.Holds (P.next M) := by
    intro d' hd' hM'
    obtain ⟨args, hargs, h⟩ := hsolve.exists_isPart hS hP hcover hnodup hd'
    apply h.trans M (holds_transWithoutArg hS hP hcheck hargs htrans) hM'
  have hcomb := isCombination_solve hd
  cases dnctype with
  | RECPOST =>
      apply (hcomb (P.next M)).mpr
      intro d' hd'
      apply hpart d' hd' ((hcomb M).mp hM d' hd')
  | CROSSPRE =>
      obtain ⟨d', hd', hM'⟩ := (hcomb M).mp hM
      apply (hcomb (P.next M)).mpr ⟨d', hd', hpart d' hd' hM'⟩
  | RCCRSS => exact hpart d hcomb hM

/-- When the postcondition is a rectangle, only the postcondition may be lost. -/
theorem SolvesCorrectly.conditions_RECPOST_iff (htype : dnctype = .RECPOST)
    (hcheck : checkINVDnC S P relation = some dnctype)
    (hd : P.solve S dnctype solveSubproblem relation = some d) :
  ((∀ M, P.pre.body.Holds M → d.body.Holds M) ∧ ∀ M, d.body.Holds M → P.post.body.Holds M)
    ↔ Covered S P dnctype solveSubproblem relation
  := by
  subst htype
  have hholds : ∀ M, d.body.Holds M
      ↔ ∀ d' ∈ P.subresults S .RECPOST solveSubproblem relation, d'.body.Holds M :=
    isCombination_solve hd
  have hcheck' := check_of_checkINVDnC hcheck
  simp only [checkINVSquarePost, Bool.and_eq_true, decide_eq_true_eq, List.all_eq_true] at hcheck'
  constructor
  · rintro ⟨-, hpost⟩
    constructor
    · intro hnil
      rw [← solve_eq_none_iff, hd] at hnil
      cases hnil
    · intro p _ _ M hM
      exact holds_ex_of_holds (hpost M ((hholds M).mpr hM))
  · rintro ⟨-, hcovered⟩
    constructor
    · intro M hM
      rw [hholds]
      intro d' hd'
      obtain ⟨args, -, h⟩ := hsolve.exists_isPart hS hP hcover hnodup hd'
      apply h.pre M (holds_ex_of_holds hM)
    · intro M hM
      rw [hholds] at hM
      apply holds_of_square (φ := .qf P.post.body) hcover
      · intro hnil
        rw [hnil] at hcheck'
        apply absurd hcheck'.1 (by decide)
      · intro args hargs
        apply (isSquare_iff hS hP.sort_post).mp (hcheck'.2 args hargs).1
      · intro args hargs
        rcases hsolve.part_or_none hS hP hcover hnodup hargs with ⟨d', hd', h⟩ | ⟨k, hk, h⟩
        · apply h.post M (hM d' hd')
        · apply hcovered _ hk h M hM

/-- When the precondition is a cross, only the precondition may be lost. -/
theorem SolvesCorrectly.conditions_CROSSPRE_iff (htype : dnctype = .CROSSPRE)
    (hcheck : checkINVDnC S P relation = some dnctype)
    (hd : P.solve S dnctype solveSubproblem relation = some d) :
  ((∀ M, P.pre.body.Holds M → d.body.Holds M) ∧ ∀ M, d.body.Holds M → P.post.body.Holds M)
    ↔ Covered S P dnctype solveSubproblem relation
  := by
  subst htype
  have hholds : ∀ M, d.body.Holds M
      ↔ ∃ d' ∈ P.subresults S .CROSSPRE solveSubproblem relation, d'.body.Holds M :=
    isCombination_solve hd
  have hcheck' := check_of_checkINVDnC hcheck
  simp only [checkINVCrossPre, Bool.and_eq_true, decide_eq_true_eq, List.all_eq_true] at hcheck'
  constructor
  · rintro ⟨hpre, -⟩
    constructor
    · intro hnil
      rw [← solve_eq_none_iff, hd] at hnil
      cases hnil
    · intro p _ _ M hM
      apply (hholds M).mp (hpre M (holds_of_all hM))
  · rintro ⟨-, hcovered⟩
    constructor
    · intro M hM
      rw [hholds]
      have hne : relation ≠ [] := by
        intro hnil
        rw [hnil] at hcheck'
        apply absurd hcheck'.1 (by decide)
      obtain ⟨args, hargs, hall⟩ := exists_class_of_cross (φ := .qf P.pre.body) hcover hne
        (fun args hargs => (isCross_iff hS hP.sort_pre).mp (hcheck'.2 args hargs).1) hM
      rcases hsolve.part_or_none hS hP hcover hnodup hargs with ⟨d', hd', h⟩ | ⟨k, hk, h⟩
      · exact ⟨d', hd', h.pre M hall⟩
      · apply hcovered _ hk h M hall
    · intro M hM
      obtain ⟨d', hd', hM'⟩ := (hholds M).mp hM
      obtain ⟨args, -, h⟩ := hsolve.exists_isPart hS hP hcover hnodup hd'
      apply holds_of_all (h.post M hM')

/-- In the third case any of the parts is a solution. -/
theorem SolvesCorrectly.conditions_RCCRSS_iff (htype : dnctype = .RCCRSS)
    (hd : P.solve S dnctype solveSubproblem relation = some d) :
  ((∀ M, P.pre.body.Holds M → d.body.Holds M) ∧ ∀ M, d.body.Holds M → P.post.body.Holds M)
    ↔ Covered S P dnctype solveSubproblem relation
  := by
  subst htype
  have hmem : d ∈ P.subresults S .RCCRSS solveSubproblem relation := isCombination_solve hd
  obtain ⟨args, -, h⟩ := hsolve.exists_isPart hS hP hcover hnodup hmem
  constructor
  · intro _
    exact ⟨List.ne_nil_of_mem hmem, fun _ _ _ _ => trivial⟩
  · intro _
    constructor
    · intro M hM
      apply h.pre M (holds_ex_of_holds hM)
    · intro M hM
      apply holds_of_all (h.post M hM)

end

/-- The problem is divided into classes that pass the checks, and what is found for them is
correct. -/
structure Divided (S : Solver) (P : InvProblem) (dnctype : DnCType)
    (solveSubproblem : ℕ → SubProblem → Option Definition) (relation : List (List Var)) :
    Prop where
  solver : S.Correct
  wellFormed : P.WellFormed
  named : P.NamedAlike
  cover : Cover P.requestArgs relation
  nodup : ∀ args ∈ relation, args.Nodup
  check : checkINVDnC S P relation = some dnctype
  solve : SolvesCorrectly S P dnctype solveSubproblem relation

/-- The combination exists and solves the problem exactly when the lost classes are covered. -/
theorem solve_correct_iff (h : Divided S P dnctype solveSubproblem relation) :
  (∃ d, P.solve S dnctype solveSubproblem relation = some d ∧ P.Solves (d.eval default))
    ↔ Covered S P dnctype solveSubproblem relation
  := by
  obtain ⟨hS, hP, hnames, hcover, hnodup, hcheck, hsolve⟩ := h
  have hformula : ∀ d' ∈ P.subresults S dnctype solveSubproblem relation, IsFormula P d' := by
    intro d' hd'
    obtain ⟨args, -, h⟩ := hsolve.exists_isPart hS hP hcover hnodup hd'
    apply h.isFormula
  have hconditions : ∀ d, P.solve S dnctype solveSubproblem relation = some d →
      (P.Solves (d.eval default) ↔ Covered S P dnctype solveSubproblem relation) := by
    intro d hd
    have hd' := isFormula_solve hd hformula
    have hiff : ((∀ M, P.pre.body.Holds M → d.body.Holds M) ∧
        ∀ M, d.body.Holds M → P.post.body.Holds M)
        ↔ Covered S P dnctype solveSubproblem relation := by
      cases htype : dnctype with
      | RECPOST =>
          subst htype
          apply hsolve.conditions_RECPOST_iff hS hP hcover hnodup rfl hcheck hd
      | CROSSPRE =>
          subst htype
          apply hsolve.conditions_CROSSPRE_iff hS hP hcover hnodup rfl hcheck hd
      | RCCRSS =>
          subst htype
          apply hsolve.conditions_RCCRSS_iff hS hP hcover hnodup rfl hd
    rw [hP.solves_iff_bodies hnames hd'.params hd'.closed, ← hiff]
    constructor
    · rintro ⟨hpre, -, hpost⟩
      exact ⟨hpre, hpost⟩
    · rintro ⟨hpre, hpost⟩
      exact ⟨hpre, fun M => hsolve.holds_next hS hP hcover hnodup hcheck hd, hpost⟩
  constructor
  · rintro ⟨d, hd, hsolves⟩
    apply (hconditions d hd).mp hsolves
  · intro hcovered
    obtain ⟨d, hd⟩ := Option.ne_none_iff_exists'.mp (mt solve_eq_none_iff.mp hcovered.1)
    exact ⟨d, hd, (hconditions d hd).mpr hcovered⟩

end Solve

/-! ### An example -/

section Example

/-- Two variables that keep the value zero. -/
def steady : InvProblem where
  name := "inv"
  requestArgs := [⟨"x", .int⟩, ⟨"y", .int⟩]
  vars := [⟨"x", .int⟩, ⟨"y", .int⟩, ⟨"x!", .int⟩, ⟨"y!", .int⟩]
  regularVars := [⟨"x", .int⟩, ⟨"y", .int⟩]
  pre := ⟨[⟨"x", .int⟩, ⟨"y", .int⟩],
    .and [.eq (.var ⟨"x", .int⟩) (.num 0), .eq (.var ⟨"y", .int⟩) (.num 0)]⟩
  trans := ⟨[⟨"x", .int⟩, ⟨"y", .int⟩, ⟨"x!", .int⟩, ⟨"y!", .int⟩],
    .and [.eq (.var ⟨"x!", .int⟩) (.var ⟨"x", .int⟩),
      .eq (.var ⟨"y!", .int⟩) (.var ⟨"y", .int⟩)]⟩
  post := ⟨[⟨"x", .int⟩, ⟨"y", .int⟩],
    .and [.ge (.var ⟨"x", .int⟩) (.num 0), .ge (.var ⟨"y", .int⟩) (.num 0)]⟩

/-- Each variable is a class of its own. -/
def steadyClasses : List (List Var) := [[⟨"x", .int⟩], [⟨"y", .int⟩]]

/-- The variable is not negative. -/
def nonneg (x : Var) : Definition := ⟨steady.requestArgs, .ge (.var x) (.num 0)⟩

theorem wellFormed_steady :
  steady.WellFormed
  := by
  refine ⟨?_, ?_, ?_, ?_, ?_, ?_, ?_, ⟨?_, ?_⟩, ⟨?_, ?_⟩, ⟨?_, ?_⟩, ?_, ?_, ?_⟩
  all_goals decide

theorem cover_steadyClasses :
  Cover steady.requestArgs steadyClasses
  := by
  constructor
  · decide
  · decide

variable {M M' : Model}

theorem steady_pre :
  steady.pre.body.Holds M ↔ (M.value ⟨"x", .int⟩).toInt = 0 ∧ (M.value ⟨"y", .int⟩).toInt = 0
  := by
  rw [steady, holds_and_pair, holds_eq_of_int rfl rfl, holds_eq_of_int rfl rfl]
  rfl

theorem steady_trans :
  steady.trans.body.Holds M ↔
    (M.value ⟨"x!", .int⟩).toInt = (M.value ⟨"x", .int⟩).toInt ∧
      (M.value ⟨"y!", .int⟩).toInt = (M.value ⟨"y", .int⟩).toInt
  := by
  rw [steady, holds_and_pair, holds_eq_of_int rfl rfl, holds_eq_of_int rfl rfl]
  rfl

theorem holds_nonneg (x : Var) :
  (nonneg x).body.Holds M ↔ 0 ≤ (M.value x).toInt
  := by
  rw [nonneg, holds_ge]
  rfl

theorem steady_post :
  steady.post.body.Holds M ↔
    0 ≤ (M.value ⟨"x", .int⟩).toInt ∧ 0 ≤ (M.value ⟨"y", .int⟩).toInt
  := by
  rw [steady, holds_and_pair, holds_ge, holds_ge]
  rfl

theorem value_eq_of_agreeOff {xs : List Var} (h : AgreeOff xs M M') {x : Var} (hx : x ∉ xs) :
  M'.value x = M.value x
  := by rw [Model.value, h.var x hx, Model.value]

theorem isSquare_steady_post {C : List Var} (hC : C ∈ steadyClasses) :
  isSquare .ideal C (others steady.requestArgs C) steady.post.body = true
  := by
  rw [isSquare_iff Solver.ideal_correct wellFormed_steady.sort_post]
  rintro M ⟨M₁, h₁, hM₁⟩ ⟨M₂, h₂, hM₂⟩
  rw [Quantified.holds_qf, steady_post] at hM₁ hM₂
  rw [steady_post]
  fin_cases hC
  · rw [value_eq_of_agreeOff h₂ (by decide)] at hM₂
    rw [value_eq_of_agreeOff h₁ (x := ⟨"y", .int⟩) (by decide)] at hM₁
    exact ⟨hM₂.1, hM₁.2⟩
  · rw [value_eq_of_agreeOff h₁ (by decide)] at hM₁
    rw [value_eq_of_agreeOff h₂ (x := ⟨"y", .int⟩) (by decide)] at hM₂
    exact ⟨hM₁.1, hM₂.2⟩

theorem isSquare_steady_trans {C : List Var} (hC : C ∈ steadyClasses) :
  isSquare .ideal (withPrime C) (withPrime (others steady.requestArgs C)) steady.trans.body = true
  := by
  rw [isSquare_iff Solver.ideal_correct wellFormed_steady.sort_trans]
  rintro M ⟨M₁, h₁, hM₁⟩ ⟨M₂, h₂, hM₂⟩
  rw [Quantified.holds_qf, steady_trans] at hM₁ hM₂
  rw [steady_trans]
  fin_cases hC
  · rw [value_eq_of_agreeOff h₂ (by decide),
      value_eq_of_agreeOff h₂ (by decide)] at hM₂
    rw [value_eq_of_agreeOff h₁ (x := ⟨"y!", .int⟩) (by decide),
      value_eq_of_agreeOff h₁ (x := ⟨"y", .int⟩) (by decide)] at hM₁
    exact ⟨hM₂.1, hM₁.2⟩
  · rw [value_eq_of_agreeOff h₁ (by decide),
      value_eq_of_agreeOff h₁ (by decide)] at hM₁
    rw [value_eq_of_agreeOff h₂ (x := ⟨"y!", .int⟩) (by decide),
      value_eq_of_agreeOff h₂ (x := ⟨"y", .int⟩) (by decide)] at hM₂
    exact ⟨hM₁.1, hM₂.2⟩

theorem check_steady :
  checkINVDnC .ideal steady steadyClasses = some .RECPOST
  := by
  have hcheck : checkINVSquarePost .ideal steady steadyClasses = true := by
    simp only [checkINVSquarePost, Bool.and_eq_true, List.all_eq_true]
    exact ⟨rfl, fun C hC => ⟨isSquare_steady_post hC, isSquare_steady_trans hC⟩⟩
  rw [checkINVDnC, if_pos hcheck]

theorem steady_preWithoutArg {x : Var} (hx : x ∈ steady.requestArgs)
    (h : (steady.preWithoutArg .RECPOST [x]).Holds M) :
  (M.value x).toInt = 0
  := by
  obtain ⟨M', hagree, hM'⟩ := h
  rw [Quantified.holds_qf, steady_pre] at hM'
  fin_cases hx
  · rw [← value_eq_of_agreeOff hagree (by decide)]
    apply hM'.1
  · rw [← value_eq_of_agreeOff hagree (by decide)]
    apply hM'.2

theorem steady_transWithoutArg {x : Var} (hx : x ∈ steady.requestArgs)
    (h : (steady.transWithoutArg .RECPOST [x]).Holds M) :
  (M.value (prime x)).toInt = (M.value x).toInt
  := by
  obtain ⟨M', hagree, hM'⟩ := h
  rw [Quantified.holds_qf, steady_trans] at hM'
  fin_cases hx
  · rw [← value_eq_of_agreeOff hagree (by decide),
      ← value_eq_of_agreeOff hagree (by decide)]
    apply hM'.1
  · rw [← value_eq_of_agreeOff hagree (by decide),
      ← value_eq_of_agreeOff hagree (by decide)]
    apply hM'.2

theorem steady_postWithoutArg {x : Var} (hx : x ∈ steady.requestArgs) :
  (steady.postWithoutArg .RECPOST [x]).Holds M ↔ 0 ≤ (M.value x).toInt
  := by
  constructor
  · rintro ⟨M', hagree, hM'⟩
    rw [Quantified.holds_qf, steady_post] at hM'
    fin_cases hx
    · rw [← value_eq_of_agreeOff hagree (by decide)]
      apply hM'.1
    · rw [← value_eq_of_agreeOff hagree (by decide)]
      apply hM'.2
  · intro hM
    use M.mix (others steady.requestArgs [x]) default, agreeOff_mix _ _ _
    rw [Quantified.holds_qf, steady_post]
    fin_cases hx
    · exact ⟨hM, le_refl 0⟩
    · exact ⟨le_refl 0, hM⟩

/-- What is found for a class of one variable. -/
theorem isSolution_nonneg {S : Solver} (hS : S.Correct) {x : Var} (hx : x ∈ steady.requestArgs)
    {q : SubProblem} (hq : steady.genSubproblem S .RECPOST [x] = some q) :
  q.IsSolution steady (nonneg x)
  := by
  rw [InvProblem.genSubproblem] at hq
  split at hq
  · obtain rfl := Option.some.inj hq
    have hsort : x.sort = .int := by
      fin_cases hx
      · rfl
      · rfl
    refine ⟨rfl, ?_, rfl, ?_, ?_, ?_, ?_⟩
    · intro z hz
      simpa [nonneg] using hz
    · simp [nonneg, hsort]
    · intro M hM
      have h := steady_preWithoutArg hx
        ((hS.holds_eliminate (wellSorted_preWithoutArg wellFormed_steady) M).mp hM)
      rw [holds_nonneg, h]
    · intro M hM hpos
      have h := steady_transWithoutArg hx
        ((hS.holds_eliminate (wellSorted_transWithoutArg wellFormed_steady) M).mp hM)
      rw [holds_nonneg] at hpos ⊢
      rw [value_next (List.nodup_singleton x) List.mem_cons_self, h]
      apply hpos
    · intro M hM
      rw [hS.holds_eliminate (wellSorted_postWithoutArg wellFormed_steady),
        steady_postWithoutArg hx, ← holds_nonneg]
      apply hM
  · cases hq

/-- The subproblem of a class of one variable is not discarded. -/
theorem exists_genSubproblem_steady {x : Var} (hx : x ∈ steady.requestArgs) :
  ∃ q, steady.genSubproblem .ideal .RECPOST [x] = some q
  := by
  have hvalid : Solver.ideal.valid
      (.implies (Solver.ideal.eliminate (steady.preWithoutArg .RECPOST [x]))
        (Solver.ideal.eliminate (steady.postWithoutArg .RECPOST [x]))) = true := by
    rw [Solver.ideal_correct.valid_iff]
    · intro M hM
      rw [Solver.ideal_correct.holds_eliminate (wellSorted_preWithoutArg wellFormed_steady)] at hM
      rw [Solver.ideal_correct.holds_eliminate (wellSorted_postWithoutArg wellFormed_steady),
        steady_postWithoutArg hx, steady_preWithoutArg hx hM]
    · exact ⟨Solver.ideal_correct.wellSorted_eliminate (wellSorted_preWithoutArg wellFormed_steady),
        Solver.ideal_correct.wellSorted_eliminate (wellSorted_postWithoutArg wellFormed_steady)⟩
  rw [InvProblem.genSubproblem, if_pos hvalid]
  exact ⟨_, rfl⟩

/-- What is found when the classes in `known` are solved. -/
def found (known : List ℕ) (k : ℕ) (_ : SubProblem) : Option Definition :=
  if k ∈ known then steady.requestArgs[k]?.map nonneg else none

theorem divided_steady (known : List ℕ) :
  Divided .ideal steady .RECPOST (found known) steadyClasses
  := by
  refine ⟨Solver.ideal_correct, wellFormed_steady, ⟨rfl, by decide, rfl⟩,
    cover_steadyClasses, by decide, check_steady, ?_⟩
  intro p hp q hq d hd
  rw [found] at hd
  split at hd
  · fin_cases hp
    · obtain rfl := Option.some.inj hd
      apply isSolution_nonneg Solver.ideal_correct (by decide) hq
    · obtain rfl := Option.some.inj hd
      apply isSolution_nonneg Solver.ideal_correct (by decide) hq
  · cases hd

theorem subresults_steady (known : List ℕ) :
  steady.subresults .ideal .RECPOST (found known) steadyClasses
    = ((List.range 2).filter (· ∈ known)).filterMap fun k => steady.requestArgs[k]?.map nonneg
  := by
  obtain ⟨q, hq⟩ := exists_genSubproblem_steady (x := ⟨"x", .int⟩) (by decide)
  obtain ⟨q', hq'⟩ := exists_genSubproblem_steady (x := ⟨"y", .int⟩) (by decide)
  have hzip : steadyClasses.zipIdx = [([⟨"x", .int⟩], 0), ([⟨"y", .int⟩], 1)] := rfl
  have hrange : List.range 2 = [0, 1] := rfl
  rw [InvProblem.subresults, hzip, hrange, List.filterMap_filter]
  simp only [List.filterMap_cons, List.filterMap_nil, InvProblem.subresult, hq, hq',
    Option.bind_some, found, decide_eq_true_eq]

theorem solve_correct_steady :
  ∃ d, steady.solve .ideal .RECPOST (found [0, 1]) steadyClasses = some d
    ∧ steady.Solves (d.eval default)
  := by
  apply (solve_correct_iff (divided_steady [0, 1])).mpr
  constructor
  · rw [subresults_steady]
    decide
  · intro p hp hnone
    fin_cases hp
    · obtain ⟨q, hq⟩ := exists_genSubproblem_steady (x := ⟨"x", .int⟩) (by decide)
      rw [InvProblem.subresult, hq] at hnone
      cases hnone
    · obtain ⟨q, hq⟩ := exists_genSubproblem_steady (x := ⟨"y", .int⟩) (by decide)
      rw [InvProblem.subresult, hq] at hnone
      cases hnone

/-- Nothing is combined when all classes are lost, and too little when one of them is. -/
theorem not_solve_correct_steady :
  (¬ ∀ S P dnctype solveSubproblem relation, Divided S P dnctype solveSubproblem relation →
      ∃ d, P.solve S dnctype solveSubproblem relation = some d) ∧
    ¬ ∀ S P dnctype solveSubproblem relation, Divided S P dnctype solveSubproblem relation →
      ∀ d, P.solve S dnctype solveSubproblem relation = some d → P.Solves (d.eval default)
  := by
  constructor
  · intro h
    obtain ⟨d, hd⟩ := h _ _ _ _ _ (divided_steady [])
    rw [solve_eq_none_iff.mpr (subresults_steady [])] at hd
    cases hd
  · intro h
    have hsolve : steady.solve .ideal .RECPOST (found [0]) steadyClasses
        = some (nonneg ⟨"x", .int⟩) := by
      rw [InvProblem.solve, subresults_steady [0]]
      rfl
    have hsolves := h _ _ _ _ _ (divided_steady [0]) _ hsolve
    rw [wellFormed_steady.solves_iff_bodies ⟨rfl, by decide, rfl⟩ rfl
      ⟨by decide, rfl⟩] at hsolves
    have hpost := hsolves.2.2 (Model.bind default [⟨"y", .int⟩] [.int (-1)])
    rw [holds_nonneg, steady_post] at hpost
    apply absurd (hpost (le_refl 0)).2 (by decide)

end Example

end Sygus.Invariant
