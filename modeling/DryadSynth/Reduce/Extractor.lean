import DryadSynth.Library.LIA.Definitions
import DryadSynth.Reduce.Determined
import DryadSynth.Invariant.Template

/-!
# The reduction of the arguments

After parsing, the arguments that a scan of the problem finds unused are removed from the
functions to synthesize.  In an invariant problem the scan compares the arguments with the
variables of the three definitions; in the other problems with conditions on linear integer
arithmetic it looks at which constants occur in which argument of the calls, and removes the
formal arguments of the same names.
-/

namespace Sygus.Reduce

open LIA Reach Invariant

/-! ### Scans -/

mutual

/-- The constants of an expression: variables and applications to nothing, but no numerals. -/
def scanForVars : Expr → List Expr
  | .num _ => []
  | .var x => [.var x]
  | .app o [] => [.app o []]
  | .app _ (e :: args) => scanForVars e ++ scanAll args

def scanAll : List Expr → List Expr
  | [] => []
  | e :: args => scanForVars e ++ scanAll args

end

/-- The operator is a function of one of the names. -/
def isCall (names : List String) : Op → Bool
  | .func f => f.name ∈ names
  | _ => false

mutual

/-- The constants outside of all calls of the functions. -/
def usedInConstraints (names : List String) : Expr → List Expr
  | .num _ => []
  | .var x => [.var x]
  | .app o [] => [.app o []]
  | .app o (e :: args) =>
      if isCall names o then []
      else usedInConstraints names e ++ usedInConstraintsAll names args

def usedInConstraintsAll (names : List String) : List Expr → List Expr
  | [] => []
  | e :: args => usedInConstraints names e ++ usedInConstraintsAll names args

end

mutual

/-- The constants in the argument with number `i` of the calls of a function. -/
def usedInArgs (name : String) (i : ℕ) : Expr → List Expr
  | .num _ => []
  | .var _ => []
  | .app o args =>
      (if isCall [name] o then (args[i]?.map scanForVars).getD [] else [])
        ++ usedInArgsAll name i args

def usedInArgsAll (name : String) (i : ℕ) : List Expr → List Expr
  | [] => []
  | e :: args => usedInArgs name i e ++ usedInArgsAll name i args

end

/-! ### Problems without invariants -/

/-- A problem over linear integer arithmetic: the functions to synthesize with their arguments,
and the constraint. -/
structure CliaProblem where
  requestArgs : List (FuncDecl × List Var)
  combinedConstraint : Expr

namespace CliaProblem

variable (P : CliaProblem)

def names : List String := P.requestArgs.map fun p => p.1.name

/-- The constants of the arguments of a function, position by position. -/
def argSets (name : String) (n : ℕ) : List (List Expr) :=
  (List.range n).map fun i => usedInArgs name i P.combinedConstraint

/-- The constants in the argument with number `i` are also elsewhere in the constraint, or in
another argument. -/
def hasInterpart (sets : List (List Expr)) (i : ℕ) (argSet : List Expr) : Bool :=
  argSet.any (· ∈ usedInConstraints P.names P.combinedConstraint)
    || sets.zipIdx.any fun p => p.2 ≠ i && argSet.any (· ∈ p.1)

/-- The constants of the arguments that have them for themselves. -/
def unused (name : String) (n : ℕ) : List Expr :=
  let sets := P.argSets name n
  sets.zipIdx.flatMap fun p => if P.hasInterpart sets p.2 p.1 then [] else p.1

def requestUsedArgs (p : FuncDecl × List Var) : List Var :=
  let usedList := p.2.filter fun x => Expr.var x ∉ P.unused p.1.name p.2.length
  if usedList = [] then p.2 else usedList

def requests : List Request :=
  P.requestArgs.map fun p => ⟨p.1, p.2, P.requestUsedArgs p⟩

/-- The functions have different names and arguments of the declared sorts, and the constraint
is a formula about them. -/
structure WellFormed : Prop where
  names : P.names.Nodup
  domain : ∀ p ∈ P.requestArgs, p.1.domain = p.2.map Var.sort
  nodup : ∀ p ∈ P.requestArgs, p.2.Nodup
  sort : P.combinedConstraint.sort = some .bool
  funcs : ∀ f ∈ P.combinedConstraint.funcs, f ∈ P.requestArgs.map Prod.fst

/-- For some of the arguments, all dropped ones among them, the variables that occur in their places
only can be given values for which the other arguments of the calls determine them. -/
def Determined : Prop :=
  ∃ used : Request → List Var, (∀ r ∈ P.requests, used r ⊆ r.requestUsedArgs) ∧
    Reduce.Determined (withUsed used P.requests) P.combinedConstraint

/-- The functions are called with their formal arguments only. -/
def Plain : Prop :=
  ∀ p ∈ P.requestArgs, ∀ c ∈ P.combinedConstraint.calls, c.1 = p.1 → c.2 = p.2.map .var

instance decidablePlain : Decidable P.Plain :=
  inferInstanceAs (Decidable (∀ p ∈ P.requestArgs, ∀ c ∈ P.combinedConstraint.calls,
    c.1 = p.1 → c.2 = p.2.map .var))

end CliaProblem

/-! ### What the scan keeps -/

namespace CliaProblem

variable {P : CliaProblem} {p : FuncDecl × List Var} {name : String} {n : ℕ} {e : Expr} {x : Var}

/-- A constant is counted as unused when it is in one argument, in no other one of this function,
and nowhere outside of the calls. -/
theorem mem_unused (h : e ∈ P.unused name n) :
  e ∉ usedInConstraints P.names P.combinedConstraint ∧
    ∃ i < n, e ∈ usedInArgs name i P.combinedConstraint ∧
      ∀ j < n, j ≠ i → e ∉ usedInArgs name j P.combinedConstraint
  := by
  obtain ⟨⟨argSet, i⟩, hmem, he⟩ := List.mem_flatMap.mp h
  obtain ⟨hlt, hget⟩ := List.mem_zipIdx_iff_getElem?.mp hmem |> List.getElem?_eq_some_iff.mp
  have hi : i < n := by simpa [argSets] using hlt
  obtain rfl : usedInArgs name i P.combinedConstraint = argSet := by simpa [argSets] using hget
  dsimp only at he
  split at he
  · cases he
  · next hno =>
      simp only [hasInterpart, Bool.or_eq_true, not_or, List.any_eq_true, not_exists, not_and,
        decide_eq_true_eq, Bool.and_eq_true] at hno
      refine ⟨hno.1 e he, i, hi, he, ?_⟩
      intro j hj hne hej
      apply hno.2 (usedInArgs name j P.combinedConstraint, j) _ hne e he hej
      rw [List.mem_zipIdx_iff_getElem?]
      simp [argSets, hj]

/-- An argument is dropped when its name is counted as unused. -/
theorem mem_unused_of_not_mem (hx : x ∈ p.2) (hdropped : x ∉ P.requestUsedArgs p) :
  Expr.var x ∈ P.unused p.1.name p.2.length
  := by
  rw [requestUsedArgs] at hdropped
  split at hdropped
  · apply absurd hx hdropped
  · by_contra hnot
    apply hdropped
    apply List.mem_filter.mpr ⟨hx, by simpa using hnot⟩

theorem mem_usedInConstraintsAll {names : List String} {args : List Expr} {a c : Expr}
    (ha : a ∈ args) (hc : c ∈ usedInConstraints names a) :
  c ∈ usedInConstraintsAll names args
  := by
  induction args with
  | nil => cases ha
  | cons b args ih =>
      rw [usedInConstraintsAll, List.mem_append]
      rcases List.mem_cons.mp ha with rfl | ha
      · exact .inl hc
      · exact .inr (ih ha)

/-- The arguments whose names are those of no dropped argument. -/
def kept (P : CliaProblem) (r : Request) : List Var :=
  r.requestArgs.filter fun x => ∀ q ∈ P.requests, x ∈ q.requestArgs → x ∈ q.requestUsedArgs

theorem kept_subset {r : Request} (hr : r ∈ P.requests) :
  P.kept r ⊆ r.requestUsedArgs
  := by
  intro x hx
  obtain ⟨hargs, hkept⟩ := List.mem_filter.mp hx
  apply of_decide_eq_true hkept r hr hargs

/-- Outside of the calls, where a dropped argument is in its own place, the scan sees it. -/
theorem mem_usedInConstraints_of_occurs
    (hcalls : ∀ c ∈ e.calls, ∃ p ∈ P.requestArgs, c = (p.1, p.2.map .var))
    (hx : ¬ ∀ q ∈ P.requests, x ∈ q.requestArgs → x ∈ q.requestUsedArgs)
    (h : Occurs (withUsed P.kept P.requests) (.var x) e) :
  Expr.var x ∈ usedInConstraints P.names e
  := by
  induction h with
  | refl => apply List.mem_singleton_self _
  | @arg o args i b hb hkept hoccurs ih =>
      have hmem : b ∈ args := List.mem_of_getElem? hb
      have hb' : Expr.var x ∈ usedInConstraints P.names b :=
        ih fun c hc => hcalls c (mem_calls_app.mpr (.inr ⟨b, hmem, hc⟩))
      cases args with
      | nil => cases hmem
      | cons a args =>
          rw [usedInConstraints]
          split
          · next hcall =>
              -- the calls have the formal arguments, of which this one is not kept
              cases o with
              | func f =>
                  have hcall : (f, a :: args) ∈ (Expr.func f (a :: args)).calls :=
                    mem_calls_app.mpr (.inl ⟨f, rfl, rfl⟩)
                  obtain ⟨p, hp, heq⟩ := hcalls _ hcall
                  obtain ⟨rfl, hargs⟩ := Prod.mk.inj heq
                  rw [hargs, List.getElem?_map] at hb
                  obtain ⟨y, hy, rfl⟩ := Option.map_eq_some_iff.mp hb
                  cases hoccurs
                  have hr : ⟨p.1, p.2, P.requestUsedArgs p⟩ ∈ P.requests :=
                    List.mem_map.mpr ⟨p, hp, rfl⟩
                  refine absurd ⟨_, List.mem_map.mpr ⟨_, hr, rfl⟩, rfl, x, hy, ?_⟩ hkept
                  intro hkept'
                  apply hx
                  apply of_decide_eq_true (List.mem_filter.mp hkept').2
              | _ => cases hcall
          · apply mem_usedInConstraintsAll hmem hb'

/-- Where all calls are plain, what the scan drops the other arguments determine. -/
theorem Plain.determined (hP : P.WellFormed) (h : P.Plain) :
  P.Determined
  := by
  have hcalls : ∀ c ∈ P.combinedConstraint.calls,
      ∃ p ∈ P.requestArgs, c = (p.1, p.2.map .var) := by
    intro c hc
    have hfunc : c.1 ∈ P.combinedConstraint.funcs := by
      rw [funcs_eq_map_calls]
      apply List.mem_map_of_mem hc
    obtain ⟨p, hp, heq⟩ := List.mem_map.mp (hP.funcs _ hfunc)
    refine ⟨p, hp, Prod.ext heq.symm ?_⟩
    exact h p hp c hc heq.symm
  refine ⟨P.kept, fun r hr => kept_subset hr, fun F => ⟨default, ?_⟩⟩
  intro r' hr' args args' hargs hargs' M M' hM hM' hselect
  obtain ⟨r, hr, rfl⟩ := List.mem_map.mp hr'
  obtain ⟨p, hp, rfl⟩ := List.mem_map.mp hr
  obtain rfl : args = p.2.map .var := h p hp _ hargs.mem_calls rfl
  obtain rfl : args' = p.2.map .var := h p hp _ hargs'.mem_calls rfl
  simp only [actuals, eval_map_var] at hselect ⊢
  apply List.map_congr_left
  intro x hx
  by_cases hkept : ∀ q ∈ P.requests, x ∈ q.requestArgs → x ∈ q.requestUsedArgs
  · -- a kept argument
    have hmem : x ∈ P.kept ⟨p.1, p.2, P.requestUsedArgs p⟩ :=
      List.mem_filter.mpr ⟨hx, decide_eq_true hkept⟩
    have hvalue : ∀ M : Model, (Model.bind default p.2 (M.values p.2)).value x = M.value x :=
      fun M => List.map_inj_left.mp (values_bind (hP.nodup p hp) (fits_values M p.2)) x hx
    have heq := List.map_inj_left.mp hselect x hmem
    rw [hvalue, hvalue] at heq
    exact heq
  · have hnot : ¬ Occurs (withUsed P.kept P.requests) (.var x) P.combinedConstraint := by
      intro hoccurs
      obtain ⟨q, hq, hxq, hdropped⟩ :
          ∃ q ∈ P.requests, x ∈ q.requestArgs ∧ x ∉ q.requestUsedArgs := by simpa using hkept
      obtain ⟨p', hp', rfl⟩ := List.mem_map.mp hq
      apply (mem_unused (mem_unused_of_not_mem hxq hdropped)).1
      apply mem_usedInConstraints_of_occurs hcalls hkept hoccurs
    exact (hM x hnot).trans (hM' x hnot).symm

end CliaProblem

/-! ### The reduction -/

/-- A problem of one of the two kinds. -/
inductive Problem where
  | inv (P : InvProblem)
  | clia (P : CliaProblem)

namespace Problem

variable (S : Solver)

def requests : Problem → List Request
  | inv P => [⟨P.inv, P.requestArgs, P.requestUsedArgs⟩]
  | clia P => P.requests

/-- The constraint before the reduction. -/
def constraint : Problem → Expr
  | inv P => .and [.tru, P.invCombinedConstraint]
  | clia P => .and [P.combinedConstraint, .tru]

/-- The constraint on the reduced functions. -/
def finalConstraint (p : Problem) : Expr := S.simplify (rewriteAll p.requests p.constraint)

def WellFormed : Problem → Prop
  | inv P => P.WellFormed
  | clia P => P.WellFormed

def Solves (p : Problem) (F : Interp) : Prop :=
  ∀ M, p.constraint.Holds (withFuncs M (p.requests.map Request.func) F)

def RdcdSolves (p : Problem) (H : Interp) : Prop :=
  ∀ M, (p.finalConstraint S).Holds (withFuncs M (p.requests.map Request.rdcdFunc) H)

/-- The reduction keeps the problem solvable or unsolvable, and the solutions of the reduced
problem are solutions. -/
def ReductionExact (p : Problem) : Prop :=
  ((∃ F, p.Solves F) ↔ ∃ H, p.RdcdSolves S H) ∧
    ∀ H, p.RdcdSolves S H → p.Solves (read p.requests H)

end Problem

/-! ### What the reduction keeps -/

section Exact

variable {S : Solver} {p : Problem} {F H : Interp}

theorem CliaProblem.requestUsedArgs_sublist (P : CliaProblem) (q : FuncDecl × List Var) :
  (P.requestUsedArgs q).Sublist q.2
  := by
  rw [CliaProblem.requestUsedArgs]
  split
  · apply List.Sublist.refl _
  · apply List.filter_sublist

theorem CliaProblem.WellFormed.requests {P : CliaProblem} (hP : P.WellFormed) :
  WellFormedAll P.requests
  := by
  constructor
  · intro r hr
    obtain ⟨q, hq, rfl⟩ := List.mem_map.mp hr
    exact ⟨hP.domain q hq, hP.nodup q hq, (P.requestUsedArgs_sublist q).subset⟩
  · rw [CliaProblem.requests, List.map_map]
    apply hP.names

theorem InvProblem.WellFormed.request {P : InvProblem} (hP : P.WellFormed) :
  WellFormedAll (Problem.inv P).requests
  := by
  constructor
  · intro r hr
    rw [List.mem_singleton.mp hr]
    exact ⟨rfl, hP.nodup_args, InvProblem.requestUsedArgs_subset⟩
  · apply List.nodup_singleton _

theorem Problem.WellFormed.requests (hp : p.WellFormed) :
  WellFormedAll p.requests
  := by
  cases p with
  | inv P => exact InvProblem.WellFormed.request hp
  | clia P => exact CliaProblem.WellFormed.requests hp

theorem Problem.WellFormed.nodup_used (hp : p.WellFormed) :
  ∀ r ∈ p.requests, r.requestUsedArgs.Nodup
  := by
  intro r hr
  cases p with
  | inv P =>
      rw [List.mem_singleton.mp hr]
      apply InvProblem.WellFormed.nodup_used hp
  | clia P =>
      obtain ⟨q, hq, rfl⟩ := List.mem_map.mp hr
      apply (CliaProblem.WellFormed.nodup hp q hq).sublist (P.requestUsedArgs_sublist q)

theorem Problem.WellFormed.sort_constraint (hp : p.WellFormed) :
  p.constraint.sort = some .bool
  := by
  cases p with
  | inv P =>
      have h := InvProblem.WellFormed.sort_invCombinedConstraint hp
      simp [Problem.constraint, h]
  | clia P =>
      have h := CliaProblem.WellFormed.sort hp
      simp [Problem.constraint, h]

theorem Problem.WellFormed.funcs_constraint (hp : p.WellFormed) :
  ∀ f ∈ p.constraint.funcs, f ∈ p.requests.map Request.func
  := by
  intro f hf
  cases p with
  | inv P =>
      simp only [Problem.constraint, mem_funcs_app, List.mem_cons, List.not_mem_nil, or_false,
        exists_eq_or_imp, exists_eq_left, reduceCtorEq, false_or, false_and, exists_false] at hf
      rw [InvProblem.WellFormed.funcs_invCombinedConstraint hp f hf]
      apply List.mem_singleton_self _
  | clia P =>
      simp only [Problem.constraint, mem_funcs_app, List.mem_cons, List.not_mem_nil, or_false,
        exists_eq_or_imp, exists_eq_left, reduceCtorEq, false_or, false_and, exists_false] at hf
      obtain ⟨q, hq, rfl⟩ := List.mem_map.mp (CliaProblem.WellFormed.funcs hp f hf)
      apply List.mem_map.mpr ⟨_, List.mem_map.mpr ⟨q, hq, rfl⟩, rfl⟩

theorem Problem.WellFormed.rdcdSolves_iff (hS : S.Correct) (hp : p.WellFormed) :
  p.RdcdSolves S H
    ↔ ∀ M, (rewriteAll p.requests p.constraint).Holds
        (withFuncs M (p.requests.map Request.rdcdFunc) H)
  := by
  apply forall_congr'
  intro M
  apply (hS.simplify _).holds
  apply hp.requests.sort_rewriteAll hp.sort_constraint

/-- The reduced problem has the solutions of the original one that do not depend on the arguments
that are not used. -/
theorem Problem.WellFormed.reductionExact_iff (hS : S.Correct) (hp : p.WellFormed) :
  p.ReductionExact S
    ↔ ((∃ F, p.Solves F) → ∃ F, p.Solves F ∧ Independent p.requests F)
  := by
  have hread : ∀ H, p.RdcdSolves S H ↔ p.Solves (read p.requests H) := by
    intro H
    rw [hp.rdcdSolves_iff hS]
    exact forall_congr' fun M =>
      hp.requests.holds_rewriteAll hp.sort_constraint hp.funcs_constraint
  have hexists : (∃ H, p.RdcdSolves S H) ↔ ∃ F, p.Solves F ∧ Independent p.requests F := by
    simp only [hp.rdcdSolves_iff hS]
    apply hp.requests.exists_rewriteAll_iff hp.nodup_used hp.sort_constraint hp.funcs_constraint
  rw [Problem.ReductionExact, hexists]
  constructor
  · intro h
    apply h.1.mp
  · intro h
    refine ⟨⟨h, fun ⟨F, hF, _⟩ => ⟨F, hF⟩⟩, fun H hH => (hread H).mp hH⟩

end Exact

end Sygus.Reduce

/-! ### Invariant problems -/

namespace Sygus.Invariant.InvProblem

open LIA Reach Reduce

variable {P : InvProblem} {F : Interp}

/-- A step, after which the arguments that are not used take any values. -/
def Smear (P : InvProblem) (vs ws : List Value) : Prop :=
  ∃ vs', P.system.trans vs vs' ∧ Fits P.requestArgs ws ∧ P.select vs' = P.select ws

/-- The initial states, with any values of the arguments that are not used. -/
def smearPre (P : InvProblem) : Set (List Value) :=
  {ws | Fits P.requestArgs ws ∧ ∃ vs ∈ P.system.pre, P.select vs = P.select ws}

theorem smeared_of_select {vs ws : List Value} (hvs : vs ∈ reachable P.Smear P.smearPre)
    (hfits : Fits P.requestArgs ws) (hselect : P.select vs = P.select ws) :
  ws ∈ reachable P.Smear P.smearPre
  := by
  obtain ⟨us, hus, hsteps⟩ := hvs
  cases hsteps with
  | refl =>
      obtain ⟨-, us', hus', h⟩ := hus
      exact subset_reachable _ _ ⟨hfits, us', hus', h.trans hselect⟩
  | tail hsteps hstep =>
      obtain ⟨vs', htrans, -, h⟩ := hstep
      exact closed_reachable _ _ _ ⟨us, hus, hsteps⟩ _
        ⟨vs', htrans, hfits, h.trans hselect⟩

theorem solves_inv_iff :
  (Problem.inv P).Solves F ↔ P.Solves (F P.inv)
  := by
  apply forall_congr'
  intro M
  have hM : withFuncs M [P.inv] F = M.withFunc P.inv (F P.inv) := by
    simp only [withFuncs, Model.withFunc, Model.mk.injEq, true_and, List.mem_singleton]
    funext f
    by_cases hf : f = P.inv
    · rw [hf, if_pos rfl, Function.update_self]
    · rw [if_neg hf, Function.update_of_ne hf]
  change (Expr.and [.tru, P.invCombinedConstraint]).Holds (withFuncs M [P.inv] F) ↔ _
  rw [holds_and_pair, hM]
  apply and_iff_right holds_tru

open Classical in
/-- An invariant that does not depend on the arguments that are not used exists when the states
that any values of these make reachable are safe. -/
theorem WellFormed.exists_independent_iff (hP : P.WellFormed) :
  (∃ F, (Problem.inv P).Solves F ∧ Independent (Problem.inv P).requests F)
    ↔ reachable P.Smear P.smearPre ⊆ P.system.post
  := by
  constructor
  · rintro ⟨F, hF, hindep⟩
    rw [solves_inv_iff, hP.solves_iff] at hF
    have hselect : ∀ {vs ws}, vs ∈ P.truths (F P.inv) → Fits P.requestArgs ws →
        P.select vs = P.select ws → ws ∈ P.truths (F P.inv) := by
      rintro vs ws ⟨hfits, hvs⟩ hfits' hselect
      have h := hindep _ (List.mem_singleton_self _) vs ws hfits hfits' hselect
      use hfits'
      have h' := congrArg Value.toBool h
      apply h'.symm.trans hvs
    have hsub : reachable P.Smear P.smearPre ⊆ P.truths (F P.inv) := by
      apply reachable_subset
      · rintro ws ⟨hfits, vs, hvs, h⟩
        apply hselect (hF.pre hvs) hfits h
      · rintro vs hvs ws ⟨vs', htrans, hfits, h⟩
        apply hselect (hF.closed vs hvs vs' htrans) hfits h
    apply hsub.trans hF.post
  · intro hsafe
    use fun _ vs => .bool (decide (vs ∈ reachable P.Smear P.smearPre))
    constructor
    · rw [solves_inv_iff, hP.solves_iff]
      constructor
      · intro vs hvs
        exact ⟨hvs.1, decide_eq_true (subset_reachable _ _ ⟨hvs.1, vs, hvs, rfl⟩)⟩
      · rintro vs ⟨-, hvs⟩ vs' htrans
        refine ⟨htrans.2.1, decide_eq_true ?_⟩
        exact closed_reachable _ _ vs (of_decide_eq_true hvs) vs'
          ⟨vs', htrans, htrans.2.1, rfl⟩
      · rintro vs ⟨-, hvs⟩
        apply hsafe (of_decide_eq_true hvs)
    · intro r hr vs ws hfits hfits' hselect
      rw [List.mem_singleton.mp hr] at hfits hfits' hselect ⊢
      have hiff : vs ∈ reachable P.Smear P.smearPre ↔ ws ∈ reachable P.Smear P.smearPre :=
        ⟨fun h => smeared_of_select h hfits' hselect,
          fun h => smeared_of_select h hfits hselect.symm⟩
      simp only [hiff]

end Sygus.Invariant.InvProblem

namespace Sygus.Reduce

open LIA Reach Invariant

/-- What an exact reduction needs.  In an invariant problem that has a solution, the states stay
safe when the arguments that are not used take any values; in the other problems, the arguments of
the calls that are used determine the other ones. -/
def Problem.Keeps : Problem → Prop
  | inv P => reachable P.system.trans P.system.pre ⊆ P.system.post →
      reachable P.Smear P.smearPre ⊆ P.system.post
  | clia P => P.Determined

theorem Problem.WellFormed.reductionExact_inv_iff {S : Solver} (hS : S.Correct) {P : InvProblem}
    (hP : P.WellFormed) :
  (Problem.inv P).ReductionExact S ↔ (Problem.inv P).Keeps
  := by
  have hexists : (∃ F, (Problem.inv P).Solves F)
      ↔ reachable P.system.trans P.system.pre ⊆ P.system.post := by
    simp only [InvProblem.solves_inv_iff]
    rw [← exists_invariant_iff, ← hP.exists_solves_iff]
    constructor
    · rintro ⟨F, hF⟩
      exact ⟨F P.inv, hF⟩
    · rintro ⟨I, hI⟩
      exact ⟨fun _ => I, hI⟩
  have hp : (Problem.inv P).WellFormed := hP
  rw [hp.reductionExact_iff hS, hexists, hP.exists_independent_iff]
  rfl

theorem CliaProblem.solves_iff {P : CliaProblem} {F : Interp} :
  (Problem.clia P).Solves F
    ↔ ∀ M, P.combinedConstraint.Holds (withFuncs M (P.requests.map Request.func) F)
  := by
  apply forall_congr'
  intro M
  change (Expr.and [P.combinedConstraint, .tru]).Holds
    (withFuncs M (P.requests.map Request.func) F) ↔ _
  rw [holds_and_pair]
  apply and_iff_left holds_tru

theorem CliaProblem.WellFormed.exists_independent {P : CliaProblem} (hP : P.WellFormed)
    (h : P.Determined) (hF : ∃ F, (Problem.clia P).Solves F) :
  ∃ F, (Problem.clia P).Solves F ∧ Independent P.requests F
  := by
  obtain ⟨used, hused, hdetermined⟩ := h
  obtain ⟨F, hF⟩ := hF
  rw [solves_iff, ← func_withUsed used] at hF
  obtain ⟨F', hF', hindep⟩ :=
    (hP.requests.withUsed hused).exists_independent hP.sort hdetermined hF
  rw [func_withUsed] at hF'
  exact ⟨F', solves_iff.mpr hF', hindep.of_withUsed hused⟩

/-- The reduction is exact under the condition, without which it is not for an invariant problem.
The scan sees to it where functions are called with their formal arguments only. -/
theorem reduction_exact_of_keeps {S : Solver} (hS : S.Correct) {p : Problem} (hp : p.WellFormed) :
  (p.Keeps → p.ReductionExact S)
    ∧ (∀ P, p = .inv P → p.ReductionExact S → p.Keeps)
    ∧ ∀ P, p = .clia P → P.Plain → p.Keeps
  := by
  refine ⟨?_, ?_, ?_⟩
  · intro hkeeps
    cases p with
    | inv P =>
        have hP : P.WellFormed := hp
        apply (Problem.WellFormed.reductionExact_inv_iff hS hP).mpr hkeeps
    | clia P =>
        have hP : P.WellFormed := hp
        apply (hp.reductionExact_iff hS).mpr
        apply hP.exists_independent hkeeps
  · rintro P rfl hexact
    have hP : P.WellFormed := hp
    apply (Problem.WellFormed.reductionExact_inv_iff hS hP).mp hexact
  · rintro P rfl hplain
    have hP : P.WellFormed := hp
    apply hplain.determined hP

/-- The function is at least its second argument, and the first one is dropped. -/
def secondBound : CliaProblem where
  requestArgs := [(⟨"f", [.int, .int], .int⟩, [⟨"x", .int⟩, ⟨"y", .int⟩])]
  combinedConstraint :=
    .ge (.func ⟨"f", [.int, .int], .int⟩ [.var ⟨"x", .int⟩, .var ⟨"y", .int⟩]) (.var ⟨"y", .int⟩)

theorem keeps_countUp :
  (Problem.inv countUp).Keeps
  := by
  intro hsafe
  -- all arguments are used, so that nothing is smeared
  have hselect : ∀ {vs ws}, Fits countUp.requestArgs vs → Fits countUp.requestArgs ws →
      countUp.select vs = countUp.select ws → vs = ws := by
    intro vs ws hfits hfits' h
    have hused : countUp.requestUsedArgs = countUp.requestArgs := by decide
    rw [InvProblem.select, InvProblem.select, hused,
      values_bind wellFormed_countUp.nodup_args hfits,
      values_bind wellFormed_countUp.nodup_args hfits'] at h
    apply h
  refine (reachable_subset ?_ ?_).trans hsafe
  · rintro ws ⟨hfits, vs, hvs, h⟩
    rw [← hselect hvs.1 hfits h]
    apply subset_reachable _ _ hvs
  · rintro vs hvs ws ⟨vs', htrans, hfits, h⟩
    rw [← hselect htrans.2.1 hfits h]
    apply closed_reachable _ _ vs hvs vs' htrans

theorem wellFormed_secondBound :
  secondBound.WellFormed
  := by
  refine ⟨?_, ?_, ?_, ?_, ?_⟩
  all_goals decide

theorem reduction_exact_of_keeps_examples :
  (Problem.inv countUp).ReductionExact .ideal ∧ (Problem.clia secondBound).ReductionExact .ideal
  := by
  have hwf : (Problem.inv countUp).WellFormed := wellFormed_countUp
  have hwf' : (Problem.clia secondBound).WellFormed := wellFormed_secondBound
  constructor
  · apply (reduction_exact_of_keeps Solver.ideal_correct hwf).1 keeps_countUp
  · obtain ⟨hexact, -, hkeeps⟩ := reduction_exact_of_keeps Solver.ideal_correct hwf'
    apply hexact (hkeeps secondBound rfl (by decide))

/-- The first argument is dropped. -/
example : secondBound.requests.map Request.requestUsedArgs = [[⟨"y", .int⟩]] := by decide

theorem not_reduction_exact_guarded :
  ¬ ∀ (S : Solver) (p : Problem), S.Correct → p.WellFormed → p.ReductionExact S
  := by
  intro h
  have hwf : (Problem.inv guarded).WellFormed := wellFormed_guarded
  have hexact := h .ideal (.inv guarded) Solver.ideal_correct hwf
  rw [hwf.reductionExact_iff Solver.ideal_correct,
    wellFormed_guarded.exists_independent_iff] at hexact
  obtain ⟨I, hI⟩ := wellFormed_guarded.exists_solves_iff.mpr ⟨_, isInvariant_guarded⟩
  have hsafe := hexact ⟨fun _ => I, InvProblem.solves_inv_iff.mpr hI⟩
  have hzero : [.int 0, .int 0] ∈ reachable guarded.Smear guarded.smearPre := by
    apply subset_reachable
    exact ⟨guarded_fits 0 0, [.int 0, .int 0],
      ⟨guarded_fits 0 0, (guarded_pre 0 0).mpr rfl⟩, rfl⟩
  have hone : [.int 4, .int 1] ∈ reachable guarded.Smear guarded.smearPre := by
    apply closed_reachable _ _ _ hzero
    refine ⟨[.int 5, .int 1], ⟨guarded_fits 0 0, guarded_fits 5 1, ?_⟩, guarded_fits 4 1, ?_⟩
    · apply (guarded_trans 0 0 5 1).mpr (by omega)
    · decide
  have htwo : [.int 0, .int 2] ∈ reachable guarded.Smear guarded.smearPre := by
    apply closed_reachable _ _ _ hone
    refine ⟨[.int 0, .int 2], ⟨guarded_fits 4 1, guarded_fits 0 2, ?_⟩, guarded_fits 0 2, rfl⟩
    apply (guarded_trans 4 1 0 2).mpr (by omega)
  have hlt := (guarded_post 0 2).mp (hsafe htwo).2
  omega

end Sygus.Reduce
