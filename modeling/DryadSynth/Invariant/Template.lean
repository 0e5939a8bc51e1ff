import DryadSynth.Invariant.Problem
import DryadSynth.Library.LIA.Quantified

/-!
# The template for invariants

The invariant is sought in the form `post and (pre or g)`, for a predicate `g` on the used
arguments, of which only inductiveness is left to ask.  The bodies of the definitions are reused
under the names of their own parameters.

The definitions must therefore name their parameters as the invariant does (`Named`).  Then the
template has a solution when no state outside the postcondition can be reached, from the
states that satisfy pre- and postcondition, by steps after each of which the arguments that are
not used take any values.
-/

namespace Sygus.Invariant

open LIA Reach

namespace InvProblem

variable (S : Solver) (P : InvProblem)

/-- The invariant with the template filled in. -/
def newinv : Definition :=
  ⟨P.requestArgs, .and [P.post.body,
    .or [P.pre.body, .func P.inv (P.requestArgs.map .var)]]⟩

def inductiveCstrt : Expr :=
  .implies (.and [P.trans.body, .func P.inv (P.requestArgs.map .var)])
    (.func P.inv (P.requestArgs.map fun x => .var (prime x)))

def getIndFinalConstraint : Expr :=
  (P.inductiveCstrt.expand P.inv P.newinv).expand P.inv P.reduction

def combineInvPartial (g : Definition) : Definition :=
  ⟨g.params, S.simplify (.and [P.post.body, .or [P.pre.body, g.body]])⟩

/-- A predicate on the used arguments that satisfies the constraint of the template. -/
def TemplateSolves (g : List Value → Value) : Prop :=
  ∀ M : Model, P.getIndFinalConstraint.Holds (M.withFunc P.rdcdInv g)

/-- A definition that the search can find: a formula over the used arguments. -/
structure IsPartial (g : Definition) : Prop where
  params : g.params = P.requestArgs
  vars : ∀ x ∈ g.body.vars, x ∈ P.requestUsedArgs
  funcs : g.body.funcs = []
  sort : g.body.sort = some .bool

/-- The predicate on the used arguments that a found definition stands for. -/
def usedPredicate (g : Definition) : List Value → Value :=
  Definition.eval ⟨P.requestUsedArgs, g.body⟩ default

/-- The template is complete, and what a solution of it does not give an invariant for has none. -/
def TemplateExact : Prop :=
  ((∃ I, P.Solves I) → ∃ g, P.TemplateSolves g) ∧
    ∀ g, P.IsPartial g → P.TemplateSolves (P.usedPredicate g) →
      P.Solves ((P.combineInvPartial S g).eval default) ∨ ¬ ∃ I, P.Solves I

/-- A step to a state outside the precondition, after which the arguments that are not used take
any values. -/
def Forget (vs ws : List Value) : Prop :=
  ∃ vs', P.system.trans vs vs' ∧ ¬ P.pre.Holds vs' ∧ Fits P.requestArgs ws ∧
    P.select vs' = P.select ws

/-- The parameters that the definitions mention are named like the arguments in their places, and no
argument is named like the copy of another one. -/
structure Named (P : InvProblem) : Prop where
  nodup : (P.requestArgs ++ P.requestArgs.map prime).Nodup
  pre : P.pre.NamedAs P.requestArgs
  trans : P.trans.NamedAs (P.requestArgs ++ P.requestArgs.map prime)
  post : P.post.NamedAs P.requestArgs

/-- If the problem has an invariant, the template has the names right and a solution. -/
def Recovers (P : InvProblem) : Prop :=
  reachable P.system.trans P.system.pre ⊆ P.system.post →
    P.Named ∧ ∀ vs ∈ reachable P.Forget (P.system.pre ∩ P.system.post),
      ∀ vs', P.system.trans vs vs' → vs' ∈ P.system.post

/-- The template predicate. -/
def templated (g : List Value → Value) (vs : List Value) : Prop :=
  P.post.Holds vs ∧ (P.pre.Holds vs ∨ (g (P.select vs)).toBool = true)

end InvProblem

/-! ### The meaning of the template -/

namespace InvProblem

variable {S : Solver} {P : InvProblem} {M : Model} {g : List Value → Value} {vs ws : List Value}

theorem defines_reduction :
  Defines P.inv P.reduction
  := by
  refine ⟨rfl, sort_func.mpr ⟨rfl, ?_⟩⟩
  change (P.requestUsedArgs.map Expr.var).map Expr.sort
    = (P.requestUsedArgs.map Var.sort).map some
  rw [List.map_map, List.map_map]
  rfl

section

variable (hP : P.WellFormed) (hnames : P.Named)
include hP

theorem WellFormed.sort_newinv :
  P.newinv.body.sort = some .bool
  := by simp [newinv, hP.sort_pre, hP.sort_post, sort_call rfl]

theorem WellFormed.defines_newinv :
  Defines P.inv P.newinv
  := ⟨rfl, hP.sort_newinv⟩

theorem WellFormed.sort_inductive :
  P.inductiveCstrt.sort = some .bool
  := by
  have hprime : (P.requestArgs.map prime).map Var.sort = P.requestArgs.map Var.sort := by
    rw [List.map_map]
    rfl
  have h := sort_call hprime
  rw [List.map_map] at h
  simp only [inductiveCstrt, sort_implies, sort_and, true_and, List.forall_mem_cons,
    List.not_mem_nil, false_imp_iff, implies_true, and_true]
  exact ⟨⟨hP.sort_trans, sort_call rfl⟩, h⟩

/-- The value of the reduced invariant at all arguments. -/
theorem WellFormed.eval_reduction (hfits : Fits P.requestArgs vs) :
  (P.reduction.eval (M.withFunc P.rdcdInv g) vs).toBool = (g (P.select vs)).toBool
  := by
  rw [Bool.eq_iff_iff]
  change (Expr.func P.rdcdInv (P.requestUsedArgs.map .var)).Holds
    ((M.bind P.requestArgs vs).withFunc P.rdcdInv g) ↔ _
  rw [holds_call_withFunc rfl, hP.values_used hfits]

include hnames

theorem WellFormed.holds_pre (M : Model) :
  P.pre.body.Holds M ↔ P.pre.Holds (M.values P.requestArgs)
  := hP.closed_pre.holds_body_of_namedAs hP.nodup_pre hP.params_pre hnames.pre M

theorem WellFormed.holds_post (M : Model) :
  P.post.body.Holds M ↔ P.post.Holds (M.values P.requestArgs)
  := hP.closed_post.holds_body_of_namedAs hP.nodup_post hP.params_post hnames.post M

theorem WellFormed.holds_trans (M : Model) :
  P.trans.body.Holds M
    ↔ P.trans.Holds (M.values P.requestArgs ++ M.values (P.requestArgs.map prime))
  := by
  have hsort : P.trans.params.map Var.sort
      = (P.requestArgs ++ P.requestArgs.map prime).map Var.sort := by
    rw [hP.params_trans, List.map_append, List.map_map]
    rfl
  rw [hP.closed_trans.holds_body_of_namedAs hP.nodup_trans hsort hnames.trans, Model.values,
    List.map_append]
  rfl

/-- The template stands for its predicate. -/
theorem WellFormed.holds_newinv {h : List Value → Value} (hfits : Fits P.requestArgs vs) :
  (P.newinv.eval (M.withFunc P.inv h) vs).toBool = true
    ↔ P.post.Holds vs ∧ (P.pre.Holds vs ∨ (h vs).toBool = true)
  := by
  have hvalues : (M.bind P.requestArgs vs).values P.requestArgs = vs :=
    values_bind hP.nodup_args hfits
  have hpost : P.post.body.Holds ((M.bind P.requestArgs vs).withFunc P.inv h)
      ↔ P.post.Holds vs := by
    rw [hP.holds_post hnames]
    change P.post.Holds ((M.bind P.requestArgs vs).values P.requestArgs) ↔ _
    rw [hvalues]
  have hpre : P.pre.body.Holds ((M.bind P.requestArgs vs).withFunc P.inv h)
      ↔ P.pre.Holds vs := by
    rw [hP.holds_pre hnames]
    change P.pre.Holds ((M.bind P.requestArgs vs).values P.requestArgs) ↔ _
    rw [hvalues]
  change P.newinv.body.Holds ((M.bind P.requestArgs vs).withFunc P.inv h) ↔ _
  rw [newinv, holds_and_pair, holds_or_pair, holds_call_withFunc (f := P.inv) rfl, hpost, hpre,
    hvalues]

/-- The constraint of the template asks that the template predicate is inductive. -/
theorem WellFormed.holds_getIndFinalConstraint :
  P.getIndFinalConstraint.Holds (M.withFunc P.rdcdInv g)
    ↔ (P.trans.Holds (M.values P.requestArgs ++ M.values (P.requestArgs.map prime)) →
        P.templated g (M.values P.requestArgs) →
        P.templated g (M.values (P.requestArgs.map prime)))
  := by
  have hfits := fits_values M P.requestArgs
  have hfits' : Fits P.requestArgs (M.values (P.requestArgs.map prime)) := by
    have h := fits_values M (P.requestArgs.map prime)
    rw [Fits, List.map_map] at h
    apply h
  set N := M.withFunc P.rdcdInv g with hN
  have hcall : ∀ {xs : List Var}, Fits P.requestArgs (M.values xs) →
      ((Expr.func P.inv (xs.map .var)).Holds ((N.define P.inv P.reduction).define P.inv P.newinv)
        ↔ P.templated g (M.values xs)) := by
    intro xs hxs
    rw [Model.define, holds_call_withFunc rfl, Model.define]
    change (P.newinv.eval (N.withFunc P.inv (P.reduction.eval N)) (M.values xs)).toBool = true ↔ _
    rw [hP.holds_newinv hnames hxs, hN, hP.eval_reduction hxs, templated]
  have htrans : P.trans.body.Holds ((N.define P.inv P.reduction).define P.inv P.newinv)
      ↔ P.trans.Holds (M.values P.requestArgs ++ M.values (P.requestArgs.map prime)) := by
    rw [hP.holds_trans hnames]
    rfl
  have hprimed : (P.requestArgs.map fun x => Expr.var (prime x))
      = (P.requestArgs.map prime).map .var := by rw [List.map_map]; rfl
  rw [getIndFinalConstraint,
    defines_reduction.holds_expand (hP.defines_newinv.sort_expand hP.sort_inductive),
    hP.defines_newinv.holds_expand hP.sort_inductive]
  rw [inductiveCstrt, hprimed, holds_implies, holds_and_pair, htrans, hcall hfits, hcall hfits',
    and_imp]

theorem WellFormed.templateSolves_iff :
  P.TemplateSolves g ↔ ∀ vs vs', P.system.trans vs vs' → P.templated g vs → P.templated g vs'
  := by
  simp only [TemplateSolves, hP.holds_getIndFinalConstraint hnames]
  constructor
  · rintro h vs vs' ⟨hfits, hfits', htrans⟩ hvs
    have hall : Fits (P.requestArgs ++ P.requestArgs.map prime) (vs ++ vs') := by
      rw [Fits, List.map_append, List.map_append, hfits, hfits', List.map_map]
      rfl
    have hvalues := values_bind (M := default) hnames.nodup hall
    rw [Model.values, List.map_append] at hvalues
    have hlength : (((Model.bind default (P.requestArgs ++ P.requestArgs.map prime)
        (vs ++ vs')).values P.requestArgs)).length = vs.length := by
      rw [Model.values, List.length_map, hfits.length]
    obtain ⟨hvs', hvs''⟩ := List.append_inj hvalues hlength
    have h' := h (Model.bind default (P.requestArgs ++ P.requestArgs.map prime) (vs ++ vs'))
    rw [Model.values, Model.values, hvs', hvs''] at h'
    apply h' htrans hvs
  · intro h M htrans
    apply h
    refine ⟨fits_values M _, ?_, htrans⟩
    have h := fits_values M (P.requestArgs.map prime)
    rw [Fits, List.map_map] at h
    apply h

/-- The postcondition depends on the used arguments only. -/
theorem WellFormed.post_of_select (hfits : Fits P.requestArgs vs) (hfits' : Fits P.requestArgs ws)
    (hselect : P.select vs = P.select ws) (h : P.post.Holds vs) :
  P.post.Holds ws
  := by
  have hvs := hP.holds_post hnames (Model.bind default P.requestArgs vs)
  have hws := hP.holds_post hnames (Model.bind default P.requestArgs ws)
  rw [values_bind hP.nodup_args hfits] at hvs
  rw [values_bind hP.nodup_args hfits'] at hws
  have heval : P.post.body.eval (Model.bind default P.requestArgs vs)
      = P.post.body.eval (Model.bind default P.requestArgs ws) := by
    apply eval_congr_value
    · intro x hx
      have hargs : x ∈ P.requestArgs := (List.of_mem_zip (hnames.post x hx)).2
      rw [select, select] at hselect
      apply List.map_inj_left.mp hselect x (mem_requestUsedArgs_of_post hargs hx)
    · intro f _
      rfl
  rw [← hws, Expr.Holds, ← heval]
  apply hvs.mpr h

/-- The states that a solution of the template cannot avoid. -/
def forgotten (P : InvProblem) : Set (List Value) :=
  reachable P.Forget (P.system.pre ∩ P.system.post)

open Classical in
/-- The template has a solution when the states it cannot avoid are safe, and so are all
their successors. -/
theorem WellFormed.exists_templateSolves_iff :
  (∃ g, P.TemplateSolves g)
    ↔ ∀ vs ∈ P.forgotten, ∀ vs', P.system.trans vs vs' → vs' ∈ P.system.post
  := by
  constructor
  · rintro ⟨g, hg⟩ vs hvs vs' htrans
    rw [hP.templateSolves_iff hnames] at hg
    have hsub : P.forgotten ⊆ {vs | Fits P.requestArgs vs ∧ P.templated g vs} := by
      apply reachable_subset
      · rintro vs ⟨⟨hfits, hpre⟩, -, hpost⟩
        exact ⟨hfits, hpost, Or.inl hpre⟩
      · rintro vs ⟨hfits, hvs⟩ ws ⟨vs', htrans, hpre, hfits', hselect⟩
        obtain ⟨hpost, hor⟩ := hg vs vs' htrans hvs
        refine ⟨hfits', hP.post_of_select hnames htrans.2.1 hfits' hselect hpost, Or.inr ?_⟩
        rw [← hselect]
        apply hor.resolve_left hpre
    exact ⟨htrans.2.1, (hg vs vs' htrans (hsub hvs).2).1⟩
  · intro hsafe
    -- the least solution: what steps from the states that cannot be avoided lead to
    set G : Set (List Value) :=
      {us | ∃ vs ∈ P.forgotten, ∃ vs', P.system.trans vs vs' ∧ ¬ P.pre.Holds vs' ∧
        P.select vs' = us} with hG
    use fun us => .bool (decide (us ∈ G))
    rw [hP.templateSolves_iff hnames]
    rintro vs vs' htrans ⟨hpost, hor⟩
    have hvs : vs ∈ P.forgotten := by
      rcases hor with hpre | hg
      · exact subset_reachable _ _ ⟨⟨htrans.1, hpre⟩, htrans.1, hpost⟩
      · obtain ⟨ws, hws, ws', htrans', hpre, hselect⟩ := of_decide_eq_true hg
        apply closed_reachable _ _ ws hws vs ⟨ws', htrans', hpre, htrans.1, hselect⟩
    refine ⟨(hsafe vs hvs vs' htrans).2, ?_⟩
    by_cases hpre : P.pre.Holds vs'
    · apply Or.inl hpre
    · apply Or.inr (decide_eq_true ⟨vs, hvs, vs', htrans, hpre, rfl⟩)

omit hnames in
theorem WellFormed.usedPredicate_select {g : Definition} (hg : P.IsPartial g) :
  P.usedPredicate g (P.select vs) = g.eval default vs
  := by
  rw [usedPredicate, Definition.eval, Definition.eval, hg.params]
  apply eval_congr_value
  · intro x hx
    have hused := hg.vars x hx
    have hnodup : P.requestUsedArgs.Nodup := hP.nodup_used
    have hselect : Fits P.requestUsedArgs (P.select vs) := fits_values _ _
    have hvalues := values_bind (M := default) hnodup hselect
    apply List.map_inj_left.mp hvalues x hused
  · intro f _
    rfl

/-- The function that is built from a definition stands for the template predicate. -/
theorem WellFormed.combineInvPartial_iff (hS : S.Correct) {g : Definition}
    (hg : P.IsPartial g) (hfits : Fits P.requestArgs vs) :
  ((P.combineInvPartial S g).eval default vs).toBool = true
    ↔ P.templated (P.usedPredicate g) vs
  := by
  have hsort : (Expr.and [P.post.body, .or [P.pre.body, g.body]]).sort = some .bool := by
    simp [hP.sort_post, hP.sort_pre, hg.sort]
  rw [templated, hP.usedPredicate_select hg]
  change (S.simplify (.and [P.post.body, .or [P.pre.body, g.body]])).Holds _ ↔ _
  rw [(hS.simplify _).holds hsort, holds_and_pair, holds_or_pair]
  change P.post.body.Holds (Model.bind default g.params vs)
    ∧ (P.pre.body.Holds (Model.bind default g.params vs)
      ∨ g.body.Holds (Model.bind default g.params vs)) ↔ _
  rw [hg.params, hP.holds_post hnames, hP.holds_pre hnames, values_bind hP.nodup_args hfits,
    Definition.eval, hg.params]
  rfl

/-- What is built from a solution of the template is an invariant, when the precondition implies
the postcondition; and otherwise there is none. -/
theorem WellFormed.combineInvPartial_solves (hS : S.Correct) {g : Definition}
    (hg : P.IsPartial g) (hsolves : P.TemplateSolves (P.usedPredicate g)) :
  P.Solves ((P.combineInvPartial S g).eval default) ∨ ¬ ∃ I, P.Solves I
  := by
  rw [hP.templateSolves_iff hnames] at hsolves
  by_cases hpost : P.system.pre ⊆ P.system.post
  · left
    rw [hP.solves_iff]
    constructor
    · rintro vs ⟨hfits, hpre⟩
      use hfits
      rw [hP.combineInvPartial_iff hnames hS hg hfits]
      exact ⟨(hpost ⟨hfits, hpre⟩).2, Or.inl hpre⟩
    · rintro vs ⟨hfits, hvs⟩ vs' htrans
      use htrans.2.1
      rw [hP.combineInvPartial_iff hnames hS hg hfits] at hvs
      rw [hP.combineInvPartial_iff hnames hS hg htrans.2.1]
      apply hsolves vs vs' htrans hvs
    · rintro vs ⟨hfits, hvs⟩
      rw [hP.combineInvPartial_iff hnames hS hg hfits] at hvs
      exact ⟨hfits, hvs.1⟩
  · right
    rintro ⟨I, hI⟩
    rw [hP.solves_iff] at hI
    apply hpost (hI.pre.trans hI.post)

omit hnames in
/-- The template is exact when the problem has no invariant, or the definitions name their
parameters as the invariant does and no unsafe state can be reached from the states that satisfy
pre- and postcondition, with the arguments that are not used taking any values after a step to a
state outside the precondition.  With these names the condition is also necessary. -/
theorem templateExact_iff (hS : S.Correct) :
  (P.Recovers → P.TemplateExact S) ∧ (P.Named → P.TemplateExact S → P.Recovers)
  := by
  constructor
  · intro hrecovers
    constructor
    · intro hinv
      rw [hP.exists_solves_iff, exists_invariant_iff] at hinv
      obtain ⟨hnames, hsafe⟩ := hrecovers hinv
      apply (hP.exists_templateSolves_iff hnames).mpr hsafe
    · intro g hg hsolves
      by_cases hinv : ∃ I, P.Solves I
      · rw [hP.exists_solves_iff, exists_invariant_iff] at hinv
        apply hP.combineInvPartial_solves (hrecovers hinv).1 hS hg hsolves
      · exact Or.inr hinv
  · rintro hnames ⟨hcomplete, -⟩ hinv
    use hnames
    rw [hP.exists_solves_iff, exists_invariant_iff, hP.exists_templateSolves_iff hnames]
      at hcomplete
    apply hcomplete hinv

end

end InvProblem

/-! ### Examples -/

section Examples

/-- A variable that is counted up from zero. -/
def countUp : InvProblem where
  name := "inv"
  requestArgs := [⟨"x", .int⟩]
  vars := [⟨"x", .int⟩, ⟨"x!", .int⟩]
  regularVars := [⟨"x", .int⟩]
  pre := ⟨[⟨"x", .int⟩], .eq (.var ⟨"x", .int⟩) (.num 0)⟩
  trans := ⟨[⟨"x", .int⟩, ⟨"x!", .int⟩],
    .eq (.var ⟨"x!", .int⟩) (.add [.var ⟨"x", .int⟩, .num 1])⟩
  post := ⟨[⟨"x", .int⟩], .ge (.var ⟨"x", .int⟩) (.num 0)⟩

theorem wellFormed_countUp :
  countUp.WellFormed
  := by
  refine ⟨?_, ?_, ?_, ?_, ?_, ?_, ?_, ⟨?_, ?_⟩, ⟨?_, ?_⟩, ⟨?_, ?_⟩, ?_, ?_, ?_⟩
  all_goals decide

theorem countUp_post (a : ℤ) :
  countUp.post.Holds [.int a] ↔ 0 ≤ a
  := by
  change (Expr.ge (.var ⟨"x", .int⟩) (.num 0)).Holds (Model.bind default [⟨"x", .int⟩] [.int a]) ↔ _
  rw [holds_ge]
  rfl

theorem countUp_trans (a b : ℤ) :
  countUp.trans.Holds [.int a, .int b] ↔ b = a + 1
  := by
  change (Expr.eq (.var ⟨"x!", .int⟩) (.add [.var ⟨"x", .int⟩, .num 1])).Holds
    (Model.bind default [⟨"x", .int⟩, ⟨"x!", .int⟩] [.int a, .int b]) ↔ _
  rw [holds_eq_of_int rfl rfl]
  change b = a + (1 + 0) ↔ _
  rw [add_zero]

theorem countUp_states {vs : List Value} (hfits : Fits countUp.requestArgs vs) :
  ∃ a, vs = [.int a]
  := by
  obtain ⟨v, rfl⟩ := List.length_eq_one_iff.mp hfits.length
  have hv : v.sort = .int := by simpa [Fits, countUp] using hfits
  exact ⟨v.toInt, by rw [← Value.eq_int hv]⟩

theorem templateExact_countUp :
  countUp.TemplateExact .ideal
  := by
  apply (InvProblem.templateExact_iff wellFormed_countUp Solver.ideal_correct).1
  intro _
  have hnames : countUp.Named := ⟨by decide, by decide, by decide, by decide⟩
  refine ⟨hnames, ?_⟩
  intro vs hvs vs' htrans
  have hpost : countUp.forgotten ⊆ countUp.system.post := by
    apply reachable_subset
    · apply Set.inter_subset_right
    · rintro vs ⟨hfits, hvs⟩ ws ⟨vs', htrans, -, hfits', hselect⟩
      obtain ⟨a, rfl⟩ := countUp_states hfits
      obtain ⟨b, rfl⟩ := countUp_states htrans.2.1
      have hb : b = a + 1 := (countUp_trans a b).mp htrans.2.2
      rw [countUp_post] at hvs
      refine ⟨hfits', wellFormed_countUp.post_of_select hnames htrans.2.1 hfits' hselect ?_⟩
      rw [countUp_post, hb]
      omega
  obtain ⟨hfits, hvs⟩ := hpost hvs
  obtain ⟨a, rfl⟩ := countUp_states hfits
  obtain ⟨b, rfl⟩ := countUp_states htrans.2.1
  have hb : b = a + 1 := (countUp_trans a b).mp htrans.2.2
  rw [countUp_post] at hvs
  refine ⟨htrans.2.1, ?_⟩
  rw [countUp_post, hb]
  omega

/-- The same problem, with another name for the parameter of its definitions. -/
def countUpRenamed : InvProblem where
  name := "inv"
  requestArgs := [⟨"x", .int⟩]
  vars := [⟨"x", .int⟩, ⟨"x!", .int⟩]
  regularVars := [⟨"x", .int⟩]
  pre := ⟨[⟨"a", .int⟩], .eq (.var ⟨"a", .int⟩) (.num 0)⟩
  trans := ⟨[⟨"a", .int⟩, ⟨"a!", .int⟩],
    .eq (.var ⟨"a!", .int⟩) (.add [.var ⟨"a", .int⟩, .num 1])⟩
  post := ⟨[⟨"a", .int⟩], .ge (.var ⟨"a", .int⟩) (.num 0)⟩

theorem wellFormed_countUpRenamed :
  countUpRenamed.WellFormed
  := by
  refine ⟨?_, ?_, ?_, ?_, ?_, ?_, ?_, ⟨?_, ?_⟩, ⟨?_, ?_⟩, ⟨?_, ?_⟩, ?_, ?_, ?_⟩
  all_goals decide

theorem countUpRenamed_post (a : ℤ) :
  countUpRenamed.post.Holds [.int a] ↔ 0 ≤ a
  := by
  change (Expr.ge (.var ⟨"a", .int⟩) (.num 0)).Holds (Model.bind default [⟨"a", .int⟩] [.int a]) ↔ _
  rw [holds_ge]
  rfl

/-- The states with a natural number. -/
theorem isInvariant_countUpRenamed :
  IsInvariant countUpRenamed.system {vs | ∃ a, vs = [.int a] ∧ 0 ≤ a}
  := by
  have hstates : ∀ {vs}, Fits countUpRenamed.requestArgs vs → ∃ a, vs = [.int a] :=
    fun hfits => countUp_states hfits
  constructor
  · rintro vs ⟨hfits, hvs⟩
    obtain ⟨a, rfl⟩ := hstates hfits
    have ha : (Expr.eq (.var ⟨"a", .int⟩) (.num 0)).Holds
      (Model.bind default [⟨"a", .int⟩] [.int a]) := hvs
    rw [holds_eq_of_int rfl rfl] at ha
    exact ⟨a, rfl, le_of_eq (Eq.symm ha)⟩
  · rintro vs ⟨a, rfl, ha⟩ vs' ⟨-, hfits', htrans⟩
    obtain ⟨b, rfl⟩ := hstates hfits'
    have hb : (Expr.eq (.var ⟨"a!", .int⟩) (.add [.var ⟨"a", .int⟩, .num 1])).Holds
      (Model.bind default [⟨"a", .int⟩, ⟨"a!", .int⟩] [.int a, .int b]) := htrans
    rw [holds_eq_of_int rfl rfl] at hb
    have hb' : b = a + (1 + 0) := hb
    exact ⟨b, rfl, by omega⟩
  · rintro vs ⟨a, rfl, ha⟩
    exact ⟨rfl, (countUpRenamed_post a).mpr ha⟩

/-- The bodies are reused without renaming: what is built from `true` is true of every state. -/
theorem not_templateExact_countUpRenamed :
  ¬ countUpRenamed.TemplateExact .ideal
  := by
  rintro ⟨-, hsound⟩
  have hpartial : countUpRenamed.IsPartial ⟨[⟨"x", .int⟩], .tru⟩ := ⟨rfl, by simp, rfl, rfl⟩
  have hsolves : countUpRenamed.TemplateSolves
      (countUpRenamed.usedPredicate ⟨[⟨"x", .int⟩], .tru⟩) := by
    intro M
    have hfinal : countUpRenamed.getIndFinalConstraint
        = .implies (.and [countUpRenamed.trans.body, .and [countUpRenamed.post.body,
            .or [countUpRenamed.pre.body,
              .func countUpRenamed.rdcdInv ([⟨"x", .int⟩].map Expr.var)]]])
          (.and [countUpRenamed.post.body, .or [countUpRenamed.pre.body,
            .func countUpRenamed.rdcdInv ([⟨"x!", .int⟩].map Expr.var)]]) := by
      decide +kernel
    rw [hfinal, holds_implies, holds_and_pair, holds_and_pair, holds_and_pair, holds_or_pair,
      holds_or_pair, holds_call_withFunc rfl, holds_call_withFunc rfl]
    rintro ⟨-, hpost, -⟩
    exact ⟨hpost, Or.inr rfl⟩
  rcases hsound _ hpartial hsolves with hinv | hnone
  · rw [wellFormed_countUpRenamed.solves_iff_models] at hinv
    have hpost := hinv.2.2 (Model.bind default [⟨"a", .int⟩] [.int (-1)])
    have hneg := (countUpRenamed_post (-1)).mp (hpost rfl)
    omega
  · apply hnone (wellFormed_countUpRenamed.exists_solves_iff.mpr ⟨_, isInvariant_countUpRenamed⟩)

/-- A problem whose first argument is not used, though the transition reads and sets it. -/
def guarded : InvProblem where
  name := "inv"
  requestArgs := [⟨"x", .int⟩, ⟨"y", .int⟩]
  vars := [⟨"x", .int⟩, ⟨"y", .int⟩, ⟨"x!", .int⟩, ⟨"y!", .int⟩]
  regularVars := [⟨"x", .int⟩, ⟨"y", .int⟩]
  pre := ⟨[⟨"x", .int⟩, ⟨"y", .int⟩], .eq (.var ⟨"y", .int⟩) (.num 0)⟩
  trans := ⟨[⟨"x", .int⟩, ⟨"y", .int⟩, ⟨"x!", .int⟩, ⟨"y!", .int⟩],
    .or [.and [.eq (.var ⟨"y", .int⟩) (.num 0),
        .and [.eq (.var ⟨"y!", .int⟩) (.num 1), .eq (.var ⟨"x!", .int⟩) (.num 5)]],
      .and [.eq (.var ⟨"y", .int⟩) (.num 1),
        .and [.eq (.var ⟨"y!", .int⟩) (.num 2), .eq (.var ⟨"x", .int⟩) (.num 4)]]]⟩
  post := ⟨[⟨"x", .int⟩, ⟨"y", .int⟩], .lt (.var ⟨"y", .int⟩) (.num 2)⟩

theorem wellFormed_guarded :
  guarded.WellFormed
  := by
  refine ⟨?_, ?_, ?_, ?_, ?_, ?_, ?_, ⟨?_, ?_⟩, ⟨?_, ?_⟩, ⟨?_, ?_⟩, ?_, ?_, ?_⟩
  all_goals decide

theorem guarded_pre (a b : ℤ) :
  guarded.pre.Holds [.int a, .int b] ↔ b = 0
  := by
  change (Expr.eq (.var ⟨"y", .int⟩) (.num 0)).Holds
    (Model.bind default guarded.requestArgs [.int a, .int b]) ↔ _
  rw [holds_eq_of_int rfl rfl]
  rfl

theorem guarded_post (a b : ℤ) :
  guarded.post.Holds [.int a, .int b] ↔ b < 2
  := by
  change (Expr.lt (.var ⟨"y", .int⟩) (.num 2)).Holds
    (Model.bind default guarded.requestArgs [.int a, .int b]) ↔ _
  rw [holds_lt]
  rfl

theorem guarded_trans (a b c d : ℤ) :
  guarded.trans.Holds [.int a, .int b, .int c, .int d]
    ↔ b = 0 ∧ d = 1 ∧ c = 5 ∨ b = 1 ∧ d = 2 ∧ a = 4
  := by
  change guarded.trans.body.Holds
    (Model.bind default guarded.trans.params [.int a, .int b, .int c, .int d]) ↔ _
  simp (disch := rfl) only [guarded, holds_or_pair, holds_and_pair, holds_var_eq_num]
  rfl

theorem guarded_states {vs : List Value} (hfits : Fits guarded.requestArgs vs) :
  ∃ a b, vs = [.int a, .int b]
  := by
  obtain ⟨v, w, rfl⟩ := List.length_eq_two.mp hfits.length
  have hvw : v.sort = .int ∧ w.sort = .int := by simpa [Fits, guarded] using hfits
  exact ⟨v.toInt, w.toInt, by rw [← Value.eq_int hvw.1, ← Value.eq_int hvw.2]⟩

theorem guarded_fits (a b : ℤ) :
  Fits guarded.requestArgs [.int a, .int b]
  := rfl

/-- The second argument is zero, or it is one and the first one five. -/
theorem isInvariant_guarded :
  IsInvariant guarded.system
    {vs | ∃ a b, vs = [.int a, .int b] ∧ (b = 0 ∨ b = 1 ∧ a = 5)}
  := by
  constructor
  · rintro vs ⟨hfits, hvs⟩
    obtain ⟨a, b, rfl⟩ := guarded_states hfits
    exact ⟨a, b, rfl, Or.inl ((guarded_pre a b).mp hvs)⟩
  · rintro vs ⟨a, b, rfl, hab⟩ vs' ⟨-, hfits', htrans⟩
    obtain ⟨c, d, rfl⟩ := guarded_states hfits'
    have h := (guarded_trans a b c d).mp htrans
    exact ⟨c, d, rfl, by omega⟩
  · rintro vs ⟨a, b, rfl, hab⟩
    exact ⟨guarded_fits a b, (guarded_post a b).mpr (by omega)⟩

theorem not_templateExact_guarded :
  ¬ ∀ (S : Solver) (P : InvProblem), S.Correct → P.WellFormed → P.TemplateExact S
  := by
  intro h
  have hnames : guarded.Named := ⟨by decide, by decide, by decide, by decide⟩
  have hinv : ∃ I, guarded.Solves I :=
    wellFormed_guarded.exists_solves_iff.mpr ⟨_, isInvariant_guarded⟩
  have htemplate := (h .ideal guarded Solver.ideal_correct wellFormed_guarded).1 hinv
  rw [wellFormed_guarded.exists_templateSolves_iff hnames] at htemplate
  have hzero : [.int 0, .int 0] ∈ guarded.forgotten := by
    apply subset_reachable
    exact ⟨⟨guarded_fits 0 0, (guarded_pre 0 0).mpr rfl⟩, guarded_fits 0 0,
      (guarded_post 0 0).mpr (by omega)⟩
  have hone : [.int 4, .int 1] ∈ guarded.forgotten := by
    apply closed_reachable _ _ _ hzero
    refine ⟨[.int 5, .int 1], ⟨guarded_fits 0 0, guarded_fits 5 1, ?_⟩, ?_, guarded_fits 4 1, ?_⟩
    · apply (guarded_trans 0 0 5 1).mpr (by omega)
    · rw [guarded_pre]
      omega
    · decide
  have htwo := htemplate _ hone [.int 0, .int 2]
    ⟨guarded_fits 4 1, guarded_fits 0 2, (guarded_trans 4 1 0 2).mpr (by omega)⟩
  have hlt := (guarded_post 0 2).mp htwo.2
  omega

end Examples

end Sygus.Invariant
