import DryadSynth.SSI.Acceptance
import DryadSynth.SSI.Selected

/-!
# Soundness of single invocation

For each function the comparisons with calls of functions that are defined later are taken to be
true.  Where that never takes away the solutions for the later functions, and each function
occurs linearly in comparisons that are not strict, the definitions solve the constraint.
-/

namespace Sygus.SSI

open LIA Boundary Reduce Lists

/-! ### Results for all functions -/

namespace Problem

variable (P : Problem)

/-- The functions solve the constraint. -/
def Solves (F : Interp) : Prop := ∀ M, P.finalConstraint.Holds (withFuncs M P.rdcdRequests F)

/-- The functions have different names and arguments, and the constraint is a formula that says
what the single constraints say. -/
structure WellFormed : Prop where
  names : P.names.Nodup
  nodup : ∀ r ∈ P.requests, r.requestUsedArgs.Nodup
  sort : P.finalConstraint.sort = some .bool
  constraints (M : Model) : P.finalConstraint.Holds M
    ↔ ∀ e ∈ P.constraints, (rewriteAll P.requests e).Holds M

/-- The results make the constraint valid, if the problem is accepted and has a solution. -/
def SSISound (S : Simplifier) : Prop :=
  P.checkSSI = true → ∀ n results, run S P n = some results → (∃ F, P.Solves F) →
    (rewriteResults results P.finalConstraint).Valid

/-- The functions of some of the requests. -/
def funcsOf (rs : List Request) : List FuncDecl := rs.map Request.rdcdFunc

end Problem

/-- The functions can be defined one after the other.  A literal is kept for a function if it calls
none that is defined later; then it is linear in the calls, and a formal argument that it mentions
outside of them is an argument of the calls.  Where the literals that are kept before a function is
defined hold, so do those that are kept afterwards, with some value of the function. -/
structure Separable (S : Simplifier) (P : Problem) : Prop where
  range : ∀ f ∈ P.rdcdRequests, f.range = .int
  calls : ∀ c ∈ P.finalConstraint.calls, c.1 ∈ P.rdcdRequests
  names : ∀ x ∈ P.finalConstraint.vars, x.name ∉ P.names
  args : ∀ c ∈ P.finalConstraint.calls, ∀ a ∈ c.2, a.calls = [] ∧ Pushed a ∧ Settled S a
  linear {rs rs' : List Request} {r : Request} : P.requests = rs ++ r :: rs' →
    ∀ q ∈ literals P.finalConstraint true, mentions (Problem.funcsOf rs') q = false →
      (∃ c ∈ q.calls, c.1 = r.rdcdFunc) → IsLinear r.rdcdFunc q
  capture {rs rs' : List Request} {r : Request} : P.requests = rs ++ r :: rs' →
    ∀ q ∈ literals P.finalConstraint true, mentions (Problem.funcsOf rs') q = false →
      ∀ x ∈ outerVars r.rdcdFunc q, x ∈ r.requestUsedArgs →
        ∀ c ∈ P.finalConstraint.calls, c.1 = r.rdcdFunc → .var x ∈ c.2
  solvable {rs rs' : List Request} {r : Request} : P.requests = rs ++ r :: rs' →
    ∀ (M : Model) (v : FuncDecl → ℤ), (∃ w, P.finalConstraint.Holds (M.const w)) →
      (relax (Problem.funcsOf (r :: rs')) P.finalConstraint true).Holds (M.const v) →
        ∃ t, (relax (Problem.funcsOf rs') P.finalConstraint true).Holds
          (M.const (Function.update v r.rdcdFunc t))

/-- Each function is called with the arguments given for it, or with the formal ones where it is
not called. -/
structure CalledWith (P : Problem) (as : FuncDecl → List Expr) : Prop where
  call : ∀ c ∈ P.finalConstraint.calls, c.2 = as c.1
  uncalled : ∀ r ∈ P.requests, (∀ c ∈ P.finalConstraint.calls, c.1 ≠ r.rdcdFunc) →
    as r.rdcdFunc = r.requestUsedArgs.map .var

/-- What a run starts from: the solver, the problem, the arguments of the calls, and the constraint
with its negations pushed in. -/
structure Prepared (S : Simplifier) (P : Problem) (as : FuncDecl → List Expr) (pushed : Expr) :
    Prop where
  correct : S.Correct
  isLocal : S.Local
  normalizes : ∀ c ∈ P.finalConstraint.calls, (∀ a ∈ c.2, Settled S a) → S.Normalizes c.1 c.2
  wellFormed : P.WellFormed
  separable : Separable S P
  called : CalledWith P as
  push : Pushes P.finalConstraint pushed
  combined : Combined pushed

/-- The functions that are defined so far satisfy the literals with calls of these only, and the
variables of the definitions other than the parameters are taken from such literals. -/
structure Defined (P : Problem) (as : FuncDecl → List Expr) (rs rs' : List Request)
    (part : List (FuncDecl × Definition)) : Prop where
  keys : part.map Prod.fst = Problem.funcsOf rs
  defines : DefinesAll part
  free : ∀ p ∈ part, ∀ x ∈ p.2.body.vars, x ∉ p.2.params →
    ∃ q ∈ literals P.finalConstraint true, mentions (Problem.funcsOf rs') q = false ∧ x ∈ q.vars
  holds (M : Model) : (relax (Problem.funcsOf rs') P.finalConstraint true).Holds
    (M.const ((M.defines part).valuesAt as))

section Sound

variable {S : Simplifier} {P : Problem} {as : FuncDecl → List Expr} {pushed body : Expr}
variable {rs rs' : List Request} {r r' : Request} {part : List (FuncDecl × Definition)} {n : ℕ}
variable {cache : List Expr} {M : Model} {f : FuncDecl} {d : Definition} {x : Var}

theorem Problem.WellFormed.eq_of_name (hP : P.WellFormed) (hr : r ∈ P.requests)
    (hr' : r' ∈ P.requests) (h : r.func.name = r'.func.name) :
  r = r'
  := List.inj_on_of_nodup_map hP.names hr hr' h

theorem Problem.WellFormed.nodup_rdcdRequests (hP : P.WellFormed) :
  P.rdcdRequests.Nodup
  := by
  have hnames : P.rdcdRequests.map FuncDecl.name = P.names := by
    rw [Problem.rdcdRequests, List.map_map]
    rfl
  have h := hP.names
  rw [← hnames] at h
  apply h.of_map _

/-- What is accepted calls each function with the same arguments everywhere. -/
theorem exists_calledWith (hP : P.WellFormed) (hcheck : P.checkSSI = true)
    (hcalls : ∀ c ∈ P.finalConstraint.calls, c.1 ∈ P.rdcdRequests) :
  ∃ as, CalledWith P as
  := by
  have hnoted := fun c (hc : c ∈ P.finalConstraint.calls) =>
    (feed_of_mem (hcalls c hc) (call_mem_events hc) (feed_isSSI hcheck)).2
  have hex : ∀ f, ∃ args, (∀ c ∈ P.finalConstraint.calls, c.1 = f → c.2 = args) ∧
      ∀ r ∈ P.requests, r.rdcdFunc = f → (∀ c ∈ P.finalConstraint.calls, c.1 ≠ f) →
        args = r.requestUsedArgs.map .var := by
    intro f
    by_cases hcalled : ∃ c ∈ P.finalConstraint.calls, c.1 = f
    · obtain ⟨c, hc, rfl⟩ := hcalled
      refine ⟨c.2, fun c' hc' heq => ?_, fun r _ _ hnot => absurd rfl (hnot c hc)⟩
      have hnoted' := hnoted c' hc'
      rw [heq] at hnoted'
      exact Option.some.inj (hnoted'.symm.trans (hnoted c hc))
    · push Not at hcalled
      by_cases hreq : ∃ r ∈ P.requests, r.rdcdFunc = f
      · obtain ⟨r, hr, rfl⟩ := hreq
        refine ⟨r.requestUsedArgs.map .var, fun c hc heq => absurd heq (hcalled c hc),
          fun r' hr' heq _ => ?_⟩
        rw [hP.eq_of_name hr hr' (congrArg FuncDecl.name heq).symm]
      · push Not at hreq
        exact ⟨[], fun c hc heq => absurd heq (hcalled c hc),
          fun r hr heq _ => absurd heq (hreq r hr)⟩
  choose as hcall huncalled using hex
  exact ⟨as, fun c hc => hcall c.1 c hc rfl, fun r hr hnot => huncalled _ r hr rfl hnot⟩

/-- Definitions without calls define the same functions whatever the other ones are. -/
theorem eval_definition_const (hd : d.body.calls = []) (v : FuncDecl → ℤ) (vs : List Value) :
  d.eval (M.const v) vs = d.eval M vs
  := eval_const_of_calls_nil (M := M.bind d.params vs) hd

/-- The value of a function that is defined. -/
theorem valuesAt_defines (h : DefinesAll part) (hp : (f, d) ∈ part)
    (hargs : ∀ a ∈ as f, a.calls = []) :
  (M.defines part).valuesAt as f = (d.eval M ((as f).map (Expr.eval M))).toInt
  := by
  have hvalues : (as f).map (Expr.eval (M.defines part)) = (as f).map (Expr.eval M) := by
    apply List.map_congr_left
    intro a ha
    apply eval_congr_calls
    · intro x _
      simp only [Model.value, var_defines]
    · simp [hargs a ha]
  rw [Model.valuesAt, hvalues, func_defines_of_mem h.nodup hp]

/-- The functions of a split list of requests. -/
theorem mem_rdcdRequests_split (hrs : P.requests = rs ++ rs') :
  f ∈ P.rdcdRequests ↔ f ∈ Problem.funcsOf rs ∨ f ∈ Problem.funcsOf rs'
  := by rw [Problem.rdcdRequests, hrs, List.map_append, List.mem_append]; rfl

theorem Problem.WellFormed.not_mem_funcsOf (hP : P.WellFormed) (hrs : P.requests = rs ++ rs')
    (hf : f ∈ Problem.funcsOf rs) :
  f ∉ Problem.funcsOf rs'
  := by
  have hnodup := hP.nodup_rdcdRequests
  rw [Problem.rdcdRequests, hrs, List.map_append, List.nodup_append] at hnodup
  exact fun hf' => hnodup.2.2 f hf f hf' rfl

theorem mentions_cons {later : List FuncDecl} {q : Expr} :
  mentions (f :: later) q = false ↔ (∀ c ∈ q.calls, c.1 ≠ f) ∧ mentions later q = false
  := by
  simp only [mentions, List.any_eq_false, decide_eq_true_eq, List.mem_cons, not_or]
  exact ⟨fun h => ⟨fun c hc => (h c hc).1, fun c hc => (h c hc).2⟩,
    fun h c hc => ⟨h.1 c hc, h.2 c hc⟩⟩

section Step

variable (h : Prepared S P as pushed)
include h

theorem Prepared.flat :
  Flat P.finalConstraint
  := fun c hc a ha => (h.separable.args c hc a ha).2.1

theorem Prepared.mem_calls (c : FuncDecl × List Expr) :
  c ∈ pushed.calls ↔ c ∈ P.finalConstraint.calls
  := ((matches_rule c.1).pushes h.push).calls h.flat c

theorem Prepared.range_args :
  ∀ c ∈ P.finalConstraint.calls, c.1.range = .int ∧ c.2 = as c.1
  := fun c hc => ⟨h.separable.range _ (h.separable.calls c hc), h.called.call c hc⟩

theorem Prepared.unnested :
  Unnested pushed
  := fun c hc a ha => (h.separable.args c ((h.mem_calls c).mp hc) a ha).1

theorem Prepared.sort_pushed :
  pushed.sort = some .bool
  := (h.push.preserves _ h.wellFormed.sort).1

theorem Prepared.sort_relaxed (later : List FuncDecl) :
  (relax later pushed true).sort = some .bool
  := sort_relax h.sort_pushed true

/-- Literals can be taken to be true before or after negations are pushed in. -/
theorem Prepared.holds_relax (later : List FuncDecl) (M : Model) :
  (relax later pushed true).Holds M ↔ (relax later P.finalConstraint true).Holds M
  := by
  have hsame := (sameRelaxed_rule ⟨"", [], .int⟩ later).pushes h.push
  exact (hsame.relax _ h.flat h.wellFormed.sort true).holds (sort_relax h.wellFormed.sort true) M

theorem Prepared.calls_args (hr : r ∈ P.requests) {a : Expr} (ha : a ∈ as r.rdcdFunc) :
  a.calls = []
  := by
  by_cases hcalled : ∃ c ∈ P.finalConstraint.calls, c.1 = r.rdcdFunc
  · obtain ⟨c, hc, heq⟩ := hcalled
    rw [← heq, ← h.called.call c hc] at ha
    exact (h.separable.args c hc a ha).1
  · push Not at hcalled
    rw [h.called.uncalled r hr hcalled] at ha
    obtain ⟨x, -, rfl⟩ := List.mem_map.mp ha
    rfl

theorem Prepared.sorts (hr : r ∈ P.requests) :
  (as r.rdcdFunc).map Expr.sort = r.requestUsedArgs.map fun x => some x.sort
  := by
  by_cases hcalled : ∃ c ∈ P.finalConstraint.calls, c.1 = r.rdcdFunc
  · obtain ⟨c, hc, heq⟩ := hcalled
    have hsorts := sort_of_mem_calls h.wellFormed.sort hc
    rw [h.called.call c hc, heq, Request.rdcdFunc, List.map_map] at hsorts
    exact hsorts
  · push Not at hcalled
    rw [h.called.uncalled r hr hcalled, List.map_map]
    rfl

/-- Simplified arguments. -/
theorem Prepared.simplified (hr : r ∈ P.requests) :
  ((as r.rdcdFunc).map S.simplify).map Expr.sort = (r.requestUsedArgs.map Expr.var).map Expr.sort
    ∧ ∀ M, ((as r.rdcdFunc).map S.simplify).map (Expr.eval M)
      = (as r.rdcdFunc).map (Expr.eval M)
  := by
  have hsorts := h.sorts hr
  have hsort : ∀ a ∈ as r.rdcdFunc, ∃ s, a.sort = some s := by
    intro a ha
    have hmem := List.mem_map_of_mem (f := Expr.sort) ha
    rw [hsorts] at hmem
    obtain ⟨x, -, hx⟩ := List.mem_map.mp hmem
    exact ⟨x.sort, hx.symm⟩
  constructor
  · rw [List.map_map, List.map_map]
    apply Eq.trans _ hsorts
    apply List.map_congr_left
    intro a ha
    obtain ⟨s, hs⟩ := hsort a ha
    rw [Function.comp_apply, (h.correct.simplify.preserves a s hs).1, hs]
  · intro M
    rw [List.map_map]
    apply List.map_congr_left
    intro a ha
    obtain ⟨s, hs⟩ := hsort a ha
    exact (h.correct.simplify.preserves a s hs).2 M

/-- Every call is of a function that is defined already, of the next one or of a later one. -/
theorem Prepared.calls_split (hrs : P.requests = rs ++ r :: rs') {c : FuncDecl × List Expr}
    (hc : c ∈ pushed.calls) :
  c.1 ∈ Problem.funcsOf rs ∨ c.1 = r.rdcdFunc ∨ c.1 ∈ Problem.funcsOf rs'
  := by
  have hmem := h.separable.calls c ((h.mem_calls c).mp hc)
  rw [mem_rdcdRequests_split hrs] at hmem
  exact hmem.imp_right List.mem_cons.mp

/-- A literal that is kept comes from one that is kept before negations are pushed in. -/
theorem Prepared.exists_literal {later : List FuncDecl}
    (hx : x ∈ outerVars f (relax later pushed true)) :
  ∃ q ∈ literals P.finalConstraint true, mentions later q = false ∧ x ∈ outerVars f q
  := by
  obtain ⟨q', hq', hkept, hx⟩ := h.combined.mem_outerVars_relax hx
  have hcomparison := h.combined.isComparison q' hq'
  have hsame := (sameLiterals_rule f).pushes h.push
  obtain ⟨q, hq, hsim⟩ := (hsame.covers .bool h.wellFormed.sort true).old q' hq'
  have hflat := h.flat.literal hq
  refine ⟨q, hq, ?_, hsim.mem_outerVars hcomparison hflat hx⟩
  rw [← hsim.mentions hcomparison hflat]
  exact hkept

theorem Defined.not_defined (hrs : P.requests = rs ++ r :: rs')
    (hpart : Defined P as rs (r :: rs') part) :
  r.rdcdFunc ∉ part.map Prod.fst
  := by
  rw [hpart.keys]
  exact fun hmem => h.wellFormed.not_mem_funcsOf hrs hmem List.mem_cons_self

/-- The variables of what is left for a function. -/
theorem Defined.exists_literal (hrs : P.requests = rs ++ r :: rs')
    (hpart : Defined P as rs (r :: rs') part)
    (hx : x ∈ outerVars r.rdcdFunc
      (rewriteResults part (relax (Problem.funcsOf rs') pushed true))) :
  ∃ q ∈ literals P.finalConstraint true, mentions (Problem.funcsOf rs') q = false
    ∧ x ∈ outerVars r.rdcdFunc q
  := by
  have hf := hpart.not_defined h hrs
  have hunnested : Unnested (relax (Problem.funcsOf rs') pushed true) := fun c hc =>
    h.unnested c (h.combined.mem_calls_relax hc).1
  have hs := h.sort_relaxed (Problem.funcsOf rs')
  rcases hpart.defines.mem_outerVars hf hs hunnested hx with hx | ⟨p, hp, hx, hnot⟩
  · exact h.exists_literal hx
  · obtain ⟨q, hq, hkept, hx⟩ := hpart.free p hp x hx hnot
    obtain ⟨hfree, hkept⟩ := mentions_cons.mp hkept
    exact ⟨q, hq, hkept, mem_outerVars_of_not_called hfree hx⟩

/-- Rewriting brings in no variables that the constraint does not have. -/
theorem Defined.mem_vars (hrs : P.requests = rs ++ r :: rs')
    (hpart : Defined P as rs (r :: rs') part) (hx : x ∈ (rewriteResults part pushed).vars) :
  x ∈ P.finalConstraint.vars
  := by
  have hunnested := h.unnested
  rcases outer_or_arg r.rdcdFunc hx with hx | ⟨c, hc, -, a, ha, hx⟩
  · have hf := hpart.not_defined h hrs
    rcases hpart.defines.mem_outerVars hf h.sort_pushed hunnested hx with
      hx | ⟨p, hp, hx, hnot⟩
    · exact outerVars_subset (((matches_rule _).pushes h.push).outer h.flat x hx)
    · obtain ⟨q, hq, -, hx⟩ := hpart.free p hp x hx hnot
      exact (within_of_mem_literals hq).vars x hx
  · have hmem := ((hpart.defines.mem_calls_rewriteResults hunnested).mp hc).1
    exact vars_of_mem_calls ((h.mem_calls c).mp hmem) ha hx

/-- What is left of the constraint for the next function. -/
theorem Defined.reduceConstr_eq (hrs : P.requests = rs ++ r :: rs')
    (hpart : Defined P as rs (r :: rs') part) :
  reduceConstr S P r.func.name part pushed
    = some (S.simplify (rewriteResults part (relax (Problem.funcsOf rs') pushed true)))
  := by
  have hr : r ∈ P.requests := by simp [hrs]
  have hcalls : ∀ c ∈ pushed.calls, (c.1 ∉ part.map Prod.fst ∧ c.1.name ∈ P.names
      ∧ c.1.name ≠ r.func.name) ↔ c.1 ∈ Problem.funcsOf rs' := by
    intro c hc
    rw [hpart.keys]
    have hmem := h.separable.calls c ((h.mem_calls c).mp hc)
    obtain ⟨r', hr', heq⟩ := List.mem_map.mp hmem
    have hname : c.1.name = r'.func.name := by rw [← heq]; rfl
    constructor
    · rintro ⟨hnot, -, hne⟩
      rcases h.calls_split hrs hc with hc' | hc' | hc'
      · exact absurd hc' hnot
      · rw [hc'] at hne
        exact absurd rfl hne
      · exact hc'
    · intro hlater
      have hlater' : c.1 ∈ Problem.funcsOf (r :: rs') := List.mem_cons_of_mem _ hlater
      refine ⟨fun hmem => h.wellFormed.not_mem_funcsOf hrs hmem hlater', ?_, ?_⟩
      · rw [hname]
        exact List.mem_map.mpr ⟨r', hr', rfl⟩
      · rw [hname]
        intro hsame
        obtain rfl := h.wellFormed.eq_of_name hr' hr hsame
        have hrs'' : P.requests = (rs ++ [r']) ++ rs' := by simp [hrs]
        rw [← heq] at hlater
        exact h.wellFormed.not_mem_funcsOf hrs'' (List.mem_map_of_mem (by simp)) hlater
  have hvars : ∀ x ∈ (rewriteResults part pushed).vars, x.name ∉ P.names := fun x hx =>
    h.separable.names x (hpart.mem_vars h hrs hx)
  rw [reduceConstr, h.combined.killNonCurrent_eq hpart.defines (h.unnested) hcalls hvars]
  rfl

/-- Pushing in negations leaves the literals that are kept linear. -/
theorem Prepared.isLinear (hrs : P.requests = rs ++ r :: rs') {q' : Expr}
    (hq' : q' ∈ literals pushed true) (hkept : mentions (Problem.funcsOf rs') q' = false)
    (hcalled : ∃ c ∈ q'.calls, c.1 = r.rdcdFunc) :
  IsLinear r.rdcdFunc q'
  := by
  have hcomparison := h.combined.isComparison q' hq'
  have hsame := (sameLiterals_rule r.rdcdFunc).pushes h.push
  obtain ⟨q, hq, hsim⟩ := (hsame.covers .bool h.wellFormed.sort true).old q' hq'
  have hflat := h.flat.literal hq
  apply hsim.isLinear hcomparison hflat
  apply h.separable.linear hrs q hq
  · rw [← hsim.mentions hcomparison hflat]
    exact hkept
  · obtain ⟨c, hc, heq⟩ := hcalled
    have hmentions : mentions [r.rdcdFunc] q = true := by
      rw [← hsim.mentions hcomparison hflat, mentions_iff]
      exact ⟨c, hc, heq ▸ List.mem_singleton_self _⟩
    obtain ⟨c, hc, hmem⟩ := mentions_iff.mp hmentions
    exact ⟨c, hc, List.mem_singleton.mp hmem⟩

/-- The calls in what is left are those of the next function. -/
theorem Defined.calls_left (hrs : P.requests = rs ++ r :: rs')
    (hpart : Defined P as rs (r :: rs') part) {c : FuncDecl × List Expr}
    (hc : c ∈ (rewriteResults part (relax (Problem.funcsOf rs') pushed true)).calls) :
  c ∈ P.finalConstraint.calls ∧ c = (r.rdcdFunc, as r.rdcdFunc)
  := by
  have hunnested : Unnested (relax (Problem.funcsOf rs') pushed true) := fun c hc =>
    h.unnested c (h.combined.mem_calls_relax hc).1
  obtain ⟨hc, hnot⟩ := (hpart.defines.mem_calls_rewriteResults hunnested).mp hc
  obtain ⟨hc, hnot'⟩ := h.combined.mem_calls_relax hc
  rw [hpart.keys] at hnot
  have hfunc : c.1 = r.rdcdFunc := by
    rcases h.calls_split hrs hc with hc' | hc' | hc'
    · exact absurd hc' hnot
    · exact hc'
    · exact absurd hc' hnot'
  have hmem := (h.mem_calls c).mp hc
  exact ⟨hmem, Prod.ext hfunc (hfunc ▸ h.called.call c hmem)⟩

/-- What is left for the next function is regular. -/
theorem Defined.regular
    (hrs : P.requests = rs ++ r :: rs') (hpart : Defined P as rs (r :: rs') part)
    (hget : getDef S P r part pushed = some (body, cache)) :
  Regular S P.rdcdRequests r.rdcdFunc ((as r.rdcdFunc).map S.simplify)
    (S.simplify (rewriteResults part (relax (Problem.funcsOf rs') pushed true)))
  := by
  have hf : r.rdcdFunc ∈ P.rdcdRequests := List.mem_map_of_mem (by simp [hrs])
  have hleft := fun c hc => hpart.calls_left h hrs (c := c) hc
  by_cases hnil : (rewriteResults part (relax (Problem.funcsOf rs') pushed true)).calls = []
  · exact .free (h.correct.simplify.calls hnil)
  · obtain ⟨c, hc⟩ := List.exists_mem_of_ne_nil _ hnil
    obtain ⟨hmem, rfl⟩ := hleft c hc
    have hnormalizes := h.normalizes _ hmem fun a ha => (h.separable.args _ hmem a ha).2.2
    have hs := hpart.defines.sort_rewriteResults
      (h.sort_relaxed (Problem.funcsOf rs'))
    have hcalls : ∀ c ∈ pushed.calls, c.1 ∈ part.map Prod.fst ∨ c.1 = r.rdcdFunc
        ∨ c.1 ∈ Problem.funcsOf rs' := by
      rw [hpart.keys]
      exact fun c hc => h.calls_split hrs hc
    have hbuilt := h.combined.built hpart.defines (hpart.not_defined h hrs) (h.unnested)
      hcalls fun q hq => h.isLinear hrs hq
    have hnormal := hnormalizes.simplify hs (fun c hc => (hleft c hc).2) hbuilt
    rw [getDef] at hget
    obtain ⟨partConstr, hconstr, hget⟩ := Option.bind_eq_some_iff.mp hget
    have hreduce := hpart.reduceConstr_eq (S := S) h hrs
    obtain rfl := Option.some.inj (hreduce.symm.trans hconstr)
    obtain ⟨normed, hnormed, hget⟩ := Option.bind_eq_some_iff.mp hget
    obtain ⟨st, hst, -⟩ := Option.bind_eq_some_iff.mp hget
    exact hnormal.regular h.correct hnormalizes hf hnormed hst

/-- What is left holds for a value of the next function if the literals that are kept do. -/
theorem Defined.holds_left (hrs : P.requests = rs ++ r :: rs')
    (hpart : Defined P as rs (r :: rs') part) (M : Model) (t : ℤ) :
  (rewriteResults part (relax (Problem.funcsOf rs') pushed true)).Holds (M.const fun _ => t)
    ↔ (relax (Problem.funcsOf rs') pushed true).Holds
      (M.const (Function.update ((M.defines part).valuesAt as) r.rdcdFunc t))
  := by
  have hs := h.sort_relaxed (Problem.funcsOf rs')
  have hcalls : ∀ c ∈ (relax (Problem.funcsOf rs') pushed true).calls,
      c ∈ P.finalConstraint.calls ∧ (c.1 ∈ part.map Prod.fst ∨ c.1 = r.rdcdFunc) := by
    intro c hc
    obtain ⟨hc, hnot⟩ := h.combined.mem_calls_relax hc
    refine ⟨(h.mem_calls c).mp hc, ?_⟩
    rw [hpart.keys]
    rcases h.calls_split hrs hc with hc' | hc' | hc'
    · exact .inl hc'
    · exact .inr hc'
    · exact absurd hc' hnot
  have hargs : ∀ c ∈ (relax (Problem.funcsOf rs') pushed true).calls,
      c.1.range = .int ∧ c.2 = as c.1 := by
    intro c hc
    have hmem := (hcalls c hc).1
    exact ⟨h.separable.range _ (h.separable.calls c hmem), h.called.call c hmem⟩
  rw [Expr.Holds, hpart.defines.eval_rewriteResults hs, eval_const_valuesAt hargs, const_defines,
    const_const, eval_const_congr]
  · rfl
  · intro c hc
    rcases (hcalls c hc).2 with hkey | hfunc
    · have hne : c.1 ≠ r.rdcdFunc := by
        rintro heq
        rw [heq] at hkey
        exact hpart.not_defined h hrs hkey
      have hfree : ∀ a ∈ as c.1, a.calls = [] := by
        obtain ⟨r', hr', heq⟩ := List.mem_map.mp (h.separable.calls c (hcalls c hc).1)
        rw [← heq]
        exact fun a ha => h.calls_args hr' ha
      obtain ⟨p, hp, heq⟩ := List.mem_map.mp hkey
      have hp' : (c.1, p.2) ∈ part := heq ▸ hp
      have hvalues : (as c.1).map (Expr.eval (M.const fun _ => t)) = (as c.1).map (Expr.eval M) :=
        List.map_congr_left fun a ha => eval_const_of_calls_nil (hfree a ha)
      rw [Function.update_of_ne hne, valuesAt_defines hpart.defines hp' hfree,
        valuesAt_defines hpart.defines hp' hfree, hvalues,
        eval_definition_const (hpart.defines.calls p hp)]
    · rw [hfunc, Function.update_self, Model.valuesAt,
        func_defines_of_not_mem (hpart.not_defined h hrs)]
      rfl

/-- The definition of the next function. -/
theorem Defined.getsDef
    (hrs : P.requests = rs ++ r :: rs') (hpart : Defined P as rs (r :: rs') part)
    (hget : getDef S P r part pushed = some (body, cache)) :
  GetsDef ((as r.rdcdFunc).map S.simplify) (r.requestUsedArgs.map .var)
    (S.simplify (rewriteResults part (relax (Problem.funcsOf rs') pushed true))) body cache
  := by
  have hr : r ∈ P.requests := by simp [hrs]
  have hs := hpart.defines.sort_rewriteResults
    (h.sort_relaxed (Problem.funcsOf rs'))
  have hdomain : ((as r.rdcdFunc).map S.simplify).map Expr.sort
      = r.rdcdFunc.domain.map some := by
    rw [(h.simplified hr).1, Request.rdcdFunc, List.map_map, List.map_map]
    rfl
  have hargs : ∀ a ∈ (as r.rdcdFunc).map S.simplify, a.calls = [] := by
    intro a ha
    obtain ⟨b, hb, rfl⟩ := List.mem_map.mp ha
    exact h.correct.simplify.calls (h.calls_args hr hb)
  exact getDef_getsDef h.correct h.separable.range hr hargs hdomain (hpart.reduceConstr_eq h hrs)
    (hpart.regular h hrs hget) (h.correct.simplify.preserves _ _ hs).1 hget

/-- The definition mentions variables of literals that are kept. -/
theorem Defined.mem_body
    (hrs : P.requests = rs ++ r :: rs') (hpart : Defined P as rs (r :: rs') part)
    (hget : getDef S P r part pushed = some (body, cache)) (hx : x ∈ body.vars) :
  ∃ q ∈ literals P.finalConstraint true, mentions (Problem.funcsOf rs') q = false
    ∧ x ∈ outerVars r.rdcdFunc q
  := by
  have hr : r ∈ P.requests := by simp [hrs]
  have hdef := hpart.getsDef h hrs hget
  have hargs : ∀ a ∈ (as r.rdcdFunc).map S.simplify, a.calls = [] := by
    intro a ha
    obtain ⟨b, hb, rfl⟩ := List.mem_map.mp ha
    exact h.correct.simplify.calls (h.calls_args hr hb)
  have houter : x ∈ outerVars r.rdcdFunc body := by
    apply mem_outerVars_of_not_called _ hx
    rw [hdef.calls]
    exact nofun
  have hconstr := vars_getDef h.correct h.isLocal hr hargs (hpart.reduceConstr_eq h hrs)
    (hpart.regular h hrs hget) hget x houter
  exact hpart.exists_literal h hrs (h.isLocal.simplify _ _ x hconstr)

/-- The value of the next function at the arguments of its calls. -/
theorem Defined.eval_result
    (hrs : P.requests = rs ++ r :: rs') (hpart : Defined P as rs (r :: rs') part)
    (hget : getDef S P r part pushed = some (body, cache)) (M : Model) :
  (Definition.mk r.requestUsedArgs (body.substitute cache (r.requestUsedArgs.map .var))).eval M
    ((as r.rdcdFunc).map (Expr.eval M)) = .int (body.intVal M)
  := by
  have hr : r ∈ P.requests := by simp [hrs]
  have hdef := hpart.getsDef h hrs hget
  obtain ⟨hsorts, hvalues⟩ := h.simplified hr
  have hformals : (r.requestUsedArgs.map Expr.var).map Expr.sort
      = r.requestUsedArgs.map fun x => some x.sort := by
    rw [List.map_map]
    rfl
  rcases hdef.cache with rfl | ⟨rfl, hzero⟩
  · rw [← hvalues, eval_definition_substitute (h.wellFormed.nodup r hr) (hsorts.trans hformals)]
    · apply eval_of_int hdef.sort
    · intro x hx hformal
      obtain ⟨q, hq, hkept, hx⟩ := hpart.mem_body h hrs hget hx
      by_cases hcalled : ∃ c ∈ P.finalConstraint.calls, c.1 = r.rdcdFunc
      · obtain ⟨c, hc, heq⟩ := hcalled
        have hmem := h.separable.capture hrs q hq hkept x hx hformal c hc heq
        rw [h.called.call c hc, heq] at hmem
        rw [← h.isLocal.var x]
        exact List.mem_map_of_mem hmem
      · push Not at hcalled
        rw [h.called.uncalled r hr hcalled, List.map_map]
        exact List.mem_map.mpr ⟨x, hformal, h.isLocal.var x⟩
  · rw [Definition.eval, eval_substitute hformals, eval_of_int hdef.sort, hzero, hzero]

/-- The value that the definition has satisfies the literals that are kept. -/
theorem Defined.holds_next
    (hrs : P.requests = rs ++ r :: rs') (hpart : Defined P as rs (r :: rs') part)
    (hget : getDef S P r part pushed = some (body, cache)) (M : Model)
    (hsol : ∃ w, P.finalConstraint.Holds (M.const w)) :
  (relax (Problem.funcsOf rs') pushed true).Holds (M.const
    (Function.update ((M.defines part).valuesAt as) r.rdcdFunc (body.intVal M)))
  := by
  have hs := hpart.defines.sort_rewriteResults
    (h.sort_relaxed (Problem.funcsOf rs'))
  obtain ⟨t, ht⟩ := h.separable.solvable hrs M _ hsol (hpart.holds M)
  rw [← h.holds_relax, ← hpart.holds_left h hrs,
    ← (h.correct.simplify.preserves _).holds hs] at ht
  have hholds := (hpart.getsDef h hrs hget).holds M t ht
  rwa [(h.correct.simplify.preserves _).holds hs,
    hpart.holds_left h hrs] at hholds

/-- Defining the next function. -/
theorem Defined.step
    (hsol : ∀ M : Model, ∃ w, P.finalConstraint.Holds (M.const w))
    (hrs : P.requests = rs ++ r :: rs') (hpart : Defined P as rs (r :: rs') part)
    (hget : getDef S P r part pushed = some (body, cache)) :
  Defined P as (rs ++ [r]) rs' (part ++ [(r.rdcdFunc,
    ⟨r.requestUsedArgs, body.substitute cache (r.requestUsedArgs.map .var)⟩)])
  := by
  have hr : r ∈ P.requests := by simp [hrs]
  have hnew := hpart.not_defined h hrs
  have hdef := hpart.getsDef h hrs hget
  have hcache : cache.map Expr.sort = (r.requestUsedArgs.map Expr.var).map Expr.sort := by
    rcases hdef.cache with rfl | ⟨rfl, -⟩
    · exact (h.simplified hr).1
    · rfl
  have hkeys : (part ++ [(r.rdcdFunc, Definition.mk r.requestUsedArgs
      (body.substitute cache (r.requestUsedArgs.map .var)))]).map Prod.fst
      = Problem.funcsOf (rs ++ [r]) := by
    rw [List.map_append, hpart.keys, Problem.funcsOf, Problem.funcsOf, List.map_append]
    rfl
  have hdefines : DefinesAll (part ++ [(r.rdcdFunc, ⟨r.requestUsedArgs,
      body.substitute cache (r.requestUsedArgs.map .var)⟩)]) := by
    refine ⟨?_, ?_, ?_⟩
    · rw [List.map_append, List.nodup_append]
      refine ⟨hpart.defines.nodup, List.nodup_singleton _, ?_⟩
      intro f hf g hg heq
      rw [heq, List.mem_singleton.mp hg] at hf
      exact hnew hf
    · intro p hp
      rcases List.mem_append.mp hp with hp | hp
      · exact hpart.defines.defines p hp
      · rw [List.mem_singleton.mp hp]
        refine ⟨rfl, ?_⟩
        rw [h.separable.range r.rdcdFunc (List.mem_map_of_mem hr)]
        exact sort_substitute_of_sorts hcache hdef.sort
    · intro p hp
      rcases List.mem_append.mp hp with hp | hp
      · exact hpart.defines.calls p hp
      · rw [List.mem_singleton.mp hp]
        exact calls_substitute_vars _ hdef.calls
  refine ⟨hkeys, hdefines, ?_, fun M => ?_⟩
  · intro p hp x hx hnot
    rcases List.mem_append.mp hp with hp | hp
    · obtain ⟨q, hq, hkept, hx⟩ := hpart.free p hp x hx hnot
      exact ⟨q, hq, (mentions_cons.mp hkept).2, hx⟩
    · rw [List.mem_singleton.mp hp] at hx hnot
      rcases mem_vars_replace hx with ⟨hx, -⟩ | ⟨t, t', ht, hx⟩
      · obtain ⟨q, hq, hkept, hx⟩ := hpart.mem_body h hrs hget hx
        exact ⟨q, hq, hkept, outerVars_subset hx⟩
      · have hmem := List.mem_reverse.mp (mem_of_lookup ht)
        obtain ⟨y, hy, rfl⟩ := List.mem_map.mp (List.of_mem_zip hmem).2
        rw [vars_var, List.mem_singleton] at hx
        exact absurd (hx ▸ hy) hnot
  · rw [← h.holds_relax, Expr.Holds, eval_const_congr]
    · exact hpart.holds_next h hrs hget M (hsol M)
    · intro c hc
      obtain ⟨hc, hlater⟩ := h.combined.mem_calls_relax hc
      have hfree : ∀ a ∈ as c.1, a.calls = [] := by
        obtain ⟨r', hr', heq⟩ := List.mem_map.mp (h.separable.calls c ((h.mem_calls c).mp hc))
        rw [← heq]
        exact fun a ha => h.calls_args hr' ha
      rcases h.calls_split hrs hc with hc' | hc' | hc'
      · have hne : c.1 ≠ r.rdcdFunc := by
          rintro heq
          rw [heq, ← hpart.keys] at hc'
          exact hnew hc'
        rw [← hpart.keys] at hc'
        obtain ⟨p, hp, heq⟩ := List.mem_map.mp hc'
        have hp' : (c.1, p.2) ∈ part := heq ▸ hp
        rw [Function.update_of_ne hne, valuesAt_defines hdefines (List.mem_append_left _ hp') hfree,
          valuesAt_defines hpart.defines hp' hfree]
      · rw [hc'] at hfree ⊢
        rw [Function.update_self, valuesAt_defines hdefines
          (List.mem_append_right _ (List.mem_singleton_self _)) hfree,
          hpart.eval_result h hrs hget]
        rfl
      · exact absurd hc' hlater

theorem Defined.runLoop
    (hsol : ∀ M : Model, ∃ w, P.finalConstraint.Holds (M.const w))
    {results : List (FuncDecl × Definition)} (hrs : P.requests = rs ++ rs')
    (hpart : Defined P as rs rs' part) (hrun : SSI.runLoop S P pushed rs' part = some results) :
  Defined P as P.requests [] results
  := by
  induction rs' generalizing rs part with
  | nil =>
      obtain rfl := Option.some.inj hrun
      rw [hrs, List.append_nil]
      exact hpart
  | cons r rs' ih =>
      rw [SSI.runLoop] at hrun
      obtain ⟨⟨body, cache⟩, hget, hrun⟩ := Option.bind_eq_some_iff.mp hrun
      have hstep := hpart.step h hsol hrs hget
      refine ih ?_ hstep hrun
      rw [hrs, List.append_assoc, List.singleton_append]

/-- A solution gives values to the functions at the arguments of their calls. -/
theorem Prepared.exists_values {F : Interp} (hF : P.Solves F) (M : Model) :
  ∃ w, P.finalConstraint.Holds (M.const w)
  := by
  refine ⟨(withFuncs M P.rdcdRequests F).valuesAt as, ?_⟩
  have hholds := hF M
  rw [Expr.Holds, eval_const_valuesAt h.range_args] at hholds
  exact hholds

/-- Before any function is defined no literals with calls are kept. -/
theorem Prepared.defined_nil (hsol : ∀ M : Model, ∃ w, P.finalConstraint.Holds (M.const w)) :
  Defined P as [] P.requests []
  := by
  refine ⟨rfl, ⟨List.nodup_nil, nofun, nofun⟩, nofun, fun M => ?_⟩
  obtain ⟨w, hw⟩ := hsol M
  have hpushed := ((h.push.preserves).holds h.wellFormed.sort _).mpr hw
  rw [← h.holds_relax, Expr.Holds, eval_const_congr (w := w)]
  · exact h.combined.holds_relax hpushed
  · intro c hc
    obtain ⟨hc, hnot⟩ := h.combined.mem_calls_relax hc
    exact absurd (h.separable.calls c ((h.mem_calls c).mp hc)) hnot

end Step

/-- Without functions there is nothing to define. -/
theorem Problem.Solves.valid_of_nil (hnil : P.requests = []) {F : Interp} (hF : P.Solves F) :
  P.finalConstraint.Valid
  := by
  intro M
  have hholds := hF M
  have hself : withFuncs M P.rdcdRequests F = M := by
    rw [Problem.rdcdRequests, hnil, withFuncs]
    simp
  rwa [hself] at hholds

/-- One function is fit for the method where it occurs linearly in comparisons that are not
strict. -/
theorem separable_of_single (hr : P.requests = [r]) (hrange : r.func.range = .int)
    (hs : P.finalConstraint.sort = some .bool)
    (hcalls : ∀ c ∈ P.finalConstraint.calls, c.1 = r.rdcdFunc)
    (hnames : ∀ x ∈ P.finalConstraint.vars, x.name ∉ P.names)
    (hargs : ∀ c ∈ P.finalConstraint.calls, ∀ a ∈ c.2, a.calls = [] ∧ Pushed a ∧ Settled S a)
    (hlinear : ∀ q ∈ literals P.finalConstraint true, (∃ c ∈ q.calls, c.1 = r.rdcdFunc) →
      IsLinear r.rdcdFunc q)
    (hcapture : ∀ q ∈ literals P.finalConstraint true, ∀ x ∈ outerVars r.rdcdFunc q,
      x ∈ r.requestUsedArgs → ∀ c ∈ P.finalConstraint.calls, .var x ∈ c.2) :
  Separable S P
  := by
  have hsplit : ∀ {rs rs' : List Request} {r' : Request}, P.requests = rs ++ r' :: rs' →
      r' = r ∧ rs' = [] := by
    intro rs rs' r' hrs
    rw [hr] at hrs
    cases rs with
    | nil => exact ⟨(List.cons.inj hrs).1.symm, (List.cons.inj hrs).2.symm⟩
    | cons r₁ rs => simp at hrs
  constructor
  · intro f hf
    rw [Problem.rdcdRequests, hr] at hf
    rw [List.mem_singleton.mp hf]
    exact hrange
  · intro c hc
    rw [hcalls c hc, Problem.rdcdRequests, hr]
    apply List.mem_singleton_self
  · exact hnames
  · exact hargs
  · intro rs rs' r' hrs q hq _
    obtain ⟨rfl, -⟩ := hsplit hrs
    exact hlinear q hq
  · intro rs rs' r' hrs q hq _ x hx hformal c hc _
    obtain ⟨rfl, -⟩ := hsplit hrs
    exact hcapture q hq x hx hformal c hc
  · intro rs rs' r' hrs M v ⟨w, hw⟩ _
    obtain ⟨rfl, rfl⟩ := hsplit hrs
    refine ⟨w r'.rdcdFunc, ?_⟩
    change (relax [] P.finalConstraint true).Holds _
    rw [(relax_preserves hs true).holds hs, Expr.Holds, eval_const_congr (w := w)]
    · exact hw
    · intro c hc
      rw [hcalls c hc, Function.update_self]

end Sound

/-! ### Examples -/

section Examples

/-- A simplifier that leaves expressions as they are. -/
def plain : Simplifier := ⟨id, id, id, id⟩

theorem plain_correct :
  plain.Correct
  := by
  have hid : Simplifies id := ⟨Preserves.refl, fun h => h⟩
  exact ⟨hid, hid, hid, List.Perm.refl⟩

/-- An equation with the same sides. -/
def isTrivial : Expr → Bool
  | .eq a b => a = b
  | _ => false

/-- Drop the trivial equations from a conjunction. -/
def dropTrivial : Expr → Expr
  | .and l => .and (l.filter fun e => !isTrivial e)
  | e => e

theorem holds_of_isTrivial {e : Expr} (h : isTrivial e = true) (M : Model) :
  e.Holds M
  := by
  unfold isTrivial at h
  split at h
  · rw [of_decide_eq_true h, holds_eq]
  · cases h

theorem calls_dropTrivial {e : Expr} {c : FuncDecl × List Expr} (hc : c ∈ (dropTrivial e).calls) :
  c ∈ e.calls
  := by
  revert hc
  fun_cases dropTrivial e with
  | case1 l =>
      intro hc
      rcases mem_calls_app.mp hc with ⟨g, hg, -⟩ | ⟨e, he, hc⟩
      · cases hg
      · exact mem_calls_app.mpr (.inr ⟨e, List.mem_of_mem_filter he, hc⟩)
  | case2 e _ => exact id

theorem simplifies_dropTrivial :
  Simplifies dropTrivial
  := by
  constructor
  · intro e
    fun_cases dropTrivial e with
    | case1 l =>
        apply Preserves.of_holds
        intro s hs
        rw [sort_and] at hs
        refine ⟨hs.1, sort_and.mpr ⟨rfl, fun e he => hs.2 e (List.mem_of_mem_filter he)⟩, ?_⟩
        intro M
        rw [holds_and, holds_and]
        constructor
        · intro h e he
          cases htrivial : isTrivial e with
          | true => exact holds_of_isTrivial htrivial M
          | false => exact h e (List.mem_filter.mpr ⟨he, by rw [htrivial]; rfl⟩)
        · exact fun h e he => h e (List.mem_of_mem_filter he)
    | case2 e => exact Preserves.refl e
  · intro e h
    rw [List.eq_nil_iff_forall_not_mem] at h ⊢
    exact fun c hc => h c (calls_dropTrivial hc)

theorem keepsOuter_dropTrivial :
  KeepsOuter dropTrivial
  := by
  intro f e x
  fun_cases dropTrivial e with
  | case1 l =>
      intro hx
      obtain ⟨ho, e, he, hx⟩ := mem_outerVars_app.mp hx
      exact mem_outerVars_app.mpr ⟨ho, e, List.mem_of_mem_filter he, hx⟩
  | case2 e _ => exact id

/-- The numerals in a product of a product are multiplied. -/
def mulNums : Expr → Expr
  | .mul [.num m, .mul [.num n, e]] => if m * n = 1 then e else .mul [.num (m * n), e]
  | e => e

/-- A comparison of a call with a variable is normal; other comparisons with calls are not
normalized. -/
def keepCall : Expr → Expr
  | .app o [.app (.func f) args, .var y] => .app o [.func f args, .var y]
  | .app o l => if isComparison o ∧ (Expr.app o l).calls ≠ [] then .and [.app o l] else .app o l
  | e => e

/-- A simplifier for comparisons of a call with variables. -/
def callSimplifier : Simplifier := ⟨fun e => dropTrivial (mulNums e), keepCall, id, id⟩

theorem simplifies_mulNums :
  Simplifies mulNums
  := by
  have hmul : ∀ g, Op.mul ≠ .func g := nofun
  constructor
  · intro e
    fun_cases mulNums e with
    | case1 m n e h =>
        apply Preserves.of_intVal
        intro s hs
        obtain ⟨rfl, he⟩ : s = .int ∧ e.sort = some .int := by simpa using hs
        refine ⟨rfl, he, fun M => ?_⟩
        simp [← mul_assoc, h]
    | case2 m n e h =>
        apply Preserves.of_intVal
        intro s hs
        obtain ⟨rfl, he⟩ : s = .int ∧ e.sort = some .int := by simpa using hs
        refine ⟨rfl, by simpa using he, fun M => ?_⟩
        simp [mul_assoc]
    | case3 e h => exact Preserves.refl _
  · intro e h
    fun_cases mulNums e with
    | case1 m n e _ =>
        rw [calls_app_eq_nil hmul] at h
        have hinner := h (.mul [.num n, e]) (by simp)
        rw [calls_app_eq_nil hmul] at hinner
        exact hinner e (by simp)
    | case2 m n e _ =>
        rw [calls_app_eq_nil hmul] at h
        have hinner := h (.mul [.num n, e]) (by simp)
        rw [calls_app_eq_nil hmul] at hinner ⊢
        simpa using hinner
    | case3 e _ => exact h

theorem simplifies_keepCall :
  Simplifies keepCall
  := by
  have hand : ∀ g, Op.and ≠ .func g := nofun
  constructor
  · intro e
    fun_cases keepCall e with
    | case1 o f args y => exact Preserves.refl _
    | case2 o l _ ho => exact preserves_and_singleton ho.1
    | case3 o l _ ho => exact Preserves.refl _
    | case4 e _ => exact Preserves.refl _
  · intro e h
    fun_cases keepCall e with
    | case1 o f args y => exact h
    | case2 o l _ ho => simpa [calls_app_eq_nil hand] using h
    | case3 o l _ ho => exact h
    | case4 e _ => exact h

theorem keepsOuter_mulNums :
  KeepsOuter mulNums
  := by
  intro f e x
  have hmul : Op.mul ≠ .func f := nofun
  have hinner : ∀ {m n : ℤ} {e : Expr}, x ∈ outerVars f e →
      x ∈ outerVars f (.mul [.num m, .mul [.num n, e]]) := by
    intro m n e hx
    refine mem_outerVars_app.mpr ⟨hmul, .mul [.num n, e], List.mem_cons_of_mem _ (by simp), ?_⟩
    exact mem_outerVars_app.mpr ⟨hmul, e, List.mem_cons_of_mem _ (by simp), hx⟩
  fun_cases mulNums e with
  | case1 m n e h => exact hinner
  | case2 m n e h =>
      intro hx
      obtain ⟨-, e', he', hmem⟩ := mem_outerVars_app.mp hx
      rcases List.mem_pair.mp he' with rfl | rfl
      · cases hmem
      · exact hinner hmem
  | case3 e h => exact id

theorem keepsOuter_keepCall :
  KeepsOuter keepCall
  := by
  intro f e x
  fun_cases keepCall e with
  | case1 o g args y => exact id
  | case2 o l _ ho =>
      intro hx
      obtain ⟨-, e, he, hx⟩ := mem_outerVars_app.mp hx
      rwa [List.mem_singleton.mp he] at hx
  | case3 o l _ ho => exact id
  | case4 e _ => exact id

theorem callSimplifier_correct :
  callSimplifier.Correct
  := by
  refine ⟨⟨fun e => ?_, fun h => ?_⟩, simplifies_keepCall, ⟨Preserves.refl, id⟩, List.Perm.refl⟩
  · exact (simplifies_mulNums.preserves e).trans (simplifies_dropTrivial.preserves _)
  · exact simplifies_dropTrivial.calls (simplifies_mulNums.calls h)

theorem callSimplifier_local :
  callSimplifier.Local
  where
  var _ := rfl
  simplify f e x hx := keepsOuter_mulNums f e x (keepsOuter_dropTrivial f _ x hx)
  arithLhs := keepsOuter_keepCall
  simp _ _ _ hx := hx

theorem simplify_vars (xs : List Var) :
  (xs.map Expr.var).map callSimplifier.simplify = xs.map .var
  := by
  rw [List.map_map]
  rfl

theorem simplify_of_bool {e : Expr} (hs : e.sort = some .bool) :
  callSimplifier.simplify e = dropTrivial e
  := by
  have hself : mulNums e = e := by
    fun_cases mulNums e with
    | case1 m n e _ => cases (sort_mul.mp hs).1
    | case2 m n e _ => cases (sort_mul.mp hs).1
    | case3 e _ => rfl
  exact congrArg dropTrivial hself

/-- The simplifier finds the comparisons of the call with a variable normal. -/
theorem isNormal_of_isLinear {f : FuncDecl} {args : List Expr} {q : Expr}
    (hcalls : ∀ c ∈ q.calls, c = (f, args)) (hcalled : q.calls ≠ []) (hq : IsLinear f q) :
  IsNormal callSimplifier f args q
  := by
  obtain ⟨o, a, b, rfl, ho, -⟩ := hq
  refine ⟨o, a, b, rfl, ho, hcalls, ?_⟩
  intro o' left right rest h
  change keepCall (.app o [a, b]) = _ at h
  revert h
  generalize he : Expr.app o [a, b] = e
  fun_cases keepCall e with
  | case1 o g args' y =>
      intro h
      cases he
      cases h
      have hcall := hcalls (g, args') (mem_calls_app.mpr (.inr ⟨_, by simp, mem_calls_app.mpr
        (.inl ⟨g, rfl, rfl⟩)⟩))
      obtain ⟨rfl, rfl⟩ := Prod.mk.inj hcall
      exact ⟨ho, [], _, [], rfl, nofun, rfl, .inl rfl⟩
  | case2 o l _ _ => exact nofun
  | case3 o l _ hnot =>
      intro _
      cases he
      exact absurd ⟨ho, hcalled⟩ hnot
  | case4 e _ hnot =>
      intro _
      exact (hnot o [a, b] he.symm).elim

theorem callSimplifier_normalizes (f : FuncDecl) (xs : List Var) :
  callSimplifier.Normalizes f (xs.map .var)
  := by
  have hnormal : ∀ {e : Expr}, (∀ c ∈ e.calls, c = (f, xs.map .var)) → Built (IsLinear f) e →
      Built (IsNormal callSimplifier f (xs.map .var)) (dropTrivial e) := by
    intro e hcalls h
    have hbuilt : Built (IsNormal callSimplifier f (xs.map .var)) e := by
      induction h with
      | free h => exact .free h
      | @atom q h =>
          by_cases hnil : q.calls = []
          · exact .free hnil
          · exact .atom (isNormal_of_isLinear hcalls hnil h)
      | connective ho _ ih =>
          exact .connective ho fun e he =>
            ih e he fun c hc => hcalls c (mem_calls_app.mpr (.inr ⟨e, he, hc⟩))
    fun_cases dropTrivial e with
    | case1 l =>
        cases hbuilt with
        | free h => exact .free (simplifies_dropTrivial.calls h)
        | atom h =>
            obtain ⟨o, a, b, heq, ho, -⟩ := h
            cases heq
            cases ho
        | connective ho hl => exact .connective ho fun e he => hl e (List.mem_of_mem_filter he)
    | case2 e _ => exact hbuilt
  constructor
  · intro e hs hcalls h
    rw [simplify_vars, simplify_of_bool hs]
    exact hnormal hcalls h
  · rfl
  · intro n _
    rw [simplify_vars]
    have hself : callSimplifier.simplify (.mul [.num (-1), .mul [.num n, .func f (xs.map .var)]])
        = dropTrivial (if -1 * n = 1 then .func f (xs.map .var)
          else .mul [.num (-1 * n), .func f (xs.map .var)]) := rfl
    have hone : -1 * n = 1 ↔ n = -1 := by omega
    rw [hself]
    by_cases hn : n = -1
    · rw [if_pos (hone.mpr hn), if_pos hn]
      rfl
    · rw [if_neg (mt hone.mp hn), if_neg hn, neg_one_mul]
      rfl

/-- An integer function of some of the variables. -/
def requestOf (name : String) (args : List Var) : Request :=
  ⟨⟨name, args.map Var.sort, .int⟩, args, args⟩

/-- The call of a function with its own arguments. -/
def callOf (r : Request) : Expr := .func r.rdcdFunc (r.requestUsedArgs.map .var)

/-- A problem whose functions have all their arguments. -/
theorem constraints_iff {P : Problem} (hfinal : P.finalConstraint = .and P.constraints)
    (hself : ∀ e ∈ P.constraints, rewriteAll P.requests e = e) (M : Model) :
  P.finalConstraint.Holds M ↔ ∀ e ∈ P.constraints, (rewriteAll P.requests e).Holds M
  := by
  rw [hfinal, holds_and]
  exact forall₂_congr fun e he => by rw [hself e he]

/-- A function of two integers that, with the same integer twice, is at least as great. -/
def diagonal : Problem where
  requests := [requestOf "f" [⟨"y", .int⟩, ⟨"z", .int⟩]]
  constraints := [.ge (.func (requestOf "f" [⟨"y", .int⟩, ⟨"z", .int⟩]).rdcdFunc
    [.var ⟨"x", .int⟩, .var ⟨"x", .int⟩]) (.var ⟨"x", .int⟩)]
  finalConstraint := .and [.ge (.func (requestOf "f" [⟨"y", .int⟩, ⟨"z", .int⟩]).rdcdFunc
    [.var ⟨"x", .int⟩, .var ⟨"x", .int⟩]) (.var ⟨"x", .int⟩)]

theorem wellFormed_diagonal :
  diagonal.WellFormed
  := by
  refine ⟨by decide, by decide, by decide, ?_⟩
  apply constraints_iff rfl (by decide)

theorem separable_diagonal :
  Separable callSimplifier diagonal
  := by
  refine separable_of_single rfl rfl wellFormed_diagonal.sort (by decide) (by decide) ?_ ?_
    (by decide)
  · intro c hc a ha
    have hcalls : diagonal.finalConstraint.calls
        = [((requestOf "f" [⟨"y", .int⟩, ⟨"z", .int⟩]).rdcdFunc,
          [.var ⟨"x", .int⟩, .var ⟨"x", .int⟩])] := rfl
    rw [hcalls, List.mem_singleton] at hc
    subst hc
    obtain rfl : a = .var ⟨"x", .int⟩ := by simpa using ha
    exact ⟨rfl, trivial, rfl, rfl⟩
  · intro q hq _
    rw [List.mem_singleton.mp hq]
    exact ⟨.ge, _, _, rfl, rfl, rfl, .call _, .free nofun⟩

/-- The second function is at least as great as the argument, and the first one as the second. -/
def coupled : Problem where
  requests := [requestOf "f" [⟨"x", .int⟩], requestOf "g" [⟨"x", .int⟩]]
  constraints := [.ge (callOf (requestOf "f" [⟨"x", .int⟩])) (callOf (requestOf "g" [⟨"x", .int⟩])),
    .ge (callOf (requestOf "g" [⟨"x", .int⟩])) (.var ⟨"x", .int⟩)]
  finalConstraint := .and
    [.ge (callOf (requestOf "f" [⟨"x", .int⟩])) (callOf (requestOf "g" [⟨"x", .int⟩])),
      .ge (callOf (requestOf "g" [⟨"x", .int⟩])) (.var ⟨"x", .int⟩)]

theorem wellFormed_coupled :
  coupled.WellFormed
  := by
  refine ⟨by decide, by decide, by decide, ?_⟩
  apply constraints_iff rfl (by decide)

/-- Both functions may return their argument. -/
theorem solves_coupled :
  coupled.Solves fun _ vs => .int (vs.headD (.int 0)).toInt
  := by
  intro M
  rw [coupled, holds_and_pair, holds_ge, holds_ge]
  exact ⟨le_refl _, le_refl _⟩

end Examples

end Sygus.SSI
