import DryadSynth.Formatter
import DryadSynth.Reduce.Request
import DryadSynth.SSI.Regular

/-!
# Single invocation

The functions of a constraint are defined one after the other.  For each of them the comparisons
with calls of those that are not defined yet are taken to be true, and the definition picks, by
nested conditionals, the first candidate with which the remaining constraint is true.
-/

namespace Sygus.SSI

open LIA Boundary Reduce

/-- A problem over linear integer arithmetic after the reduction of its arguments. -/
structure Problem where
  requests : List Request
  constraints : List Expr
  finalConstraint : Expr

namespace Problem

variable (P : Problem)

def names : List String := P.requests.map fun r => r.func.name

def rdcdRequests : List FuncDecl := P.requests.map Request.rdcdFunc

end Problem

/-! ### When to run -/

/-- The calls seen so far, and the functions called in the current comparison. -/
structure CallState where
  callCache : List (String × List Expr)
  funcCalled : List String

/-- Look at an application: a function may be called once in a comparison, with the same
arguments everywhere. -/
def isSSICall (fs : List FuncDecl) (o : Op) (args : List Expr) (st : CallState) :
    Bool × CallState :=
  match o with
  | .func f =>
      if f ∈ fs then
        if f.name ∈ st.funcCalled then (false, st)
        else if f.range ≠ .int then (false, st)
        else
          match st.callCache.lookup f.name with
          | some args' =>
              if args ≠ args' then (false, st)
              else (true, ⟨st.callCache, f.name :: st.funcCalled⟩)
          | none => (true, ⟨(f.name, args) :: st.callCache, f.name :: st.funcCalled⟩)
      else (true, st)
  | _ => (true, st)

mutual

/-- The expression is fit for single invocation. -/
def isSSI (fs : List FuncDecl) : Expr → CallState → Bool × CallState
  | .num _, st => (true, st)
  | .var _, st => (true, st)
  | .app o args, st =>
      let call := isSSICall fs o args st
      if call.1 then
        let rest := isSSIAll fs args true call.2
        (rest.1, if isComparison o then ⟨rest.2.callCache, []⟩ else rest.2)
      else (false, call.2)

/-- The arguments are looked at as long as the result is true. -/
def isSSIAll (fs : List FuncDecl) : List Expr → Bool → CallState → Bool × CallState
  | [], result, st => (result, st)
  | e :: l, result, st =>
      if result then
        let next := isSSI fs e st
        isSSIAll fs l next.1 next.2
      else isSSIAll fs l false st

end

def Problem.checkSSI (P : Problem) : Bool := (isSSI P.rdcdRequests P.finalConstraint ⟨[], []⟩).1

/-! ### Definitions -/

section Definitions

variable (S : Simplifier) (P : Problem)

/-- Nested conditionals that pick the first candidate with which the constraint is true. -/
def constructITE (partConstr funcExpr : Expr) : List Expr → Expr
  | [] => .num 0
  | cand :: rest =>
      .ite (S.simp (elimITE (partConstr.substitute [funcExpr] [cand]))) cand
        (constructITE partConstr funcExpr rest)

/-- Rewrite the calls of the functions that are defined already. -/
def rewriteResults (partResults : List (FuncDecl × Definition)) (e : Expr) : Expr :=
  partResults.foldl (fun e p => e.expand p.1 p.2) e

def reduceConstr (name : String) (partResults : List (FuncDecl × Definition)) (orig : Expr) :
    Option Expr :=
  (killNonCurrent P.names name (rewriteResults partResults orig)).map S.simplify

/-- The definition in the variables of the constraint, and the arguments of the calls. -/
def getDef (r : Request) (partResults : List (FuncDecl × Definition)) (pushedConstr : Expr) :
    Option (Expr × List Expr) := do
  let partConstr ← reduceConstr S P r.func.name partResults pushedConstr
  let normed ← normalizeExpr S P.rdcdRequests partConstr
  let st ← scanExpr S P.rdcdRequests normed ⟨[], r.requestUsedArgs.map .var⟩
  let funcExpr := Expr.func r.rdcdFunc st.callCache
  return (S.simplify (constructITE S partConstr funcExpr (S.toArray st.compared)), st.callCache)

/-- Define the functions one after the other. -/
def runLoop (pushedConstr : Expr) : List Request → List (FuncDecl × Definition) →
    Option (List (FuncDecl × Definition))
  | [], partResults => some partResults
  | r :: rs, partResults => do
      let (body, callCache) ← getDef S P r partResults pushedConstr
      let def' := body.substitute callCache (r.requestUsedArgs.map .var)
      runLoop pushedConstr rs (partResults ++ [(r.rdcdFunc, ⟨r.requestUsedArgs, def'⟩)])

/-- The results, with the used arguments as parameters.  There are none when the recursion of
`pushInNots` does not end within `n` calls or one of the steps fails. -/
def run (n : ℕ) : Option (List (FuncDecl × Definition)) := do
  let pushedConstr ← pushInNots n P.finalConstraint
  runLoop S P pushedConstr P.requests []

end Definitions

/-! ### The definition of one function -/

section GetDef

variable {S : Simplifier} {P : Problem} {f : FuncDecl} {args : List Expr} {e cand : Expr}
variable {M M' : Model} {l : List Expr} {v : ℤ}

theorem lookup_singleton (a b t : Expr) :
  ([a].zip [b]).reverse.lookup t = if t = a then some b else none
  := by
  split
  · next h => simp [h]
  · next h =>
      have hbeq : (t == a) = false := by simpa using h
      simp [List.lookup_cons, hbeq]

/-- Substituting for the call is giving the function a value. -/
theorem eval_substitute_call (hrange : f.range = .int) (hcalls : ∀ c ∈ e.calls, c = (f, args))
    (hcand : cand.sort = some .int) :
  (e.substitute [.func f args] [cand]).eval M = e.eval (M.const fun _ => cand.intVal M)
  := by
  rw [Expr.substitute]
  simp only [lookup_singleton]
  induction e with
  | num n => rfl
  | var x => rfl
  | app o as ih =>
      rw [replace_app]
      by_cases h : Expr.app o as = .func f args
      · rw [if_pos h, Option.getD_some, h, eval_func_const (c := (f, args)) hrange]
        apply eval_of_int hcand
      · rw [if_neg h, Option.getD_none, eval_app, eval_app, List.map_map]
        have hmap : as.map (Expr.eval M ∘ Expr.replace
            fun t => if t = .func f args then some cand else none)
            = as.map (Expr.eval (M.const fun _ => cand.intVal M)) := by
          apply List.map_congr_left
          intro e he
          exact ih e he fun c hc => hcalls c (mem_calls_app.mpr (Or.inr ⟨e, he, hc⟩))
        rw [hmap]
        apply apply_congr_of_ne
        rintro g rfl
        have hg := hcalls (g, as) (mem_calls_app.mpr (Or.inl ⟨g, rfl, rfl⟩))
        obtain ⟨rfl, rfl⟩ := Prod.mk.inj hg
        apply absurd rfl h

theorem sort_substitute_call (args : List Expr) (hrange : f.range = .int)
    (hcand : cand.sort = some .int) {s : Srt} (hs : e.sort = some s) :
  (e.substitute [.func f args] [cand]).sort = some s
  := by
  refine sort_replace ?_ hs
  intro t t' s' hlookup ht
  have hmem := List.mem_reverse.mp (mem_of_lookup hlookup)
  obtain ⟨rfl, rfl⟩ : t = .func f args ∧ t' = cand := by simpa using hmem
  rw [hcand, (sort_func.mp ht).1, hrange]

/-- No calls are left when all are replaced by expressions without calls. -/
theorem calls_replace {σ : Expr → Option Expr} (hσ : ∀ t t', σ t = some t' → t'.calls = [])
    (hcalls : ∀ c ∈ e.calls, ∃ t', σ (.func c.1 c.2) = some t') :
  (e.replace σ).calls = []
  := by
  induction e with
  | num n =>
      rw [Expr.replace]
      cases h : σ (.num n) with
      | none => rfl
      | some t' => exact hσ _ _ h
  | var x =>
      rw [Expr.replace]
      cases h : σ (.var x) with
      | none => rfl
      | some t' => exact hσ _ _ h
  | app o as ih =>
      rw [replace_app]
      cases h : σ (.app o as) with
      | some t' => exact hσ _ _ h
      | none =>
          have ho : ∀ g, o ≠ .func g := by
            rintro g rfl
            obtain ⟨t', ht'⟩ := hcalls (g, as) (mem_calls_app.mpr (Or.inl ⟨g, rfl, rfl⟩))
            rw [h] at ht'
            cases ht'
          rw [Option.getD_none, calls_app_eq_nil ho]
          intro e' he'
          obtain ⟨e, he, rfl⟩ := List.mem_map.mp he'
          exact ih e he fun c hc => hcalls c (mem_calls_app.mpr (Or.inr ⟨e, he, hc⟩))

theorem calls_substitute_call (hcalls : ∀ c ∈ e.calls, c = (f, args)) (hcand : cand.calls = []) :
  (e.substitute [.func f args] [cand]).calls = []
  := by
  rw [Expr.substitute]
  simp only [lookup_singleton]
  apply calls_replace
  · intro t t' h
    split at h
    · rw [← Option.some.inj h]
      apply hcand
    · cases h
  · intro c hc
    use cand
    rw [hcalls c hc, if_pos rfl]

/-- Substituting variables makes no calls. -/
theorem calls_substitute_vars {src : List Expr} (ys : List Var) (hcalls : e.calls = []) :
  (e.substitute src (ys.map .var)).calls = []
  := by
  apply calls_replace
  · intro t t' h
    have hmem := List.mem_reverse.mp (mem_of_lookup h)
    obtain ⟨y, -, rfl⟩ := List.mem_map.mp (List.of_mem_zip hmem).2
    rfl
  · rw [hcalls]
    exact nofun

theorem sort_constructITE (args : List Expr) (hS : S.Correct) (hrange : f.range = .int)
    (hs : e.sort = some .bool)
    (hl : ∀ c ∈ l, c.sort = some .int ∧ c.calls = []) :
  (constructITE S e (.func f args) l).sort = some .int
  := by
  induction l with
  | nil => rfl
  | cons cand l ih =>
      have hcand := (hl cand List.mem_cons_self).1
      rw [constructITE, sort_ite]
      refine ⟨?_, hcand, ih fun c hc => hl c (List.mem_cons_of_mem _ hc)⟩
      have hsubst := sort_substitute_call args hrange hcand hs
      apply (hS.simp.preserves _ _ (elimITE_preserves _ _ hsubst).1).1

theorem calls_constructITE (hS : S.Correct) (hcalls : ∀ c ∈ e.calls, c = (f, args))
    (hl : ∀ c ∈ l, c.sort = some .int ∧ c.calls = []) :
  (constructITE S e (.func f args) l).calls = []
  := by
  induction l with
  | nil => rfl
  | cons cand l ih =>
      have ho : ∀ g, Op.ite ≠ .func g := nofun
      rw [constructITE, calls_app_eq_nil ho]
      intro e' he'
      simp only [List.mem_cons, List.not_mem_nil, or_false] at he'
      rcases he' with rfl | rfl | rfl
      · apply hS.simp.calls
        apply calls_elimITE (calls_substitute_call hcalls (hl cand List.mem_cons_self).2)
      · apply (hl _ List.mem_cons_self).2
      · exact ih fun c hc => hl c (List.mem_cons_of_mem _ hc)

/-- The condition of a candidate is that the constraint is true with it. -/
theorem holds_condition (hS : S.Correct) (hrange : f.range = .int)
    (hcalls : ∀ c ∈ e.calls, c = (f, args)) (hs : e.sort = some .bool)
    (hcand : cand.sort = some .int) :
  (S.simp (elimITE (e.substitute [.func f args] [cand]))).Holds M
    ↔ e.Holds (M.const fun _ => cand.intVal M)
  := by
  have hsubst := sort_substitute_call args hrange hcand hs
  have helim := elimITE_preserves _ _ hsubst
  rw [(hS.simp.preserves _).holds helim.1, (elimITE_preserves _).holds hsubst, Expr.Holds,
    eval_substitute_call hrange hcalls hcand]
  rfl

/-- The definition depends on what the constraint and the candidates depend on. -/
theorem constructITE_congr {X : List Var} (hS : S.Correct) (hrange : f.range = .int)
    (hcalls : ∀ c ∈ e.calls, c = (f, args)) (hs : e.sort = some .bool)
    (hl : ∀ c ∈ l, IsCandidate X c) (hX : ∀ x ∈ e.vars, x ∈ X)
    (hM : ∀ x ∈ X, M.value x = M'.value x) :
  (constructITE S e (.func f args) l).intVal M = (constructITE S e (.func f args) l).intVal M'
  := by
  induction l with
  | nil => rfl
  | cons cand l ih =>
      have hcand := hl cand List.mem_cons_self
      have hvalue := hcand.depends M M' hM
      have hcond : e.Holds (M.const fun _ => cand.intVal M)
          ↔ e.Holds (M'.const fun _ => cand.intVal M') := by
        rw [hvalue, Expr.Holds, Expr.Holds]
        rw [eval_congr_calls (N := M'.const fun _ => cand.intVal M')]
        · exact fun x hx => hM x (hX x hx)
        · exact fun _ _ => rfl
      rw [constructITE, intVal_ite, intVal_ite, hvalue,
        ih fun c hc => hl c (List.mem_cons_of_mem _ hc)]
      simp only [holds_condition hS hrange hcalls hs hcand.sort, hcond]

/-- If the constraint is true with one of the candidates or zero, it is with the definition. -/
theorem holds_constructITE (hS : S.Correct) (hrange : f.range = .int)
    (hcalls : ∀ c ∈ e.calls, c = (f, args)) (hs : e.sort = some .bool)
    (hl : ∀ c ∈ l, c.sort = some .int ∧ c.calls = []) (hcand : cand ∈ l ∨ cand = .num 0)
    (hM : e.Holds (M.const fun _ => cand.intVal M)) :
  e.Holds (M.const fun _ => (constructITE S e (.func f args) l).intVal M)
  := by
  induction l with
  | nil =>
      rcases hcand with hcand | rfl
      · cases hcand
      · apply hM
  | cons first l ih =>
      have hcond := holds_condition (M := M) hS hrange hcalls hs (hl first List.mem_cons_self).1
      rw [constructITE, intVal_ite]
      split
      · next h => exact hcond.mp h
      · next h =>
          apply ih fun c hc => hl c (List.mem_cons_of_mem _ hc)
          rcases hcand with hcand | rfl
          · rcases List.mem_cons.mp hcand with rfl | hcand
            · apply absurd (hcond.mpr hM) h
            · apply Or.inl hcand
          · apply Or.inr rfl

/-- The definition of a function: an integer without calls that makes the constraint true where
it can be.  The cached arguments are those of the calls, or the formal ones when there are no
calls. -/
structure GetsDef (args formals : List Expr) (partConstr body : Expr) (cache : List Expr) :
    Prop where
  sort : body.sort = some .int
  calls : body.calls = []
  depends (M M' : Model) : (∀ x ∈ partConstr.vars, M.value x = M'.value x) →
    body.intVal M = body.intVal M'
  cache : cache = args ∨ cache = formals ∧ ∀ M, body.intVal M = 0
  holds (M : Model) (v : ℤ) : partConstr.Holds (M.const fun _ => v) →
    partConstr.Holds (M.const fun _ => body.intVal M)

theorem getDef_getsDef {r : Request} {part : List (FuncDecl × Definition)}
    {pushed partConstr body : Expr} {cache : List Expr} (hS : S.Correct)
    (hfs : ∀ f ∈ P.rdcdRequests, f.range = .int) (hr : r ∈ P.requests)
    (hargs : ∀ e ∈ args, e.calls = [])
    (hdomain : args.map Expr.sort = r.rdcdFunc.domain.map some)
    (hconstr : reduceConstr S P r.func.name part pushed = some partConstr)
    (hreg : Regular S P.rdcdRequests r.rdcdFunc args partConstr)
    (hs : partConstr.sort = some .bool) (h : getDef S P r part pushed = some (body, cache)) :
  GetsDef args (r.requestUsedArgs.map .var) partConstr body cache
  := by
  have hf : r.rdcdFunc ∈ P.rdcdRequests := List.mem_map_of_mem hr
  have hrange : r.rdcdFunc.range = .int := hfs _ hf
  rw [getDef] at h
  obtain ⟨partConstr', hconstr', h⟩ := Option.bind_eq_some_iff.mp h
  obtain rfl := Option.some.inj (hconstr.symm.trans hconstr')
  obtain ⟨normed, hnormed, h⟩ := Option.bind_eq_some_iff.mp h
  obtain ⟨st, hst, h⟩ := Option.bind_eq_some_iff.mp h
  obtain ⟨rfl, rfl⟩ := Prod.mk.inj (Option.some.inj h)
  have hfinds := hreg.finds hS hfs hf hargs hdomain hs (fun _ h => h) hnormed hst
  have hcand : ∀ c ∈ S.toArray st.compared, IsCandidate partConstr.vars c := by
    intro c hc
    apply hfinds.scans.cand c ((hS.toArray _).mem_iff.mp hc) List.not_mem_nil
  have hcands : ∀ c ∈ S.toArray st.compared, c.sort = some .int ∧ c.calls = [] :=
    fun c hc => ⟨(hcand c hc).sort, (hcand c hc).calls⟩
  have hcache : st.callCache = args ∨ partConstr.calls = [] ∧ st.compared = [] ∧
      st.callCache = r.requestUsedArgs.map .var := by
    by_cases hnil : partConstr.calls = []
    · rw [normalizeExpr_free hS hnil hnormed] at hst
      rw [scanExpr_free hnil hst]
      apply Or.inr ⟨hnil, rfl, rfl⟩
    · apply Or.inl (hfinds.cache hnil)
  have hcalls : ∀ c ∈ partConstr.calls, c = (r.rdcdFunc, st.callCache) := by
    rcases hcache with heq | ⟨hnil, -⟩
    · rw [heq]
      apply hreg.calls
    · rw [hnil]
      exact nofun
  have hsite := sort_constructITE st.callCache hS hrange hs hcands
  have hbody := fun M => (hS.simplify.preserves _).intVal hsite M
  constructor
  · apply (hS.simplify.preserves _ _ hsite).1
  · apply hS.simplify.calls (calls_constructITE hS hcalls hcands)
  · intro M M' hM
    rw [hbody, hbody]
    exact constructITE_congr hS hrange hcalls hs hcand (fun _ h => h) hM
  · rcases hcache with heq | ⟨-, hnil, heq⟩
    · apply Or.inl heq
    · right
      use heq
      have harray : S.toArray st.compared = [] := by
        rw [hnil]
        apply (hS.toArray []).eq_nil
      intro M
      rw [hbody, harray]
      rfl
  · intro M v hv
    -- the values of the candidates are boundary values of the constraint
    have hpos := hfinds.positive {t | ∃ c ∈ st.compared, c.intVal M = t} M
      fun c hc => ⟨c, hc, rfl⟩
    have hfinite : {t | ∃ c ∈ st.compared, c.intVal M = t}.Finite :=
      (st.compared.finite_toSet.image (Expr.intVal M)).subset fun t ⟨c, hc, ht⟩ => ⟨c, hc, ht⟩
    obtain ⟨t, ht, hholds⟩ := hpos.exists_mem_insert hfinite 0 hv
    rw [hbody]
    rcases ht with rfl | ⟨c, hc, rfl⟩
    · apply holds_constructITE hS hrange hcalls hs hcands (Or.inr rfl) hholds
    · have hmem := (hS.toArray _).mem_iff.mpr hc
      apply holds_constructITE hS hrange hcalls hs hcands (Or.inl hmem) hholds

end GetDef

end Sygus.SSI
