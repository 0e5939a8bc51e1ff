import DryadSynth.SSI.Commutative
import DryadSynth.Library.LIA.Every

/-!
# Where the candidates are sufficient

The constraint on one function is a combination of linear comparisons in which the call has the
coefficient one or minus one.  It is simplified before the comparisons are scanned for candidates,
and the scan does not look at negations.  When the simplified constraint is upright, with no
negation above a comparison with the call, one of the candidates satisfies it wherever some value
does.
-/

namespace Sygus.SSI

open LIA Boundary Lists Reduce

/-! ### Linear comparisons -/

section Linear

variable (f : FuncDecl) (args : List Expr)

/-- The linear terms over numerals, variables and the call. -/
inductive Linear : Expr → Prop
  | num (n : ℤ) : Linear (.num n)
  | var {x : Var} : x.sort = .int → Linear (.var x)
  | call : Linear (.func f args)
  | add {l : List Expr} : (∀ e ∈ l, Linear e) → Linear (.add l)
  | sub {l : List Expr} : (∀ e ∈ l, Linear e) → Linear (.sub l)
  | mul (n : ℤ) {e : Expr} : Linear e → Linear (.mul [.num n, e])
  | mulNum (n : ℤ) {e : Expr} : Linear e → Linear (.mul [e, .num n])

/-- The call has the coefficient one or minus one in the difference of the two terms. -/
def HasUnit (a b : Expr) : Prop :=
  ∃ c : ℤ, (c = 1 ∨ c = -1) ∧ ∀ (M : Model) (v : ℤ),
    a.intVal (M.const fun _ => v) - b.intVal (M.const fun _ => v)
      = c * v + (a.intVal (M.const fun _ => 0) - b.intVal (M.const fun _ => 0))

/-- The formulas built with the connectives `ops` from linear comparisons in which the call has the
coefficient one or minus one or does not occur. -/
inductive Combination (ops : List Op) : Expr → Prop
  | comparison {o : Op} {a b : Expr} : isComparison o → Linear f args a → Linear f args b →
      (Expr.app o [a, b]).calls = [] ∨ HasUnit a b → Combination ops (.app o [a, b])
  | connective {o : Op} {l : List Expr} : o ∈ ops → (∀ e ∈ l, Combination ops e) →
      Combination ops (.app o l)

end Linear

/-- The connectives of simplified formulas. -/
def simplifiedOps : List Op := [.and, .or, .not, .tru, .fls]

mutual

/-- The comparisons of a formula. -/
def atoms : Expr → List Expr
  | .num _ => []
  | .var _ => []
  | .app o l => if isComparison o then [.app o l] else atomsAll l

def atomsAll : List Expr → List Expr
  | [] => []
  | e :: l => atoms e ++ atomsAll l

end

/-! ### The solver on linear terms -/

/-- Comparisons have two arguments, and products at least two, as in all terms of the solver. -/
def WellShaped (e : Expr) : Prop :=
  e.every fun o l => (isComparison o → l.length = 2) ∧ (o = .mul → 2 ≤ l.length)

/-- With `arith_lhs` all monomials are on the left-hand side of a comparison, among them the call or
the call times minus one, and a numeral on the right-hand side. -/
def LhsForm (f : FuncDecl) (args : List Expr) (l : List Expr) : Prop :=
  ∃ left n l₁ m l₂, l = [left, .num n] ∧ summands left = l₁ ++ m :: l₂
    ∧ (∀ t ∈ l₁ ++ l₂, t.calls = [] ∧ WellShaped t)
    ∧ (m = .func f args ∨ m = .mul [.num (-1), .func f args])

/-- What the solver is known to do with linear terms. -/
structure Simplifier.Documented (S : Simplifier) (f : FuncDecl) (args : List Expr) : Prop where
  simplify_shape {e : Expr} : WellShaped e → WellShaped (S.simplify e)
  arithLhs_shape {e : Expr} : WellShaped e → WellShaped (S.arithLhs e)
  neg_call : S.simplify (.mul [.num (-1), .func f args]) = .mul [.num (-1), .func f args]
  neg_neg_call :
    S.simplify (.mul [.num (-1), .mul [.num (-1), .func f args]]) = .func f args
  arithLhs_call {o o' : Op} {a b : Expr} {l : List Expr} : isComparison o → Linear f args a →
    Linear f args b → HasUnit a b → S.arithLhs (.app o [a, b]) = .app o' l → isComparison o' →
      LhsForm f args l

/-! ### The condition -/

/-- There is no negation above a comparison with a call. -/
inductive Upright : Expr → Prop
  | free {e : Expr} : e.calls = [] → Upright e
  | comparison {o : Op} {l : List Expr} : isComparison o → Upright (.app o l)
  | and {l : List Expr} : (∀ e ∈ l, Upright e) → Upright (.and l)
  | or {l : List Expr} : (∀ e ∈ l, Upright e) → Upright (.or l)

/-- With `arith_lhs` the comparison is a comparison again, and not a negation. -/
def KeepsComparison (S : Simplifier) (e : Expr) : Prop :=
  ∃ o l, S.arithLhs e = .app o l ∧ isComparison o = true

/-- The candidates of the constraint are sufficient. -/
structure Suitable (S : Simplifier) (partConstr : Expr) : Prop where
  upright : Upright partConstr
  keeps : ∀ e ∈ atoms partConstr, KeepsComparison S e
  called : partConstr.calls ≠ []

/-- The run for the function ends with a result, and wherever some value of the call satisfies the
partial constraint, so does a candidate and so does the result.  The value of the call is the value
of all calls in a model. -/
def Sufficient (S : Simplifier) (P : Problem) (r : Request) (pushed : Expr) : Prop :=
  ∃ partConstr normed st body,
    reduceConstr S P r.func.name [] pushed = some partConstr
    ∧ normalizeExpr S P.rdcdRequests partConstr = some normed
    ∧ scanExpr S P.rdcdRequests normed ⟨[], r.requestUsedArgs.map .var⟩ = some st
    ∧ getDef S P r [] pushed = some (body, st.callCache)
    ∧ ∀ (M : Model) (v : ℤ), partConstr.Holds (M.const fun _ => v) →
      (∃ c ∈ st.compared, partConstr.Holds (M.const fun _ => c.intVal M))
      ∧ partConstr.Holds (M.const fun _ => body.intVal M)

section Shapes

variable {f : FuncDecl} {args : List Expr} {ops : List Op} {o : Op} {e a b : Expr} {l : List Expr}

theorem wellShaped_app :
  WellShaped (.app o l)
    ↔ ((isComparison o → l.length = 2) ∧ (o = .mul → 2 ≤ l.length)) ∧ ∀ e ∈ l, WellShaped e
  := every_app

theorem Linear.wellShaped (hargs : ∀ e ∈ args, WellShaped e) (h : Linear f args e) :
  WellShaped e
  := by
  induction h with
  | num n => exact every_num n
  | var _ => exact every_var _
  | call => exact wellShaped_app.mpr ⟨⟨nofun, nofun⟩, hargs⟩
  | add _ ih => exact wellShaped_app.mpr ⟨⟨nofun, nofun⟩, ih⟩
  | sub _ ih => exact wellShaped_app.mpr ⟨⟨nofun, nofun⟩, ih⟩
  | mul n _ ih =>
      refine wellShaped_app.mpr ⟨⟨nofun, fun _ => le_rfl⟩, ?_⟩
      simpa using ⟨every_num n, ih⟩
  | mulNum n _ ih =>
      refine wellShaped_app.mpr ⟨⟨nofun, fun _ => le_rfl⟩, ?_⟩
      simpa using ⟨ih, every_num n⟩

theorem Combination.wellShaped (hargs : ∀ e ∈ args, WellShaped e)
    (hops : ∀ o ∈ ops, ¬isComparison o ∧ o ≠ .mul) (h : Combination f args ops e) :
  WellShaped e
  := by
  induction h with
  | comparison _ ha hb _ =>
      refine wellShaped_app.mpr ⟨⟨fun _ => rfl, fun _ => le_rfl⟩, ?_⟩
      simpa using ⟨ha.wellShaped hargs, hb.wellShaped hargs⟩
  | connective ho _ ih =>
      obtain ⟨hcomparison, hmul⟩ := hops _ ho
      exact wellShaped_app.mpr ⟨⟨fun h => absurd h hcomparison, fun h => absurd h hmul⟩, ih⟩

theorem simplifiedOps_spec :
  ∀ o ∈ simplifiedOps, ¬isComparison o ∧ o ≠ .mul
  := by decide

theorem Linear.calls (hargs : ∀ e ∈ args, e.calls = []) (h : Linear f args e) :
  ∀ c ∈ e.calls, c = (f, args)
  := by
  have happ : ∀ {o : Op} {l : List Expr}, (∀ g, o ≠ .func g) →
      (∀ e ∈ l, ∀ c ∈ e.calls, c = (f, args)) → ∀ c ∈ (Expr.app o l).calls, c = (f, args) := by
    intro o l ho hl c hc
    rcases mem_calls_app.mp hc with ⟨g, hg, -⟩ | ⟨e, he, hc⟩
    · apply absurd hg (ho g)
    · apply hl e he c hc
  induction h with
  | num n => exact nofun
  | var _ => exact nofun
  | call =>
      intro c hc
      rcases mem_calls_app.mp hc with ⟨g, hg, rfl⟩ | ⟨e, he, hc⟩
      · rw [Op.func.inj hg]
      · rw [hargs e he] at hc
        cases hc
  | add _ ih => exact happ nofun ih
  | sub _ ih => exact happ nofun ih
  | mul n _ ih | mulNum n _ ih =>
      refine happ nofun ?_
      simpa using ih

theorem atomsAll_eq (l : List Expr) :
  atomsAll l = l.flatMap atoms
  := by
  induction l with
  | nil => rfl
  | cons e l ih => rw [atomsAll, ih, List.flatMap_cons]

theorem atoms_of_isComparison (ho : isComparison o = true) :
  atoms (.app o l) = [.app o l]
  := by rw [atoms, if_pos ho]

theorem mem_atoms (ho : ¬isComparison o) (he : e ∈ l) (ha : a ∈ atoms e) :
  a ∈ atoms (.app o l)
  := by
  rw [atoms, if_neg ho, atomsAll_eq]
  apply List.mem_flatMap.mpr ⟨e, he, ha⟩

end Shapes

/-! ### Nothing fails -/

section Total

variable {S : Simplifier} {fs : List FuncDecl} {f : FuncDecl} {args : List Expr} {o : Op}
  {e e' : Expr} {l : List Expr} {st : ScanState}

theorem exists_foldlM {g : ScanState → Expr → Option ScanState}
    (h : ∀ e ∈ l, ∀ st, ∃ st', g st e = some st') (st : ScanState) :
  ∃ st', l.foldlM g st = some st'
  := by
  induction l generalizing st with
  | nil => exact ⟨st, rfl⟩
  | cons e l ih =>
      obtain ⟨st₁, h₁⟩ := h e List.mem_cons_self st
      obtain ⟨st₂, h₂⟩ := ih (fun e he => h e (List.mem_cons_of_mem _ he)) st₁
      exact ⟨st₂, by rw [List.foldlM_cons, h₁, Option.bind_eq_bind, Option.bind_some, h₂]⟩

theorem scanAtom_of_free (hcalls : ∀ e ∈ l, e.calls = []) (hlength : l.length = 2)
    (hshape : ∀ e ∈ l, WellShaped e) (st : ScanState) :
  scanAtom S fs o l st = some st
  := by
  obtain ⟨left, right, rfl⟩ := List.length_eq_two.mp hlength
  have hright : right.calls = [] := hcalls right (by simp)
  have hfree : isFunc fs right = false := isFunc_of_calls_eq_nil hright
  rw [scanAtom.eq_def]
  simp only [hfree, Bool.false_eq_true, if_false]
  split
  · next coeff inner rest =>
      have hinner : inner.calls = [] := calls_getArgs hright inner (by simp [getArgs])
      rw [isFunc_of_calls_eq_nil hinner]
      simp
  · next margs hmargs =>
      have hm := (wellShaped_app.mp (hshape (.mul margs) (by simp))).1.2 rfl
      cases margs with
      | nil => simp at hm
      | cons coeff margs =>
          cases margs with
          | nil => simp at hm
          | cons inner margs => exact absurd rfl (hmargs coeff inner margs)
  · rfl

/-- Scanning a term without calls does not fail. -/
theorem exists_scanExpr_free (hcalls : e.calls = []) (hshape : WellShaped e) (st : ScanState) :
  ∃ st', scanExpr S fs e st = some st'
  := by
  induction e generalizing st with
  | num n => exact ⟨st, rfl⟩
  | var x => exact ⟨st, rfl⟩
  | app o l ih =>
      have hl : ∀ e ∈ l, e.calls = [] := calls_getArgs hcalls
      obtain ⟨⟨hcomparison, -⟩, hshapes⟩ := wellShaped_app.mp hshape
      by_cases hne : l = []
      · subst hne
        exact ⟨st, rfl⟩
      · rw [scanExpr_app hne]
        have hfold := fun st => exists_foldlM (fun e he => ih e he (hl e he) (hshapes e he)) st
        split
        · next ho =>
            rw [scanAtom_of_free hl (hcomparison ho) hshapes st]
            apply hfold st
        · apply hfold st

theorem splitTerms_free (h : ∀ t ∈ l, t.calls = [] ∧ WellShaped t)
    (terms : Option Expr × List Expr) :
  l.foldlM (splitStep fs) terms = some (terms.1, terms.2 ++ l)
  := by
  induction l generalizing terms with
  | nil => simp
  | cons t l ih =>
      rw [List.forall_mem_cons] at h
      obtain ⟨⟨hcalls, hshape⟩, hl⟩ := h
      have hterm : isFuncTerm fs t = some false := by
        rw [isFuncTerm.eq_def]
        split
        · next inner rest =>
            rw [isFunc_of_calls_eq_nil (calls_getArgs hcalls inner (by simp [getArgs]))]
        · next margs hmargs =>
            have hm := (wellShaped_app.mp hshape).1.2 rfl
            cases margs with
            | nil => simp at hm
            | cons coeff margs =>
                cases margs with
                | nil => simp at hm
                | cons inner margs => exact absurd rfl (hmargs coeff inner margs)
        · rw [isFunc_of_calls_eq_nil hcalls]
      rw [List.foldlM_cons, splitStep, hterm]
      simp only [Option.bind_eq_bind, Option.bind_some]
      rw [ih hl, List.append_assoc, List.singleton_append]

/-- Nothing is moved in a comparison without calls. -/
theorem normalizeAtom_of_free (hS : S.Correct) (hD : S.Documented f args)
    (hcalls : e.calls = []) (hshape : WellShaped e) (hkeeps : KeepsComparison S e) :
  normalizeAtom S fs e = some e
  := by
  obtain ⟨o, l, harith, ho⟩ := hkeeps
  have hshape' := hD.arithLhs_shape hshape
  have hcalls' := hS.arithLhs.calls hcalls
  rw [harith] at hshape' hcalls'
  obtain ⟨⟨hlength, -⟩, hshapes⟩ := wellShaped_app.mp hshape'
  obtain ⟨left, right, rfl⟩ := List.length_eq_two.mp (hlength ho)
  have hleft : left.calls = [] := calls_getArgs hcalls' left (by simp [getArgs])
  have hterms : ∀ t ∈ summands left, t.calls = [] ∧ WellShaped t := by
    intro t ht
    rw [summands.eq_def] at ht
    split at ht
    · next l =>
        exact ⟨calls_getArgs hleft t ht, (wellShaped_app.mp (hshapes (.add l) (by simp))).2 t ht⟩
    · rw [List.mem_singleton.mp ht]
      exact ⟨hleft, hshapes left (by simp)⟩
  rw [normalizeAtom, harith]
  simp only [splitTerms, splitTerms_free hterms]

/-- The call is moved to the right-hand side of a comparison. -/
theorem normalizeAtom_of_lhsForm (hS : S.Correct) (hD : S.Documented f args) (hf : f ∈ fs)
    (harith : S.arithLhs e = .app o l) (hform : LhsForm f args l) :
  ∃ left right, normalizeAtom S fs e = some (.app o [left, right]) ∧ left.calls = []
    ∧ WellShaped left ∧ (right = .func f args ∨ right = .mul [.num (-1), .func f args])
  := by
  obtain ⟨left, n, l₁, m, l₂, rfl, hsum, hfree, hm⟩ := hform
  have hcall : isFunc fs (.func f args) = true := isFunc_iff.mpr ⟨f, hf, args, rfl⟩
  have hterm : isFuncTerm fs m = some true := by
    rcases hm with rfl | rfl
    · rw [isFuncTerm, hcall]
      · simp
      · simp
    · rw [isFuncTerm, hcall]
  have hsplit : splitTerms fs (summands left) = some (some m, l₁ ++ l₂) := by
    rw [splitTerms, hsum, List.foldlM_append,
      splitTerms_free fun t ht => hfree t (List.mem_append_left _ ht)]
    simp only [List.foldlM_cons, Option.bind_eq_bind, Option.bind_some, splitStep, hterm]
    rw [splitTerms_free fun t ht => hfree t (List.mem_append_right _ ht)]
    simp
  have hnum : (Expr.mul [.num (-1), .num n]).calls = [] ∧ WellShaped (.mul [.num (-1), .num n]) :=
    ⟨rfl, wellShaped_app.mpr ⟨⟨by simp, fun _ => le_rfl⟩, by simp [WellShaped]⟩⟩
  have hrest : ∀ t ∈ l₁ ++ l₂ ++ [.mul [.num (-1), .num n]], t.calls = [] ∧ WellShaped t := by
    intro t ht
    rcases List.mem_append.mp ht with ht | ht
    · apply hfree t ht
    · exact List.mem_singleton.mp ht ▸ hnum
  have hadd : ∀ g, Op.add ≠ .func g := by simp
  refine ⟨S.simplify (.add (l₁ ++ l₂ ++ [.mul [.num (-1), .num n]])),
    S.simplify (.mul [.num (-1), m]), ?_, ?_, ?_, ?_⟩
  · rw [normalizeAtom, harith]
    simp only [hsplit, if_pos]
  · exact hS.simplify.calls ((calls_app_eq_nil hadd).mpr fun t ht => (hrest t ht).1)
  · apply hD.simplify_shape
    apply wellShaped_app.mpr
    refine ⟨⟨fun h => Bool.noConfusion h, fun h => Op.noConfusion h⟩, fun t ht => (hrest t ht).2⟩
  · rcases hm with rfl | rfl
    · apply Or.inr hD.neg_call
    · apply Or.inl hD.neg_neg_call

/-- Scanning a normalized comparison finds its candidate. -/
theorem exists_scanExpr_comparison {left right : Expr} (hf : f ∈ fs)
    (hargs : ∀ e ∈ args, e.calls = [] ∧ WellShaped e) (ho : isComparison o)
    (hleft : left.calls = []) (hshape : WellShaped left)
    (hright : right = .func f args ∨ right = .mul [.num (-1), .func f args]) (st : ScanState) :
  ∃ st', scanExpr S fs (.app o [left, right]) st = some st'
  := by
  have hcall : isFunc fs (.func f args) = true := isFunc_iff.mpr ⟨f, hf, args, rfl⟩
  have hscanCall : ∀ st, ∃ st', scanExpr S fs (.func f args) st = some st' := by
    intro st
    by_cases hne : args = []
    · subst hne
      exact ⟨st, rfl⟩
    · rw [scanExpr_app hne]
      exact exists_foldlM (fun e he => exists_scanExpr_free (hargs e he).1 (hargs e he).2) st
  have hscanRight : ∀ st, ∃ st', scanExpr S fs right st = some st' := by
    rcases hright with rfl | rfl
    · apply hscanCall
    · intro st
      rw [scanExpr_app (by simp)]
      refine exists_foldlM (fun e he st => ?_) st
      rcases List.mem_cons.mp he with rfl | he
      · exact ⟨st, rfl⟩
      · rw [List.mem_singleton.mp he]
        apply hscanCall st
  have hatom : ∃ st₁, scanAtom S fs o [left, right] st = some st₁ := by
    rcases hright with rfl | rfl
    · simp [scanAtom, hcall]
    · have hmul : isFunc fs (.mul [.num (-1), .func f args]) = false := rfl
      simp [scanAtom, hmul, hcall]
  obtain ⟨st₁, h₁⟩ := hatom
  rw [scanExpr_app (by simp), if_pos ho, h₁, Option.bind_some]
  refine exists_foldlM (fun e he st => ?_) st₁
  rcases List.mem_cons.mp he with rfl | he
  · apply exists_scanExpr_free hleft hshape st
  · rw [List.mem_singleton.mp he]
    apply hscanRight st

/-- A formula without calls is left as it is. -/
theorem normalizeExpr_of_free {ops : List Op} (hS : S.Correct) (hD : S.Documented f args)
    (hargs : ∀ e ∈ args, WellShaped e) (hops : ∀ o ∈ ops, ¬isComparison o ∧ o ≠ .mul)
    (hcomb : Combination f args ops e) (hcalls : e.calls = [])
    (hkeeps : ∀ a ∈ atoms e, KeepsComparison S a) :
  ∃ e', normalizeExpr S fs e = some e'
  := by
  induction hcomb with
  | @comparison o a b ho ha hb hunit =>
      have hcombination : Combination f args ops (.app o [a, b]) := .comparison ho ha hb hunit
      have hshape := hcombination.wellShaped hargs hops
      have hmem : Expr.app o [a, b] ∈ atoms (.app o [a, b]) := by
        rw [atoms_of_isComparison ho]
        apply List.mem_singleton_self _
      have hkeep := hkeeps _ hmem
      rw [normalizeExpr, if_pos ho]
      exact ⟨_, normalizeAtom_of_free hS hD hcalls hshape hkeep⟩
  | @connective o l ho _ ih =>
      have ho' := (hops o ho).1
      rw [normalizeExpr, if_neg ho', normalizeAll_eq]
      have hall : ∀ e ∈ l, ∃ e', normalizeExpr S fs e = some e' ∧ True := by
        intro e he
        obtain ⟨e', he'⟩ := ih e he (calls_getArgs hcalls e he)
          fun a ha => hkeeps a (mem_atoms ho' he ha)
        exact ⟨e', he', trivial⟩
      obtain ⟨l', hl', -⟩ := exists_mapM hall
      exact ⟨_, by rw [hl', Option.map_some]⟩

/-- The expression is normalized, the result is scanned, and a call in it gives a candidate. -/
structure Runs (S : Simplifier) (fs : List FuncDecl) (e e' : Expr) : Prop where
  normalize : normalizeExpr S fs e = some e'
  scan (st : ScanState) : ∃ st', scanExpr S fs e' st = some st' ∧ st.compared ⊆ st'.compared
    ∧ (e.calls ≠ [] → st'.compared ≠ [])

theorem Runs.foldlM {l' : List Expr} (h : List.Forall₂ (Runs S fs) l l') (st : ScanState) :
  ∃ st', l'.foldlM (fun st e => scanExpr S fs e st) st = some st'
    ∧ st.compared ⊆ st'.compared ∧ ((∃ e ∈ l, e.calls ≠ []) → st'.compared ≠ [])
  := by
  induction h generalizing st with
  | nil => exact ⟨st, rfl, List.Subset.refl _, by rintro ⟨e, he, -⟩; cases he⟩
  | @cons e e' l l' he _ ih =>
      obtain ⟨st₁, h₁, hsub₁, hfound₁⟩ := he.scan st
      obtain ⟨st₂, h₂, hsub₂, hfound₂⟩ := ih st₁
      refine ⟨st₂, ?_, List.Subset.trans hsub₁ hsub₂, ?_⟩
      · rw [List.foldlM_cons, h₁, Option.bind_eq_bind, Option.bind_some, h₂]
      · rintro ⟨t, ht, hcalls⟩
        rcases List.mem_cons.mp ht with rfl | ht
        · exact fun hnil => hfound₁ hcalls (List.eq_nil_of_subset_nil (hnil ▸ hsub₂))
        · apply hfound₂ ⟨t, ht, hcalls⟩

theorem Runs.app (ho : ¬isComparison o) (hfunc : ∀ g, o ≠ .func g)
    (hl : ∀ e ∈ l, ∃ e', Runs S fs e e') :
  ∃ e', Runs S fs (.app o l) e'
  := by
  obtain ⟨l', hl', hruns⟩ := exists_mapM (f := normalizeExpr S fs) (R := Runs S fs) fun e he => by
    obtain ⟨e', he'⟩ := hl e he
    exact ⟨e', he'.normalize, he'⟩
  refine ⟨.app o l', ⟨?_, fun st => ?_⟩⟩
  · rw [normalizeExpr, if_neg ho, normalizeAll_eq, hl', Option.map_some]
  · obtain ⟨st', hst', hsub, hfound⟩ := Runs.foldlM hruns st
    refine ⟨st', ?_, hsub, fun hcalls => hfound ?_⟩
    · by_cases hne : l' = []
      · subst hne
        apply hst'
      · rw [scanExpr_app hne, if_neg ho, Option.bind_some, hst']
    · by_contra hnone
      push Not at hnone
      apply hcalls ((calls_app_eq_nil hfunc).mpr hnone)

/-- A formula without calls gives no candidate. -/
theorem Runs.free (hS : S.Correct) (hD : S.Documented f args) (hargs : ∀ e ∈ args, WellShaped e)
    (hcomb : Combination f args simplifiedOps e) (hcalls : e.calls = [])
    (hkeeps : ∀ a ∈ atoms e, KeepsComparison S a) :
  Runs S fs e e
  := by
  obtain ⟨e', he'⟩ : ∃ e', normalizeExpr S fs e = some e' :=
    normalizeExpr_of_free hS hD hargs simplifiedOps_spec hcomb hcalls hkeeps
  have heq := normalizeExpr_free hS hcalls he'
  refine ⟨heq ▸ he', fun st => ?_⟩
  obtain ⟨st', hst'⟩ : ∃ st', scanExpr S fs e st = some st' :=
    exists_scanExpr_free hcalls (hcomb.wellShaped hargs simplifiedOps_spec) st
  have hst := scanExpr_free hcalls hst'
  exact ⟨st', hst', hst ▸ List.Subset.refl _, fun hne => absurd hcalls hne⟩

theorem Combination.of_comparison (h : Combination f args simplifiedOps (.app o l))
    (ho : isComparison o) :
  ∃ a b, l = [a, b] ∧ Linear f args a ∧ Linear f args b
    ∧ ((Expr.app o l).calls = [] ∨ HasUnit a b)
  := by
  cases h with
  | comparison _ ha hb hunit => exact ⟨_, _, rfl, ha, hb, hunit⟩
  | connective hops _ => exact absurd ho (simplifiedOps_spec o hops).1

theorem Combination.of_connective (h : Combination f args simplifiedOps (.app o l))
    (ho : ¬isComparison o) :
  ∀ e ∈ l, Combination f args simplifiedOps e
  := by
  cases h with
  | comparison ho' _ _ _ => exact absurd ho' ho
  | connective _ h => exact h

/-- A comparison with the call, normalized. -/
theorem exists_normalizeAtom (hS : S.Correct) (hD : S.Documented f args) (hf : f ∈ fs)
    {a b : Expr} (ho : isComparison o) (ha : Linear f args a) (hb : Linear f args b)
    (hunit : HasUnit a b) (hkeeps : KeepsComparison S (.app o [a, b])) :
  ∃ o' left right, isComparison o' ∧
    normalizeAtom S fs (.app o [a, b]) = some (.app o' [left, right])
    ∧ left.calls = [] ∧ WellShaped left
    ∧ (right = .func f args ∨ right = .mul [.num (-1), .func f args])
  := by
  obtain ⟨o', l', harith, ho'⟩ := hkeeps
  have hform := hD.arithLhs_call ho ha hb hunit harith ho'
  obtain ⟨left, right, hatom, hleft, hshape, hright⟩ :=
    normalizeAtom_of_lhsForm hS hD hf harith hform
  exact ⟨o', left, right, ho', hatom, hleft, hshape, hright⟩

theorem Upright.runs (hS : S.Correct) (hD : S.Documented f args) (hf : f ∈ fs)
    (hargs : ∀ e ∈ args, e.calls = [] ∧ WellShaped e)
    (hcomb : Combination f args simplifiedOps e) (h : Upright e)
    (hkeeps : ∀ a ∈ atoms e, KeepsComparison S a) :
  ∃ e', Runs S fs e e'
  := by
  have hargs' : ∀ e ∈ args, WellShaped e := fun e he => (hargs e he).2
  induction h with
  | free hcalls => exact ⟨_, .free hS hD hargs' hcomb hcalls hkeeps⟩
  | @comparison o l ho =>
      obtain ⟨a, b, rfl, ha, hb, hcalls | hunit⟩ := hcomb.of_comparison ho
      · exact ⟨_, .free hS hD hargs' hcomb hcalls hkeeps⟩
      · have hmem : Expr.app o [a, b] ∈ atoms (.app o [a, b]) := by
          rw [atoms_of_isComparison ho]
          apply List.mem_singleton_self _
        have hkeep := hkeeps _ hmem
        obtain ⟨o', left, right, ho', hatom, hleft, hshape, hright⟩ :=
          exists_normalizeAtom hS hD hf ho ha hb hunit hkeep
        refine ⟨.app o' [left, right], ⟨by rw [normalizeExpr, if_pos ho, hatom], fun st => ?_⟩⟩
        obtain ⟨st', hst'⟩ := exists_scanExpr_comparison (S := S) hf hargs ho' hleft hshape hright
          st
        have hst := scanExpr_comparison hf (fun e he => (hargs e he).1) ho' hleft hright hst'
        refine ⟨st', hst', ?_, fun _ => ?_⟩
        · rw [hst]
          exact fun c hc => List.mem_insert_of_mem hc
        · rw [hst]
          apply List.ne_nil_of_mem List.mem_insert_self
  | @and l _ ih =>
      have ho : ¬isComparison .and := Bool.false_ne_true
      have hfunc : ∀ g, Op.and ≠ .func g := fun g h => Op.noConfusion h
      exact Runs.app ho hfunc fun e he => ih e he (hcomb.of_connective ho e he)
        fun a ha => hkeeps a (mem_atoms ho he ha)
  | @or l _ ih =>
      have ho : ¬isComparison .or := Bool.false_ne_true
      have hfunc : ∀ g, Op.or ≠ .func g := fun g h => Op.noConfusion h
      exact Runs.app ho hfunc fun e he => ih e he (hcomb.of_connective ho e he)
        fun a ha => hkeeps a (mem_atoms ho he ha)

theorem Upright.regular (hS : S.Correct) (hD : S.Documented f args) (hf : f ∈ fs)
    (hargs : ∀ e ∈ args, e.calls = []) (hcomb : Combination f args simplifiedOps e)
    (h : Upright e) (hkeeps : ∀ a ∈ atoms e, KeepsComparison S a) :
  Regular S fs f args e
  := by
  induction h with
  | free hcalls => exact .free hcalls
  | @comparison o l ho =>
      obtain ⟨a, b, rfl, ha, hb, hcalls | hunit⟩ := hcomb.of_comparison ho
      · exact .free hcalls
      · have hmem : Expr.app o [a, b] ∈ atoms (.app o [a, b]) := by
          rw [atoms_of_isComparison ho]
          apply List.mem_singleton_self _
        have hkeep := hkeeps _ hmem
        obtain ⟨o', left, right, ho', hatom, hleft, -, hright⟩ :=
          exists_normalizeAtom hS hD hf ho ha hb hunit hkeep
        refine .comparison ho ho' (fun c hc => ?_) hatom hleft hright
        rcases mem_calls_app.mp hc with ⟨g, rfl, -⟩ | ⟨e, he, hce⟩
        · cases ho
        · rcases List.mem_cons.mp he with rfl | he
          · apply ha.calls hargs c hce
          · exact hb.calls hargs c (List.mem_singleton.mp he ▸ hce)
  | @and l _ ih =>
      have ho : ¬isComparison .and := Bool.false_ne_true
      exact .and fun e he => ih e he (hcomb.of_connective ho e he)
        fun a ha => hkeeps a (mem_atoms ho he ha)
  | @or l _ ih =>
      have ho : ¬isComparison .or := Bool.false_ne_true
      exact .or fun e he => ih e he (hcomb.of_connective ho e he)
        fun a ha => hkeeps a (mem_atoms ho he ha)

end Total

/-! ### Sufficiency -/

section Sufficiency

variable {S : Simplifier} {P : Problem} {r : Request} {args : List Expr} {pushed : Expr}

/-- With one function, nothing is taken from the constraint. -/
theorem exists_killNonCurrent {f : FuncDecl} {name : String} {e : Expr}
    (h : Combination f args [.and, .or] e) :
  ∃ k, killNonCurrent [name] name e = some k
  := by
  induction h with
  | @comparison o a b ho _ _ _ =>
      have hkill : killNonCurrent [name] name (.app o [a, b]) = some (.app o [a, b]) := by
        cases o with
        | ge | gt | le | lt | eq => simp [killNonCurrent, isComparison, hasNonCurrent_self]
        | _ => cases ho
      exact ⟨_, hkill⟩
  | @connective o l ho _ ih =>
      obtain ⟨l', hl', -⟩ := exists_mapM (f := killNonCurrent [name] name) (R := fun _ _ => True)
        fun e he => by
          obtain ⟨k, hk⟩ := ih e he
          exact ⟨k, hk, trivial⟩
      rcases List.mem_cons.mp ho with rfl | ho
      · exact ⟨.and l', by rw [killNonCurrent, killAll_eq, hl', Option.map_some]⟩
      · rw [List.mem_singleton] at ho
        subst ho
        exact ⟨.or l', by rw [killNonCurrent, killAll_eq, hl', Option.map_some]⟩

theorem reduceConstr_of_single (hP : P.requests = [r])
    (hpushed : Combination r.rdcdFunc args [.and, .or] pushed) :
  reduceConstr S P r.func.name [] pushed = some (S.simplify pushed)
  := by
  have hnames : P.names = [r.func.name] := by
    rw [Problem.names, hP, List.map_singleton]
  obtain ⟨k, hk⟩ : ∃ k, killNonCurrent [r.func.name] r.func.name pushed = some k :=
    exists_killNonCurrent hpushed
  have hk' := killNonCurrent_self hk
  subst hk'
  rw [reduceConstr, rewriteResults, List.foldl_nil, hnames, hk, Option.map_some]

/-- One function, called with the same arguments, in a combination of linear comparisons with the
coefficients one and minus one: when the simplified constraint is suitable, the candidates are
sufficient. -/
theorem getDef_sufficient (hS : S.Correct) (hD : S.Documented r.rdcdFunc args)
    (hP : P.requests = [r]) (hrange : r.func.range = .int)
    (hargs : ∀ e ∈ args, e.calls = [] ∧ WellShaped e)
    (hdomain : args.map Expr.sort = r.rdcdFunc.domain.map some)
    (hpushed : Combination r.rdcdFunc args [.and, .or] pushed) (hs : pushed.sort = some .bool)
    (hsimplified : Combination r.rdcdFunc args simplifiedOps (S.simplify pushed))
    (hsuitable : Suitable S (S.simplify pushed)) :
  Sufficient S P r pushed
  := by
  have hfuncs : P.rdcdRequests = [r.rdcdFunc] := by
    rw [Problem.rdcdRequests, hP, List.map_singleton]
  have hf : r.rdcdFunc ∈ P.rdcdRequests := by
    rw [hfuncs]
    apply List.mem_singleton_self _
  have hfs : ∀ f ∈ P.rdcdRequests, f.range = .int := by
    intro f hf
    rw [hfuncs, List.mem_singleton] at hf
    exact hf ▸ hrange
  have hcalls : ∀ e ∈ args, e.calls = [] := fun e he => (hargs e he).1
  have hsort := (hS.simplify.preserves pushed _ hs).1
  have hconstr := reduceConstr_of_single (S := S) hP hpushed
  obtain ⟨normed, hruns⟩ := hsuitable.upright.runs hS hD hf hargs hsimplified hsuitable.keeps
  obtain ⟨st, hscan, -, hfound⟩ := hruns.scan ⟨[], r.requestUsedArgs.map .var⟩
  have hreg := hsuitable.upright.regular hS hD hf hcalls hsimplified hsuitable.keeps
  have hget : getDef S P r [] pushed
      = some (S.simplify (constructITE S (S.simplify pushed) (.func r.rdcdFunc st.callCache)
          (S.toArray st.compared)), st.callCache) := by
    simp only [getDef, hconstr, hruns.normalize, hscan, Option.bind_eq_bind, Option.bind_some]
    rfl
  have hgets := getDef_getsDef hS hfs (hP ▸ List.mem_singleton_self r) hcalls hdomain hconstr hreg
    hsort hget
  have hfinds := hreg.finds hS hfs hf hcalls hdomain hsort (fun _ h => h) hruns.normalize hscan
  refine ⟨_, normed, st, _, hconstr, hruns.normalize, hscan, hget, fun M v hv => ⟨?_, ?_⟩⟩
  · -- one of the boundary values is on the same sides of all of them as the given value
    have hpos := hfinds.positive {t | ∃ c ∈ st.compared, c.intVal M = t} M
      fun c hc => ⟨c, hc, rfl⟩
    have hfinite : {t | ∃ c ∈ st.compared, c.intVal M = t}.Finite := by
      apply (st.compared.finite_toSet.image (Expr.intVal M)).subset
      rintro t ⟨c, hc, ht⟩
      exact ⟨c, hc, ht⟩
    obtain ⟨c, hc⟩ := List.exists_mem_of_ne_nil _ (hfound hsuitable.called)
    obtain ⟨t, ⟨c, hc, rfl⟩, hwithin⟩ := exists_within hfinite ⟨c.intVal M, c, hc, rfl⟩ v
    exact ⟨c, hc, hpos v _ hwithin hv⟩
  · apply hgets.holds M v hv

end Sufficiency

section Examples

/-- A strict comparison becomes a negation, and two signs cancel. -/
def strictToNot : Expr → Expr
  | .gt a b => .not (.le a b)
  | .mul [.num m, .mul [.num n, e]] =>
      if m = -1 ∧ n = -1 then e else .mul [.num m, .mul [.num n, e]]
  | e => e

/-- A variable on the right-hand side of a comparison with the call is moved to the left; other
comparisons are not normalized. -/
def moveToLhs (call : Expr) : Expr → Expr
  | .app o [a, .var y] =>
      if isComparison o then
        if a = call then .app o [.add [a, .mul [.num (-1), .var y]], .num 0]
        else .and [.app o [a, .var y]]
      else .app o [a, .var y]
  | .app o l => if isComparison o then .and [.app o l] else .app o l
  | e => e

def strictSimplifier (call : Expr) : Simplifier := ⟨strictToNot, moveToLhs call, id, id⟩

theorem simplifies_strictToNot :
  Simplifies strictToNot
  := by
  have hgt : ∀ g, Op.gt ≠ .func g := nofun
  have hle : ∀ g, Op.le ≠ .func g := nofun
  have hnot : ∀ g, Op.not ≠ .func g := nofun
  have hmul : ∀ g, Op.mul ≠ .func g := nofun
  constructor
  · intro e
    fun_cases strictToNot e with
    | case1 a b =>
        refine Preserves.of_holds fun s hs => ?_
        rw [sort_gt] at hs
        refine ⟨hs.1, ?_, fun M => ?_⟩
        · rw [sort_not, sort_le]
          exact ⟨rfl, rfl, hs.2⟩
        · rw [holds_not, holds_le, holds_gt, not_le]
    | case2 m n e h =>
        obtain ⟨rfl, rfl⟩ := h
        intro s hs
        have hsort : s = .int ∧ e.sort = some .int := by simpa using hs
        obtain ⟨rfl, he⟩ := hsort
        refine ⟨he, fun M => ?_⟩
        rw [eval_of_int he, eval_of_int hs]
        simp
    | case3 m n e h => exact Preserves.refl _
    | case4 e h => exact Preserves.refl _
  · intro e h
    fun_cases strictToNot e with
    | case1 a b =>
        rw [calls_app_eq_nil hgt] at h
        rw [calls_app_eq_nil hnot]
        simpa [calls_app_eq_nil hle] using h
    | case2 m n e _ =>
        rw [calls_app_eq_nil hmul] at h
        have hinner := h (.mul [.num n, e]) (by simp)
        rw [calls_app_eq_nil hmul] at hinner
        apply hinner e (by simp)
    | case3 m n e _ => exact h
    | case4 e _ => exact h

theorem preserves_move {o : Op} {a : Expr} {y : Var} (ho : isComparison o)
    (ha : a.sort = some .int) :
  Preserves (.app o [a, .var y]) (.app o [.add [a, .mul [.num (-1), .var y]], .num 0])
  := by
  refine Preserves.of_holds fun s hs => ?_
  obtain rfl := bool_of_isComparison ho hs
  obtain ⟨t, ht, hy⟩ := sort_comparison ho hs
  obtain rfl := Option.some.inj (ha.symm.trans ht)
  have hadd : (Expr.add [a, .mul [.num (-1), .var y]]).sort = some .int := by
    simp [ha, hy]
  refine ⟨rfl, ?_, fun M => ?_⟩
  · cases o with
    | ge | gt | le | lt | eq => simpa using hadd
    | _ => cases ho
  · rw [holds_comparison ho hadd (sort_num 0), holds_comparison ho ha hy]
    simp only [intVal_add, intVal_mul, List.map_cons, List.map_nil, List.sum_cons, List.sum_nil,
      List.prod_cons, List.prod_nil, intVal_num]
    cases o with
    | ge | gt | le | lt | eq =>
        simp only [Compares]
        omega
    | _ => cases ho

theorem simplifies_moveToLhs {call : Expr} (hcall : call.sort = some .int) :
  Simplifies (moveToLhs call)
  := by
  have hand : ∀ g, Op.and ≠ .func g := nofun
  have hadd : ∀ g, Op.add ≠ .func g := nofun
  have hmul : ∀ g, Op.mul ≠ .func g := nofun
  constructor
  · intro e
    fun_cases moveToLhs call e with
    | case1 o y ho => exact preserves_move ho hcall
    | case2 o a y ho h => exact preserves_and_singleton ho
    | case3 o a y h => exact Preserves.refl _
    | case4 o l h ho => exact preserves_and_singleton ho
    | case5 o l h ho => exact Preserves.refl _
    | case6 e h => exact Preserves.refl _
  · intro e h
    fun_cases moveToLhs call e with
    | case1 o y ho =>
        rw [calls_of_isComparison ho] at h ⊢
        simpa [calls_app_eq_nil hadd, calls_app_eq_nil hmul] using h
    | case2 o a y ho _ => simpa [calls_app_eq_nil hand] using h
    | case3 o a y _ => exact h
    | case4 o l _ ho => simpa [calls_app_eq_nil hand] using h
    | case5 o l _ ho => exact h
    | case6 e _ => exact h

theorem strictSimplifier_correct {call : Expr} (hcall : call.sort = some .int) :
  (strictSimplifier call).Correct
  := ⟨simplifies_strictToNot, simplifies_moveToLhs hcall, ⟨Preserves.refl, id⟩, List.Perm.refl⟩

theorem wellShaped_strictToNot {e : Expr} (h : WellShaped e) :
  WellShaped (strictToNot e)
  := by
  fun_cases strictToNot e with
  | case1 a b =>
      obtain ⟨-, hl⟩ := wellShaped_app.mp h
      refine wellShaped_app.mpr ⟨⟨nofun, nofun⟩, ?_⟩
      simpa [wellShaped_app] using hl
  | case2 m n e _ =>
      have hinner := (wellShaped_app.mp h).2 (.mul [.num n, e]) (by simp)
      apply (wellShaped_app.mp hinner).2 e (by simp)
  | case3 m n e _ => exact h
  | case4 e _ => exact h

theorem wellShaped_moveToLhs {call e : Expr} (h : WellShaped e) :
  WellShaped (moveToLhs call e)
  := by
  have hwrap : ∀ e, WellShaped e → WellShaped (.and [e]) := fun e he =>
    wellShaped_app.mpr ⟨⟨nofun, nofun⟩, by simpa using he⟩
  fun_cases moveToLhs call e with
  | case1 o y ho =>
      obtain ⟨⟨-, hmul⟩, hl⟩ := wellShaped_app.mp h
      refine wellShaped_app.mpr ⟨⟨fun _ => rfl, fun _ => le_rfl⟩, ?_⟩
      have hnum : ∀ n, WellShaped (.num n) := every_num
      have hvar : WellShaped (.var y) := every_var y
      simpa [wellShaped_app, hnum, hvar, isComparison] using hl
  | case2 o a y ho _ => exact hwrap _ h
  | case3 o a y _ => exact h
  | case4 o l _ ho => exact hwrap _ h
  | case5 o l _ ho => exact h
  | case6 e _ => exact h

theorem strictSimplifier_documented {f : FuncDecl} {args : List Expr} :
  (strictSimplifier (.func f args)).Documented f args
  where
  simplify_shape := wellShaped_strictToNot
  arithLhs_shape := wellShaped_moveToLhs
  neg_call := rfl
  neg_neg_call := rfl
  arithLhs_call := by
    intro o o' a b l ho ha hb _ harith ho'
    have hand : ∀ e, Expr.and [e] = .app o' l → isComparison o' = true → False := by
      intro e h h'
      rw [← (Expr.app.inj h).1] at h'
      cases h'
    have harith' : moveToLhs (.func f args) (.app o [a, b]) = .app o' l := harith
    rw [moveToLhs.eq_def] at harith'
    split at harith'
    · next o₁ a₁ y heq =>
        obtain ⟨rfl, hl⟩ := Expr.app.inj heq
        obtain ⟨rfl, hl⟩ := List.cons.inj hl
        rw [if_pos ho] at harith'
        split at harith'
        · next hcall =>
            obtain ⟨-, rfl⟩ := Expr.app.inj harith'
            refine ⟨_, 0, [], a, [.mul [.num (-1), .var y]], rfl, rfl, ?_, Or.inl hcall⟩
            have hnum : ∀ n, WellShaped (.num n) := every_num
            have hvar : WellShaped (.var y) := every_var y
            simp [wellShaped_app, hnum, hvar, isComparison]
            rfl
        · apply (hand _ harith' ho').elim
    · next o₁ l₁ hnot heq =>
        obtain ⟨rfl, rfl⟩ := Expr.app.inj heq
        rw [if_pos ho] at harith'
        apply (hand _ harith' ho').elim
    · next hnot => exact (hnot _ _ rfl).elim

/-- The greater one of two numbers. -/
def maxRequest : Request := requestOf "f" [⟨"x", .int⟩, ⟨"y", .int⟩]

def maxProblem (pushed : Expr) : Problem := ⟨[maxRequest], [pushed], pushed⟩

def aboveBoth : Expr :=
  .and [.ge (callOf maxRequest) (.var ⟨"x", .int⟩), .ge (callOf maxRequest) (.var ⟨"y", .int⟩)]

def strictlyAbove : Expr := .gt (callOf maxRequest) (.var ⟨"x", .int⟩)

theorem hasUnit_call {f : FuncDecl} (hrange : f.range = .int) (args : List Expr) (x : Var) :
  HasUnit (.func f args) (.var x)
  := by
  refine ⟨1, Or.inl rfl, fun M v => ?_⟩
  have hcall : ∀ v : ℤ, (Expr.func f args).intVal (M.const fun _ => v) = v := by
    intro v
    rw [Expr.intVal, eval_func_const (c := (f, args)) hrange]
    rfl
  have hvar : ∀ v : ℤ, (Expr.var x).intVal (M.const fun _ => v) = (Expr.var x).intVal M :=
    fun _ => rfl
  rw [hcall, hcall, hvar, hvar]
  ring

theorem combination_call {o : Op} {x : Var} (ops : List Op) (ho : isComparison o)
    (hx : x.sort = .int) :
  Combination maxRequest.rdcdFunc (maxRequest.requestUsedArgs.map .var) ops
    (.app o [callOf maxRequest, .var x])
  := .comparison ho .call (.var hx) (Or.inr (hasUnit_call rfl _ x))

theorem combination_aboveBoth {ops : List Op} (hops : .and ∈ ops) :
  Combination maxRequest.rdcdFunc (maxRequest.requestUsedArgs.map .var) ops aboveBoth
  := by
  refine .connective hops fun e he => ?_
  rcases List.mem_cons.mp he with rfl | he
  · apply combination_call ops rfl rfl
  · rw [List.mem_singleton.mp he]
    apply combination_call ops rfl rfl

theorem getDef_sufficient_aboveBoth :
  Sufficient (strictSimplifier (callOf maxRequest)) (maxProblem aboveBoth) maxRequest aboveBoth
  := by
  have hD : (strictSimplifier (callOf maxRequest)).Documented maxRequest.rdcdFunc
      (maxRequest.requestUsedArgs.map .var) := strictSimplifier_documented
  refine getDef_sufficient (strictSimplifier_correct rfl) hD rfl rfl ?_ rfl
    (combination_aboveBoth (by decide)) rfl (combination_aboveBoth (by decide)) ⟨?_, ?_, ?_⟩
  · intro e he
    obtain ⟨x, -, rfl⟩ := List.mem_map.mp he
    exact ⟨rfl, every_var x⟩
  · refine .and fun e he => ?_
    rcases List.mem_cons.mp he with rfl | he
    · exact .comparison rfl
    · rw [List.mem_singleton.mp he]
      exact .comparison rfl
  · intro e he
    have hmem : e ∈ [Expr.ge (callOf maxRequest) (.var ⟨"x", .int⟩),
        .ge (callOf maxRequest) (.var ⟨"y", .int⟩)] := he
    rcases List.mem_cons.mp hmem with rfl | hmem
    · exact ⟨.ge, _, rfl, rfl⟩
    · rw [List.mem_singleton.mp hmem]
      exact ⟨.ge, _, rfl, rfl⟩
  · apply List.cons_ne_nil _ _

/-- The negation that the simplification makes of the strict comparison is not seen by the scan: the
only candidate is the bound itself. -/
theorem not_sufficient_strictlyAbove :
  (strictSimplifier (callOf maxRequest)).Correct
    ∧ Combination maxRequest.rdcdFunc (maxRequest.requestUsedArgs.map .var) [.and, .or]
      strictlyAbove
    ∧ Combination maxRequest.rdcdFunc (maxRequest.requestUsedArgs.map .var) simplifiedOps
      ((strictSimplifier (callOf maxRequest)).simplify strictlyAbove)
    ∧ ¬Sufficient (strictSimplifier (callOf maxRequest)) (maxProblem strictlyAbove) maxRequest
      strictlyAbove
  := by
  refine ⟨strictSimplifier_correct rfl, combination_call _ rfl rfl, ?_, ?_⟩
  · refine .connective (o := .not) (by decide) fun e he => ?_
    rw [List.mem_singleton.mp he]
    apply combination_call _ rfl rfl
  · rintro ⟨partConstr, normed, st, body, hconstr, hnormed, hst, -, hall⟩
    have hpart : reduceConstr (strictSimplifier (callOf maxRequest)) (maxProblem strictlyAbove)
        maxRequest.func.name [] strictlyAbove
          = some (.not (.le (callOf maxRequest) (.var ⟨"x", .int⟩))) := by
      decide
    rw [hpart, Option.some.injEq] at hconstr
    subst hconstr
    have hcompared : (normalizeExpr (strictSimplifier (callOf maxRequest))
        (maxProblem strictlyAbove).rdcdRequests
        (.not (.le (callOf maxRequest) (.var ⟨"x", .int⟩)))).bind (fun e =>
          (scanExpr (strictSimplifier (callOf maxRequest)) (maxProblem strictlyAbove).rdcdRequests e
            ⟨[], maxRequest.requestUsedArgs.map .var⟩).map ScanState.compared)
        = some [.mul [.num (-1), .add [.mul [.num (-1), .var ⟨"x", .int⟩],
            .mul [.num (-1), .num 0]]]] := by
      decide
    rw [hnormed, Option.bind_some, hst, Option.map_some, Option.some.injEq] at hcompared
    -- the bound is 0, and 1 is above it
    obtain ⟨⟨c, hc, hholds⟩, -⟩ := hall ⟨fun _ => .int 0, fun _ _ => .int 0⟩ 1 (by decide)
    rw [hcompared, List.mem_singleton] at hc
    subst hc
    revert hholds
    decide

end Examples

end Sygus.SSI
