import DryadSynth.SSI.Parts

/-!
# What is selected for one function

The solver brings a comparison that is linear in the call of a function into a normal form, with
the call among the monomials on one side.  Such a constraint is regular when the scan of it does
not fail.  The definition that is selected from the candidates mentions no variables but those of
the constraint, so that the formal arguments can be put in for the actual ones.
-/

namespace Sygus.SSI

open LIA Boundary Reduce Lists

/-! ### The solver -/

/-- With `arith_lhs` the call, or a multiple of it, is one of the monomials on the left-hand side,
and it occurs in no other one. -/
def CallOnLeft (f : FuncDecl) (args : List Expr) (left right : Expr) : Prop :=
  ∃ l₁ m l₂, summands left = l₁ ++ m :: l₂ ∧ (∀ t ∈ l₁ ++ l₂, t.calls = []) ∧ right.calls = []
    ∧ (m = .func f args ∨ ∃ n : ℤ, n ≠ 0 ∧ m = .mul [.num n, .func f args])

/-- The comparison is in normal form: with `arith_lhs`, if it has two sides then, the call is on the
left. -/
def IsNormal (S : Simplifier) (f : FuncDecl) (args : List Expr) (q : Expr) : Prop :=
  ∃ o a b, q = .app o [a, b] ∧ isComparison o = true ∧ (∀ c ∈ q.calls, c = (f, args))
    ∧ ∀ o' left right rest, S.arithLhs q = .app o' (left :: right :: rest) →
      isComparison o' = true ∧ CallOnLeft f args left right

/-- The argument is simple: neither a second simplification nor `arith_lhs` changes it. -/
def Settled (S : Simplifier) (a : Expr) : Prop :=
  S.simplify (S.simplify a) = S.simplify a ∧ S.arithLhs (S.simplify a) = S.simplify a

/-- What the solver is known to do with comparisons that are not strict and linear in the calls of
a function: they are brought into normal form with simplified arguments in the calls, and numerals
are multiplied. -/
structure Simplifier.Normalizes (S : Simplifier) (f : FuncDecl) (args : List Expr) : Prop where
  simplify {e : Expr} : e.sort = some .bool → (∀ c ∈ e.calls, c = (f, args)) →
    Built (IsLinear f) e → Built (IsNormal S f (args.map S.simplify)) (S.simplify e)
  neg_call : S.simplify (.mul [.num (-1), .func f (args.map S.simplify)])
    = .mul [.num (-1), .func f (args.map S.simplify)]
  neg_mul (n : ℤ) : n ≠ 0 →
    S.simplify (.mul [.num (-1), .mul [.num n, .func f (args.map S.simplify)]])
      = if n = -1 then .func f (args.map S.simplify)
        else .mul [.num (-n), .func f (args.map S.simplify)]

/-- No variable comes out of the calls of a function. -/
def KeepsOuter (g : Expr → Expr) : Prop := ∀ f e, ∀ x ∈ outerVars f (g e), x ∈ outerVars f e

/-- Simplifications leave variables and bring in no others. -/
structure Simplifier.Local (S : Simplifier) : Prop where
  var (x : Var) : S.simplify (.var x) = .var x
  simplify : KeepsOuter S.simplify
  arithLhs : KeepsOuter S.arithLhs
  simp : KeepsOuter S.simp

/-! ### Regular constraints -/

section Regular

variable {S : Simplifier} {fs : List FuncDecl} {f : FuncDecl} {args : List Expr} {e e' t : Expr}
  {l : List Expr} {st st' : ScanState} {terms terms' : Option Expr × List Expr} {o : Op} {x : Var}

theorem isFuncTerm_free (h : t.calls = []) :
  isFuncTerm fs t ≠ some true
  := by
  intro hterm
  unfold isFuncTerm at hterm
  split at hterm
  · next inner rest =>
      rw [isFunc_of_calls_eq_nil (calls_getArgs h inner (by simp [getArgs]))] at hterm
      cases hterm
  · cases hterm
  · rw [isFunc_of_calls_eq_nil h] at hterm
    cases hterm

/-- Monomials without calls remain. -/
theorem foldlM_splitStep_free (hl : ∀ t ∈ l, t.calls = [])
    (h : l.foldlM (splitStep fs) terms = some terms') :
  terms' = (terms.1, terms.2 ++ l)
  := by
  induction l generalizing terms with
  | nil =>
      rw [List.append_nil]
      apply (Option.some.inj h).symm
  | cons t l ih =>
      obtain ⟨ht, hl⟩ := List.forall_mem_cons.mp hl
      rw [List.foldlM_cons] at h
      obtain ⟨next, hstep, h⟩ := Option.bind_eq_some_iff.mp h
      have hnext : next = (terms.1, terms.2 ++ [t]) := by
        rw [splitStep] at hstep
        split at hstep
        · cases hstep
        · apply (Option.some.inj hstep).symm
        · next hterm => exact absurd hterm (isFuncTerm_free ht)
      rw [ih hl h, hnext, List.append_assoc, List.singleton_append]

/-- The call is found among the monomials. -/
theorem splitTerms_eq {m : Expr} {l₁ l₂ : List Expr} (hm : isFuncTerm fs m = some true)
    (hfree : ∀ t ∈ l₁ ++ l₂, t.calls = []) (h : splitTerms fs (l₁ ++ m :: l₂) = some terms) :
  terms = (some m, l₁ ++ l₂)
  := by
  rw [splitTerms, List.foldlM_append] at h
  obtain ⟨terms₁, h₁, h⟩ := Option.bind_eq_some_iff.mp h
  rw [foldlM_splitStep_free (fun t ht => hfree t (List.mem_append_left _ ht)) h₁,
    List.foldlM_cons, splitStep, hm] at h
  rw [foldlM_splitStep_free (fun t ht => hfree t (List.mem_append_right _ ht)) h]
  rfl

/-- What is scanned without failing is scanned without failing in each part. -/
theorem exists_scan_of_foldlM (h : l.foldlM (fun st e => scanExpr S fs e st) st = some st')
    (he : e ∈ l) :
  ∃ st₁ st₂, scanExpr S fs e st₁ = some st₂
  := by
  induction l generalizing st with
  | nil => cases he
  | cons a l ih =>
      rw [List.foldlM_cons] at h
      obtain ⟨st₁, h₁, h⟩ := Option.bind_eq_some_iff.mp h
      rcases List.mem_cons.mp he with rfl | he
      · exact ⟨st, st₁, h₁⟩
      · apply ih h he

/-- A normal comparison that is normalized and scanned has the call, possibly negated, on the right
then. -/
theorem IsNormal.regular (hS : S.Correct) (hN : S.Normalizes f args) (hf : f ∈ fs)
    (h : IsNormal S f (args.map S.simplify) e) (hnorm : normalizeExpr S fs e = some e')
    (hscan : scanExpr S fs e' st = some st') :
  Regular S fs f (args.map S.simplify) e
  := by
  obtain ⟨o, a, b, rfl, ho, hcalls, hlhs⟩ := h
  rw [normalizeExpr, if_pos ho] at hnorm
  have hatom := hnorm
  rw [normalizeAtom] at hnorm
  split at hnorm
  · next o' left right rest harith =>
      obtain ⟨ho', l₁, m, l₂, hsum, hfree, hright, hm⟩ := hlhs o' left right rest harith
      have hcall : isFunc fs (.func f (args.map S.simplify)) = true :=
        isFunc_iff.mpr ⟨f, hf, _, rfl⟩
      have hterm : isFuncTerm fs m = some true := by
        rcases hm with rfl | ⟨n, -, rfl⟩
        · rw [isFuncTerm, hcall]
          · simp
          · simp
        · rw [isFuncTerm, hcall]
      rw [hsum] at hnorm
      split at hnorm
      · cases hnorm
      · next rem hsplit =>
          have hterms := splitTerms_eq hterm hfree hsplit
          cases hterms
      · next funcTerm rem hsplit =>
          have hterms := splitTerms_eq hterm hfree hsplit
          obtain ⟨hfuncTerm, rfl⟩ := Prod.mk.inj hterms
          obtain rfl := Option.some.inj hfuncTerm
          split at hnorm
          · obtain rfl := Option.some.inj hnorm
            have hadd : ∀ g, Op.add ≠ .func g := by simp
            have hmul : ∀ g, Op.mul ≠ .func g := by simp
            have hleft : (S.simplify (.add (l₁ ++ l₂ ++ [.mul [.num (-1), right]]))).calls
                = [] := by
              apply hS.simplify.calls
              rw [calls_app_eq_nil hadd]
              intro t ht
              rcases List.mem_append.mp ht with ht | ht
              · apply hfree t ht
              · rw [List.mem_singleton.mp ht, calls_app_eq_nil hmul]
                simp [hright]
            refine .comparison ho ho' hcalls hatom hleft ?_
            rcases hm with rfl | ⟨n, hzero, rfl⟩
            · exact .inr hN.neg_call
            · rw [hN.neg_mul n hzero] at hscan ⊢
              split
              · exact .inl rfl
              · next hn =>
                  right
                  rw [if_neg hn, scanExpr_app (by simp), if_pos ho'] at hscan
                  obtain ⟨st₁, hst₁, -⟩ := Option.bind_eq_some_iff.mp hscan
                  have hnot : isFunc fs (.mul [.num (-n), .func f (args.map S.simplify)]) = false :=
                    rfl
                  rw [scanAtom, hnot, if_neg Bool.false_ne_true] at hst₁
                  rw [if_pos hcall] at hst₁
                  split at hst₁
                  · next hone => rw [hone]
                  · cases hst₁
          · cases hnorm
  · cases hnorm

/-- A normal constraint that is normalized and scanned is regular. -/
theorem Built.regular (hS : S.Correct) (hN : S.Normalizes f args) (hf : f ∈ fs)
    (h : Built (IsNormal S f (args.map S.simplify)) e) (hnorm : normalizeExpr S fs e = some e')
    (hscan : scanExpr S fs e' st = some st') :
  Regular S fs f (args.map S.simplify) e
  := by
  induction h generalizing e' st st' with
  | free h => exact .free h
  | atom h => exact h.regular hS hN hf hnorm hscan
  | @connective o l ho _ ih =>
      have hnot : ¬isComparison o := by
        rcases isConnective_iff.mp ho with rfl | rfl
        · exact Bool.false_ne_true
        · exact Bool.false_ne_true
      rw [normalizeExpr, if_neg hnot] at hnorm
      obtain ⟨l', hl', rfl⟩ := Option.map_eq_some_iff.mp hnorm
      rw [normalizeAll_eq, mapM_eq_some_iff] at hl'
      have hargs : ∀ e ∈ l, Regular S fs f (args.map S.simplify) e := by
        intro e he
        obtain ⟨e', he', hnorm'⟩ := exists_of_forall₂ hl'.flip he
        rw [scanExpr_app (List.ne_nil_of_mem he'), if_neg hnot, Option.bind_some] at hscan
        obtain ⟨st₁, st₂, hst⟩ := exists_scan_of_foldlM hscan he'
        apply ih e he hnorm' hst
      rcases isConnective_iff.mp ho with rfl | rfl
      · exact .and hargs
      · exact .or hargs

end Regular

/-! ### The variables of a definition -/

section Variables

variable {S : Simplifier} {P : Problem} {fs : List FuncDecl} {f : FuncDecl} {args : List Expr}
  {e e' t cand left right : Expr} {l : List Expr} {st st' : ScanState} {o : Op} {x : Var}

theorem outerVars_boundary (hx : x ∈ outerVars f (boundary o left)) :
  x ∈ outerVars f left
  := by
  unfold boundary at hx
  split at hx
  · simpa [outerVars, outerVarsAll] using hx
  · simpa [outerVars, outerVarsAll] using hx
  · exact hx

theorem outerVars_candidate (hS : S.Local) (f : FuncDecl)
    (hx : x ∈ outerVars f (candidate S f args o left right)) :
  x ∈ outerVars f left
  := by
  unfold candidate at hx
  split at hx
  · exact outerVars_boundary hx
  · have hx := hS.simplify _ _ x hx
    simp only [mem_outerVars_app, List.mem_cons, List.not_mem_nil, or_false] at hx
    obtain ⟨-, e, rfl | rfl, hx⟩ := hx
    · cases hx
    · exact outerVars_boundary hx

/-- Normalizing a comparison brings in no variables. -/
theorem outerVars_normalizeAtom (hS : S.Local)
    (h : normalizeAtom S fs e = some (.app o [left, right])) (hx : x ∈ outerVars f left)
    (ho : o ≠ .func f) :
  x ∈ outerVars f e
  := by
  rcases normalizeAtom_cases h with heq | ⟨o', a, b, funcTerm, rem, harith, hsplit, heq⟩
  · rw [← heq]
    exact mem_outerVars_app.mpr ⟨ho, left, by simp, hx⟩
  · obtain ⟨rfl, rfl, rfl⟩ : o = o' ∧ left = _ ∧ right = _ := by simpa using heq
    apply hS.arithLhs f e
    rw [harith]
    have hx := hS.simplify _ _ x hx
    obtain ⟨-, t, ht, hx⟩ := mem_outerVars_app.mp hx
    rcases List.mem_append.mp ht with ht | ht
    · refine mem_outerVars_app.mpr ⟨ho, a, by simp, ?_⟩
      have hmem := (splits_splitTerms hsplit).mem t (List.mem_append_right _ ht)
      unfold summands at hmem
      split at hmem
      · exact mem_outerVars_app.mpr ⟨nofun, t, hmem, hx⟩
      · rw [List.mem_singleton.mp hmem] at hx
        exact hx
    · rw [List.mem_singleton.mp ht] at hx
      refine mem_outerVars_app.mpr ⟨ho, b, by simp, ?_⟩
      simpa [outerVars, outerVarsAll] using hx

/-- The candidates that are found mention variables of the constraint outside the calls only. -/
theorem Regular.vars_compared (hC : S.Correct) (hS : S.Local) (hf : f ∈ fs)
    (hargs : ∀ e ∈ args, e.calls = []) (h : Regular S fs f args e)
    (hnorm : normalizeExpr S fs e = some e') (hscan : scanExpr S fs e' st = some st') :
  ∀ c ∈ st'.compared, c ∈ st.compared ∨ ∀ x ∈ outerVars f c, x ∈ outerVars f e
  := by
  have happ : ∀ {o : Op} {l : List Expr} {e' : Expr} {st st' : ScanState}, isConnective o = true →
      (∀ e ∈ l, ∀ {e' : Expr} {st st' : ScanState}, normalizeExpr S fs e = some e' →
        scanExpr S fs e' st = some st' →
        ∀ c ∈ st'.compared, c ∈ st.compared ∨ ∀ x ∈ outerVars f c, x ∈ outerVars f e) →
      normalizeExpr S fs (.app o l) = some e' → scanExpr S fs e' st = some st' →
      ∀ c ∈ st'.compared, c ∈ st.compared ∨ ∀ x ∈ outerVars f c, x ∈ outerVars f (.app o l) := by
    intro o l e' st st' ho ih hnorm hscan
    have hnot : ¬isComparison o := by
      rcases isConnective_iff.mp ho with rfl | rfl
      · exact Bool.false_ne_true
      · exact Bool.false_ne_true
    rw [normalizeExpr, if_neg hnot] at hnorm
    obtain ⟨l', hl', rfl⟩ := Option.map_eq_some_iff.mp hnorm
    rw [normalizeAll_eq, mapM_eq_some_iff] at hl'
    by_cases hne : l' = []
    · subst hne
      obtain rfl := Option.some.inj hscan
      exact fun c hc => .inl hc
    · rw [scanExpr_app hne, if_neg hnot, Option.bind_some] at hscan
      refine foldlM_scanExpr (P := fun st st' => ∀ c ∈ st'.compared, c ∈ st.compared ∨
        ∀ x ∈ outerVars f c, x ∈ outerVars f (.app o l)) (fun st c hc => .inl hc) ?_ ?_ hscan
      · intro st₁ st₂ st₃ h₁ h₂ c hc
        rcases h₂ c hc with hc | hc
        · exact h₁ c hc
        · exact .inr hc
      · intro e' he' st₁ st₂ hst c hc
        obtain ⟨e, he, hnorm'⟩ := exists_of_forall₂ hl' he'
        rcases ih e he hnorm' hst c hc with hc | hc
        · exact .inl hc
        · exact .inr fun x hx => mem_outerVars_app.mpr ⟨ne_func (.inl ho) f, e, he, hc x hx⟩
  induction h generalizing e' st st' with
  | free h =>
      rw [normalizeExpr_free hC h hnorm] at hscan
      rw [scanExpr_free h hscan]
      exact fun c hc => .inl hc
  | and _ ih => exact happ rfl (fun e he _ _ _ => ih e he) hnorm hscan
  | or _ ih => exact happ rfl (fun e he _ _ _ => ih e he) hnorm hscan
  | @comparison o o' l left right ho ho' hcalls hatom hleft hright =>
      rw [normalizeExpr, if_pos ho, hatom] at hnorm
      obtain rfl := Option.some.inj hnorm
      rw [scanExpr_comparison hf hargs ho' hleft hright hscan]
      intro c hc
      rcases List.mem_insert_iff.mp hc with rfl | hc
      · right
        intro x hx
        have hx := outerVars_candidate hS f hx
        exact outerVars_normalizeAtom hS hatom hx (isComparison_ne_func ho' f)
      · exact .inl hc

theorem outerVars_elimApp (b : Bool) (hx : x ∈ outerVars f (elimApp b o l)) :
  x ∈ outerVars f (.app o l)
  := by
  unfold elimApp at hx
  split at hx
  · next c t e =>
      split at hx
      · simp only [mem_outerVars_app, List.mem_cons, List.not_mem_nil, or_false, ne_eq,
          reduceCtorEq, not_false_eq_true, true_and, exists_eq_or_imp, exists_eq_left] at hx ⊢
        tauto
      · exact hx
  · exact hx

theorem outerVars_elimITE (hx : x ∈ outerVars f (elimITE e)) :
  x ∈ outerVars f e
  := by
  induction e with
  | num n => cases hx
  | var y => exact hx
  | app o args ih =>
      rw [elimITE, elimAll_eq] at hx
      obtain ⟨ho, e', he', hx⟩ := mem_outerVars_app.mp (outerVars_elimApp _ hx)
      obtain ⟨e, he, rfl⟩ := List.mem_map.mp he'
      exact mem_outerVars_app.mpr ⟨ho, e, he, ih e he hx⟩

theorem outerVars_substitute (hx : x ∈ outerVars f (e.substitute [t] [cand])) :
  x ∈ outerVars f e ∨ x ∈ outerVars f cand
  := by
  rw [Expr.substitute] at hx
  simp only [lookup_singleton] at hx
  induction e with
  | num n =>
      rw [Expr.replace] at hx
      split at hx
      · exact .inr hx
      · exact .inl hx
  | var y =>
      rw [Expr.replace] at hx
      split at hx
      · exact .inr hx
      · exact .inl hx
  | app o args ih =>
      rw [replace_app] at hx
      split at hx
      · exact .inr hx
      · rw [Option.getD_none] at hx
        obtain ⟨ho, e', he', hx⟩ := mem_outerVars_app.mp hx
        obtain ⟨e, he, rfl⟩ := List.mem_map.mp he'
        rcases ih e he hx with hx | hx
        · exact .inl (mem_outerVars_app.mpr ⟨ho, e, he, hx⟩)
        · exact .inr hx

theorem outerVars_constructITE (hS : S.Local) {call : Expr}
    (hx : x ∈ outerVars f (constructITE S e call l)) :
  x ∈ outerVars f e ∨ ∃ c ∈ l, x ∈ outerVars f c
  := by
  induction l with
  | nil => cases hx
  | cons cand l ih =>
      rw [constructITE] at hx
      obtain ⟨-, part, hpart, hmem⟩ := mem_outerVars_app.mp hx
      simp only [List.mem_cons, List.not_mem_nil, or_false] at hpart
      rcases hpart with rfl | rfl | rfl
      · rcases outerVars_substitute (outerVars_elimITE (hS.simp _ _ x hmem)) with hmem | hmem
        · exact .inl hmem
        · exact .inr ⟨cand, List.mem_cons_self, hmem⟩
      · exact .inr ⟨_, List.mem_cons_self, hmem⟩
      · rcases ih hmem with hmem | ⟨c, hc, hmem⟩
        · exact .inl hmem
        · exact .inr ⟨c, List.mem_cons_of_mem _ hc, hmem⟩

/-- The definition mentions variables of the constraint outside the calls only. -/
theorem vars_getDef (hC : S.Correct) (hS : S.Local) {r : Request}
    {part : List (FuncDecl × Definition)} {pushed partConstr body : Expr} {cache : List Expr}
    (hr : r ∈ P.requests) (hargs : ∀ e ∈ args, e.calls = [])
    (hconstr : reduceConstr S P r.func.name part pushed = some partConstr)
    (hreg : Regular S P.rdcdRequests r.rdcdFunc args partConstr)
    (h : getDef S P r part pushed = some (body, cache)) :
  ∀ x ∈ outerVars r.rdcdFunc body, x ∈ outerVars r.rdcdFunc partConstr
  := by
  have hf : r.rdcdFunc ∈ P.rdcdRequests := List.mem_map_of_mem hr
  rw [getDef] at h
  obtain ⟨partConstr', hconstr', h⟩ := Option.bind_eq_some_iff.mp h
  obtain rfl := Option.some.inj (hconstr.symm.trans hconstr')
  obtain ⟨normed, hnormed, h⟩ := Option.bind_eq_some_iff.mp h
  obtain ⟨st, hst, h⟩ := Option.bind_eq_some_iff.mp h
  obtain ⟨rfl, rfl⟩ := Prod.mk.inj (Option.some.inj h)
  intro x hx
  rcases outerVars_constructITE hS (hS.simplify _ _ x hx) with hx | ⟨c, hc, hx⟩
  · exact hx
  · rcases hreg.vars_compared hC hS hf hargs hnormed hst c ((hC.toArray _).mem_iff.mp hc) with
      hnil | hc
    · cases hnil
    · apply hc x hx

end Variables

end Sygus.SSI
