import DryadSynth.SSI.Candidates

/-!
# Regular constraints

A constraint on one function is regular if it is built by conjunction and disjunction from
comparisons that are normalized to ones with the call on the right-hand side, and from formulas
without calls.  A regular constraint on the value of the function is built from comparisons with
the candidates that are found for it.
-/

namespace Sygus.SSI

open LIA Boundary Lists

section Free

variable {S : Simplifier} {fs : List FuncDecl} {e e' : Expr} {l : List Expr}
variable {st st' : ScanState}

theorem normalizeAll_eq (l : List Expr) :
  normalizeAll S fs l = l.mapM (normalizeExpr S fs)
  := by
  induction l with
  | nil => rfl
  | cons e l ih => rw [normalizeAll, ih, List.mapM_cons]

theorem scanAll_eq (l : List Expr) (st : ScanState) :
  scanAll S fs l st = l.foldlM (fun st e => scanExpr S fs e st) st
  := by
  induction l generalizing st with
  | nil => rfl
  | cons e l ih =>
      rw [scanAll, List.foldlM_cons]
      simp only [ih]

theorem calls_getArgs (h : e.calls = []) :
  ∀ e' ∈ getArgs e, e'.calls = []
  := by
  cases e with
  | num n => exact nofun
  | var x => exact nofun
  | app o args =>
      have ho : ∀ f, o ≠ .func f := by
        rintro f rfl
        cases h
      apply (calls_app_eq_nil ho).mp h

/-- Nothing is found in an expression without calls. -/
theorem scanAtom_free {o : Op} (h : ∀ e ∈ l, e.calls = [])
    (hscan : scanAtom S fs o l st = some st') :
  st' = st
  := by
  rw [scanAtom.eq_def] at hscan
  split at hscan
  · next left right rest =>
      have hright : right.calls = [] := h right (by simp)
      rw [isFunc_of_calls_eq_nil hright] at hscan
      simp only [Bool.false_eq_true, if_false] at hscan
      split at hscan
      · next coeff inner margs =>
          have hinner : inner.calls = [] := calls_getArgs hright inner (by simp [getArgs])
          rw [isFunc_of_calls_eq_nil hinner] at hscan
          simpa [eq_comm] using hscan
      · cases hscan
      · apply (Option.some.inj hscan).symm
  · cases hscan

theorem scanExpr_app {o : Op} (hne : l ≠ []) :
  scanExpr S fs (.app o l) st
    = (if isComparison o then scanAtom S fs o l st else some st).bind
        fun st => l.foldlM (fun st e => scanExpr S fs e st) st
  := by
  cases l with
  | nil => exact absurd rfl hne
  | cons e l =>
      rw [scanExpr]
      simp only [scanAll_eq, List.foldlM_cons]
      split
      · rfl
      · rfl

/-- Scanning keeps what scanning each expression keeps. -/
theorem foldlM_scanExpr {P : ScanState → ScanState → Prop} (hrefl : ∀ st, P st st)
    (htrans : ∀ st₁ st₂ st₃, P st₁ st₂ → P st₂ st₃ → P st₁ st₃)
    (hstep : ∀ e ∈ l, ∀ st st', scanExpr S fs e st = some st' → P st st')
    (h : l.foldlM (fun st e => scanExpr S fs e st) st = some st') :
  P st st'
  := by
  induction l generalizing st with
  | nil =>
      obtain rfl := Option.some.inj h
      apply hrefl st
  | cons e l ih =>
      rw [List.foldlM_cons] at h
      obtain ⟨st'', he, hl⟩ := Option.bind_eq_some_iff.mp h
      apply htrans st st'' st' (hstep e List.mem_cons_self _ _ he)
      exact ih (fun e' he' => hstep e' (List.mem_cons_of_mem _ he')) hl

theorem scanExpr_free (h : e.calls = []) (hscan : scanExpr S fs e st = some st') :
  st' = st
  := by
  induction e generalizing st st' with
  | num n => exact (Option.some.inj hscan).symm
  | var x => exact (Option.some.inj hscan).symm
  | app o args ih =>
      have hargs : ∀ e ∈ args, e.calls = [] := calls_getArgs h
      by_cases hne : args = []
      · subst hne
        apply (Option.some.inj hscan).symm
      · rw [scanExpr_app hne] at hscan
        obtain ⟨st'', hatom, hfold⟩ := Option.bind_eq_some_iff.mp hscan
        have hst : st'' = st := by
          split at hatom
          · apply scanAtom_free hargs hatom
          · apply (Option.some.inj hatom).symm
        rw [hst] at hfold
        refine foldlM_scanExpr (P := fun st st' => st' = st) (fun _ => rfl) ?_ ?_ hfold
        · rintro st₁ st₂ st₃ rfl rfl
          rfl
        · intro e he st st'
          apply ih e he (hargs e he)

/-- Nothing is moved in a comparison without calls. -/
theorem normalizeAtom_free (hS : S.Correct) (h : e.calls = [])
    (hnorm : normalizeAtom S fs e = some e') :
  e' = e
  := by
  rcases normalizeAtom_cases hnorm with heq | ⟨o, left, right, funcTerm, rem, harith, hsplit, -⟩
  · apply heq
  · exfalso
    have hcalls := hS.arithLhs.calls h
    rw [harith] at hcalls
    have hleft : left.calls = [] := calls_getArgs hcalls left (by simp [getArgs])
    have hterm : funcTerm.calls = [] := by
      have hmem := (splits_splitTerms hsplit).mem funcTerm List.mem_cons_self
      unfold summands at hmem
      split at hmem
      · apply calls_getArgs hleft funcTerm hmem
      · rw [List.mem_singleton.mp hmem]
        apply hleft
    have hcall := (splits_splitTerms hsplit).call funcTerm rfl
    unfold isFuncTerm at hcall
    split at hcall
    · next coeff inner margs =>
        have hinner : inner.calls = [] := calls_getArgs hterm inner (by simp [getArgs])
        rw [isFunc_of_calls_eq_nil hinner] at hcall
        cases hcall
    · cases hcall
    · rw [isFunc_of_calls_eq_nil hterm] at hcall
      cases hcall

theorem eq_of_forall₂ {α : Type} {R : α → α → Prop} {l l' : List α} (h : List.Forall₂ R l l')
    (heq : ∀ a ∈ l, ∀ b, R a b → b = a) :
  l' = l
  := by
  induction h with
  | nil => rfl
  | cons hab _ ih =>
      rw [heq _ List.mem_cons_self _ hab, ih fun a ha => heq a (List.mem_cons_of_mem _ ha)]

theorem normalizeExpr_free (hS : S.Correct) (h : e.calls = [])
    (hnorm : normalizeExpr S fs e = some e') :
  e' = e
  := by
  induction e generalizing e' with
  | num n => exact (Option.some.inj hnorm).symm
  | var x => exact (Option.some.inj hnorm).symm
  | app o args ih =>
      rw [normalizeExpr] at hnorm
      split at hnorm
      · apply normalizeAtom_free hS h hnorm
      · obtain ⟨args', hargs', rfl⟩ := Option.map_eq_some_iff.mp hnorm
        rw [normalizeAll_eq, mapM_eq_some_iff] at hargs'
        rw [eq_of_forall₂ hargs' fun e he e' => ih e he (calls_getArgs h e he)]

end Free

/-! ### Regular constraints -/

section Regular

variable (S : Simplifier) (fs : List FuncDecl) (f : FuncDecl) (args : List Expr)

/-- The constraint is built by conjunction and disjunction from formulas without calls and from
comparisons that are normalized to one with the call, possibly negated, on the right. -/
inductive Regular : Expr → Prop where
  | free {e : Expr} : e.calls = [] → Regular e
  | and {l : List Expr} : (∀ e ∈ l, Regular e) → Regular (.and l)
  | or {l : List Expr} : (∀ e ∈ l, Regular e) → Regular (.or l)
  | comparison {o o' : Op} {l : List Expr} {left right : Expr} :
      isComparison o → isComparison o' → (∀ c ∈ (Expr.app o l).calls, c = (f, args)) →
      normalizeAtom S fs (.app o l) = some (.app o' [left, right]) → left.calls = [] →
      right = .func f args ∨ right = .mul [.num (-1), .func f args] → Regular (.app o l)

end Regular

/-- The expression is an integer without calls that depends on the variables `X` only. -/
structure IsCandidate (X : List Var) (c : Expr) : Prop where
  sort : c.sort = some .int
  calls : c.calls = []
  depends (M M' : Model) : (∀ x ∈ X, M.value x = M'.value x) → c.intVal M = c.intVal M'

/-- What scanning a constraint does: the candidates stay and new ones are found, and the cached
arguments stay or are those of the calls. -/
structure Scans (X : List Var) (args : List Expr) (st st' : ScanState) : Prop where
  subset : st.compared ⊆ st'.compared
  cand : ∀ c ∈ st'.compared, c ∉ st.compared → IsCandidate X c
  cache : st'.callCache = st.callCache ∨ st'.callCache = args

theorem Scans.refl (X : List Var) (args : List Expr) (st : ScanState) :
  Scans X args st st
  := ⟨List.Subset.refl _, fun _ h h' => absurd h h', Or.inl rfl⟩

theorem Scans.trans {X : List Var} {args : List Expr} {st st' st'' : ScanState}
    (h : Scans X args st st') (h' : Scans X args st' st'') :
  Scans X args st st''
  := by
  constructor
  · exact fun c hc => h'.subset (h.subset hc)
  · intro c hc hnot
    by_cases hc' : c ∈ st'.compared
    · apply h.cand c hc' hnot
    · apply h'.cand c hc hc'
  · rcases h'.cache with heq | heq
    · rw [heq]
      apply h.cache
    · apply Or.inr heq

section Candidates

variable {S : Simplifier} {fs : List FuncDecl} {f : FuncDecl} {args : List Expr}
variable {e e' left right : Expr} {st st' : ScanState} {K : Set ℤ} {M : Model} {o : Op}
variable {X : List Var}

theorem Regular.calls (h : Regular S fs f args e) :
  ∀ c ∈ e.calls, c = (f, args)
  := by
  induction h with
  | free h =>
      intro c hc
      rw [h] at hc
      cases hc
  | and _ ih =>
      intro c hc
      rcases mem_calls_app.mp hc with ⟨g, hg, -⟩ | ⟨e, he, hc⟩
      · cases hg
      · apply ih e he c hc
  | or _ ih =>
      intro c hc
      rcases mem_calls_app.mp hc with ⟨g, hg, -⟩ | ⟨e, he, hc⟩
      · cases hg
      · apply ih e he c hc
  | comparison _ _ h => exact h

/-- The candidate of a comparison with the call on the right. -/
def candidate (S : Simplifier) (f : FuncDecl) (args : List Expr) (o : Op) (left right : Expr) :
    Expr :=
  if right = .func f args then boundary o left
  else S.simplify (.mul [.num (-1), boundary o left])

theorem sort_boundary (h : left.sort = some .int) :
  (boundary o left).sort = some .int
  := by
  unfold boundary
  split
  · simp [h]
  · simp [h]
  · apply h

theorem calls_boundary (h : left.calls = []) :
  (boundary o left).calls = []
  := by
  have hsum : ∀ o' : Op, (∀ g, o' ≠ .func g) →
      (Expr.app o' [left, .num 1]).calls = [] := by
    intro o' ho'
    rw [calls_app_eq_nil ho']
    simp [h]
  unfold boundary
  split
  · exact hsum _ nofun
  · exact hsum _ nofun
  · apply h

theorem calls_neg_boundary (h : left.calls = []) :
  (Expr.mul [.num (-1), boundary o left]).calls = []
  := by
  have ho : ∀ g, Op.mul ≠ .func g := by
    intro g hg
    cases hg
  rw [calls_app_eq_nil ho]
  simp [calls_boundary h]

theorem sort_neg_boundary (hS : S.Correct) (h : left.sort = some .int) :
  (S.simplify (.mul [.num (-1), boundary o left])).sort = some .int ∧
    ∀ M, (S.simplify (.mul [.num (-1), boundary o left])).intVal M
      = -(boundary o left).intVal M
  := by
  have hs : (Expr.mul [.num (-1), boundary o left]).sort = some .int := by
    simp [sort_boundary h]
  use (hS.simplify.preserves _ _ hs).1
  intro M
  rw [(hS.simplify.preserves _).intVal hs]
  simp

/-- Nothing is found in an application other than a comparison when nothing is in the
arguments. -/
theorem scanExpr_args {l : List Expr} (ho : ¬ isComparison o)
    (hl : ∀ e ∈ l, ∀ st st', scanExpr S fs e st = some st' → st' = st)
    (hscan : scanExpr S fs (.app o l) st = some st') :
  st' = st
  := by
  by_cases hne : l = []
  · subst hne
    apply (Option.some.inj hscan).symm
  · rw [scanExpr_app hne, if_neg ho] at hscan
    refine foldlM_scanExpr (P := fun st st' => st' = st) (fun _ => rfl) ?_ hl hscan
    rintro st₁ st₂ st₃ rfl rfl
    rfl

theorem scanExpr_right (hargs : ∀ e ∈ args, e.calls = [])
    (hright : right = .func f args ∨ right = .mul [.num (-1), .func f args])
    (hscan : scanExpr S fs right st = some st') :
  st' = st
  := by
  have hcall : ∀ st st', scanExpr S fs (.func f args) st = some st' → st' = st :=
    fun st st' => scanExpr_args Bool.false_ne_true fun e he st st' => scanExpr_free (hargs e he)
  rcases hright with rfl | rfl
  · apply hcall st st' hscan
  · refine scanExpr_args (by decide) ?_ hscan
    intro e he st st' h
    rcases List.mem_cons.mp he with rfl | he
    · apply (Option.some.inj h).symm
    · rw [List.mem_singleton.mp he] at h
      apply hcall st st' h

/-- A comparison with the call on the right gives its candidate. -/
theorem scanExpr_comparison (hf : f ∈ fs) (hargs : ∀ e ∈ args, e.calls = [])
    (ho : isComparison o) (hleft : left.calls = [])
    (hright : right = .func f args ∨ right = .mul [.num (-1), .func f args])
    (hscan : scanExpr S fs (.app o [left, right]) st = some st') :
  st' = ⟨st.compared.insert (candidate S f args o left right), args⟩
  := by
  have hatom : scanAtom S fs o [left, right] st
      = some ⟨st.compared.insert (candidate S f args o left right), args⟩ := by
    have hcall : isFunc fs (.func f args) = true := isFunc_iff.mpr ⟨f, hf, args, rfl⟩
    rcases hright with rfl | rfl
    · simp [scanAtom, hcall, candidate, ScanState.add, getArgs]
    · have hmul : isFunc fs (.mul [.num (-1), .func f args]) = false := rfl
      simp [scanAtom, hmul, hcall, candidate, ScanState.add, getArgs]
  rw [scanExpr_app (by simp), if_pos ho, hatom, Option.bind_some, List.foldlM_cons] at hscan
  obtain ⟨st₁, h₁, hscan⟩ := Option.bind_eq_some_iff.mp hscan
  rw [List.foldlM_cons] at hscan
  obtain ⟨st₂, h₂, hscan⟩ := Option.bind_eq_some_iff.mp hscan
  rw [← Option.some.inj hscan, scanExpr_right hargs hright h₂, scanExpr_free hleft h₁]

theorem sort_right (hrange : f.range = .int) (hdomain : args.map Expr.sort = f.domain.map some)
    (hright : right = .func f args ∨ right = .mul [.num (-1), .func f args]) :
  right.sort = some .int
  := by
  have hcall : (Expr.func f args).sort = some .int := sort_func.mpr ⟨hrange.symm, hdomain⟩
  rcases hright with rfl | rfl
  · apply hcall
  · rw [sort_mul]
    refine ⟨rfl, fun e he => ?_⟩
    rcases List.mem_cons.mp he with rfl | he
    · rfl
    · rw [List.mem_singleton.mp he]
      apply hcall

/-- What is found in a constraint: candidates such that the constraint on the value of the
function is built from comparisons with their values. -/
structure Finds (X : List Var) (args : List Expr) (e : Expr) (st st' : ScanState) : Prop where
  scans : Scans X args st st'
  cache : e.calls ≠ [] → st'.callCache = args
  positive (K : Set ℤ) (M : Model) : (∀ c ∈ st'.compared, c.intVal M ∈ K) →
    Positive K fun v => e.Holds (M.const fun _ => v)

theorem Finds.mono {st'' : ScanState} (h : Finds X args e st st') (h' : Scans X args st' st'') :
  Finds X args e st st''
  := by
  constructor
  · apply h.scans.trans h'
  · intro hne
    rcases h'.cache with heq | heq
    · rw [heq, h.cache hne]
    · apply heq
  · intro K M hK
    exact h.positive K M fun c hc => hK c (h'.subset hc)

/-- What is found in the expressions of a list. -/
theorem finds_list {l l' : List Expr} (hl : ∀ e ∈ l, ∀ e' st st', normalizeExpr S fs e = some e' →
      scanExpr S fs e' st = some st' → Finds X args e st st')
    (hnorm : List.Forall₂ (fun e e' => normalizeExpr S fs e = some e') l l')
    (hscan : l'.foldlM (fun st e => scanExpr S fs e st) st = some st') :
  Scans X args st st' ∧ ∀ e ∈ l, Finds X args e st st'
  := by
  induction hnorm generalizing st with
  | nil =>
      obtain rfl := Option.some.inj hscan
      exact ⟨Scans.refl X args st, nofun⟩
  | cons he _ ih =>
      rw [List.foldlM_cons] at hscan
      obtain ⟨st₁, hhead, htail⟩ := Option.bind_eq_some_iff.mp hscan
      have hfinds := hl _ List.mem_cons_self _ _ _ he hhead
      obtain ⟨hscans, hall⟩ := ih (fun e he => hl e (List.mem_cons_of_mem _ he)) htail
      use hfinds.scans.trans hscans
      intro e he
      rcases List.mem_cons.mp he with rfl | he
      · apply hfinds.mono hscans
      · have h := hall e he
        exact ⟨hfinds.scans.trans h.scans, h.cache, h.positive⟩

/-- What is found in a conjunction or disjunction. -/
theorem finds_app {l : List Expr} (ho : ¬ isComparison o) (hfunc : ∀ g, o ≠ .func g)
    (hpos : ∀ (K : Set ℤ) (M : Model),
      (∀ e ∈ l, Positive K fun v => e.Holds (M.const fun _ => v)) →
        Positive K fun v => (Expr.app o l).Holds (M.const fun _ => v))
    (hl : ∀ e ∈ l, ∀ e' st st', normalizeExpr S fs e = some e' →
      scanExpr S fs e' st = some st' → Finds X args e st st')
    (hnorm : normalizeExpr S fs (.app o l) = some e') (hscan : scanExpr S fs e' st = some st') :
  Finds X args (.app o l) st st'
  := by
  rw [normalizeExpr, if_neg ho] at hnorm
  obtain ⟨l', hl', rfl⟩ := Option.map_eq_some_iff.mp hnorm
  rw [normalizeAll_eq, mapM_eq_some_iff] at hl'
  have hfold : l'.foldlM (fun st e => scanExpr S fs e st) st = some st' := by
    by_cases hne : l' = []
    · subst hne
      apply hscan
    · rwa [scanExpr_app hne, if_neg ho] at hscan
  obtain ⟨hscans, hall⟩ := finds_list hl hl' hfold
  refine ⟨hscans, ?_, ?_⟩
  · intro hne
    rw [ne_eq, calls_app_eq_nil hfunc] at hne
    push Not at hne
    obtain ⟨e, he, hcalls⟩ := hne
    apply (hall e he).cache hcalls
  · intro K M hK
    exact hpos K M fun e he => (hall e he).positive K M hK

/-- Scanning a regular constraint. -/
theorem Regular.finds (hS : S.Correct) (hfs : ∀ f ∈ fs, f.range = .int) (hf : f ∈ fs)
    (hargs : ∀ e ∈ args, e.calls = []) (hdomain : args.map Expr.sort = f.domain.map some)
    (h : Regular S fs f args e) (hs : e.sort = some .bool) (hX : ∀ x ∈ e.vars, x ∈ X)
    (hnorm : normalizeExpr S fs e = some e') (hscan : scanExpr S fs e' st = some st') :
  Finds X args e st st'
  := by
  induction h generalizing e' st st' with
  | @free e h =>
      rw [normalizeExpr_free hS h hnorm] at hscan
      rw [scanExpr_free h hscan]
      refine ⟨Scans.refl X args st, fun hne => absurd h hne, fun K M _ => ?_⟩
      refine (Positive.const (e.Holds M)).congr fun v => ?_
      rw [Expr.Holds, eval_const_of_calls_nil h]
      rfl
  | and _ ih =>
      refine finds_app Bool.false_ne_true (by simp) ?_ ?_ hnorm hscan
      · intro K M hK
        simp only [holds_and]
        apply Positive.forall_mem hK
      · intro e he e' st st'
        exact ih e he ((sort_and.mp hs).2 e he) fun x hx => hX x (mem_vars_app.mpr ⟨e, he, hx⟩)
  | or _ ih =>
      refine finds_app Bool.false_ne_true (by simp) ?_ ?_ hnorm hscan
      · intro K M hK
        simp only [holds_or]
        apply Positive.exists_mem hK
      · intro e he e' st st'
        exact ih e he ((sort_or.mp hs).2 e he) fun x hx => hX x (mem_vars_app.mpr ⟨e, he, hx⟩)
  | @comparison o o' l left right ho ho' hcalls hatom hleft hright =>
      rw [normalizeExpr, if_pos ho, hatom] at hnorm
      obtain rfl := Option.some.inj hnorm
      have hsright := sort_right (hfs f hf) hdomain hright
      obtain ⟨hsleft, hholds⟩ := holds_of_normalizeAtom hS hfs hs hatom ho' hsright
      obtain ⟨hsneg, hvneg⟩ := sort_neg_boundary hS (o := o') hsleft
      rw [scanExpr_comparison hf hargs ho' hleft hright hscan]
      have hv : ∀ (M : Model) (v : ℤ), left.intVal (M.const fun _ => v) = left.intVal M := by
        intro M v
        rw [Expr.intVal, eval_const_of_calls_nil hleft]
        rfl
      have hcall : ∀ (M : Model) (v : ℤ), (Expr.func f args).intVal (M.const fun _ => v) = v := by
        intro M v
        rw [Expr.intVal, eval_func_const (c := (f, args)) (hfs f hf)]
        rfl
      have hneg : ∀ (M : Model) (v : ℤ),
          (Expr.mul [.num (-1), .func f args]).intVal (M.const fun _ => v) = -v := by
        intro M v
        simp [hcall]
      refine ⟨⟨?_, ?_, Or.inr rfl⟩, fun _ => rfl, ?_⟩
      · exact fun c hc => List.mem_insert_of_mem hc
      · intro c hc hnot
        rcases List.mem_insert_iff.mp hc with rfl | hc
        · -- the left-hand side depends on what the comparison depends on
          have hdepends : ∀ M M' : Model, (∀ x ∈ X, M.value x = M'.value x) →
              left.intVal M = left.intVal M' := by
            intro M M' hvalues
            have hsame : ∀ v : ℤ, (Expr.app o l).Holds (M.const fun _ => v)
                ↔ (Expr.app o l).Holds (M'.const fun _ => v) := by
              intro v
              rw [Expr.Holds, Expr.Holds, eval_congr_calls (N := M'.const fun _ => v)]
              · exact fun x hx => hvalues x (hX x hx)
              · exact fun _ _ => rfl
            simp only [hholds, hv] at hsame
            apply compares_inj ho'
            rcases hright with rfl | rfl
            · simpa only [hcall] using hsame
            · simp only [hneg] at hsame
              intro v
              have h := hsame (-v)
              rwa [neg_neg] at h
          have hbound : ∀ M M' : Model, (∀ x ∈ X, M.value x = M'.value x) →
              (boundary o' left).intVal M = (boundary o' left).intVal M' := by
            intro M M' hvalues
            have h := hdepends M M' hvalues
            unfold boundary
            split
            · simp [h]
            · simp [h]
            · apply h
          unfold candidate
          split
          · exact ⟨sort_boundary hsleft, calls_boundary hleft, hbound⟩
          · refine ⟨hsneg, hS.simplify.calls (calls_neg_boundary hleft), ?_⟩
            intro M M' hvalues
            rw [hvneg, hvneg, hbound M M' hvalues]
        · apply absurd hc hnot
      · intro K M hK
        have hcand := hK _ List.mem_insert_self
        simp only [hholds, hv]
        rcases hright with rfl | rfl
        · simp only [hcall]
          rw [candidate, if_pos rfl] at hcand
          apply positive_compares ho' hcand
        · simp only [hneg]
          rw [candidate, if_neg (by simp), hvneg] at hcand
          apply positive_compares_neg ho' hcand

end Candidates

end Sygus.SSI
