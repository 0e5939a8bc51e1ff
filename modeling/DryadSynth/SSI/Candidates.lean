import DryadSynth.Library.LIA.Calls
import DryadSynth.Library.Boundary
import DryadSynth.Library.Lists

/-!
# Candidate values from comparisons

A constraint on one function is brought into a form without negations, and each comparison in it
into one with the call on the right-hand side.  The boundary values of the comparisons are the
candidates for the value of the function.
-/

namespace Sygus.SSI

open LIA Boundary Lists

/-- The simplifications of the solver, and the order in which a set of expressions is listed. -/
structure Simplifier where
  simplify : Expr → Expr
  /-- with the option `arith_lhs` -/
  arithLhs : Expr → Expr
  /-- the tactic for goals -/
  simp : Expr → Expr
  toArray : List Expr → List Expr

/-- A simplification preserves the meaning and makes no calls where there are none. -/
structure Simplifies (g : Expr → Expr) : Prop where
  preserves (e : Expr) : Preserves e (g e)
  calls {e : Expr} : e.calls = [] → (g e).calls = []

structure Simplifier.Correct (S : Simplifier) : Prop where
  simplify : Simplifies S.simplify
  arithLhs : Simplifies S.arithLhs
  simp : Simplifies S.simp
  toArray (l : List Expr) : (S.toArray l).Perm l

/-- The operator is a comparison. -/
def isComparison : Op → Bool
  | .ge | .gt | .le | .lt | .eq => true
  | _ => false

/-! ### Negations -/

section Negations

/-- Push in the negation of an expression.  An equation between formulas is cast to one between
arithmetic expressions, which fails. -/
def pushNot (push : Expr → Option Expr) : Expr → Option Expr
  | .not a => push a
  | .and l => push (.or (l.map .not))
  | .or l => push (.and (l.map .not))
  | .ge a b => push (.lt a b)
  | .gt a b => push (.le a b)
  | .lt a b => push (.ge a b)
  | .le a b => push (.gt a b)
  | .eq a b =>
      if a.sort = some .int ∧ b.sort = some .int then push (.or [.lt a b, .gt a b]) else none
  | inner => (push inner).bind fun p => push (.not p)

/-- Push in the negations of an expression, given how those of others are. -/
def pushStep (push : Expr → Option Expr) : Expr → Option Expr
  | .num k => some (.num k)
  | .var x => some (.var x)
  | .app o [] => some (.app o [])
  | .not inner => pushNot push inner
  | .implies a b => push (.or [.not a, b])
  | .ite c a b =>
      if (Expr.ite c a b).sort = some .bool then push (.and [.or [.not c, a], .or [c, b]])
      else ([c, a, b].mapM push).map (.app .ite)
  | .app o args => (args.mapM push).map (.app o)

/-- Push in the negations.  There is no result where the recursion does not end. -/
def pushInNots : ℕ → Expr → Option Expr
  | 0, _ => none
  | n + 1, expr => pushStep (pushInNots n) expr

variable {push : Expr → Option Expr} {n : ℕ} {e e' : Expr}

theorem pushNot_preserves (hpush : ∀ e e', push e = some e' → Preserves e e')
    (h : pushNot push e = some e') :
  Preserves (.not e) e'
  := by
  revert h
  fun_cases pushNot push e with
  | case1 a => exact fun h => Preserves.not_not.trans (hpush _ _ h)
  | case2 l => exact fun h => Preserves.not_and.trans (hpush _ _ h)
  | case3 l => exact fun h => Preserves.not_or.trans (hpush _ _ h)
  | case4 a b => exact fun h => Preserves.not_ge.trans (hpush _ _ h)
  | case5 a b => exact fun h => Preserves.not_gt.trans (hpush _ _ h)
  | case6 a b => exact fun h => Preserves.not_lt.trans (hpush _ _ h)
  | case7 a b => exact fun h => Preserves.not_le.trans (hpush _ _ h)
  | case8 a b hab => exact fun h => (Preserves.not_eq hab.1).trans (hpush _ _ h)
  | case9 a b hab => exact nofun
  | case10 inner =>
      intro h
      obtain ⟨p, hp, h⟩ := Option.bind_eq_some_iff.mp h
      apply (hpush _ _ hp).not.trans (hpush _ _ h)

theorem pushStep_preserves (hpush : ∀ e e', push e = some e' → Preserves e e')
    (h : pushStep push e = some e') :
  Preserves e e'
  := by
  have hargs : ∀ {o : Op} {args : List Expr},
      (args.mapM push).map (Expr.app o) = some e' → Preserves (.app o args) e' := by
    intro o args h
    obtain ⟨args', hargs', rfl⟩ := Option.map_eq_some_iff.mp h
    rw [mapM_eq_some_iff] at hargs'
    apply Preserves.app o (hargs'.imp hpush)
  revert h
  fun_cases pushStep push e with
  | case1 k => exact fun h => Option.some.inj h ▸ Preserves.refl _
  | case2 x => exact fun h => Option.some.inj h ▸ Preserves.refl _
  | case3 o => exact fun h => Option.some.inj h ▸ Preserves.refl _
  | case4 inner => exact pushNot_preserves hpush
  | case5 a b => exact fun h => Preserves.implies.trans (hpush _ _ h)
  | case6 c a b hbool =>
      have ha : a.sort = some .bool := (sort_ite.mp hbool).2.1
      exact fun h => (Preserves.ite ha).trans (hpush _ _ h)
  | case7 c a b hbool => exact hargs
  | case8 o args => exact hargs

theorem pushInNots_preserves (h : pushInNots n e = some e') :
  Preserves e e'
  := by
  induction n generalizing e e' with
  | zero => cases h
  | succ n ih => exact pushStep_preserves (fun _ _ => ih) h

end Negations

/-! ### Comparisons with calls of other functions -/

section Kill

variable (names : List String) (name : String)

mutual

/-- The expression mentions one of the functions of `names` other than the current one. -/
def hasNonCurrent : Expr → Bool
  | .num _ => false
  | .var x => x.name ∈ names && x.name ≠ name
  | .app (.func f) args => (f.name ∈ names && f.name ≠ name) || anyNonCurrent args
  | .app _ args => anyNonCurrent args

def anyNonCurrent : List Expr → Bool
  | [] => false
  | e :: l => hasNonCurrent e || anyNonCurrent l

end

mutual

/-- Replace the comparisons with calls of functions other than the current one by `true`. -/
def killNonCurrent : Expr → Option Expr
  | .num _ => none
  | .var _ => none
  | .app o args =>
      match o with
      | .and => (killAll args).map .and
      | .or => (killAll args).map .or
      | o =>
          if isComparison o then
            if hasNonCurrent names name (.app o args) then some .tru else some (.app o args)
          else none

def killAll : List Expr → Option (List Expr)
  | [] => some []
  | e :: l => do
      let e' ← killNonCurrent e
      let l' ← killAll l
      return e' :: l'

end

end Kill

/-! ### Normalization -/

section Normalize

variable (S : Simplifier) (fs : List FuncDecl)

/-- The expression is a call of one of the functions. -/
def isFunc : Expr → Bool
  | .func f _ => f ∈ fs
  | _ => false

/-- The summand is a call or has one as its second factor. -/
def isFuncTerm : Expr → Option Bool
  | .mul (_ :: inner :: _) => some (isFunc fs inner)
  | .mul _ => none
  | expr => some (isFunc fs expr)

/-- Look at one summand: there may be one call only. -/
def splitStep (terms : Option Expr × List Expr) (expr : Expr) :
    Option (Option Expr × List Expr) :=
  match isFuncTerm fs expr with
  | none => none
  | some false => some (terms.1, terms.2 ++ [expr])
  | some true =>
      match terms.1 with
      | none => some (some expr, terms.2)
      | some _ => none

/-- The call among the summands and the remaining summands. -/
def splitTerms (leftArgs : List Expr) : Option (Option Expr × List Expr) :=
  leftArgs.foldlM (splitStep fs) (none, [])

/-- The summands of an expression. -/
def summands : Expr → List Expr
  | .add l => l
  | expr => [expr]

/-- Move the call in a comparison to the right-hand side and all the rest to the left. -/
def normalizeAtom (orig : Expr) : Option Expr :=
  match S.arithLhs orig with
  | .app o (left :: right :: rest) =>
      match splitTerms fs (summands left) with
      | none => none
      | some (none, _) => some orig
      | some (some funcTerm, remainingTerms) =>
          -- the update needs two arguments
          if rest = [] then
            some (.app o [S.simplify (.add (remainingTerms ++ [.mul [.num (-1), right]])),
              S.simplify (.mul [.num (-1), funcTerm])])
          else none
  | _ => none

mutual

/-- Normalize all comparisons. -/
def normalizeExpr : Expr → Option Expr
  | .num n => some (.num n)
  | .var x => some (.var x)
  | .app o args =>
      if isComparison o then normalizeAtom S fs (.app o args)
      else (normalizeAll args).map (.app o)

def normalizeAll : List Expr → Option (List Expr)
  | [] => some []
  | e :: l => do
      let e' ← normalizeExpr e
      let l' ← normalizeAll l
      return e' :: l'

end

end Normalize

/-! ### Candidates -/

section Scan

variable (S : Simplifier) (fs : List FuncDecl)

/-- The expressions a function is compared with, and the arguments of the last call seen. -/
structure ScanState where
  compared : List Expr
  callCache : List Expr

/-- The boundary value of a comparison with `left` on the left-hand side. -/
def boundary (o : Op) (left : Expr) : Expr :=
  match o with
  | .gt => .sub [left, .num 1]
  | .lt => .add [left, .num 1]
  | _ => left

/-- The arguments of an application. -/
def getArgs : Expr → List Expr
  | .app _ args => args
  | _ => []

def ScanState.add (st : ScanState) (cand call : Expr) : ScanState :=
  ⟨st.compared.insert cand, getArgs call⟩

/-- Scan a comparison. -/
def scanAtom (o : Op) (args : List Expr) (st : ScanState) : Option ScanState :=
  match args with
  | left :: right :: _ =>
      if isFunc fs right then some (st.add (boundary o left) right)
      else
        match right with
        | .mul (coeff :: inner :: _) =>
            if isFunc fs inner then
              if coeff = .num (-1) then
                some (st.add (S.simplify (.mul [.num (-1), boundary o left])) inner)
              else none
            else some st
        | .mul _ => none
        | _ => some st
  | _ => none

mutual

/-- Scan all comparisons, those in the arguments of others included. -/
def scanExpr : Expr → ScanState → Option ScanState
  | .num _, st => some st
  | .var _, st => some st
  | .app _ [], st => some st
  | .app o (e :: l), st => do
      let st ← if isComparison o then scanAtom S fs o (e :: l) st else some st
      let st ← scanExpr e st
      scanAll l st

def scanAll : List Expr → ScanState → Option ScanState
  | [], st => some st
  | e :: l, st => do
      let st ← scanExpr e st
      scanAll l st

end

end Scan

/-! ### What the comparisons mean -/

/-- The comparison of two integers. -/
def Compares : Op → ℤ → ℤ → Prop
  | .ge, m, n => n ≤ m
  | .gt, m, n => n < m
  | .le, m, n => m ≤ n
  | .lt, m, n => m < n
  | _, m, n => m = n

section Comparisons

variable {S : Simplifier} {fs : List FuncDecl} {o : Op} {a b e e' left right : Expr} {M : Model}
variable {l : List Expr} {K : Set ℤ}

theorem calls_app_eq_nil (ho : ∀ f, o ≠ .func f) :
  (Expr.app o l).calls = [] ↔ ∀ e ∈ l, e.calls = []
  := by
  simp only [List.eq_nil_iff_forall_not_mem, mem_calls_app, not_or, not_exists, not_and]
  constructor
  · intro h e he c hc
    apply (h c).2 e he hc
  · intro h c
    exact ⟨fun f hf => absurd hf (ho f), fun e he hc => h e he c hc⟩

theorem isFunc_iff :
  isFunc fs e = true ↔ ∃ f ∈ fs, ∃ args, e = .func f args
  := by
  constructor
  · intro h
    unfold isFunc at h
    split at h
    · next f args => exact ⟨f, of_decide_eq_true h, args, rfl⟩
    · cases h
  · rintro ⟨f, hf, args, rfl⟩
    apply decide_eq_true hf

theorem isFunc_of_calls_eq_nil (h : e.calls = []) :
  isFunc fs e = false
  := by
  rw [← Bool.not_eq_true, isFunc_iff]
  rintro ⟨f, -, args, rfl⟩
  cases h

theorem holds_comparison (ho : isComparison o) (ha : a.sort = some .int)
    (hb : b.sort = some .int) :
  (Expr.app o [a, b]).Holds M ↔ Compares o (a.intVal M) (b.intVal M)
  := by
  cases o with
  | ge => exact holds_ge a b
  | gt => exact holds_gt a b
  | le => exact holds_le a b
  | lt => exact holds_lt a b
  | eq => exact holds_eq_of_int ha hb
  | _ => cases ho

/-- The sides of a comparison have one sort. -/
theorem sort_comparison (ho : isComparison o) (hs : (Expr.app o [a, b]).sort = some .bool) :
  ∃ t, a.sort = some t ∧ b.sort = some t
  := by
  cases o with
  | ge => exact ⟨.int, (sort_ge.mp hs).2⟩
  | gt => exact ⟨.int, (sort_gt.mp hs).2⟩
  | le => exact ⟨.int, (sort_le.mp hs).2⟩
  | lt => exact ⟨.int, (sort_lt.mp hs).2⟩
  | eq => exact (sort_eq.mp hs).2
  | _ => cases ho

/-- A comparison with the value on the right has its boundary among the boundary values. -/
theorem positive_compares (ho : isComparison o) (ht : (boundary o left).intVal M ∈ K) :
  Positive K fun v => Compares o (left.intVal M) v
  := by
  cases o with
  | ge => exact Positive.le ht
  | gt =>
      refine (Positive.le ht).congr fun v => ?_
      simp only [Compares, boundary, intVal_sub, intVal_num]
      omega
  | le => exact Positive.ge ht
  | lt =>
      refine (Positive.ge ht).congr fun v => ?_
      simp only [Compares, boundary, intVal_add, List.map_cons, List.map_nil, List.sum_cons,
        List.sum_nil, intVal_num]
      omega
  | eq => exact (Positive.eq ht).congr fun v => eq_comm
  | _ => cases ho

/-- A comparison with the negated value on the right has the negated boundary. -/
theorem positive_compares_neg (ho : isComparison o) (ht : -(boundary o left).intVal M ∈ K) :
  Positive K fun v => Compares o (left.intVal M) (-v)
  := by
  cases o with
  | ge =>
      refine (Positive.ge ht).congr fun v => ?_
      simp only [Compares, boundary]
      omega
  | gt =>
      refine (Positive.ge ht).congr fun v => ?_
      simp only [Compares, boundary, intVal_sub, intVal_num]
      omega
  | le =>
      refine (Positive.le ht).congr fun v => ?_
      simp only [Compares, boundary]
      omega
  | lt =>
      refine (Positive.le ht).congr fun v => ?_
      simp only [Compares, boundary, intVal_add, List.map_cons, List.map_nil, List.sum_cons,
        List.sum_nil, intVal_num]
      omega
  | eq =>
      refine (Positive.eq ht).congr fun v => ?_
      simp only [Compares, boundary]
      omega
  | _ => cases ho

/-! ### What normalization does -/

/-- A call among the summands and the remaining summands. -/
structure Splits (fs : List FuncDecl) (l : List Expr) (terms : Option Expr × List Expr) :
    Prop where
  mem : ∀ e ∈ terms.1.toList ++ terms.2, e ∈ l
  sum (M : Model) : (l.map (Expr.intVal M)).sum
    = ((terms.1.toList ++ terms.2).map (Expr.intVal M)).sum
  call : ∀ e ∈ terms.1, isFuncTerm fs e = some true

theorem splits_foldlM {terms terms' : Option Expr × List Expr} {l' : List Expr}
    (h : Splits fs l terms) (hfold : l'.foldlM (splitStep fs) terms = some terms') :
  Splits fs (l ++ l') terms'
  := by
  induction l' generalizing l terms with
  | nil =>
      obtain rfl := Option.some.inj hfold
      rwa [List.append_nil]
  | cons e l' ih =>
      rw [List.foldlM_cons] at hfold
      obtain ⟨terms'', hstep, hfold⟩ := Option.bind_eq_some_iff.mp hfold
      have hnext : Splits fs (l ++ [e]) terms'' := by
        rw [splitStep] at hstep
        split at hstep
        · cases hstep
        · obtain rfl := Option.some.inj hstep
          constructor
          · intro e' he'
            rw [← List.append_assoc, List.mem_append, List.mem_singleton] at he'
            rcases he' with he' | rfl
            · apply List.mem_append_left _ (h.mem e' he')
            · apply List.mem_append_right _ List.mem_cons_self
          · intro M
            have hsum := h.sum M
            simp only [List.map_append, List.sum_append] at hsum ⊢
            rw [hsum, add_assoc]
          · apply h.call
        · next hcall =>
            split at hstep
            · next hnone =>
                obtain rfl := Option.some.inj hstep
                constructor
                · intro e' he'
                  rcases List.mem_cons.mp he' with rfl | he'
                  · apply List.mem_append_right _ List.mem_cons_self
                  · apply List.mem_append_left _ (h.mem e' _)
                    apply List.mem_append_right _ he'
                · intro M
                  have hsum := h.sum M
                  rw [hnone] at hsum
                  rw [List.map_append, List.sum_append, hsum, add_comm]
                  simp
                · intro e' he'
                  obtain rfl := Option.some.inj he'
                  apply hcall
            · cases hstep
      have hl := ih hnext hfold
      rwa [List.append_assoc, List.singleton_append] at hl

theorem splits_splitTerms {terms : Option Expr × List Expr} (h : splitTerms fs l = some terms) :
  Splits fs l terms
  := by
  have hnil : Splits fs [] (none, []) := ⟨nofun, fun _ => rfl, nofun⟩
  apply splits_foldlM hnil h

theorem intVal_summands (hs : e.sort = some .int) :
  e.intVal M = ((summands e).map (Expr.intVal M)).sum
  := by
  unfold summands
  split
  · apply intVal_add _
  · simp

theorem sort_summands (hs : e.sort = some .int) :
  ∀ e' ∈ summands e, e'.sort = some .int
  := by
  unfold summands
  split
  · apply (sort_add.mp hs).2
  · intro e' he'
    rw [List.mem_singleton.mp he']
    apply hs

/-- What a normalized comparison can be: the same one, or the one that the solver simplifies it
to with the call moved to the right-hand side. -/
theorem normalizeAtom_cases (h : normalizeAtom S fs e = some e') :
  e' = e ∨ ∃ o left right funcTerm remainingTerms, S.arithLhs e = .app o [left, right] ∧
    splitTerms fs (summands left) = some (some funcTerm, remainingTerms) ∧
    e' = .app o [S.simplify (.add (remainingTerms ++ [.mul [.num (-1), right]])),
      S.simplify (.mul [.num (-1), funcTerm])]
  := by
  rw [normalizeAtom] at h
  split at h
  · next o left right rest harith =>
      split at h
      · cases h
      · apply Or.inl (Option.some.inj h).symm
      · next funcTerm remainingTerms hsplit =>
          split at h
          · next hrest =>
              subst hrest
              exact Or.inr ⟨o, left, right, funcTerm, remainingTerms, harith, hsplit,
                (Option.some.inj h).symm⟩
          · cases h
  · cases h

/-- A call or a product is an integer. -/
theorem sort_of_isFuncTerm (hfs : ∀ f ∈ fs, f.range = .int) (h : isFuncTerm fs e = some true)
    {t : Srt} (hs : e.sort = some t) :
  t = .int
  := by
  unfold isFuncTerm at h
  split at h
  · apply (sort_mul.mp hs).1
  · cases h
  · obtain ⟨f, hf, args, rfl⟩ := isFunc_iff.mp (Option.some.inj h)
    rw [(sort_func.mp hs).1, hfs f hf]

/-- A comparison that is normalized to one of two integers means what that one does. -/
theorem holds_of_normalizeAtom (hS : S.Correct) (hfs : ∀ f ∈ fs, f.range = .int)
    (hs : e.sort = some .bool) (h : normalizeAtom S fs e = some (.app o [left, right]))
    (ho : isComparison o) (hright : right.sort = some .int) :
  left.sort = some .int ∧ ∀ M, e.Holds M ↔ Compares o (left.intVal M) (right.intVal M)
  := by
  rcases normalizeAtom_cases h with heq | ⟨o', a, b, funcTerm, rem, harith, hsplit, heq⟩
  · rw [← heq] at hs ⊢
    obtain ⟨t, ha, hb⟩ := sort_comparison ho hs
    obtain rfl : t = .int := Option.some.inj (hb.symm.trans hright)
    exact ⟨ha, fun M => holds_comparison ho ha hb⟩
  · obtain ⟨rfl, rfl, rfl⟩ : o = o' ∧ left = _ ∧ right = _ := by simpa using heq
    obtain ⟨hs', heval⟩ := hS.arithLhs.preserves e _ hs
    rw [harith] at hs' heval
    obtain ⟨t, ha, hb⟩ := sort_comparison ho hs'
    have hsplits := splits_splitTerms hsplit
    have hterm : isFuncTerm fs funcTerm = some true := hsplits.call funcTerm rfl
    -- the side with the call is an integer, so that both are
    have hint : t = .int := by
      unfold summands at hsplits
      split at hsplits
      · apply (sort_add.mp ha).1
      · have hmem := hsplits.mem funcTerm List.mem_cons_self
        rw [List.mem_singleton.mp hmem] at hterm
        apply sort_of_isFuncTerm hfs hterm ha
    rw [hint] at ha hb
    have hsort : ∀ e' ∈ funcTerm :: rem, e'.sort = some .int :=
      fun e' he' => sort_summands ha e' (hsplits.mem e' he')
    have hneg : (Expr.mul [.num (-1), funcTerm]).sort = some .int := by
      simp [hsort funcTerm List.mem_cons_self]
    have hrest : (Expr.add (rem ++ [.mul [.num (-1), b]])).sort = some .int := by
      rw [sort_add]
      refine ⟨rfl, fun e' he' => ?_⟩
      rcases List.mem_append.mp he' with he' | he'
      · apply hsort e' (List.mem_cons_of_mem _ he')
      · rw [List.mem_singleton.mp he']
        simp [hb]
    obtain ⟨hsrest, hvrest⟩ := hS.simplify.preserves _ _ hrest
    obtain ⟨hsneg, hvneg⟩ := hS.simplify.preserves _ _ hneg
    use hsrest
    intro M
    have hsum : a.intVal M = funcTerm.intVal M + (rem.map (Expr.intVal M)).sum := by
      rw [intVal_summands ha, hsplits.sum M]
      rfl
    have hl : (S.simplify (.add (rem ++ [.mul [.num (-1), b]]))).intVal M
        = (rem.map (Expr.intVal M)).sum - b.intVal M := by
      rw [Expr.intVal, hvrest]
      change (Expr.add _).intVal M = _
      rw [intVal_add, List.map_append, List.sum_append]
      simp [sub_eq_add_neg]
    have hr : (S.simplify (.mul [.num (-1), funcTerm])).intVal M = -funcTerm.intVal M := by
      rw [Expr.intVal, hvneg]
      change (Expr.mul _).intVal M = _
      simp
    rw [Expr.Holds, ← heval, hl, hr]
    change (Expr.app o [a, b]).Holds M ↔ _
    rw [holds_comparison ho ha hb, hsum]
    cases o with
    | ge =>
        simp only [Compares]
        omega
    | gt =>
        simp only [Compares]
        omega
    | le =>
        simp only [Compares]
        omega
    | lt =>
        simp only [Compares]
        omega
    | eq =>
        simp only [Compares]
        omega
    | _ => cases ho

/-- A comparison with all integers determines the other side. -/
theorem compares_inj {m n : ℤ} (ho : isComparison o) (h : ∀ v, Compares o m v ↔ Compares o n v) :
  m = n
  := by
  cases o with
  | ge => exact le_antisymm ((h m).mp (le_refl m)) ((h n).mpr (le_refl n))
  | le => exact le_antisymm ((h n).mpr (le_refl n)) ((h m).mp (le_refl m))
  | gt =>
      have hm : m - 1 < n := (h (m - 1)).mp (Int.sub_one_lt_of_le (le_refl m))
      have hn : n - 1 < m := (h (n - 1)).mpr (Int.sub_one_lt_of_le (le_refl n))
      omega
  | lt =>
      have hm : n < m + 1 := (h (m + 1)).mp (Int.lt_add_one_of_le (le_refl m))
      have hn : m < n + 1 := (h (n + 1)).mpr (Int.lt_add_one_of_le (le_refl n))
      omega
  | eq => exact ((h m).mp rfl).symm
  | _ => cases ho

end Comparisons

end Sygus.SSI
