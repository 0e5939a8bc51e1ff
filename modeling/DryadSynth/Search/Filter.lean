import DryadSynth.Deductive.Combine
import DryadSynth.Enumerate.Built
import DryadSynth.Library.Keeping
import DryadSynth.Search.SearchSound

/-!
# The filter of an enumeration

`FilterState::filter` of `search/filter.rs`, the closure that `SampleConfig::search_inner` calls the
enumerators with.  It hands expressions to `add_solution`: those that the enumerator found, and what
the deductive rules make of them.  The other thread of the search may do anything between two calls
of `add_solution`; what it does, the clock and the counters of the enumerators with a bounded memory
are parameters.
-/

namespace DryadSynth

variable {N : ℕ}

/-! ### The state -/

/-- `FilterConfig`, without the time limit. -/
structure FilterConfig where
  stopAtNewSol : Bool
  countLimit : ℕ
  countLimitSolved : ℕ
  deductiveCombine : Bool
  deductiveReverse : Bool

/-- `usize::MAX`. -/
def usizeMax : ℕ := 2 ^ 64 - 1

/-- `FilterConfig::expr_default`. -/
def FilterConfig.exprDefault : FilterConfig where
  stopAtNewSol := true
  countLimit := usizeMax
  countLimitSolved := 100000
  deductiveCombine := true
  deductiveReverse := true

/-- `FilterState`. -/
structure FilterState (N : ℕ) where
  stopAtNewSol : Bool
  countLimit : ℕ
  countLimitSolved : ℕ
  combRules : Option (CombineRules N)
  reverseRules : Option ReverseRule
  output : Bv N
  solved : Bool
  partialSolution : Bool

/-- `FilterConfig::state`. -/
def FilterConfig.state (cfg : FilterConfig) (out : Bv N) (partialSolution : Bool) :
    FilterState N where
  stopAtNewSol := cfg.stopAtNewSol
  countLimit := cfg.countLimit
  countLimitSolved := cfg.countLimitSolved
  combRules := if cfg.deductiveCombine then some (CombineRules.new out) else none
  reverseRules := if cfg.deductiveReverse then some ReverseRule.new else none
  output := out
  solved := false
  partialSolution := partialSolution

/-- The thread of the expressions and the thread of the conditions. -/
inductive Thread where
  | exprs
  | conds
  deriving DecidableEq

namespace SearchRun

/-- The solutions of a thread. -/
def solutions (thread : Thread) (s : SearchRun) : Solutions :=
  match thread with
  | .exprs => s.exprs
  | .conds => s.conds

/-- The state after a number of events of the other thread.  A panic ends that thread only. -/
def afterAll (env : Environ) (guide : Guide) (s : SearchRun) (l : List SearchEvent) : SearchRun :=
  l.foldl (fun s event => Machine.final (s.step env guide event)) s

theorem afterAll_of {env : Environ} {guide : Guide} {K : SearchRun → Prop} {s : SearchRun}
    (hs : K s) {l : List SearchEvent}
    (hl : ∀ event ∈ l, ∀ s, K s → K (Machine.final (s.step env guide event))) :
  K (s.afterAll env guide l)
  := by
  apply List.foldlRecOn l _ hs
  intro s hs event hevent
  apply hl event hevent s hs

/-- A call of `add_solution` by a thread, with what it returns. -/
def add (env : Environ) (guide : Guide) (thread : Thread) (s : SearchRun) (sol : Expr) :
    Except Fault (SearchRun × Bool) :=
  match thread with
  | .exprs => do
      let (exprs, cond, b) ← s.exprs.addSolution env guide s.cond sol
      .ok ({ s with exprs, cond }, b)
  | .conds => do
      let (conds, cond, b) ← s.conds.addSolution env guide s.cond sol
      .ok ({ s with conds, cond }, b)

end SearchRun

/-- What a thread does not decide itself: what the other thread does before its next call of
`add_solution`, whether the time limit has passed at a call of the filter, and the counter of an
enumerator with a bounded memory there.  The calls are numbered. -/
structure Outside where
  others : ℕ → List SearchEvent
  late : ℕ → Bool
  count : ℕ → ℕ

/-- What a thread has done: the state of the search, the expressions it has handed to
`add_solution`, the operators that its deductive rules have put on top of expressions, and the
number of calls of its filters. -/
structure Progress where
  search : SearchRun
  handed : List Expr
  composed : List BinOp
  filtered : ℕ

/-- The operator at the top of an expression. -/
def ExprIn.top : Expr → List BinOp
  | .bin o _ _ => [o]
  | _ => []

namespace CombineRules

/-- One step of the loop of `collect_expr`, with the operators instead of the expression. -/
def collectedStep : List BinOp × Bv N → SubExpr N → List BinOp × Bv N
  | (ops, value), .and _ first =>
      if value.and first ≠ value then (.and :: ops, value.and first) else (ops, value)
  | (ops, value), .or _ first =>
      if value.or first ≠ value then (.or :: ops, value.or first) else (ops, value)

/-- The operators that `collect_expr` puts on top of an expression. -/
def collected (c : CombineRules N) (value : Bv N) : List BinOp :=
  (c.subexprs.reverse.foldl collectedStep ([], value)).1

end CombineRules

/-- An enumerator that is only asked for its map. -/
def Algo.ofMap (map : List (Bv N × Option Expr)) : Algo N := ⟨[], [], map, [], false, 0⟩

section Hand

variable (env : Environ) (guide : Guide) (outside : Outside) (thread : Thread)

/-- A call of `add_solution`, with the operators that were put on top of the expression.  A panic
ends the thread. -/
def Progress.hand (sol : Expr) (ops : List BinOp) : ExceptT Unit (StateM Progress) Bool :=
  fun u =>
    let search := u.search.afterAll env guide (outside.others u.handed.length)
    let u := { u with search, handed := sol :: u.handed, composed := ops ++ u.composed }
    match search.add env guide thread sol with
    | .ok (search, b) => (.ok b, { u with search })
    | .error _ => (.error (), u)

namespace FilterState

/-- What the filter does with its state and the progress of the thread. -/
abbrev FilterM (N : ℕ) (α : Type) : Type := ExceptT Unit (StateM (FilterState N × Progress)) α

/-- `if sol.add_solution(e) { if self.stop_at_new_sol { return Err(()); } }`, with what
`add_solution` returns. -/
def accept (sol : Expr) (ops : List BinOp) : FilterM N Bool :=
  fun s =>
    match Progress.hand env guide outside thread sol ops s.2 with
    | (.ok b, u) => if b && s.1.stopAtNewSol then (.error (), (s.1, u)) else (.ok b, (s.1, u))
    | (.error (), u) => (.error (), (s.1, u))

/-- `self.solved = true`. -/
def solve : FilterM N Unit := modify fun s => ({ s.1 with solved := true }, s.2)

variable (e : Expr) (v : Bv N)

/-- The part of `filter` for partial solutions. -/
def onPartial : FilterM N Unit := do
  let s ← get
  let b ← accept env guide outside thread e []
  if !b && decide (v = s.1.output) then solve else pure ()

/-- The first call of `add_solution` for whole solutions. -/
def acceptEarly (count : ℕ) : FilterM N Bool :=
  if count < 1000 then accept env guide outside thread e [] else pure false

/-- The part of `filter` for whole solutions. -/
def onWhole (count : ℕ) : FilterM N Unit := do
  let s ← get
  let _ ← acceptEarly env guide outside thread e count
  if v = s.1.output then do
    let _ ← accept env guide outside thread e []
    solve
  else pure ()

/-- The part of `filter` for an expression that has the output on some lane. -/
def onOutput (count : ℕ) : FilterM N Unit := do
  let s ← get
  if v.anyEq s.1.output then
    if s.1.partialSolution then onPartial env guide outside thread e v
    else onWhole env guide outside thread e v count
  else pure ()

/-- The part of `filter` for the rules for `and` and `or`. -/
def onCombine : FilterM N Unit :=
  fun s =>
    match s.1.combRules with
    | none => (.ok (), s)
    | some c =>
        match c.test env (s.2.search.solutions thread).pbecstr e v with
        | .error _ => (.error (), s)
        | .ok (c, none) => (.ok (), ({ s.1 with combRules := some c }, s.2))
        | .ok (c, some e') =>
            (accept env guide outside thread e' (c.collected v) >>= fun _ => solve)
              ({ s.1 with combRules := some c }, s.2)

/-- The part of `filter` for the reverse lookup. -/
def onReverse (map : List (Bv N × Option Expr)) : FilterM N Unit :=
  fun s =>
    match s.1.reverseRules with
    | none => (.ok (), s)
    | some r =>
        match r.reverse (Algo.ofMap map) e v s.1.output with
        | none => (.ok (), s)
        | some e' => (accept env guide outside thread e' e'.top >>= fun _ => solve) s

/-- The part of `filter` for the limits. -/
def onLimits (count : ℕ) : FilterM N Unit :=
  fun s =>
    let s' := (s.1, { s.2 with filtered := s.2.filtered + 1 })
    if count % 10000 = 0 ∧ outside.late s.2.filtered = true then (.error (), s')
    else if count > s.1.countLimit ∨ s.1.solved = true ∧ count > s.1.countLimitSolved then
      (.error (), s')
    else (.ok (), s')

/-- `FilterState::filter`, for an enumerator with a map and a counter. -/
def filter (map : List (Bv N × Option Expr)) (count : ℕ) : FilterM N Unit := do
  onOutput env guide outside thread e v count
  onCombine env guide outside thread e v
  onReverse env guide outside thread e v map
  onLimits outside count

/-- The closure for the enumerator that stores everything. -/
def closure : Callback (FilterState N × Progress) N :=
  fun algo e v => filter env guide outside thread e v algo.map algo.count

/-- The closure for an enumerator with a bounded memory. -/
def boundedClosure {κ : Type} : Filter κ (FilterState N × Progress) N :=
  fun b e v => do
    let s ← get
    filter env guide outside thread e v b.map (outside.count s.2.filtered)

end FilterState

end Hand

/-! ### A sample -/

/-- `SampleConfig`, without what decides the sample. -/
structure SampleConfig where
  partialSolution : Bool
  dagSize : Bool
  atomDiversityOrder : Bool
  atomShift : Bool
  filter : FilterConfig
  memSizeLimit : ℕ

/-- `SampleConfig::expr_default`. -/
def SampleConfig.exprDefault : SampleConfig where
  partialSolution := true
  dagSize := true
  atomDiversityOrder := false
  atomShift := true
  filter := .exprDefault
  memSizeLimit := usizeMax

namespace SampleConfig

/-- What `search_inner` does on a sample, up to some point: the progress of the thread before and
after. -/
inductive Searches (env : Environ) (guide : Guide) (outside : Outside) (thread : Thread)
    (problem : SynthProblem) (cfg : SampleConfig) : Progress → Progress → Prop
  | algo {N config u} {args : List (Bv N)} {out : Bv N} {s : Run (FilterState N × Progress) N}
      (hconfig : Config.fromProblem env problem = .ok config)
      (hlimit : cfg.memSizeLimit = usizeMax)
      (h : Run.Reachable env (FilterState.closure env guide outside thread)
        (Algo.new config args out cfg.dagSize) (cfg.filter.state out cfg.partialSolution, u) s) :
      Searches env guide outside thread problem cfg u s.user.2
  | algo2 {N config u k} {args : List (Bv N)} {out : Bv N}
      {s : Visit ℕ (FilterState N × Progress) N}
      (hconfig : Config.fromProblem env problem = .ok config)
      (hlimit : cfg.memSizeLimit ≠ usizeMax) (horder : cfg.atomDiversityOrder = false)
      (h : Visit.Reaches ((Algo2.new config args cfg.dagSize cfg.memSizeLimit).enumerator env)
        (FilterState.boundedClosure env guide outside thread)
        (Visit.start (Algo2.bank out) (cfg.filter.state out cfg.partialSolution, u))
        (List.range' 1 k) s) :
      Searches env guide outside thread problem cfg u s.user.2
  | diversity {N config u k d fuel ps} {args : List (Bv N)} {out : Bv N} {algo : DiversityAlgo N}
      {s : Visit Place (FilterState N × Progress) N}
      (hconfig : Config.fromProblem env problem = .ok config)
      (hlimit : cfg.memSizeLimit ≠ usizeMax) (horder : cfg.atomDiversityOrder = true)
      (hd : d = if cfg.atomShift then Diversity.algo4 else Diversity.algo3)
      (halgo : DiversityAlgo.new config args cfg.dagSize cfg.memSizeLimit = .ok algo)
      (hps : algo.placesBelow d fuel k = .ok ps)
      (h : Visit.Reaches (algo.enumerator env d fuel)
        (FilterState.boundedClosure env guide outside thread)
        (Visit.start (DiversityAlgo.bank out) (cfg.filter.state out cfg.partialSolution, u)) ps s) :
      Searches env guide outside thread problem cfg u s.user.2

end SampleConfig

/-! ### What is handed over -/

/-- The properties of a run of a filter: `P` of the expressions that are enumerated, `P'` of those
that are handed over, `G` of the operators that may be put on top of them, and `K` of the state of
the search, which the other thread and the calls of `add_solution` keep. -/
structure Handing (env : Environ) (guide : Guide) (outside : Outside) (thread : Thread)
    (P P' : Expr → Prop) (G : BinOp → Prop) (K : SearchRun → Prop) : Prop where
  weaken : ∀ e, P e → P' e
  bin : ∀ o, G o → ∀ e₁ e₂, P' e₁ → P' e₂ → P' (.bin o e₁ e₂)
  others : ∀ i, ∀ event ∈ outside.others i, ∀ s, K s → K (Machine.final (s.step env guide event))
  add : ∀ s sol s' b, K s → P' sol → s.add env guide thread sol = .ok (s', b) → K s'

/-- While only permitted operators have been put on top of expressions, what was handed over has its
property, and so has the state of the search. -/
def Progress.Good (P' : Expr → Prop) (G : BinOp → Prop) (K : SearchRun → Prop) (u : Progress) :
    Prop :=
  (∀ o ∈ u.composed, G o) → (∀ sol ∈ u.handed, P' sol) ∧ K u.search

section Keeps

variable {env : Environ} {guide : Guide} {outside : Outside} {thread : Thread}
variable {P P' : Expr → Prop} {G : BinOp → Prop} {K : SearchRun → Prop}
variable {u : Progress} {sol e : Expr} {ops : List BinOp} {v : Bv N}

open Keeping (Keeps)

theorem Progress.Good.hand (h : Handing env guide outside thread P P' G K) (hu : u.Good P' G K)
    (hsol : (∀ o ∈ ops, G o) → P' sol) :
  (Progress.hand env guide outside thread sol ops u).2.Good P' G K
  := by
  have hgood : ∀ s, (∀ o ∈ ops ++ u.composed, G o) → K s →
      (∀ sol' ∈ sol :: u.handed, P' sol') ∧ K s := by
    intro s hcomposed hs
    refine ⟨?_, hs⟩
    intro sol' hsol'
    rcases List.mem_cons.mp hsol' with rfl | hsol'
    · apply hsol fun o ho => hcomposed o (List.mem_append_left _ ho)
    · apply (hu fun o ho => hcomposed o (List.mem_append_right _ ho)).1 sol' hsol'
  have hsearch : (∀ o ∈ ops ++ u.composed, G o) →
      K (u.search.afterAll env guide (outside.others u.handed.length)) := by
    intro hcomposed
    apply SearchRun.afterAll_of _ (h.others _)
    apply (hu fun o ho => hcomposed o (List.mem_append_right _ ho)).2
  unfold Progress.hand
  simp only
  split
  · next search b hadd =>
      intro hcomposed
      apply hgood _ hcomposed
      apply h.add _ _ _ _ (hsearch hcomposed) _ hadd
      apply hsol fun o ho => hcomposed o (List.mem_append_left _ ho)
  · intro hcomposed
    apply hgood _ hcomposed (hsearch hcomposed)

namespace FilterState

/-- What holds of a filter and the progress of its thread. -/
def Good (P P' : Expr → Prop) (G : BinOp → Prop) (K : SearchRun → Prop)
    (s : FilterState N × Progress) : Prop :=
  (∀ c, s.1.combRules = some c → ∀ sub ∈ c.subexprs, P sub.expr) ∧ s.2.Good P' G K

theorem keeps_accept (h : Handing env guide outside thread P P' G K)
    (hsol : (∀ o ∈ ops, G o) → P' sol) :
  Keeps (Good P P' G K : FilterState N × Progress → Prop)
    (accept env guide outside thread sol ops)
  := by
  intro s hs
  have hhand := hs.2.hand h hsol
  unfold accept
  split
  · next b u hu =>
      rw [hu] at hhand
      split
      · exact ⟨hs.1, hhand⟩
      · exact ⟨hs.1, hhand⟩
  · next u hu =>
      rw [hu] at hhand
      exact ⟨hs.1, hhand⟩

theorem keeps_solve :
  Keeps (Good P P' G K : FilterState N × Progress → Prop) solve
  := Keeps.modify fun _ hs => hs

theorem keeps_acceptFound (h : Handing env guide outside thread P P' G K) (he : P e) :
  Keeps (Good P P' G K : FilterState N × Progress → Prop)
    (accept env guide outside thread e [])
  := keeps_accept h fun _ => h.weaken e he

theorem keeps_onPartial (h : Handing env guide outside thread P P' G K) (he : P e) :
  Keeps (Good P P' G K) (onPartial env guide outside thread e v)
  := by
  apply Keeps.get_bind
  intro s hs
  apply Keeps.bind (keeps_acceptFound h he) _ s hs
  intro b
  apply Keeps.ite keeps_solve (Keeps.pure ())

theorem keeps_onWhole (h : Handing env guide outside thread P P' G K) (he : P e) (count : ℕ) :
  Keeps (Good P P' G K) (onWhole env guide outside thread e v count)
  := by
  apply Keeps.get_bind
  intro s hs
  refine Keeps.bind ?_ ?_ s hs
  · apply Keeps.ite (keeps_acceptFound h he) (Keeps.pure false)
  · intro _
    refine Keeps.ite ?_ (Keeps.pure ())
    apply Keeps.bind (keeps_acceptFound h he)
    intro _
    apply keeps_solve

theorem keeps_onOutput (h : Handing env guide outside thread P P' G K) (he : P e) (count : ℕ) :
  Keeps (Good P P' G K) (onOutput env guide outside thread e v count)
  := by
  apply Keeps.get_bind
  intro s hs
  refine Keeps.ite ?_ (Keeps.pure ()) s hs
  apply Keeps.ite (keeps_onPartial h he) (keeps_onWhole h he count)

end FilterState

end Keeps

/-! ### The deductive rules -/

namespace CombineRules

variable {P' : Expr → Prop} {G : BinOp → Prop} {c c' : CombineRules N} {e e' : Expr} {v : Bv N}

theorem collectedStep_mono (p : List BinOp × Bv N) (sub : SubExpr N) :
  p.1 ⊆ (collectedStep p sub).1
  := by
  cases sub with
  | and e first =>
      simp only [collectedStep]
      split_ifs
      · apply List.subset_cons_self
      · apply List.Subset.refl
  | or e first =>
      simp only [collectedStep]
      split_ifs
      · apply List.subset_cons_self
      · apply List.Subset.refl

theorem collected_mono (l : List (SubExpr N)) (p : List BinOp × Bv N) :
  p.1 ⊆ (l.foldl collectedStep p).1
  := by
  induction l generalizing p with
  | nil => apply List.Subset.refl
  | cons sub l ih => exact List.Subset.trans (collectedStep_mono p sub) (ih _)

/-- What the loop of `collect_expr` builds with permitted operators. -/
theorem of_foldl_collectStep (hbin : ∀ o, G o → ∀ e₁ e₂, P' e₁ → P' e₂ → P' (.bin o e₁ e₂))
    {l : List (SubExpr N)} (hl : ∀ sub ∈ l, P' sub.expr) {ops : List BinOp} {value : Bv N}
    (hops : ∀ o ∈ (l.foldl collectedStep (ops, value)).1, G o) (he : P' e) (size : ℕ) :
  P' (l.foldl collectStep (e, value, size)).1
  := by
  induction l generalizing e ops value size with
  | nil => apply he
  | cons sub l ih =>
      have hrest : ∀ sub ∈ l, P' sub.expr := fun sub' h => hl sub' (List.mem_cons_of_mem _ h)
      have hsub : P' sub.expr := hl sub List.mem_cons_self
      rw [List.foldl_cons] at hops ⊢
      have hmono := collected_mono l (collectedStep (ops, value) sub)
      cases sub with
      | and e₁ first =>
          simp only [collectedStep, collectStep] at hops hmono ⊢
          split_ifs at hops hmono ⊢
          · apply ih hrest hops
            apply hbin .and (hops _ (hmono List.mem_cons_self)) _ _ hsub he
          · apply ih hrest hops he
      | or e₁ first =>
          simp only [collectedStep, collectStep] at hops hmono ⊢
          split_ifs at hops hmono ⊢
          · apply ih hrest hops
            apply hbin .or (hops _ (hmono List.mem_cons_self)) _ _ hsub he
          · apply ih hrest hops he

/-- The expression of `collect_expr`. -/
theorem of_collectExpr (hbin : ∀ o, G o → ∀ e₁ e₂, P' e₁ → P' e₂ → P' (.bin o e₁ e₂))
    (hsubs : ∀ sub ∈ c.subexprs, P' sub.expr) (hops : ∀ o ∈ c.collected v, G o) (he : P' e)
    {size : ℕ} (h : c.collectExpr e v = .ok (e', size)) :
  P' e'
  := by
  have hfold := of_foldl_collectStep (l := c.subexprs.reverse) hbin
    (fun sub hsub => hsubs sub (List.mem_reverse.mp hsub)) hops he 0
  unfold collectExpr at h
  split at h
  next res value size' hres =>
    rw [hres] at hfold
    split_ifs at h
    cases h
    apply hfold

theorem mem_subexprs_of_testAnd {env : Environ} {pbecstr : PbeConstraint}
    (h : c.testAnd env pbecstr e v = .ok c') :
  ∀ sub ∈ c'.subexprs, sub ∈ c.subexprs ∨ sub.expr = e
  := by
  rw [testAnd] at h
  split_ifs at h
  · obtain ⟨b, -, h⟩ := bind_eq_ok.mp h
    split_ifs at h
    · cases h
      intro sub hsub
      rcases List.mem_append.mp hsub with hsub | hsub
      · exact .inl hsub
      · obtain rfl := List.mem_singleton.mp hsub
        exact .inr rfl
    · cases h
      exact fun sub => .inl
  · cases h
    exact fun sub => .inl

theorem mem_subexprs_of_testOr {env : Environ} {pbecstr : PbeConstraint}
    (h : c.testOr env pbecstr e v = .ok c') :
  ∀ sub ∈ c'.subexprs, sub ∈ c.subexprs ∨ sub.expr = e
  := by
  rw [testOr] at h
  split_ifs at h
  · obtain ⟨b, -, h⟩ := bind_eq_ok.mp h
    split_ifs at h
    · cases h
      intro sub hsub
      rcases List.mem_append.mp hsub with hsub | hsub
      · exact .inl hsub
      · obtain rfl := List.mem_singleton.mp hsub
        exact .inr rfl
    · cases h
      exact fun sub => .inl
  · cases h
    exact fun sub => .inl

/-- What `test` does: it may store the expression as an operand, and what it returns is made by
`collect_expr`. -/
theorem test_eq_ok {env : Environ} {pbecstr : PbeConstraint} {r : Option Expr}
    (h : c.test env pbecstr e v = .ok (c', r)) :
  (∀ sub ∈ c'.subexprs, sub ∈ c.subexprs ∨ sub.expr = e) ∧
    ∀ e', r = some e' → ∃ size, c'.collectExpr e v = .ok (e', size)
  := by
  obtain ⟨c₁, h₁, h⟩ := bind_eq_ok.mp h
  obtain ⟨c₂, h₂, h⟩ := bind_eq_ok.mp h
  have hsubs : ∀ sub ∈ c₂.subexprs, sub ∈ c.subexprs ∨ sub.expr = e := by
    intro sub hsub
    rcases mem_subexprs_of_testOr h₂ sub hsub with hsub | hsub
    · apply mem_subexprs_of_testAnd h₁ sub hsub
    · exact .inr hsub
  split_ifs at h
  · obtain ⟨⟨res, size⟩, hres, h⟩ := bind_eq_ok.mp h
    simp only at h
    split_ifs at h
    · cases h
      exact ⟨hsubs, nofun⟩
    · cases h
      refine ⟨hsubs, ?_⟩
      rintro _ ⟨⟩
      exact ⟨size, hres⟩
  · cases h
    exact ⟨hsubs, nofun⟩

end CombineRules

/-! ### The filter -/

namespace FilterState

open Keeping (Keeps)

section Keeps

variable {env : Environ} {guide : Guide} {outside : Outside} {thread : Thread}
variable {P P' : Expr → Prop} {G : BinOp → Prop} {K : SearchRun → Prop} {e : Expr} {v : Bv N}

/-- A call that hands over an expression that a rule has built, and what follows it. -/
theorem keeps_composed (h : Handing env guide outside thread P P' G K) {sol : Expr}
    {ops : List BinOp} (hsol : (∀ o ∈ ops, G o) → P' sol) :
  Keeps (Good P P' G K : FilterState N × Progress → Prop)
    (accept env guide outside thread sol ops >>= fun _ => solve)
  := by
  apply Keeps.bind (keeps_accept h hsol)
  intro _
  apply keeps_solve

theorem keeps_onCombine (h : Handing env guide outside thread P P' G K) (he : P e) :
  Keeps (Good P P' G K) (onCombine env guide outside thread e v)
  := by
  intro s hs
  unfold onCombine
  split
  · apply hs
  · next c hc =>
      split
      · apply hs
      · next c' htest =>
          refine ⟨?_, hs.2⟩
          rintro _ ⟨⟩ sub hsub
          rcases (CombineRules.test_eq_ok htest).1 sub hsub with hsub | rfl
          · apply hs.1 c hc sub hsub
          · apply he
      · next c' e' htest =>
          obtain ⟨hsubs, hresult⟩ := CombineRules.test_eq_ok htest
          obtain ⟨size, hcollect⟩ := hresult e' rfl
          have hoperands : ∀ sub ∈ c'.subexprs, P sub.expr := by
            intro sub hsub
            rcases hsubs sub hsub with hsub | rfl
            · apply hs.1 c hc sub hsub
            · apply he
          apply keeps_composed h
          · intro hops
            apply CombineRules.of_collectExpr h.bin _ hops (h.weaken e he) hcollect
            exact fun sub hsub => h.weaken _ (hoperands sub hsub)
          · refine ⟨?_, hs.2⟩
            rintro _ ⟨⟩
            apply hoperands

theorem keeps_onReverse (h : Handing env guide outside thread P P' G K) (he : P e)
    {map : List (Bv N × Option Expr)} (hmap : Entries P map) :
  Keeps (Good P P' G K) (onReverse env guide outside thread e v map)
  := by
  intro s hs
  unfold onReverse
  split
  · apply hs
  · next r hr =>
      split
      · apply hs
      · next e' hreverse =>
          apply keeps_composed h _ s hs
          intro hops
          rcases ReverseRule.reverse_eq_some hreverse with ⟨p, hp, -, rfl⟩ | ⟨p, hp, -, rfl⟩
          · apply h.bin .add (hops _ List.mem_cons_self) _ _ (h.weaken e he)
            apply h.weaken p (hmap.of_lookup hp)
          · apply h.bin .xor (hops _ List.mem_cons_self) _ _ (h.weaken e he)
            apply h.weaken p (hmap.of_lookup hp)

theorem keeps_onLimits (count : ℕ) :
  Keeps (Good P P' G K : FilterState N × Progress → Prop) (onLimits outside count)
  := by
  intro s hs
  unfold onLimits
  simp only
  split_ifs
  · exact hs
  · exact hs
  · exact hs

theorem keeps_filter (h : Handing env guide outside thread P P' G K) (he : P e)
    {map : List (Bv N × Option Expr)} (hmap : Entries P map) (count : ℕ) :
  Keeps (Good P P' G K) (filter env guide outside thread e v map count)
  := by
  apply Keeps.bind (keeps_onOutput h he count)
  intro _
  apply Keeps.bind (keeps_onCombine h he)
  intro _
  apply Keeps.bind (keeps_onReverse h he hmap)
  intro _
  apply keeps_onLimits

theorem closure_keeps (h : Handing env guide outside thread P P' G K) :
  (closure env guide outside thread : Callback (FilterState N × Progress) N).Keeps P
    (Good P P' G K)
  := by
  intro algo e v s hmap he hs
  apply keeps_filter h he hmap algo.count s hs

theorem boundedClosure_keeps (h : Handing env guide outside thread P P' G K) {κ : Type} :
  (boundedClosure env guide outside thread : Filter κ (FilterState N × Progress) N).Keeps P
    (Good P P' G K)
  := by
  intro b e v s hmap he hs
  apply keeps_filter h he hmap _ s hs

/-- The filter of a sample starts with no operands. -/
theorem good_state (cfg : FilterConfig) (out : Bv N) (partialSolution : Bool) {u : Progress}
    (hu : u.Good P' G K) :
  Good P P' G K (cfg.state out partialSolution, u)
  := by
  refine ⟨?_, hu⟩
  intro c hc sub hsub
  simp only [FilterConfig.state] at hc
  split_ifs at hc
  cases hc
  cases hsub

end Keeps

end FilterState

/-! ### The search of a sample -/

/-- Whatever `search_inner` does on a sample, the properties of what is handed over and of the state
of the search are kept, when the rules preserve the property of what is enumerated. -/
theorem SampleConfig.Searches.good {env : Environ} {guide : Guide} {outside : Outside}
    {thread : Thread} {problem : SynthProblem} {cfg : SampleConfig} {u u' : Progress}
    {P P' : Expr → Prop} {G : BinOp → Prop} {K : SearchRun → Prop} {config : Config} {dag : Bool}
    (h : cfg.Searches env guide outside thread problem u u')
    (hconfig : Config.fromProblem env problem = .ok config) (hP : config.Preserves dag P)
    (hdag : cfg.dagSize = true → dag = true) (hhanding : Handing env guide outside thread P P' G K)
    (hu : u.Good P' G K) :
  u'.Good P' G K
  := by
  cases h with
  | @algo N config' _ args out s hconfig' hlimit h =>
      obtain rfl := Except.ok.inj (hconfig.symm.trans hconfig')
      have hbuilt := h.built hP hdag (FilterState.closure_keeps hhanding)
        (FilterState.good_state cfg.filter out cfg.partialSolution hu)
      apply hbuilt.user.2
  | @algo2 N config' _ k args out s hconfig' hlimit horder h =>
      obtain rfl := Except.ok.inj (hconfig.symm.trans hconfig')
      have hdag' : (Algo2.new config args cfg.dagSize cfg.memSizeLimit).dagSize = true →
          dag = true := hdag
      have hbuilt := Algo2.built_of_reaches hP hdag' (FilterState.boundedClosure_keeps hhanding)
        (FilterState.good_state cfg.filter out cfg.partialSolution hu) h
      apply hbuilt.user.2
  | @diversity N config' _ k d fuel ps args out algo s hconfig' hlimit horder hd halgo hps h =>
      obtain rfl := Except.ok.inj (hconfig.symm.trans hconfig')
      have hbuilt := DiversityAlgo.built_of_reaches halgo hP hdag
        (FilterState.boundedClosure_keeps hhanding)
        (FilterState.good_state cfg.filter out cfg.partialSolution hu) h
      apply hbuilt.user.2

end DryadSynth
