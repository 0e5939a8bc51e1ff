import DryadSynth.Parse.Language
import DryadSynth.Search.Filter

/-!
# Conformity with the grammar

The expressions that the two threads of a search hand to `add_solution`, and the expression that
the search returns, are in the language of the grammar, in every run in which no rule composes
expressions with an operator that the grammar does not have.
-/

namespace DryadSynth

/-! ### The rules of a problem -/

theorem Environ.name_of_lookup {env : Environ} {n : String} {nargs : Fin 3} {i : ℕ}
    (h : env.lookup n nargs = some i) :
  env.name i nargs = some n
  := by
  obtain ⟨hlt, hn, -⟩ := List.findIdx?_eq_some_iff_getElem.mp h
  rw [Environ.name, Environ.get, List.getElem?_eq_getElem hlt]
  apply congrArg some
  apply of_decide_eq_true hn

namespace SynthProblem

section Rules

variable (env : Environ) (problem : SynthProblem)

/-- The grammar has what a rule stands for. -/
def Grants (rule : Rule) : Prop :=
  match rule.generate with
  | .op1 o => problem.Admits₁ env o
  | .op1Constant o c => problem.AdmitsConstant env o c
  | .op2Sym o | .op2 o | .op2Nonzero o => problem.Admits₂ env o
  | .var i => problem.Conforms env (.var i : Expr)
  | .const c => problem.Conforms env (.const c : Expr)
  | .chatgpt e _ => e ∈ problem.chatgptExprs
  | .ite | .panic => True

/-- The productions that are read as shifts by a constant, under a name that is not that of a
shift. -/
inductive Renamed (name : String) : SExpr → BinOp → BitVec 64 → Prop
  | ehad : Renamed name (.list [.id "ehad", .id name]) .lshr 1
  | arba : Renamed name (.list [.id "arba", .id name]) .lshr 4
  | shesh : Renamed name (.list [.id "shesh", .id name]) .lshr 16
  | smol {v} : Renamed name (.list [.id "smol", .id name, .const v]) .shl 1

/-- What the code takes for granted: the language is closed under the shifts that productions of
another name are read as; it has the suggested expressions; where operands may be sub-expressions,
it has those of suggested expressions and the constants of the shifts; and where the thread of the
conditions tries masks, it has the arguments and the literal one. -/
structure Supports (config : Config) (dag : Bool) : Prop where
  shifts : ∀ nt, problem.cfg.head? = some nt → ∀ p ∈ nt.rules, ∀ o c, Renamed nt.name p o c →
    problem.AdmitsConstant env o c
  suggested : ∀ e ∈ problem.chatgptExprs, problem.Conforms env e
  suggested_proper : dag = true → config.HasBinary → ∀ e ∈ problem.chatgptExprs, ∀ e' ∈ e.proper,
    problem.Conforms env e'
  constants : dag = true → config.HasBinary → ∀ rule ∈ config, ∀ o c,
    rule.generate = .op1Constant o c → problem.Conforms env (.const c : Expr)
  masks : .and ∈ config → .lshr ∈ config → (∃ c, .const c ∈ config) →
    problem.Conforms env (.const 1 : Expr) ∧
      ∀ i < problem.args.length, problem.Conforms env (.var i : Expr)

end Rules

section Rules

variable {env : Environ} {problem : SynthProblem} {config : Config} {dag : Bool} {rule : Rule}

theorem Renamed.head {name : String} {p : SExpr} {o : BinOp} {c : BitVec 64}
    (h : Renamed name p o c) :
  ∃ n l, p = .list (.id n :: l) ∧ n ∈ ["ehad", "arba", "shesh", "smol"]
  := by
  cases h with
  | ehad => exact ⟨_, _, rfl, by simp⟩
  | arba => exact ⟨_, _, rfl, by simp⟩
  | shesh => exact ⟨_, _, rfl, by simp⟩
  | smol => exact ⟨_, _, rfl, by simp⟩

theorem grants_of_ofUnary (hsupports : problem.Supports env config dag) {nt : NonTerminal}
    (hnt : problem.cfg.head? = some nt) {n : String}
    (hp : .list [.id n, .id nt.name] ∈ nt.rules) (h : Rule.ofUnary n = some rule) :
  problem.Grants env rule
  := by
  unfold Rule.ofUnary at h
  split at h
  · cases h
    exact admits₁_of_production hnt hp (o := .not) rfl
  · cases h
    exact admits₁_of_production hnt hp (o := .neg) rfl
  · cases h
    exact hsupports.shifts nt hnt _ hp .lshr 1 .ehad
  · cases h
    exact hsupports.shifts nt hnt _ hp .lshr 4 .arba
  · cases h
    exact hsupports.shifts nt hnt _ hp .lshr 16 .shesh
  · cases h

theorem grants_of_ofBinary {nt : NonTerminal} (hnt : problem.cfg.head? = some nt) {n : String}
    (hp : .list [.id n, .id nt.name, .id nt.name] ∈ nt.rules) (h : Rule.ofBinary n = some rule) :
  problem.Grants env rule
  := by
  unfold Rule.ofBinary at h
  split at h
  · cases h
    exact admits₂_of_production hnt hp (o := .add) rfl
  · cases h
    exact admits₂_of_production hnt hp (o := .xor) rfl
  · cases h
    exact admits₂_of_production hnt hp (o := .and) rfl
  · cases h
    exact admits₂_of_production hnt hp (o := .or) rfl
  · cases h
    exact admits₂_of_production hnt hp (o := .sub) rfl
  · cases h
    exact admits₂_of_production hnt hp (o := .mul) rfl
  · cases h
    exact admits₂_of_production hnt hp (o := .udiv) rfl
  · cases h
    exact admits₂_of_production hnt hp (o := .sdiv) rfl
  · cases h
    exact admits₂_of_production hnt hp (o := .urem) rfl
  · cases h
    exact admits₂_of_production hnt hp (o := .srem) rfl
  · cases h
    exact admits₂_of_production hnt hp (o := .ashr) rfl
  · cases h
    exact admits₂_of_production hnt hp (o := .lshr) rfl
  · cases h
    exact admits₂_of_production hnt hp (o := .shl) rfl
  · cases h

/-- Every rule that `from_problem` reads is granted. -/
theorem grants_of_mem (hsupports : problem.Supports env config dag)
    (hconfig : Config.fromProblem env problem = .ok config) (hrule : rule ∈ config) :
  problem.Grants env rule
  := by
  rcases Config.mem_fromProblem hconfig hrule with ⟨e, he, rfl⟩ | ⟨nt, hnt, p, hp, l, hl, hrule⟩
  · exact he
  · cases hl with
    | var hi =>
        obtain rfl := List.mem_singleton.mp hrule
        exact conforms_var_of_production hnt hp hi
    | const hc =>
        obtain rfl := List.mem_singleton.mp hrule
        exact conforms_const_of_production hnt hp hc
    | unary hn =>
        obtain rfl := List.mem_singleton.mp hrule
        apply grants_of_ofUnary hsupports hnt hp hn
    | @fop1 n a hn ha =>
        obtain rfl := List.mem_singleton.mp hrule
        rw [Grants, Rule.generate]
        split_ifs with hlt
        · apply admits₁_of_production hnt hp (o := .fop1 ⟨a, hlt⟩)
          apply Environ.name_of_lookup ha
        · trivial
    | binary hn =>
        obtain rfl := List.mem_singleton.mp hrule
        apply grants_of_ofBinary hnt hp hn
    | @fop2 n a hn ha =>
        obtain rfl := List.mem_singleton.mp hrule
        rw [Grants, Rule.generate]
        split_ifs with hlt
        · apply admits₂_of_production hnt hp (o := .fop2 ⟨a, hlt⟩)
          apply Environ.name_of_lookup ha
        · trivial
    | bvlshr | skip => cases hrule
    | bvshl hc =>
        obtain rfl := List.mem_singleton.mp hrule
        apply admitsConstant_of_production hnt hp (o := .shl) rfl hc
    | smol =>
        obtain rfl := List.mem_singleton.mp hrule
        apply hsupports.shifts nt hnt _ hp .shl 1 .smol
    | ite =>
        obtain rfl := List.mem_singleton.mp hrule
        trivial

/-- An expression conforms, and where operands may be sub-expressions, these conform too. -/
def Sound (env : Environ) (problem : SynthProblem) (config : Config) (dag : Bool) (e : Expr) :
    Prop :=
  problem.Conforms env e ∧
    (dag = true → config.HasBinary → ∀ e' ∈ e.proper, problem.Conforms env e')

variable {e e₁ e₂ : Expr}

theorem Sound.un {o : UnOp} (ho : problem.Admits₁ env o) (h₁ : problem.Sound env config dag e₁) :
  problem.Sound env config dag (.un o e₁)
  := by
  use h₁.1.un ho
  intro hdag hbinary e' he'
  rcases ExprIn.mem_proper_un.mp he' with he' | rfl
  · apply h₁.2 hdag hbinary e' he'
  · apply h₁.1

theorem Sound.bin {o : BinOp} (ho : problem.Admits₂ env o) (h₁ : problem.Sound env config dag e₁)
    (h₂ : problem.Sound env config dag e₂) :
  problem.Sound env config dag (.bin o e₁ e₂)
  := by
  use h₁.1.bin ho h₂.1
  intro hdag hbinary e' he'
  rcases ExprIn.mem_proper_bin.mp he' with (he' | rfl) | he' | rfl
  · apply h₁.2 hdag hbinary e' he'
  · apply h₁.1
  · apply h₂.2 hdag hbinary e' he'
  · apply h₂.1

theorem Sound.constant {o : BinOp} {c : BitVec 64} (ho : problem.AdmitsConstant env o c)
    (hc : dag = true → config.HasBinary → problem.Conforms env (.const c : Expr))
    (h₁ : problem.Sound env config dag e₁) :
  problem.Sound env config dag (.bin o e₁ (.const c))
  := by
  use h₁.1.constant ho
  intro hdag hbinary e' he'
  rcases ExprIn.mem_proper_bin.mp he' with (he' | rfl) | he' | rfl
  · apply h₁.2 hdag hbinary e' he'
  · apply h₁.1
  · cases he'
  · apply hc hdag hbinary

theorem Sound.atom (h : problem.Conforms env e) (hproper : e.proper = []) :
  problem.Sound env config dag e
  := by
  use h
  intro _ _ e' he'
  rw [hproper] at he'
  cases he'

/-- The rules preserve conformity. -/
theorem Supports.preserves (hsupports : problem.Supports env config dag)
    (hconfig : Config.fromProblem env problem = .ok config) :
  config.Preserves dag (problem.Sound env config dag)
  where
    var := by
      intro rule hrule i hi
      have hgrants := grants_of_mem hsupports hconfig hrule
      rw [Grants, hi] at hgrants
      apply Sound.atom hgrants rfl
    const := by
      intro rule hrule c hc
      have hgrants := grants_of_mem hsupports hconfig hrule
      rw [Grants, hc] at hgrants
      apply Sound.atom hgrants rfl
    chatgpt := by
      intro rule hrule e v he
      have hgrants := grants_of_mem hsupports hconfig hrule
      rw [Grants, he] at hgrants
      use conforms_convert.mpr (hsupports.suggested e hgrants)
      intro hdag hbinary e' he'
      rw [ExprIn.proper_convert] at he'
      obtain ⟨e'', he'', rfl⟩ := List.mem_map.mp he'
      rw [conforms_convert]
      apply hsupports.suggested_proper hdag hbinary e hgrants e'' he''
    un := by
      intro rule hrule o ho e₁ h₁
      have hgrants := grants_of_mem hsupports hconfig hrule
      rw [Grants, ho] at hgrants
      apply h₁.un hgrants
    constant := by
      intro rule hrule o c ho e₁ h₁
      have hgrants := grants_of_mem hsupports hconfig hrule
      rw [Grants, ho] at hgrants
      apply h₁.constant hgrants
      intro hdag hbinary
      apply hsupports.constants hdag hbinary rule hrule o c ho
    bin := by
      intro rule hrule o ho e₁ e₂ h₁ h₂
      have hgrants := grants_of_mem hsupports hconfig hrule
      have hadmits : problem.Admits₂ env o := by
        rcases ho with ho | ho | ho
        · rwa [Grants, ho] at hgrants
        · rwa [Grants, ho] at hgrants
        · rwa [Grants, ho] at hgrants
      apply h₁.bin hadmits h₂
    proper := by
      intro hdag hbinary e he e' he'
      use he.2 hdag hbinary e' he'
      intro _ _ e'' he''
      apply he.2 hdag hbinary e'' (ExprIn.mem_proper_trans he'' he')

end Rules

end SynthProblem

/-! ### The threads -/

/-- The conditions that are tried before conditions are searched. -/
def Config.masks (config : Config) (n : ℕ) : List Expr :=
  if .and ∈ config ∧ .lshr ∈ config then
    config.flatMap fun
      | .const shift => (List.range n).map fun i =>
          .bin .and (.bin .lshr (.var i) (.const shift)) (.const 1)
      | _ => []
  else []

namespace SearchRun

/-- `set_cover_limit` of the solutions of a thread. -/
def setCoverLimit (thread : Thread) (s : SearchRun) (value : ℕ) : SearchRun :=
  match thread with
  | .exprs => { s with exprs := s.exprs.setCoverLimit value }
  | .conds => { s with conds := s.conds.setCoverLimit value }

end SearchRun

section Threads

variable (env : Environ) (guide : Guide) (problem : SynthProblem) (cfg : SearchConfig)
  (c additional : PbeConstraint) (dag : Bool)

/-- What a thread of `search` has done at some point.  The thread of the conditions tries the masks,
both threads search samples, and the thread of the expressions asks for trees.  The other thread
does what `foreign` allows, also while this one does nothing. -/
inductive Progress.Reached (foreign : SearchEvent → Prop) (outside : Outside) (thread : Thread) :
    Progress → Prop
  | start : Reached foreign outside thread ⟨SearchRun.start cfg c additional, [], [], 0⟩
  | mask {u config sol} (h : Reached foreign outside thread u) (hthread : thread = .conds)
      (hconfig : Config.fromProblem env problem = .ok config)
      (hsol : sol ∈ config.masks problem.args.length) :
      Reached foreign outside thread (Progress.hand env guide outside thread sol [] u).2
  | setCoverLimit {u} (h : Reached foreign outside thread u) (value : ℕ) :
      Reached foreign outside thread { u with search := u.search.setCoverLimit thread value }
  | sample {u u'} (h : Reached foreign outside thread u) (sample : SampleConfig)
      (hdag : sample.dagSize = true → dag = true)
      (hsample : sample.Searches env guide outside thread problem u u') :
      Reached foreign outside thread u'
  | checkTreeLearning {u} (h : Reached foreign outside thread u) (hthread : thread = .exprs) :
      Reached foreign outside thread
        { u with search.exprs.checkTreeLearning := some cfg.iteTreeLimit }
  | others {u} (h : Reached foreign outside thread u) {l : List SearchEvent}
      (hl : ∀ event ∈ l, foreign event) :
      Reached foreign outside thread { u with search := u.search.afterAll env guide l }

/-- What the thread of the conditions does to the search: it adds what it hands over, and changes
its cover limit. -/
inductive FromConditions (handed : List Expr) : SearchEvent → Prop
  | addCondition {sol} (h : sol ∈ handed) : FromConditions handed (.addCondition sol)
  | setConditionCoverLimit (value : ℕ) : FromConditions handed (.setConditionCoverLimit value)

/-- What the two threads of a search have done: the thread of the expressions, `u`, sees what the
thread of the conditions, `u'`, does to the search, at any times, and the thread of the conditions
may see anything. -/
structure Threads (u u' : Progress) : Prop where
  exprs : ∃ outside, (∀ i, ∀ event ∈ outside.others i, FromConditions u'.handed event) ∧
    Progress.Reached env guide problem cfg c additional dag (FromConditions u'.handed) outside
      .exprs u
  conds : ∃ outside, Progress.Reached env guide problem cfg c additional dag (fun _ => True) outside
    .conds u'

end Threads

/-! ### What is recorded -/

section Recorded

variable {env : Environ} {guide : Guide} {problem : SynthProblem}

/-- The solutions conform to the grammar. -/
def Solutions.Conform (env : Environ) (problem : SynthProblem) (s : Solutions) : Prop :=
  ∀ p ∈ s.solved, problem.Conforms env p.1

/-- The solutions and the conditions of a search conform to the grammar. -/
structure SearchRun.Conform (env : Environ) (problem : SynthProblem) (s : SearchRun) : Prop where
  exprs : s.exprs.Conform env problem
  conds : s.conds.Conform env problem
  cond : ∀ p ∈ s.cond, problem.Conforms env p.1

theorem Solutions.Conform.addSolution {s s' : Solutions} {conds conds' : CondBuffer} {sol : Expr}
    {b : Bool} (hs : s.Conform env problem) (hconds : ∀ p ∈ conds, problem.Conforms env p.1)
    (hsol : problem.Conforms env sol)
    (h : s.addSolution env guide conds sol = .ok (s', conds', b)) :
  s'.Conform env problem ∧ ∀ p ∈ conds', problem.Conforms env p.1
  := by
  rcases Solutions.addSolution_eq_ok h with ⟨rfl, rfl⟩ | ⟨set, -, -, rfl, rfl⟩
  · exact ⟨hs, hconds⟩
  · have hmarked : (s.markSolved set).Conform env problem := by
      unfold Solutions.markSolved
      split_ifs
      · exact hs
      · exact hs
    constructor
    · intro p hp
      rcases List.mem_append.mp hp with hp | hp
      · apply hmarked p hp
      · obtain rfl := List.mem_singleton.mp hp
        apply SynthProblem.conforms_convert.mpr hsol
    · unfold Solutions.flush
      split_ifs
      · intro p hp
        rcases List.mem_append.mp hp with hp | hp
        · apply hconds p hp
        · obtain ⟨q, hq, rfl⟩ := List.mem_map.mp (List.mem_of_mem_drop hp)
          apply hmarked q hq
      · apply hconds

namespace SearchRun

theorem Conform.start (cfg : SearchConfig) (c additional : PbeConstraint) :
  (start cfg c additional).Conform env problem
  where
    exprs := nofun
    conds := nofun
    cond := nofun

theorem Conform.add {thread : Thread} {s s' : SearchRun} {sol : Expr} {b : Bool}
    (hs : s.Conform env problem) (hsol : problem.Conforms env sol)
    (h : s.add env guide thread sol = .ok (s', b)) :
  s'.Conform env problem
  := by
  cases thread with
  | exprs =>
      obtain ⟨⟨exprs, cond, b'⟩, hadd, h⟩ := bind_eq_ok.mp h
      obtain ⟨hexprs, hcond⟩ := hs.exprs.addSolution hs.cond hsol hadd
      cases h
      exact ⟨hexprs, hs.conds, hcond⟩
  | conds =>
      obtain ⟨⟨conds, cond, b'⟩, hadd, h⟩ := bind_eq_ok.mp h
      obtain ⟨hconds, hcond⟩ := hs.conds.addSolution hs.cond hsol hadd
      cases h
      exact ⟨hs.exprs, hconds, hcond⟩

/-- The thread of the conditions keeps what is recorded in the language. -/
theorem Conform.step {s : SearchRun} {handed : List Expr} {event : SearchEvent}
    (hs : s.Conform env problem) (hhanded : ∀ sol ∈ handed, problem.Conforms env sol)
    (hevent : FromConditions handed event) :
  (Machine.final (s.step env guide event)).Conform env problem
  := by
  cases hevent with
  | @addCondition sol hsol =>
      simp only [SearchRun.step]
      split
      · next conds cond b hadd =>
          obtain ⟨hconds, hcond⟩ := hs.conds.addSolution hs.cond (hhanded sol hsol) hadd
          exact ⟨hs.exprs, hconds, hcond⟩
      · exact hs
  | setConditionCoverLimit value => exact ⟨hs.exprs, hs.conds, hs.cond⟩

end SearchRun

/-- The expression of a tree with conditions conforms when `ite` is admitted. -/
theorem SubProblem.conforms_bvexpr {conditions options : List (OwnedExpr × Bits)}
    (hite : problem.AdmitsIte) (hconditions : ∀ c ∈ conditions, problem.Conforms env c.1)
    (hoptions : ∀ o ∈ options, problem.Conforms env o.1) {root : SubProblem} {e : OwnedExpr}
    (h : root.bvexpr conditions options = .ok e) :
  problem.Conforms env e
  := by
  induction root generalizing e with
  | unsolved bits => cases h
  | accept i =>
      simp only [bvexpr] at h
      split at h
      · next o bits ho =>
          cases h
          apply hoptions _ (List.mem_of_getElem? ho)
      · cases h
  | ite expr t f iht ihf =>
      simp only [bvexpr, bind_eq_ok] at h
      obtain ⟨et, ht, ef, hf, h⟩ := h
      split at h
      · next cond bits hc =>
          cases h
          apply (hconditions _ (List.mem_of_getElem? hc)).ite hite (iht ht) (ihf hf)
      · cases h

/-- A tree whose root is accepted has no conditions. -/
theorem SubProblem.treeLearning_of_accept {conditions options : List (OwnedExpr × Bits)}
    {limit size i : ℕ}
    (h : select guide conditions options (Bits.boxedOnes size) = .ok (.accept i)) :
  treeLearning guide conditions options limit size = .ok (.accept i, true)
  := by
  have hroot : expand guide conditions options (.unsolved (Bits.boxedOnes size))
      = .ok (some (.accept i, false)) := by
    rw [expand, h]
    rfl
  rw [treeLearning, run_succ_eq, hroot]
  rfl

/-! ### What is handed over -/

variable {config : Config} {dag : Bool} {cfg : SearchConfig} {c additional : PbeConstraint}

/-- The masks conform. -/
theorem SynthProblem.Supports.conforms_mask (hsupports : problem.Supports env config dag)
    (hconfig : Config.fromProblem env problem = .ok config) {sol : Expr}
    (hsol : sol ∈ config.masks problem.args.length) :
  problem.Conforms env sol
  := by
  unfold Config.masks at hsol
  split_ifs at hsol with hrules
  · obtain ⟨rule, hrule, hsol⟩ := List.mem_flatMap.mp hsol
    split at hsol
    · next shift =>
        obtain ⟨i, hi, rfl⟩ := List.mem_map.mp hsol
        obtain ⟨hone, hvars⟩ := hsupports.masks hrules.1 hrules.2 ⟨shift, hrule⟩
        have hand : problem.Admits₂ env .and := grants_of_mem hsupports hconfig hrules.1
        have hlshr : problem.Admits₂ env .lshr := grants_of_mem hsupports hconfig hrules.2
        have hshift : problem.Conforms env (.const shift : Expr) :=
          grants_of_mem hsupports hconfig hrule
        apply Conforms.bin hand _ hone
        apply Conforms.bin hlshr (hvars i (List.mem_range.mp hi)) hshift
    · cases hsol
  · cases hsol

namespace Progress

/-- While the rules have only composed with operators that the language is closed under, a thread
has only handed over expressions of the language, and a property of the search that everything keeps
holds. -/
theorem Reached.good {foreign : SearchEvent → Prop} {outside : Outside} {thread : Thread}
    {K : SearchRun → Prop} {u : Progress} (hconfig : Config.fromProblem env problem = .ok config)
    (hsupports : problem.Supports env config dag)
    (hhanding : Handing env guide outside thread (problem.Sound env config dag)
      (problem.Conforms env) (problem.Admits₂ env) K)
    (hstart : K (SearchRun.start cfg c additional))
    (hcover : ∀ s value, K s → K (s.setCoverLimit thread value))
    (htree : ∀ s limit, K s → K { s with exprs.checkTreeLearning := limit })
    (hforeign : ∀ event, foreign event → ∀ s, K s → K (Machine.final (s.step env guide event)))
    (h : Reached env guide problem cfg c additional dag foreign outside thread u) :
  u.Good (problem.Conforms env) (problem.Admits₂ env) K
  := by
  induction h with
  | start => exact fun _ => ⟨nofun, hstart⟩
  | mask h hthread hconfig' hsol ih =>
      obtain rfl := Except.ok.inj (hconfig.symm.trans hconfig')
      apply ih.hand hhanding fun _ => hsupports.conforms_mask hconfig hsol
  | setCoverLimit h value ih =>
      intro hcomposed
      obtain ⟨hhanded, hK⟩ := ih hcomposed
      use hhanded
      apply hcover _ value hK
  | sample h sample hdag hsample ih =>
      apply hsample.good hconfig (hsupports.preserves hconfig) hdag hhanding ih
  | checkTreeLearning h hthread ih =>
      intro hcomposed
      obtain ⟨hhanded, hK⟩ := ih hcomposed
      use hhanded
      apply htree _ _ hK
  | others h hl ih =>
      intro hcomposed
      obtain ⟨hhanded, hK⟩ := ih hcomposed
      use hhanded
      apply SearchRun.afterAll_of hK
      exact fun event hevent => hforeign event (hl event hevent)

end Progress

section Runs

variable {u u' : Progress}

namespace Threads

/-- What the thread of the conditions hands over, whatever the other thread does. -/
theorem conforms_of_conds (h : Threads env guide problem cfg c additional dag u u')
    (hconfig : Config.fromProblem env problem = .ok config)
    (hsupports : problem.Supports env config dag)
    (hcomposed : ∀ o ∈ u'.composed, problem.Admits₂ env o) :
  ∀ sol ∈ u'.handed, problem.Conforms env sol
  := by
  obtain ⟨outside, hconds⟩ := h.conds
  have hhanding : Handing env guide outside .conds (problem.Sound env config dag)
      (problem.Conforms env) (problem.Admits₂ env) (fun _ => True) := by
    constructor
    · exact fun e he => he.1
    · exact fun o ho e₁ e₂ h₁ h₂ => h₁.bin ho h₂
    · exact fun _ _ _ _ _ => trivial
    · exact fun _ _ _ _ _ _ _ => trivial
  apply (hconds.good hconfig hsupports hhanding trivial (fun _ _ _ => trivial)
    (fun _ _ _ => trivial) (fun _ _ _ _ => trivial) hcomposed).1

/-- What the thread of the expressions hands over, and what is recorded. -/
theorem conforms_of_exprs (h : Threads env guide problem cfg c additional dag u u')
    (hconfig : Config.fromProblem env problem = .ok config)
    (hsupports : problem.Supports env config dag)
    (hcomposed : ∀ o ∈ u.composed ++ u'.composed, problem.Admits₂ env o) :
  (∀ sol ∈ u.handed, problem.Conforms env sol) ∧ u.search.Conform env problem
  := by
  have hconds := h.conforms_of_conds hconfig hsupports
    fun o ho => hcomposed o (List.mem_append_right _ ho)
  obtain ⟨outside, hothers, hexprs⟩ := h.exprs
  have hhanding : Handing env guide outside .exprs (problem.Sound env config dag)
      (problem.Conforms env) (problem.Admits₂ env) (SearchRun.Conform env problem) := by
    constructor
    · exact fun e he => he.1
    · exact fun o ho e₁ e₂ h₁ h₂ => h₁.bin ho h₂
    · exact fun i event hevent s hs => hs.step hconds (hothers i event hevent)
    · exact fun s sol s' b hs hsol hadd => hs.add hsol hadd
  apply hexprs.good hconfig hsupports hhanding (SearchRun.Conform.start cfg c additional)
  · exact fun s value hs => ⟨hs.exprs, hs.conds, hs.cond⟩
  · exact fun s limit hs => ⟨hs.exprs, hs.conds, hs.cond⟩
  · exact fun event hevent s hs => hs.step hconds hevent
  · exact fun o ho => hcomposed o (List.mem_append_left _ ho)

end Threads

/-- A tree of recorded expressions conforms, if it has no conditions or the language is closed under
`ite`. -/
theorem SearchRun.Conform.getTree {s : SearchRun} (h : s.Conform env problem)
    (htree : problem.AdmitsIte ∨ ∃ i, SubProblem.select guide s.cond s.exprs.toBits
      (Bits.boxedOnes s.exprs.pbecstr.len) = .ok (.accept i))
    {e : OwnedExpr} (he : s.exprs.getTree guide s.cond = .ok e) :
  problem.Conforms env e
  := by
  have hoptions : ∀ o ∈ s.exprs.toBits, problem.Conforms env o.1 := by
    intro o ho
    obtain ⟨p, hp, rfl⟩ := List.mem_map.mp ho
    apply h.exprs p hp
  unfold Solutions.getTree at he
  split at he
  · obtain ⟨⟨root, b⟩, hroot, he⟩ := bind_eq_ok.mp he
    rcases htree with hite | ⟨i, hi⟩
    · apply SubProblem.conforms_bvexpr hite h.cond hoptions he
    · rw [SubProblem.treeLearning_of_accept hi] at hroot
      cases hroot
      simp only [SubProblem.bvexpr] at he
      split at he
      · next o bits ho =>
          cases he
          apply hoptions _ (List.mem_of_getElem? ho)
      · cases he
  · cases he

/-- What both threads hand over is in the language of the grammar, and so are the last solution and
the tree that the search may return: for a problem that has what the code takes for granted, in
every run in which the rules compose with operators that the language is closed under, where a tree
has no conditions or the language is closed under `ite`. -/
theorem search_conforms (hconfig : Config.fromProblem env problem = .ok config)
    (hsupports : problem.Supports env config dag)
    (h : Threads env guide problem cfg c additional dag u u')
    (hcomposed : ∀ o ∈ u.composed ++ u'.composed, problem.Admits₂ env o) :
  (∀ sol ∈ u.handed ++ u'.handed, problem.Conforms env sol) ∧
    (∀ e set, u.search.exprs.solved.getLast? = some (e, set) → problem.Conforms env e) ∧
      ((problem.AdmitsIte ∨ ∃ i, SubProblem.select guide u.search.cond u.search.exprs.toBits
          (Bits.boxedOnes u.search.exprs.pbecstr.len) = .ok (.accept i)) →
        ∀ e, u.search.exprs.getTree guide u.search.cond = .ok e → problem.Conforms env e)
  := by
  obtain ⟨hhanded, hsearch⟩ := h.conforms_of_exprs hconfig hsupports hcomposed
  refine ⟨?_, ?_, ?_⟩
  · intro sol hsol
    rcases List.mem_append.mp hsol with hsol | hsol
    · apply hhanded sol hsol
    · apply h.conforms_of_conds hconfig hsupports _ sol hsol
      exact fun o ho => hcomposed o (List.mem_append_right _ ho)
  · intro e set hlast
    apply hsearch.exprs _ (List.mem_of_getLast? hlast)
  · intro htree e he
    apply hsearch.getTree htree he

end Runs

end Recorded

/-! ### A sum that the reverse lookup builds -/

/-- The example `1, 2 ↦ 3`. -/
def sumExample : PbeConstraint := ⟨[[1], [2]], [3]⟩

/-- A problem over the grammar `x | y`, with further productions. -/
def sumProblem (rules : List SExpr) : SynthProblem :=
  ⟨"f", ["x", "y"], [⟨"Start", [.id "x", .id "y"] ++ rules⟩], .id "f", [], 64⟩

/-- A run with nothing from outside. -/
def Outside.none : Outside := ⟨fun _ => [], fun _ => false, fun _ => 0⟩

/-- The beginning of the search for an expression. -/
def sumStart : Progress :=
  ⟨(SearchRun.start ⟨100000, false⟩ sumExample (PbeConstraint.new 2)).setCoverLimit .exprs 0,
    [], [], 0⟩

/-- The search of the example for expressions of size one. -/
def sumRun (config : Config) : Run (FilterState 1 × Progress) 1 :=
  Machine.final <| Run.runUntil (Environ.new 0)
    (FilterState.closure (Environ.new 0) SearchRun.firstGuide Outside.none .exprs)
    (Algo.new config [Bv.splat 1, Bv.splat 2] (Bv.splat 3) true)
    (SampleConfig.exprDefault.filter.state (Bv.splat 3) true, sumStart) 1

/-- The run is a run of the search, before the thread of the conditions begins. -/
theorem threads_sumRun {rules : List SExpr} {config : Config}
    (hconfig : Config.fromProblem (Environ.new 0) (sumProblem rules) = .ok config) :
  Threads (Environ.new 0) SearchRun.firstGuide (sumProblem rules) ⟨100000, false⟩ sumExample
    (PbeConstraint.new 2) true (sumRun config).user.2
    ⟨SearchRun.start ⟨100000, false⟩ sumExample (PbeConstraint.new 2), [], [], 0⟩
  := by
  constructor
  · use Outside.none, nofun
    apply Progress.Reached.sample (Progress.Reached.start.setCoverLimit 0)
      SampleConfig.exprDefault fun _ => rfl
    apply SampleConfig.Searches.algo hconfig rfl
    apply Machine.reachable_final_loop
  · exact ⟨Outside.none, .start⟩

/-- With a production for the sum, everything that is handed over is in the language. -/
theorem search_conforms_sum :
  ∃ u u', Threads (Environ.new 0) SearchRun.firstGuide
      (sumProblem [.list [.id "bvadd", .id "Start", .id "Start"]]) ⟨100000, false⟩ sumExample
      (PbeConstraint.new 2) true u u'
    ∧ u.handed = [.bin .add (.var 1) (.var 0)] ∧ u.composed = [.add]
    ∧ ∀ sol ∈ u.handed ++ u'.handed, SynthProblem.Conforms (Environ.new 0)
      (sumProblem [.list [.id "bvadd", .id "Start", .id "Start"]]) sol
  := by
  have hconfig : Config.fromProblem (Environ.new 0)
      (sumProblem [.list [.id "bvadd", .id "Start", .id "Start"]])
      = .ok [.var 0, .var 1, .add] := rfl
  have hthreads := threads_sumRun hconfig
  refine ⟨_, _, hthreads, rfl, rfl, ?_⟩
  apply (search_conforms hconfig _ hthreads _).1
  · constructor
    · rintro _ ⟨⟩ p hp o c hrenamed
      obtain ⟨n, l, rfl, hn⟩ := hrenamed.head
      simp only [List.mem_cons, List.not_mem_nil, or_false] at hn
      rcases hn with rfl | rfl | rfl | rfl <;> simp at hp
    · exact nofun
    · exact fun _ _ => nofun
    · intro _ _ rule hrule o c ho
      have hrule : rule = .var 0 ∨ rule = .var 1 ∨ rule = .add := by simpa using hrule
      rcases hrule with rfl | rfl | rfl
      · cases ho
      · cases ho
      · cases ho
    · intro hand
      cases hand with
      | tail _ hand => cases hand with
        | tail _ hand => cases hand with
          | tail _ hand => cases hand
  · intro o ho
    obtain rfl : o = .add := List.mem_singleton.mp ho
    apply SynthProblem.admits₂_of_production rfl (n := "bvadd") _ rfl
    simp

/-- The grammar `x | y` has only its two variables. -/
theorem eq_of_sumProblem {t : SExpr} (h : (sumProblem []).Language t) :
  t = .id "x" ∨ t = .id "y"
  := by
  have hvar : ∀ {v t}, v ≠ "Start" → (sumProblem []).cfg.Yields ["x", "y"] (.id v) t →
      t = .id v := by
    intro v t hv h
    cases h with
    | nonTerminal hnt hp h =>
        obtain rfl := List.mem_singleton.mp hnt
        exact absurd rfl hv
    | argument hv => rfl
  obtain ⟨nt, hnt, h⟩ := h
  obtain rfl := Option.some.inj hnt
  generalize hstart : SExpr.id (NonTerminal.name _) = s at h
  cases h with
  | @nonTerminal nt p _ hnt hp h =>
      obtain rfl := List.mem_singleton.mp hnt
      have hp : p = .id "x" ∨ p = .id "y" := by simpa using hp
      rcases hp with rfl | rfl
      · exact .inl (hvar (by decide) h)
      · exact .inr (hvar (by decide) h)
  | argument hv =>
      cases hstart
      simp [sumProblem] at hv
  | literal => cases hstart
  | list => cases hstart

/-- Over the grammar `x | y`, the reverse lookup hands over the sum of the variables, and the search
returns it. -/
theorem search_returns_sum :
  Config.fromProblem (Environ.new 0) (sumProblem []) = .ok [.var 0, .var 1]
    ∧ ∃ u u', Threads (Environ.new 0) SearchRun.firstGuide (sumProblem []) ⟨100000, false⟩
        sumExample (PbeConstraint.new 2) true u u'
      ∧ u.handed = [.bin .add (.var 1) (.var 0)]
      ∧ u.search.exprs.solved.getLast? = some (.bin .add (.var 1) (.var 0), [0])
      ∧ ¬ SynthProblem.Conforms (Environ.new 0) (sumProblem [])
        (.bin .add (.var 1) (.var 0) : Expr)
      ∧ ¬ SynthProblem.Conforms (Environ.new 0) (sumProblem [])
        (.bin .add (.var 1) (.var 0) : OwnedExpr)
  := by
  have hconforms : ∀ {s : Storage}, ¬ SynthProblem.Conforms (Environ.new 0) (sumProblem [])
      (.bin .add (.var 1) (.var 0) : ExprIn s) := by
    rintro s ⟨t, ht, h⟩
    cases ht
    rcases eq_of_sumProblem h with h | h
    · cases h
    · cases h
  exact ⟨rfl, _, _, threads_sumRun rfl, rfl, rfl, hconforms, hconforms⟩

end DryadSynth
