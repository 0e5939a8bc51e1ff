import DryadSynth.BVEnum.DefinedFunc
import DryadSynth.PBEEnum.Run

/-!
# The values of the solver

The result of an enumeration is evaluated by the solver, in `QF_BV`, where the functions of the
file mean what their bodies compute.  If every call that an evaluation meets is exact, the fast
evaluator gives an expression of the grammar its value in `QF_BV` (`Interpreted.value_eq`).  There
the conditional of the grammar is the expression of the branch that the fast evaluator takes,
provided that its condition reads the first argument only (`Interpreted.denote_branch`).
-/

namespace DryadSynth

open QFBV (Term Value Interpretation Valuation denote denoteAll meaning bindParams)
open OpDispatcher (Applies Calls Accepted Applicable)
open Sygus.DnC (Rule)

namespace OpDispatcher

variable {d : OpDispatcher} {U : Interpretation 64} {rank : String → ℕ}

/-- With this much stack the fast evaluator gives what a call means, if all calls that its
evaluation meets are exact. -/
theorem pbeDispatch_spec (hd : d.Defines U rank) {n : ℕ} {g : String} {zs : List (Value 64)}
    (hg : Applicable d rank n g zs) (hexact : ∀ h ws, Calls d U g zs h ws → Exact h ws)
    {v : Value 64} (hv : meaning U g zs = some v) :
  d.pbeDispatch n (declName g) (zs.map fun z => some (longValue z)) false
    = .ok (some (longValue v))
  := by
  rcases hg with ⟨hop, hsymbol⟩ | ⟨df, hdf, hrank, harity⟩
  · apply operator_spec hop hsymbol (hexact g zs .self) hv
  · obtain ⟨m, rfl⟩ : ∃ m, n = m + 1 := ⟨n - 1, by omega⟩
    rw [declName_of_defined hd hdf, map_some_longValue,
      pbeDispatch_defined (pbeOperator_of_defined hd hdf) hdf]
    apply body_spec hd hdf (by omega) hexact harity
    rw [meaning, if_neg (hd.fresh g df hdf).2, hd.meaning g df hdf zs harity.symm] at hv
    exact hv

end OpDispatcher

namespace PBEEnumSize

variable (p : PBEEnumSize) (U : Interpretation 64) (rank : String → ℕ)

/-- The values of the arguments of the function on an example. -/
def inputs (args : List (BitVec 64)) : Valuation 64 := bindParams p.requestArgs (args.map .bits)

/-- If the conditional is a defined function, its condition reads the first argument only. -/
def ReadsFirst : Prop :=
  ∀ func, p.opDis.funcs p.branchCombinator.termSyb = some func → func.args.Nodup ∧
    ∀ cond leftBranch rightBranch, func.definition = .app "ite" [cond, leftBranch, rightBranch] →
      VarsIn (func.args.take 1) cond

/-- What the solver makes of the problem.  The functions are those of a file.  The expressions of
the grammar are built from operators of the fast evaluator and these functions, they are well
sorted, and every call is exact that is met when one of them is evaluated on an example.  The
branches of the conditional are expressions of the start symbol. -/
structure Interpreted : Prop where
  defines : p.opDis.Defines U rank
  accepted : ∀ nt e, p.Derives nt e → p.opDis.Accepted rank p.depth e
  sorted : ∀ nt e, p.Derives nt e → ∀ args ∈ p.input, ∃ z, denote U (p.inputs args) e = some z
  exact : ∀ nt e, p.Derives nt e → ∀ args ∈ p.input, ∀ f vs, Applies U (p.inputs args) e f vs →
    ∀ g zs, Calls p.opDis U f vs g zs → Exact g zs
  branches : p.branchCombinator.args.tail = [p.start, p.start]
  readsFirst : p.ReadsFirst

variable {p U rank}

theorem Interpreted.freshNames (h : p.Interpreted U rank) :
  p.opDis.FreshNames
  := by
  intro name hname
  by_contra hdf
  obtain ⟨df, hdf⟩ := Option.ne_none_iff_exists'.mp hdf
  apply (h.defines.fresh name df hdf).1 hname

theorem map_bits (args : List (BitVec 64)) :
  (args.map .bits).map longValue = args
  := by
  rw [List.map_map]
  apply List.map_id args

/-- The fast evaluator gives an expression of the grammar the value that it has for the solver. -/
theorem Interpreted.value_eq (h : p.Interpreted U rank) {nt : String} {e : Term 64}
    (he : p.Derives nt e) {args : List (BitVec 64)} (hargs : args ∈ p.input)
    (hlen : p.requestArgs.length = args.length) {z : Value 64}
    (hz : denote U (p.inputs args) e = some z) :
  p.value args e = .ok (some (longValue z))
  := by
  have haccepted := h.accepted nt e he
  have hvalue : OpDispatcher.applyThenCompute p.pbeDispatch p.requestArgs
      ((args.map .bits).map longValue) e = .ok (some (longValue z)) := by
    apply OpDispatcher.applyThenCompute_spec _ haccepted _ hz
    · rw [hlen, List.length_map]
    · intro g zs v happ hv
      apply OpDispatcher.pbeDispatch_spec h.defines (haccepted.applicable happ) _ hv
      apply h.exact nt e he args hargs g zs happ
  rw [map_bits] at hvalue
  exact hvalue

/-- What the fast evaluator computes is the value that the expression has for the solver. -/
theorem Interpreted.exists_denote (h : p.Interpreted U rank) {nt : String} {e : Term 64}
    (he : p.Derives nt e) {args : List (BitVec 64)} (hargs : args ∈ p.input) {v : BitVec 64}
    (hv : p.value args e = .ok (some v)) :
  ∃ z, denote U (p.inputs args) e = some z ∧ longValue z = v
  := by
  obtain ⟨z, hz⟩ := h.sorted nt e he args hargs
  have hvalue := h.value_eq he hargs (OpDispatcher.length_of_applyThenCompute hv) hz
  rw [hv] at hvalue
  cases hvalue
  exact ⟨z, hz, rfl⟩

/-! ### The conditional -/

theorem denote_ite {ρ : Valuation 64} {cond e e' : Term 64} {z c y y' : Value 64}
    (hz : denote U ρ (.app "ite" [cond, e, e']) = some z) (hc : denote U ρ cond = some c)
    (hy : denote U ρ e = some y) (hy' : denote U ρ e' = some y') :
  z = if longValue c = 0 then y' else y
  := by
  rw [QFBV.denote_app₃ hc hy hy'] at hz
  rcases c with (_ | _) | x
  · rcases y with a | y <;> rcases y' with b | y' <;> cases hz <;> rfl
  · rcases y with a | y <;> rcases y' with b | y' <;> cases hz <;> rfl
  · cases hz

/-- The condition of an `ite` with a value has one. -/
theorem exists_denote_ite {ρ : Valuation 64} {cond e e' : Term 64} {z : Value 64}
    (hz : denote U ρ (.app "ite" [cond, e, e']) = some z) :
  ∃ c, denote U ρ cond = some c
  := by
  obtain ⟨zs, hzs, -⟩ := Option.bind_eq_some_iff.mp hz
  rw [QFBV.denoteAll_cons] at hzs
  obtain ⟨c, hc, -⟩ := Option.bind_eq_some_iff.mp hzs
  exact ⟨c, hc⟩

/-- A branch combinator is an `ite` or a function defined by one. -/
theorem branchCombinator_cases :
  p.opDis.funcs p.branchCombinator.termSyb = none ∧ p.branchCombinator.termSyb = "ite" ∨
    ∃ func cond arg0 arg1 arg2, p.opDis.funcs p.branchCombinator.termSyb = some func ∧
      func.definition = .app "ite" [cond, .symbol arg1, .symbol arg2] ∧
      func.args = [arg0, arg1, arg2]
  := by
  have hmem := List.mem_of_mem_head? p.branchCombinator_eq
  rw [List.mem_filter, decide_eq_true_iff] at hmem
  have hbranch := hmem.2.2
  rw [OpDispatcher.isBranchCombinator] at hbranch
  split at hbranch
  next func hfunc =>
      right
      split at hbranch
      next cond leftBranch rightBranch arg0 arg1 arg2 hdefinition hargs =>
          obtain ⟨rfl, rfl⟩ := of_decide_eq_true hbranch
          exact ⟨func, cond, arg0, leftBranch, rightBranch, hfunc, hdefinition, hargs⟩
      next => cases hbranch
  next hnone => exact .inl ⟨hnone, (of_decide_eq_true hbranch).1⟩

theorem conditional_eq (c : BitVec 64) :
  OpDispatcher.conditional [c, 1, 0] = .ok (if c = 0 then 0 else 1)
  := by
  have hread : OpDispatcher.conditional [c, 1, 0] = if c ≠ 0 then .ok 1 else .ok 0 := rfl
  rw [hread]
  by_cases hc : c = 0
  · rw [if_neg (not_not.mpr hc), if_pos hc]
  · rw [if_pos hc, if_neg hc]

/-- The condition of a defined conditional, on one and zero for the branches. -/
theorem Interpreted.dispatch_defined (h : p.Interpreted U rank) {func : DefinedFunc}
    (hfunc : p.opDis.funcs p.branchCombinator.termSyb = some func) {cond : Term 64}
    {arg0 arg1 arg2 : String}
    (hdefinition : func.definition = .app "ite" [cond, .symbol arg1, .symbol arg2])
    (hargs : func.args = [arg0, arg1, arg2])
    (hrank : rank p.branchCombinator.termSyb < p.depth) {c y y' c₀ : Value 64}
    (hexact : ∀ g zs, Calls p.opDis U p.branchCombinator.termSyb [c, y, y'] g zs → Exact g zs)
    (hc₀ : denote U (bindParams func.args [c, y, y']) cond = some c₀) :
  p.pbeDispatch p.branchCombinator.termSyb [some (longValue c), some 1, some 0]
    = .ok (some (if longValue c₀ = 0 then 0 else 1))
  := by
  obtain ⟨hnodup, hvars⟩ := h.readsFirst func hfunc
  have hvars := hvars _ _ _ hdefinition
  rw [hargs] at hnodup hvars hc₀
  obtain ⟨m, hm⟩ : ∃ m, p.depth = m + 1 := ⟨p.depth - 1, by omega⟩
  have hop := OpDispatcher.pbeOperator_of_defined h.defines hfunc
  have haccepted := h.defines.accepted _ _ hfunc
  rw [hdefinition] at haccepted
  -- the condition is a part of the body, and reads the first argument
  have hcond : p.opDis.Accepted rank (rank p.branchCombinator.termSyb) cond := by
    cases haccepted with
    | operator _ _ _ hts => exact hts cond List.mem_cons_self
    | call _ _ _ _ hts => exact hts cond List.mem_cons_self
  have hvalue : OpDispatcher.applyThenCompute (fun name as => p.opDis.pbeDispatch m name as false)
      [arg0, arg1, arg2] ([c, y, y'].map longValue) cond = .ok (some (longValue c₀)) := by
    apply OpDispatcher.applyThenCompute_spec rfl hcond _ hc₀
    intro g zs v happ hv
    apply OpDispatcher.pbeDispatch_spec h.defines _ _ hv
    · rcases hcond.applicable happ with hg | ⟨df, hdf, hlt, harity⟩
      · exact .inl hg
      · exact .inr ⟨df, hdf, by omega, harity⟩
    · intro g' ws hcalls
      apply hexact g' ws (.body hfunc _ hcalls)
      rw [hdefinition, hargs]
      apply Applies.argument List.mem_cons_self happ
  have hfirst : ∀ s ∈ [arg0, arg1, arg2].take 1, OpDispatcher.constant [arg0, arg1, arg2]
      ([c, y, y'].map longValue) s
        = OpDispatcher.constant [arg0, arg1, arg2] [longValue c, 1, 0] s := by
    simp [OpDispatcher.constant]
  have hlen : ([c, y, y'].map longValue).length = [longValue c, 1, 0].length := rfl
  rw [applyThenCompute_congr hvars hlen hfirst] at hvalue
  simp only [List.nodup_cons, List.mem_cons, List.not_mem_nil, or_false, not_or] at hnodup
  have hbranches : List.Forall₂ (fun t v => OpDispatcher.applyThenCompute
      (fun name as => p.opDis.pbeDispatch m name as false) [arg0, arg1, arg2]
        [longValue c, 1, 0] t = .ok (some v))
      [cond, .symbol arg1, .symbol arg2] [longValue c₀, 1, 0] := by
    refine .cons hvalue (.cons ?_ (.cons ?_ .nil))
    · simp [OpDispatcher.applyThenCompute, OpDispatcher.constant, hnodup]
    · simp [OpDispatcher.applyThenCompute, OpDispatcher.constant, hnodup]
  have hcall : p.pbeDispatch p.branchCombinator.termSyb [some (longValue c), some 1, some 0]
      = OpDispatcher.applyThenCompute (fun name as => p.opDis.pbeDispatch m name as false)
        func.args [longValue c, 1, 0] func.definition := by
    rw [pbeDispatch, hm]
    apply OpDispatcher.pbeDispatch_defined hop hfunc m [longValue c, 1, 0]
  rw [hcall, hdefinition, hargs, OpDispatcher.applyThenCompute_of_values (by simp) rfl hbranches,
    OpDispatcher.pbeDispatch_operator (f := OpDispatcher.conditional) rfl, conditional_eq]
  rfl

/-- The conditional has the value of the branch that the fast evaluator takes. -/
theorem Interpreted.denote_branch (h : p.Interpreted U rank)
    {cond e e' t : Term 64} {nt : String} (hd : p.Derives nt t)
    (ht : p.opDis.dispatch p.branchCombinator.termSyb [cond, e, e'] true true = .ok t)
    {args : List (BitVec 64)} (hargs : args ∈ p.input) {c y y' : Value 64}
    (hc : denote U (p.inputs args) cond = some c) (hy : denote U (p.inputs args) e = some y)
    (hy' : denote U (p.inputs args) e' = some y') {w : BitVec 64}
    (hw : p.pbeDispatch p.branchCombinator.termSyb [some (longValue c), some 1, some 0]
      = .ok (some w)) :
  denote U (p.inputs args) t = some (if w = 1 then y else y')
  := by
  obtain ⟨z, hz⟩ := h.sorted nt t hd args hargs
  rw [hz, Option.some.injEq]
  rcases branchCombinator_cases (p := p) with ⟨-, hite⟩ |
    ⟨func, cond₀, arg0, arg1, arg2, hfunc, hdefinition, hparams⟩
  · rw [hite] at ht hw
    cases ht
    rw [denote_ite hz hc hy hy']
    rw [pbeDispatch] at hw
    have hcall : p.opDis.pbeDispatch p.depth "ite" ([longValue c, 1, 0].map some) false
        = (OpDispatcher.conditional [longValue c, 1, 0]).map some :=
      OpDispatcher.pbeDispatch_operator rfl p.depth [longValue c, 1, 0] false
    rw [conditional_eq] at hcall
    have hw := hw.symm.trans hcall
    cases hw
    by_cases hzero : longValue c = 0
    · simp [hzero]
    · rw [if_neg hzero, if_neg hzero, if_pos rfl]
  · have hname := h.defines.fresh _ _ hfunc
    rw [OpDispatcher.dispatch, if_neg hname.1, hfunc] at ht
    cases ht
    have hzs : denoteAll U (p.inputs args) [cond, e, e'] = some [c, y, y'] := by simp [hc, hy, hy']
    have hrank : rank p.branchCombinator.termSyb < p.depth := by
      rcases (h.accepted nt _ hd).applicable (.here hzs) with ⟨hop, -⟩ | ⟨-, -, hrank, -⟩
      · rw [OpDispatcher.pbeOperator_of_defined h.defines hfunc] at hop
        cases hop
      · exact hrank
    rw [QFBV.denote_app₃ hc hy hy', meaning, if_neg hname.2,
      h.defines.meaning _ _ hfunc _ (by rw [hparams]; rfl), hdefinition] at hz
    obtain ⟨c₀, hc₀⟩ := exists_denote_ite hz
    obtain ⟨hnodup, -⟩ := h.readsFirst func hfunc
    have hbranch := denote_ite hz hc₀
      (QFBV.bindParams_of_getElem (i := 1) hnodup (by rw [hparams]; rfl) rfl)
      (QFBV.bindParams_of_getElem (i := 2) hnodup (by rw [hparams]; rfl) rfl)
    rw [h.dispatch_defined hfunc hdefinition hparams hrank
      (fun g zs hcalls => h.exact nt _ hd args hargs _ _ (.here hzs) g zs hcalls) hc₀] at hw
    cases hw
    rw [hbranch]
    by_cases hzero : longValue c₀ = 0
    · simp [hzero]
    · rw [if_neg hzero, if_neg hzero, if_pos rfl]

/-! ### Negation unless one -/

/-- The interpretation of `if0`. -/
def if0Interpretation : Interpretation 64 := fun name vs =>
  if name = "if0" then
    denote QFBV.noSymbols (bindParams ["x", "y", "z"] vs)
      (.app "ite" [.app "=" [.symbol "x", .literal 1], .symbol "y", .symbol "z"])
  else none

theorem if0_of_funcs {f : String} {df : DefinedFunc}
    (h : negateUnlessOne.opDis.funcs f = some df) :
  f = "if0" ∧ df = ⟨["x", "y", "z"],
    .app "ite" [.app "=" [.symbol "x", .literal 1], .symbol "y", .symbol "z"]⟩
  := by
  simp only [negateUnlessOne] at h
  split at h
  next hf =>
      cases h
      exact ⟨hf, rfl⟩
  next => cases h

theorem defines_if0 :
  negateUnlessOne.opDis.Defines if0Interpretation fun _ => 0
  where
  fresh := by
    intro f df hf
    obtain ⟨rfl, -⟩ := if0_of_funcs hf
    decide
  accepted := by
    intro f df hf
    obtain ⟨-, rfl⟩ := if0_of_funcs hf
    refine .operator (by decide) (by decide) (by simp) ?_
    simp only [List.mem_cons, List.not_mem_nil, or_false, forall_eq_or_imp, forall_eq]
    refine ⟨.operator (by decide) (by decide) (by simp) ?_, .symbol, .symbol⟩
    simp only [List.mem_cons, List.not_mem_nil, or_false, forall_eq_or_imp, forall_eq]
    exact ⟨.symbol, .literal⟩
  meaning := by
    intro f df hf vs _
    obtain ⟨rfl, rfl⟩ := if0_of_funcs hf
    rfl

/-- Induction over the expressions of the grammar. -/
theorem negateUnlessOne_induct {P : Term 64 → Prop} (x : P (.symbol "x")) (one : P (.literal 1))
    (bvnot : ∀ a, P a → P (.app "bvnot" [a])) (bvand : ∀ a b, P a → P b → P (.app "bvand" [a, b]))
    (if0 : ∀ a b c, P a → P b → P c → P (.app "if0" [a, b, c])) {nt : String} {e : Term 64}
    (h : negateUnlessOne.Derives nt e) :
  P e
  := by
  have hrules : ∀ {nt r}, r ∈ negateUnlessOne.grammar.rules nt →
      r ∈ ([⟨"x", []⟩, ⟨"#x1", []⟩, ⟨"bvnot", ["Start"]⟩, ⟨"bvand", ["Start", "Start"]⟩,
        ⟨"if0", ["Start", "Start", "Start"]⟩] : List Rule) := by
    intro nt r hr
    by_cases hnt : nt = "Start"
    · subst hnt
      exact hr
    · have hbeq : (nt == "Start") = false := by simpa using hnt
      simp [negateUnlessOne, Sygus.Grammar.rules, List.lookup_cons, hbeq] at hr
  induction h with
  | terminal hr hargs he =>
      have hr := hrules hr
      fin_cases hr
      · cases he
        exact x
      · cases he
        exact one
      · cases hargs
      · cases hargs
      · cases hargs
  | @node nt r e es hr hargs hes hd he ih =>
      have hr := hrules hr
      fin_cases hr
      · exact absurd rfl hargs
      · exact absurd rfl hargs
      · obtain ⟨a, rfl⟩ := List.length_eq_one_iff.mp hes
        cases he
        apply bvnot a (ih ("Start", a) (by simp))
      · obtain ⟨a, b, rfl⟩ := List.length_eq_two.mp hes
        cases he
        apply bvand a b (ih ("Start", a) (by simp)) (ih ("Start", b) (by simp))
      · obtain ⟨a, b, c, rfl⟩ := List.length_eq_three.mp hes
        cases he
        apply if0 a b c (ih ("Start", a) (by simp)) (ih ("Start", b) (by simp))
          (ih ("Start", c) (by simp))

/-- The names that are called in evaluations. -/
def negationNames : List String := ["bvnot", "bvand", "if0", "ite", "="]

theorem exact_of_negationNames {g : String} (hg : g ∈ negationNames) (zs : List (Value 64)) :
  Exact g zs
  := by
  fin_cases hg
  · apply OpDispatcher.exact_of_mem (by decide)
  · exact ⟨fun _ _ _ _ => trivial, fun h => absurd h (by decide), fun h => absurd h (by decide)⟩
  · apply OpDispatcher.exact_of_none rfl
  · apply OpDispatcher.exact_of_mem (by decide)
  · apply OpDispatcher.exact_of_mem (by decide)

theorem mem_negationNames_of_calls {U : Interpretation 64} {f g : String}
    {vs zs : List (Value 64)} (h : Calls negateUnlessOne.opDis U f vs g zs)
    (hf : f ∈ negationNames) :
  g ∈ negationNames
  := by
  induction h with
  | self => exact hf
  | body hfunc happ _ ih =>
      apply ih
      obtain ⟨-, rfl⟩ := if0_of_funcs hfunc
      cases happ with
      | here => decide
      | argument hmem happ =>
          simp only [List.mem_cons, List.not_mem_nil, or_false] at hmem
          rcases hmem with rfl | rfl | rfl
          · cases happ with
            | here => decide
            | argument hmem happ =>
                simp only [List.mem_cons, List.not_mem_nil, or_false] at hmem
                rcases hmem with rfl | rfl <;> cases happ
          · cases happ
          · cases happ

/-- The applications in an expression are of its operator and those in its operands. -/
theorem mem_negationNames_of_app {U : Interpretation 64} {ρ : Valuation 64} {f g : String}
    {ts : List (Term 64)} {zs : List (Value 64)} (hf : f ∈ negationNames)
    (hts : ∀ t ∈ ts, ∀ g zs, Applies U ρ t g zs → g ∈ negationNames)
    (h : Applies U ρ (.app f ts) g zs) :
  g ∈ negationNames
  := by
  cases h with
  | here => exact hf
  | argument hmem happ => apply hts _ hmem _ _ happ

theorem interpreted_negateUnlessOne :
  negateUnlessOne.Interpreted if0Interpretation fun _ => 0
  where
  defines := defines_if0
  accepted := by
    intro nt e he
    apply negateUnlessOne_induct _ _ _ _ _ he
    · apply Accepted.symbol
    · apply Accepted.literal
    · intro a ha
      exact .operator (by decide) (by decide) (by simp) (by simpa using ha)
    · intro a b ha hb
      exact .operator (by decide) (by decide) (by simp) (by simpa using ⟨ha, hb⟩)
    · intro a b c ha hb hc
      exact .call rfl (by decide) rfl (by simp) (by simpa using ⟨ha, hb, hc⟩)
  sorted := by
    intro nt e he args hargs
    have hbits : ∃ x : BitVec 64,
        denote if0Interpretation (negateUnlessOne.inputs args) e = some (.bits x) := by
      apply negateUnlessOne_induct _ _ _ _ _ he
      · fin_cases hargs <;> exact ⟨_, rfl⟩
      · exact ⟨1, rfl⟩
      · rintro a ⟨x, hx⟩
        exact ⟨_, QFBV.denote_app₁ hx⟩
      · rintro a b ⟨x, hx⟩ ⟨y, hy⟩
        exact ⟨_, QFBV.denote_app₂ hx hy⟩
      · rintro a b c ⟨x, hx⟩ ⟨y, hy⟩ ⟨z, hz⟩
        exact ⟨_, QFBV.denote_app₃ hx hy hz⟩
    obtain ⟨x, hx⟩ := hbits
    exact ⟨_, hx⟩
  exact := by
    intro nt e he args _ f vs happ g zs hcalls
    have hnames : ∀ f vs, Applies if0Interpretation (negateUnlessOne.inputs args) e f vs →
        f ∈ negationNames := by
      apply negateUnlessOne_induct _ _ _ _ _ he
      · intro f vs happ
        cases happ
      · intro f vs happ
        cases happ
      · intro a ha f vs happ
        apply mem_negationNames_of_app (by decide) (by simpa using ha) happ
      · intro a b ha hb f vs happ
        apply mem_negationNames_of_app (by decide) (by simpa using ⟨ha, hb⟩) happ
      · intro a b c ha hb hc f vs happ
        apply mem_negationNames_of_app (by decide) (by simpa using ⟨ha, hb, hc⟩) happ
    apply exact_of_negationNames
    apply mem_negationNames_of_calls hcalls (hnames f vs happ)
  branches := rfl
  readsFirst := by
    intro func hfunc
    obtain ⟨-, rfl⟩ := if0_of_funcs hfunc
    refine ⟨by decide, ?_⟩
    intro cond leftBranch rightBranch heq
    cases heq
    refine .app (by simp) ?_
    simp only [List.mem_cons, List.not_mem_nil, or_false, forall_eq_or_imp, forall_eq]
    exact ⟨.symbol (by decide), .literal 1⟩

end PBEEnumSize

end DryadSynth
