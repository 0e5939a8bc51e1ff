import DryadSynth.Cegis.Decompose
import DryadSynth.Library.Exits

/-!
# What the table of the search contains

Every entry of the table is a solution of the constraint it is kept for.  A solution is entered
after it has been verified, for a constraint with the same clauses, or as the combination of a
solution `E` for a part of the clauses with a solution for the constraint in which `f` has been
replaced by `E ∧ f` or `E ∨ f`.
-/

namespace Sygus.Decompose

open LIA Reduce Invariant Lists
open Exits (Ends)

/-! ### Formulas -/

section Formula

variable {e : Expr} {l : List Expr}

/-- A formula whose connectives have arguments is one that can be converted. -/
theorem formula_of_nonEmpty (hs : e.sort = some .bool) (he : e.NonEmpty) :
  Formula e
  := by
  induction e with
  | num n => exact .atom ⟨hs, rfl⟩
  | var x => exact .atom ⟨hs, rfl⟩
  | app o args ih =>
      obtain ⟨hne, hargs⟩ := nonEmpty_app.mp he
      have hall : ∀ e ∈ args, e.sort = some .bool → Formula e :=
        fun e he hs => ih e he hs (hargs e he)
      cases o with
      | and =>
          apply Formula.and (hne (.inl rfl))
          intro e he
          apply hall e he ((sort_and.mp hs).2 e he)
      | or =>
          apply Formula.or (hne (.inr rfl))
          intro e he
          apply hall e he ((sort_or.mp hs).2 e he)
      | not =>
          simp only [sort_app, Op.sort] at hs
          split at hs
          · next hl =>
              obtain ⟨a, rfl, ha⟩ := List.map_eq_singleton_iff.mp hl
              apply Formula.not (hall a (by simp) ha)
          · cases hs
      | implies =>
          obtain ⟨-, hl⟩ := connectSort_eq_some.mp ((sort_app _ _).symm.trans hs)
          obtain ⟨a, l, rfl, ha, hl⟩ := List.map_eq_cons_iff.mp hl
          obtain ⟨b, rfl, hb⟩ := List.map_eq_singleton_iff.mp hl
          apply Formula.implies (hall a (by simp) ha) (hall b (by simp) hb)
      | eq =>
          by_cases hl : args.map Expr.sort = [some .bool, some .bool]
          · obtain ⟨a, l, rfl, ha, hl⟩ := List.map_eq_cons_iff.mp hl
            obtain ⟨b, rfl, hb⟩ := List.map_eq_singleton_iff.mp hl
            apply Formula.iff (hall a (by simp) ha) (hall b (by simp) hb)
          · exact .atom ⟨hs, decide_eq_true hl⟩
      | ite =>
          have hl := chooseSort_eq_some.mp ((sort_app _ _).symm.trans hs)
          obtain ⟨c, l, rfl, hc, hl⟩ := List.map_eq_cons_iff.mp hl
          obtain ⟨a, l, rfl, ha, hl⟩ := List.map_eq_cons_iff.mp hl
          obtain ⟨b, rfl, hb⟩ := List.map_eq_singleton_iff.mp hl
          apply Formula.ite (hall c (by simp) hc) (hall a (by simp) ha) (hall b (by simp) hb)
      | _ => exact .atom ⟨hs, rfl⟩

/-- A conjunction, possibly of no formulas, of formulas whose connectives have arguments. -/
inductive Conjoined : Expr → Prop where
  | formula {e : Expr} : e.sort = some .bool → e.NonEmpty → Conjoined e
  | and {l : List Expr} : (∀ e ∈ l, Conjoined e) → Conjoined (.and l)

theorem Conjoined.sort (h : Conjoined e) :
  e.sort = some .bool
  := by
  induction h with
  | formula hs _ => exact hs
  | and _ ih => exact sort_and.mpr ⟨rfl, ih⟩

theorem Conjoined.pair {a b : Expr} (ha : Conjoined a) (hb : Conjoined b) :
  Conjoined (.and [a, b])
  := by
  apply Conjoined.and
  intro e he
  simp only [List.mem_cons, List.not_mem_nil, or_false] at he
  rcases he with rfl | rfl
  · exact ha
  · exact hb

theorem Conjoined.expand {f : FuncDecl} {d : Definition} (hd : Defines f d)
    (hne : d.body.NonEmpty) (h : Conjoined e) :
  Conjoined (e.expand f d)
  := by
  induction h with
  | formula hs he => exact .formula (hd.sort_expand hs) (nonEmpty_expand hne he)
  | and _ ih =>
      have hop : Op.and ≠ .func f := by simp
      rw [expand_app_of_ne hop]
      apply Conjoined.and
      intro e he
      obtain ⟨e', he', rfl⟩ := List.mem_map.mp he
      apply ih e' he'

theorem Conjoined.expandEach {ps : List (FuncDecl × Definition)} (hown : Own ps)
    (hne : ∀ p ∈ ps, p.2.body.NonEmpty) (h : Conjoined e) :
  Conjoined (e.expandEach ps)
  := by
  induction ps generalizing e with
  | nil => exact h
  | cons p ps ih =>
      have hp := h.expand (hown.defines p List.mem_cons_self) (hne p List.mem_cons_self)
      apply ih hown.tail _ hp
      intro q hq
      apply hne q (List.mem_cons_of_mem p hq)

/-- The conversion is defined, and keeps the meaning.  On a conjunction it converts the
conjuncts. -/
theorem Conjoined.exists_convertToCNF (h : Conjoined e) :
  ∃ c, convertToCNF e = some c ∧ c.sort = some .bool ∧ Equivalent c e
  := by
  induction h with
  | formula hs he =>
      obtain ⟨c, hc, hgood, heq⟩ := convertToCNF_spec (formula_of_nonEmpty hs he)
      exact ⟨c, hc, hgood.nnf.sort, heq⟩
  | @and l _ ih =>
      have hsteps : ∀ e ∈ l, ∃ e₁, eliminateImpEq e = some e₁ ∧ ∃ e₂, pushNeg false e₁ = some e₂ ∧
          ∃ c, convertNNFToCNF e₂ = some c ∧ c.sort = some .bool ∧ Equivalent c e := by
        intro e he
        obtain ⟨c, hc, hs, heq⟩ := ih e he
        obtain ⟨e₂, h₂, hc⟩ := Option.bind_eq_some_iff.mp hc
        obtain ⟨e₁, h₁, h₂⟩ := Option.bind_eq_some_iff.mp h₂
        exact ⟨e₁, h₁, e₂, h₂, c, hc, hs, heq⟩
      have hnonempty : Nonempty Expr := ⟨.tru⟩
      choose! k₁ h₁ k₂ h₂ k hk hs heq using hsteps
      have hl₁ : (eliminateImpEqAll l) = some (l.map k₁) := by
        rw [eliminateImpEqAll_eq, mapM_eq_map h₁]
      have hl₂ : pushNegAll false (l.map k₁) = some (l.map k₂) := by
        rw [pushNegAll_eq, List.mapM_map]
        apply mapM_eq_map h₂
      have hl : convertNNFAll .and .or .tru (l.map k₂) = some (l.map k) := by
        rw [convertNNFAll_eq, List.mapM_map]
        apply mapM_eq_map hk
      refine ⟨.and (l.map k), ?_, ?_, fun M => ?_⟩
      · rw [convertToCNF, convertToNNF, eliminateImpEq, hl₁, Option.map_some, Option.bind_some,
          pushNegIn, pushNeg, hl₂, Option.map_some, Option.bind_some, convertNNFToCNF,
          if_neg Bool.false_ne_true, convertNNF, if_neg, if_pos rfl, hl]
        · rfl
        · exact Bool.false_ne_true
      · apply sort_and.mpr ⟨rfl, _⟩
        intro e he
        obtain ⟨e', he', rfl⟩ := List.mem_map.mp he
        apply hs e' he'
      · rw [holds_and, holds_and, List.forall_mem_map]
        exact forall₂_congr fun e he => heq e he M

end Formula

/-! ### Clauses -/

section Clauses

variable {M : Model} {e : Expr} {l : List Expr} {type : ExprType}

theorem holds_getArgsListForAnd (e : Expr) :
  (∀ p ∈ getArgsListForAnd e, p.Holds M) ↔ e.Holds M
  := by
  have h := exists_getArgsList (dual_not_holds M) e
  rw [← not_iff_not, ← h]
  push Not
  rfl

theorem nonEmpty_getArgsListForAnd (hs : e.sort = some .bool) (he : e.NonEmpty) :
  ∀ p ∈ getArgsListForAnd e, p.sort = some .bool ∧ p.NonEmpty
  := by
  induction e with
  | num n =>
      intro p hp
      rw [List.mem_singleton.mp hp]
      exact ⟨hs, he⟩
  | var x =>
      intro p hp
      rw [List.mem_singleton.mp hp]
      exact ⟨hs, he⟩
  | app o args ih =>
      intro p hp
      rw [getArgsListForAnd, getArgsList] at hp
      split at hp
      · next ho =>
          subst ho
          rw [getArgsLists_eq, List.mem_flatMap] at hp
          obtain ⟨a, ha, hp⟩ := hp
          apply ih a ha ((sort_and.mp hs).2 a ha) ((nonEmpty_app.mp he).2 a ha) p hp
      · rw [List.mem_singleton.mp hp]
        exact ⟨hs, he⟩

theorem mem_clauses {p : Expr} :
  p ∈ clauses type l ↔ p ∈ l ∧ getExprType p = type
  := by rw [clauses, List.mem_filter, decide_eq_true_iff]

/-- A part of the clauses, and the ones of mixed type. -/
def part (type : ExprType) (andList : List Expr) : Expr :=
  .and [.and (clauses type andList), .and (clauses .MIX andList)]

theorem conjoined_part (hl : ∀ p ∈ l, p.sort = some .bool ∧ p.NonEmpty) :
  Conjoined (part type l)
  := by
  have hall : ∀ type', Conjoined (.and (clauses type' l)) := by
    intro type'
    apply Conjoined.and
    intro p hp
    obtain ⟨hs, he⟩ := hl p (mem_clauses.mp hp).1
    exact .formula hs he
  apply Conjoined.pair (hall type) (hall .MIX)

/-- Without clauses of the other type the part has all clauses. -/
theorem holds_part {other : ExprType} (htypes : ∀ t : ExprType, t = type ∨ t = .MIX ∨ t = other)
    (hother : clauses other l = []) :
  (part type l).Holds M ↔ ∀ p ∈ l, p.Holds M
  := by
  rw [part, holds_and_pair, holds_and, holds_and]
  constructor
  · rintro ⟨h, hmix⟩ p hp
    rcases htypes (getExprType p) with ht | ht | ht
    · apply h p (mem_clauses.mpr ⟨hp, ht⟩)
    · apply hmix p (mem_clauses.mpr ⟨hp, ht⟩)
    · have hmem : p ∈ clauses other l := mem_clauses.mpr ⟨hp, ht⟩
      rw [hother] at hmem
      cases hmem
  · intro h
    exact ⟨fun p hp => h p (mem_clauses.mp hp).1, fun p hp => h p (mem_clauses.mp hp).1⟩

end Clauses

/-! ### Candidates -/

/-- A body for the function: it is of the range, and without calls. -/
structure Candidate (r : Request) (e : Expr) : Prop where
  sort : e.sort = some r.func.range
  calls : e.calls = []
  nonEmpty : e.NonEmpty

theorem nonEmpty_elimApp {o : Op} {l : List Expr} (b : Bool) (h : (Expr.app o l).NonEmpty) :
  (elimApp b o l).NonEmpty
  := by
  unfold elimApp
  split
  · next c t f =>
      split
      · obtain ⟨-, hall⟩ := nonEmpty_app.mp h
        have hc := hall c (by simp)
        have ht := hall t (by simp)
        have hf := hall f (by simp)
        simp [nonEmpty_app, hc, ht, hf]
      · apply h
  · apply h

theorem nonEmpty_elimITE {e : Expr} (h : e.NonEmpty) :
  (elimITE e).NonEmpty
  := by
  induction e with
  | num n => exact h
  | var x => exact h
  | app o args ih =>
      rw [elimITE, elimAll_eq]
      apply nonEmpty_elimApp
      apply nonEmpty_map h
      intro e he
      apply ih e he ((nonEmpty_app.mp h).2 e he)

namespace Candidate

variable {M : Model} {r : Request} {d e : Expr}

theorem elimITE (h : Candidate r e) :
  Candidate r (elimITE e)
  where
  sort := (elimITE_preserves e _ h.sort).1
  calls := calls_elimITE h.calls
  nonEmpty := nonEmpty_elimITE h.nonEmpty

theorem funcs (h : Candidate r e) :
  e.funcs = []
  := by rw [funcs_eq_map_calls, h.calls, List.map_nil]

theorem connective (pos : Bool) (hbool : r.func.range = .bool) (hd : Candidate r d)
    (he : Candidate r e) :
  Candidate r (.app (Cegis.connective pos) [d, e])
  := by
  have hds := hd.sort
  have hes := he.sort
  rw [hbool] at hds hes
  constructor
  · rw [hbool]
    cases pos with
    | true => simp [Cegis.connective, hds, hes]
    | false => simp [Cegis.connective, hds, hes]
  · cases pos with
    | true => simp [Cegis.connective, Expr.calls, Expr.callsAll, hd.calls, he.calls]
    | false => simp [Cegis.connective, Expr.calls, Expr.callsAll, hd.calls, he.calls]
  · simp [nonEmpty_app, hd.nonEmpty, he.nonEmpty]

end Candidate

namespace Cegis

variable {c : Cegis} {M : Model} {D F : Functions} {e : Expr} {pos : Bool}

/-- Every function has a body for it. -/
def Candidates (c : Cegis) (F : Functions) : Prop :=
  ∀ r ∈ c.requests, Candidate r (F r.func.name)

/-- The bodies, connected. -/
def connected (pos : Bool) (D F : Functions) : Functions := fun name =>
  .app (connective pos) [D name, F name]

/-- The definitions by which the functions are replaced in the constraint for the rest. -/
def restDefs (c : Cegis) (pos : Bool) (D : Functions) : List (FuncDecl × Definition) :=
  c.requests.map fun r => (r.rdcdFunc, ⟨r.requestUsedArgs,
    .app (connective pos) [D r.func.name, .func r.rdcdFunc (r.requestUsedArgs.map .var)]⟩)

/-- The functions solve the constraint. -/
def Solves (c : Cegis) (F : Functions) (constraint : Expr) : Prop :=
  ∀ M : Model, constraint.Holds (M.defines (c.defs F))

theorem Candidates.returned (h : c.Candidates F) :
  c.Candidates (returned F)
  := by
  intro r hr
  rw [Cegis.returned]
  split
  · apply (h r hr).elimITE
  · apply h r hr

theorem Candidates.connected (hbool : ∀ r ∈ c.requests, r.func.range = .bool)
    (hD : c.Candidates D) (hF : c.Candidates F) :
  c.Candidates (connected pos D F)
  := fun r hr => (hD r hr).connective pos (hbool r hr) (hF r hr)

/-! ### The definitions of the functions -/

theorem nodup_rdcdFunc (hrs : WellFormedAll c.requests) :
  (c.requests.map Request.rdcdFunc).Nodup
  := by
  apply List.Nodup.of_map FuncDecl.name
  rw [List.map_map]
  apply hrs.names

theorem Candidates.own (hrs : WellFormedAll c.requests) (h : c.Candidates F) :
  Own (c.defs F)
  := by
  constructor
  · intro p hp
    obtain ⟨r, hr, rfl⟩ := List.mem_map.mp hp
    exact ⟨rfl, (h r hr).sort⟩
  · intro p hp g hg
    obtain ⟨r, hr, rfl⟩ := List.mem_map.mp hp
    rw [(h r hr).funcs] at hg
    cases hg
  · rw [defs, List.map_map]
    apply nodup_rdcdFunc hrs

theorem Candidates.own_restDefs (hrs : WellFormedAll c.requests)
    (hbool : ∀ r ∈ c.requests, r.func.range = .bool) (h : c.Candidates D) :
  Own (c.restDefs pos D)
  := by
  constructor
  · intro p hp
    obtain ⟨r, hr, rfl⟩ := List.mem_map.mp hp
    refine ⟨rfl, ?_⟩
    have hs := (h r hr).sort
    have hrange : r.rdcdFunc.range = .bool := hbool r hr
    have hcall : (Expr.func r.rdcdFunc (r.requestUsedArgs.map .var)).sort = some .bool := by
      apply sort_func.mpr ⟨hrange.symm, _⟩
      simp [Request.rdcdFunc, Function.comp_def]
    rw [hrange]
    rw [hbool r hr] at hs
    cases pos with
    | true => simp [connective, hs, hcall]
    | false => simp [connective, hs, hcall]
  · intro p hp g hg
    obtain ⟨r, hr, rfl⟩ := List.mem_map.mp hp
    rcases mem_funcs_app.mp hg with ho | ⟨e, he, hg⟩
    · cases pos with
      | true => cases ho
      | false => cases ho
    · simp only [List.mem_cons, List.not_mem_nil, or_false] at he
      rcases he with rfl | rfl
      · rw [(h r hr).funcs] at hg
        cases hg
      · rcases mem_funcs_app.mp hg with ho | ⟨e, he, hg⟩
        · cases ho
          rfl
        · obtain ⟨x, -, rfl⟩ := List.mem_map.mp he
          cases hg
  · rw [restDefs, List.map_map]
    apply nodup_rdcdFunc hrs

/-- The value of a function is that of its body. -/
theorem func_defs (hrs : WellFormedAll c.requests) {r : Request} (hr : r ∈ c.requests)
    (vs : List Value) :
  (M.defines (c.defs F)).func r.rdcdFunc vs = (F r.func.name).eval (M.bind r.requestUsedArgs vs)
  := by
  have hnodup : ((c.defs F).map Prod.fst).Nodup := by
    rw [defs, List.map_map]
    apply nodup_rdcdFunc hrs
  have hmem : (r.rdcdFunc, (⟨r.requestUsedArgs, F r.func.name⟩ : Definition)) ∈ c.defs F :=
    List.mem_map.mpr ⟨r, hr, rfl⟩
  have h := func_defines_of_mem (M := M) hnodup hmem
  rw [h]
  rfl

theorem func_defs_of_not_mem {f : FuncDecl} (hf : f ∉ c.requests.map Request.rdcdFunc) :
  (M.defines (c.defs F)).func f = M.func f
  := by
  apply func_defines_of_not_mem
  rw [defs, List.map_map]
  apply hf

/-- Functions of the same values solve the same constraints. -/
theorem Solves.congr (hrs : WellFormedAll c.requests)
    (heval : ∀ r ∈ c.requests, ∀ M, (D r.func.name).eval M = (F r.func.name).eval M)
    (h : c.Solves F e) :
  c.Solves D e
  := by
  intro M
  have hM : e.eval (M.defines (c.defs D)) = e.eval (M.defines (c.defs F)) := by
    apply eval_congr
    · intro x _
      rw [var_defines, var_defines]
    · intro f _
      by_cases hf : f ∈ c.requests.map Request.rdcdFunc
      · obtain ⟨r, hr, rfl⟩ := List.mem_map.mp hf
        funext vs
        rw [func_defs hrs hr, func_defs hrs hr, heval r hr]
      · rw [func_defs_of_not_mem hf, func_defs_of_not_mem hf]
  rw [Expr.Holds, hM]
  apply h M

theorem Candidates.solves_returned (hrs : WellFormedAll c.requests) (hF : c.Candidates F)
    (h : c.Solves F e) :
  c.Solves (Cegis.returned F) e
  := by
  apply h.congr hrs
  intro r hr M
  rw [Cegis.returned]
  split
  · apply (elimITE_preserves _ _ (hF r hr).sort).2
  · rfl

/-! ### The constraint for the rest -/

/-- The value of a connected body, where the second function has been defined. -/
theorem eval_restDef (hrs : WellFormedAll c.requests)
    (hused : ∀ r ∈ c.requests, r.requestUsedArgs.Nodup) (hD : c.Candidates D)
    (hF : c.Candidates F) {r : Request} (hr : r ∈ c.requests) {vs : List Value}
    (hvs : Fits r.requestUsedArgs vs) :
  (Expr.app (connective pos)
      [D r.func.name, .func r.rdcdFunc (r.requestUsedArgs.map .var)]).eval
        ((M.defines (c.defs F)).bind r.requestUsedArgs vs)
    = (connected pos D F r.func.name).eval (M.bind r.requestUsedArgs vs)
  := by
  have hdef : (D r.func.name).eval ((M.defines (c.defs F)).bind r.requestUsedArgs vs)
      = (D r.func.name).eval (M.bind r.requestUsedArgs vs) := by
    apply eval_congr
    · intro x _
      simp only [Model.bind, var_defines]
    · rw [(hD r hr).funcs]
      simp
  have hcall : (Expr.func r.rdcdFunc (r.requestUsedArgs.map .var)).eval
      ((M.defines (c.defs F)).bind r.requestUsedArgs vs)
        = (F r.func.name).eval (M.bind r.requestUsedArgs vs) := by
    rw [eval_app, eval_map_var, values_bind (hused r hr) hvs]
    change Value.cast ((M.defines (c.defs F)).func r.rdcdFunc vs) r.func.range = _
    rw [func_defs hrs hr]
    apply Value.cast_of_sort (sort_eval (hF r hr).sort _)
  rw [connected, eval_app, eval_app, List.map_cons, List.map_cons, List.map_nil, hdef, hcall]
  cases pos with
  | true => rfl
  | false => rfl

/-- Functions solve the constraint for the rest precisely if, connected, they solve the
constraint. -/
theorem solves_expandEach (hrs : WellFormedAll c.requests)
    (hbool : ∀ r ∈ c.requests, r.func.range = .bool)
    (hused : ∀ r ∈ c.requests, r.requestUsedArgs.Nodup) (hD : c.Candidates D)
    (hF : c.Candidates F) (hs : e.sort = some .bool) :
  c.Solves F (e.expandEach (c.restDefs pos D)) ↔ c.Solves (connected pos D F) e
  := by
  have hown : Own (c.restDefs pos D) := hD.own_restDefs hrs hbool
  apply forall_congr'
  intro M
  rw [hown.holds_expandEach hs, Expr.Holds, Expr.Holds, eval_congr_func hs]
  · intro x _
    rw [Model.value, Model.value, var_defines, var_defines, var_defines]
  · intro f _ vs hvs
    by_cases hf : f ∈ c.requests.map Request.rdcdFunc
    · obtain ⟨r, hr, rfl⟩ := List.mem_map.mp hf
      have hmem : (r.rdcdFunc, (⟨r.requestUsedArgs, .app (connective pos)
          [D r.func.name, .func r.rdcdFunc (r.requestUsedArgs.map .var)]⟩ : Definition))
            ∈ c.restDefs pos D := List.mem_map.mpr ⟨r, hr, rfl⟩
      rw [func_defines_of_mem hown.nodup hmem, func_defs hrs hr, Definition.eval,
        eval_restDef hrs hused hD hF hr hvs]
    · rw [func_defs_of_not_mem hf, func_defines_of_not_mem, func_defs_of_not_mem hf]
      rw [restDefs, List.map_map]
      apply hf

/-! ### Results -/

theorem filter_results (hrs : WellFormedAll c.requests) {r : Request} (hr : r ∈ c.requests) :
  (c.results F).filter (fun f => f.name = r.func.name)
    = [⟨r.func.name, r.requestArgs, F r.func.name⟩]
  := by
  rw [results, List.filter_map]
  have hfilter : c.requests.filter (fun q => q.func.name = r.func.name) = [r] := by
    apply filter_eq_singleton hrs.names hr
  change List.map _ (c.requests.filter fun q => q.func.name = r.func.name) = _
  rw [hfilter]
  rfl

theorem newDef_eq_some {r : Request} {edef : Expr} {d : Definition}
    (h : newDef r pos edef = some d) :
  d = ⟨r.requestUsedArgs, .app (connective pos)
      [edef, .func r.rdcdFunc (r.requestUsedArgs.map .var)]⟩ ∧ r.func.range = .bool
  := by
  obtain ⟨edef', he, h⟩ := Option.bind_eq_some_iff.mp h
  obtain ⟨fapp, hf, h⟩ := Option.bind_eq_some_iff.mp h
  unfold toBoolExpr at he hf
  split at he
  · split at hf
    · next hsort =>
        cases he
        cases hf
        cases h
        exact ⟨rfl, (sort_func.mp hsort).1.symm⟩
    · cases hf
  · cases he

/-- The constraint for the rest, from a solution of a part.  All functions are predicates. -/
theorem getSimpProb_results (hrs : WellFormedAll c.requests) {ψ : Expr}
    (h : c.getSimpProb e (c.results D) pos = some ψ) :
  ψ = e.expandEach (c.restDefs pos D) ∧ ∀ r ∈ c.requests, r.func.range = .bool
  := by
  rw [Expr.expandEach, restDefs, List.foldl_map]
  apply foldl_of_foldlM h
  intro r hr e e' h
  have hfilter : ((c.results D).filter fun f => f.name = r.func.name).foldlM
      (fun e f => (newDef r pos f.definition).map (e.expand r.rdcdFunc)) e = some e' := by
    rw [List.foldlM_filter]
    simp only [decide_eq_true_eq]
    exact h
  rw [filter_results hrs hr, List.foldlM_cons] at hfilter
  obtain ⟨e₁, h₁, hfilter⟩ := Option.bind_eq_some_iff.mp hfilter
  obtain ⟨d, hd, rfl⟩ := Option.map_eq_some_iff.mp h₁
  obtain ⟨rfl, hbool⟩ := newDef_eq_some hd
  cases hfilter
  exact ⟨rfl, hbool⟩

/-- The combination of two results. -/
theorem getCombinedResults_results (hrs : WellFormedAll c.requests) {combined : List DefinedFunc}
    (h : getCombinedResults (c.results D) (c.results F) pos = some combined) :
  combined = c.results (connected pos D F)
  := by
  rw [results, results, getCombinedResults, List.mapM_map] at h
  apply eq_map_of_mapM h
  intro r hr f hf
  simp only [Function.comp_apply] at hf
  obtain ⟨f', hf', hf⟩ := Option.bind_eq_some_iff.mp hf
  rw [← results, filter_results hrs hr, List.getLast?_singleton] at hf'
  cases hf'
  obtain ⟨edef, he, hf⟩ := Option.bind_eq_some_iff.mp hf
  obtain ⟨fdef, hd, hf⟩ := Option.bind_eq_some_iff.mp hf
  unfold toBoolExpr at he hd
  split at he
  · split at hd
    · cases he
      cases hd
      cases hf
      rfl
    · cases hd
  · cases he

/-! ### The table -/

/-- What the search relies on: the functions to synthesize have different names and arguments, the
solver is correct and its simplification leaves no connective without arguments, and the
synthesizer proposes bodies for the functions. -/
structure Setting (c : Cegis) : Prop where
  requests : WellFormedAll c.requests
  used : ∀ r ∈ c.requests, r.requestUsedArgs.Nodup
  solver : c.solver.Correct
  simplify : ∀ e, (c.solver.simplify e).NonEmpty
  synthesizer : ∀ time constraint type height condBound examples functions,
    c.synthesisFixedHeight time constraint type height condBound examples
      = .SATISFIABLE functions → c.Candidates functions

/-- The results for functions that solve the constraint. -/
def Solution (c : Cegis) (constraint : Expr) (funcs : List DefinedFunc) : Prop :=
  ∃ F, c.Candidates F ∧ funcs = c.results F ∧ c.Solves F constraint

/-- Whatever is kept for a constraint solves it. -/
def Sound (c : Cegis) (st : State) : Prop :=
  ∀ constraint map, st.triedProblem constraint = some map →
    ∀ height funcs, (height, some funcs) ∈ map → c.Solution constraint funcs

variable {st st' : State} {constraint : Expr} {height n : ℕ} {type : ProbType}
  {map : Tried} {funcs : Option (List DefinedFunc)}

theorem mem_put {p : ℕ × Option (List DefinedFunc)} (hp : p ∈ put map height funcs) :
  p = (height, funcs) ∨ p ∈ map
  := by
  unfold put at hp
  split at hp
  · obtain ⟨q, hq, rfl⟩ := List.mem_map.mp hp
    split
    · exact .inl rfl
    · exact .inr hq
  · rw [List.mem_append, List.mem_singleton] at hp
    apply hp.symm

theorem Sound.congr (h : c.Sound st) (heq : st'.triedProblem = st.triedProblem) :
  c.Sound st'
  := by
  intro constraint map
  rw [heq]
  apply h constraint map

theorem Sound.record (h : c.Sound st) (hfuncs : ∀ l, funcs = some l → c.Solution constraint l) :
  c.Sound (st.record constraint height funcs)
  := by
  intro e map hmap k l hl
  simp only [State.record] at hmap
  by_cases he : e = constraint
  · subst he
    rw [Function.update_self] at hmap
    cases hmap
    rcases mem_put hl with heq | hl
    · cases heq
      apply hfuncs l rfl
    · cases hold : st.triedProblem e with
      | none =>
          rw [hold] at hl
          cases hl
      | some map =>
          rw [hold] at hl
          apply h e map hold k l hl
  · rw [Function.update_of_ne he] at hmap
    apply h e map hmap k l hl

/-- The solution of a constraint is one of its entries. -/
theorem exists_entry {l : List DefinedFunc} (hl : st.solution constraint = some l) :
  ∃ map, st.triedProblem constraint = some map ∧ ∃ height, (height, some l) ∈ map
  := by
  rw [State.solution, getSolution] at hl
  obtain ⟨⟨height, l'⟩, hmem, rfl⟩ := List.exists_of_findSome?_eq_some hl
  cases hmap : st.triedProblem constraint with
  | none =>
      rw [hmap] at hmem
      cases hmem
  | some map =>
      rw [hmap] at hmem
      exact ⟨map, rfl, height, hmem⟩

theorem Sound.solution {l : List DefinedFunc} (h : c.Sound st)
    (hl : st.solution constraint = some l) :
  c.Solution constraint l
  := by
  obtain ⟨map, hmap, height, hmem⟩ := exists_entry hl
  apply h constraint map hmap height l hmem

/-! ### One tree -/

/-- The verifier answers that there is no counterexample only if there is none. -/
theorem Setting.verify (hc : c.Setting) (hs : e.sort = some .bool) (hF : c.Candidates F)
    (h : c.verify F e = .UNSATISFIABLE) :
  c.Solves F e
  := by
  have hown := hF.own hc.requests
  have hsort := hown.sort_expandEach hs
  have hunsat := (hc.solver.unsat (φ := .not (.qf (e.expandEach (c.defs F)))) hsort).mp h
  rw [Quantified.not_satisfiable_not] at hunsat
  intro M
  rw [← hown.holds_expandEach hs]
  apply hunsat M

/-- What the loop returns has been verified, and it does not touch the table. -/
theorem Setting.cegisLoop (hc : c.Setting) (hs : constraint.sort = some .bool) {iterCount : ℕ}
    {region : Region}
    (h : c.cegisLoop height type constraint n iterCount region st = some (funcs, st')) :
  st'.triedProblem = st.triedProblem ∧ ∀ l, funcs = some l → c.Solution constraint l
  := by
  induction n generalizing iterCount region st with
  | zero => cases h
  | succ n ih =>
      -- the loop is left without a result
      have hnone : ∀ {s : State}, some (none, s) = some (funcs, st') →
          s.triedProblem = st.triedProblem → st'.triedProblem = st.triedProblem ∧
            ∀ l, funcs = some l → c.Solution constraint l := by
        intro s heq hs
        cases heq
        exact ⟨hs, by simp⟩
      simp only [Cegis.cegisLoop] at h
      split at h
      · apply hnone h rfl
      split at h
      · apply hnone h rfl
      split at h
      · split at h
        · apply hnone h rfl
        · apply ih h
      · split at h
        · apply hnone h rfl
        · apply ih h
      · apply hnone h rfl
      · next F hsat =>
          split at h
          · next hunsat =>
              cases h
              refine ⟨rfl, fun l hl => ?_⟩
              cases hl
              have hF := hc.synthesizer _ _ _ _ _ _ _ hsat
              exact ⟨Cegis.returned F, hF.returned, rfl,
                hF.solves_returned hc.requests (hc.verify hs hF hunsat)⟩
          · apply hnone h rfl
          · split at h
            · apply hnone h rfl
            · split at h
              · apply hnone h rfl
              · apply ih h

theorem Setting.searchFullTree (hc : c.Setting) (hs : constraint.sort = some .bool)
    (hst : c.Sound st) (h : c.searchFullTree n height constraint type st = some st') :
  c.Sound st'
  := by
  unfold Cegis.searchFullTree at h
  split at h
  · cases h
    apply hst
  · split at h
    · cases h
    · next funcs st₁ hloop =>
        cases h
        rw [cegisFixedHeight] at hloop
        obtain ⟨htable, hfuncs⟩ := hc.cegisLoop hs hloop
        apply (hst.congr htable).record hfuncs

/-! ### The search -/

/-- The search keeps the table sound. -/
def Keeps (c : Cegis) (search : Expr → ProbType → State → Option State) : Prop :=
  ∀ constraint type st st', Conjoined constraint → c.Sound st →
    search constraint type st = some st' → c.Sound st'

/-- An exit with a table leaves a sound one. -/
def SoundExit (c : Cegis) : Exit → Prop
  | .threw => True
  | .returned st => c.Sound st

/-- The constraint for the rest is one that can be searched for. -/
theorem Candidates.conjoined_restDefs (hrs : WellFormedAll c.requests)
    (hbool : ∀ r ∈ c.requests, r.func.range = .bool) (hD : c.Candidates D) (h : Conjoined e) :
  Conjoined (e.expandEach (c.restDefs pos D))
  := by
  apply h.expandEach (hD.own_restDefs hrs hbool)
  intro p hp
  obtain ⟨r, hr, rfl⟩ := List.mem_map.mp hp
  have hcall : (Expr.func r.rdcdFunc (r.requestUsedArgs.map .var)).NonEmpty := by
    apply nonEmpty_app.mpr
    constructor
    · simp
    · intro e he
      obtain ⟨x, -, rfl⟩ := List.mem_map.mp he
      exact trivial
  apply nonEmpty_app.mpr
  constructor
  · simp
  · intro e he
    simp only [List.mem_cons, List.not_mem_nil, or_false] at he
    rcases he with rfl | rfl
    · apply (hD r hr).nonEmpty
    · apply hcall

theorem Setting.searchPart (hc : c.Setting) {search : Expr → ProbType → State → Option State}
    (hsearch : c.Keeps search) (hconstraint : Conjoined constraint) {partConstr : Expr}
    {otherList : List Expr} (hpart : Conjoined partConstr)
    (hother : otherList = [] → ∀ M, partConstr.Holds M ↔ constraint.Holds M) (hst : c.Sound st) :
  Ends c.SoundExit c.Sound
    (c.searchPart search height constraint type pos partConstr otherList st)
  := by
  unfold Cegis.searchPart
  split
  · exact trivial
  · next st₁ h₁ =>
      have hst₁ := hsearch _ _ _ _ hpart hst h₁
      split
      · exact hst₁
      · next subexpr hsub =>
          obtain ⟨D, hD, rfl, hsolves⟩ := hst₁.solution hsub
          split
          · next hnil =>
              -- there are no other clauses
              apply hst₁.record
              intro l hl
              cases hl
              exact ⟨D, hD, rfl, fun M => (hother hnil _).mp (hsolves M)⟩
          · split
            · exact trivial
            · next simpProb hprob =>
                obtain ⟨rfl, hbool⟩ := getSimpProb_results hc.requests hprob
                have hrest : Conjoined (constraint.expandEach (c.restDefs pos D)) :=
                  hD.conjoined_restDefs hc.requests hbool hconstraint
                split
                · exact trivial
                · next st₂ h₂ =>
                    have hst₂ := hsearch _ _ _ _ hrest hst₁ h₂
                    split
                    · exact hst₂
                    · next subf hsubf =>
                        obtain ⟨F, hF, rfl, hsolvesF⟩ := hst₂.solution hsubf
                        split
                        · exact trivial
                        · next combined hcombined =>
                            apply hst₂.record
                            intro l hl
                            cases hl
                            rw [solves_expandEach hc.requests hbool hc.used hD hF
                              hconstraint.sort] at hsolvesF
                            exact ⟨connected pos D F, hD.connected hbool hF,
                              getCombinedResults_results hc.requests hcombined, hsolvesF⟩

theorem Setting.searchSmaller (hc : c.Setting) {search : Expr → ProbType → State → Option State}
    (hsearch : c.Keeps search) (hconstraint : Conjoined constraint) (hst : c.Sound st) :
  Ends c.SoundExit c.Sound (c.searchSmaller search height constraint type st)
  := by
  unfold Cegis.searchSmaller
  split
  · exact trivial
  · next cnf hcnf =>
      obtain ⟨cnf', hcnf', hsort, heq⟩ := hconstraint.exists_convertToCNF
      obtain rfl : cnf' = cnf := Option.some.inj (hcnf'.symm.trans hcnf)
      obtain ⟨hsimp, heval⟩ := hc.solver.simplify cnf' _ hsort
      have hall := nonEmpty_getArgsListForAnd hsimp (hc.simplify cnf')
      have hholds : ∀ M, (∀ p ∈ getArgsListForAnd (c.solver.simplify cnf'), p.Holds M)
          ↔ constraint.Holds M := by
        intro M
        rw [holds_getArgsListForAnd, Expr.Holds, heval M]
        apply heq M
      have hpos : Ends c.SoundExit c.Sound (c.searchPart search height constraint type true
          (part .POS (getArgsListForAnd (c.solver.simplify cnf')))
          (clauses .NEG (getArgsListForAnd (c.solver.simplify cnf'))) st) := by
        apply hc.searchPart hsearch hconstraint (conjoined_part hall) _ hst
        intro hnil M
        rw [holds_part (fun t => by cases t <;> simp) hnil]
        apply hholds M
      apply hpos.bind
      intro st₁ hst₁
      apply hc.searchPart hsearch hconstraint (conjoined_part hall) _ hst₁
      intro hnil M
      exact (holds_part (fun t => by cases t <;> simp) hnil).trans (hholds M)

theorem Setting.search (hc : c.Setting) (n height : ℕ) :
  c.Keeps (c.search n height)
  := by
  induction height with
  | zero =>
      intro constraint type st st' hconstraint hst h
      rw [Cegis.search] at h
      split at h
      · cases h
        exact hst
      · apply hc.searchFullTree hconstraint.sort hst h
  | succ height ih =>
      intro constraint type st st' hconstraint hst h
      cases height with
      | zero =>
          rw [Cegis.search] at h
          split at h
          · cases h
            exact hst
          · apply hc.searchFullTree hconstraint.sort hst h
      | succ height =>
          rw [Cegis.search] at h
          have hsmaller : Ends c.SoundExit c.Sound
              (c.searchSmaller (c.search n (height + 1)) (height + 1) constraint type st) :=
            hc.searchSmaller ih hconstraint hst
          split at h
          · cases h
            exact hst
          · split at h
            · cases h
            · next st₁ h₁ =>
                cases h
                rw [h₁] at hsmaller
                exact hsmaller
            · next st₁ h₁ =>
                rw [h₁] at hsmaller
                apply hc.searchFullTree hconstraint.sort hsmaller h

/-- Nothing is kept in the empty table. -/
theorem sound_empty :
  c.Sound ⟨fun _ => none, fun _ => none, 0⟩
  := by
  intro constraint map hmap
  cases hmap

/-- Searches one after the other keep the table sound. -/
theorem Setting.foldlM_search (hc : c.Setting) {calls : List (ℕ × Expr × ProbType)}
    (hcalls : ∀ call ∈ calls, call.2.1.sort = some .bool ∧ call.2.1.NonEmpty) (hst : c.Sound st)
    (h : calls.foldlM (fun st call => c.search n call.1 call.2.1 call.2.2 st) st = some st') :
  c.Sound st'
  := by
  apply foldlM_invariant (I := c.Sound) hst _ h
  intro call hcall st st' hst hsearch
  obtain ⟨hs, he⟩ := hcalls call hcall
  apply hc.search n call.1 call.2.1 call.2.2 st st' (.formula hs he) hst hsearch

/-- After any searches, whatever the table has for a constraint solves it. -/
theorem searches_sound (hc : c.Setting) {calls : List (ℕ × Expr × ProbType)}
    (hcalls : ∀ call ∈ calls, call.2.1.sort = some .bool ∧ call.2.1.NonEmpty)
    (h : c.searches n calls = some st) :
  c.Sound st
  := hc.foldlM_search hcalls sound_empty h

/-- The definitions of an entry, for the functions that stand in the constraint. -/
def substitution (c : Cegis) (funcs : List DefinedFunc) : List (FuncDecl × Definition) :=
  c.requests.flatMap fun r =>
    (funcs.filter fun f => f.name = r.func.name).map fun f =>
      (r.rdcdFunc, ⟨r.requestUsedArgs, f.definition⟩)

theorem substitution_results (hrs : WellFormedAll c.requests) :
  c.substitution (c.results F) = c.defs F
  := by
  rw [substitution, defs, List.map_eq_flatMap]
  apply List.flatMap_congr
  intro r hr
  rw [filter_results hrs hr]
  rfl

/-- After any searches, a constraint is valid when the definitions of an entry that is kept for it
are put for the functions. -/
theorem entries_solve (hc : c.Setting) {calls : List (ℕ × Expr × ProbType)}
    (hcalls : ∀ call ∈ calls, call.2.1.sort = some .bool ∧ call.2.1.NonEmpty)
    (h : c.searches n calls = some st) (hs : constraint.sort = some .bool)
    (hmap : st.triedProblem constraint = some map) {l : List DefinedFunc}
    (hl : (height, some l) ∈ map) (M : Model) :
  (constraint.expandEach (c.substitution l)).Holds M
  := by
  obtain ⟨F, hF, rfl, hsolves⟩ :=
    hc.foldlM_search hcalls sound_empty h constraint map hmap height l hl
  rw [substitution_results hc.requests, (hF.own hc.requests).holds_expandEach hs]
  apply hsolves M

/-! ### An invariant that is searched for in two parts -/

/-- The argument is not negative. -/
def xNonneg : Expr := .ge (.var ⟨"x", .int⟩) (.num 0)

/-- Search for a predicate on one integer.  The synthesizer proposes truth for a part of the
constraint, and otherwise that the argument is not negative. -/
noncomputable def nonneg : Cegis where
  requests := [⟨⟨"f", [.int], .bool⟩, [⟨"x", .int⟩], [⟨"x", .int⟩]⟩]
  solver := { Solver.ideal with simplify := Expr.fill }
  fixedCond := 0
  inputIterLimit := 0
  searchRegions := 2
  synthesisFixedHeight _ _ type _ _ _ :=
    match type with
    | .POSMIX => .SATISFIABLE fun _ => .tru
    | _ => .SATISFIABLE fun _ => xNonneg
  decode _ _ := []
  running _ := true
  timeout _ := false
  regionTimeout _ := false

theorem candidates_nonneg :
  nonneg.Candidates (fun _ => .tru) ∧ nonneg.Candidates fun _ => xNonneg
  := by
  constructor
  · intro r hr
    rw [List.mem_singleton.mp hr]
    exact ⟨rfl, rfl, by simp [Expr.NonEmpty, every_app]⟩
  · intro r hr
    rw [List.mem_singleton.mp hr]
    exact ⟨rfl, rfl, by simp [Expr.NonEmpty, xNonneg, every_app]⟩

theorem setting_nonneg :
  nonneg.Setting
  := by
  constructor
  · constructor
    · intro r hr
      rw [List.mem_singleton.mp hr]
      exact ⟨rfl, by decide, by simp⟩
    · apply List.nodup_singleton
  · intro r hr
    rw [List.mem_singleton.mp hr]
    decide
  · have h := Solver.ideal_correct
    exact ⟨h.sat, h.unsat, h.qe, fill_preserves, h.fresh, h.sort_fresh⟩
  · intro e
    apply nonEmpty_fill
  · intro time constraint type height condBound examples functions h
    cases type with
    | POSMIX =>
        cases h
        exact candidates_nonneg.1
    | NEGMIX | NORMAL =>
        cases h
        exact candidates_nonneg.2

theorem solution_record {l : List DefinedFunc} (hnew : st.triedProblem constraint = none) :
  (st.record constraint height (some l)).solution constraint = some l
  := by simp [State.solution, State.record, hnew, put, getSolution]

/-- A search for a constraint that is new, where the first candidate is verified. -/
theorem search_of_verified (hrun : c.running st.time = true) (hlimit : c.inputIterLimit = 0)
    (hnew : st.triedProblem constraint = none)
    (hsat : ∀ time bound examples,
      c.synthesisFixedHeight time constraint type 1 bound examples = .SATISFIABLE F)
    (hunsat : c.verify F constraint = .UNSATISFIABLE) :
  ∃ st', c.search 1 1 constraint type st = some st' ∧
    st'.solution constraint = some (c.results (Cegis.returned F)) ∧
    ∀ φ, φ ≠ constraint → st'.triedProblem φ = st.triedProblem φ
  := by
  have hsolution : st.solution constraint = none := by
    rw [State.solution, hnew]
    rfl
  let st₁ : State := { st with
    cntrExpMap := Function.update st.cntrExpMap constraint
      (some ((st.cntrExpMap constraint).getD []))
    time := st.time + 1 }
  refine ⟨st₁.record constraint 1 (some (c.results (Cegis.returned F))), ?_,
    solution_record hnew, fun φ hφ => Function.update_of_ne hφ _ _⟩
  simp [Cegis.search, hsolution, Cegis.searchFullTree, hnew, cegisFixedHeight, Cegis.cegisLoop,
    hrun, hlimit, hsat, hunsat, st₁]

/-- The call of the predicate. -/
def fOfX : Expr := .func ⟨"f", [.int], .bool⟩ [.var ⟨"x", .int⟩]

/-- The predicate holds of all numbers that are not negative, and of no other ones. -/
def nonnegConstraint : Expr := .and [.or [.not xNonneg, fOfX], .or [.not fOfX, xNonneg]]

theorem nonEmpty_nonnegConstraint :
  nonnegConstraint.NonEmpty
  := by simp [Expr.NonEmpty, nonnegConstraint, xNonneg, fOfX, every_app]

theorem verify_nonneg {φ : Expr} (hs : φ.sort = some .bool) (hF : nonneg.Candidates F)
    (h : nonneg.Solves F φ) :
  nonneg.verify F φ = .UNSATISFIABLE
  := by
  have hown := hF.own setting_nonneg.requests
  have hsort := hown.sort_expandEach hs
  apply (setting_nonneg.solver.unsat (φ := .not (.qf (φ.expandEach (nonneg.defs F)))) hsort).mpr
  rw [Quantified.not_satisfiable_not]
  intro M
  rw [Quantified.holds_qf, hown.holds_expandEach hs]
  apply h M

/-- The call has the truth value of the body. -/
theorem holds_fOfX (hF : nonneg.Candidates F) :
  fOfX.Holds (M.defines (nonneg.defs F))
    ↔ (F "f").Holds (M.bind [⟨"x", .int⟩] [M.value ⟨"x", .int⟩])
  := by
  have hmem := List.mem_singleton_self
    (⟨⟨"f", [.int], .bool⟩, [⟨"x", .int⟩], [⟨"x", .int⟩]⟩ : Request)
  have hfunc := func_defs (M := M) (F := F) setting_nonneg.requests hmem [M.value ⟨"x", .int⟩]
  have hsort := sort_eval (hF _ hmem).sort (M.bind [⟨"x", .int⟩] [M.value ⟨"x", .int⟩])
  rw [Expr.Holds, fOfX, eval_app, Expr.Holds, ← Value.cast_of_sort hsort, ← hfunc]
  simp only [List.map_cons, List.map_nil, eval_var, var_defines]
  rfl

theorem holds_xNonneg (l : List (FuncDecl × Definition)) :
  xNonneg.Holds (M.bind [⟨"x", .int⟩] [M.value ⟨"x", .int⟩]) ↔ xNonneg.Holds (M.defines l)
  := by
  have hvar : (M.bind [⟨"x", .int⟩] [M.value ⟨"x", .int⟩]).var ⟨"x", .int⟩ = M.value ⟨"x", .int⟩ :=
    by simp [Model.bind]
  simp only [xNonneg, holds_ge, Expr.intVal, eval_var, hvar, var_defines]
  rw [Model.value, Value.cast, Value.cast]
  rfl

/-- The constraint for the rest, after truth has been found. -/
def restOfNonneg : Expr :=
  .and [.or [.not xNonneg, .and [.tru, fOfX]], .or [.not (.and [.tru, fOfX]), xNonneg]]

/-- The part of the constraint without the clause in which the predicate is negated. -/
def nonnegPart : Expr := .and [.and [.or [.not xNonneg, fOfX]], .and []]

/-- The search for a part finds truth, the search for the rest the argument's sign. -/
theorem searches_nonneg :
  ∃ st, nonneg.searches 1 [(2, nonnegConstraint, .NORMAL)] = some st ∧
    st.solution nonnegConstraint = some [⟨"f", [⟨"x", .int⟩], .and [.tru, xNonneg]⟩]
  := by
  have hcnf : convertToCNF nonnegConstraint = some nonnegConstraint := by decide +kernel
  have hfill : nonneg.solver.simplify nonnegConstraint = nonnegConstraint := by decide +kernel
  have hpos : part .POS (getArgsListForAnd nonnegConstraint) = nonnegPart := by decide +kernel
  have hneg : clauses .NEG (getArgsListForAnd nonnegConstraint) ≠ [] := by decide +kernel
  have hrest : nonneg.getSimpProb nonnegConstraint (nonneg.results (Cegis.returned fun _ => .tru))
      true = some restOfNonneg := by decide +kernel
  have hcombined : getCombinedResults (nonneg.results (Cegis.returned fun _ => .tru))
      (nonneg.results (Cegis.returned fun _ => xNonneg)) true
        = some [⟨"f", [⟨"x", .int⟩], .and [.tru, xNonneg]⟩] := by decide +kernel
  have hne₁ : restOfNonneg ≠ nonnegPart := by decide +kernel
  have hne₂ : nonnegConstraint ≠ restOfNonneg := by decide +kernel
  have hne₃ : nonnegConstraint ≠ nonnegPart := by decide +kernel
  obtain ⟨htru, hx⟩ := candidates_nonneg
  have hverify₁ : nonneg.verify (fun _ => .tru) nonnegPart = .UNSATISFIABLE := by
    apply verify_nonneg rfl htru
    intro M
    simp [nonnegPart, holds_fOfX htru]
  have hverify₂ : nonneg.verify (fun _ => xNonneg) restOfNonneg = .UNSATISFIABLE := by
    apply verify_nonneg rfl hx
    intro M
    simp only [restOfNonneg, holds_and_pair, holds_or_pair, holds_not, holds_tru, holds_fOfX hx,
      holds_xNonneg (nonneg.defs fun _ => xNonneg)]
    tauto
  obtain ⟨st₁, h₁, hsub, hkeep₁⟩ : ∃ st₁, nonneg.search 1 1 nonnegPart .POSMIX
      ⟨fun _ => none, fun _ => none, 0⟩ = some st₁ ∧ _ :=
    search_of_verified rfl rfl rfl (fun _ _ _ => rfl) hverify₁
  obtain ⟨st₂, h₂, hsubf, hkeep₂⟩ : ∃ st₂, nonneg.search 1 1 restOfNonneg .NORMAL st₁ = some st₂ ∧
      _ := search_of_verified rfl rfl (hkeep₁ _ hne₁) (fun _ _ _ => rfl) hverify₂
  have hnew : st₂.triedProblem nonnegConstraint = none := by
    rw [hkeep₂ _ hne₂, hkeep₁ _ hne₃]
  refine ⟨st₂.record nonnegConstraint 1 _, ?_, solution_record hnew⟩
  have hsmaller : nonneg.searchSmaller (nonneg.search 1 1) 1 nonnegConstraint .NORMAL
      ⟨fun _ => none, fun _ => none, 0⟩ = .error (.returned (st₂.record nonnegConstraint 1
        (some [⟨"f", [⟨"x", .int⟩], .and [.tru, xNonneg]⟩]))) := by
    rw [part] at hpos
    simp only [Cegis.searchSmaller, hcnf, hfill, hpos]
    simp only [Cegis.searchPart, if_pos, h₁, hsub, if_neg hneg, hrest, h₂, hsubf, hcombined]
    rfl
  rw [searches, List.foldlM_cons, Cegis.search, hsmaller]
  rfl

/-- The entry of the constraint makes it valid. -/
theorem entries_solve_nonneg :
  ∃ st, nonneg.searches 1 [(2, nonnegConstraint, .NORMAL)] = some st ∧ ∃ map l,
    st.triedProblem nonnegConstraint = some map ∧ (∃ height, (height, some l) ∈ map) ∧
      ∀ M, (nonnegConstraint.expandEach (nonneg.substitution l)).Holds M
  := by
  obtain ⟨st, h, hsolution⟩ := searches_nonneg
  obtain ⟨map, hmap, height, hmem⟩ := exists_entry hsolution
  refine ⟨st, h, map, _, hmap, ⟨height, hmem⟩, fun M => ?_⟩
  apply entries_solve setting_nonneg _ h rfl hmap hmem M
  intro call hcall
  rw [List.mem_singleton.mp hcall]
  exact ⟨rfl, nonEmpty_nonnegConstraint⟩

/-- The table after this search is sound. -/
theorem searches_sound_nonneg :
  ∃ st, nonneg.searches 1 [(2, nonnegConstraint, .NORMAL)] = some st ∧ nonneg.Sound st ∧
    st.solution nonnegConstraint = some [⟨"f", [⟨"x", .int⟩], .and [.tru, xNonneg]⟩]
  := by
  obtain ⟨st, h, hsolution⟩ := searches_nonneg
  refine ⟨st, h, searches_sound setting_nonneg ?_ h, hsolution⟩
  intro call hcall
  rw [List.mem_singleton.mp hcall]
  exact ⟨rfl, nonEmpty_nonnegConstraint⟩

end Cegis

end Sygus.Decompose
