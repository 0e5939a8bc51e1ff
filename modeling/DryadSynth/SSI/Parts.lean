import DryadSynth.Library.LIA.Definitions
import DryadSynth.SSI.Literals
import DryadSynth.SSI.Run

/-!
# The part of a constraint for one function

When a function is defined, the calls of the functions that are defined already are rewritten, and
the comparisons with calls of the others are taken to be true.  What is left is the constraint with
some of its literals relaxed, rewritten.
-/

namespace Sygus.SSI

open LIA Boundary Reduce Lists

/-! ### Comparisons that are dropped -/

section Kill

variable {names : List String} {name : String} {e k : Expr} {l : List Expr}

theorem killAll_eq (l : List Expr) :
  killAll names name l = l.mapM (killNonCurrent names name)
  := by
  induction l with
  | nil => rfl
  | cons e l ih => rw [killAll, ih, List.mapM_cons]

/-- How an application loses its comparisons with calls of other functions. -/
theorem killNonCurrent_app {o : Op} (h : killNonCurrent names name (.app o l) = some k) :
  (∃ l', (o = .and ∨ o = .or) ∧ List.Forall₂ (fun e k => killNonCurrent names name e = some k) l l'
      ∧ k = .app o l') ∨
    isComparison o ∧ k = (if hasNonCurrent names name (.app o l) then .tru else .app o l)
  := by
  by_cases hand : o = .and
  · subst hand
    rw [killNonCurrent] at h
    obtain ⟨l', hl', rfl⟩ := Option.map_eq_some_iff.mp h
    rw [killAll_eq, mapM_eq_some_iff] at hl'
    apply Or.inl ⟨l', Or.inl rfl, hl', rfl⟩
  · by_cases hor : o = .or
    · subst hor
      rw [killNonCurrent] at h
      obtain ⟨l', hl', rfl⟩ := Option.map_eq_some_iff.mp h
      rw [killAll_eq, mapM_eq_some_iff] at hl'
      apply Or.inl ⟨l', Or.inr rfl, hl', rfl⟩
    · rw [killNonCurrent] at h
      · split at h
        · next ho =>
            right
            use ho
            split at h
            · next hother => rw [if_pos hother, Option.some.inj h]
            · next hother => rw [if_neg hother, Option.some.inj h]
        · cases h
      · apply hand
      · apply hor

theorem anyNonCurrent_eq (l : List Expr) :
  anyNonCurrent names name l = l.any (hasNonCurrent names name)
  := by
  induction l with
  | nil => rfl
  | cons e l ih => rw [anyNonCurrent, ih, List.any_cons]

/-- The functions other than the current one are mentioned in calls only, where no variable has
their names. -/
theorem hasNonCurrent_iff (hvars : ∀ x ∈ e.vars, x.name ∉ names) :
  hasNonCurrent names name e = true ↔ ∃ c ∈ e.calls, c.1.name ∈ names ∧ c.1.name ≠ name
  := by
  induction e with
  | num n => simp [hasNonCurrent]
  | var x => simp [hasNonCurrent, hvars x (by simp)]
  | app o args ih =>
      have hany : anyNonCurrent names name args = true
          ↔ ∃ e ∈ args, ∃ c ∈ e.calls, c.1.name ∈ names ∧ c.1.name ≠ name := by
        rw [anyNonCurrent_eq, List.any_eq_true]
        apply exists_congr
        intro e
        apply and_congr_right
        intro he
        exact ih e he fun x hx => hvars x (mem_vars_app.mpr ⟨e, he, hx⟩)
      by_cases hfunc : ∃ g, o = .func g
      · obtain ⟨g, rfl⟩ := hfunc
        rw [hasNonCurrent, Bool.or_eq_true, hany, exists_mem_calls_app]
        simp
      · push Not at hfunc
        have happ : hasNonCurrent names name (.app o args) = anyNonCurrent names name args := by
          cases o with
          | func g => exact absurd rfl (hfunc g)
          | _ => rfl
        rw [happ, hany, exists_mem_calls_app]
        simp [hfunc]

end Kill

/-! ### Calls that are rewritten -/

section Rewrite

variable {e : Expr} {M : Model} {l : List Expr} {o : Op} {s : Srt} {x : Var}
  {part : List (FuncDecl × Definition)} {f g : FuncDecl} {d : Definition}
  {c : FuncDecl × List Expr}

/-- There are no calls in the arguments of calls. -/
def Unnested (e : Expr) : Prop := ∀ c ∈ e.calls, ∀ a ∈ c.2, a.calls = []

theorem Unnested.arg (h : Unnested (.app o l)) (he : e ∈ l) :
  Unnested e
  := fun c hc => h c (mem_calls_app.mpr (.inr ⟨e, he, hc⟩))

theorem expand_eq_self (h : ∀ c ∈ e.calls, c.1 ≠ f) :
  e.expand f d = e
  := by
  induction e with
  | num n => rfl
  | var x => rfl
  | app o args ih =>
      have ho : o ≠ .func f := by
        rintro rfl
        apply h (f, args) (mem_calls_app.mpr (Or.inl ⟨f, rfl, rfl⟩)) rfl
      rw [expand_app_of_ne ho]
      congr 1
      rw [List.map_congr_left (g := id), List.map_id]
      intro e he
      exact ih e he fun c hc => h c (mem_calls_app.mpr (Or.inr ⟨e, he, hc⟩))

theorem map_expand_of_calls_nil (h : ∀ e ∈ l, e.calls = []) :
  l.map (Expr.expand f d) = l
  := by
  rw [List.map_congr_left (g := id), List.map_id]
  intro e he
  apply expand_eq_self
  rw [h e he]
  exact nofun

/-- The body with arguments makes no calls. -/
theorem calls_apply (hd : d.body.calls = []) (hl : ∀ e ∈ l, e.calls = []) :
  (d.apply l).calls = []
  := by
  apply calls_replace
  · intro t t' h
    have hmem := List.mem_reverse.mp (mem_of_lookup h)
    apply hl t' (List.of_mem_zip hmem).2
  · rw [hd]
    exact nofun

theorem mem_calls_expand (hd : d.body.calls = []) (he : Unnested e) :
  c ∈ (e.expand f d).calls ↔ c ∈ e.calls ∧ c.1 ≠ f
  := by
  induction e with
  | num n => simp [Expr.expand]
  | var x => simp [Expr.expand]
  | app o args ih =>
      have hargs : (∃ e ∈ args.map (Expr.expand f d), c ∈ e.calls)
          ↔ ∃ e ∈ args, c ∈ e.calls ∧ c.1 ≠ f := by
        simp only [List.mem_map, exists_exists_and_eq_and]
        apply exists_congr
        intro e
        apply and_congr_right
        intro hmem
        apply ih e hmem (he.arg hmem)
      by_cases ho : o = .func f
      · subst ho
        have hnil := he (f, args) (mem_calls_app.mpr (.inl ⟨f, rfl, rfl⟩))
        rw [expand_call, map_expand_of_calls_nil hnil, calls_apply hd hnil, mem_calls_app]
        constructor
        · exact fun hc => absurd hc List.not_mem_nil
        · rintro ⟨⟨f, hf, rfl⟩ | ⟨e, he, hc⟩, hne⟩
          · exact absurd (Op.func.inj hf).symm hne
          · rw [hnil e he] at hc
            cases hc
      · rw [expand_app_of_ne ho, mem_calls_app, hargs, mem_calls_app]
        constructor
        · rintro (⟨g, rfl, rfl⟩ | ⟨e, hmem, hc, hne⟩)
          · have hnil := he (g, args) (mem_calls_app.mpr (.inl ⟨g, rfl, rfl⟩))
            rw [map_expand_of_calls_nil hnil]
            exact ⟨.inl ⟨g, rfl, rfl⟩, fun hgf => ho (congrArg Op.func hgf)⟩
          · exact ⟨.inr ⟨e, hmem, hc⟩, hne⟩
        · rintro ⟨⟨g, rfl, rfl⟩ | ⟨e, hmem, hc⟩, hne⟩
          · have hnil := he (g, args) (mem_calls_app.mpr (.inl ⟨g, rfl, rfl⟩))
            rw [map_expand_of_calls_nil hnil]
            exact .inl ⟨g, rfl, rfl⟩
          · exact .inr ⟨e, hmem, hc, hne⟩

theorem outerVars_subset (hx : x ∈ outerVars f e) :
  x ∈ e.vars
  := by
  induction e with
  | num n => cases hx
  | var y => exact hx
  | app o args ih =>
      obtain ⟨-, e, he, hx⟩ := mem_outerVars_app.mp hx
      exact mem_vars_app.mpr ⟨e, he, ih e he hx⟩

/-- Every variable occurs outside the calls of a function or in an argument of one. -/
theorem outer_or_arg (f : FuncDecl) (hx : x ∈ e.vars) :
  x ∈ outerVars f e ∨ ∃ c ∈ e.calls, c.1 = f ∧ ∃ a ∈ c.2, x ∈ a.vars
  := by
  induction e with
  | num n => cases hx
  | var y => exact .inl hx
  | app o args ih =>
      rw [exists_mem_calls_app]
      obtain ⟨e, he, hx⟩ := mem_vars_app.mp hx
      by_cases ho : o = .func f
      · exact .inr (.inl ⟨f, ho, rfl, e, he, hx⟩)
      · rcases ih e he hx with hx | hx
        · exact .inl (mem_outerVars_app.mpr ⟨ho, e, he, hx⟩)
        · exact .inr (.inr ⟨e, he, hx⟩)

/-- Without calls of the function all variables occur outside of them. -/
theorem mem_outerVars_of_not_called (h : ∀ c ∈ e.calls, c.1 ≠ f) (hx : x ∈ e.vars) :
  x ∈ outerVars f e
  := by
  rcases outer_or_arg f hx with hx | ⟨c, hc, heq, -⟩
  · exact hx
  · exact absurd heq (h c hc)

theorem vars_of_mem_calls (hc : c ∈ e.calls) {a : Expr} (ha : a ∈ c.2) (hx : x ∈ a.vars) :
  x ∈ e.vars
  := by
  induction e with
  | num n => cases hc
  | var y => cases hc
  | app o args ih =>
      rcases mem_calls_app.mp hc with ⟨g, -, rfl⟩ | ⟨e, he, hc⟩
      · exact mem_vars_app.mpr ⟨a, ha, hx⟩
      · exact mem_vars_app.mpr ⟨e, he, ih e he hc⟩

theorem mem_outerVars_expand (hne : g ≠ f) (hd : Defines g d) (hs : e.sort = some s)
    (he : Unnested e) (hx : x ∈ outerVars f (e.expand g d)) :
  x ∈ outerVars f e ∨ (x ∈ d.body.vars ∧ x ∉ d.params)
  := by
  induction e generalizing s with
  | num n => exact .inl hx
  | var y => exact .inl hx
  | app o args ih =>
      by_cases ho : o = .func g
      · subst ho
        have hnil := he (g, args) (mem_calls_app.mpr (.inl ⟨g, rfl, rfl⟩))
        have hlength : d.params.length = args.length := by
          have hsorts := congrArg List.length (hd.sorts hs).2
          simpa using hsorts.symm
        rw [expand_call, map_expand_of_calls_nil hnil] at hx
        rcases mem_vars_apply_of_length hlength (outerVars_subset hx) with hx | ⟨a, ha, hx⟩
        · exact .inr hx
        · left
          refine mem_outerVars_app.mpr ⟨fun h => hne (Op.func.inj h), a, ha, ?_⟩
          apply mem_outerVars_of_not_called _ hx
          rw [hnil a ha]
          exact nofun
      · rw [expand_app_of_ne ho] at hx
        obtain ⟨ho', e', he', hx⟩ := mem_outerVars_app.mp hx
        obtain ⟨e, hmem, rfl⟩ := List.mem_map.mp he'
        obtain ⟨t, ht⟩ := exists_sort_of_app hs hmem
        rcases ih e hmem ht (he.arg hmem) hx with hx | hx
        · exact .inl (mem_outerVars_app.mpr ⟨ho', e, hmem, hx⟩)
        · exact .inr hx

/-! ### All functions that are defined -/

/-- The definitions have the sorts of the declarations, and make no calls. -/
structure DefinesAll (part : List (FuncDecl × Definition)) : Prop where
  nodup : (part.map Prod.fst).Nodup
  defines : ∀ p ∈ part, Defines p.1 p.2
  calls : ∀ p ∈ part, p.2.body.calls = []

theorem DefinesAll.own (h : DefinesAll part) :
  Own part
  := by
  refine ⟨h.defines, fun p hp g hg => ?_, h.nodup⟩
  rw [funcs_eq_map_calls, h.calls p hp] at hg
  cases hg

theorem DefinesAll.cons {p : FuncDecl × Definition} (h : DefinesAll (p :: part)) :
  p.1 ∉ part.map Prod.fst ∧ DefinesAll part
  := by
  have hnodup := h.nodup
  rw [List.map_cons, List.nodup_cons] at hnodup
  exact ⟨hnodup.1, hnodup.2, fun q hq => h.defines q (List.mem_cons_of_mem _ hq),
    fun q hq => h.calls q (List.mem_cons_of_mem _ hq)⟩

theorem rewriteResults_app (ho : ∀ g, o ≠ .func g) (l : List Expr) :
  rewriteResults part (.app o l) = .app o (l.map (rewriteResults part))
  := by
  induction part generalizing l with
  | nil =>
      rw [rewriteResults, List.foldl_nil]
      congr 1
      symm
      apply List.map_id l
  | cons p part ih =>
      rw [rewriteResults, List.foldl_cons, expand_app_of_ne (ho p.1)]
      have h := ih (l.map (Expr.expand p.1 p.2))
      rw [rewriteResults] at h
      rw [h, List.map_map]
      rfl

theorem rewriteResults_eq_self (h : ∀ c ∈ e.calls, c.1 ∉ part.map Prod.fst) :
  rewriteResults part e = e
  := by
  induction part with
  | nil => rfl
  | cons p part ih =>
      have hne : ∀ c ∈ e.calls, c.1 ≠ p.1 ∧ c.1 ∉ part.map Prod.fst := by
        intro c hc
        have hnot := h c hc
        rw [List.map_cons, List.mem_cons, not_or] at hnot
        apply hnot
      rw [rewriteResults, List.foldl_cons, expand_eq_self fun c hc => (hne c hc).1]
      exact ih fun c hc => (hne c hc).2

theorem DefinesAll.sort_rewriteResults (h : DefinesAll part) (hs : e.sort = some s) :
  (rewriteResults part e).sort = some s
  := h.own.sort_expandEach hs

theorem DefinesAll.eval_rewriteResults (h : DefinesAll part) (hs : e.sort = some s) :
  (rewriteResults part e).eval M = e.eval (M.defines part)
  := h.own.eval_expandEach hs

/-- The calls that are left are those of other functions. -/
theorem DefinesAll.mem_calls_rewriteResults (h : DefinesAll part) (he : Unnested e) :
  c ∈ (rewriteResults part e).calls ↔ c ∈ e.calls ∧ c.1 ∉ part.map Prod.fst
  := by
  induction part generalizing e with
  | nil => simp [rewriteResults]
  | cons p part ih =>
      have hp := h.calls p List.mem_cons_self
      have he' : Unnested (e.expand p.1 p.2) := fun c hc => he c ((mem_calls_expand hp he).mp hc).1
      rw [rewriteResults, List.foldl_cons]
      apply (ih h.cons.2 he').trans
      rw [mem_calls_expand hp he, List.map_cons, List.mem_cons, not_or, and_assoc]

/-- The variables that rewriting leaves outside the calls of another function. -/
theorem DefinesAll.mem_outerVars (h : DefinesAll part) (hf : f ∉ part.map Prod.fst)
    (hs : e.sort = some s) (he : Unnested e) (hx : x ∈ outerVars f (rewriteResults part e)) :
  x ∈ outerVars f e ∨ ∃ p ∈ part, x ∈ p.2.body.vars ∧ x ∉ p.2.params
  := by
  induction part generalizing e with
  | nil => exact .inl hx
  | cons p part ih =>
      rw [List.map_cons, List.mem_cons, not_or] at hf
      have hp := h.calls p List.mem_cons_self
      have hd := h.defines p List.mem_cons_self
      have he' : Unnested (e.expand p.1 p.2) := fun c hc => he c ((mem_calls_expand hp he).mp hc).1
      rcases ih h.cons.2 hf.2 (hd.sort_expand hs) he' hx with hx | ⟨q, hq, hx⟩
      · rcases mem_outerVars_expand (Ne.symm hf.1) hd hs he hx with hx | hx
        · exact .inl hx
        · exact .inr ⟨p, List.mem_cons_self, hx⟩
      · exact .inr ⟨q, List.mem_cons_of_mem _ hq, hx⟩

theorem linear_rewriteResults (h : DefinesAll part) (hf : f ∉ part.map Prod.fst)
    (he : Unnested e) (hlinear : LinearIn f e) :
  LinearIn f (rewriteResults part e)
  := by
  have hmap : ∀ {l : List Expr}, (∀ e ∈ l, Unnested e → LinearIn f (rewriteResults part e)) →
      (∀ e ∈ l, Unnested e) → ∀ e ∈ l.map (rewriteResults part), LinearIn f e := by
    intro l ih hl e' he'
    obtain ⟨e, he, rfl⟩ := List.mem_map.mp he'
    apply ih e he (hl e he)
  have hnum : ∀ n, rewriteResults part (.num n) = .num n := fun n => rewriteResults_eq_self nofun
  have hadd : ∀ g, Op.add ≠ .func g := nofun
  have hsub : ∀ g, Op.sub ≠ .func g := nofun
  have hmul : ∀ g, Op.mul ≠ .func g := nofun
  induction hlinear with
  | free hfree => exact .free fun c hc => hfree c ((h.mem_calls_rewriteResults he).mp hc).1
  | call args =>
      rw [rewriteResults_eq_self]
      · exact .call args
      · intro c hc
        rcases mem_calls_app.mp hc with ⟨g, hg, rfl⟩ | ⟨a, ha, hc⟩
        · rw [← Op.func.inj hg]
          exact hf
        · rw [he (f, args) (mem_calls_app.mpr (.inl ⟨f, rfl, rfl⟩)) a ha] at hc
          cases hc
  | add _ ih =>
      rw [rewriteResults_app hadd]
      exact .add (hmap ih fun e hmem => he.arg hmem)
  | sub _ ih =>
      rw [rewriteResults_app hsub]
      exact .sub (hmap ih fun e hmem => he.arg hmem)
  | mul n _ ih =>
      rw [rewriteResults_app hmul, List.map_cons, hnum n]
      exact .mul n (ih (he.arg (by simp)))
  | mulNum n _ ih =>
      rw [rewriteResults_app hmul, List.map_cons, List.map_cons, hnum n]
      exact .mulNum n (ih (he.arg (by simp)))

end Rewrite

/-! ### What is left for one function -/

/-- The formula is built from comparisons by conjunction and disjunction. -/
inductive Combined : Expr → Prop
  | comparison {o : Op} {a b : Expr} : isComparison o = true → Combined (.app o [a, b])
  | connective {o : Op} {l : List Expr} : isConnective o = true → (∀ e ∈ l, Combined e) →
      Combined (.app o l)

/-- The formula is built by conjunction and disjunction from formulas without calls and from those
with the property. -/
inductive Built (A : Expr → Prop) : Expr → Prop
  | free {e : Expr} : e.calls = [] → Built A e
  | atom {e : Expr} : A e → Built A e
  | connective {o : Op} {l : List Expr} : isConnective o = true → (∀ e ∈ l, Built A e) →
      Built A (.app o l)

section Parts

variable {names : List String} {name : String} {e k q : Expr} {l : List Expr} {o : Op} {x : Var}
  {part : List (FuncDecl × Definition)} {f : FuncDecl} {later : List FuncDecl}
  {c : FuncDecl × List Expr}

theorem isConnective_iff :
  isConnective o = true ↔ o = .and ∨ o = .or
  := by
  cases o with
  | and | or => simp [isConnective]
  | _ => simp [isConnective]

/-- Comparisons are dropped from combinations of comparisons only. -/
theorem combined_of_killNonCurrent (hs : e.sort = some .bool)
    (hk : killNonCurrent names name e = some k) :
  Combined e
  := by
  induction e generalizing k with
  | num n => cases hs
  | var x => cases hk
  | app o l ih =>
      rcases killNonCurrent_app hk with ⟨l', ho, hl', -⟩ | ⟨ho, -⟩
      · refine .connective (isConnective_iff.mpr ho) fun e he => ?_
        obtain ⟨k, -, hk⟩ := exists_of_forall₂ hl'.flip he
        have hsort : e.sort = some .bool := by
          rcases ho with rfl | rfl
          · exact (sort_and.mp hs).2 e he
          · exact (sort_or.mp hs).2 e he
        apply ih e he hsort hk
      · obtain ⟨a, b, rfl⟩ := exists_pair ho hs
        exact .comparison ho

/-- Taking literals to be true makes the formula weaker. -/
theorem Combined.holds_relax {M : Model} (h : Combined e) (hM : e.Holds M) :
  (relax later e true).Holds M
  := by
  induction h with
  | comparison ho =>
      rw [relax_comparison ho, relaxAtom]
      split
      · apply holds_tru
      · exact hM
  | connective ho _ ih =>
      rw [relax_connective ho]
      rcases isConnective_iff.mp ho with rfl | rfl
      · rw [holds_and] at hM ⊢
        intro e' he'
        obtain ⟨e, he, rfl⟩ := List.mem_map.mp he'
        apply ih e he (hM e he)
      · rw [holds_or] at hM ⊢
        obtain ⟨e, he, hM⟩ := hM
        exact ⟨_, List.mem_map_of_mem he, ih e he hM⟩

theorem Combined.isComparison (h : Combined e) :
  ∀ q ∈ literals e true, IsComparison q
  := by
  induction h with
  | @comparison o a b ho =>
      intro q hq
      rw [literals_comparison ho] at hq
      exact ⟨o, a, b, ho, List.mem_singleton.mp hq⟩
  | connective hc _ ih =>
      intro q hq
      rw [literals_connective hc] at hq
      obtain ⟨e, he, hq⟩ := List.mem_flatMap.mp hq
      apply ih e he q hq

/-- A combination of linear comparisons and others without calls. -/
theorem Combined.built_of_literals (h : Combined e)
    (hl : ∀ q ∈ literals e true, q.calls = [] ∨ IsLinear f q) :
  Built (IsLinear f) e
  := by
  induction h with
  | @comparison o a b ho =>
      rcases hl (.app o [a, b]) (by simp [literals_comparison ho]) with hnil | hlinear
      · exact .free hnil
      · exact .atom hlinear
  | connective ho _ ih =>
      refine .connective ho fun e he => ih e he fun q hq => hl q ?_
      rw [literals_connective ho]
      exact List.mem_flatMap.mpr ⟨e, he, hq⟩

/-- The calls of the functions that are defined later are gone. -/
theorem Combined.mem_calls_relax (h : Combined e) (hc : c ∈ (relax later e true).calls) :
  c ∈ e.calls ∧ c.1 ∉ later
  := by
  induction h with
  | comparison ho =>
      rw [relax_comparison ho, relaxAtom] at hc
      split at hc
      · cases hc
      · next hnot =>
          refine ⟨hc, fun hmem => hnot ?_⟩
          exact mentions_iff.mpr ⟨c, hc, hmem⟩
  | connective ho _ ih =>
      rw [relax_connective ho] at hc
      rcases mem_calls_app.mp hc with ⟨g, hg, -⟩ | ⟨e', he', hc⟩
      · exact absurd hg (ne_func (.inl ho) g)
      · obtain ⟨e, he, rfl⟩ := List.mem_map.mp he'
        obtain ⟨hc, hnot⟩ := ih e he hc
        exact ⟨mem_calls_app.mpr (.inr ⟨e, he, hc⟩), hnot⟩

/-- The variables that are left occur in the literals that are kept. -/
theorem Combined.mem_outerVars_relax (h : Combined e)
    (hx : x ∈ outerVars f (relax later e true)) :
  ∃ q ∈ literals e true, mentions later q = false ∧ x ∈ outerVars f q
  := by
  induction h with
  | @comparison o a b ho =>
      rw [relax_comparison ho, relaxAtom] at hx
      split at hx
      · simp [outerVars, outerVarsAll] at hx
      · next hnot =>
          refine ⟨.app o [a, b], ?_, Bool.eq_false_iff.mpr hnot, hx⟩
          rw [literals_comparison ho]
          apply List.mem_singleton_self
  | connective ho _ ih =>
      rw [relax_connective ho] at hx
      obtain ⟨-, e', he', hx⟩ := mem_outerVars_app.mp hx
      obtain ⟨e, he, rfl⟩ := List.mem_map.mp he'
      obtain ⟨q, hq, hkept, hx⟩ := ih e he hx
      refine ⟨q, ?_, hkept, hx⟩
      rw [literals_connective ho]
      exact List.mem_flatMap.mpr ⟨e, he, hq⟩

theorem rewriteResults_tru :
  rewriteResults part .tru = .tru
  := rewriteResults_eq_self nofun

theorem killNonCurrent_comparison (ho : isComparison o = true) (l : List Expr) :
  killNonCurrent names name (.app o l)
    = some (if hasNonCurrent names name (.app o l) then .tru else .app o l)
  := by
  cases o with
  | ge | gt | le | lt | eq =>
      simp only [killNonCurrent, isComparison, if_true]
      split
      · rfl
      · rfl
  | _ => cases ho

/-- What is left is the rewritten constraint with the literals relaxed that call functions that are
defined later. -/
theorem Combined.killNonCurrent_eq (hpart : DefinesAll part) (h : Combined e) (he : Unnested e)
    (hcalls : ∀ c ∈ e.calls,
      (c.1 ∉ part.map Prod.fst ∧ c.1.name ∈ names ∧ c.1.name ≠ name) ↔ c.1 ∈ later)
    (hvars : ∀ x ∈ (rewriteResults part e).vars, x.name ∉ names) :
  killNonCurrent names name (rewriteResults part e)
    = some (rewriteResults part (relax later e true))
  := by
  induction h with
  | @comparison o a b ho =>
      have hmentions : hasNonCurrent names name (rewriteResults part (.app o [a, b]))
          = mentions later (.app o [a, b]) := by
        rw [Bool.eq_iff_iff, hasNonCurrent_iff hvars, mentions_iff]
        apply exists_congr
        intro c
        rw [hpart.mem_calls_rewriteResults he, and_assoc]
        apply and_congr_right
        apply hcalls c
      rw [relax_comparison ho, relaxAtom, ← hmentions,
        rewriteResults_app (isComparison_ne_func ho), killNonCurrent_comparison ho]
      split
      · rw [if_pos rfl, rewriteResults_tru]
      · rw [rewriteResults_app (isComparison_ne_func ho)]
  | @connective o l ho _ ih =>
      have hfunc := ne_func (.inl ho)
      have hmap : (l.map (rewriteResults part)).mapM (killNonCurrent names name)
          = some (l.map fun e => rewriteResults part (relax later e true)) := by
        rw [mapM_eq_some_iff, List.forall₂_map_left_iff, List.forall₂_map_right_iff,
          List.forall₂_same]
        intro e hmem
        apply ih e hmem (he.arg hmem)
        · exact fun c hc => hcalls c (mem_calls_app.mpr (.inr ⟨e, hmem, hc⟩))
        · intro x hx
          apply hvars x
          rw [rewriteResults_app hfunc]
          exact mem_vars_app.mpr ⟨_, List.mem_map_of_mem hmem, hx⟩
      rw [relax_connective ho, rewriteResults_app hfunc, rewriteResults_app hfunc, List.map_map]
      rcases isConnective_iff.mp ho with rfl | rfl
      · rw [killNonCurrent, killAll_eq, hmap]
        rfl
      · rw [killNonCurrent, killAll_eq, hmap]
        rfl

/-- What is left is linear in the calls of the function where the literals that are kept are. -/
theorem Combined.built (hpart : DefinesAll part) (hf : f ∉ part.map Prod.fst) (h : Combined e)
    (he : Unnested e)
    (hcalls : ∀ c ∈ e.calls, c.1 ∈ part.map Prod.fst ∨ c.1 = f ∨ c.1 ∈ later)
    (hlinear : ∀ q ∈ literals e true, mentions later q = false → (∃ c ∈ q.calls, c.1 = f) →
      IsLinear f q) :
  Built (IsLinear f) (rewriteResults part (relax later e true))
  := by
  induction h with
  | @comparison o a b ho =>
      have hfunc := isComparison_ne_func ho
      rw [relax_comparison ho, relaxAtom]
      split
      · rw [if_pos rfl, rewriteResults_tru]
        exact .free rfl
      · next hnot =>
          rw [Bool.not_eq_true] at hnot
          by_cases hcalled : ∃ c ∈ (Expr.app o [a, b]).calls, c.1 = f
          · obtain ⟨o', a', b', heq, -, hstrict, ha, hb⟩ := hlinear (.app o [a, b])
              (by simp [literals_comparison ho]) hnot hcalled
            obtain ⟨rfl, hargs⟩ := Expr.app.inj heq
            obtain ⟨rfl, rfl⟩ : a = a' ∧ b = b' := by simpa using hargs
            rw [rewriteResults_app hfunc]
            refine .atom ⟨o, _, _, rfl, ho, hstrict, ?_, ?_⟩
            · exact linear_rewriteResults hpart hf (he.arg (by simp)) ha
            · exact linear_rewriteResults hpart hf (he.arg (by simp)) hb
          · push Not at hcalled
            apply Built.free
            rw [List.eq_nil_iff_forall_not_mem]
            intro c hc
            obtain ⟨hc, hnotmem⟩ := (hpart.mem_calls_rewriteResults he).mp hc
            rcases hcalls c hc with hmem | hmem | hmem
            · exact hnotmem hmem
            · exact hcalled c hc hmem
            · rw [mentions_iff.mpr ⟨c, hc, hmem⟩] at hnot
              cases hnot
  | @connective o l ho _ ih =>
      rw [relax_connective ho, rewriteResults_app (ne_func (.inl ho))]
      refine .connective ho fun e' he' => ?_
      rw [List.map_map] at he'
      obtain ⟨e, hmem, rfl⟩ := List.mem_map.mp he'
      apply ih e hmem (he.arg hmem)
      · exact fun c hc => hcalls c (mem_calls_app.mpr (.inr ⟨e, hmem, hc⟩))
      · intro q hq
        apply hlinear q
        rw [literals_connective ho]
        exact List.mem_flatMap.mpr ⟨e, hmem, hq⟩

end Parts

end Sygus.SSI
