import DryadSynth.Search.Cegis

/-!
# Soundness and progress of the CEGIS loop

With a solver whose answers are consistent with the semantics of SMT-LIB, a candidate that is
returned after `unsat` agrees with the reference, and a candidate that is rejected fails the
example it leaves behind, for the rest of the run.  Both hold where the evaluations reach no
arithmetic shift of a negative value by at least the width, which `eval` and the solver
compute differently, and the first where the candidate returns a value.
-/

namespace DryadSynth

open QFBV (Value)

/-! ### The script of a verification -/

/-- The evaluation reaches no arithmetic shift of a negative value by at least the width. -/
def ShiftFree (env : Environ) (e : OwnedExpr) (args : List (BitVec 64)) : Prop :=
  Frame.Throughout env (fun fr => ¬ fr.WideShift env) ⟨env.stack, e, args⟩

/-- An expression without arithmetic shifts and defined functions. -/
def ExprIn.plain {s : Storage} : ExprIn s → Bool
  | .un (.fop1 _) _ => false
  | .un _ e₁ => e₁.plain
  | .bin (.fop2 _) _ _ => false
  | .bin .ashr _ _ => false
  | .bin _ e₁ e₂ => e₁.plain && e₂.plain
  | .ite e₁ e₂ e₃ => e₁.plain && e₂.plain && e₃.plain
  | .var _ => true
  | .const _ => true

/-- A frame called from a plain expression is one of a plain expression. -/
theorem Frame.Calls.plain {env : Environ} {fr fr' : Frame} (h : Frame.Calls env fr fr')
    (hplain : fr.expr.plain = true) :
  fr'.expr.plain = true
  := by
  cases h with
  | @un depth o e₁ args => cases o <;> simp_all [ExprIn.plain]
  | @bin₁ depth o e₁ e₂ args => cases o <;> simp_all [ExprIn.plain]
  | @bin₂ depth o e₁ e₂ args => cases o <;> simp_all [ExprIn.plain]
  | ite₁ | ite₂ | ite₃ => simp_all [ExprIn.plain]
  | fop1 hd ha => simp [ExprIn.plain] at hplain
  | fop2 hd ha hb => simp [ExprIn.plain] at hplain

theorem shiftFree_of_plain {env : Environ} {e : OwnedExpr} (h : e.plain = true)
    (args : List (BitVec 64)) :
  ShiftFree env e args
  := by
  intro fr hfr
  have hplain : fr.expr.plain = true := by
    induction hfr with
    | refl => exact h
    | tail _ hcall ih => apply hcall.plain ih
  rintro ⟨e₁, e₂, this, that, hexpr, -⟩
  rw [hexpr] at hplain
  simp [ExprIn.plain] at hplain

/-- A script asserts that a candidate differs from the reference, and blocks arguments on
which the reference divides by zero. -/
def Opened (env : Environ) (c : RefImplConstraint) (e : OwnedExpr) (S : Script) : Prop :=
  ∃ r t, ∃ l : List (List (BitVec 64)),
    c.refImpl.display env = some r ∧ e.display env = some t ∧
    S = ⟨c.args, CegisState.difference r t :: l.map CegisState.blocking⟩ ∧
    ∀ args ∈ l, args.length = c.args ∧ c.refImpl.eval env args = .error .divideByZero

section Opened

variable {env : Environ} {c : RefImplConstraint} {e : OwnedExpr} {S : Script}
  {args : List (BitVec 64)}

theorem opened_script (h : CegisState.script env c e = .ok S) :
  Opened env c e S
  := by
  unfold CegisState.script at h
  split_ifs at h
  split at h
  · next r t hr ht =>
      cases h
      exact ⟨r, t, [], hr, ht, rfl, by simp⟩
  · cases h

theorem Opened.args_eq (h : Opened env c e S) :
  S.args = c.args
  := by
  obtain ⟨r, t, l, -, -, rfl, -⟩ := h
  rfl

theorem Opened.block (h : Opened env c e S) (hlen : args.length = c.args)
    (hargs : c.refImpl.eval env args = .error .divideByZero) :
  Opened env c e { S with asserts := S.asserts ++ [CegisState.blocking args] }
  := by
  obtain ⟨r, t, l, hr, ht, rfl, hl⟩ := h
  refine ⟨r, t, l ++ [args], hr, ht, by simp, ?_⟩
  intro args' hargs'
  rcases List.mem_append.mp hargs' with h | h
  · apply hl args' h
  · rw [List.mem_singleton.mp h]
    use hlen

/-- The difference is what it compares, where both evaluations return a value. -/
theorem difference_iff (henv : env.Standard) {r t : SExpr} (hr : c.refImpl.display env = some r)
    (ht : e.display env = some t) {b : Bool} {out v : BitVec 64}
    (hdiff : Script.value args (CegisState.difference r t) = some (.bool b))
    (hout : c.refImpl.eval env args = .ok out) (hv : e.eval env args = .ok v)
    (hrshift : ShiftFree env c.refImpl args) (heshift : ShiftFree env e args) :
  b = (out != v)
  := by
  obtain ⟨x, y, hx, hy, hb⟩ := CegisState.value_difference hdiff
  rw [Script.value_display hr env.stack] at hx
  rw [Script.value_display ht env.stack] at hy
  apply hb
  · apply Frame.denote_eq_of_eval henv hrshift hout hx
  · apply Frame.denote_eq_of_eval henv heshift hv hy

/-- Where the script is unsatisfiable, the candidate agrees with the reference. -/
theorem Opened.eq_of_unsat (h : Opened env c e S) (henv : env.Standard)
    (hunsat : Answer.unsat.Consistent S) (hlen : args.length = c.args) {out v : BitVec 64}
    (hout : c.refImpl.eval env args = .ok out) (hv : e.eval env args = .ok v)
    (hrshift : ShiftFree env c.refImpl args) (heshift : ShiftFree env e args) :
  v = out
  := by
  obtain ⟨r, t, l, hr, ht, rfl, hl⟩ := h
  obtain ⟨hsorted, hno⟩ := hunsat
  obtain ⟨b, hb⟩ := hsorted args hlen _ List.mem_cons_self
  have hdiff := difference_iff henv hr ht hb hout hv hrshift heshift
  by_contra hne
  apply hno args hlen
  intro s hs
  rcases List.mem_cons.mp hs with rfl | hs
  · rw [hb, hdiff, bne_iff_ne.mpr (Ne.symm hne)]
  · obtain ⟨args', hargs', rfl⟩ := List.mem_map.mp hs
    obtain ⟨hlen', herror⟩ := hl args' hargs'
    rw [CegisState.value_blocking (hlen.trans hlen'.symm), decide_eq_true]
    rintro rfl
    rw [hout] at herror
    cases herror

/-- Where arguments satisfy the script, the candidate does not return what the reference
does. -/
theorem Opened.ne_of_satisfied (h : Opened env c e S) (henv : env.Standard)
    (hsat : S.Satisfied args) {out v : BitVec 64} (hout : c.refImpl.eval env args = .ok out)
    (hv : e.eval env args = .ok v) (hrshift : ShiftFree env c.refImpl args)
    (heshift : ShiftFree env e args) :
  v ≠ out
  := by
  obtain ⟨r, t, l, hr, ht, rfl, -⟩ := h
  have hdiff := difference_iff henv hr ht (hsat _ List.mem_cons_self) hout hv hrshift heshift
  apply (bne_iff_ne.mp hdiff.symm).symm

end Opened

/-! ### Soundness -/

namespace CegisRun

section Sound

/-- The invariant of a run for its soundness. -/
structure Sound (env : Environ) (search : ℕ → Option OwnedExpr) (c : RefImplConstraint)
    (s : CegisRun) : Prop where
  constraint_eq : s.state.constraint = c
  proposed : ∀ e S, s.verifying = some (e, S) → ∃ k, search k = some e
  opened : ∀ e S, s.verifying = some (e, S) → Opened env c e S

variable {env : Environ} {c : RefImplConstraint} {search : ℕ → Option OwnedExpr}
  {solver : ℕ → Script → Answer} {s s' : CegisRun}

theorem Sound.start {n : ℕ} {draws : List (List (BitVec 64))}
    (h : CegisRun.start env n c draws = .ok s) :
  Sound env search c s
  := by
  obtain ⟨examples, -, h⟩ := bind_eq_ok.mp h
  cases h
  exact ⟨rfl, by simp, by simp⟩

theorem Sound.transition (h : Sound env search c s) (hstep : Transition env search solver s s') :
  Sound env search c s'
  := by
  obtain ⟨rfl, hproposed, hopened⟩ := h
  cases hstep with
  | propose hv he hs =>
      refine ⟨rfl, ?_, ?_⟩
      · rintro e S ⟨⟩
        use s.searches
      · rintro e S ⟨⟩
        apply opened_script hs
  | reject hv hm hargs hout => exact ⟨rfl, by simp, by simp⟩
  | block hv hargs hout =>
      refine ⟨rfl, ?_, ?_⟩
      · rintro e S ⟨⟩
        apply hproposed _ _ hv
      · rintro e S ⟨⟩
        apply (hopened _ _ hv).block hargs hout

theorem Sound.steps (h : Sound env search c s) {k : ℕ}
    (hk : CegisRun.steps env search solver s k = .ok s') :
  Sound env search c s'
  := by
  induction k generalizing s' with
  | zero =>
      cases hk
      apply h
  | succ k ih =>
      obtain ⟨s₀, h₀, hstep⟩ := steps_succ_eq_ok.mp hk
      apply (ih h₀).transition (step_eq_ok hstep)

/-- A candidate that a run returns after `unsat` agrees with the reference on the arguments on
which it returns a value and neither evaluation reaches a wide shift. -/
theorem solved_agrees (henv : env.Standard) (hsolver : ∀ k S, (solver k S).Consistent S) {n : ℕ}
    {draws : List (List (BitVec 64))} (hs : start env n c draws = .ok s) {k : ℕ} {e : OwnedExpr}
    (hend : steps env search solver s k = .error (.solved e .unsat, s'))
    {args : List (BitVec 64)} (hlen : args.length = c.args) {out : BitVec 64}
    (hout : c.refImpl.eval env args = .ok out) (hrshift : ShiftFree env c.refImpl args)
    (heshift : ShiftFree env e args) (hreturns : ∃ v, e.eval env args = .ok v) :
  e.eval env args = .ok out
  := by
  obtain ⟨j, s₀, hj, hstep⟩ := exists_of_steps_eq_error hend
  obtain ⟨S, hS, hunsat⟩ := step_eq_solved hstep
  have hopened := ((Sound.start hs).steps hj).opened e S hS
  have hconsistent := hsolver s₀.checks S
  rw [hunsat] at hconsistent
  obtain ⟨v, hv⟩ := hreturns
  rw [hv, hopened.eq_of_unsat henv hconsistent hlen hout hv hrshift heshift]

end Sound

end CegisRun

/-! ### Progress -/

/-- The columns of the arguments of the reference are as long as the column of outputs, and
no column is longer. -/
def Aligned (n : ℕ) (c : PbeConstraint) : Prop :=
  ∀ (j : ℕ) x, c.input[j]? = some x → x.length ≤ c.len ∧ (j < n → x.length = c.len)

/-- The example `i` is one of the reference that the candidate fails. -/
def Fails (env : Environ) (n : ℕ) (c : PbeConstraint) (e : OwnedExpr) (i : ℕ) : Prop :=
  ∃ args : List (BitVec 64), ∃ out, args.length = n ∧ c.output[i]? = some out ∧
    (∀ (j : ℕ) x, c.input[j]? = some x → x[i]? = args[j]?) ∧ e.eval env args ≠ .ok out

section Examples

variable {env : Environ} {n i : ℕ} {c : PbeConstraint} {e : OwnedExpr} {args : List (BitVec 64)}
  {out : BitVec 64}

theorem len_addExample (c : PbeConstraint) (args : List (BitVec 64)) (out : BitVec 64) :
  (c.addExample args out).len = c.len + 1
  := by
  simp [PbeConstraint.addExample, PbeConstraint.len]

theorem Aligned.addExample (h : Aligned n c) (hlen : args.length = n) :
  Aligned n (c.addExample args out)
  := by
  intro j x hx
  rw [PbeConstraint.getElem?_addExample, Option.map_eq_some_iff] at hx
  obtain ⟨x, hx, rfl⟩ := hx
  obtain ⟨hle, heq⟩ := h j x hx
  rw [len_addExample, List.length_append]
  by_cases hj : j < n
  · simp [heq hj, List.getElem?_eq_getElem (hlen ▸ hj), hj]
  · have hnone : args[j]? = none := List.getElem?_eq_none (by omega)
    simp only [hnone, Option.toList_none, List.length_nil]
    omega

/-- An example that is added is one that the candidate fails, if it does not return the
output. -/
theorem fails_addExample (h : Aligned n c) (hlen : args.length = n)
    (he : e.eval env args ≠ .ok out) :
  Fails env n (c.addExample args out) e c.len
  := by
  refine ⟨args, out, hlen, by simp [PbeConstraint.addExample, PbeConstraint.len], ?_, he⟩
  intro j x hx
  rw [PbeConstraint.getElem?_addExample, Option.map_eq_some_iff] at hx
  obtain ⟨x, hx, rfl⟩ := hx
  obtain ⟨hle, heq⟩ := h j x hx
  by_cases hj : j < n
  · have hlt : j < args.length := by omega
    rw [List.getElem?_eq_getElem hlt, List.getElem?_append_right hle, heq hj]
    simp
  · have hnone : args[j]? = none := List.getElem?_eq_none (by omega)
    simpa [hnone] using hle

/-- The failed examples are failed after more examples are added. -/
theorem Fails.addExample (hf : Fails env n c e i) (h : Aligned n c) (hlen : args.length = n) :
  Fails env n (c.addExample args out) e i
  := by
  obtain ⟨args', out', hlen', hout', hargs', he⟩ := hf
  have hi : i < c.len := (List.getElem?_eq_some_iff.mp hout').1
  refine ⟨args', out', hlen', ?_, ?_, he⟩
  · rw [PbeConstraint.addExample, List.getElem?_append_left hi, hout']
  · intro j x hx
    rw [PbeConstraint.getElem?_addExample, Option.map_eq_some_iff] at hx
    obtain ⟨x, hx, rfl⟩ := hx
    rw [← hargs' j x hx]
    by_cases hj : j < n
    · rw [List.getElem?_append_left (by rw [(h j x hx).2 hj]; exact hi)]
    · have hnone : args[j]? = none := List.getElem?_eq_none (by omega)
      rw [hnone, Option.toList_none, List.append_nil]

/-- A failed example is not among those that the test of the candidate returns. -/
theorem Fails.not_mem_test (hf : Fails env n c e i) {l : List ℕ} (hl : c.test env e = .ok l) :
  i ∉ l
  := by
  intro hi
  obtain ⟨args, out, hlen, hout, hargs, he⟩ := hf
  obtain ⟨as, out', has, hout', hv⟩ := PbeConstraint.mem_test hl hi
  obtain rfl := Option.some.inj (hout.symm.trans hout')
  apply he
  apply ExprIn.evalWith_of_prefix _ hv
  apply List.prefix_iff_getElem?.mpr
  intro j hj
  have hcol := PbeConstraint.args_eq_ok has j
  rw [List.getElem?_eq_getElem hj] at hcol
  obtain ⟨x, hx, hxi⟩ := Option.bind_eq_some_iff.mp hcol.symm
  rw [← hargs j x hx, hxi]

end Examples

namespace CegisRun

section Progress

/-- The condition for progress on the state before a step: the model of the solver, if it
has one, does not make the evaluation of the reference or of the candidate reach a wide
shift. -/
def Guarded (env : Environ) (solver : ℕ → Script → Answer) (s : CegisRun) : Prop :=
  ∀ e S m args, s.verifying = some (e, S) → solver s.checks S = .sat m →
    CegisState.modelArgs s.state.constraint.args m = .ok args →
    ShiftFree env s.state.constraint.refImpl args ∧ ShiftFree env e args

/-- The invariant of a run for its progress. -/
structure Progress (env : Environ) (search : ℕ → Option OwnedExpr) (c : RefImplConstraint)
    (s : CegisRun) : Prop where
  sound : Sound env search c s
  aligned : Aligned c.args s.state.examples
  fails : ∀ p ∈ s.rejected, Fails env c.args s.state.examples p.1 p.2

variable {env : Environ} {c : RefImplConstraint} {search : ℕ → Option OwnedExpr}
  {solver : ℕ → Script → Answer} {s s' : CegisRun}

/-- The random examples fill all columns. -/
theorem foldlM_randomExample {r : OwnedExpr} {n : ℕ} {draws : List (List (BitVec 64))}
    {c₀ examples : PbeConstraint} (hdraws : ∀ draw ∈ draws, draw.length = n)
    (hfull : ∀ (j : ℕ) x, c₀.input[j]? = some x → j < n ∧ x.length = c₀.len)
    (h : draws.foldlM (PbeConstraint.randomExample env r) c₀ = .ok examples) (j : ℕ)
    (x : List (BitVec 64)) (hx : examples.input[j]? = some x) :
  j < n ∧ x.length = examples.len
  := by
  induction draws generalizing c₀ with
  | nil =>
      cases h
      apply hfull j x hx
  | cons draw draws ih =>
      obtain ⟨c₁, hc₁, h⟩ := bind_eq_ok.mp h
      apply ih (fun d hd => hdraws d (List.mem_cons_of_mem _ hd)) _ h
      unfold PbeConstraint.randomExample at hc₁
      split at hc₁
      · next a ha =>
          cases hc₁
          intro j x hx
          rw [PbeConstraint.getElem?_addExample, Option.map_eq_some_iff] at hx
          obtain ⟨x, hx, rfl⟩ := hx
          obtain ⟨hj, hlen⟩ := hfull j x hx
          have hlt : j < draw.length := by
            rw [hdraws draw List.mem_cons_self]
            apply hj
          use hj
          simp [len_addExample, hlen, List.getElem?_eq_getElem hlt]
      · cases hc₁
        apply hfull
      · cases hc₁
      · cases hc₁

theorem Progress.start {n : ℕ} {draws : List (List (BitVec 64))}
    (hdraws : ∀ draw ∈ draws, draw.length = n) (h : CegisRun.start env n c draws = .ok s) :
  Progress env search c s
  := by
  have hsound : Sound env search c s := Sound.start h
  obtain ⟨examples, hexamples, h⟩ := bind_eq_ok.mp h
  cases h
  refine ⟨hsound, ?_, by simp⟩
  intro j x hx
  have hnew : ∀ (j : ℕ) x, (PbeConstraint.new n).input[j]? = some x →
      j < n ∧ x.length = (PbeConstraint.new n).len := by
    intro j x hx
    rw [PbeConstraint.new, List.getElem?_replicate] at hx
    split_ifs at hx with hj
    cases hx
    use hj
    rfl
  obtain ⟨-, hlen⟩ := foldlM_randomExample hdraws hnew hexamples j x hx
  use hlen.le, fun _ => hlen

theorem Progress.transition (henv : env.Standard)
    (hsolver : ∀ k S, (solver k S).Consistent S) (h : Progress env search c s)
    (hguard : s.Guarded env solver) (hstep : Transition env search solver s s') :
  Progress env search c s'
  := by
  have hsound := h.sound.transition hstep
  obtain ⟨⟨rfl, -, hopened⟩, haligned, hfails⟩ := h
  cases hstep with
  | propose hv he hs => exact ⟨hsound, haligned, hfails⟩
  | block hv hargs hout => exact ⟨hsound, haligned, hfails⟩
  | @reject e script m args out hv hm hargs hout =>
      obtain ⟨hrshift, heshift⟩ := hguard _ _ _ _ hv hm hargs
      have hlen := CegisState.length_modelArgs hargs
      have hS := hopened _ _ hv
      have hconsistent := hsolver s.checks script
      rw [hm] at hconsistent
      rw [← hS.args_eq] at hargs
      have hsat := CegisState.satisfied_modelArgs hconsistent hargs
      refine ⟨hsound, haligned.addExample hlen, ?_⟩
      intro p hp
      rcases List.mem_cons.mp hp with rfl | hp
      · apply fails_addExample haligned hlen
        intro he
        apply hS.ne_of_satisfied henv hsat hout he hrshift heshift rfl
      · apply (hfails p hp).addExample haligned hlen

/-- In a run whose states meet the condition, every rejected candidate fails the example that
its rejection left behind: the index is not in the set that testing the candidate returns,
and the candidate is no solution of all examples. -/
theorem rejected_fails (henv : env.Standard) (hsolver : ∀ k S, (solver k S).Consistent S) {n : ℕ}
    {draws : List (List (BitVec 64))} (hdraws : ∀ draw ∈ draws, draw.length = n)
    (hs : CegisRun.start env n c draws = .ok s)
    (hguard : ∀ j s₀, steps env search solver s j = .ok s₀ → s₀.Guarded env solver) {k : ℕ}
    (hk : steps env search solver s k = .ok s') :
  ∀ p ∈ s'.rejected, p.2 < s'.state.examples.len ∧
    ∀ l, s'.state.examples.test env p.1 = .ok l → p.2 ∉ l ∧ l.length < s'.state.examples.len
  := by
  have hprogress : Progress env search c s' := by
    induction k generalizing s' with
    | zero =>
        cases hk
        apply Progress.start hdraws hs
    | succ k ih =>
        obtain ⟨s₀, h₀, hstep⟩ := steps_succ_eq_ok.mp hk
        apply (ih h₀).transition henv hsolver (hguard k s₀ h₀) (step_eq_ok hstep)
  intro p hp
  have hfails := hprogress.fails p hp
  have hlt : p.2 < s'.state.examples.len := by
    obtain ⟨args, out, -, hout, -⟩ := hfails
    apply (List.getElem?_eq_some_iff.mp hout).1
  use hlt
  intro l hl
  have hmem := hfails.not_mem_test hl
  use hmem, PbeConstraint.length_test_lt hl hlt hmem

end Progress

end CegisRun

/-! ### A run -/

/-- A reference, and two candidates for it. -/
def orReference : RefImplConstraint := ⟨1, .bin .or (.var 0) (.var 0)⟩

/-- The assertion that `(bvor v0 v0)` differs from a term. -/
def orDifference (t : SExpr) : SExpr :=
  CegisState.difference (.list [.id "bvor", .id "v0", .id "v0"]) t

/-- A solver that is first asked about the candidate `0`, and then about `v0`. -/
def orSolver (k : ℕ) (S : Script) : Answer :=
  if k = 0 ∧ S = ⟨1, [orDifference (.const (hexLiteral 0))]⟩ then
    .sat [("v0", "#x0000000000000001")]
  else if k = 1 ∧ S = ⟨1, [orDifference (.id "v0")]⟩ then .unsat
  else .timeout

theorem orSolver_consistent (k : ℕ) (S : Script) :
  (orSolver k S).Consistent S
  := by
  unfold orSolver
  split_ifs with h₀ h₁
  · obtain ⟨rfl, rfl⟩ := h₀
    refine ⟨by decide, ?_, ?_⟩
    · intro p hp
      obtain rfl := List.mem_singleton.mp hp
      exact ⟨⟨0, by decide, rfl⟩, 1, by decide⟩
    · intro args hlen hdesc
      obtain ⟨x, hx, hargs⟩ := hdesc 0 "#x0000000000000001" List.mem_cons_self
      obtain ⟨a, rfl⟩ := List.length_eq_one_iff.mp hlen
      have hone : smtLiteral "#x0000000000000001" = some 1 := by decide
      obtain rfl := Option.some.inj (hone.symm.trans hx)
      obtain rfl : a = 1 := by simpa using hargs
      have hv : Script.value [1] (.id "v0") = some (.bits 1) :=
        Script.value_varName (i := 0) rfl
      intro s hs
      obtain rfl := List.mem_singleton.mp hs
      refine Script.value_call₁.mpr ⟨.bool false, Script.value_call₂.mpr ⟨.bits 1, .bits 0,
        Script.value_call₂.mpr ⟨_, _, hv, hv, rfl⟩, Script.value_hexLiteral _ _, rfl⟩, rfl⟩
  · obtain ⟨rfl, rfl⟩ := h₁
    have hvalue : ∀ args : List (BitVec 64), args.length = 1 →
        Script.value args (orDifference (.id "v0")) = some (.bool false) := by
      intro args hlen
      obtain ⟨a, rfl⟩ := List.length_eq_one_iff.mp hlen
      have hv : Script.value [a] (.id "v0") = some (.bits a) :=
        Script.value_varName (i := 0) rfl
      have hor : Script.value [a] (.list [.id "bvor", .id "v0", .id "v0"]) = some (.bits a) := by
        refine Script.value_call₂.mpr ⟨_, _, hv, hv, ?_⟩
        show some (Value.bits (a ||| a)) = _
        rw [BitVec.or_self]
      refine Script.value_call₁.mpr ⟨.bool true, Script.value_call₂.mpr ⟨_, _, hor, hv, ?_⟩, rfl⟩
      show some (Value.bool (a == a)) = _
      rw [beq_self_eq_true]
    constructor
    · intro args hlen s hs
      obtain rfl := List.mem_singleton.mp hs
      exact ⟨false, hvalue args hlen⟩
    · intro args hlen hsat
      have htrue := (hvalue args hlen).symm.trans (hsat _ List.mem_cons_self)
      cases htrue
  · trivial

/-- The candidates `0` and `v0`. -/
def orSearch (k : ℕ) : Option OwnedExpr := [.const 0, .var 0][k]?

/-- The run rejects `0`, and returns `v0`. -/
theorem orRun :
  ∃ s s₁ s', CegisRun.start (Environ.new 0) 1 orReference [[7]] = .ok s ∧
    CegisRun.steps (Environ.new 0) orSearch orSolver s 2 = .ok s₁ ∧
    s₁.rejected = [(.const 0, 1)] ∧
    CegisRun.steps (Environ.new 0) orSearch orSolver s 4 = .error (.solved (.var 0) .unsat, s')
  := ⟨_, _, _, rfl, rfl, rfl, rfl⟩

theorem standard_new (stack : ℕ) :
  (Environ.new stack).Standard
  := by
  intro n d hd
  cases hd

/-- What the run returns agrees with the reference at 5. -/
theorem CegisRun.solved_agrees_or :
  (ExprIn.var 0 : OwnedExpr).eval (Environ.new 0) [5] = .ok 5
  := by
  obtain ⟨s, s₁, s', hs, -, -, hend⟩ := orRun
  have hout : orReference.refImpl.eval (Environ.new 0) [5] = .ok 5 := rfl
  apply CegisRun.solved_agrees (standard_new 0) orSolver_consistent hs hend rfl hout
    (shiftFree_of_plain rfl _) (shiftFree_of_plain rfl _) ⟨5, rfl⟩

/-- After its rejection the candidate `0` does not solve both examples. -/
theorem CegisRun.rejected_fails_or :
  ∃ s s₁, CegisRun.start (Environ.new 0) 1 orReference [[7]] = .ok s ∧
    CegisRun.steps (Environ.new 0) orSearch orSolver s 2 = .ok s₁ ∧
    ∀ l, s₁.state.examples.test (Environ.new 0) (.const 0 : OwnedExpr) = .ok l → 1 ∉ l
  := by
  obtain ⟨s, s₁, s', hs, h₁, hrejected, -⟩ := orRun
  refine ⟨s, s₁, hs, h₁, ?_⟩
  intro l hl
  have hdraws : ∀ draw ∈ [[(7 : BitVec 64)]], draw.length = 1 := by decide
  have hguard : ∀ j s₀, steps (Environ.new 0) orSearch orSolver s j = .ok s₀ →
      s₀.Guarded (Environ.new 0) orSolver := by
    intro j s₀ h₀ e S m args hv hm hargs
    have hsound : Sound (Environ.new 0) orSearch orReference s₀ := (Sound.start hs).steps h₀
    rw [hsound.constraint_eq]
    obtain ⟨k, hk⟩ := hsound.proposed e S hv
    have he : e.plain = true := by
      match k, hk with
      | 0, rfl => rfl
      | 1, rfl => rfl
    exact ⟨shiftFree_of_plain rfl _, shiftFree_of_plain he _⟩
  have hfails := rejected_fails (standard_new 0) orSolver_consistent hdraws hs hguard h₁
    (.const 0, 1) (by rw [hrejected]; exact List.mem_cons_self)
  apply (hfails.2 l hl).1

/-! ### Where the loop fails -/

/-- A reference that is a constant. -/
def constReference (c : BitVec 64) : RefImplConstraint := ⟨1, .const c⟩

/-- The shift of minus one by 64, which is zero for `eval` and minus one for the solver. -/
def wideShift : OwnedExpr := .bin .ashr (.const (-1)) (.const 64)

/-- The assertion that the shift of minus one by 64 differs from a constant. -/
def wideDifference (c : BitVec 64) : SExpr :=
  CegisState.difference (.const (hexLiteral c))
    (.list [.id "bvashr", .const (hexLiteral (-1)), .const (hexLiteral 64)])

theorem value_wideDifference (c : BitVec 64) (args : List (BitVec 64)) :
  Script.value args (wideDifference c) = some (.bool (c != -1))
  := by
  refine Script.value_call₁.mpr ⟨.bool (c == -1), Script.value_call₂.mpr ⟨.bits c, .bits (-1),
    Script.value_hexLiteral _ _, Script.value_call₂.mpr ⟨.bits (-1), .bits 64,
      Script.value_hexLiteral _ _, Script.value_hexLiteral _ _, ?_⟩, rfl⟩, rfl⟩
  show some (Value.bits ((-1 : BitVec 64).sshiftRight 64)) = _
  decide

/-- A solver that knows the answer whether the shift can differ from a constant. -/
def wideSolver (c : BitVec 64) (answer : Answer) (_ : ℕ) (S : Script) : Answer :=
  if S = ⟨1, [wideDifference c]⟩ then answer else .timeout

theorem wideSolver_consistent {c : BitVec 64} {answer : Answer}
    (h : answer.Consistent ⟨1, [wideDifference c]⟩) (k : ℕ) (S : Script) :
  (wideSolver c answer k S).Consistent S
  := by
  unfold wideSolver
  split_ifs with hS
  · rw [hS]
    apply h
  · trivial

theorem unsat_wideDifference :
  Answer.unsat.Consistent ⟨1, [wideDifference (-1)]⟩
  := by
  constructor
  · intro args hlen s hs
    obtain rfl := List.mem_singleton.mp hs
    exact ⟨_, value_wideDifference _ args⟩
  · intro args hlen hsat
    have htrue := (value_wideDifference _ args).symm.trans (hsat _ List.mem_cons_self)
    revert htrue
    decide

theorem sat_wideDifference :
  (Answer.sat [("v0", "#x0000000000000000")]).Consistent ⟨1, [wideDifference 0]⟩
  := by
  refine ⟨by decide, ?_, ?_⟩
  · intro p hp
    obtain rfl := List.mem_singleton.mp hp
    exact ⟨⟨0, by decide, rfl⟩, 0, by decide⟩
  · intro args hlen hdesc s hs
    obtain rfl := List.mem_singleton.mp hs
    apply value_wideDifference _ args

/-- A consistent solver that answers `unsat` makes the loop return a candidate that differs
from the reference, and one that runs out of time makes it return any candidate. -/
theorem CegisRun.solved_differs :
  (∀ k S, (wideSolver (-1) .unsat k S).Consistent S) ∧
  (∃ s s', start (Environ.new 0) 1 (constReference (-1)) [] = .ok s ∧
    steps (Environ.new 0) (fun _ => some wideShift) (wideSolver (-1) .unsat) s 2
      = .error (.solved wideShift .unsat, s') ∧
    (constReference (-1)).refImpl.eval (Environ.new 0) [5] = .ok (-1) ∧
    wideShift.eval (Environ.new 0) [5] = .ok 0) ∧
  ∃ s s', start (Environ.new 0) 1 orReference [] = .ok s ∧
    steps (Environ.new 0) orSearch (fun _ _ => .timeout) s 2
      = .error (.solved (.const 0) .timeout, s') ∧
    orReference.refImpl.eval (Environ.new 0) [5] = .ok 5 ∧
    (.const 0 : OwnedExpr).eval (Environ.new 0) [5] = .ok 0
  := ⟨wideSolver_consistent unsat_wideDifference, ⟨_, _, rfl, rfl, rfl, rfl⟩, _, _, rfl, rfl, rfl,
    rfl⟩

/-- A consistent solver makes the loop reject a candidate that solves all examples, the one
that the rejection leaves behind included. -/
theorem CegisRun.rejected_solves :
  (∀ k S, (wideSolver 0 (.sat [("v0", "#x0000000000000000")]) k S).Consistent S) ∧
  ∃ s s', start (Environ.new 0) 1 (constReference 0) [] = .ok s ∧
    steps (Environ.new 0) (fun _ => some wideShift)
      (wideSolver 0 (.sat [("v0", "#x0000000000000000")])) s 2 = .ok s' ∧
    s'.rejected = [(wideShift, 0)] ∧
    s'.state.examples.test (Environ.new 0) wideShift = .ok [0]
  := ⟨wideSolver_consistent sat_wideDifference, _, _, rfl, rfl, rfl, rfl⟩

end DryadSynth
