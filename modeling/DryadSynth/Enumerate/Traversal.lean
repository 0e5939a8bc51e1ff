import DryadSynth.Enumerate.Vector

/-!
# The callback of a traversal

`Expr::for_each_subexpr` with its callback, which has a state of its own and may fail.  A
traversal is the walk over the sub-expressions with the callback played on its calls up to
the first that fails.  On an expression without `ite` whose divisors are nonzero and whose
defined functions return, the calls are the proper sub-expressions with their values.
-/

namespace DryadSynth

variable {N : ℕ} {σ : Type}

/-! ### The traversal -/

/-- The closure `f`: its state after a call, and whether the call returns `Ok`. -/
abbrev Visitor (σ : Type) (N : ℕ) : Type := Expr → Bv N → σ → σ × Bool

/-- What a traversal returns, with the state of its callback after it. -/
abbrev Traversal (σ : Type) (N : ℕ) : Type := Except Fault (σ × Except Unit (Option (Bv N)))

/-- The traversal of the operand `e`, and the call `f(e, v)?` with its value, before what
follows. -/
def Visitor.operand (f : Visitor σ N) (traverse : σ → Traversal σ N) (e : Expr)
    (next : Bv N → σ → Traversal σ N) (s : σ) : Traversal σ N := do
  match ← traverse s with
  | (s, .ok (some v)) =>
      match f e v s with
      | (s, true) => next v s
      | (s, false) => .ok (s, .error ())
  | (s, .ok none) => .ok (s, .ok none)
  | (s, .error ()) => .ok (s, .error ())

/-- `Expr::for_each_subexpr`. -/
def ExprIn.traverse (env : Environ) (args : List (Bv N)) (f : Visitor σ N) :
    Expr → σ → Traversal σ N
  | .un o e₁ =>
      f.operand (e₁.traverse env args f) e₁ fun v₁ s => do
      let v ← env.evalUn o v₁
      .ok (s, .ok (some v))
  | .bin o e₁ e₂ =>
      f.operand (e₁.traverse env args f) e₁ fun v₁ =>
      f.operand (e₂.traverse env args f) e₂ fun v₂ s =>
      if o.nonzero && v₂.anyEq Bv.zeros then .ok (s, .ok none)
      else do
        let v ← env.evalBin o v₁ v₂
        .ok (s, .ok (some v))
  | .ite _ _ _ => fun s => .ok (s, .ok none)
  | .var i => fun s =>
      match args[i]? with
      | some v => .ok (s, .ok (some v))
      | none => .error .panic
  | .const c => fun s => .ok (s, .ok (some (Bv.splat c)))

/-! ### The calls -/

/-- The callback on a list of calls, up to the first that fails. -/
def Visitor.play (f : Visitor σ N) : List (Expr × Bv N) → σ → σ × Bool
  | [], s => (s, true)
  | p :: ps, s =>
      match f p.1 p.2 s with
      | (s, true) => f.play ps s
      | (s, false) => (s, false)

theorem Visitor.play_append (f : Visitor σ N) (l l' : List (Expr × Bv N)) (s : σ) :
  f.play (l ++ l') s
    = match f.play l s with
      | (s, true) => f.play l' s
      | (s, false) => (s, false)
  := by
  induction l generalizing s with
  | nil => rfl
  | cons p l ih =>
      rcases hp : f p.1 p.2 s with ⟨s', ok⟩
      cases ok with
      | false => simp [play, hp]
      | true => simp [play, hp, ih]

/-- A walk with the callback played on its calls. -/
def Walk.run (f : Visitor σ N) (w : Walk N) (s : σ) : Traversal σ N :=
  match f.play w.calls s with
  | (s, true) => w.result.map fun r => (s, .ok r)
  | (s, false) => .ok (s, .error ())

/-- The walk of an operand and what follows, played on a callback. -/
theorem Walk.run_visit (f : Visitor σ N) (w : Walk N) (e : Expr) (next : Bv N → Walk N) (s : σ) :
  (w.visit e next).run f s = f.operand (w.run f) e (fun v => (next v).run f) s
  := by
  rcases hplay : f.play w.calls s with ⟨s', ok⟩
  cases ok with
  | false =>
      cases hw : w.result with
      | error a => simp [visit, hw, run, hplay, Visitor.operand, bind, Except.bind]
      | ok r =>
          cases r with
          | none => simp [visit, hw, run, hplay, Visitor.operand, bind, Except.bind]
          | some v =>
              simp [visit, hw, run, hplay, Visitor.operand, Visitor.play_append, bind,
                Except.bind]
  | true =>
      cases hw : w.result with
      | error a => simp [visit, hw, run, hplay, Visitor.operand, bind, Except.bind, Except.map]
      | ok r =>
          cases r with
          | none => simp [visit, hw, run, hplay, Visitor.operand, bind, Except.bind, Except.map]
          | some v =>
              rcases hf : f e v s' with ⟨s'', ok⟩
              cases ok <;>
                simp [visit, hw, run, hplay, Visitor.operand, Visitor.play_append,
                  Visitor.play, hf, bind, Except.bind, Except.map]

/-- A traversal is the walk with the callback played on its calls. -/
theorem ExprIn.traverse_eq_run (env : Environ) (args : List (Bv N)) (f : Visitor σ N) (e : Expr)
    (s : σ) :
  e.traverse env args f s = (e.forEachSubexpr env args).run f s
  := by
  induction e generalizing s with
  | un o e₁ ih =>
      have h₁ : e₁.traverse env args f = (e₁.forEachSubexpr env args).run f := funext ih
      simp only [traverse, forEachSubexpr, Walk.run_visit, h₁]
      congr 1
      funext v₁ s
      cases hv : env.evalUn o v₁ <;>
        simp [Walk.run, Visitor.play, bind, Except.bind, Except.map]
  | bin o e₁ e₂ ih₁ ih₂ =>
      have h₁ : e₁.traverse env args f = (e₁.forEachSubexpr env args).run f := funext ih₁
      have h₂ : e₂.traverse env args f = (e₂.forEachSubexpr env args).run f := funext ih₂
      simp only [traverse, forEachSubexpr, Walk.run_visit, h₁, h₂]
      congr 1
      funext v₁
      funext s
      rw [Walk.run_visit]
      congr 1
      funext v₂ s
      split_ifs with hzero
      · simp [Walk.run, Visitor.play, Except.map]
      · cases hv : env.evalBin o v₁ v₂ <;>
          simp [Walk.run, Visitor.play, bind, Except.bind, Except.map]
  | ite e₁ e₂ e₃ => rfl
  | var i => cases hi : args[i]? <;> simp [traverse, forEachSubexpr, hi, Walk.run, Visitor.play,
      Except.map]
  | const c => rfl

/-! ### Regular expressions -/

/-- The expression has no `ite`, its variables are arguments, on every lane its divisors and
the second arguments of its two-argument defined functions are nonzero, and its defined
functions return. -/
def ExprIn.Regular (env : Environ) (args : List (Bv N)) : Expr → Prop
  | .un o e₁ => e₁.Regular env args ∧
      ∀ v₁, e₁.evalBv env args = .ok v₁ → ∀ i, o = .fop1 i → ∃ v, env.evalUn o v₁ = .ok v
  | .bin o e₁ e₂ => e₁.Regular env args ∧ e₂.Regular env args ∧
      (o.nonzero = true → ∀ v₂, e₂.evalBv env args = .ok v₂ → ∀ k, v₂ k ≠ 0) ∧
      ∀ v₁ v₂, e₁.evalBv env args = .ok v₁ → e₂.evalBv env args = .ok v₂ →
        ∀ i, o = .fop2 i → ∃ v, env.evalBin o v₁ v₂ = .ok v
  | .ite _ _ _ => False
  | .var i => i < args.length
  | .const _ => True

variable {env : Environ} {args : List (Bv N)}

/-- A regular expression has a value, with which its walk ends, and the walk calls the
callback with every proper sub-expression. -/
theorem ExprIn.Regular.exists_walk {e : Expr} (h : e.Regular env args) :
  ∃ v, e.evalBv env args = .ok v ∧ (e.forEachSubexpr env args).result = .ok (some v) ∧
    (e.forEachSubexpr env args).calls.map Prod.fst = e.proper
  := by
  induction e with
  | un o e₁ ih =>
      obtain ⟨h₁, hfop⟩ := h
      obtain ⟨v₁, hv₁, hr₁, hc₁⟩ := ih h₁
      obtain ⟨v, hv⟩ : ∃ v, env.evalUn o v₁ = .ok v := by
        cases o with
        | fop1 i => apply hfop v₁ hv₁ i rfl
        | not | neg => exact ⟨_, rfl⟩
      refine ⟨v, evalBv_un.mpr ⟨v₁, hv₁, hv⟩, ?_, ?_⟩
      · simp [forEachSubexpr, Walk.visit, hr₁, hv, Except.map]
      · simp [forEachSubexpr, Walk.visit, hr₁, hc₁, proper]
  | bin o e₁ e₂ ih₁ ih₂ =>
      obtain ⟨h₁, h₂, hnonzero, hfop⟩ := h
      obtain ⟨v₁, hv₁, hr₁, hc₁⟩ := ih₁ h₁
      obtain ⟨v₂, hv₂, hr₂, hc₂⟩ := ih₂ h₂
      have hany : o.nonzero = true → v₂.anyEq Bv.zeros = false := fun ho =>
        Bv.anyEq_eq_false.mpr (hnonzero ho v₂ hv₂)
      have hzero : (o.nonzero && v₂.anyEq Bv.zeros) = false := by
        cases ho : o.nonzero with
        | false => rfl
        | true => rw [hany ho, Bool.and_false]
      obtain ⟨v, hv⟩ : ∃ v, env.evalBin o v₁ v₂ = .ok v := by
        by_cases ho : ∃ i, o = .fop2 i
        · obtain ⟨i, ho⟩ := ho
          apply hfop v₁ v₂ hv₁ hv₂ i ho
        · apply Environ.exists_evalBin_of_nonzero (not_exists.mp ho) v₁ hany
      refine ⟨v, evalBv_bin.mpr ⟨v₁, hv₁, v₂, hv₂, hv⟩, ?_, ?_⟩
      · simp [forEachSubexpr, Walk.visit, hr₁, hr₂, hzero, hv, Except.map]
      · simp [forEachSubexpr, Walk.visit, hr₁, hr₂, hc₁, hc₂, proper]
  | ite e₁ e₂ e₃ => cases h
  | var i =>
      have hi : args[i]? = some args[i] := List.getElem?_eq_getElem h
      refine ⟨args[i], evalBv_var.mpr hi, ?_, ?_⟩
      · simp only [forEachSubexpr, hi]
      · simp only [forEachSubexpr, hi, proper, List.map_nil]
  | const c => exact ⟨Bv.splat c, evalBv_const, rfl, rfl⟩

/-- On a regular expression the traversal calls the callback once for every occurrence of a
proper sub-expression, an operand after its own and the left before the right, with the value
of `eval_bv`, and returns the value of the expression; after a call that fails it makes no
further one and returns `Err`. -/
theorem ExprIn.traverse_exact {e : Expr} (h : e.Regular env args) :
  ∃ v calls, e.evalBv env args = .ok v ∧ calls.map Prod.fst = e.proper ∧
    (∀ p ∈ calls, p.1.evalBv env args = .ok p.2) ∧
    ∀ (σ : Type) (f : Visitor σ N) (s : σ), e.traverse env args f s
      = .ok (match f.play calls s with
        | (s, true) => (s, .ok (some v))
        | (s, false) => (s, .error ()))
  := by
  obtain ⟨v, hv, hresult, hcalls⟩ := h.exists_walk
  refine ⟨v, (e.forEachSubexpr env args).calls, hv, hcalls, ?_, ?_⟩
  · intro p hp
    apply evalBv_of_mem_forEachSubexpr hp
  · intro σ f s
    rw [traverse_eq_run, Walk.run, hresult]
    rcases f.play (e.forEachSubexpr env args).calls s with ⟨s, ok⟩
    cases ok <;> rfl

/-- The traversal of `(bvudiv (bvnot v0) v1)` on one lane. -/
theorem ExprIn.traverse_exact_udiv :
  ∃ v calls, (ExprIn.bin .udiv (.un .not (.var 0)) (.var 1) : Expr).evalBv (Environ.new 0)
      [(Bv.splat 5 : Bv 1), Bv.splat 2] = .ok v ∧
    calls.map Prod.fst = (ExprIn.bin .udiv (.un .not (.var 0)) (.var 1) : Expr).proper ∧
    (∀ p ∈ calls, p.1.evalBv (Environ.new 0) [(Bv.splat 5 : Bv 1), Bv.splat 2] = .ok p.2) ∧
    ∀ (σ : Type) (f : Visitor σ 1) (s : σ),
      (ExprIn.bin .udiv (.un .not (.var 0)) (.var 1) : Expr).traverse (Environ.new 0)
          [(Bv.splat 5 : Bv 1), Bv.splat 2] f s
        = .ok (match f.play calls s with
          | (s, true) => (s, .ok (some v))
          | (s, false) => (s, .error ()))
  := by
  apply ExprIn.traverse_exact
  refine ⟨⟨Nat.two_pos, ?_⟩, Nat.one_lt_two, ?_, ?_⟩
  · rintro v₁ - i ⟨⟩
  · intro _ v₂ hv₂ k
    cases hv₂
    simp [Bv.splat]
  · rintro v₁ v₂ - - i ⟨⟩

end DryadSynth
