import DryadSynth.Enumerate.Vector

/-!
# The evaluators

`eval` and `eval_bv`, of `Expr` and of `OwnedExpr`, and the conversions between the two.
With at least one lane `eval_bv` returns exactly when `eval` does on every lane.  Without
lanes no operation fails, and `eval_bv` returns exactly when the variables and the defined
functions that it reads exist.
-/

namespace DryadSynth

variable {N : ℕ} {s : Storage}

/-! ### Evaluation without lanes -/

/-- Which defined functions can be called. -/
structure Callable where
  fop1 : ℕ → Prop
  fop2 : ℕ → Prop

/-- The variables of the expression are among `n` arguments, and its defined functions can
be called. -/
def ExprIn.Defined (C : Callable) (n : ℕ) : ExprIn s → Prop
  | .un o e₁ => e₁.Defined C n ∧ ∀ i, o = .fop1 i → C.fop1 i
  | .bin o e₁ e₂ => e₁.Defined C n ∧ e₂.Defined C n ∧ ∀ i, o = .fop2 i → C.fop2 i
  | .ite e₁ e₂ e₃ => e₁.Defined C n ∧ e₂.Defined C n ∧ e₃.Defined C n
  | .var i => i < n
  | .const _ => True

/-- The defined functions that can be called when the stack admits `depth` nested calls. -/
def Environ.callable (env : Environ) : ℕ → Callable
  | 0 => ⟨fun _ => False, fun _ => False⟩
  | depth + 1 =>
      { fop1 := fun i => ∃ d, env.get i 1 = some d ∧ d.expr.Defined (env.callable depth) 1
        fop2 := fun i => ∃ d, env.get i 2 = some d ∧ d.expr.Defined (env.callable depth) 2 }

/-- The calls on no lanes that return are those that can be made. -/
structure EmptyCalls (F : BvFuns 0) (C : Callable) : Prop where
  fop1 : ∀ i a, (∃ v, F.fop1 i a = .ok v) ↔ C.fop1 i
  fop2 : ∀ i a b, (∃ v, F.fop2 i a b = .ok v) ↔ C.fop2 i

/-- On no lanes a division has a value. -/
theorem Bv.exists_lanewise_empty (f : BitVec 64 → BitVec 64 → Except Fault (BitVec 64))
    (v w : Bv 0) :
  ∃ u, Bv.lanewise f v w = .ok u
  := Bv.exists_lanewise fun i => i.elim0

theorem EmptyCalls.evalUn {F : BvFuns 0} {C : Callable} (h : EmptyCalls F C) (o : UnOp)
    (v₁ : Bv 0) :
  (∃ v, o.evalBv F v₁ = .ok v) ↔ ∀ i, o = .fop1 i → C.fop1 i
  := by
  cases o with
  | fop1 i => simpa [UnOp.evalBv] using h.fop1 i v₁
  | not | neg => simp [UnOp.evalBv]

theorem EmptyCalls.evalBin {F : BvFuns 0} {C : Callable} (h : EmptyCalls F C) (o : BinOp)
    (v₁ v₂ : Bv 0) :
  (∃ v, o.evalBv F v₁ v₂ = .ok v) ↔ ∀ i, o = .fop2 i → C.fop2 i
  := by
  cases o with
  | fop2 i => simpa [BinOp.evalBv] using h.fop2 i v₁ v₂
  | udiv | urem | sdiv | srem => simpa [BinOp.evalBv] using Bv.exists_lanewise_empty _ v₁ v₂
  | _ => simp [BinOp.evalBv]

/-- On no lanes `eval_bv` returns when what it reads is defined. -/
theorem EmptyCalls.evalBvWith {F : BvFuns 0} {C : Callable} (h : EmptyCalls F C) (e : ExprIn s)
    (args : List (Bv 0)) :
  (∃ v, e.evalBvWith F args = .ok v) ↔ e.Defined C args.length
  := by
  induction e with
  | un o e₁ ih =>
      rw [ExprIn.Defined, ← ih]
      simp only [ExprIn.evalBvWith, bind_eq_ok]
      constructor
      · rintro ⟨v, v₁, h₁, hv⟩
        use ⟨v₁, h₁⟩, (h.evalUn o v₁).mp ⟨v, hv⟩
      · rintro ⟨⟨v₁, h₁⟩, ho⟩
        obtain ⟨v, hv⟩ := (h.evalUn o v₁).mpr ho
        use v, v₁, h₁
  | bin o e₁ e₂ ih₁ ih₂ =>
      rw [ExprIn.Defined, ← ih₁, ← ih₂]
      simp only [ExprIn.evalBvWith, bind_eq_ok]
      constructor
      · rintro ⟨v, v₁, h₁, v₂, h₂, hv⟩
        use ⟨v₁, h₁⟩, ⟨v₂, h₂⟩, (h.evalBin o v₁ v₂).mp ⟨v, hv⟩
      · rintro ⟨⟨v₁, h₁⟩, ⟨v₂, h₂⟩, ho⟩
        obtain ⟨v, hv⟩ := (h.evalBin o v₁ v₂).mpr ho
        use v, v₁, h₁, v₂, h₂
  | ite e₁ e₂ e₃ ih₁ ih₂ ih₃ =>
      rw [ExprIn.Defined, ← ih₁, ← ih₂, ← ih₃]
      simp only [ExprIn.evalBvWith, bind_eq_ok]
      constructor
      · rintro ⟨v, v₁, h₁, v₂, h₂, v₃, h₃, hv⟩
        use ⟨v₁, h₁⟩, ⟨v₂, h₂⟩, v₃, h₃
      · rintro ⟨⟨v₁, h₁⟩, ⟨v₂, h₂⟩, v₃, h₃⟩
        use fun i => op.ite (v₁ i) (v₂ i) (v₃ i), v₁, h₁, v₂, h₂, v₃, h₃
  | var i =>
      rw [ExprIn.Defined]
      by_cases hi : i < args.length
      · simp [ExprIn.evalBvWith, hi]
      · simp [ExprIn.evalBvWith, hi]
  | const c => simp [ExprIn.evalBvWith, ExprIn.Defined]

theorem Environ.emptyCalls (env : Environ) (depth : ℕ) :
  EmptyCalls (env.bvFuns 0 depth) (env.callable depth)
  := by
  induction depth with
  | zero => constructor <;> simp [Environ.bvFuns, Environ.callable]
  | succ depth ih =>
      constructor
      · intro i a
        cases hd : env.get i 1 with
        | none => simp [Environ.bvFuns, Environ.callable, hd]
        | some d => simpa [Environ.bvFuns, Environ.callable, hd] using ih.evalBvWith d.expr [a]
      · intro i a b
        cases hd : env.get i 2 with
        | none => simp [Environ.bvFuns, Environ.callable, hd]
        | some d => simpa [Environ.bvFuns, Environ.callable, hd] using ih.evalBvWith d.expr [a, b]

/-! ### The evaluators agree -/

/-- The arguments on one lane. -/
def lane (args : List (Bv N)) (k : Fin N) : List (BitVec 64) := args.map fun a => a k

/-- The lanes of `eval_bv` are the values of `eval`.  With at least one lane `eval_bv`
returns exactly when `eval` does on every lane; without lanes, when all that it reads is
defined.  The expression as an `OwnedExpr`, and that as an `Expr` again, evaluate to the same
results. -/
theorem evaluators_agree (env : Environ) (e : Expr) (args : List (Bv N)) :
  (∀ v, e.evalBv env args = .ok v → ∀ k, e.eval env (lane args k) = .ok (v k)) ∧
    (0 < N → ((∃ v, e.evalBv env args = .ok v)
      ↔ ∀ k, ∃ x, e.eval env (lane args k) = .ok x)) ∧
    (N = 0 → ((∃ v, e.evalBv env args = .ok v)
      ↔ e.Defined (env.callable env.stack) args.length)) ∧
    (∀ as, (e.convert : OwnedExpr).eval env as = e.eval env as) ∧
    (e.convert : OwnedExpr).evalBv env args = e.evalBv env args ∧
    (∀ as, ((e.convert : OwnedExpr).convert : Expr).eval env as = e.eval env as) ∧
    ((e.convert : OwnedExpr).convert : Expr).evalBv env args = e.evalBv env args
  := by
  refine ⟨?_, ?_, ?_, fun as => e.eval_convert env, e.evalBv_convert, ?_, ?_⟩
  · intro v hv k
    have hN : 0 < N := Fin.pos k
    apply (e.evalBv_iff_eval env hN args).mp hv
  · intro hN
    constructor
    · rintro ⟨v, hv⟩ k
      use v k
      apply (e.evalBv_iff_eval env hN args).mp hv
    · intro h
      choose v hv using h
      use v
      apply (e.evalBv_iff_eval env hN args).mpr hv
  · rintro rfl
    apply (env.emptyCalls env.stack).evalBvWith
  · intro as
    rw [ExprIn.convert_convert]
  · rw [ExprIn.convert_convert]

/-- Without lanes a variable that is no argument ends `eval_bv`, and there is no lane on which
`eval` could fail. -/
theorem evaluators_disagree_empty :
  ¬ ∀ (N : ℕ) (env : Environ) (e : Expr) (args : List (Bv N)),
    (∃ v, e.evalBv env args = .ok v) ↔ ∀ k, ∃ x, e.eval env (lane args k) = .ok x
  := by
  intro h
  obtain ⟨v, hv⟩ := (h 0 (Environ.new 0) (.var 0) []).mpr fun k => k.elim0
  cases hv

end DryadSynth
