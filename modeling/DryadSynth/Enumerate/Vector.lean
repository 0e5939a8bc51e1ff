import DryadSynth.Enumerate.Expr

/-!
# Evaluation on several lanes

The lane vectors `Bv` of `enumerate/mod.rs`, the vector operators of `op::bv`, `eval_bv`,
and `for_each_subexpr`.  A vector operator panics where a lane has no value.  When `eval_bv`
returns, its lanes are the values that `eval` returns lane by lane.
-/

namespace DryadSynth

/-! ### Lane vectors -/

/-- `Bv`: a value on each of `N` lanes. -/
abbrev Bv (N : ℕ) : Type := Fin N → BitVec 64

variable {N : ℕ}

namespace Bv

/-- `Bv([c; N])`. -/
def splat (c : BitVec 64) : Bv N := fun _ => c

/-- `Bv::ONES`. -/
def ones : Bv N := splat (-1)

/-- `Bv::ZEROS`. -/
def zeros : Bv N := splat 0

/-- `!v`. -/
def not (v : Bv N) : Bv N := fun i => op.not (v i)

/-- `v & w`. -/
def and (v w : Bv N) : Bv N := fun i => op.and (v i) (w i)

/-- `v | w`. -/
def or (v w : Bv N) : Bv N := fun i => op.or (v i) (w i)

/-- `v ^ w`. -/
def xor (v w : Bv N) : Bv N := fun i => op.xor (v i) (w i)

/-- `v - w`. -/
def sub (v w : Bv N) : Bv N := fun i => op.sub (v i) (w i)

/-- `Bv::any_eq`. -/
def anyEq (v w : Bv N) : Bool := decide (∃ i, v i = w i)

/-- `Bv::imples`. -/
def imples (v w : Bv N) : Bool := decide (∀ i, ~~~(v i) &&& w i = 0)

/-- `Bv::count`. -/
def count (v : Bv N) : ℕ := ((List.finRange N).map fun i => (v i).cpop.toNat).sum

/-- `Bv::count_zeros`. -/
def countZeros (v : Bv N) : ℕ := ((List.finRange N).map fun i => 64 - (v i).cpop.toNat).sum

theorem anyEq_eq_false {v w : Bv N} :
  v.anyEq w = false ↔ ∀ i, v i ≠ w i
  := by
  simp [anyEq]

/-- A lane-wise operator that may fail, unwrapped on every lane. -/
def lanewise (f : BitVec 64 → BitVec 64 → Except Fault (BitVec 64)) (v w : Bv N) :
    Except Fault (Bv N) :=
  if ∀ i, (f (v i) (w i)).isOk = true then .ok fun i => (f (v i) (w i)).toOption.getD 0
  else .error .panic

theorem lanewise_eq_ok {f : BitVec 64 → BitVec 64 → Except Fault (BitVec 64)} {v w u : Bv N} :
  lanewise f v w = .ok u ↔ ∀ i, f (v i) (w i) = .ok (u i)
  := by
  have hlane : ∀ (r : Except Fault (BitVec 64)) (x : BitVec 64),
      r.isOk = true ∧ r.toOption.getD 0 = x ↔ r = .ok x := by
    intro r x
    cases r <;> simp [Except.isOk, Except.toBool, Except.toOption]
  rw [lanewise]
  constructor
  · intro h i
    split_ifs at h with hok
    apply (hlane _ _).mp
    use hok i
    apply congrFun (Except.ok.inj h) i
  · intro h
    rw [if_pos fun i => ((hlane _ _).mpr (h i)).1]
    apply congrArg Except.ok
    funext i
    apply ((hlane _ _).mpr (h i)).2

theorem exists_lanewise {f : BitVec 64 → BitVec 64 → Except Fault (BitVec 64)} {v w : Bv N}
    (h : ∀ i, ∃ x, f (v i) (w i) = .ok x) :
  ∃ u, lanewise f v w = .ok u
  := by
  choose u hu using h
  use u, lanewise_eq_ok.mpr hu

end Bv

/-! ### The vector operators -/

/-- What the calls of defined functions return on vectors:
`deffun::ENV.apply(I, n).eval_bv(..)`. -/
structure BvFuns (N : ℕ) where
  fop1 : ℕ → Bv N → Except Fault (Bv N)
  fop2 : ℕ → Bv N → Bv N → Except Fault (Bv N)

/-- `bv_op_of!` for the operators of arity one. -/
def UnOp.evalBv (F : BvFuns N) : UnOp → Bv N → Except Fault (Bv N)
  | .not, v₁ => .ok fun i => op.not (v₁ i)
  | .neg, v₁ => .ok fun i => op.neg (v₁ i)
  | .fop1 i, v₁ => F.fop1 i v₁

/-- `bv_op_of!` for the operators of arity two. -/
def BinOp.evalBv (F : BvFuns N) : BinOp → Bv N → Bv N → Except Fault (Bv N)
  | .add, v₁, v₂ => .ok fun i => op.add (v₁ i) (v₂ i)
  | .xor, v₁, v₂ => .ok fun i => op.xor (v₁ i) (v₂ i)
  | .and, v₁, v₂ => .ok fun i => op.and (v₁ i) (v₂ i)
  | .or, v₁, v₂ => .ok fun i => op.or (v₁ i) (v₂ i)
  | .mul, v₁, v₂ => .ok fun i => op.mul (v₁ i) (v₂ i)
  | .sub, v₁, v₂ => .ok fun i => op.sub (v₁ i) (v₂ i)
  | .fop2 i, v₁, v₂ => F.fop2 i v₁ v₂
  | .lshr, v₁, v₂ => .ok fun i => op.lshr (v₁ i) (v₂ i)
  | .ashr, v₁, v₂ => .ok fun i => op.ashr (v₁ i) (v₂ i)
  | .shl, v₁, v₂ => .ok fun i => op.shl (v₁ i) (v₂ i)
  | .udiv, v₁, v₂ => Bv.lanewise op.udiv v₁ v₂
  | .urem, v₁, v₂ => Bv.lanewise op.urem v₁ v₂
  | .sdiv, v₁, v₂ => Bv.lanewise op.sdiv v₁ v₂
  | .srem, v₁, v₂ => Bv.lanewise op.srem v₁ v₂

/-! ### `eval_bv` -/

/-- `Expr::eval_bv` and `OwnedExpr::eval_bv`, with the defined functions as a parameter. -/
def ExprIn.evalBvWith {s : Storage} (F : BvFuns N) (args : List (Bv N)) :
    ExprIn s → Except Fault (Bv N)
  | .un o e₁ => do
      let v₁ ← e₁.evalBvWith F args
      o.evalBv F v₁
  | .bin o e₁ e₂ => do
      let v₁ ← e₁.evalBvWith F args
      let v₂ ← e₂.evalBvWith F args
      o.evalBv F v₁ v₂
  | .ite e₁ e₂ e₃ => do
      let v₁ ← e₁.evalBvWith F args
      let v₂ ← e₂.evalBvWith F args
      let v₃ ← e₃.evalBvWith F args
      .ok fun i => op.ite (v₁ i) (v₂ i) (v₃ i)
  | .var i =>
      match args[i]? with
      | some v => .ok v
      | none => .error .panic
  | .const c => .ok (Bv.splat c)

/-- The calls of defined functions on vectors when the stack admits `depth` nested calls. -/
def Environ.bvFuns (N : ℕ) (env : Environ) : ℕ → BvFuns N
  | 0 => ⟨fun _ _ => .error .stackOverflow, fun _ _ _ => .error .stackOverflow⟩
  | depth + 1 =>
      { fop1 := fun i a =>
          match env.get i 1 with
          | some d => d.expr.evalBvWith (env.bvFuns N depth) [a]
          | none => .error .panic
        fop2 := fun i a b =>
          match env.get i 2 with
          | some d => d.expr.evalBvWith (env.bvFuns N depth) [a, b]
          | none => .error .panic }

/-- The vector operator of arity one in an environment. -/
def Environ.evalUn (env : Environ) (o : UnOp) (v₁ : Bv N) : Except Fault (Bv N) :=
  o.evalBv (env.bvFuns N env.stack) v₁

/-- The vector operator of arity two in an environment. -/
def Environ.evalBin (env : Environ) (o : BinOp) (v₁ v₂ : Bv N) : Except Fault (Bv N) :=
  o.evalBv (env.bvFuns N env.stack) v₁ v₂

/-- `Expr::eval_bv` and `OwnedExpr::eval_bv`. -/
def ExprIn.evalBv {s : Storage} (env : Environ) (e : ExprIn s) (args : List (Bv N)) :
    Except Fault (Bv N) :=
  e.evalBvWith (env.bvFuns N env.stack) args

section EvalBv

variable {s : Storage} {env : Environ} {args : List (Bv N)}

theorem ExprIn.evalBv_un {o : UnOp} {e₁ : ExprIn s} {v : Bv N} :
  (ExprIn.un o e₁).evalBv env args = .ok v
    ↔ ∃ v₁, e₁.evalBv env args = .ok v₁ ∧ env.evalUn o v₁ = .ok v
  := bind_eq_ok

theorem ExprIn.evalBv_bin {o : BinOp} {e₁ e₂ : ExprIn s} {v : Bv N} :
  (ExprIn.bin o e₁ e₂).evalBv env args = .ok v
    ↔ ∃ v₁, e₁.evalBv env args = .ok v₁ ∧
      ∃ v₂, e₂.evalBv env args = .ok v₂ ∧ env.evalBin o v₁ v₂ = .ok v
  := by
  simp only [ExprIn.evalBv, ExprIn.evalBvWith, bind_eq_ok]
  rfl

theorem ExprIn.evalBv_var {i : ℕ} {v : Bv N} :
  (ExprIn.var i : ExprIn s).evalBv env args = .ok v ↔ args[i]? = some v
  := by
  cases h : args[i]? <;> simp [ExprIn.evalBv, ExprIn.evalBvWith, h]

@[simp]
theorem ExprIn.evalBv_const {c : BitVec 64} :
  (ExprIn.const c : ExprIn s).evalBv env args = .ok (Bv.splat c)
  := rfl

/-- An expression and its conversion evaluate to the same vector. -/
@[simp]
theorem ExprIn.evalBv_convert {t : Storage} (e : ExprIn s) :
  (e.convert (t := t)).evalBv env args = e.evalBv env args
  := by
  simp only [ExprIn.evalBv]
  induction e with
  | un o e₁ ih => simp only [convert, evalBvWith, ih]
  | bin o e₁ e₂ ih₁ ih₂ => simp only [convert, evalBvWith, ih₁, ih₂]
  | ite e₁ e₂ e₃ ih₁ ih₂ ih₃ => simp only [convert, evalBvWith, ih₁, ih₂, ih₃]
  | var i => rfl
  | const c => rfl

/-- Without a zero among the lanes of the divisor, a division has a value. -/
theorem Environ.exists_evalBin_of_nonzero {o : BinOp} (ho : ∀ i, o ≠ .fop2 i)
    (v₁ : Bv N) {v₂ : Bv N} (hv₂ : o.nonzero = true → v₂.anyEq Bv.zeros = false) :
  ∃ v, env.evalBin o v₁ v₂ = .ok v
  := by
  cases o with
  | fop2 i => cases ho i rfl
  | udiv | urem | sdiv | srem =>
      have hne : ∀ i, v₂ i ≠ 0 := Bv.anyEq_eq_false.mp (hv₂ rfl)
      apply Bv.exists_lanewise
      intro i
      simp only [op.udiv, op.urem, op.sdiv, op.srem, if_neg (hne i), Except.ok.injEq,
        exists_eq']
  | _ => exact ⟨_, rfl⟩

end EvalBv

/-! ### Vectors and their lanes -/

section Lanes

variable {F : BvFuns N} {G : Funs}

/-- The vector calls `F` return exactly when the scalar calls `G` do on every lane. -/
structure LaneCalls (F : BvFuns N) (G : Funs) : Prop where
  fop1 : ∀ i a v, F.fop1 i a = .ok v ↔ ∀ k, G.fop1 i (a k) = .ok (v k)
  fop2 : ∀ i a b v, F.fop2 i a b = .ok v ↔ ∀ k, G.fop2 i (a k) (b k) = .ok (v k)

theorem ok_eq_ok_iff_lanes {f v : Bv N} :
  (Except.ok f : Except Fault (Bv N)) = .ok v
    ↔ ∀ k, (Except.ok (f k) : Except Fault (BitVec 64)) = .ok (v k)
  := by
  simp only [Except.ok.injEq, funext_iff]

theorem LaneCalls.evalUn (h : LaneCalls F G) (o : UnOp) {v₁ v : Bv N} :
  o.evalBv F v₁ = .ok v ↔ ∀ k, o.eval G (v₁ k) = .ok (v k)
  := by
  cases o with
  | not => apply ok_eq_ok_iff_lanes
  | neg => apply ok_eq_ok_iff_lanes
  | fop1 i => simp only [UnOp.evalBv, UnOp.eval, unwrap_eq_ok, h.fop1]

theorem LaneCalls.evalBin (h : LaneCalls F G) (o : BinOp) {v₁ v₂ v : Bv N} :
  o.evalBv F v₁ v₂ = .ok v ↔ ∀ k, o.eval G (v₁ k) (v₂ k) = .ok (v k)
  := by
  cases o with
  | fop2 i => apply h.fop2
  | udiv | urem | sdiv | srem => apply Bv.lanewise_eq_ok
  | _ => apply ok_eq_ok_iff_lanes

/-- With at least one lane, `eval_bv` returns exactly when `eval` does on every lane. -/
theorem LaneCalls.evalBvWith (h : LaneCalls F G) (hN : 0 < N) {s : Storage} (e : ExprIn s)
    (args : List (Bv N)) {v : Bv N} :
  e.evalBvWith F args = .ok v
    ↔ ∀ k, e.evalWith G (args.map fun a => a k) = .ok (v k)
  := by
  induction e generalizing v with
  | un o e₁ ih =>
      simp only [ExprIn.evalBvWith, bind_eq_ok, ExprIn.evalWith_un, ih, h.evalUn]
      constructor
      · rintro ⟨v₁, h₁, hv⟩ k
        use v₁ k, h₁ k, hv k
      · intro hv
        choose v₁ h₁ hv using hv
        use v₁
  | bin o e₁ e₂ ih₁ ih₂ =>
      simp only [ExprIn.evalBvWith, bind_eq_ok, ExprIn.evalWith_bin, ih₁, ih₂, h.evalBin]
      constructor
      · rintro ⟨v₁, h₁, v₂, h₂, hv⟩ k
        use v₁ k, h₁ k, v₂ k, h₂ k, hv k
      · intro hv
        choose v₁ h₁ v₂ h₂ hv using hv
        use v₁, h₁, v₂, h₂
  | ite e₁ e₂ e₃ ih₁ ih₂ ih₃ =>
      simp only [ExprIn.evalBvWith, bind_eq_ok, ExprIn.evalWith_ite, ih₁, ih₂, ih₃,
        Except.ok.injEq, funext_iff]
      constructor
      · rintro ⟨v₁, h₁, v₂, h₂, v₃, h₃, hv⟩ k
        use v₁ k, h₁ k, v₂ k, h₂ k, v₃ k, h₃ k, hv k
      · intro hv
        choose v₁ h₁ v₂ h₂ v₃ h₃ hv using hv
        use v₁, h₁, v₂, h₂, v₃, h₃
  | var i =>
      have hvec : (ExprIn.var i : ExprIn s).evalBvWith F args = .ok v ↔ args[i]? = some v := by
        cases harg : args[i]? <;> simp [ExprIn.evalBvWith, harg]
      simp only [hvec, ExprIn.evalWith_var, List.getElem?_map]
      cases harg : args[i]? with
      | none => simpa using ⟨⟨0, hN⟩⟩
      | some a => simp [funext_iff]
  | const c => apply ok_eq_ok_iff_lanes

theorem Environ.laneCalls (env : Environ) (hN : 0 < N) (depth : ℕ) :
  LaneCalls (env.bvFuns N depth) (env.funs depth)
  := by
  induction depth with
  | zero =>
      constructor
      · intro i a v
        simpa [Environ.bvFuns, Environ.funs] using ⟨⟨0, hN⟩⟩
      · intro i a b v
        simpa [Environ.bvFuns, Environ.funs] using ⟨⟨0, hN⟩⟩
  | succ depth ih =>
      constructor
      · intro i a v
        cases hd : env.get i 1 with
        | none => simpa [Environ.bvFuns, Environ.funs, hd] using ⟨⟨0, hN⟩⟩
        | some d => simpa [Environ.bvFuns, Environ.funs, hd] using ih.evalBvWith hN d.expr [a]
      · intro i a b v
        cases hd : env.get i 2 with
        | none => simpa [Environ.bvFuns, Environ.funs, hd] using ⟨⟨0, hN⟩⟩
        | some d => simpa [Environ.bvFuns, Environ.funs, hd] using ih.evalBvWith hN d.expr [a, b]

/-- `eval_bv` returns a vector exactly when `eval` returns its lanes. -/
theorem ExprIn.evalBv_iff_eval {s : Storage} (env : Environ) (hN : 0 < N) (e : ExprIn s)
    (args : List (Bv N)) {v : Bv N} :
  e.evalBv env args = .ok v ↔ ∀ k, e.eval env (args.map fun a => a k) = .ok (v k)
  := (env.laneCalls hN env.stack).evalBvWith hN e args

end Lanes

/-! ### `for_each_subexpr` -/

/-- A run of `for_each_subexpr`: the calls of its closure in order, and the result after
them when no call returns an error. -/
structure Walk (N : ℕ) where
  calls : List (Expr × Bv N)
  result : Except Fault (Option (Bv N))

/-- After the walk of the operand `e`, the closure is called with the operand and its value,
and `next` follows.  Without a value, the walk ends there. -/
def Walk.visit (w : Walk N) (e : Expr) (next : Bv N → Walk N) : Walk N :=
  match w.result with
  | .ok (some v) => ⟨w.calls ++ (e, v) :: (next v).calls, (next v).result⟩
  | .ok none => w
  | .error _ => w

/-- `Expr::for_each_subexpr`.  An `ite` and a zero divisor give no value. -/
def ExprIn.forEachSubexpr (env : Environ) (args : List (Bv N)) : Expr → Walk N
  | .un o e₁ =>
      (e₁.forEachSubexpr env args).visit e₁ fun v₁ => ⟨[], (env.evalUn o v₁).map some⟩
  | .bin o e₁ e₂ =>
      (e₁.forEachSubexpr env args).visit e₁ fun v₁ =>
      (e₂.forEachSubexpr env args).visit e₂ fun v₂ =>
      ⟨[], if o.nonzero && v₂.anyEq Bv.zeros then .ok none else (env.evalBin o v₁ v₂).map some⟩
  | .ite _ _ _ => ⟨[], .ok none⟩
  | .var i =>
      match args[i]? with
      | some v => ⟨[], .ok (some v)⟩
      | none => ⟨[], .error .panic⟩
  | .const c => ⟨[], .ok (some (Bv.splat c))⟩

section Subexpr

variable {env : Environ} {args : List (Bv N)}

theorem map_some_eq_ok {r : Except Fault (Bv N)} {v : Bv N} :
  r.map some = .ok (some v) ↔ r = .ok v
  := by
  cases r <;> simp [Except.map]

/-- A walk that ends with a value has one for the operand. -/
theorem Walk.visit_result {w : Walk N} {e : Expr} {next : Bv N → Walk N} {v : Bv N}
    (h : (w.visit e next).result = .ok (some v)) :
  ∃ v₁, w.result = .ok (some v₁) ∧ (next v₁).result = .ok (some v)
  := by
  rcases hw : w.result with f | _ | v₁
  · simp [visit, hw] at h
  · simp [visit, hw] at h
  · use v₁, rfl
    simpa [visit, hw] using h

/-- The calls of a walk are those of the operand, the one with the operand, and those that
follow. -/
theorem Walk.mem_visit_calls {w : Walk N} {e : Expr} {next : Bv N → Walk N} {p : Expr × Bv N}
    (h : p ∈ (w.visit e next).calls) :
  p ∈ w.calls ∨ ∃ v₁, w.result = .ok (some v₁) ∧ (p = (e, v₁) ∨ p ∈ (next v₁).calls)
  := by
  rcases hw : w.result with f | _ | v₁
  · left
    simpa [visit, hw] using h
  · left
    simpa [visit, hw] using h
  · simpa [visit, hw] using h

/-- The value a walk ends with is the value of the expression. -/
theorem ExprIn.evalBv_of_forEachSubexpr {e : Expr} {v : Bv N}
    (h : (e.forEachSubexpr env args).result = .ok (some v)) :
  e.evalBv env args = .ok v
  := by
  induction e generalizing v with
  | un o e₁ ih =>
      obtain ⟨v₁, h₁, hv⟩ := Walk.visit_result h
      apply evalBv_un.mpr
      use v₁, ih h₁, map_some_eq_ok.mp hv
  | bin o e₁ e₂ ih₁ ih₂ =>
      obtain ⟨v₁, h₁, hv⟩ := Walk.visit_result h
      obtain ⟨v₂, h₂, hv⟩ := Walk.visit_result hv
      apply evalBv_bin.mpr
      use v₁, ih₁ h₁, v₂, ih₂ h₂
      dsimp only at hv
      split_ifs at hv
      · cases hv
      · apply map_some_eq_ok.mp hv
  | ite e₁ e₂ e₃ => cases h
  | var i =>
      apply evalBv_var.mpr
      cases harg : args[i]? <;> simp_all [forEachSubexpr]
  | const c =>
      cases h
      apply evalBv_const

/-- Every call of the closure has an expression and its value. -/
theorem ExprIn.evalBv_of_mem_forEachSubexpr {e : Expr} {p : Expr × Bv N}
    (h : p ∈ (e.forEachSubexpr env args).calls) :
  p.1.evalBv env args = .ok p.2
  := by
  induction e with
  | un o e₁ ih =>
      rcases Walk.mem_visit_calls h with h | ⟨v₁, h₁, rfl | h⟩
      · apply ih h
      · apply evalBv_of_forEachSubexpr h₁
      · cases h
  | bin o e₁ e₂ ih₁ ih₂ =>
      rcases Walk.mem_visit_calls h with h | ⟨v₁, h₁, rfl | h⟩
      · apply ih₁ h
      · apply evalBv_of_forEachSubexpr h₁
      · rcases Walk.mem_visit_calls h with h | ⟨v₂, h₂, rfl | h⟩
        · apply ih₂ h
        · apply evalBv_of_forEachSubexpr h₂
        · cases h
  | ite e₁ e₂ e₃ => cases h
  | var i => cases harg : args[i]? <;> simp [forEachSubexpr, harg] at h
  | const c => cases h

/-- On an expression that evaluates, the walk ends with its value or without a value. -/
theorem ExprIn.forEachSubexpr_of_evalBv {e : Expr} {v : Bv N} (h : e.evalBv env args = .ok v) :
  (e.forEachSubexpr env args).result = .ok none
    ∨ (e.forEachSubexpr env args).result = .ok (some v)
  := by
  induction e generalizing v with
  | un o e₁ ih =>
      obtain ⟨v₁, h₁, hv⟩ := evalBv_un.mp h
      rcases ih h₁ with h₁ | h₁
      · simp [forEachSubexpr, Walk.visit, h₁]
      · simp [forEachSubexpr, Walk.visit, h₁, hv, Except.map]
  | bin o e₁ e₂ ih₁ ih₂ =>
      obtain ⟨v₁, h₁, v₂, h₂, hv⟩ := evalBv_bin.mp h
      rcases ih₁ h₁ with h₁ | h₁
      · simp [forEachSubexpr, Walk.visit, h₁]
      · rcases ih₂ h₂ with h₂ | h₂
        · simp [forEachSubexpr, Walk.visit, h₁, h₂]
        · simp only [forEachSubexpr, Walk.visit, h₁, h₂, hv]
          split_ifs
          · left
            rfl
          · right
            rfl
  | ite e₁ e₂ e₃ =>
      left
      rfl
  | var i =>
      right
      simp [forEachSubexpr, evalBv_var.mp h]
  | const c =>
      right
      cases h
      rfl

end Subexpr

end DryadSynth
