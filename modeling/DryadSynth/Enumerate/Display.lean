import DryadSynth.Enumerate.Expr

/-!
# Printed expressions and their meaning

`Display` for expressions, as the s-expression it prints, and the value the printed term
has under the semantics of `QF_BV`.  A printed call of a defined function means what the
`define-fun` of that name means.

`eval` and the printed term agree except at an arithmetic shift of a negative value by at
least the width: `eval` gives zero there and `bvashr` gives minus one.  An expression and
everything its evaluation calls agree with their printed terms exactly when no such shift
is evaluated.
-/

namespace DryadSynth

open QFBV (Value)

/-! ### Display -/

/-- The name `v{i}` of a variable. -/
def varName (i : ℕ) : String := "v" ++ toString i

theorem varName_injective :
  Function.Injective varName
  := by
  intro i j h
  have h' : (varName i).toList = (varName j).toList := congrArg String.toList h
  simp only [varName, String.toList_append, List.append_cancel_left_eq] at h'
  apply Nat.repr_injective
  apply String.toList_inj.mp h'

/-- The operator name that `Display` prints; a defined function has its own name. -/
def UnOp.displayName (env : Environ) : UnOp → Option String
  | .not => some "bvnot"
  | .neg => some "bvneg"
  | .fop1 i => env.name i 1

/-- The operator name that `Display` prints; a defined function has its own name. -/
def BinOp.displayName (env : Environ) : BinOp → Option String
  | .add => some "bvadd"
  | .xor => some "bvxor"
  | .and => some "bvand"
  | .or => some "bvor"
  | .mul => some "bvmul"
  | .sub => some "bvsub"
  | .fop2 i => env.name i 2
  | .lshr => some "bvlshr"
  | .ashr => some "bvashr"
  | .shl => some "bvshl"
  | .udiv => some "bvudiv"
  | .urem => some "bvurem"
  | .sdiv => some "bvsdiv"
  | .srem => some "bvsrem"

/-- `Display` of an expression.  It panics on a defined function that does not exist. -/
def ExprIn.display {s : Storage} (env : Environ) : ExprIn s → Option SExpr
  | .un o e₁ => do
      let n ← o.displayName env
      let s₁ ← e₁.display env
      some (.list [.id n, s₁])
  | .bin o e₁ e₂ => do
      let n ← o.displayName env
      let s₁ ← e₁.display env
      let s₂ ← e₂.display env
      some (.list [.id n, s₁, s₂])
  | .ite e₁ e₂ e₃ => do
      let s₁ ← e₁.display env
      let s₂ ← e₂.display env
      let s₃ ← e₃.display env
      some (.list [.id "ite", .list [.id "=", s₁, .const "#x0000000000000000"], s₂, s₃])
  | .var i => some (.id (varName i))
  | .const c => some (.const (hexLiteral c))

/-- The printed term of an expression. -/
def ExprIn.term {s : Storage} (env : Environ) (e : ExprIn s) : Option (QFBV.Term 64) :=
  (e.display env).bind SExpr.toTerm

theorem ExprIn.term_un {s : Storage} {env : Environ} {o : UnOp} {e₁ : ExprIn s} {n : String}
    {t₁ : QFBV.Term 64} (hn : o.displayName env = some n) (h₁ : e₁.term env = some t₁) :
  (ExprIn.un o e₁).term env = some (.app n [t₁])
  := by
  obtain ⟨s₁, hs₁, ht₁⟩ := Option.bind_eq_some_iff.mp h₁
  simp [term, display, hn, hs₁, ht₁]

theorem ExprIn.term_bin {s : Storage} {env : Environ} {o : BinOp} {e₁ e₂ : ExprIn s} {n : String}
    {t₁ t₂ : QFBV.Term 64} (hn : o.displayName env = some n) (h₁ : e₁.term env = some t₁)
    (h₂ : e₂.term env = some t₂) :
  (ExprIn.bin o e₁ e₂).term env = some (.app n [t₁, t₂])
  := by
  obtain ⟨s₁, hs₁, ht₁⟩ := Option.bind_eq_some_iff.mp h₁
  obtain ⟨s₂, hs₂, ht₂⟩ := Option.bind_eq_some_iff.mp h₂
  simp [term, display, hn, hs₁, ht₁, hs₂, ht₂]

theorem ExprIn.term_ite {s : Storage} {env : Environ} {e₁ e₂ e₃ : ExprIn s}
    {t₁ t₂ t₃ : QFBV.Term 64} (h₁ : e₁.term env = some t₁) (h₂ : e₂.term env = some t₂)
    (h₃ : e₃.term env = some t₃) :
  (ExprIn.ite e₁ e₂ e₃).term env
    = some (.app "ite" [.app "=" [t₁, .literal 0], t₂, t₃])
  := by
  obtain ⟨s₁, hs₁, ht₁⟩ := Option.bind_eq_some_iff.mp h₁
  obtain ⟨s₂, hs₂, ht₂⟩ := Option.bind_eq_some_iff.mp h₂
  obtain ⟨s₃, hs₃, ht₃⟩ := Option.bind_eq_some_iff.mp h₃
  have hzero : smtLiteral "#x0000000000000000" = some 0 := by decide
  simp [term, display, hs₁, ht₁, hs₂, ht₂, hs₃, ht₃, SExpr.toTerm, hzero]

/-! ### The script -/

/-- The names of `n` parameters. -/
def paramNames (n : ℕ) : List String := (List.range n).map varName

theorem nodup_paramNames (n : ℕ) :
  (paramNames n).Nodup
  := List.nodup_range.map varName_injective

/-- The valuation of the variables by the arguments. -/
def argValuation (args : List (BitVec 64)) : QFBV.Valuation 64 :=
  QFBV.bindParams (paramNames args.length) (args.map .bits)

theorem argValuation_varName {args : List (BitVec 64)} {i : ℕ} {v : BitVec 64}
    (h : args[i]? = some v) :
  argValuation args (varName i) = some (.bits v)
  := by
  obtain ⟨hi, -⟩ := List.getElem?_eq_some_iff.mp h
  apply QFBV.bindParams_of_getElem (i := i) (nodup_paramNames _)
  · simp [paramNames, hi]
  · simp [h]

/-- The definition a `define-fun` of `n` arguments is in the printed script. -/
def DefineFun.definition (env : Environ) (n : ℕ) (d : DefineFun) : Option (QFBV.Definition 64) :=
  (d.expr.term env).map fun t => ⟨d.name, paramNames n, t⟩

/-- The function definitions that a printed expression refers to. -/
def Environ.definitions (env : Environ) : List (QFBV.Definition 64) :=
  (env.inner 1).filterMap (DefineFun.definition env 1)
    ++ (env.inner 2).filterMap (DefineFun.definition env 2)

theorem Environ.mem_definitions₁ {env : Environ} {i : ℕ} {d : DefineFun}
    (hd : env.get i 1 = some d) {t : QFBV.Term 64} (ht : d.expr.term env = some t) :
  ⟨d.name, paramNames 1, t⟩ ∈ env.definitions
  := by
  apply List.mem_append_left
  apply List.mem_filterMap.mpr
  use d, List.mem_of_getElem? hd
  simp [DefineFun.definition, ht]

theorem Environ.mem_definitions₂ {env : Environ} {i : ℕ} {d : DefineFun}
    (hd : env.get i 2 = some d) {t : QFBV.Term 64} (ht : d.expr.term env = some t) :
  ⟨d.name, paramNames 2, t⟩ ∈ env.definitions
  := by
  apply List.mem_append_right
  apply List.mem_filterMap.mpr
  use d, List.mem_of_getElem? hd
  simp [DefineFun.definition, ht]

/-! ### The operators -/

theorem op.udiv_eq_ok {v₁ v₂ v : BitVec 64} (h : op.udiv v₁ v₂ = .ok v) :
  v₂ ≠ 0 ∧ v₁ / v₂ = v
  := by
  rw [op.udiv] at h
  split_ifs at h with h₂
  use h₂, Except.ok.inj h

theorem op.urem_eq_ok {v₁ v₂ v : BitVec 64} (h : op.urem v₁ v₂ = .ok v) :
  v₂ ≠ 0 ∧ v₁ % v₂ = v
  := by
  rw [op.urem] at h
  split_ifs at h with h₂
  use h₂, Except.ok.inj h

theorem op.sdiv_eq_ok {v₁ v₂ v : BitVec 64} (h : op.sdiv v₁ v₂ = .ok v) :
  v₂ ≠ 0 ∧ v₁.sdiv v₂ = v
  := by
  rw [op.sdiv] at h
  split_ifs at h with h₂
  use h₂, Except.ok.inj h

theorem op.srem_eq_ok {v₁ v₂ v : BitVec 64} (h : op.srem v₁ v₂ = .ok v) :
  v₂ ≠ 0 ∧ v₁.srem v₂ = v
  := by
  rw [op.srem] at h
  split_ifs at h with h₂
  use h₂, Except.ok.inj h

theorem ashr_eq_iff (this that : BitVec 64) :
  op.ashr this that = this.sshiftRight that.toNat
    ↔ ¬ (64 ≤ that.toNat ∧ this.msb = true)
  := by
  by_cases hthat : 64 ≤ that.toNat
  · cases hmsb : this.msb with
    | false =>
        simp [op.ashr, hthat, BitVec.sshiftRight_eq_of_msb_false hmsb,
          BitVec.ushiftRight_eq_zero hthat]
    | true =>
        simp only [op.ashr, hthat, and_self, not_true_eq_false, iff_false]
        intro h
        have hbit := congrArg BitVec.msb h
        simp [BitVec.msb_sshiftRight, hmsb] at hbit
  · simp [op.ashr, hthat]

/-- An operator of arity two other than a defined function means, when it returns a value,
this value, if it is not an arithmetic shift of a negative value by at least the width. -/
theorem BinOp.meaning_eq
    {env : Environ} {U : QFBV.Interpretation 64} {F : Funs} {o : BinOp} {n : String}
    {v₁ v₂ v : BitVec 64} (hn : o.displayName env = some n) (hfop : ∀ i, o ≠ .fop2 i)
    (hwide : o = .ashr → ¬ (64 ≤ v₂.toNat ∧ v₁.msb = true)) (hv : o.eval F v₁ v₂ = .ok v) :
  QFBV.meaning U n [.bits v₁, .bits v₂] = some (.bits v)
  := by
  cases o with
  | fop2 i =>
      cases hfop i rfl
  | ashr =>
      cases hn
      cases hv
      rw [(ashr_eq_iff v₁ v₂).mpr (hwide rfl)]
      rfl
  | lshr =>
      cases hn
      cases hv
      have hmean : QFBV.meaning U "bvlshr" [.bits v₁, .bits v₂] = some (.bits (v₁ >>> v₂.toNat)) :=
        rfl
      rw [hmean, op.lshr]
      split_ifs with h
      · rw [BitVec.ushiftRight_eq_zero h]
        rfl
      · rfl
  | shl =>
      cases hn
      cases hv
      have hmean : QFBV.meaning U "bvshl" [.bits v₁, .bits v₂] = some (.bits (v₁ <<< v₂.toNat)) :=
        rfl
      rw [hmean, op.shl]
      split_ifs with h
      · rw [BitVec.shiftLeft_eq_zero h]
        rfl
      · rfl
  | udiv =>
      cases hn
      obtain ⟨h, hv⟩ := op.udiv_eq_ok hv
      rw [← hv, ← QFBV.smtUDiv_of_ne_zero v₁ h]
      rfl
  | urem =>
      cases hn
      obtain ⟨h, hv⟩ := op.urem_eq_ok hv
      rw [← hv]
      rfl
  | sdiv =>
      cases hn
      obtain ⟨h, hv⟩ := op.sdiv_eq_ok hv
      rw [← hv, ← QFBV.smtSDiv_of_ne_zero v₁ h]
      rfl
  | srem =>
      cases hn
      obtain ⟨h, hv⟩ := op.srem_eq_ok hv
      rw [← hv]
      rfl
  | add | xor | and | or | mul | sub =>
      cases hn
      cases hv
      rfl

theorem UnOp.meaning_eq
    {env : Environ} {U : QFBV.Interpretation 64} {F : Funs} {o : UnOp} {n : String}
    {v₁ v : BitVec 64} (hn : o.displayName env = some n) (hfop : ∀ i, o ≠ .fop1 i)
    (hv : o.eval F v₁ = .ok v) :
  QFBV.meaning U n [.bits v₁] = some (.bits v)
  := by
  cases o with
  | fop1 i => cases hfop i rfl
  | not =>
      cases hn
      cases hv
      rfl
  | neg =>
      cases hn
      cases hv
      have hneg : op.neg v₁ = -v₁ := BitVec.zero_sub v₁
      rw [hneg]
      rfl

theorem BinOp.exists_displayName (env : Environ) {o : BinOp} (hfop : ∀ i, o ≠ .fop2 i) :
  ∃ n, o.displayName env = some n
  := by
  cases o with
  | fop2 i => cases hfop i rfl
  | _ => exact ⟨_, rfl⟩

/-- A defined function of one argument that returns a value is defined, and its body
returns this value with one call less admitted. -/
theorem Environ.eval_fop1 {env : Environ} {depth : ℕ} {i : Fin 8} {a v : BitVec 64}
    (h : (UnOp.fop1 i).eval (env.funs depth) a = .ok v) :
  ∃ depth' d, depth = depth' + 1 ∧ env.get i.val 1 = some d ∧
    d.expr.evalWith (env.funs depth') [a] = .ok v
  := by
  rw [UnOp.eval, unwrap_eq_ok] at h
  cases depth with
  | zero => cases h
  | succ depth =>
      cases hd : env.get i.val 1 with
      | none => simp [Environ.funs, hd] at h
      | some d =>
          simp only [Environ.funs, hd] at h
          use depth, d

/-- A defined function of two arguments that returns a value is defined, and its body
returns this value with one call less admitted. -/
theorem Environ.eval_fop2 {env : Environ} {depth : ℕ} {i : Fin 8} {a b v : BitVec 64}
    (h : (BinOp.fop2 i).eval (env.funs depth) a b = .ok v) :
  ∃ depth' d, depth = depth' + 1 ∧ env.get i.val 2 = some d ∧
    d.expr.evalWith (env.funs depth') [a, b] = .ok v
  := by
  rw [BinOp.eval] at h
  cases depth with
  | zero => cases h
  | succ depth =>
      cases hd : env.get i.val 2 with
      | none => simp [Environ.funs, hd] at h
      | some d =>
          simp only [Environ.funs, hd] at h
          use depth, d

/-! ### Frames of an evaluation -/

/-- An evaluation in progress: the number of nested calls still admitted, the expression
evaluated, and its arguments. -/
structure Frame where
  depth : ℕ
  expr : OwnedExpr
  args : List (BitVec 64)

namespace Frame

/-- What the evaluation of a frame returns. -/
def eval (env : Environ) (fr : Frame) : Except Fault (BitVec 64) :=
  fr.expr.evalWith (env.funs fr.depth) fr.args

/-- The value of the printed term of a frame at its arguments. -/
def denote (env : Environ) (U : QFBV.Interpretation 64) (fr : Frame) : Option (Value 64) :=
  (fr.expr.term env).bind (QFBV.denote U (argValuation fr.args))

/-- A frame and its printed term agree: what the evaluation returns is the value of the
printed term. -/
def Agrees (env : Environ) (U : QFBV.Interpretation 64) (fr : Frame) : Prop :=
  ∀ v, fr.eval env = .ok v → fr.denote env U = some (.bits v)

/-- The frames that the evaluation of a frame calls: those of its operands, and those of
the bodies of the defined functions it applies. -/
inductive Calls (env : Environ) : Frame → Frame → Prop where
  | un {depth o e₁ args} : Calls env ⟨depth, .un o e₁, args⟩ ⟨depth, e₁, args⟩
  | bin₁ {depth o e₁ e₂ args} : Calls env ⟨depth, .bin o e₁ e₂, args⟩ ⟨depth, e₁, args⟩
  | bin₂ {depth o e₁ e₂ args} : Calls env ⟨depth, .bin o e₁ e₂, args⟩ ⟨depth, e₂, args⟩
  | ite₁ {depth e₁ e₂ e₃ args} : Calls env ⟨depth, .ite e₁ e₂ e₃, args⟩ ⟨depth, e₁, args⟩
  | ite₂ {depth e₁ e₂ e₃ args} : Calls env ⟨depth, .ite e₁ e₂ e₃, args⟩ ⟨depth, e₂, args⟩
  | ite₃ {depth e₁ e₂ e₃ args} : Calls env ⟨depth, .ite e₁ e₂ e₃, args⟩ ⟨depth, e₃, args⟩
  | fop1 {depth i e₁ args d a} :
      env.get i.val 1 = some d → eval env ⟨depth + 1, e₁, args⟩ = .ok a →
      Calls env ⟨depth + 1, .un (.fop1 i) e₁, args⟩ ⟨depth, d.expr, [a]⟩
  | fop2 {depth i e₁ e₂ args d a b} :
      env.get i.val 2 = some d → eval env ⟨depth + 1, e₁, args⟩ = .ok a →
      eval env ⟨depth + 1, e₂, args⟩ = .ok b →
      Calls env ⟨depth + 1, .bin (.fop2 i) e₁ e₂, args⟩ ⟨depth, d.expr, [a, b]⟩

/-- Every frame that the evaluation of a frame reaches, itself included, satisfies `P`. -/
def Throughout (env : Environ) (P : Frame → Prop) (fr : Frame) : Prop :=
  ∀ fr', Relation.ReflTransGen (Calls env) fr fr' → P fr'

/-- The frame shifts a negative value arithmetically by at least the width. -/
def WideShift (env : Environ) (fr : Frame) : Prop :=
  ∃ e₁ e₂ this that, fr.expr = .bin .ashr e₁ e₂ ∧
    eval env ⟨fr.depth, e₁, fr.args⟩ = .ok this ∧ eval env ⟨fr.depth, e₂, fr.args⟩ = .ok that ∧
    64 ≤ that.toNat ∧ this.msb = true

variable {env : Environ} {U : QFBV.Interpretation 64}

theorem Throughout.self {P : Frame → Prop} {fr : Frame} (h : fr.Throughout env P) :
  P fr
  := h fr .refl

theorem Throughout.of_calls {P : Frame → Prop} {fr fr' : Frame} (h : fr.Throughout env P)
    (hcall : Calls env fr fr') :
  fr'.Throughout env P
  := by
  intro fr'' hfr
  apply h fr'' (.head hcall hfr)

/-- If a frame has a value then its expression is printed. -/
theorem exists_term_of_denote {fr : Frame} {v : Value 64} (h : fr.denote env U = some v) :
  ∃ t, fr.expr.term env = some t ∧ QFBV.denote U (argValuation fr.args) t = some v
  := Option.bind_eq_some_iff.mp h

/-- A unary frame agrees when its operand does, and its operator means what it returns. -/
theorem agrees_un {depth : ℕ} {o : UnOp} {e₁ : OwnedExpr} {args : List (BitVec 64)}
    (h₁ : Agrees env U ⟨depth, e₁, args⟩)
    (ho : ∀ v₁ v, eval env ⟨depth, e₁, args⟩ = .ok v₁ → o.eval (env.funs depth) v₁ = .ok v →
      ∃ n, o.displayName env = some n ∧ QFBV.meaning U n [.bits v₁] = some (.bits v)) :
  Agrees env U ⟨depth, .un o e₁, args⟩
  := by
  intro v hv
  obtain ⟨v₁, hv₁, hv⟩ := ExprIn.evalWith_un.mp hv
  obtain ⟨t₁, ht₁, hd₁⟩ := exists_term_of_denote (h₁ v₁ hv₁)
  obtain ⟨n, hn, hmean⟩ := ho v₁ v hv₁ hv
  rw [denote, ExprIn.term_un hn ht₁, Option.bind_some, QFBV.denote_app₁ hd₁, hmean]

/-- A binary frame agrees when its operands do, and its operator means what it returns. -/
theorem agrees_bin {depth : ℕ} {o : BinOp} {e₁ e₂ : OwnedExpr} {args : List (BitVec 64)}
    (h₁ : Agrees env U ⟨depth, e₁, args⟩) (h₂ : Agrees env U ⟨depth, e₂, args⟩)
    (ho : ∀ v₁ v₂ v, eval env ⟨depth, e₁, args⟩ = .ok v₁ → eval env ⟨depth, e₂, args⟩ = .ok v₂ →
      o.eval (env.funs depth) v₁ v₂ = .ok v →
      ∃ n, o.displayName env = some n ∧ QFBV.meaning U n [.bits v₁, .bits v₂] = some (.bits v)) :
  Agrees env U ⟨depth, .bin o e₁ e₂, args⟩
  := by
  intro v hv
  obtain ⟨v₁, hv₁, v₂, hv₂, hv⟩ := ExprIn.evalWith_bin.mp hv
  obtain ⟨t₁, ht₁, hd₁⟩ := exists_term_of_denote (h₁ v₁ hv₁)
  obtain ⟨t₂, ht₂, hd₂⟩ := exists_term_of_denote (h₂ v₂ hv₂)
  obtain ⟨n, hn, hmean⟩ := ho v₁ v₂ v hv₁ hv₂ hv
  rw [denote, ExprIn.term_bin hn ht₁ ht₂, Option.bind_some, QFBV.denote_app₂ hd₁ hd₂, hmean]

/-- A frame of an `ite` agrees when its three operands do. -/
theorem agrees_ite {depth : ℕ} {e₁ e₂ e₃ : OwnedExpr} {args : List (BitVec 64)}
    (h₁ : Agrees env U ⟨depth, e₁, args⟩) (h₂ : Agrees env U ⟨depth, e₂, args⟩)
    (h₃ : Agrees env U ⟨depth, e₃, args⟩) :
  Agrees env U ⟨depth, .ite e₁ e₂ e₃, args⟩
  := by
  intro v hv
  obtain ⟨v₁, hv₁, v₂, hv₂, v₃, hv₃, rfl⟩ := ExprIn.evalWith_ite.mp hv
  obtain ⟨t₁, ht₁, hd₁⟩ := exists_term_of_denote (h₁ v₁ hv₁)
  obtain ⟨t₂, ht₂, hd₂⟩ := exists_term_of_denote (h₂ v₂ hv₂)
  obtain ⟨t₃, ht₃, hd₃⟩ := exists_term_of_denote (h₃ v₃ hv₃)
  have hzero : QFBV.denote U (argValuation args) (.literal 0) = some (.bits 0) := rfl
  have hcond : QFBV.denote U (argValuation args) (.app "=" [t₁, .literal 0])
      = some (.bool (v₁ == 0)) := Eq.trans (QFBV.denote_app₂ hd₁ hzero) rfl
  rw [denote, ExprIn.term_ite ht₁ ht₂ ht₃, Option.bind_some, QFBV.denote_app₃ hcond hd₂ hd₃]
  have hmean : QFBV.meaning U "ite" [.bool (v₁ == 0), .bits v₂, .bits v₃]
      = some (.bits (if (v₁ == 0) = true then v₂ else v₃)) := rfl
  rw [hmean, op.ite]
  simp

/-- A defined function of one argument means, at a value, what its body returns there. -/
theorem meaning_fop1 (hU : QFBV.Interprets U env.definitions) {depth i : ℕ} {d : DefineFun}
    {a v : BitVec 64} (hd : env.get i 1 = some d) (hbody : Agrees env U ⟨depth, d.expr, [a]⟩)
    (hv : eval env ⟨depth, d.expr, [a]⟩ = .ok v) :
  QFBV.meaning U d.name [.bits a] = some (.bits v)
  := by
  obtain ⟨t, ht, hden⟩ := exists_term_of_denote (hbody v hv)
  rw [← hden]
  apply hU.meaning_eq (Environ.mem_definitions₁ hd ht) rfl

/-- A defined function of two arguments means, at two values, what its body returns
there. -/
theorem meaning_fop2 (hU : QFBV.Interprets U env.definitions) {depth i : ℕ} {d : DefineFun}
    {a b v : BitVec 64} (hd : env.get i 2 = some d)
    (hbody : Agrees env U ⟨depth, d.expr, [a, b]⟩)
    (hv : eval env ⟨depth, d.expr, [a, b]⟩ = .ok v) :
  QFBV.meaning U d.name [.bits a, .bits b] = some (.bits v)
  := by
  obtain ⟨t, ht, hden⟩ := exists_term_of_denote (hbody v hv)
  rw [← hden]
  apply hU.meaning_eq (Environ.mem_definitions₂ hd ht) rfl

/-- A frame agrees with its printed term if neither it nor a frame its evaluation reaches is
a wide shift, provided that this holds of all frames that admit one call less. -/
theorem agrees_of_smaller (hU : QFBV.Interprets U env.definitions) {depth : ℕ}
    (hbody : ∀ depth', depth = depth' + 1 → ∀ (e : OwnedExpr) (args : List (BitVec 64)),
      Throughout env (fun fr => ¬ fr.WideShift env) ⟨depth', e, args⟩ →
        Agrees env U ⟨depth', e, args⟩)
    (e : OwnedExpr) (args : List (BitVec 64))
    (h : Throughout env (fun fr => ¬ fr.WideShift env) ⟨depth, e, args⟩) :
  Agrees env U ⟨depth, e, args⟩
  := by
  induction e with
  | un o e₁ ih₁ =>
      apply agrees_un (ih₁ (h.of_calls .un))
      intro v₁ v hv₁ hv
      cases o with
      | not =>
          use "bvnot", rfl
          have hn : UnOp.displayName env .not = some "bvnot" := rfl
          apply UnOp.meaning_eq hn (fun _ => UnOp.noConfusion) hv
      | neg =>
          use "bvneg", rfl
          have hn : UnOp.displayName env .neg = some "bvneg" := rfl
          apply UnOp.meaning_eq hn (fun _ => UnOp.noConfusion) hv
      | fop1 i =>
          obtain ⟨depth', d, rfl, hd, hv⟩ := Environ.eval_fop1 hv
          use d.name, by simp [UnOp.displayName, Environ.name, hd]
          apply meaning_fop1 hU hd _ hv
          apply hbody depth' rfl
          apply h.of_calls (.fop1 hd hv₁)
  | bin o e₁ e₂ ih₁ ih₂ =>
      apply agrees_bin (ih₁ (h.of_calls .bin₁)) (ih₂ (h.of_calls .bin₂))
      intro v₁ v₂ v hv₁ hv₂ hv
      by_cases hfop : ∃ i, o = .fop2 i
      · obtain ⟨i, rfl⟩ := hfop
        obtain ⟨depth', d, rfl, hd, hv⟩ := Environ.eval_fop2 hv
        use d.name, by simp [BinOp.displayName, Environ.name, hd]
        apply meaning_fop2 hU hd _ hv
        apply hbody depth' rfl
        apply h.of_calls (.fop2 hd hv₁ hv₂)
      · rw [not_exists] at hfop
        obtain ⟨n, hn⟩ := BinOp.exists_displayName env hfop
        use n, hn
        apply BinOp.meaning_eq hn hfop _ hv
        rintro rfl ⟨hthat, hmsb⟩
        apply h.self
        use e₁, e₂, v₁, v₂, rfl, hv₁, hv₂
  | ite e₁ e₂ e₃ ih₁ ih₂ ih₃ =>
      apply agrees_ite (ih₁ (h.of_calls .ite₁)) (ih₂ (h.of_calls .ite₂)) (ih₃ (h.of_calls .ite₃))
  | var i =>
      intro v hv
      apply argValuation_varName (ExprIn.evalWith_var.mp hv)
  | const c =>
      intro v hv
      cases hv
      have hterm : (ExprIn.const c : OwnedExpr).term env = some (.literal c) := by
        simp [ExprIn.term, ExprIn.display, SExpr.toTerm, smtLiteral_hexLiteral]
      rw [denote, hterm]
      rfl

/-- A frame agrees with its printed term if neither it nor a frame its evaluation reaches is
a wide shift. -/
theorem agrees_of_not_wideShift (hU : QFBV.Interprets U env.definitions) (fr : Frame)
    (h : fr.Throughout env fun fr' => ¬ fr'.WideShift env) :
  fr.Agrees env U
  := by
  obtain ⟨depth, e, args⟩ := fr
  induction depth generalizing e args with
  | zero => apply agrees_of_smaller hU (fun _ h => by cases h) e args h
  | succ depth ih =>
      apply agrees_of_smaller hU _ e args h
      rintro _ ⟨⟩ e' args' h'
      apply ih e' args' h'

/-- At a wide shift one of the shift and its two operands disagrees with its printed
term. -/
theorem not_wideShift_of_agrees {fr : Frame} (h : fr.Throughout env (Agrees env U)) :
  ¬ fr.WideShift env
  := by
  rintro ⟨e₁, e₂, this, that, hexpr, h₁, h₂, hthat, hmsb⟩
  obtain ⟨depth, e, args⟩ := fr
  obtain rfl : e = .bin .ashr e₁ e₂ := hexpr
  have hv : eval env ⟨depth, .bin .ashr e₁ e₂, args⟩ = .ok (op.ashr this that) :=
    ExprIn.evalWith_bin.mpr ⟨this, h₁, that, h₂, rfl⟩
  obtain ⟨t₁, ht₁, hd₁⟩ := exists_term_of_denote ((h.of_calls .bin₁).self this h₁)
  obtain ⟨t₂, ht₂, hd₂⟩ := exists_term_of_denote ((h.of_calls .bin₂).self that h₂)
  have hagree := h.self _ hv
  rw [denote, ExprIn.term_bin (o := .ashr) rfl ht₁ ht₂, Option.bind_some,
    QFBV.denote_app₂ hd₁ hd₂] at hagree
  have hmean : QFBV.meaning U "bvashr" [.bits this, .bits that]
      = some (.bits (this.sshiftRight that.toNat)) := rfl
  rw [hmean] at hagree
  apply (ashr_eq_iff this that).mp _ ⟨hthat, hmsb⟩
  injection hagree with hagree
  injection hagree with hagree
  apply hagree.symm

end Frame

/-- `eval` and the printed term agree on an expression and on everything its evaluation
calls exactly when the evaluation reaches no arithmetic shift of a negative value by at
least the width. -/
theorem eval_agrees_display_iff {env : Environ} {U : QFBV.Interpretation 64}
    (hU : QFBV.Interprets U env.definitions) (e : OwnedExpr) (args : List (BitVec 64)) :
  Frame.Throughout env (Frame.Agrees env U) ⟨env.stack, e, args⟩
    ↔ Frame.Throughout env (fun fr => ¬ fr.WideShift env) ⟨env.stack, e, args⟩
  := by
  constructor
  · intro h fr hfr
    apply Frame.not_wideShift_of_agrees
    intro fr' hfr'
    apply h fr' (hfr.trans hfr')
  · intro h fr hfr
    apply Frame.agrees_of_not_wideShift hU fr
    intro fr' hfr'
    apply h fr' (hfr.trans hfr')

/-- The shift of minus one by 64: `eval` returns zero and the printed term is minus one. -/
theorem ashr_disagrees_display :
  Frame.eval (Environ.new 0) ⟨0, .bin .ashr (.const (-1)) (.const 64), []⟩ = .ok 0 ∧
    Frame.denote (Environ.new 0) QFBV.noSymbols ⟨0, .bin .ashr (.const (-1)) (.const 64), []⟩
      = some (.bits (-1)) ∧
    ¬ Frame.Agrees (Environ.new 0) QFBV.noSymbols
      ⟨0, .bin .ashr (.const (-1)) (.const 64), []⟩
  := by
  have hterm : ∀ c : BitVec 64,
      (ExprIn.const c : OwnedExpr).term (Environ.new 0) = some (.literal c) := by
    intro c
    simp [ExprIn.term, ExprIn.display, SExpr.toTerm, smtLiteral_hexLiteral]
  have heval : Frame.eval (Environ.new 0) ⟨0, .bin .ashr (.const (-1)) (.const 64), []⟩ = .ok 0 :=
    rfl
  have hdenote : Frame.denote (Environ.new 0) QFBV.noSymbols
      ⟨0, .bin .ashr (.const (-1)) (.const 64), []⟩ = some (.bits (-1)) := by
    rw [Frame.denote, ExprIn.term_bin (o := .ashr) rfl (hterm _) (hterm _)]
    decide
  use heval, hdenote
  intro h
  have h0 := h 0 heval
  rw [hdenote] at h0
  revert h0
  decide

/-- An environment with one defined function, `(define-fun dbl ((x …)) … (bvadd x x))`. -/
def doubling : Environ where
  inner n := if n = 1 then [⟨"dbl", ["x"], .bin .add (.var 0) (.var 0)⟩] else []
  stack := 1

/-- The interpretation of the script of `doubling`. -/
def doublingSymbols : QFBV.Interpretation 64
  | "dbl", vs => QFBV.denote QFBV.noSymbols (QFBV.bindParams ["v0"] vs)
      (.app "bvadd" [.symbol "v0", .symbol "v0"])
  | _, _ => none

theorem doubling_interprets :
  QFBV.Interprets doublingSymbols doubling.definitions
  := by
  have hdefs : doubling.definitions
      = [⟨"dbl", ["v0"], .app "bvadd" [.symbol "v0", .symbol "v0"]⟩] := rfl
  rw [hdefs]
  intro d hd
  rw [List.mem_singleton] at hd
  subst hd
  constructor
  · decide
  · intro vs hvs
    rfl

theorem eval_agrees_display_doubling :
  Frame.Throughout doubling (Frame.Agrees doubling doublingSymbols)
      ⟨1, .bin .ashr (.un (.fop1 0) (.var 0)) (.const 3), [5]⟩
    ↔ Frame.Throughout doubling (fun fr => ¬ fr.WideShift doubling)
      ⟨1, .bin .ashr (.un (.fop1 0) (.var 0)) (.const 3), [5]⟩
  := eval_agrees_display_iff doubling_interprets _ _

end DryadSynth
