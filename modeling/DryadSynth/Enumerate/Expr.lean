import DryadSynth.Parse.SExpr

/-!
# Expressions and their evaluation

The expressions of `enumerate/expr.rs`, the scalar operators of `enumerate/op.rs`, and
`eval`.  The macro tables `all_ops!` list the operators by arity, so `UnOp` and `BinOp` are
these tables, and a node is an operator applied to its operands.

A defined function is called through the environment `ENV`, whose bodies may call defined
functions again.  An environment therefore carries the number of nested calls the stack of
the thread admits, and every result below holds for each such number.
-/

namespace DryadSynth

/-- What ends an evaluation other than a value: the error `DivideByZero`, a panic, or a
stack overflow. -/
inductive Fault where
  | divideByZero
  | panic
  | stackOverflow
  deriving DecidableEq, Repr

/-- `Result::unwrap` on the result of `eval`. -/
def unwrap {α : Type} : Except Fault α → Except Fault α
  | .ok a => .ok a
  | .error .divideByZero => .error .panic
  | .error .panic => .error .panic
  | .error .stackOverflow => .error .stackOverflow

@[simp]
theorem unwrap_eq_ok {α : Type} {r : Except Fault α} {a : α} :
  unwrap r = .ok a ↔ r = .ok a
  := by
  rcases r with f | a
  · cases f <;> simp [unwrap]
  · simp [unwrap]

/-! ### Syntax -/

/-- The operators of arity one. -/
inductive UnOp where
  | not
  | neg
  | fop1 (i : Fin 8)
  deriving DecidableEq, Repr

/-- The operators of arity two. -/
inductive BinOp where
  | add
  | xor
  | and
  | or
  | mul
  | sub
  | fop2 (i : Fin 8)
  | lshr
  | ashr
  | shl
  | udiv
  | urem
  | sdiv
  | srem
  deriving DecidableEq, Repr

/-- The flag `nonzero` of the table `all_ops!(arity nonzero)`: the operators whose scalar
form returns a `Result`. -/
def BinOp.nonzero : BinOp → Bool
  | .fop2 _ | .udiv | .urem | .sdiv | .srem => true
  | .add | .xor | .and | .or | .mul | .sub | .lshr | .ashr | .shl => false

/-- Where the nodes of an expression live: in an arena, for `Expr`, or in boxes, for
`OwnedExpr`. -/
inductive Storage where
  | arena
  | boxed

/-- The expressions that `enum_expr!` and `enum_ownedexpr!` generate. -/
inductive ExprIn (s : Storage) where
  | un (o : UnOp) (e₁ : ExprIn s)
  | bin (o : BinOp) (e₁ e₂ : ExprIn s)
  | ite (e₁ e₂ e₃ : ExprIn s)
  | var (i : ℕ)
  | const (c : BitVec 64)
  deriving DecidableEq, Repr

/-- `Expr`. -/
abbrev Expr : Type := ExprIn .arena

/-- `OwnedExpr`. -/
abbrev OwnedExpr : Type := ExprIn .boxed

namespace ExprIn

/-- `OwnedExpr::from(&Expr)` and `Expr::from_owned`: the same expression in the other
storage. -/
def convert {s t : Storage} : ExprIn s → ExprIn t
  | .un o e₁ => .un o e₁.convert
  | .bin o e₁ e₂ => .bin o e₁.convert e₂.convert
  | .ite e₁ e₂ e₃ => .ite e₁.convert e₂.convert e₃.convert
  | .var i => .var i
  | .const c => .const c

/-- `OwnedExpr::size`. -/
def size {s : Storage} : ExprIn s → ℕ
  | .un _ e₁ => 1 + e₁.size
  | .bin _ e₁ e₂ => 1 + e₁.size + e₂.size
  | .ite e₁ e₂ e₃ => 1 + e₁.size + e₂.size + e₃.size
  | .var _ => 1
  | .const _ => 1

/-- The proper sub-expressions, an operand after its own sub-expressions. -/
def proper {s : Storage} : ExprIn s → List (ExprIn s)
  | .un _ e₁ => e₁.proper ++ [e₁]
  | .bin _ e₁ e₂ => e₁.proper ++ e₁ :: e₂.proper ++ [e₂]
  | .ite e₁ e₂ e₃ => e₁.proper ++ e₁ :: e₂.proper ++ e₂ :: e₃.proper ++ [e₃]
  | .var _ => []
  | .const _ => []

@[simp]
theorem convert_convert {s t : Storage} (e : ExprIn s) :
  (e.convert (t := t)).convert = e
  := by
  induction e with
  | un o e₁ ih => simp [convert, ih]
  | bin o e₁ e₂ ih₁ ih₂ => simp [convert, ih₁, ih₂]
  | ite e₁ e₂ e₃ ih₁ ih₂ ih₃ => simp [convert, ih₁, ih₂, ih₃]
  | var i => rfl
  | const c => rfl

end ExprIn

/-! ### The scalar operators -/

namespace op

def not (v₁ : BitVec 64) : BitVec 64 := ~~~v₁

/-- The unchecked arithmetic of `neg`, `add`, `mul` and `sub` is read modulo `2 ^ 64`. -/
def neg (v₁ : BitVec 64) : BitVec 64 := 0 - v₁

def add (v₁ v₂ : BitVec 64) : BitVec 64 := v₁ + v₂

def mul (v₁ v₂ : BitVec 64) : BitVec 64 := v₁ * v₂

def sub (v₁ v₂ : BitVec 64) : BitVec 64 := v₁ - v₂

def xor (v₁ v₂ : BitVec 64) : BitVec 64 := v₁ ^^^ v₂

def and (v₁ v₂ : BitVec 64) : BitVec 64 := v₁ &&& v₂

def or (v₁ v₂ : BitVec 64) : BitVec 64 := v₁ ||| v₂

def udiv (v₁ v₂ : BitVec 64) : Except Fault (BitVec 64) :=
  if v₂ = 0 then .error .divideByZero else .ok (v₁ / v₂)

def urem (v₁ v₂ : BitVec 64) : Except Fault (BitVec 64) :=
  if v₂ = 0 then .error .divideByZero else .ok (v₁ % v₂)

def lshr (this that : BitVec 64) : BitVec 64 :=
  if 64 ≤ that.toNat then 0 else this >>> that.toNat

/-- A shift by at least the width gives zero here, also when the value shifted is
negative. -/
def ashr (this that : BitVec 64) : BitVec 64 :=
  if 64 ≤ that.toNat then 0 else this.sshiftRight that.toNat

def shl (this that : BitVec 64) : BitVec 64 :=
  if 64 ≤ that.toNat then 0 else this <<< that.toNat

/-- `overflowing_div` on `i64`: the least value divided by minus one is itself. -/
def sdiv (this that : BitVec 64) : Except Fault (BitVec 64) :=
  if that = 0 then .error .divideByZero else .ok (this.sdiv that)

def srem (this that : BitVec 64) : Except Fault (BitVec 64) :=
  if that = 0 then .error .divideByZero else .ok (this.srem that)

def ite (v₁ v₂ v₃ : BitVec 64) : BitVec 64 :=
  if v₁ = 0 then v₂ else v₃

end op

/-! ### Defined functions -/

/-- `DefineFun`: a `define-fun` command with its body. -/
structure DefineFun where
  name : String
  args : List String
  expr : OwnedExpr

/-- The numbers of arguments `0`, `1` and `2` are numerals. -/
instance neZero_three : NeZero 3 := ⟨Nat.succ_ne_zero 2⟩

/-- `Environ`: the defined functions by their number of arguments, and the number of nested
calls the stack admits. -/
structure Environ where
  inner : Fin 3 → List DefineFun
  stack : ℕ

namespace Environ

/-- `Environ::new`. -/
def new (stack : ℕ) : Environ := ⟨fun _ => [], stack⟩

/-- `Environ::lookup`: the position of the first function of a name. -/
def lookup (env : Environ) (name : String) (nargs : Fin 3) : Option ℕ :=
  (env.inner nargs).findIdx? fun p => p.name = name

/-- The function that `Environ::apply` and `Environ::name` index. -/
def get (env : Environ) (id : ℕ) (nargs : Fin 3) : Option DefineFun :=
  (env.inner nargs)[id]?

/-- `Environ::name`; an index out of range is a panic. -/
def name (env : Environ) (id : ℕ) (nargs : Fin 3) : Option String :=
  (env.get id nargs).map DefineFun.name

end Environ

/-- What the calls of defined functions return: `deffun::ENV.apply(I, n).eval(..)`. -/
structure Funs where
  fop1 : ℕ → BitVec 64 → Except Fault (BitVec 64)
  fop2 : ℕ → BitVec 64 → BitVec 64 → Except Fault (BitVec 64)

/-! ### Evaluation -/

/-- `op_of!` for the operators of arity one.  `op::fop1` unwraps the result of the body. -/
def UnOp.eval (F : Funs) : UnOp → BitVec 64 → Except Fault (BitVec 64)
  | .not, v₁ => .ok (op.not v₁)
  | .neg, v₁ => .ok (op.neg v₁)
  | .fop1 i, v₁ => unwrap (F.fop1 i v₁)

/-- `op_of!` for the operators of arity two. -/
def BinOp.eval (F : Funs) : BinOp → BitVec 64 → BitVec 64 → Except Fault (BitVec 64)
  | .add, v₁, v₂ => .ok (op.add v₁ v₂)
  | .xor, v₁, v₂ => .ok (op.xor v₁ v₂)
  | .and, v₁, v₂ => .ok (op.and v₁ v₂)
  | .or, v₁, v₂ => .ok (op.or v₁ v₂)
  | .mul, v₁, v₂ => .ok (op.mul v₁ v₂)
  | .sub, v₁, v₂ => .ok (op.sub v₁ v₂)
  | .fop2 i, v₁, v₂ => F.fop2 i v₁ v₂
  | .lshr, v₁, v₂ => .ok (op.lshr v₁ v₂)
  | .ashr, v₁, v₂ => .ok (op.ashr v₁ v₂)
  | .shl, v₁, v₂ => .ok (op.shl v₁ v₂)
  | .udiv, v₁, v₂ => op.udiv v₁ v₂
  | .urem, v₁, v₂ => op.urem v₁ v₂
  | .sdiv, v₁, v₂ => op.sdiv v₁ v₂
  | .srem, v₁, v₂ => op.srem v₁ v₂

/-- `Expr::eval` and `OwnedExpr::eval`, with the defined functions as a parameter.  The
operands are evaluated from left to right, and all three operands of `ite` are evaluated. -/
def ExprIn.evalWith {s : Storage} (F : Funs) (args : List (BitVec 64)) :
    ExprIn s → Except Fault (BitVec 64)
  | .un o e₁ => do
      let v₁ ← e₁.evalWith F args
      o.eval F v₁
  | .bin o e₁ e₂ => do
      let v₁ ← e₁.evalWith F args
      let v₂ ← e₂.evalWith F args
      o.eval F v₁ v₂
  | .ite e₁ e₂ e₃ => do
      let v₁ ← e₁.evalWith F args
      let v₂ ← e₂.evalWith F args
      let v₃ ← e₃.evalWith F args
      .ok (op.ite v₁ v₂ v₃)
  | .var i =>
      match args[i]? with
      | some v => .ok v
      | none => .error .panic
  | .const c => .ok c

namespace Environ

/-- The calls of defined functions when the stack admits `depth` nested calls. -/
def funs (env : Environ) : ℕ → Funs
  | 0 => ⟨fun _ _ => .error .stackOverflow, fun _ _ _ => .error .stackOverflow⟩
  | depth + 1 =>
      { fop1 := fun i a =>
          match env.get i 1 with
          | some d => d.expr.evalWith (env.funs depth) [a]
          | none => .error .panic
        fop2 := fun i a b =>
          match env.get i 2 with
          | some d => d.expr.evalWith (env.funs depth) [a, b]
          | none => .error .panic }

end Environ

/-- `Expr::eval` and `OwnedExpr::eval`. -/
def ExprIn.eval {s : Storage} (env : Environ) (e : ExprIn s) (args : List (BitVec 64)) :
    Except Fault (BitVec 64) :=
  e.evalWith (env.funs env.stack) args

section Eval

variable {F : Funs} {args : List (BitVec 64)} {s : Storage}

/-- Binding in `Except`: both parts return. -/
@[simp]
theorem bind_eq_ok {ε α β : Type} {x : Except ε α} {f : α → Except ε β} {b : β} :
  x >>= f = .ok b ↔ ∃ a, x = .ok a ∧ f a = .ok b
  := by
  rcases x with e | a
  · simp [bind, Except.bind]
  · simp [bind, Except.bind]

/-- Binding in `Except`: an error of the whole is one of a part. -/
theorem bind_eq_error {ε α β : Type} {x : Except ε α} {f : α → Except ε β} {a : ε} :
  x >>= f = .error a ↔ x = .error a ∨ ∃ y, x = .ok y ∧ f y = .error a
  := by
  cases x <;> simp [bind, Except.bind]

theorem ExprIn.evalWith_un {o : UnOp} {e₁ : ExprIn s} {v : BitVec 64} :
  (ExprIn.un o e₁).evalWith F args = .ok v
    ↔ ∃ v₁, e₁.evalWith F args = .ok v₁ ∧ o.eval F v₁ = .ok v
  := by
  simp only [ExprIn.evalWith, bind_eq_ok]

theorem ExprIn.evalWith_bin {o : BinOp} {e₁ e₂ : ExprIn s} {v : BitVec 64} :
  (ExprIn.bin o e₁ e₂).evalWith F args = .ok v
    ↔ ∃ v₁, e₁.evalWith F args = .ok v₁ ∧
      ∃ v₂, e₂.evalWith F args = .ok v₂ ∧ o.eval F v₁ v₂ = .ok v
  := by
  simp only [ExprIn.evalWith, bind_eq_ok]

theorem ExprIn.evalWith_ite {e₁ e₂ e₃ : ExprIn s} {v : BitVec 64} :
  (ExprIn.ite e₁ e₂ e₃).evalWith F args = .ok v
    ↔ ∃ v₁, e₁.evalWith F args = .ok v₁ ∧ ∃ v₂, e₂.evalWith F args = .ok v₂ ∧
      ∃ v₃, e₃.evalWith F args = .ok v₃ ∧ op.ite v₁ v₂ v₃ = v
  := by
  simp only [ExprIn.evalWith, bind_eq_ok, Except.ok.injEq]

theorem ExprIn.evalWith_var {i : ℕ} {v : BitVec 64} :
  (ExprIn.var i : ExprIn s).evalWith F args = .ok v ↔ args[i]? = some v
  := by
  cases h : args[i]? <;> simp [ExprIn.evalWith, h]

/-- An expression that has a value on some arguments has it also with more arguments. -/
theorem ExprIn.evalWith_of_prefix {args' : List (BitVec 64)} (h : args <+: args') {e : ExprIn s}
    {v : BitVec 64} (hv : e.evalWith F args = .ok v) :
  e.evalWith F args' = .ok v
  := by
  induction e generalizing v with
  | un o e₁ ih =>
      obtain ⟨v₁, h₁, ho⟩ := evalWith_un.mp hv
      apply evalWith_un.mpr ⟨v₁, ih h₁, ho⟩
  | bin o e₁ e₂ ih₁ ih₂ =>
      obtain ⟨v₁, h₁, v₂, h₂, ho⟩ := evalWith_bin.mp hv
      apply evalWith_bin.mpr ⟨v₁, ih₁ h₁, v₂, ih₂ h₂, ho⟩
  | ite e₁ e₂ e₃ ih₁ ih₂ ih₃ =>
      obtain ⟨v₁, h₁, v₂, h₂, v₃, h₃, ho⟩ := evalWith_ite.mp hv
      apply evalWith_ite.mpr ⟨v₁, ih₁ h₁, v₂, ih₂ h₂, v₃, ih₃ h₃, ho⟩
  | var i =>
      have hi := evalWith_var.mp hv
      apply evalWith_var.mpr
      obtain ⟨hlt, rfl⟩ := List.getElem?_eq_some_iff.mp hi
      apply (List.prefix_iff_getElem?.mp h) i hlt
  | const c => exact hv

/-- An expression and its conversion evaluate to the same result. -/
@[simp]
theorem ExprIn.evalWith_convert {t : Storage} (e : ExprIn s) :
  (e.convert (t := t)).evalWith F args = e.evalWith F args
  := by
  induction e with
  | un o e₁ ih => simp only [convert, evalWith, ih]
  | bin o e₁ e₂ ih₁ ih₂ => simp only [convert, evalWith, ih₁, ih₂]
  | ite e₁ e₂ e₃ ih₁ ih₂ ih₃ => simp only [convert, evalWith, ih₁, ih₂, ih₃]
  | var i => rfl
  | const c => rfl

@[simp]
theorem ExprIn.eval_convert {t : Storage} (env : Environ) (e : ExprIn s) :
  (e.convert (t := t)).eval env args = e.eval env args
  := ExprIn.evalWith_convert e

end Eval

end DryadSynth
