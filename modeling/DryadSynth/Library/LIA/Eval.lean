import Mathlib

/-!
# Expressions over the integers and the Booleans

Many-sorted expressions with arithmetic, comparisons, the connectives of propositional logic,
conditionals, variables and declared function symbols, as a solver for `LIA` has them.  A model
gives the variables and the function symbols their meaning.

Every expression has a value in every model, also when it is not well sorted.  Division is the
Euclidean one.
-/

namespace LIA

/-- The sorts `Int` and `Bool`. -/
inductive Srt where
  | int
  | bool
  deriving DecidableEq, Repr

/-- A value of one of the sorts. -/
inductive Value where
  | int (n : ℤ)
  | bool (b : Bool)
  deriving DecidableEq, Repr

namespace Value

def sort : Value → Srt
  | int _ => .int
  | bool _ => .bool

/-- The integer a value of sort `Int` is. -/
def toInt : Value → ℤ
  | int n => n
  | bool _ => 0

/-- The truth value a value of sort `Bool` is. -/
def toBool : Value → Bool
  | int _ => false
  | bool b => b

/-- A value of sort `s`: the given one, if it has this sort. -/
def cast (v : Value) : Srt → Value
  | .int => .int v.toInt
  | .bool => .bool v.toBool

@[simp]
theorem sort_cast (v : Value) (s : Srt) :
  (v.cast s).sort = s
  := by
  cases s with
  | _ => rfl

@[simp]
theorem cast_sort (v : Value) :
  v.cast v.sort = v
  := by
  cases v with
  | _ => rfl

theorem cast_of_sort {v : Value} {s : Srt} (h : v.sort = s) :
  v.cast s = v
  := by
  rw [← h, cast_sort]

theorem eq_int {v : Value} (h : v.sort = .int) :
  v = .int v.toInt
  := by
  cases v with
  | int n => rfl
  | bool b => cases h

theorem eq_bool {v : Value} (h : v.sort = .bool) :
  v = .bool v.toBool
  := by
  cases v with
  | int n => cases h
  | bool b => rfl

end Value

/-- A variable. -/
structure Var where
  name : String
  sort : Srt
  deriving DecidableEq, Repr

/-- A declared function symbol. -/
structure FuncDecl where
  name : String
  domain : List Srt
  range : Srt
  deriving DecidableEq, Repr

/-- The operators. -/
inductive Op where
  | add
  | sub
  | mul
  | idiv
  | mod
  | ge
  | gt
  | le
  | lt
  | eq
  | not
  | and
  | or
  | xor
  | implies
  | ite
  | tru
  | fls
  | func (f : FuncDecl)
  deriving DecidableEq, Repr

/-- An expression: a numeral, a variable, or an operator applied to expressions. -/
inductive Expr where
  | num (n : ℤ)
  | var (x : Var)
  | app (o : Op) (args : List Expr)
  deriving Repr

/-- Induction on expressions: an application from its arguments. -/
@[elab_as_elim, induction_eliminator]
theorem Expr.ind {P : Expr → Prop} (num : ∀ n, P (.num n)) (var : ∀ x, P (.var x))
    (app : ∀ o args, (∀ e ∈ args, P e) → P (.app o args)) (e : Expr) :
  P e
  := by
  refine @Expr.rec P (fun l => ∀ e ∈ l, P e) num var app ?_ ?_ e
  · intro e he
    cases he
  · intro e l he hl e' he'
    rcases List.mem_cons.mp he' with rfl | he'
    · apply he
    · apply hl e' he'

theorem sizeOf_lt_app {o : Op} {args : List Expr} {e : Expr} (he : e ∈ args) :
  sizeOf e < sizeOf (Expr.app o args)
  := by
  have hlt : sizeOf e < sizeOf args := List.sizeOf_lt_of_mem he
  rw [Expr.app.sizeOf_spec]
  omega

namespace Expr

mutual

/-- Equality of expressions is decidable. -/
def decEq : (e e' : Expr) → Decidable (e = e')
  | num n, num n' => decidable_of_iff (n = n') (by simp)
  | var x, var x' => decidable_of_iff (x = x') (by simp)
  | app o args, app o' args' =>
      have := decEqAll args args'
      decidable_of_iff (o = o' ∧ args = args') (by simp)
  | num _, var _ => .isFalse nofun
  | num _, app _ _ => .isFalse nofun
  | var _, num _ => .isFalse nofun
  | var _, app _ _ => .isFalse nofun
  | app _ _, num _ => .isFalse nofun
  | app _ _, var _ => .isFalse nofun

/-- Equality of lists of expressions is decidable. -/
def decEqAll : (l l' : List Expr) → Decidable (l = l')
  | [], [] => .isTrue rfl
  | e :: l, e' :: l' =>
      have := decEq e e'
      have := decEqAll l l'
      decidable_of_iff (e = e' ∧ l = l') (by simp)
  | [], _ :: _ => .isFalse nofun
  | _ :: _, [] => .isFalse nofun

end

instance : DecidableEq Expr := decEq

@[match_pattern] abbrev add (l : List Expr) : Expr := app .add l
@[match_pattern] abbrev sub (l : List Expr) : Expr := app .sub l
@[match_pattern] abbrev mul (l : List Expr) : Expr := app .mul l
@[match_pattern] abbrev idiv (a b : Expr) : Expr := app .idiv [a, b]
@[match_pattern] abbrev mod (a b : Expr) : Expr := app .mod [a, b]
@[match_pattern] abbrev ge (a b : Expr) : Expr := app .ge [a, b]
@[match_pattern] abbrev gt (a b : Expr) : Expr := app .gt [a, b]
@[match_pattern] abbrev le (a b : Expr) : Expr := app .le [a, b]
@[match_pattern] abbrev lt (a b : Expr) : Expr := app .lt [a, b]
@[match_pattern] abbrev eq (a b : Expr) : Expr := app .eq [a, b]
@[match_pattern] abbrev not (a : Expr) : Expr := app .not [a]
@[match_pattern] abbrev and (l : List Expr) : Expr := app .and l
@[match_pattern] abbrev or (l : List Expr) : Expr := app .or l
@[match_pattern] abbrev implies (a b : Expr) : Expr := app .implies [a, b]
@[match_pattern] abbrev ite (c a b : Expr) : Expr := app .ite [c, a, b]
@[match_pattern] abbrev tru : Expr := app .tru []
@[match_pattern] abbrev fls : Expr := app .fls []
@[match_pattern] abbrev func (f : FuncDecl) (args : List Expr) : Expr := app (.func f) args

end Expr

/-! ### Values -/

/-- The meaning of the variables and of the declared function symbols.  A value of another sort
than declared is read as one of the declared sort. -/
structure Model where
  var : Var → Value
  func : FuncDecl → List Value → Value

/-- A comparison of integers. -/
def compare (p : ℤ → ℤ → Bool) : List Value → Value
  | [v, w] => .bool (p v.toInt w.toInt)
  | _ => .bool false

/-- A binary connective. -/
def connect (p : Bool → Bool → Bool) : List Value → Value
  | [v, w] => .bool (p v.toBool w.toBool)
  | _ => .bool false

/-- Subtraction of all other numbers from the first one, which is negation if there are none. -/
def subtract : List Value → Value
  | [] => .int 0
  | [v] => .int (-v.toInt)
  | v :: l => .int (v.toInt - (l.map Value.toInt).sum)

/-- A binary operation on integers. -/
def combine (f : ℤ → ℤ → ℤ) : List Value → Value
  | [v, w] => .int (f v.toInt w.toInt)
  | _ => .int 0

/-- Equality of two values of one sort. -/
def equal : List Value → Value
  | [v, w] => .bool (v = w)
  | _ => .bool false

/-- Negation. -/
def negate : List Value → Value
  | [v] => .bool !v.toBool
  | _ => .bool false

/-- The conditional. -/
def choose : List Value → Value
  | [c, v, w] => if c.toBool then v else w
  | _ => .bool false

/-- The value of an operator. -/
def Op.apply (M : Model) (o : Op) (l : List Value) : Value :=
  match o with
  | add => .int (l.map Value.toInt).sum
  | sub => subtract l
  | mul => .int (l.map Value.toInt).prod
  | idiv => combine (fun m n => m / n) l
  | mod => combine (fun m n => m % n) l
  | ge => compare (fun m n => n ≤ m) l
  | gt => compare (fun m n => n < m) l
  | le => compare (fun m n => m ≤ n) l
  | lt => compare (fun m n => m < n) l
  | eq => equal l
  | not => negate l
  | and => .bool (l.all Value.toBool)
  | or => .bool (l.any Value.toBool)
  | xor => connect (fun a b => a != b) l
  | implies => connect (fun a b => !a || b) l
  | ite => choose l
  | tru => .bool true
  | fls => .bool false
  | func f => (M.func f l).cast f.range

mutual

/-- The value of an expression in a model. -/
def Expr.eval (M : Model) : Expr → Value
  | .num n => .int n
  | .var x => (M.var x).cast x.sort
  | .app o args => o.apply M (Expr.evalAll M args)

/-- The values of a list of expressions. -/
def Expr.evalAll (M : Model) : List Expr → List Value
  | [] => []
  | e :: l => e.eval M :: Expr.evalAll M l

end

/-- The integer an expression denotes. -/
def Expr.intVal (M : Model) (e : Expr) : ℤ := (e.eval M).toInt

/-- The expression is true in the model. -/
def Expr.Holds (M : Model) (e : Expr) : Prop := (e.eval M).toBool = true

instance (M : Model) (e : Expr) : Decidable (e.Holds M) :=
  inferInstanceAs (Decidable (_ = _))

/-- The expression is true in every model. -/
def Expr.Valid (e : Expr) : Prop := ∀ M, e.Holds M

section Eval

variable {M : Model}

theorem Expr.evalAll_eq (l : List Expr) :
  Expr.evalAll M l = l.map (Expr.eval M)
  := by
  induction l with
  | nil => rfl
  | cons e l ih => rw [Expr.evalAll, ih, List.map_cons]

@[simp]
theorem eval_num (n : ℤ) :
  (Expr.num n).eval M = .int n
  := rfl

@[simp]
theorem eval_var (x : Var) :
  (Expr.var x).eval M = (M.var x).cast x.sort
  := rfl

theorem eval_app (o : Op) (args : List Expr) :
  (Expr.app o args).eval M = o.apply M (args.map (Expr.eval M))
  := by rw [Expr.eval, Expr.evalAll_eq]

@[simp]
theorem intVal_num (n : ℤ) :
  (Expr.num n).intVal M = n
  := rfl

@[simp]
theorem intVal_add (l : List Expr) :
  (Expr.add l).intVal M = (l.map (Expr.intVal M)).sum
  := by
  rw [Expr.intVal, eval_app]
  change ((l.map (Expr.eval M)).map Value.toInt).sum = _
  rw [List.map_map]
  rfl

@[simp]
theorem intVal_neg (a : Expr) :
  (Expr.sub [a]).intVal M = -a.intVal M
  := by
  rw [Expr.intVal, eval_app]
  rfl

@[simp]
theorem intVal_sub (a b : Expr) :
  (Expr.sub [a, b]).intVal M = a.intVal M - b.intVal M
  := by
  rw [Expr.intVal, eval_app]
  change a.intVal M - (b.intVal M + 0) = _
  rw [add_zero]

@[simp]
theorem intVal_mul (l : List Expr) :
  (Expr.mul l).intVal M = (l.map (Expr.intVal M)).prod
  := by
  rw [Expr.intVal, eval_app]
  change ((l.map (Expr.eval M)).map Value.toInt).prod = _
  rw [List.map_map]
  rfl

@[simp]
theorem intVal_idiv (a b : Expr) :
  (Expr.idiv a b).intVal M = a.intVal M / b.intVal M
  := by
  rw [Expr.intVal, eval_app]
  rfl

@[simp]
theorem intVal_mod (a b : Expr) :
  (Expr.mod a b).intVal M = a.intVal M % b.intVal M
  := by
  rw [Expr.intVal, eval_app]
  rfl

theorem eval_ite (c a b : Expr) :
  (Expr.ite c a b).eval M = if c.Holds M then a.eval M else b.eval M
  := by
  rw [eval_app]
  rfl

@[simp]
theorem intVal_ite (c a b : Expr) :
  (Expr.ite c a b).intVal M = if c.Holds M then a.intVal M else b.intVal M
  := by
  rw [Expr.intVal, eval_ite]
  split
  · rfl
  · rfl

@[simp]
theorem holds_ge (a b : Expr) :
  (Expr.ge a b).Holds M ↔ b.intVal M ≤ a.intVal M
  := by
  rw [Expr.Holds, eval_app]
  apply decide_eq_true_iff

@[simp]
theorem holds_gt (a b : Expr) :
  (Expr.gt a b).Holds M ↔ b.intVal M < a.intVal M
  := by
  rw [Expr.Holds, eval_app]
  apply decide_eq_true_iff

@[simp]
theorem holds_le (a b : Expr) :
  (Expr.le a b).Holds M ↔ a.intVal M ≤ b.intVal M
  := by
  rw [Expr.Holds, eval_app]
  apply decide_eq_true_iff

@[simp]
theorem holds_lt (a b : Expr) :
  (Expr.lt a b).Holds M ↔ a.intVal M < b.intVal M
  := by
  rw [Expr.Holds, eval_app]
  apply decide_eq_true_iff

theorem holds_eq (a b : Expr) :
  (Expr.eq a b).Holds M ↔ a.eval M = b.eval M
  := by
  rw [Expr.Holds, eval_app]
  apply decide_eq_true_iff

@[simp]
theorem holds_not (a : Expr) :
  (Expr.not a).Holds M ↔ ¬ a.Holds M
  := by
  rw [Expr.Holds, eval_app]
  change (!(a.eval M).toBool) = true ↔ _
  rw [Bool.not_eq_true', Expr.Holds, Bool.not_eq_true]

@[simp]
theorem holds_and (l : List Expr) :
  (Expr.and l).Holds M ↔ ∀ e ∈ l, e.Holds M
  := by
  rw [Expr.Holds, eval_app]
  change (l.map (Expr.eval M)).all Value.toBool = true ↔ _
  rw [List.all_map, List.all_eq_true]
  rfl

@[simp]
theorem holds_or (l : List Expr) :
  (Expr.or l).Holds M ↔ ∃ e ∈ l, e.Holds M
  := by
  rw [Expr.Holds, eval_app]
  change (l.map (Expr.eval M)).any Value.toBool = true ↔ _
  rw [List.any_map, List.any_eq_true]
  rfl

theorem holds_and_pair (a b : Expr) :
  (Expr.and [a, b]).Holds M ↔ a.Holds M ∧ b.Holds M
  := by simp

theorem holds_or_pair (a b : Expr) :
  (Expr.or [a, b]).Holds M ↔ a.Holds M ∨ b.Holds M
  := by simp

@[simp]
theorem holds_implies (a b : Expr) :
  (Expr.implies a b).Holds M ↔ (a.Holds M → b.Holds M)
  := by
  rw [Expr.Holds, eval_app]
  change (!(a.eval M).toBool || (b.eval M).toBool) = true ↔ _
  rw [Bool.or_eq_true, Bool.not_eq_true', imp_iff_not_or, Expr.Holds, Bool.not_eq_true]
  rfl

@[simp]
theorem holds_ite (c a b : Expr) :
  (Expr.ite c a b).Holds M ↔ if c.Holds M then a.Holds M else b.Holds M
  := by
  rw [Expr.Holds, eval_ite]
  split
  · rfl
  · rfl

@[simp]
theorem holds_tru :
  Expr.tru.Holds M
  := by
  rw [Expr.Holds, eval_app]
  rfl

@[simp]
theorem not_holds_fls :
  ¬ Expr.fls.Holds M
  := by
  rw [Expr.Holds, eval_app]
  apply Bool.false_ne_true

end Eval

end LIA
