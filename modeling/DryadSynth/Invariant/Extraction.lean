import DryadSynth.Invariant.NormalForm
import DryadSynth.Invariant.Overflow
import DryadSynth.Invariant.Problem
import DryadSynth.Invariant.Transf
import DryadSynth.Reduce.VarsRelation

/-!
# Extraction of transitions

`Transf.fromTransfFormula` reads a transition formula over the integer variables and their primed
copies as updates in regions.  Every disjunct is split into conditions, which have no primed
variables and are read as linear inequalities, and the rest, which is read as an update: by its
syntax, or with the solver where the syntax is not the expected one.

A result of `none` stands for `null` and for an exception.
-/

namespace Sygus.Invariant

open LIA
open Reduce (isPrimed)

namespace UniTrans

variable {n : ℕ}

def toExpr (vars : Variables n) (u : UniTrans n) : Expr :=
  .and (List.ofFn fun i =>
    .eq (.var (prime (vars.var i))) (.add [.var (vars.var i), .num (u.deltaTbl i)]))

end UniTrans

namespace Transf

variable {n : ℕ}

def toExpr (t : Transf n) : Expr :=
  .or (t.transMap.map fun p => .and [p.1.toExpr t.vars, p.2.toExpr t.vars])

/-- `splitDisj` visits the disjuncts as `getArgsListForOr` does. -/
def splitDisj (e : Expr) : List Expr := getArgsListForOr e

end Transf

/-- `Expr.isConst`. -/
def isConst : Expr → Bool
  | .num _ | .var _ | .app _ [] => true
  | _ => false

/-- A cast to an arithmetic expression, which fails on formulas. -/
def toArithExpr (e : Expr) : Option Expr :=
  if e.sort = some .int then some e else none

/-! ### Conditions -/

namespace Region

mutual

/-- A constant in the expression is a primed variable.  The order in which the queue is worked off
does not matter. -/
def hasPrime : Expr → Bool
  | .num _ => false
  | .var x => isPrimed x.name
  | .app _ args => hasPrimeAny args

def hasPrimeAny : List Expr → Bool
  | [] => false
  | e :: l => hasPrime e || hasPrimeAny l

end

/-- The inequalities and the pairs of different terms that a condition stands for. -/
structure Eliminated where
  nnCondList : List Expr
  neTermList : List (Expr × Expr)

def eliminateNegation : Expr → Option Eliminated
  | .num _ | .var _ | .app _ [] => some ⟨[], []⟩
  | .not inner =>
      match inner with
      -- the inner negation is looked at again, and not what it negates
      | .app .not _ => eliminateNegation inner
      | .ge a b => some ⟨[.lt a b], []⟩
      | .gt a b => some ⟨[.le a b], []⟩
      | .lt a b => some ⟨[.ge a b], []⟩
      | .le a b => some ⟨[.gt a b], []⟩
      | .eq a b => some ⟨[], [(a, b)]⟩
      | _ => some ⟨[], []⟩
  | .eq a b => do
      let a ← toArithExpr a
      let b ← toArithExpr b
      some ⟨[.le a b, .ge a b], []⟩
  | cond => some ⟨[cond], []⟩

/-- One iteration of `construct_neqs_cond`: every list goes on with `lt`, and its copy with `gt`. -/
def splitNeq (neCondList : List (List Expr)) (args : Expr × Expr) : Option (List (List Expr)) := do
  let a ← toArithExpr args.1
  let b ← toArithExpr args.2
  some (neCondList.map (· ++ [.lt a b]) ++ neCondList.map (· ++ [.gt a b]))

def constructNeqsCond (neTermList : List (Expr × Expr)) : Option (List (List Expr)) :=
  neTermList.foldlM splitNeq [[]]

section Normalize

variable {n : ℕ} (S : Solver) (vars : Variables n)

/-- The value of the expression where the variable with the given number is one and all others are
zero, which is its constant if there is no variable with this number. -/
def getCoeff (e : Expr) (index : ℕ) : Expr :=
  S.simplify (vars.substitute (fun i => if i.val = index then .num 1 else .num 0) e)

def getConstant (e : Expr) : Expr := getCoeff S vars e n

def getCoeffArray (e constant : Expr) (i : Fin n) : Expr :=
  S.simplify (.sub [getCoeff S vars e i, constant])

/-- The coefficients of `l - r`, and the constant, less one for a strict inequality. -/
def linearize (l r : Expr) (strict : Bool) : (Fin n → Expr) × Expr :=
  let constantL := getConstant S vars l
  let constantR := getConstant S vars r
  let constant := Expr.sub [constantL, constantR]
  (fun i => S.simplify
      (.sub [getCoeffArray S vars l constantL i, getCoeffArray S vars r constantR i]),
    S.simplify (if strict then .sub [constant, .num 1] else constant))

/-- `normalize`.  For a condition of another kind it leaves coefficients that are `null`, and the
conversion to an `int` fails. -/
def normalize : Expr → Option ((Fin n → Expr) × Expr)
  | .ge a b => some (linearize S vars a b false)
  | .gt a b => some (linearize S vars a b true)
  | .le a b => some (linearize S vars b a false)
  | .lt a b => some (linearize S vars b a true)
  | _ => none

/-- `Integer.parseInt`, for a number that is printed. -/
def parseInt (z : ℤ) : Option ℤ :=
  if -2 ^ 31 ≤ z ∧ z < 2 ^ 31 then some z else none

def convertExprToInt : Expr → Option ℤ
  | .num z => parseInt z
  | _ => none

/-- The results for all arguments, if there are all. -/
def results {α : Type} (f : Fin n → Option α) : Option (Fin n → α) :=
  if h : ∀ i, (f i).isSome then some fun i => (f i).get (h i) else none

/-- `addCond` with the coefficients and the constant of an entry. -/
def toCond (entry : (Fin n → Expr) × Expr) : Option (Cond n) := do
  let coefficient ← results fun i => convertExprToInt (entry.1 i)
  let constant ← convertExprToInt entry.2
  some ⟨coefficient, constant⟩

/-- The inequality of a condition. -/
def readCond (cond : Expr) : Option (Cond n) := (normalize S vars cond).bind toCond

/-- The region of some conditions, or the inequality `0 ≥ 0` for none. -/
def ofConds (conds : List (Cond n)) : Region n :=
  ⟨if conds = [] then [⟨0, 0⟩] else conds, [], none⟩

end Normalize

/-- The loop of `fromConj` over its queue: the atoms with primed variables, and those without. -/
def conjLoop : List Expr → List Expr → List Expr → Option (List Expr × List Expr)
  | [], nonConds, condList => some (nonConds, condList)
  | expr :: todo, nonConds, condList =>
      match expr with
      | .and args => conjLoop (todo ++ args) nonConds condList
      | e =>
          if isAtom e then
            if hasPrime e then conjLoop todo (nonConds ++ [e]) condList
            else conjLoop todo nonConds (condList ++ [e])
          else none
  termination_by todo => sizeOf todo
  decreasing_by
    · have := Reduce.sizeOf_append todo args
      simp
      omega
    · simp
    · simp

section FromConj

variable {n : ℕ} (S : Solver) (vars : Variables n)

/-- The regions of the conditions of a conjunction, and the rest of it. -/
def fromConj (conj : Expr) : Option (List (Region n) × List Expr) := do
  let (nonConds, condList) ← conjLoop [conj] [] []
  let eliminated ← condList.mapM eliminateNegation
  let neCondList ← constructNeqsCond (eliminated.flatMap Eliminated.neTermList)
  let regionMap ← (eliminated.flatMap Eliminated.nnCondList).mapM (readCond S vars)
  let regions ← neCondList.mapM fun neCond => do
    let full ← neCond.mapM (readCond S vars)
    some (ofConds (regionMap ++ full))
  some (regions, nonConds)

end FromConj

end Region

/-! ### Updates -/

namespace Transf

/-- The deltas that are known. -/
abbrev Deltas (n : ℕ) : Type := Fin n → Option ℤ

section Deltas

variable {n : ℕ} (S : Solver) (vars : Variables n)

/-- The variable that an expression is. -/
def index (e : Expr) : Option (Fin n) := (List.finRange n).find? fun i => e = .var (vars.var i)

/-- The expression is the constant that is printed as the primed copy of a variable. -/
def isPrimeOf (e : Expr) (i : Fin n) : Bool :=
  match e with
  | .var y => y.name = (vars.var i).name ++ "!"
  | _ => false

/-- The end of `getDeltaBySyntax`, for a sum with the operands `subargs`.  The first two of them are
looked at. -/
def getDeltaOfSum (arg : Expr) (subargs : List Expr) (sign : ℤ → ℤ) (deltas : Deltas n) :
    Option (Bool × Deltas n) :=
  match subargs with
  | [] => none
  | x :: rest =>
      match index vars x with
      | none => some (false, deltas)
      | some i =>
          match rest with
          | [] => none
          | .num c :: _ =>
              if isPrimeOf vars arg i then do
                let c ← Region.parseInt c
                some (true, Function.update deltas i (some (sign c)))
              else some (false, deltas)
          | _ => some (false, deltas)

/-- `getDeltaBySyntax`, with the deltas after it.  An application of `-` to one argument is a
negation. -/
def getDeltaBySyntax (nonCond : Expr) (deltas : Deltas n) : Option (Bool × Deltas n) :=
  match nonCond with
  | .eq a b =>
      if !isConst a then some (false, deltas)
      else match b with
        | .app .add subargs => getDeltaOfSum vars a subargs id deltas
        | .app .sub [_] => some (false, deltas)
        | .app .sub subargs => getDeltaOfSum vars a subargs (fun c => toInt32 (-c)) deltas
        | x =>
            match index vars x with
            | some i =>
                if isPrimeOf vars a i then some (true, Function.update deltas i (some 0))
                else some (false, deltas)
            | none => some (false, deltas)
  | _ => some (false, deltas)

/-- The loop over `nonConds`, which goes on without looking once an extraction has failed. -/
def getDeltasBySyntax : List Expr → Deltas n → Option (Bool × Deltas n)
  | [], deltas => some (true, deltas)
  | nonCond :: nonConds, deltas => do
      let (done, deltas) ← getDeltaBySyntax vars nonCond deltas
      if done then getDeltasBySyntax nonConds deltas else some (false, deltas)

/-- `mkAlt` of a constant. -/
def alt (x : Var) : Var := ⟨x.name ++ "!alt", .int⟩

/-- The variable of `cVars` for the delta of a variable. -/
def cVar (x : Var) : Var := ⟨"delta_" ++ x.name, .int⟩

/-- `mkAlt` of an expression, for all variables that occur. -/
def mkAlt (e : Expr) : Expr :=
  (vars.toList.flatMap fun x => [x, prime x, cVar x]).foldl
    (fun e x => e.substitute [.var x] [.var (alt x)]) e

/-- The conjunction of the updates by given deltas. -/
def base (d : Fin n → Expr) : Expr :=
  (List.finRange n).foldl (fun e i =>
    .and [e, .eq (.var (prime (vars.var i))) (.add [.var (vars.var i), d i])]) .tru

/-- `getDeltaBySMT`.  The solver gives the deltas numerals in its model of a formula, if it does. -/
def getDeltaBySMT (model : Quantified → Var → Option ℤ) (nonConds : List Expr) :
    Option (Fin n → ℤ) :=
  let deltas := base vars fun i => .var (cVar (vars.var i))
  let unique := nonConds ++ [deltas] ++ (nonConds ++ [deltas]).map (mkAlt vars) ++
    vars.toList.map fun x => .not (.eq (.var (cVar x)) (.var (alt (cVar x))))
  let solved := Quantified.qf (.and (nonConds ++ [deltas]))
  if S.check (.qf (.and unique)) ≠ .UNSATISFIABLE then none
  else if S.check solved ≠ .SATISFIABLE then none
  else do
    let r ← Region.results fun i => model solved (cVar (vars.var i))
    let moved := base vars fun i => .num (r i)
    if S.check (.qf (.and (nonConds ++ [.not moved]))) ≠ .UNSATISFIABLE then none
    else Region.results fun i => Region.parseInt (r i)

/-- The deltas of the atoms with primed variables.  A variable without one keeps its value. -/
def getDeltas (model : Quantified → Var → Option ℤ) (nonConds : List Expr) :
    Option (Fin n → ℤ) := do
  let (done, deltas) ← getDeltasBySyntax vars nonConds fun _ => none
  if done then some fun i => (deltas i).getD 0 else getDeltaBySMT S vars model nonConds

/-- The regions of a disjunct, with its update. -/
def fromDisjunct (model : Quantified → Var → Option ℤ) (conj : Expr) :
    Option (List (Region n × UniTrans n)) := do
  let (regions, nonConds) ← Region.fromConj S vars conj
  let deltas ← getDeltas S vars model nonConds
  let regions := if regions = [] then [⟨[⟨0, 1⟩], [], none⟩] else regions
  some (regions.map fun r => (r, ⟨deltas⟩))

/-- `fromTransfFormula`.  The disjunctive normal form has to exist, and the formula itself is
split. -/
def fromTransfFormula (model : Quantified → Var → Option ℤ) (formula : Expr) :
    Option (Transf n) := do
  let _ ← convertToDNF formula
  let transMap ← (splitDisj formula).mapM (fromDisjunct S vars model)
  some ⟨vars, transMap.flatten, none⟩

end Deltas

end Transf

end Sygus.Invariant
