import DryadSynth.General.DnC
import DryadSynth.Library.Divisions
import DryadSynth.Library.LIA.Definitions

/-!
# Vectors for the terms of a grammar

`Expand` describes a term of the grammar by a vector of numbers: the number of the production at the
root, followed by the vectors of the arguments, or by the value of a constant.  The lengths of the
arguments' vectors are not written down.  For the solver, a formula says that the variables of a
vector describe a term (`generateValid`), and an expression has the value of this term
(`generateInterpret`): both try all divisions of the vector.  A solution is read from left to right,
as an expression (`interpretConcrete`) and as a tree (`DnC.buildAST`).

The formulas are generated for internal variables and kept by their length; the variables of a
vector are substituted afterwards.
-/

namespace Sygus.Encoding

open LIA DnC Divisions

/-- `Expand`, for one function. -/
structure Expand where
  problem : SygusProblem
  vars : String → Option Var
  localArgs : String → Option Var
  grammarSybSort : String → Srt
  funcs : String → Option Definition
  /-- internal term expressions -/
  it : List Var
  t : List Var
  simplify : Expr → Expr

/-- `Integer.parseInt` -/
def parseInt (s : String) : Option ℤ :=
  match s.toInt? with
  | some n => if -2 ^ 31 ≤ n ∧ n < 2 ^ 31 then some n else none
  | none => none

/-- The operators by their names, and how many arguments are read if not all. -/
def internalOps : List (String × Op × Option ℕ) :=
  [("+", .add, none), ("-", .sub, none), ("*", .mul, none), ("/", .idiv, some 2),
    ("and", .and, none), ("or", .or, none), ("not", .not, some 1), (">", .gt, some 2),
    (">=", .ge, some 2), ("<", .lt, some 2), ("<=", .le, some 2), ("=", .eq, some 2),
    ("=>", .implies, some 2), ("ite", .ite, some 3), ("if", .ite, some 3), ("div", .idiv, some 2),
    ("mod", .mod, some 2), ("xor", .xor, some 2)]

/-- The productions of a nonterminal, by the number of the first one and how many there are. -/
def subrules : List (String × List Rule) → String → Option (ℕ × ℕ)
  | [], _ => none
  | (M, rules) :: G, N =>
      if M = N then some (0, rules.length)
      else (subrules G N).map fun q => (q.1 + rules.length, q.2)

namespace Expand

variable (x : Expand)

/-- `OpDispatcher.dispatch`, with defined functions only. -/
def dispatch (name : String) (args : List Expr) : Option Expr :=
  match internalOps.lookup name with
  | some (o, none) => some (.app o args)
  | some (o, some n) => if n ≤ args.length then some (.app o (args.take n)) else none
  | none => (x.funcs name).map fun df => df.apply args

/-- The sorts of the productions, `ruleTypeLookup`. -/
def ruleTypeLookup : List Srt :=
  x.problem.cfg.grammarRules.flatMap fun g => g.2.map fun _ => x.grammarSybSort g.1

/-- `getFallback` -/
def getFallback : Srt → Expr
  | .int => .num 0
  | .bool => .fls

/-- Write the variables of a vector for the internal ones. -/
def instantiate (e : Expr) (vars : List Var) : Expr :=
  e.substitute ((x.it.take vars.length).map .var) (vars.map .var)

/-! ### The predicate -/

/-- The formula for a production on internal variables, unless an argument is no nonterminal. -/
def validBody (valid : String → List Var → Expr) (ruleIndex : ℕ) : List Var → Option Expr
  | [] => some .fls
  | typeVar :: tail =>
      let typeCond : Expr := .eq (.var typeVar) (.num ruleIndex)
      match x.problem.ruleTbl[ruleIndex]? with
      | none => some .fls
      | some rule =>
          if x.problem.resolveSyb rule.termSyb = none then some .fls
          else if rule.termSyb = "ConstantInt" then
            some (if tail.length = 1 then typeCond else .fls)
          else if rule.termSyb = "ConstantBool" then
            match tail with
            | [valueVar] => some (.and [typeCond,
                .or [.eq (.var valueVar) (.num 0), .eq (.var valueVar) (.num 1)]])
            | _ => some .fls
          else if tail.length < rule.args.length then some .fls
          else
            match rule.args with
            | [] => some (if tail = [] then typeCond else .fls)
            | [subtermSyb] =>
                if x.problem.cfg.sybTypeTbl subtermSyb = some .symbol then
                  some (.and [typeCond, valid subtermSyb tail])
                else none
            | args =>
                some (.and [typeCond, .or ((combine (args.length - 1) 1 (tail.length - 1)).map
                  fun division => .and ((args.zip (cut tail 0 division)).map fun a =>
                    valid a.1 a.2))])

/-- `generateValid` for a production, from that for nonterminals on shorter vectors. -/
def validRule (valid : String → List Var → Expr) (ruleIndex : ℕ) (vars : List Var) : Expr :=
  match x.validBody valid ruleIndex (x.it.take vars.length) with
  | none => .tru
  | some result => x.instantiate (x.simplify result) vars

/-- The numbers of the productions of a nonterminal. -/
def rules (ruleName : String) : List ℕ :=
  match subrules x.problem.cfg.grammarRules ruleName with
  | none => []
  | some (ruleS, len) => List.range' ruleS len

/-- `generateValid` for a nonterminal, on vectors up to a length. -/
def generateValid : ℕ → String → List Var → Expr
  | 0, _, _ => .fls
  | d + 1, ruleName, vars =>
      let ivars := x.it.take vars.length
      let conds := (x.rules ruleName).map fun type => x.validRule (generateValid d) type ivars
      x.instantiate (x.simplify (.or conds)) vars

/-- `validPredicate` -/
def validPredicate : Expr := x.generateValid x.t.length "Start" x.t

/-- `expandCoefficientGeneral`: every entry of the vector is less than the number of productions,
also where it is a constant. -/
def expandCoefficientGeneral : Expr :=
  x.t.foldl (fun cond term => .and [cond, .ge (.var term) (.num 0),
    .lt (.var term) (.num x.problem.ruleTbl.length)]) (.and [.tru, x.validPredicate])

/-- `isInterpretable` -/
def isInterpretable (varLength : ℕ) (ruleName : String) : Bool :=
  x.generateValid varLength ruleName (x.t.take varLength) ≠ .fls

/-- `isInterpretable` for a production -/
def isInterpretableRule (varLength ruleIndex : ℕ) : Bool :=
  x.validRule (x.generateValid varLength) ruleIndex (x.t.take varLength) ≠ .fls

/-! ### The expression -/

/-- The arguments of a call, unless one of them cannot be interpreted. -/
def argsInterpreted (interpret : String → List Var → Option Expr) :
    List (String × List Var) → Option (Option (List Expr))
  | [] => some (some [])
  | s :: subterms =>
      if x.isInterpretable s.2.length s.1 then do
        let e ← interpret s.1 s.2
        let l ← argsInterpreted interpret subterms
        some (l.map (e :: ·))
      else some none

/-- The conditional for one division of the vector. -/
def branch (interpret : String → List Var → Option Expr) (rule : Rule) (tail : List Var)
    (iteExpr : Expr) (division : List ℕ) : Option Expr := do
  let subterms := rule.args.zip (cut tail 0 division)
  match ← x.argsInterpreted interpret subterms with
  | none => some iteExpr
  | some args =>
      let structValids := subterms.dropLast.map fun s => x.generateValid s.2.length s.1 s.2
      let branch ← x.dispatch rule.termSyb args
      some (.ite (.and structValids) branch iteExpr)

/-- The value of a production on internal variables. -/
def interpretBody (interpret : String → List Var → Option Expr) (ruleIndex : ℕ)
    (ivars : List Var) : Option Expr := do
  let rule ← x.problem.ruleTbl[ruleIndex]?
  match x.problem.resolveSyb rule.termSyb with
  | some .literal | some .numeral => (parseInt rule.termSyb).map .num
  | some .glbvar => (x.vars rule.termSyb).map .var
  | some .lclarg => (x.localArgs rule.termSyb).map .var
  | some .cstint => ivars[1]?.map .var
  | some .cstbol => ivars[1]?.map fun v => .ite (.eq (.var v) (.num 0)) .fls .tru
  | some .symbol => interpret rule.termSyb ivars
  | _ =>
      match rule.args with
      -- there would be a negative number of divisions
      | [] => none
      | [subtermSyb] => do
          let subtermInterpreted ← interpret subtermSyb ivars.tail
          x.dispatch rule.termSyb [subtermInterpreted]
      | args => do
          let sort ← x.ruleTypeLookup[ruleIndex]?
          (combine (args.length - 1) 1 (ivars.tail.length - 1)).foldlM
            (x.branch interpret rule ivars.tail) (getFallback sort)

/-- `generateInterpret` for a production. -/
def interpretRule (interpret : String → List Var → Option Expr) (ruleIndex : ℕ) (vars : List Var) :
    Option Expr :=
  (x.interpretBody interpret ruleIndex (x.it.take vars.length)).map fun result =>
    x.instantiate (x.simplify result) vars

/-- `generateInterpret` for a nonterminal, on vectors up to a length. -/
def generateInterpret : ℕ → String → List Var → Option Expr
  | 0, _, _ => none
  | d + 1, ruleName, vars => do
      let ivars := x.it.take vars.length
      let result ← (x.rules ruleName).foldlM (fun iteExpr type =>
        if x.isInterpretableRule vars.length type then do
          let branch ← x.interpretRule (generateInterpret d) type ivars
          some (.ite (x.validRule (x.generateValid vars.length) type ivars) branch iteExpr)
        else some iteExpr) (getFallback (x.grammarSybSort ruleName))
      some (x.instantiate (x.simplify result) vars)

/-- `interpretGeneral` for the vector of the solver. -/
def interpretGeneral : Option Expr := x.generateInterpret x.t.length "Start" x.t

/-! ### Reading a vector -/

/-- `ConcreteInterpreter.interpretConcrete`: the expression the entries begin with, and the entries
after it. -/
def interpretConcrete : ℕ → List ℤ → Option (Expr × List ℤ)
  | d + 1, ruleIndex :: terms => do
      let rule ← x.problem.ruleAt ruleIndex
      match x.problem.resolveSyb rule.termSyb, terms with
      | some .literal, _ | some .numeral, _ => do
          let n ← parseInt rule.termSyb
          some (.num n, terms)
      | some .glbvar, _ => do
          let v ← x.vars rule.termSyb
          some (.var v, terms)
      | some .lclarg, _ => do
          let v ← x.localArgs rule.termSyb
          some (.var v, terms)
      | some .cstint, c :: terms => some (.num c, terms)
      | some .cstbol, c :: terms => some (if c = 0 then .fls else .tru, terms)
      | some .cstint, [] | some .cstbol, [] => none
      | some .symbol, _ => interpretConcrete d terms
      | _, _ => do
          let (args, terms) ← readArgs (interpretConcrete d) rule.args.length terms
          let result ← x.dispatch rule.termSyb args
          some (result, terms)
  | _, _ => none

end Expand

end Sygus.Encoding
