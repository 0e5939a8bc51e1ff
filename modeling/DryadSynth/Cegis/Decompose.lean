import DryadSynth.Formatter
import DryadSynth.Invariant.NormalForm
import DryadSynth.Library.LIA.Definitions
import DryadSynth.Library.LIA.Quantified
import DryadSynth.Reduce.Request

/-!
# Search with partial solutions

For predicates `Cegis.search` looks for a tree of a given height.  It first looks at a smaller
height for a solution of a part of the constraint: without the clauses in which the predicates are
only negated, or without those in which they are only not negated.  With a solution of one part the
constraint for the rest is searched for.  What has been found for a constraint, and that nothing
has been found, is kept in a table for all constraints and heights.

The search for one tree is a loop of candidates and counterexamples, `cegisFixedHeight`.  Where an
external solver is configured, `search` runs it instead and keeps its `results`; the parser of its
output never sets them, so that this branch, which is left out, only records that nothing has been
found.
-/

namespace Sygus.Decompose

open LIA Reduce Invariant

/-- `DefinedFunc` -/
structure DefinedFunc where
  name : String
  args : List Var
  definition : Expr
  deriving DecidableEq

/-- Which of the parts of a constraint is solved. -/
inductive ProbType where
  | POSMIX
  | NEGMIX
  | NORMAL

/-- Whether the predicates stand in a clause without negation, with and without, or with
negation. -/
inductive ExprType where
  | POS
  | MIX
  | NEG
  deriving DecidableEq

/-- The bodies for the functions, by their names. -/
abbrev Functions := String → Expr

/-- The answer of the synthesizer, with the functions that are decoded from its model.  It may also
exit without one. -/
inductive Synthesis where
  | EXITED
  | UNSATISFIABLE
  | UNKNOWN
  | SATISFIABLE (functions : Functions)

/-- What has been tried for a constraint, by height: a solution, or null. -/
abbrev Tried := List (ℕ × Option (List DefinedFunc))

/-- The tables of a search, and the number of iterations so far. -/
structure State where
  triedProblem : Expr → Option Tried
  cntrExpMap : Expr → Option (List (List Expr))
  time : ℕ

/-- `Cegis`, for the search with a fixed height.  The synthesizer, the counterexample in the last
model of the verifier and the clock may answer differently at different times. -/
structure Cegis where
  requests : List Request
  solver : Solver
  fixedCond : ℤ
  inputIterLimit : ℕ
  searchRegions : ℕ
  synthesisFixedHeight : ℕ → Expr → ProbType → ℕ → ℤ → List (List Expr) → Synthesis
  decode : ℕ → Expr → List Expr
  running : ℕ → Bool
  timeout : ℕ → Bool
  regionTimeout : ℕ → Bool

/-! ### Clauses -/

/-- `isPos` -/
def isPos : Expr → Bool
  | .app .not [.app .not [e]] => isPos e
  | .app (.func _) (_ :: _) => true
  | _ => false

/-- `isNeg` -/
def isNeg : Expr → Bool
  | .app .not [.app .not [e]] => isNeg e
  | .app .not [.app (.func _) (_ :: _)] => true
  | _ => false

/-- `getExprType`: without predicates the type is mixed. -/
def getExprType (andexpr : Expr) : ExprType :=
  let orList := getArgsListForOr andexpr
  let pos := orList.any isPos
  let neg := orList.any isNeg
  if pos && neg then .MIX
  else if pos then .POS
  else if neg then .NEG
  else .MIX

/-- The conjunction of the clauses of a type. -/
def clauses (type : ExprType) (andList : List Expr) : List Expr :=
  andList.filter fun e => getExprType e = type

/-! ### The table -/

/-- `Map::put` -/
def put (map : Tried) (height : ℕ) (funcs : Option (List DefinedFunc)) : Tried :=
  if height ∈ map.map Prod.fst then
    map.map fun e => if e.1 = height then (height, funcs) else e
  else map ++ [(height, funcs)]

/-- `getSolution` -/
def getSolution (map : Option Tried) : Option (List DefinedFunc) :=
  (map.getD []).findSome? Prod.snd

namespace State

/-- Put what has been found for a constraint into the table. -/
def record (constraint : Expr) (height : ℕ) (funcs : Option (List DefinedFunc)) (st : State) :
    State :=
  { st with
    triedProblem := Function.update st.triedProblem constraint
      (some (put ((st.triedProblem constraint).getD []) height funcs)) }

def solution (st : State) (constraint : Expr) : Option (List DefinedFunc) :=
  getSolution (st.triedProblem constraint)

end State

namespace Cegis

variable (c : Cegis)

/-! ### Solutions -/

/-- The definitions of the reduced functions. -/
def defs (functions : Functions) : List (FuncDecl × Definition) :=
  c.requests.map fun r => (r.rdcdFunc, ⟨r.requestUsedArgs, functions r.func.name⟩)

/-- `Verifier::verify` -/
def verify (functions : Functions) (constraint : Expr) : Status :=
  c.solver.check (.not (.qf (constraint.expandEach (c.defs functions))))

/-- The functions for all arguments. -/
def results (functions : Functions) : List DefinedFunc :=
  c.requests.map fun r => ⟨r.func.name, r.requestArgs, functions r.func.name⟩

/-- The definition that is returned: a predicate has no conditionals. -/
def returned (functions : Functions) : Functions := fun name =>
  if (functions name).sort = some .bool then elimITE (functions name) else functions name

/-- The connective for a partial solution and the function for the rest. -/
def connective (pos : Bool) : Op := if pos then .and else .or

/-- A function connected with a definition of it.  They have to be formulas. -/
def newDef (r : Request) (pos : Bool) (edef : Expr) : Option Definition := do
  let edef ← toBoolExpr edef
  let fapp ← toBoolExpr (.func r.rdcdFunc (r.requestUsedArgs.map .var))
  some ⟨r.requestUsedArgs, .app (connective pos) [edef, fapp]⟩

/-- `getSimpProb`: the constraint for the rest. -/
def getSimpProb (constraint : Expr) (subexpr : List DefinedFunc) (pos : Bool) : Option Expr :=
  c.requests.foldlM (fun rewritten r =>
    subexpr.foldlM (fun rewritten e =>
      if e.name = r.func.name then
        (newDef r pos e.definition).map (rewritten.expand r.rdcdFunc)
      else some rewritten) rewritten) constraint

/-- `getCombinedResults`, where every function has a definition in both. -/
def getCombinedResults (subexpr subf : List DefinedFunc) (pos : Bool) :
    Option (List DefinedFunc) :=
  subexpr.mapM fun e => do
    let f ← (subf.filter fun f => f.name = e.name).getLast?
    let edef ← toBoolExpr e.definition
    let fdef ← toBoolExpr f.definition
    some ⟨e.name, e.args, .app (connective pos) [edef, fdef]⟩

/-! ### One tree -/

/-- The bound on the coefficients, and how often it has been increased. -/
structure Region where
  condBound : ℤ
  condBoundInc : ℕ

/-- The next bound, the last one is infinity. -/
def Region.next (region : Region) : Region where
  condBound :=
    if region.condBoundInc = c.searchRegions then -1
    else min (100 ^ region.condBoundInc) (2 ^ 31 - 1)
  condBoundInc := region.condBoundInc + 1

/-- The region after the synthesizer has found nothing; there is none if the search gives up. -/
def afterUnsatisfiable (height : ℕ) (region : Region) : Option Region :=
  if 0 < c.fixedCond then none
  else if c.searchRegions < region.condBoundInc then
    if 0 < height then none else some region
  else some (Region.next c region)

/-- The region after a counterexample. -/
def afterCounterexample (height time : ℕ) (region : Region) : Option Region :=
  if 1 < region.condBoundInc ∧ c.regionTimeout time then
    if region.condBoundInc ≤ c.searchRegions then
      if 0 < c.fixedCond then none else some (Region.next c region)
    else if 0 < height then none
    else some region
  else some region

/-- The loop of `cegisFixedHeight`, with at most `n` iterations after `iterCount`. -/
def cegisLoop (height : ℕ) (type : ProbType) (constraint : Expr) :
    ℕ → ℕ → Region → State → Option (Option (List DefinedFunc) × State)
  | 0, _, _, _ => none
  | n + 1, iterCount, region, st =>
      let time := st.time
      let st := { st with time := time + 1 }
      let examples := (st.cntrExpMap constraint).getD []
      if c.running time = false then some (none, st)
      else if 0 < c.inputIterLimit ∧ c.inputIterLimit * (height + 3) < iterCount + 1 then
        some (none, st)
      else
        match c.synthesisFixedHeight time constraint type height region.condBound examples with
        | .EXITED =>
            if 0 < c.fixedCond ∨ 0 < height then some (none, st)
            else cegisLoop height type constraint n (iterCount + 1) region st
        | .UNSATISFIABLE =>
            match c.afterUnsatisfiable height region with
            | none => some (none, st)
            | some region => cegisLoop height type constraint n (iterCount + 1) region st
        | .UNKNOWN => some (none, st)
        | .SATISFIABLE functions =>
            match c.verify functions constraint with
            | .UNSATISFIABLE => some (some (c.results (returned functions)), st)
            | .UNKNOWN => some (none, st)
            | .SATISFIABLE =>
                let st := { st with
                  cntrExpMap := Function.update st.cntrExpMap constraint
                    (some (examples ++ [c.decode time constraint])) }
                if c.timeout time then some (none, st)
                else
                  match c.afterCounterexample height time region with
                  | none => some (none, st)
                  | some region => cegisLoop height type constraint n (iterCount + 1) region st

/-- `cegisFixedHeight`, in at most `n` iterations. -/
def cegisFixedHeight (n height : ℕ) (type : ProbType) (constraint : Expr) (st : State) :
    Option (Option (List DefinedFunc) × State) :=
  let st := { st with
    cntrExpMap := Function.update st.cntrExpMap constraint
      (some ((st.cntrExpMap constraint).getD [])) }
  let condBound := if 0 < c.fixedCond then c.fixedCond else 1
  c.cegisLoop height type constraint n 0 ⟨condBound, 1⟩ st

/-! ### The search -/

/-- How the part of `search` for a smaller height is left. -/
inductive Exit where
  | threw
  | returned (st : State)

/-- The search for a tree of the height, if it has not been done before. -/
def searchFullTree (n height : ℕ) (constraint : Expr) (type : ProbType) (st : State) :
    Option State :=
  if height ∈ ((st.triedProblem constraint).getD []).map Prod.fst then some st
  else
    match c.cegisFixedHeight n height type constraint st with
    | none => none
    | some (func, st) => some (st.record constraint height func)

/-- The search with a solution of the part `partConstr`, where `otherList` is the rest. -/
def searchPart (search : Expr → ProbType → State → Option State) (height : ℕ) (constraint : Expr)
    (type : ProbType) (pos : Bool) (partConstr : Expr) (otherList : List Expr) (st : State) :
    Except Exit State :=
  match search partConstr (if pos then .POSMIX else .NEGMIX) st with
  | none => .error .threw
  | some st =>
      match st.solution partConstr with
      | none => .ok st
      | some subexpr =>
          if otherList = [] then .error (.returned (st.record constraint height (some subexpr)))
          else
            match c.getSimpProb constraint subexpr pos with
            | none => .error .threw
            | some simpProb =>
                match search simpProb type st with
                | none => .error .threw
                | some st =>
                    match st.solution simpProb with
                    | none => .ok st
                    | some subf =>
                        match getCombinedResults subexpr subf pos with
                        | none => .error .threw
                        | some combined =>
                            .error (.returned (st.record constraint height (some combined)))

/-- The part of `search` for a smaller height. -/
def searchSmaller (search : Expr → ProbType → State → Option State) (height : ℕ)
    (constraint : Expr) (type : ProbType) (st : State) : Except Exit State :=
  match convertToCNF constraint with
  | none => .error .threw
  | some cnf => do
      let andList := getArgsListForAnd (c.solver.simplify cnf)
      let posList := clauses .POS andList
      let negList := clauses .NEG andList
      let mixExpr : Expr := .and (clauses .MIX andList)
      let st ← c.searchPart search height constraint type true
        (.and [.and posList, mixExpr]) negList st
      c.searchPart search height constraint type false (.and [.and negList, mixExpr]) posList st

/-- `search`, where every loop for a tree has at most `n` iterations.  There is no result if they
are not enough, or if there is an exception. -/
def search (n : ℕ) : ℕ → Expr → ProbType → State → Option State
  | 0, constraint, type, st =>
      if (st.solution constraint).isSome then some st
      else c.searchFullTree n 0 constraint type st
  | 1, constraint, type, st =>
      if (st.solution constraint).isSome then some st
      else c.searchFullTree n 1 constraint type st
  | height + 2, constraint, type, st =>
      if (st.solution constraint).isSome then some st
      else
        match c.searchSmaller (search n (height + 1)) (height + 1) constraint type st with
        | .error .threw => none
        | .error (.returned st) => some st
        | .ok st => c.searchFullTree n (height + 2) constraint type st

/-- Searches one after the other, from empty tables. -/
def searches (n : ℕ) (calls : List (ℕ × Expr × ProbType)) : Option State :=
  calls.foldlM (fun st call => c.search n call.1 call.2.1 call.2.2 st)
    ⟨fun _ => none, fun _ => none, 0⟩

end Cegis

end Sygus.Decompose
