import DryadSynth.BVEnum.Heights
import DryadSynth.Library.Splitting

/-!
# Enumeration from examples

`PBEEnumSize.java` looks for a function of 64-bit words from examples.  It enumerates the
expressions of the grammar by size, and keeps one of each list of outputs on the selected examples.
An expression that is right on all of them is the result.  Meanwhile the expressions that are right
on some of them are recorded, and the others serve as conditions, which split the examples into
classes.  When every class has an expression that is right on it, the classes and their conditions
are put together to a tree of conditionals.  If the tree is wrong on other examples, some of these
are selected as well and the search begins again.
-/

namespace DryadSynth

open QFBV (Term)
open Splitting (Part)
open Sygus (Grammar)
open Sygus.DnC (Rule)

namespace TermEquality

mutual

/-- `equals` -/
def decEq : (t t' : Term 64) → Decidable (t = t')
  | .symbol s, .symbol s' => decidable_of_iff (s = s') (by simp)
  | .literal x, .literal x' => decidable_of_iff (x = x') (by simp)
  | .app f ts, .app f' ts' =>
      have := decEqAll ts ts'
      decidable_of_iff (f = f' ∧ ts = ts') (by simp)
  | .symbol _, .literal _ => .isFalse nofun
  | .symbol _, .app _ _ => .isFalse nofun
  | .literal _, .symbol _ => .isFalse nofun
  | .literal _, .app _ _ => .isFalse nofun
  | .app _ _, .symbol _ => .isFalse nofun
  | .app _ _, .literal _ => .isFalse nofun

/-- `equals`, for lists of expressions. -/
def decEqAll : (ts ts' : List (Term 64)) → Decidable (ts = ts')
  | [], [] => .isTrue rfl
  | t :: ts, t' :: ts' =>
      have := decEq t t'
      have := decEqAll ts ts'
      decidable_of_iff (t = t' ∧ ts = ts') (by simp)
  | [], _ :: _ => .isFalse nofun
  | _ :: _, [] => .isFalse nofun

end

instance : DecidableEq (Term 64) := decEq

end TermEquality

open TermEquality

/-- The production builds a conditional of its last two arguments: it is an `ite`, or a defined
function whose definition is an `ite` with the last two parameters as branches. -/
def OpDispatcher.isBranchCombinator (d : OpDispatcher) (y : Rule) : Bool :=
  match d.funcs y.termSyb with
  | some func =>
      match func.definition, func.args with
      | .app "ite" [_, .symbol leftBranch, .symbol rightBranch], [_, arg1, arg2] =>
          leftBranch = arg1 ∧ rightBranch = arg2
      | _, _ => false
  | none => y.termSyb = "ite" ∧ y.args.length = 3

/-- `PBEProblem`.  The nonterminals come in the order of a hash map, and evaluations admit `depth`
nested calls of defined functions. -/
structure PBEProblem where
  opDis : OpDispatcher
  depth : ℕ
  requestArgs : List String
  grammar : Grammar
  start : String
  nonterminals : List String
  nonterminals_perm : nonterminals.Perm grammar.keys
  getSybExpr : String → Except JavaFault (Term 64)
  input : List (List (BitVec 64))
  output : List String
  length_eq : input.length = output.length
  branchCombinator : Rule
  branchCombinator_eq :
    ((grammar.rules start).filter fun y => y.args ≠ [] ∧ opDis.isBranchCombinator y).head?
      = some branchCombinator

/-- The order in which the elements of a hash set or a hash map come. -/
structure HashOrder where
  arrange : {α : Type} → List α → List α
  perm : ∀ {α : Type} (l : List α), (arrange l).Perm l

/-- `PBEEnumSize` -/
structure PBEEnumSize extends PBEProblem, HashOrder

namespace PBEEnumSize

/-- The outputs of an expression on the selected examples; some may be null. -/
abbrev Outputs := List (Option (BitVec 64))

/-- `Map::put` -/
def put {κ α : Type} [DecidableEq κ] (m : List (κ × α)) (k : κ) (a : α) : List (κ × α) :=
  if k ∈ m.map Prod.fst then m.map fun e => if e.1 = k then (k, a) else e else m ++ [(k, a)]

/-- The fields that change during an enumeration, and the outputs that are new for a nonterminal.
A class and its conditions are one entry, with the conditions as its path. -/
structure State where
  exprStorage : String → List (Outputs × Term 64)
  outputStorage : BVEnum.Storage Outputs
  zeros : Outputs
  definition : Option (Term 64)
  covered : List (ℕ × List ℕ)
  coveredExpr : List (Term 64)
  coveredExample : List ℕ
  outsider : List ℕ
  uncoveredEquivClasses : List (ℕ × Part ℕ ℕ)
  ecCounter : ℕ
  coveredEquivClasses : List (Part ℕ ℕ)
  conditions : List (Term 64)
  coverFound : Bool
  currNew : List Outputs

/-- How `generate` is left: by an exception, or by a `return`. -/
inductive Exit where
  | threw (fault : JavaFault)
  | returned (st : State)

/-- An exception leaves the run. -/
def lift {α : Type} (x : Except JavaFault α) : Except Exit α := x.mapError .threw

/-- The operators that do not depend on the order of their arguments, `symmetricOp`.  They are
the operators of `noopOn0Op` too. -/
def symmetricOp : List String := ["bvand", "bvor", "bvadd", "bvxor"]

/-- `Long.toUnsignedString` -/
def toUnsignedString (i : BitVec 64) : String := toString i.toNat

/-- `isBVNOT` -/
def isBVNOT : Term 64 → Bool
  | .app "bvnot" _ => true
  | _ => false

mutual

/-- `containsVar` -/
def containsVar (vars : List String) : Term 64 → Bool
  | .symbol s => s ∈ vars
  | .literal _ => false
  | .app f ts => if ts.isEmpty then f ∈ vars else anyContainsVar vars ts

/-- The loop of `containsVar`. -/
def anyContainsVar (vars : List String) : List (Term 64) → Bool
  | [] => false
  | t :: ts => containsVar vars t || anyContainsVar vars ts

end

/-- `transpose`: the rows of a list of columns, with null for what is not there. -/
def transpose (comb : List Outputs) : List (List (Option (BitVec 64))) :=
  (List.range (comb.headD []).length).map fun j => comb.map fun column => (column[j]?).join

/-- `genPrmtHelper`, for the places that are left and the entry before them. -/
def genPrmtHelper (symmetric : Bool) : ℕ → ℕ → Option ℕ → List (List ℕ)
  | 0, budget, _ => if budget = 0 then [[]] else []
  | places + 1, budget, previous =>
      if budget = 0 then []
      else if symmetric && previous.any fun i => budget < i then []
      else
        (List.range' 1 budget).flatMap fun i =>
          (genPrmtHelper symmetric places (budget - i) (some i)).map fun prmt => i :: prmt

/-- `genPrmt` -/
def genPrmt (budget length : ℕ) (rule : Rule) : List (List ℕ) :=
  genPrmtHelper (rule.termSyb ∈ symmetricOp) length budget none

variable (p : PBEEnumSize)

/-- `pbeDispatch`, as it is used here. -/
def pbeDispatch (name : String) (args : List (Option (BitVec 64))) :
    Except JavaFault (Option (BitVec 64)) :=
  p.opDis.pbeDispatch p.depth name args false

/-- The rules of a nonterminal that are neither terminals nor conditionals, `ops`. -/
def ops (nt : String) : List Rule :=
  (p.grammar.rules nt).filter fun y => y.args ≠ [] ∧ p.opDis.isBranchCombinator y = false

/-- The rules of a nonterminal that are single symbols. -/
def terminals (nt : String) : List Rule := (p.grammar.rules nt).filter fun r => r.args = []

/-- The name that a terminal gives to `varNames`. -/
def varName (r : Rule) : Option String :=
  match p.getSybExpr r.termSyb with
  | .ok (.symbol s) => some s
  | _ => none

/-- `varNames`: the variables that appear in the grammar. -/
def varNames : List String :=
  p.grammar.keys.flatMap fun symbol => (p.terminals symbol).filterMap p.varName

/-- The output of a terminal: a variable that is no argument has none. -/
def terminalOutput (args : List (BitVec 64)) (terminal : Term 64) :
    Except JavaFault (Option (BitVec 64)) :=
  if p.requestArgs.length ≠ args.length then .error .argumentCount
  else
    match terminal with
    | .literal x => .ok (some x)
    | .symbol s => OpDispatcher.constant p.requestArgs args s
    | .app _ _ => .error .constError

/-! ### One enumeration -/

section Enumeration

variable (selected : List (Fin p.input.length))

def sampleInput : List (List (BitVec 64)) := selected.map p.input.get

def outputOf (i : Fin p.input.length) : String := p.output.get (i.cast p.length_eq)

def sampleOutput : List String := selected.map p.outputOf

/-- The example needs an output: it is an outsider, or no expression is right on it yet. -/
def needed (st : State) (i : ℕ) : Bool := i ∈ st.outsider ∨ i ∉ st.coveredExample

/-- The loop of `compute` for a constant, which returns the first result. -/
def firstResult {α β : Type} (f : α → Except JavaFault (Option β)) (ret : Option β) (a : α) :
    Except JavaFault (Option β) :=
  match ret with
  | some ret => .ok (some ret)
  | none => f a

/-- `compute`, for the value of `containsVar`. -/
def compute (st : State) (name : String) (comb : List Outputs)
    (hasVar enablePartialCompute : Bool) : Except JavaFault (Option Outputs) := do
  let args := transpose comb
  if hasVar then
    let outputs ← args.zipIdx.mapM fun row =>
      if needed st row.2 || !enablePartialCompute then p.pbeDispatch name row.1 else .ok none
    .ok (some outputs)
  else
    let ret ← args.foldlM (firstResult (p.pbeDispatch name)) none
    .ok (ret.map fun ret => List.replicate args.length (some ret))

/-- `initStorage` of one symbol: the outputs of its terminals. -/
def terminalStorage (symbol : String) : Except JavaFault (List (Outputs × Term 64)) :=
  (p.terminals symbol).foldlM (fun exprStrg rule => do
    let terminal ← p.getSybExpr rule.termSyb
    let outputs ← (p.sampleInput selected).mapM fun args => p.terminalOutput args terminal
    .ok (if outputs ∈ exprStrg.map Prod.fst then exprStrg else exprStrg ++ [(outputs, terminal)]))
    []

/-- `initStorage` after `clearStorage`.  The zeros are as many as there were examples before, and
the classes are counted on. -/
def initStorage (numSample ecCounter : ℕ) : Except JavaFault State := do
  let outsider := List.range selected.length
  let st : State :=
    { exprStorage := fun _ => []
      outputStorage := fun _ => none
      zeros := List.replicate numSample (some 0)
      definition := none
      covered := []
      coveredExpr := []
      coveredExample := []
      outsider := outsider
      uncoveredEquivClasses := [(ecCounter, ⟨outsider, []⟩)]
      ecCounter := ecCounter + 1
      coveredEquivClasses := []
      conditions := []
      coverFound := false
      currNew := [] }
  p.grammar.keys.foldlM (fun st symbol => do
    let exprStrg ← p.terminalStorage selected symbol
    .ok { st with
      exprStorage := Function.update st.exprStorage symbol exprStrg
      outputStorage := Function.update st.outputStorage symbol
        (some fun size => if size = 1 then some (exprStrg.map Prod.fst) else none) }) st

/-- The output is the one that the example expects. -/
def isExpected (outputs : Outputs) (i : ℕ) : Bool :=
  match (outputs[i]?).join with
  | none => false
  | some output => (p.sampleOutput selected)[i]? = some (toUnsignedString output)

/-- `verifyOutput` -/
def verifyOutput (outputs : Outputs) (expr : Term 64) (st : State) : Bool × State :=
  let coveredOutputs := (List.range outputs.length).filter (p.isExpected selected outputs)
  let result : Bool := coveredOutputs.length = outputs.length
  let st := { st with
    coveredExample :=
      st.coveredExample ++ coveredOutputs.filter fun i => i ∉ st.coveredExample }
  if coveredOutputs = [] then (result, st)
  else if st.covered.any fun e => coveredOutputs ⊆ e.2 then (result, st)
  else
    let coveredExpr := st.coveredExpr ++ [expr]
    (result, { st with
      covered := put (st.covered.filter fun e => ¬ e.2 ⊆ coveredOutputs)
        (coveredExpr.idxOf expr) coveredOutputs
      coveredExpr := coveredExpr })

/-- `updateCoveredECs`: the classes on which an expression is right are covered, and their
examples are no outsiders any more. -/
def updateCoveredECs (st : State) : State :=
  let isCovered : ℕ × Part ℕ ℕ → Bool := fun e => st.covered.any fun c => e.2.members ⊆ c.2
  let newlyCovered := (p.arrange st.uncoveredEquivClasses).filter isCovered
  { st with
    outsider := st.outsider.filter fun i => ∀ e ∈ newlyCovered, i ∉ e.2.members
    coveredEquivClasses := st.coveredEquivClasses ++ newlyCovered.map Prod.snd
    uncoveredEquivClasses := st.uncoveredEquivClasses.filter fun e => isCovered e = false }

/-- What a class is split into by a condition, and the counter after it.  The class keeps its index
for the examples where the condition is false, unless there are none. -/
def splitEC (trueOutputs : List ℕ) (condTrueIndex : ℕ) (acc : List (ℕ × Part ℕ ℕ) × ℕ)
    (ec : ℕ × Part ℕ ℕ) : List (ℕ × Part ℕ ℕ) × ℕ :=
  let newEC := ec.2.members.filter fun i => i ∈ trueOutputs
  let updatedEC := ec.2.members.filter fun i => i ∉ trueOutputs
  if newEC = [] then
    (acc.1 ++ [(ec.1, ⟨ec.2.members, ec.2.path ++ [condTrueIndex + 1]⟩)], acc.2)
  else if updatedEC = [] then
    (acc.1 ++ [(acc.2, ⟨newEC, ec.2.path ++ [condTrueIndex]⟩)], acc.2 + 1)
  else
    (acc.1 ++ [(acc.2, ⟨newEC, ec.2.path ++ [condTrueIndex]⟩),
      (ec.1, ⟨updatedEC, ec.2.path ++ [condTrueIndex + 1]⟩)], acc.2 + 1)

/-- `updateECs`.  A null output of an outsider is an exception. -/
def updateECs (outputs : Outputs) (cond : Term 64) (st : State) : Except JavaFault State :=
  if st.outsider.any fun i => (outputs[i]?).join = none then .error .nullPointer
  else
    let trueOutputs := st.outsider.filter fun i => (outputs[i]?).join = some 1
    if trueOutputs.length = 0 ∨ trueOutputs.length = st.outsider.length then .ok st
    else if st.uncoveredEquivClasses.any fun ec => ec.2.members = trueOutputs then .ok st
    else
      let split := (p.arrange st.uncoveredEquivClasses).foldl
        (splitEC trueOutputs st.conditions.length) ([], st.ecCounter)
      .ok (p.updateCoveredECs { st with
        uncoveredEquivClasses := split.1
        ecCounter := split.2
        conditions := st.conditions ++ [cond, cond] })

/-- The conditional on the outputs of a condition, with one and zero for its branches. -/
def branchOutputs (st : State) (outputs : Outputs) (enablePartialCompute : Bool) :
    Except JavaFault (Option Outputs) :=
  p.compute st p.branchCombinator.termSyb
    [outputs, outputs.map fun _ => some 1, outputs.map fun _ => some 0] true enablePartialCompute

/-- The end of `genOutputCombsHelper` for an expression with new outputs: it is stored, and the
classes are split by it if it can be a condition. -/
def store (nt : String) (hasVar : Bool) (outputs : Outputs) (newExpr : Term 64) (st : State) :
    Except JavaFault State := do
  let st := { st with
    currNew := st.currNew ++ [outputs]
    exprStorage := Function.update st.exprStorage nt (st.exprStorage nt ++ [(outputs, newExpr)]) }
  if hasVar ∧ p.branchCombinator.args.head? = some nt then
    match ← p.branchOutputs st outputs true with
    | none => .ok st
    | some iteoutputs => p.updateECs iteoutputs newExpr st
  else .ok st

/-- `genOutputCombsHelper` for an expression whose outputs have been computed. -/
def consider (nt : String) (hasVar : Bool) (outputs : Outputs) (newExpr : Term 64) (st : State) :
    Except JavaFault State :=
  if outputs ∈ (st.exprStorage nt).map Prod.fst then .ok st
  else if st.coveredExample.length ≠ selected.length ∧ nt = p.start then
    match p.verifyOutput selected outputs newExpr st with
    | (true, st) => .ok { st with definition := some newExpr }
    | (false, st) => p.store nt hasVar outputs newExpr st
  else p.store nt hasVar outputs newExpr st

/-- `genOutputCombsHelper` for a combination of arguments.  A division by zero gives no
expression, and a list of outputs that is null is an exception when it is used. -/
def combine (rule : Rule) (nt : String) (comb : List Outputs) (operands : List (Term 64))
    (st : State) : Except JavaFault State := do
  let newExpr ← p.opDis.dispatch rule.termSyb operands true true
  let hasVar := containsVar p.varNames newExpr
  match p.compute st rule.termSyb comb hasVar true with
  | .error .arithmetic => .ok st
  | .error fault => .error fault
  | .ok none => .error .nullPointer
  | .ok (some outputs) => p.consider selected nt hasVar outputs newExpr st

/-- The expression of a list of outputs. -/
def exprOf (st : State) (nt : String) (input : Outputs) : Except JavaFault (Term 64) :=
  match (st.exprStorage nt).lookup input with
  | some e => .ok e
  | none => .error .nullPointer

/-- `genOutputCombsHelper` for the places that are left: their sizes and nonterminals. -/
def genOutputCombsHelper (rule : Rule) (nt : String) :
    List (ℕ × String) → Bool → List Outputs → List (Term 64) → List Outputs → State →
      Except JavaFault State
  | [], _, comb, subexprs, _, st =>
      if st.outsider = [] then .ok st else p.combine selected rule nt comb subexprs st
  | (size, symbol) :: places, first, comb, subexprs, avoidSymm, st =>
      if st.outsider = [] then .ok st
      else do
        let inputs ← BVEnum.exprsOf st.outputStorage symbol size
        let symm : Bool := rule.termSyb ∈ symmetricOp
        let acc ← (p.arrange inputs).foldlM (fun acc input => do
          let expr ← exprOf acc.1 symbol input
          let skip : Bool := (symm ∧ input = acc.1.zeros) ∨ (symm ∧ input ∈ acc.2) ∨
            (rule.termSyb = "bvnot" ∧ isBVNOT expr)
          let st ← (if skip then .ok acc.1 else
            genOutputCombsHelper rule nt places false (comb ++ [input]) (subexprs ++ [expr])
              acc.2 acc.1)
          .ok (st, if symm ∧ first then acc.2 ++ [input] else acc.2)) (st, avoidSymm)
        .ok acc.1

/-- `genOutputCombs` -/
def genOutputCombs (prmt : List ℕ) (rule : Rule) (nt : String) (st : State) :
    Except JavaFault State :=
  p.genOutputCombsHelper selected rule nt (prmt.zip rule.args) true [] [] [] st

/-- The body of the loop of `generate` over the sizes of the arguments. -/
def tryPrmt (nt : String) (rule : Rule) (st : State) (prmt : List ℕ) : Except Exit State := do
  let st ← lift (p.genOutputCombs selected prmt rule nt st)
  if st.definition.isSome then .error (.returned st)
  else if st.coveredExample.length = selected.length then
    let st := if st.coverFound then st else p.updateCoveredECs { st with coverFound := true }
    if st.outsider = [] then .error (.returned st) else .ok st
  else .ok st

/-- The body of the loop of `generate` over the operators. -/
def tryRule (iter : ℕ) (nt : String) (st : State) (rule : Rule) : Except Exit State :=
  if rule.termSyb = p.branchCombinator.termSyb then .ok st
  else (genPrmt (iter - 1) rule.args.length rule).foldlM (p.tryPrmt selected nt rule) st

/-- The body of the loop of `generate` over the nonterminals. -/
def tryNonTerminal (iter : ℕ) (st : State) (nt : String) : Except Exit State := do
  let st ← (p.ops nt).foldlM (p.tryRule selected iter nt) { st with currNew := [] }
  .ok { st with outputStorage := st.outputStorage.put nt iter st.currNew }

/-- The check of a terminal at the beginning of `generate`. -/
def tryTerminal (st : State) (out : Outputs × Term 64) : Except Exit State :=
  match p.verifyOutput selected out.1 out.2 st with
  | (true, st) => .error (.returned { st with definition := some out.2 })
  | (false, st) => .ok st

/-- `generate`, up to where a size has been completed. -/
def generate (numSample ecCounter : ℕ) : ℕ → Except Exit State
  | 0 => lift (p.initStorage selected numSample ecCounter)
  | 1 => do
      let st ← generate numSample ecCounter 0
      (p.arrange (st.exprStorage p.start)).foldlM (p.tryTerminal selected) st
  | iter + 2 => do
      let st ← generate numSample ecCounter (iter + 1)
      p.nonterminals.foldlM (p.tryNonTerminal selected (iter + 2)) st

end Enumeration

/-! ### The tree of conditionals -/

/-- `preprocessResult`: the expressions that are right on the covered classes, by the conditions
of the class. -/
def preprocessResult (st : State) : List (List ℕ × Term 64) :=
  st.coveredEquivClasses.foldl (fun ecConds2Expr ec =>
    (p.arrange st.covered).foldl (fun ecConds2Expr c =>
      match st.coveredExpr[c.1]? with
      | some expr => if ec.members ⊆ c.2 then put ecConds2Expr ec.path expr else ecConds2Expr
      | none => ecConds2Expr) ecConds2Expr) []

/-- `selectConds` -/
def selectConds (index : ℕ) (cond2expr : List (List ℕ × Term 64)) : List (List ℕ × Term 64) :=
  cond2expr.filter fun e => index ∈ e.1

/-- The conditional of a condition, with at most one branch null. -/
def branch (cond : Term 64) (operand1 operand2 : Option (Term 64)) : Option (Option (Term 64)) :=
  match operand1, operand2 with
  | none, none => some none
  | none, some e => some (some e)
  | some e, none => some (some e)
  | some e, some e' =>
      if e = e' then some (some e)
      else
        match p.opDis.dispatch p.branchCombinator.termSyb [cond, e, e'] true true with
        | .ok result => some (some result)
        | .error _ => none

/-- `construct` from the condition with this number on, with at most `n` nested calls and
iterations; there is no result if they are not enough, or if there is an exception. -/
def construct (conditions : List (Term 64)) :
    ℕ → ℕ → List (List ℕ × Term 64) → Option (Option (Term 64))
  | 0, _, _ => none
  | _ + 1, _, [] => some none
  | _ + 1, _, [e] => some (some e.2)
  | n + 1, listIndex, cond2expr =>
      let trueCond2expr := selectConds (listIndex * 2) cond2expr
      let falseCond2expr := selectConds (listIndex * 2 + 1) cond2expr
      if trueCond2expr = [] ∧ falseCond2expr = [] then
        construct conditions n (listIndex + 1) cond2expr
      else do
        let cond ← conditions[listIndex * 2]?
        let operand1 ← construct conditions n (listIndex + 1) trueCond2expr
        let operand2 ← construct conditions n (listIndex + 1) falseCond2expr
        p.branch cond operand1 operand2

/-- `generateResult` -/
def generateResult (n : ℕ) (st : State) : Option (Term 64) := do
  let ecConds2Expr := p.preprocessResult st
  let cond ← st.conditions[0]?
  let operand1 ← (← construct p st.conditions n 1 (selectConds 0 ecConds2Expr))
  let operand2 ← (← construct p st.conditions n 1 (selectConds 1 ecConds2Expr))
  match p.opDis.dispatch p.branchCombinator.termSyb [cond, operand1, operand2] true true with
  | .ok result => some result
  | .error _ => none

/-- The result of an enumeration, for `run`.  The tree is not deeper than there are conditions. -/
def result (st : State) : Option (Term 64) :=
  match st.definition with
  | some definition => some definition
  | none => p.generateResult (st.conditions.length + 1) st

/-- A problem: one at one and the negation elsewhere, with a function `if0` for conditionals. -/
def negateUnlessOne : PBEEnumSize where
  opDis :=
    { requests := ["f"]
      funcs := fun name =>
        if name = "if0" then
          some ⟨["x", "y", "z"],
            .app "ite" [.app "=" [.symbol "x", .literal 1], .symbol "y", .symbol "z"]⟩
        else none }
  depth := 1
  requestArgs := ["x"]
  grammar := [("Start", [⟨"x", []⟩, ⟨"#x1", []⟩, ⟨"bvnot", ["Start"]⟩,
    ⟨"bvand", ["Start", "Start"]⟩, ⟨"if0", ["Start", "Start", "Start"]⟩])]
  start := "Start"
  nonterminals := ["Start"]
  nonterminals_perm := by decide
  getSybExpr s := if s = "x" then .ok (.symbol "x") else .ok (.literal 1)
  input := [[1], [2], [4]]
  output := ["1", "18446744073709551613", "18446744073709551611"]
  length_eq := rfl
  branchCombinator := ⟨"if0", ["Start", "Start", "Start"]⟩
  branchCombinator_eq := by decide
  arrange := id
  perm := fun l => List.Perm.refl l

end PBEEnumSize

end DryadSynth
