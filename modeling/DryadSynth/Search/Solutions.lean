import DryadSynth.Library.Machine
import DryadSynth.Parse.Pbe
import DryadSynth.TreeLearning.Tree

/-!
# Solutions and the search for them

`Solutions` of `solutions.rs` and `SearchConfig::search`.  The enumerations of the expressions
and of the conditions run on two threads that share a buffer of conditions.  What they
hand over comes in any order: a run is any list of candidates for either of them.
-/

namespace DryadSynth

/-! ### Solutions -/

/-- `CondBuffer`. -/
abbrev CondBuffer : Type := List (OwnedExpr × Bits)

/-- `Solutions`.  The buffer that `check_tree_learning` and `cond_buffer` refer to is a
parameter of the functions below; what is left of them is the limit and a flag. -/
structure Solutions where
  unsolved : List ℕ
  solved : List (OwnedExpr × List ℕ)
  pbecstr : PbeConstraint
  checkDups : Bool
  checkTreeLearning : Option ℕ
  coverLimit : ℕ
  additionalCheck : PbeConstraint
  condBuffer : Bool

namespace Solutions

/-- The difference of two sets. -/
def difference (a b : List ℕ) : List ℕ := a.filter fun i => i ∉ b

/-- `Solutions::new`. -/
def new (cstr : PbeConstraint) (checkDups : Bool) : Solutions where
  unsolved := List.range cstr.len
  solved := []
  pbecstr := cstr
  checkDups := checkDups
  checkTreeLearning := none
  coverLimit := 1
  additionalCheck := PbeConstraint.new cstr.argsCount
  condBuffer := false

/-- `Solutions::set_cover_limit`. -/
def setCoverLimit (s : Solutions) (value : ℕ) : Solutions :=
  { s with coverLimit := if value < s.pbecstr.len then value else s.pbecstr.len }

/-- `Solutions::to_bits`. -/
def toBits (s : Solutions) : List (OwnedExpr × Bits) :=
  s.solved.map fun p => (p.1, Bits.fromBitIter p.2 s.pbecstr.len)

section Learning

variable (guide : Guide) (s : Solutions) (conds : CondBuffer)

/-- `Solutions::tree_learning`. -/
def treeLearning : Except Fault Bool :=
  match s.checkTreeLearning with
  | some limit =>
      if s.unsolved.length > 0 then .ok false
      else if conds.length = 0 then .ok false
      else do
        let tl ← SubProblem.treeLearning guide conds s.toBits limit s.pbecstr.len
        .ok tl.2
  | none => .ok true

/-- `Solutions::get_tree`. -/
def getTree : Except Fault OwnedExpr :=
  match s.checkTreeLearning with
  | some limit => do
      let tl ← SubProblem.treeLearning guide conds s.toBits limit s.pbecstr.len
      tl.1.bvexpr conds s.toBits
  | none => .error .panic

end Learning

section AddSolution

variable (env : Environ) (guide : Guide) (s : Solutions) (conds : CondBuffer) (sol : Expr)

/-- The examples of `additional_check` are not all solved. -/
def failsAdditionalCheck : Except Fault Bool :=
  if s.additionalCheck.len > 0 then do
    let l ← s.additionalCheck.test env sol
    .ok (decide (l.length < s.additionalCheck.len))
  else .ok false

/-- A solution is not new: it solves no more than an earlier one, or, where duplicates are not
checked, it solves everything. -/
def rejects (set : List ℕ) : Bool :=
  if s.checkDups then s.solved.any fun p => (difference set p.2).length = 0
  else set.length = s.pbecstr.len

/-- The examples that remain. -/
def markSolved (set : List ℕ) : Solutions :=
  if s.checkDups then { s with unsolved := difference s.unsolved set } else s

/-- The solutions that the buffer does not have yet are appended to it. -/
def flush : CondBuffer :=
  if s.condBuffer then conds ++ s.toBits.drop conds.length else conds

/-- A solution is recorded. -/
def push (set : List ℕ) : Solutions :=
  { s with solved := s.solved ++ [(sol.convert, set)] }

/-- `Solutions::add_solution`. -/
def addSolution : Except Fault (Solutions × CondBuffer × Bool) := do
  let set ← s.pbecstr.test env sol
  if set.length ≥ s.coverLimit ∨ set.length ≥ s.unsolved.length then
    if ← s.failsAdditionalCheck env sol then .ok (s, conds, false)
    else if s.rejects set then .ok (s, conds, false)
    else
      let s := s.markSolved set
      let conds := s.flush conds
      let s := s.push sol set
      if set.length = s.pbecstr.len then .ok (s, conds, true)
      else do
        let b ← s.treeLearning guide conds
        .ok (s, conds, b)
  else .ok (s, conds, false)

/-- `Solutions::add_solution2`. -/
def addSolution2 : Except Fault (Solutions × CondBuffer × Bool) := do
  let set ← s.pbecstr.test env sol
  if set.length ≥ s.coverLimit then
    if s.rejects set then .ok (s, conds, false)
    else
      let s := (s.markSolved set).push sol set
      let b ← s.treeLearning guide conds
      .ok (s, conds, b)
  else .ok (s, conds, false)

/-- `Solutions::add_solution_unchecked`. -/
def addSolutionUnchecked : Except Fault (Solutions × Bool) := do
  let set ← s.pbecstr.test env sol
  if set.length ≥ s.coverLimit then
    .ok (push { s with unsolved := difference s.unsolved set } sol set, true)
  else .ok (s, false)

end AddSolution

end Solutions

/-! ### The search -/

/-- The fields of `SearchConfig` that decide how `search` combines solutions. -/
structure SearchConfig where
  iteTreeLimit : ℕ
  limitedIte : Bool

/-- The state of `search`: the solutions, those of the thread that searches conditions, and
the buffer between them. -/
structure SearchRun where
  exprs : Solutions
  conds : Solutions
  cond : CondBuffer

/-- What the two enumerations do to the state. -/
inductive SearchEvent where
  | addSolution (sol : Expr)
  | addSolution2 (sol : Expr)
  | addSolutionUnchecked (sol : Expr)
  | setCoverLimit (value : ℕ)
  | addCondition (sol : Expr)
  | setConditionCoverLimit (value : ℕ)

namespace SearchRun

section Search

variable (env : Environ) (guide : Guide)

/-- The execution of an event.  A panic in the thread of the conditions ends this thread
only. -/
def step (s : SearchRun) : SearchEvent → Except (Fault × SearchRun) SearchRun
  | .addSolution sol =>
      match s.exprs.addSolution env guide s.cond sol with
      | .ok (exprs, cond, _) => .ok { s with exprs, cond }
      | .error f => .error (f, s)
  | .addSolution2 sol =>
      match s.exprs.addSolution2 env guide s.cond sol with
      | .ok (exprs, cond, _) => .ok { s with exprs, cond }
      | .error f => .error (f, s)
  | .addSolutionUnchecked sol =>
      match s.exprs.addSolutionUnchecked env sol with
      | .ok (exprs, _) => .ok { s with exprs }
      | .error f => .error (f, s)
  | .setCoverLimit value => .ok { s with exprs := s.exprs.setCoverLimit value }
  | .addCondition sol =>
      match s.conds.addSolution env guide s.cond sol with
      | .ok (conds, cond, _) => .ok { s with conds, cond }
      | .error _ => .ok s
  | .setConditionCoverLimit value => .ok { s with conds := s.conds.setCoverLimit value }

/-- A number of events. -/
def run (s : SearchRun) (l : List SearchEvent) : Except Fault SearchRun :=
  match Machine.run (step env guide) s l with
  | .ok s => .ok s
  | .error (f, _) => .error f

end Search

/-- The state at the beginning of `search`. -/
def start (cfg : SearchConfig) (pbecstr additional : PbeConstraint) : SearchRun where
  exprs :=
    { Solutions.new pbecstr true with
      additionalCheck := additional
      checkTreeLearning := if cfg.limitedIte then some (min cfg.iteTreeLimit 7) else none }
  conds := { Solutions.new (pbecstr.setOutput 0) false with condBuffer := true }
  cond := []

/-- How far `search` has come: examples remain; the last solution solves all of them; or a
tree is asked for. -/
inductive Stage where
  | remaining
  | solution (e : OwnedExpr)
  | tree (s : SearchRun)

section Search

variable (env : Environ) (guide : Guide) (cfg : SearchConfig)
  (pbecstr additional : PbeConstraint)

/-- `search` without its last call of `get_tree`.  The events `before` are those of the
expression search, the conditions `between` come while no solution is searched, and the
events `improving` are those of the search for improvements. -/
def stage (before : List SearchEvent) (between : List Expr) (improving : List SearchEvent) :
    Except Fault Stage := do
  let s ← run env guide (start cfg pbecstr additional) before
  if s.exprs.unsolved.length > 0 then .ok .remaining
  else
    match s.exprs.solved.getLast? with
    | none => .error .panic
    | some (e, set) =>
        if set.length = pbecstr.len then .ok (.solution e)
        else do
          let s := { s with exprs.checkTreeLearning := some cfg.iteTreeLimit }
          let solved ← s.exprs.treeLearning guide s.cond
          let limited := cfg.limitedIte || cfg.iteTreeLimit == 1 || decide (pbecstr.len ≤ 1)
          let s ← run env guide s
            (if solved || limited then between.map .addCondition else improving)
          .ok (.tree s)

/-- `SearchConfig::search`. -/
def search (before : List SearchEvent) (between : List Expr) (improving : List SearchEvent) :
    Except Fault (Option OwnedExpr) := do
  match ← stage env guide cfg pbecstr additional before between improving with
  | .remaining => .ok none
  | .solution e => .ok (some e)
  | .tree s => do
      let e ← s.exprs.getTree guide s.cond
      .ok (some e)

end Search

end SearchRun

end DryadSynth
