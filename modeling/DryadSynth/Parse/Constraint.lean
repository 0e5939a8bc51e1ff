import DryadSynth.Parse.Pbe

/-!
# The constraints of a file

`PbeConstraint::parse`, which reads the input-output examples of a file, and
`RefImplConstraint`, the function it defines as a reference.
-/

namespace DryadSynth

namespace SExpr

mutual

/-- `Display` of an s-expression. -/
def display : SExpr → String
  | .id i => i
  | .const i => i
  | .list v => "(" ++ " ".intercalate (displayAll v) ++ ")"

/-- `Display` of the elements of a list. -/
def displayAll : List SExpr → List String
  | [] => []
  | s :: ss => s.display :: displayAll ss

end

end SExpr

/-! ### Input-output examples -/

namespace PbeConstraint

/-- An input of an example; the error is located at the output. -/
def parseInput (r arg : SExpr) : Parse (BitVec 64) :=
  match arg with
  | .const s => u64Constant s arg
  | .id _ | .list _ =>
      newCustomErrorSpan ("PBEConstraint: Expecting Constant for input. " ++ arg.display) r

/-- The output of an example. -/
def parseOutput (r : SExpr) : Parse (BitVec 64) :=
  match r with
  | .const s => u64Constant s r
  | .id _ | .list _ => newCustomErrorSpan "PBEConstraint: Expecting Constant for output." r

/-- The part of `PbeConstraint::parse` for one command of the file.  A constraint on another
function, or with another number of arguments, is passed over. -/
def parseCommand (func : String) (arity : ℕ) (c : PbeConstraint) (e : SExpr) :
    Parse PbeConstraint := do
  match ← e.call with
  | some ("constraint", [value]) =>
      match ← value.call with
      | some ("=", [l, r]) =>
          match ← l.call with
          | some (name, args) =>
              if name = func ∧ args.length = arity then do
                let input ← args.mapM (parseInput r)
                let output ← parseOutput r
                .ok (c.addExample input output)
              else .ok c
          | none => newCustomErrorSpan "PBEConstraint: Expecting Input Examples." l
      | _ =>
          newCustomErrorSpan
            ("PBEConstraint: Expecting Input-Output Examples "
              ++ "(= (<func> <arg1> ...) <output>).") value
  | _ => .ok c

/-- `PbeConstraint::parse`. -/
def parse (func : String) (arity : ℕ) : SExpr → Parse PbeConstraint
  | .list l => l.foldlM (parseCommand func arity) (new arity)
  | .id _ => .error .panic
  | .const _ => .error .panic

/-- An iteration of `PbeConstraint::random_example`, which draws arguments until the
expression has a value on them. -/
def randomExample (env : Environ) (expr : OwnedExpr) (c : PbeConstraint)
    (draw : List (BitVec 64)) : Except Fault PbeConstraint :=
  match expr.eval env draw with
  | .ok a => .ok (c.addExample draw a)
  | .error .divideByZero => .ok c
  | .error .panic => .error .panic
  | .error .stackOverflow => .error .stackOverflow

end PbeConstraint

/-! ### The reference implementation -/

/-- `RefImplConstraint`. -/
structure RefImplConstraint where
  args : ℕ
  refImpl : OwnedExpr

namespace RefImplConstraint

/-- The name of an argument; the error is located at the list of arguments. -/
def parseArg (args : SExpr) : SExpr → Parse String
  | .list [.id x, _] => .ok x
  | _ => newCustomErrorSpan "Expecting list of (id type) in arg" args

/-- The loop of `RefImplConstraint::parse`: the first `define-fun` command decides. -/
def parseCommands : List SExpr → Parse (Option RefImplConstraint)
  | [] => .ok none
  | e :: es => do
      match ← e.call with
      | some ("define-fun", [_, args, _, body]) =>
          match args.elements with
          | some l => do
              let vargs ← l.mapM (parseArg args)
              let e ← OwnedExpr.fromSExpr vargs body
              .ok (some ⟨vargs.length, e⟩)
          | none => newCustomErrorSpan "Expecting list of (id type) in arg" args
      | _ => parseCommands es

/-- `RefImplConstraint::parse`. -/
def parse : SExpr → Parse (Option RefImplConstraint)
  | .list l => parseCommands l
  | .id _ => .error .panic
  | .const _ => .error .panic

end RefImplConstraint

end DryadSynth
