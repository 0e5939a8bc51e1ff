import DryadSynth.Enumerate.Expr

/-!
# The front end

`OwnedExpr::from_sexpr`, the defined functions of a file (`parse/deffun.rs`), the grammar
(`parse/cfg.rs`) and the function to synthesize (`parse/problem.rs`).
-/

namespace DryadSynth

/-! ### `from_sexpr` -/

/-- `smt_name_of!` for the operators of arity one. -/
def UnOp.smtName : UnOp → String
  | .not => "bvnot"
  | .neg => "bvneg"
  | .fop1 i => "bvfop1_" ++ toString i.val

/-- `smt_name_of!` for the operators of arity two. -/
def BinOp.smtName : BinOp → String
  | .add => "bvadd"
  | .xor => "bvxor"
  | .and => "bvand"
  | .or => "bvor"
  | .mul => "bvmul"
  | .sub => "bvsub"
  | .fop2 i => "bvfop2_" ++ toString i.val
  | .lshr => "bvlshr"
  | .ashr => "bvashr"
  | .shl => "bvshl"
  | .udiv => "bvudiv"
  | .urem => "bvurem"
  | .sdiv => "bvsdiv"
  | .srem => "bvsrem"

/-- The operators of arity one, in the order of `all_ops!`. -/
def UnOp.all : List UnOp :=
  .not :: .neg :: (List.finRange 8).map .fop1

/-- The operators of arity two, in the order of `all_ops!`. -/
def BinOp.all : List BinOp :=
  [.add, .xor, .and, .or, .mul, .sub] ++ (List.finRange 8).map .fop2
    ++ [.lshr, .ashr, .shl, .udiv, .urem, .sdiv, .srem]

namespace OwnedExpr

/-- The calls of `from_sexpr`, from the results of reading the elements of the list. -/
def fromCall (sexpr : SExpr) (rs : List (Parse OwnedExpr)) : Parse OwnedExpr := do
  match ← sexpr.call, rs with
  | some (n, _), [_, r₁] =>
      match UnOp.all.find? fun o => o.smtName = n with
      | some o => do
          let e₁ ← r₁
          .ok (.un o e₁)
      | none => newCustomErrorSpan "Unrecongnized Expression" sexpr
  | some (n, _), [_, r₁, r₂] =>
      match BinOp.all.find? fun o => o.smtName = n with
      | some o => do
          let e₁ ← r₁
          let e₂ ← r₂
          .ok (.bin o e₁ e₂)
      | none =>
          -- an equality is nonzero exactly where the two sides differ
          if n = "=" then do
            let e₁ ← r₁
            let e₂ ← r₂
            .ok (.bin .xor e₁ e₂)
          else newCustomErrorSpan "Unrecongnized Expression" sexpr
  | some (n, _), [_, r₁, r₂, r₃] =>
      if n = "ite" then do
        let e₁ ← r₁
        let e₂ ← r₂
        let e₃ ← r₃
        .ok (.ite e₁ e₂ e₃)
      else newCustomErrorSpan "Unrecongnized Expression" sexpr
  | _, _ => newCustomErrorSpan "Unrecongnized Expression" sexpr

mutual

/-- `OwnedExpr::from_sexpr`, in the environment of the argument names. -/
def fromSExpr (env : List String) : SExpr → Parse OwnedExpr
  | .const c => do
      let a ← u64Constant c (.const c)
      .ok (.const a)
  | .id v =>
      match env.findIdx? fun x => x = v with
      | some i => .ok (.var i)
      | none => newCustomErrorSpan "Unrecongnized Variable" (.id v)
  | .list l => fromCall (.list l) (fromSExprs env l)

/-- The results of `from_sexpr` on the elements of a list. -/
def fromSExprs (env : List String) : List SExpr → List (Parse OwnedExpr)
  | [] => []
  | s :: ss => fromSExpr env s :: fromSExprs env ss

end

end OwnedExpr

/-! ### Defined functions -/

/-- The names of a list of `(<argname> <type>)`. -/
def argNames (msg : String) : List SExpr → Parse (List String)
  | [] => .ok []
  | x :: xs => do
      match ← x.call with
      | some (n, _) =>
          let ns ← argNames msg xs
          .ok (n :: ns)
      | none => newCustomErrorSpan msg x

namespace Environ

/-- Adding a function of `nargs` arguments. -/
def push (env : Environ) (nargs : Fin 3) (d : DefineFun) : Environ :=
  { env with inner := Function.update env.inner nargs (env.inner nargs ++ [d]) }

/-- The part of `Environ::parse` for one command of the file. -/
def parseCommand (env : Environ) (e : SExpr) : Parse Environ := do
  match ← e.call with
  | some ("define-fun", [.id name, args, _, expr]) =>
      match args.elements with
      | some l =>
          if name = "if0" ∨ name = "im" then .ok env
          else do
            let names ← argNames "DefineFun: Expecting (<argname> <type>)." l
            if h : names.length < 3 then do
              let body ← OwnedExpr.fromSExpr names expr
              .ok (env.push ⟨names.length, h⟩ ⟨name, names, body⟩)
            else newCustomErrorSpan "DefineFun: Number of args must be <= 2" (.id name)
      | none => newCustomErrorSpan "DefineFun: Expecting Argument list" args
  | _ => .ok env

/-- `Environ::parse`. -/
def parse (env : Environ) : SExpr → Parse Environ
  | .list l => l.foldlM parseCommand env
  | .id _ => .error .panic
  | .const _ => .error .panic

end Environ

/-! ### Grammars -/

/-- `NonTerminal`: a non-terminal and its productions. -/
structure NonTerminal where
  name : String
  rules : List SExpr

/-- `Cfg`: the non-terminals of a grammar, the start symbol first. -/
abbrev Cfg : Type := List NonTerminal

/-- `NonTerminal::parse`. -/
def NonTerminal.parse (sexpr : SExpr) : Parse NonTerminal := do
  match ← sexpr.call with
  | some (name, [_, options]) =>
      match options.elements with
      | some l => .ok ⟨name, l⟩
      | none =>
          newCustomErrorSpan "Expecting list of expression for a non-terminal." sexpr
  | _ => newCustomErrorSpan "Expecting (<nonterminal name> <type> <expression-list>)" sexpr

/-- `Cfg::parse`. -/
def Cfg.parse (sexpr : SExpr) : Parse Cfg :=
  match sexpr.elements with
  | some l => l.mapM NonTerminal.parse
  | none => newCustomErrorSpan "Expecting nonterminals list." sexpr

/-! ### The function to synthesize -/

/-- `SynthProblem`: the name and the arguments of the function, its grammar, and the
expressions suggested for it. -/
structure SynthProblem where
  name : String
  args : List String
  cfg : Cfg
  span : SExpr
  chatgptExprs : List OwnedExpr
  bits : ℕ

/-- `str::parse::<usize>`: decimal digits, after an optional plus sign. -/
def parseUsize (s : String) : Option ℕ :=
  let cs := if s.toList.head? = some '+' then s.toList.tail else s.toList
  if cs ≠ [] ∧ (cs.all fun c => (digit 10 c).isSome) ∧ ofDigits 10 cs < 2 ^ 64 then
    some (ofDigits 10 cs)
  else none

namespace SynthProblem

/-- The width that a return type declares. -/
def parseBits (ret : SExpr) : Parse ℕ :=
  match ret.elements with
  | some [_, _, .id v] | some [_, .id v] =>
      match parseUsize v with
      | some bits => .ok bits
      | none => newCustomErrorSpan "Unknown return value" (.id v)
  | _ => newCustomErrorSpan "Unknown return value" ret

/-- The part of `SynthProblem::parse` for a `synth-fun` command. -/
def parseSynthFun (name : String) (args ret cfg : SExpr) : Parse SynthProblem := do
  let bits ← parseBits ret
  match args.elements with
  | some l => do
      let names ← argNames "SynthProblem: Expecting (<argname> <type>)." l
      let cfg ← Cfg.parse cfg
      .ok ⟨name, names, cfg, .id name, [], bits⟩
  | none => newCustomErrorSpan "SynthProblem: Expecting Argument list" args

/-- The loop of `SynthProblem::parse`: the first `synth-fun` command decides. -/
def parseCommands (sexpr : SExpr) : List SExpr → Parse SynthProblem
  | [] => newCustomErrorSpan "SynthProblem: Expecting a `synth-fun`." sexpr
  | e :: l => do
      match ← e.call with
      | some ("synth-fun", [.id name, args, ret, _, cfg]) => parseSynthFun name args ret cfg
      | some ("synth-fun", [.id name, args, ret, cfg]) => parseSynthFun name args ret cfg
      | _ => parseCommands sexpr l

/-- `SynthProblem::parse`. -/
def parse (sexpr : SExpr) : Parse SynthProblem :=
  match sexpr.elements with
  | some l => parseCommands sexpr l
  | none => .error .panic

/-- `SynthProblem::arg`: the position of an argument name. -/
def arg (problem : SynthProblem) (name : String) : Option ℕ :=
  problem.args.findIdx? fun x => x = name

end SynthProblem

end DryadSynth
