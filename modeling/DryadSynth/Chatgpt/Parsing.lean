import DryadSynth.Enumerate.Expr

/-!
# The translator of Python answers

`Env::parse` of `chatgpt/parsing.rs` turns the syntax tree of a Python text into an expression.
A table maps the names that have been assigned or used to their expressions; a name that is
used first is the next argument.  The operators are found by comparing their text with
`symbol_of!`, the table of the infix symbols.
-/

namespace DryadSynth

/-! ### `symbol_of!` and `all_ops!` -/

/-- `symbol_of!` for the operators of arity one. -/
def UnOp.symbol : UnOp → String
  | .not => "!"
  | .neg => "~"
  | .fop1 i => "f1" ++ toString i.val

/-- `symbol_of!` for the operators of arity two. -/
def BinOp.symbol : BinOp → String
  | .add => "+"
  | .xor => "^"
  | .and => "&"
  | .or => "|"
  | .mul => "*"
  | .sub => "-"
  | .fop2 i => "f2" ++ toString i.val
  | .lshr => ">>"
  | .ashr => ">>>"
  | .shl => "<<"
  | .udiv => "/"
  | .urem => "%"
  | .sdiv => "s/"
  | .srem => "s%"

/-- `all_ops!(arity = 1)` -/
def UnOp.table : List UnOp := [.not, .neg] ++ (List.finRange 8).map .fop1

/-- `all_ops!(arity = 2)` -/
def BinOp.table : List BinOp :=
  [.add, .xor, .and, .or, .mul, .sub] ++ (List.finRange 8).map .fop2
    ++ [.lshr, .ashr, .shl, .udiv, .urem, .sdiv, .srem]

/-- The first operator of the table with this symbol. -/
def UnOp.ofSymbol (op : String) : Option UnOp := UnOp.table.find? fun o => o.symbol = op

def BinOp.ofSymbol (op : String) : Option BinOp := BinOp.table.find? fun o => o.symbol = op

/-- `u64_constant_python`: the number that the text starts with. -/
def u64ConstantPython (input : String) : Option (BitVec 64) :=
  ((radixConstant ['0', 'x'] 16 input.toList).or
    ((radixConstant ['0', 'b'] 2 input.toList).or
      (radixConstant [] 10 input.toList))).map Prod.snd

namespace Chatgpt

/-- The nodes of a syntax tree by their kind, with the children that the translator reads: the
fields of a node, or its named children.  An `error` has all of its children. -/
inductive Node where
  | module (children : List Node)
  | expressionStatement (children : List Node)
  | assignment (left : Node) (right : Option Node)
  | augmentedAssignment (left : Node) (operator : String) (right : Node)
  | identifier (text : String)
  | binaryOperator (left : Node) (operator : String) (right : Node)
  | parenthesizedExpression (children : List Node)
  | unaryOperator (operator : String) (argument : Node)
  | integer (text : String)
  | arrowBracket
  | error (children : List Node)
  | other (text : String)

namespace Node

def isError : Node → Bool
  | .error _ => true
  | _ => false

/-- `Env::text` of the left side of an assignment.  What is no name is not read back. -/
def text : Node → String
  | .identifier text => text
  | .integer text => text
  | .other text => text
  | _ => ""

end Node

/-- `Env`: the expressions of the names, and the number of arguments in use. -/
structure Env where
  maps : String → Option OwnedExpr
  var : ℕ

namespace Env

/-- The table of a new text. -/
def new : Env := ⟨fun _ => none, 0⟩

/-- `maps.insert` -/
def insert (env : Env) (name : String) (e : OwnedExpr) : Env :=
  ⟨Function.update env.maps name (some e), env.var⟩

/-- The next argument. -/
def argument (env : Env) : OwnedExpr × Env := (.var env.var, ⟨env.maps, env.var + 1⟩)

end Env

/-- A step of the translation: an error leaves the changes that have been made. -/
abbrev Parser (α : Type) := Env → Option α × Env

/-- The operator `?` on a result. -/
def Parser.bind {α β : Type} (p : Parser α) (f : α → Parser β) : Parser β := fun env =>
  match p env with
  | (some a, env') => f a env'
  | (none, env') => (none, env')

mutual

/-- `Env::parse` -/
def parse : Node → Parser OwnedExpr
  | .module children => parseEach children none
  | .expressionStatement children => parseLast children
  | .assignment _ none => fun env => (none, env)
  | .assignment left (some right) =>
      Parser.bind (parse right) fun value env => (some value, env.insert left.text value)
  | .augmentedAssignment left operator right =>
      let op := if operator = "//" then "/" else operator
      let op := String.ofList op.toList.dropLast
      match BinOp.ofSymbol op with
      | none => fun env => (none, env)
      | some o =>
          Parser.bind (parse left) fun e₁ => Parser.bind (parse right) fun e₂ env =>
            (some (.bin o e₁ e₂), env.insert left.text (.bin o e₁ e₂))
  | .identifier text => fun env =>
      match env.maps text with
      | none => (some env.argument.1, env.argument.2.insert text env.argument.1)
      | some v => (some v, env)
  | .binaryOperator left operator right =>
      let op := if operator = "//" then "/" else operator
      match BinOp.ofSymbol op with
      | none => fun env => (none, env)
      | some o =>
          Parser.bind (parse left) fun e₁ => Parser.bind (parse right) fun e₂ env =>
            (some (.bin o e₁ e₂), env)
  | .parenthesizedExpression children => parseFirst children
  | .unaryOperator operator argument =>
      match UnOp.ofSymbol operator with
      | none => fun env => (none, env)
      | some o => Parser.bind (parse argument) fun e₁ env => (some (.un o e₁), env)
  | .integer text => fun env => ((u64ConstantPython text).map .const, env)
  | .arrowBracket => fun env => (some env.argument.1, env.argument.2)
  | .error children => parseAny children
  | .other _ => fun env => (none, env)

/-- The result of the last child, after all children have been translated. -/
def parseEach : List Node → Option OwnedExpr → Parser OwnedExpr
  | [], last => fun env => (last, env)
  | node :: nodes, last => fun env =>
      if node.isError then parseEach nodes last env
      else parseEach nodes (parse node env).1 (parse node env).2

/-- The result of the last child, which alone is translated. -/
def parseLast : List Node → Parser OwnedExpr
  | [] => fun env => (none, env)
  | node :: nodes =>
      if nodes.all Node.isError ∧ ¬ node.isError then parse node else parseLast nodes

/-- The result of the first child. -/
def parseFirst : List Node → Parser OwnedExpr
  | [] => fun env => (none, env)
  | node :: nodes => if node.isError then parseFirst nodes else parse node

/-- The first result among the children. -/
def parseAny : List Node → Parser OwnedExpr
  | [] => fun env => (none, env)
  | node :: nodes => fun env =>
      match parse node env with
      | (some e, env') => (some e, env')
      | (none, env') => parseAny nodes env'

end

/-! ### Nodes with one child -/

theorem parse_expressionStatement {node : Node} (h : node.isError = false) :
  parse (.expressionStatement [node]) = parse node
  := by
  rw [parse, parseLast, if_pos]
  simp [h]

theorem parse_parenthesizedExpression {node : Node} (h : node.isError = false) :
  parse (.parenthesizedExpression [node]) = parse node
  := by
  rw [parse, parseFirst, if_neg]
  simp [h]

theorem parseEach_cons {node : Node} (h : node.isError = false) (nodes : List Node)
    (last : Option OwnedExpr) (env : Env) :
  parseEach (node :: nodes) last env = parseEach nodes (parse node env).1 (parse node env).2
  := by
  rw [parseEach]
  dsimp only
  rw [if_neg]
  simp [h]

end Chatgpt

end DryadSynth
