import DryadSynth.Chatgpt.Parsing

/-!
# Straight-line Python programs over integers

The syntax and the meaning of the programs that the translator is for.  The operators are those
of Python on integers, and the result of each is reduced modulo `2 ^ 64`.  A name that is used
before it has been assigned is the next argument.
-/

namespace DryadSynth

namespace Python

/-! ### Integer literals -/

/-- The digits of a literal: an underscore may stand before a digit. -/
def digitGroups (radix : ℕ) : List Char → Option (List Char)
  | [] => some []
  | '_' :: c :: cs =>
      if (digit radix c).isSome then (digitGroups radix cs).map (c :: ·) else none
  | c :: cs => if (digit radix c).isSome then (digitGroups radix cs).map (c :: ·) else none

/-- The number after a prefix for its radix. -/
def prefixed (radix : ℕ) (cs : List Char) : Option ℕ :=
  if cs = [] then none else (digitGroups radix cs).map (ofDigits radix)

/-- The value of an integer literal. -/
def literal : List Char → Option ℕ
  | '0' :: 'x' :: cs => prefixed 16 cs
  | '0' :: 'X' :: cs => prefixed 16 cs
  | '0' :: 'o' :: cs => prefixed 8 cs
  | '0' :: 'O' :: cs => prefixed 8 cs
  | '0' :: 'b' :: cs => prefixed 2 cs
  | '0' :: 'B' :: cs => prefixed 2 cs
  | '0' :: cs => (digitGroups 10 cs).bind fun ds => if ds.all (· = '0') then some 0 else none
  | c :: cs =>
      if (digit 10 c).isSome then (digitGroups 10 cs).map fun ds => ofDigits 10 (c :: ds) else none
  | [] => none

/-! ### Operators -/

/-- The unary operators on integers. -/
def unaryValue : String → ℤ → Option ℤ
  | "~", a => some (-a - 1)
  | "-", a => some (-a)
  | "+", a => some a
  | _, _ => none

/-- The binary operators on integers that are not negative.  A division by zero has no result,
and `/` gives no integer. -/
def binaryValue : String → ℕ → ℕ → Option ℤ
  | "+", a, b => some (a + b)
  | "-", a, b => some (a - b)
  | "*", a, b => some (a * b)
  | "//", a, b => if b = 0 then none else some (a / b : ℕ)
  | "%", a, b => if b = 0 then none else some (a % b : ℕ)
  | "**", a, b => some (a ^ b : ℕ)
  | "<<", a, b => some (a <<< b : ℕ)
  | ">>", a, b => some (a >>> b : ℕ)
  | "&", a, b => some (a &&& b : ℕ)
  | "|", a, b => some (a ||| b : ℕ)
  | "^", a, b => some (a ^^^ b : ℕ)
  | _, _, _ => none

/-! ### Programs -/

inductive PyExpr where
  | identifier (name : String)
  | integer (text : String)
  | unary (op : String) (e : PyExpr)
  | binary (op : String) (e₁ e₂ : PyExpr)
  | paren (e : PyExpr)

/-- The right side of an assignment, which may be an assignment again. -/
inductive Assigned where
  | expr (e : PyExpr)
  | assign (name : String) (value : Assigned)

/-- A statement.  A comment is none, but stands where one does. -/
inductive Stmt where
  | expr (e : PyExpr)
  | assign (name : String) (value : Assigned)
  | augAssign (name : String) (op : String) (e : PyExpr)
  | comment (text : String)

abbrev Program := List Stmt

/-- The values of the names, and the arguments that are left. -/
structure State where
  names : String → Option (BitVec 64)
  args : List (BitVec 64)

namespace State

/-- The state in which a program starts. -/
def start (args : List (BitVec 64)) : State := ⟨fun _ => none, args⟩

def set (st : State) (name : String) (v : BitVec 64) : State :=
  ⟨Function.update st.names name (some v), st.args⟩

/-- The value of a name. -/
def get (st : State) (name : String) : Option (BitVec 64 × State) :=
  match st.names name with
  | some v => some (v, st)
  | none =>
      match st.args with
      | [] => none
      | a :: args => some (a, State.set ⟨st.names, args⟩ name a)

end State

/-- The value of an expression, from left to right. -/
def PyExpr.eval : PyExpr → State → Option (BitVec 64 × State)
  | .identifier name, st => st.get name
  | .integer text, st => do
      let v ← literal text.toList
      if v < 2 ^ 64 then some (BitVec.ofNat 64 v, st) else none
  | .unary op e, st => do
      let p ← e.eval st
      let z ← unaryValue op p.1.toNat
      some (BitVec.ofInt 64 z, p.2)
  | .binary op e₁ e₂, st => do
      let p ← e₁.eval st
      let q ← e₂.eval p.2
      let z ← binaryValue op p.1.toNat q.1.toNat
      some (BitVec.ofInt 64 z, q.2)
  | .paren e, st => e.eval st

def Assigned.eval : Assigned → State → Option (BitVec 64 × State)
  | .expr e, st => e.eval st
  | .assign name value, st => do
      let p ← value.eval st
      some (p.1, p.2.set name p.1)

/-- The value of a statement, that of an assignment is the one assigned. -/
def Stmt.exec : Stmt → State → Option (Option (BitVec 64) × State)
  | .expr e, st => do
      let p ← e.eval st
      some (some p.1, p.2)
  | .assign name value, st => do
      let p ← value.eval st
      some (some p.1, p.2.set name p.1)
  | .augAssign name op e, st => do
      let p ← st.get name
      let q ← e.eval p.2
      let z ← binaryValue op p.1.toNat q.1.toNat
      some (some (BitVec.ofInt 64 z), q.2.set name (BitVec.ofInt 64 z))
  | .comment _, st => some (none, st)

/-- The value of the last statement. -/
def Program.run : Program → State → Option (BitVec 64)
  | [], _ => none
  | [s], st => do
      let p ← s.exec st
      p.1
  | s :: s' :: ss, st => do
      let p ← s.exec st
      Program.run (s' :: ss) p.2

/-! ### Syntax trees -/

open Chatgpt (Node)

def PyExpr.node : PyExpr → Node
  | .identifier name => .identifier name
  | .integer text => .integer text
  | .unary op e => .unaryOperator op e.node
  | .binary op e₁ e₂ => .binaryOperator e₁.node op e₂.node
  | .paren e => .parenthesizedExpression [e.node]

def Assigned.node : Assigned → Node
  | .expr e => e.node
  | .assign name value => .assignment (.identifier name) (some value.node)

/-- The node of a statement; the operator of an augmented assignment has an equals sign. -/
def Stmt.node : Stmt → Node
  | .expr e => .expressionStatement [e.node]
  | .assign name value =>
      .expressionStatement [.assignment (.identifier name) (some value.node)]
  | .augAssign name op e =>
      .expressionStatement [.augmentedAssignment (.identifier name) (op ++ "=") e.node]
  | .comment text => .other text

def Program.node (p : Program) : Node := .module (p.map Stmt.node)

end Python

end DryadSynth
