import DryadSynth.Chatgpt.Literals

/-!
# The translation of Python programs

The translator keeps the table in step with the state of the program: a name has an expression
when it has a value, and the expression has this value at the arguments, `Sim`.

Three things break the step.  The complement `~` is taken for the negation, which has this
symbol in the table of the infix symbols; a literal with an underscore, or with a prefix other
than `0x` and `0b`, is read up to where the number seems to end; and a statement that cannot be
translated is passed over, its assignment with it.  A program without them, `Clean`, is
translated to its value.
-/

namespace DryadSynth

namespace Python

open Chatgpt (Node Env Parser parse parseEach parse_expressionStatement
  parse_parenthesizedExpression)

/-! ### Where the translation is exact -/

/-- The operators are in the tables of the translator. -/
def PyExpr.Translated : PyExpr → Prop
  | .identifier _ => True
  | .integer _ => True
  | .unary op e => (UnOp.ofSymbol op).isSome ∧ e.Translated
  | .binary op e₁ e₂ =>
      (BinOp.ofSymbol (if op = "//" then "/" else op)).isSome ∧ e₁.Translated ∧ e₂.Translated
  | .paren e => e.Translated

/-- There is no complement, and every literal is read as a whole, or is zero. -/
def PyExpr.Exact : PyExpr → Prop
  | .identifier _ => True
  | .integer text => Plain text.toList ∨ literal text.toList = some 0
  | .unary op e => op ≠ "~" ∧ e.Exact
  | .binary _ e₁ e₂ => e₁.Exact ∧ e₂.Exact
  | .paren e => e.Exact

def Assigned.Translated : Assigned → Prop
  | .expr e => e.Translated
  | .assign _ value => value.Translated

def Assigned.Exact : Assigned → Prop
  | .expr e => e.Exact
  | .assign _ value => value.Exact

def Stmt.Translated : Stmt → Prop
  | .expr e => e.Translated
  | .assign _ value => value.Translated
  | .augAssign _ op e => (BinOp.ofSymbol op).isSome ∧ e.Translated
  | .comment _ => True

def Stmt.Exact : Stmt → Prop
  | .expr e => e.Exact
  | .assign _ value => value.Exact
  | .augAssign _ _ e => e.Exact
  | .comment _ => True

/-- The statements before the last one can be translated, and every statement that can be is
exact. -/
def Program.Clean : Program → Prop
  | [] => True
  | [s] => s.Translated → s.Exact
  | s :: s' :: ss => s.Translated ∧ s.Exact ∧ Program.Clean (s' :: ss)

/-- The translation preserves the meaning: the expression of the last statement has at the
arguments the value that the program computes from them. -/
def Program.Preserved (p : Program) : Prop :=
  ∀ (environ : Environ) (args : List (BitVec 64)) (v : BitVec 64) (e : OwnedExpr) (env : Env),
    p.run (State.start args) = some v → parse p.node Env.new = (some e, env) →
      e.eval environ args = .ok v

/-! ### Operators -/

theorem shl_eq (a b : BitVec 64) :
  op.shl a b = a <<< b.toNat
  := by
  rw [op.shl]
  split
  next h =>
    rw [BitVec.shiftLeft_eq_zero h]
    rfl
  next => rfl

theorem lshr_eq (a b : BitVec 64) :
  op.lshr a b = a >>> b.toNat
  := by
  rw [op.lshr]
  split
  next h =>
    rw [BitVec.ushiftRight_eq_zero h]
    rfl
  next => rfl

/-- A result that is a natural number below `2 ^ 64`. -/
theorem ofInt_natCast_eq {n : ℕ} {x : BitVec 64} (h : n % 2 ^ 64 = x.toNat) :
  BitVec.ofInt 64 n = x
  := by
  apply BitVec.eq_of_toNat_eq
  rw [BitVec.ofInt_natCast, BitVec.toNat_ofNat, h]

/-- A binary operator that the tables have is the operator of Python, reduced. -/
theorem binary_correct {op : String} {o : BinOp} (F : Funs) {a b : BitVec 64} {z : ℤ}
    (ho : BinOp.ofSymbol (if op = "//" then "/" else op) = some o)
    (hz : binaryValue op a.toNat b.toNat = some z) :
  o.eval F a b = .ok (BitVec.ofInt 64 z)
  := by
  unfold binaryValue at hz
  split at hz
  next =>
    cases hz
    cases ho
    rw [BinOp.eval, op.add, BitVec.ofInt_add]
    simp
  next =>
    cases hz
    cases ho
    rw [BinOp.eval, op.sub, Int.sub_eq_add_neg, BitVec.ofInt_add, BitVec.ofInt_neg,
      BitVec.sub_eq_add_neg]
    simp
  next =>
    cases hz
    cases ho
    rw [BinOp.eval, op.mul, BitVec.ofInt_mul]
    simp
  next =>
    cases ho
    split at hz
    next => cases hz
    next hb =>
      cases hz
      have hne : b ≠ 0 := by
        rintro rfl
        apply hb rfl
      rw [BinOp.eval, op.udiv, if_neg hne, ofInt_natCast_eq (x := a / b)]
      rw [BitVec.toNat_udiv]
      apply Nat.mod_eq_of_lt (lt_of_le_of_lt (Nat.div_le_self _ _) a.isLt)
  next =>
    cases ho
    split at hz
    next => cases hz
    next hb =>
      cases hz
      have hne : b ≠ 0 := by
        rintro rfl
        apply hb rfl
      rw [BinOp.eval, op.urem, if_neg hne, ofInt_natCast_eq (x := a % b)]
      rw [BitVec.toNat_umod]
      apply Nat.mod_eq_of_lt (lt_of_le_of_lt (Nat.mod_le _ _) a.isLt)
  next =>
    cases ho
  next =>
    cases hz
    cases ho
    rw [BinOp.eval, shl_eq, ofInt_natCast_eq (x := a <<< b.toNat)]
    rw [BitVec.toNat_shiftLeft]
  next =>
    cases hz
    cases ho
    rw [BinOp.eval, lshr_eq, ofInt_natCast_eq (x := a >>> b.toNat)]
    rw [← BitVec.toNat_ushiftRight]
    apply Nat.mod_eq_of_lt (BitVec.isLt _)
  next =>
    cases hz
    cases ho
    rw [BinOp.eval, op.and, ofInt_natCast_eq (x := a &&& b)]
    rw [← BitVec.toNat_and]
    apply Nat.mod_eq_of_lt (BitVec.isLt _)
  next =>
    cases hz
    cases ho
    rw [BinOp.eval, op.or, ofInt_natCast_eq (x := a ||| b)]
    rw [← BitVec.toNat_or]
    apply Nat.mod_eq_of_lt (BitVec.isLt _)
  next =>
    cases hz
    cases ho
    rw [BinOp.eval, op.xor, ofInt_natCast_eq (x := a ^^^ b)]
    rw [← BitVec.toNat_xor]
    apply Nat.mod_eq_of_lt (BitVec.isLt _)
  next => cases hz

/-- The text of an augmented assignment without its equals sign. -/
theorem ofSymbol_augmented (op : String) :
  BinOp.ofSymbol (String.ofList
      (if op ++ "=" = "//" then "/" else op ++ "=").toList.dropLast)
    = BinOp.ofSymbol op
  := by
  have hne : op ++ "=" ≠ "//" := by
    intro heq
    have hlast := congrArg (fun s => s.toList.getLast?) heq
    simp at hlast
  rw [if_neg hne, String.toList_append]
  have hlast : (op.toList ++ "=".toList).dropLast = op.toList := List.dropLast_concat
  rw [hlast, String.ofList_toList]

/-- An operator whose symbol is in the table is no floor division. -/
theorem ne_of_ofSymbol {op : String} {o : BinOp} (h : BinOp.ofSymbol op = some o) :
  (if op = "//" then "/" else op) = op
  := by
  apply if_neg
  rintro rfl
  cases h

/-! ### The table and the state -/

variable {F : Funs} {args : List (BitVec 64)} {env : Env} {st : State}

/-- The table has an expression for each name with a value, which has this value at the
arguments, and as many arguments are in use. -/
structure Sim (F : Funs) (args : List (BitVec 64)) (env : Env) (st : State) : Prop where
  left : st.args = args.drop env.var
  names : ∀ x, Option.Rel (fun e v => ExprIn.evalWith F args e = .ok v) (env.maps x) (st.names x)

theorem sim_start (F : Funs) (args : List (BitVec 64)) :
  Sim F args Env.new (State.start args)
  := by
  constructor
  · rfl
  · intro x
    exact .none

theorem Sim.insert (h : Sim F args env st) (name : String) {e : OwnedExpr} {v : BitVec 64}
    (he : e.evalWith F args = .ok v) :
  Sim F args (env.insert name e) (st.set name v)
  := by
  constructor
  · apply h.left
  · intro x
    by_cases hx : x = name
    · subst hx
      simp only [Env.insert, State.set, Function.update_self]
      exact .some he
    · simp only [Env.insert, State.set, Function.update_of_ne hx]
      apply h.names x

/-- The translation succeeds with an expression of this value, and keeps step. -/
def Steps (F : Funs) (args : List (BitVec 64)) (p : Parser OwnedExpr) (env : Env) (v : BitVec 64)
    (st : State) : Prop :=
  ∃ e env', p env = (some e, env') ∧ e.evalWith F args = .ok v ∧ Sim F args env' st

theorem bind_of_some {α β : Type} {p : Parser α} {f : α → Parser β} {env env' : Env} {a : α}
    (h : p env = (some a, env')) :
  Parser.bind p f env = f a env'
  := by
  rw [Parser.bind, h]

theorem of_bind_eq_some {α β : Type} {p : Parser α} {f : α → Parser β} {env env' : Env} {r : β}
    (h : Parser.bind p f env = (some r, env')) :
  ∃ a env₁, p env = (some a, env₁) ∧ f a env₁ = (some r, env')
  := by
  rw [Parser.bind] at h
  split at h
  next a env₁ hp => exact ⟨a, env₁, hp, h⟩
  next => cases h

/-- The use of a name. -/
theorem Sim.get (h : Sim F args env st) {name : String} {v : BitVec 64} {st' : State}
    (hget : st.get name = some (v, st')) :
  Steps F args (parse (.identifier name)) env v st'
  := by
  have hrel := h.names name
  rw [State.get] at hget
  cases hmaps : env.maps name with
  | some e =>
      rw [hmaps] at hrel
      cases hnames : st.names name with
      | none =>
          rw [hnames] at hrel
          cases hrel
      | some v' =>
          rw [hnames] at hrel hget
          cases hget
          cases hrel with
          | some he =>
              refine ⟨e, env, ?_, he, h⟩
              rw [parse]
              dsimp only
              rw [hmaps]
  | none =>
      rw [hmaps] at hrel
      cases hnames : st.names name with
      | some v' =>
          rw [hnames] at hrel
          cases hrel
      | none =>
          rw [hnames] at hget
          cases hargs : st.args with
          | nil =>
              rw [hargs] at hget
              cases hget
          | cons a rest =>
              rw [hargs] at hget
              cases hget
              have hdrop : args.drop env.var = v :: rest := by rw [← h.left, hargs]
              have hvar : ExprIn.evalWith F args (s := .boxed) (.var env.var) = .ok v := by
                have hat : args[env.var]? = some v := by
                  rw [← List.head?_drop, hdrop]
                  rfl
                rw [ExprIn.evalWith, hat]
              refine ⟨.var env.var, env.argument.2.insert name env.argument.1, ?_, hvar, ?_⟩
              · rw [parse]
                dsimp only
                rw [hmaps]
                rfl
              · have hnext : Sim F args env.argument.2 ⟨st.names, rest⟩ := by
                  constructor
                  · have htail : args.drop (env.var + 1) = rest := by
                      rw [← List.drop_drop, hdrop]
                      rfl
                    apply htail.symm
                  · apply h.names
                apply hnext.insert name hvar

/-! ### Expressions -/

/-- A translation that goes on with the expression. -/
theorem Steps.bind {p : Parser OwnedExpr} {f : OwnedExpr → Parser OwnedExpr} {v v' : BitVec 64}
    {st' : State} (h : Steps F args p env v st)
    (hf : ∀ e env', e.evalWith F args = .ok v → Sim F args env' st →
      Steps F args (f e) env' v' st') :
  Steps F args (Parser.bind p f) env v' st'
  := by
  obtain ⟨e, env', hp, he, hsim⟩ := h
  rw [Steps, bind_of_some hp]
  apply hf e env' he hsim

theorem unaryValue_none {op : String} {o : UnOp} (ho : UnOp.ofSymbol op = some o)
    (hop : op ≠ "~") (a : ℤ) :
  unaryValue op a = none
  := by
  unfold unaryValue
  split
  next => exact absurd rfl hop
  next => cases ho
  next => cases ho
  next => rfl

theorem isError_node (e : PyExpr) :
  e.node.isError = false
  := by
  cases e <;> rfl

/-- An expression is translated to its value. -/
theorem expr_steps {e : PyExpr} (htranslated : e.Translated) (hexact : e.Exact)
    (hsim : Sim F args env st) {v : BitVec 64} {st' : State} (heval : e.eval st = some (v, st')) :
  Steps F args (parse e.node) env v st'
  := by
  induction e generalizing env st v st' with
  | identifier name => apply hsim.get heval
  | integer text =>
      obtain ⟨n, hn, heval⟩ := Option.bind_eq_some_iff.mp heval
      split at heval
      next hlt =>
        cases heval
        refine ⟨.const (BitVec.ofNat 64 n), env, ?_, rfl, hsim⟩
        rw [PyExpr.node, parse, (literal_iff hn hlt).mpr hexact]
        rfl
      next => cases heval
  | unary op e ih =>
      obtain ⟨p, -, heval⟩ := Option.bind_eq_some_iff.mp heval
      obtain ⟨z, hz, -⟩ := Option.bind_eq_some_iff.mp heval
      obtain ⟨o, ho⟩ := Option.isSome_iff_exists.mp htranslated.1
      rw [unaryValue_none ho hexact.1] at hz
      cases hz
  | binary op e₁ e₂ ih₁ ih₂ =>
      obtain ⟨p, hp, heval⟩ := Option.bind_eq_some_iff.mp heval
      obtain ⟨q, hq, heval⟩ := Option.bind_eq_some_iff.mp heval
      obtain ⟨z, hz, heval⟩ := Option.bind_eq_some_iff.mp heval
      cases heval
      obtain ⟨o, ho⟩ := Option.isSome_iff_exists.mp htranslated.1
      rw [PyExpr.node, parse, ho]
      apply (ih₁ htranslated.2.1 hexact.1 hsim hp).bind
      intro e₁ env₁ he₁ hsim₁
      apply (ih₂ htranslated.2.2 hexact.2 hsim₁ hq).bind
      intro e₂ env₂ he₂ hsim₂
      refine ⟨.bin o e₁ e₂, env₂, rfl, ?_, hsim₂⟩
      rw [ExprIn.evalWith, he₁, he₂]
      apply binary_correct F ho hz
  | paren e ih =>
      rw [PyExpr.node, parse_parenthesizedExpression (isError_node e)]
      apply ih htranslated hexact hsim heval

/-- What has been translated has its operators in the tables. -/
theorem translated_of_parse {e : PyExpr} {env env' : Env} {r : OwnedExpr}
    (h : parse e.node env = (some r, env')) :
  e.Translated
  := by
  induction e generalizing env env' r with
  | identifier | integer => trivial
  | unary op e ih =>
      rw [PyExpr.node, parse] at h
      cases ho : UnOp.ofSymbol op with
      | none =>
          rw [ho] at h
          cases h
      | some o =>
          rw [ho] at h
          obtain ⟨e₁, env₁, h₁, -⟩ := of_bind_eq_some h
          exact ⟨by rw [ho]; rfl, ih h₁⟩
  | binary op e₁ e₂ ih₁ ih₂ =>
      rw [PyExpr.node, parse] at h
      cases ho : BinOp.ofSymbol (if op = "//" then "/" else op) with
      | none =>
          rw [ho] at h
          cases h
      | some o =>
          rw [ho] at h
          obtain ⟨r₁, env₁, h₁, h⟩ := of_bind_eq_some h
          obtain ⟨r₂, env₂, h₂, -⟩ := of_bind_eq_some h
          exact ⟨by rw [ho]; rfl, ih₁ h₁, ih₂ h₂⟩
  | paren e ih =>
      rw [PyExpr.node, parse_parenthesizedExpression (isError_node e)] at h
      apply ih h

/-! ### Statements -/

/-- An assigned value is translated to its value. -/
theorem assigned_steps {value : Assigned} (htranslated : value.Translated)
    (hexact : value.Exact) (hsim : Sim F args env st) {v : BitVec 64} {st' : State}
    (heval : value.eval st = some (v, st')) :
  Steps F args (parse value.node) env v st'
  := by
  induction value generalizing v st' with
  | expr e => apply expr_steps htranslated hexact hsim heval
  | assign name value ih =>
      obtain ⟨p, hp, heval⟩ := Option.bind_eq_some_iff.mp heval
      cases heval
      rw [Assigned.node, parse]
      apply (ih htranslated hexact hp).bind
      intro e env' he hsim'
      exact ⟨e, env'.insert name e, rfl, he, hsim'.insert name he⟩

theorem translated_of_parse_assigned {value : Assigned} {env env' : Env} {r : OwnedExpr}
    (h : parse value.node env = (some r, env')) :
  value.Translated
  := by
  induction value generalizing env env' r with
  | expr e => apply translated_of_parse h
  | assign name value ih =>
      rw [Assigned.node, parse] at h
      obtain ⟨r₁, env₁, h₁, -⟩ := of_bind_eq_some h
      apply ih h₁

/-- A statement with a value is translated to it. -/
theorem stmt_steps {s : Stmt} (htranslated : s.Translated) (hexact : s.Exact)
    (hsim : Sim F args env st) {v : BitVec 64} {st' : State}
    (hexec : s.exec st = some (some v, st')) :
  Steps F args (parse s.node) env v st'
  := by
  cases s with
  | expr e =>
      obtain ⟨p, hp, hexec⟩ := Option.bind_eq_some_iff.mp hexec
      cases hexec
      rw [Stmt.node, parse_expressionStatement (isError_node e)]
      apply expr_steps htranslated hexact hsim hp
  | assign name value =>
      obtain ⟨p, hp, hexec⟩ := Option.bind_eq_some_iff.mp hexec
      cases hexec
      rw [Stmt.node, parse_expressionStatement rfl, parse]
      apply (assigned_steps htranslated hexact hsim hp).bind
      intro e env' he hsim'
      exact ⟨e, env'.insert name e, rfl, he, hsim'.insert name he⟩
  | augAssign name op e =>
      obtain ⟨p, hp, hexec⟩ := Option.bind_eq_some_iff.mp hexec
      obtain ⟨q, hq, hexec⟩ := Option.bind_eq_some_iff.mp hexec
      obtain ⟨z, hz, hexec⟩ := Option.bind_eq_some_iff.mp hexec
      cases hexec
      obtain ⟨o, ho⟩ := Option.isSome_iff_exists.mp htranslated.1
      rw [Stmt.node, parse_expressionStatement rfl, parse, ofSymbol_augmented, ho]
      apply (hsim.get hp).bind
      intro e₁ env₁ he₁ hsim₁
      apply (expr_steps htranslated.2 hexact hsim₁ hq).bind
      intro e₂ env₂ he₂ hsim₂
      have hvalue : ExprIn.evalWith F args (.bin o e₁ e₂) = .ok (BitVec.ofInt 64 z) := by
        rw [ExprIn.evalWith, he₁, he₂]
        apply binary_correct F _ hz
        rw [ne_of_ofSymbol ho, ho]
      exact ⟨.bin o e₁ e₂, env₂.insert name (.bin o e₁ e₂), rfl, hvalue, hsim₂.insert name hvalue⟩
  | comment text => cases hexec

theorem translated_of_parse_stmt {s : Stmt} {env env' : Env} {r : OwnedExpr}
    (h : parse s.node env = (some r, env')) :
  s.Translated
  := by
  cases s with
  | expr e =>
      rw [Stmt.node, parse_expressionStatement (isError_node e)] at h
      apply translated_of_parse h
  | assign name value =>
      rw [Stmt.node, parse_expressionStatement rfl, parse] at h
      obtain ⟨r₁, env₁, h₁, -⟩ := of_bind_eq_some h
      apply translated_of_parse_assigned h₁
  | augAssign name op e =>
      rw [Stmt.node, parse_expressionStatement rfl, parse, ofSymbol_augmented] at h
      cases ho : BinOp.ofSymbol op with
      | none =>
          rw [ho] at h
          cases h
      | some o =>
          rw [ho] at h
          obtain ⟨r₁, env₁, -, h⟩ := of_bind_eq_some h
          obtain ⟨r₂, env₂, h₂, -⟩ := of_bind_eq_some h
          exact ⟨by rw [ho]; rfl, translated_of_parse h₂⟩
  | comment text => trivial

/-! ### Programs -/

theorem isError_node_stmt (s : Stmt) :
  s.node.isError = false
  := by
  cases s <;> rfl

/-- A statement before the last one keeps step. -/
theorem exec_sim {s : Stmt} (htranslated : s.Translated) (hexact : s.Exact)
    (hsim : Sim F args env st) {ov : Option (BitVec 64)} {st' : State}
    (hexec : s.exec st = some (ov, st')) :
  Sim F args (parse s.node env).2 st'
  := by
  cases ov with
  | some v =>
      obtain ⟨e, env', hparse, -, hsim'⟩ := stmt_steps htranslated hexact hsim hexec
      rw [hparse]
      apply hsim'
  | none =>
      cases s with
      | expr e | assign name value =>
          obtain ⟨p, -, hexec⟩ := Option.bind_eq_some_iff.mp hexec
          cases hexec
      | augAssign name op e =>
          obtain ⟨p, -, hexec⟩ := Option.bind_eq_some_iff.mp hexec
          obtain ⟨q, -, hexec⟩ := Option.bind_eq_some_iff.mp hexec
          obtain ⟨z, -, hexec⟩ := Option.bind_eq_some_iff.mp hexec
          cases hexec
      | comment text =>
          cases hexec
          rw [Stmt.node, parse]
          apply hsim

/-- The statements of a clean program are translated one after the other. -/
theorem parseEach_steps {p : Program} (hclean : p.Clean) (hsim : Sim F args env st)
    {v : BitVec 64} (hrun : p.run st = some v) {last : Option OwnedExpr} {e : OwnedExpr}
    {env' : Env} (hparse : parseEach (p.map Stmt.node) last env = (some e, env')) :
  e.evalWith F args = .ok v
  := by
  induction p generalizing env st last with
  | nil => cases hrun
  | cons s ss ih =>
      rw [List.map_cons, Chatgpt.parseEach_cons (isError_node_stmt s)] at hparse
      cases ss with
      | nil =>
          obtain ⟨⟨_, st'⟩, hexec, rfl⟩ := Option.bind_eq_some_iff.mp hrun
          rw [List.map_nil, parseEach] at hparse
          have hstmt : parse s.node env = (some e, env') := by
            rw [← hparse]
          have htranslated := translated_of_parse_stmt hstmt
          obtain ⟨e', env'', he', hvalue, -⟩ :=
            stmt_steps htranslated (hclean htranslated) hsim hexec
          rw [hstmt] at he'
          cases he'
          apply hvalue
      | cons s' ss =>
          obtain ⟨⟨ov, st'⟩, hexec, hrun⟩ := Option.bind_eq_some_iff.mp hrun
          obtain ⟨htranslated, hexact, hclean⟩ := hclean
          apply ih hclean (exec_sim htranslated hexact hsim hexec) hrun hparse

/-- A clean program is translated to its value. -/
theorem preserved_of_clean {p : Program} (hclean : p.Clean) :
  p.Preserved
  := by
  intro environ args v e env hrun hparse
  rw [Program.node, parse] at hparse
  apply parseEach_steps hclean (sim_start _ args) hrun hparse

/-- A program of one expression. -/
theorem parse_expr_program (e : PyExpr) (env : Env) :
  parse (Program.node [.expr e]) env = parse e.node env
  := by
  rw [Program.node, parse, List.map_cons, Chatgpt.parseEach_cons (isError_node_stmt _), Stmt.node,
    parse_expressionStatement (isError_node e)]
  rfl

/-- A program of one literal is translated to its value only if it is clean. -/
theorem preserved_integer_iff {text : String} {v : ℕ} (h : literal text.toList = some v)
    (hlt : v < 2 ^ 64) :
  Program.Preserved [.expr (.integer text)] ↔ Program.Clean [.expr (.integer text)]
  := by
  refine ⟨?_, preserved_of_clean⟩
  intro hpreserved _
  have heval : (PyExpr.integer text).eval (State.start [])
      = some (BitVec.ofNat 64 v, State.start []) := by
    rw [PyExpr.eval, h]
    apply if_pos hlt
  have hrun : Program.run [.expr (.integer text)] (State.start [])
      = some (BitVec.ofNat 64 v) := by
    rw [Program.run, Stmt.exec, heval]
    rfl
  obtain ⟨k, hk, -⟩ := literal_spec h hlt
  have hparse : parse (Program.node [.expr (.integer text)]) Env.new
      = (some (.const (BitVec.ofNat 64 k)), Env.new) := by
    rw [parse_expr_program, PyExpr.node, parse, hk]
    rfl
  have hvalue := hpreserved (Environ.new 0) [] _ _ _ hrun hparse
  apply (literal_iff h hlt).mp
  rw [hk, Except.ok.inj hvalue]

/-- The complement of a number is one less than what it is translated to. -/
theorem neg_ne_complement (a : BitVec 64) :
  op.neg a ≠ BitVec.ofInt 64 (-a.toNat - 1)
  := by
  intro heq
  have hsub : (0 : BitVec 64) - a = -a := BitVec.zero_sub a
  rw [op.neg, Int.sub_eq_add_neg, BitVec.ofInt_add, BitVec.ofInt_neg, BitVec.ofInt_natCast,
    BitVec.ofNat_toNat, BitVec.setWidth_eq, hsub] at heq
  have hzero : BitVec.ofInt 64 (-1) = 0 := by
    rw [← BitVec.add_right_inj (-a), ← heq]
    simp
  apply absurd hzero (by decide)

/-- The complement of an expression with a value is not translated to its value. -/
theorem not_preserved_complement {e : PyExpr} (htranslated : e.Translated) (hexact : e.Exact)
    {args : List (BitVec 64)} {v : BitVec 64} {st : State}
    (heval : e.eval (State.start args) = some (v, st)) :
  ¬ Program.Preserved [.expr (.unary "~" e)]
  := by
  intro hpreserved
  have hrun : Program.run [.expr (.unary "~" e)] (State.start args)
      = some (BitVec.ofInt 64 (-v.toNat - 1)) := by
    rw [Program.run, Stmt.exec, PyExpr.eval, heval]
    rfl
  obtain ⟨r, env, hr, hvalue, -⟩ := expr_steps (F := (Environ.new 0).funs 0) htranslated hexact
    (sim_start _ args) heval
  have hparse : parse (Program.node [.expr (.unary "~" e)]) Env.new
      = (some (.un .neg r), env) := by
    rw [parse_expr_program, PyExpr.node, parse]
    apply bind_of_some hr
  have hneg := hpreserved (Environ.new 0) args _ _ _ hrun hparse
  have hun : ExprIn.eval (Environ.new 0) (.un .neg r) args = .ok (op.neg v) := by
    rw [ExprIn.eval, ExprIn.evalWith]
    exact congrArg (fun x => x >>= UnOp.eval _ .neg) hvalue
  rw [hun] at hneg
  apply neg_ne_complement v (Except.ok.inj hneg)

/-- The program
```
y = a * 3
y += (b << 0x2)  # shifted
y
``` -/
def shiftedSum : Program :=
  [.assign "y" (.expr (.binary "*" (.identifier "a") (.integer "3"))),
    .augAssign "y" "+" (.paren (.binary "<<" (.identifier "b") (.integer "0x2"))),
    .comment "# shifted", .expr (.identifier "y")]

theorem preserved_shiftedSum :
  shiftedSum.Preserved
  := by
  apply preserved_of_clean
  have hthree : Plain ['3'] := by simp [Plain, List.cons_prefix_cons]
  have htwo : Plain ['0', 'x', '2'] := by simp [Plain, List.cons_prefix_cons]
  refine ⟨?_, ?_, ?_, ?_, trivial, trivial, fun _ => trivial⟩
  · exact ⟨by decide, trivial, trivial⟩
  · exact ⟨trivial, .inl hthree⟩
  · exact ⟨by decide, by decide, trivial, trivial⟩
  · exact ⟨trivial, .inl htwo⟩

/-- The complement of an argument, a literal with an underscore, and a name after a statement
that cannot be translated. -/
theorem not_preserved :
  ¬ Program.Preserved [.expr (.unary "~" (.identifier "a"))] ∧
    ¬ Program.Preserved [.expr (.integer "1_000")] ∧
    ¬ Program.Preserved [.assign "x" (.expr (.unary "-" (.integer "1"))),
      .expr (.identifier "x")]
  := by
  refine ⟨?_, ?_, ?_⟩
  · intro h
    have heval := h (Environ.new 0) [0] (-1) (.un .neg (.var 0)) _ rfl rfl
    apply absurd heval (by decide)
  · intro h
    have heval := h (Environ.new 0) [] 1000 (.const 1) _ rfl rfl
    apply absurd heval (by decide)
  · intro h
    have heval := h (Environ.new 0) [0] (-1) (.var 0) _ rfl rfl
    apply absurd heval (by decide)

end Python

end DryadSynth
