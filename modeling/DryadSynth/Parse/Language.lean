import DryadSynth.Enumerate.Config
import DryadSynth.Enumerate.Display

/-!
# The language of a grammar

The terms that the symbols of a grammar yield, and the expressions whose printed terms, with the
names of the arguments, are yielded by the start symbol.  What is printed spells its literals in one
way, so literals are compared by their values.

An operator is admitted when the language is closed under it.  A production that applies an
operator to the start symbol admits it.
-/

namespace DryadSynth

/-! ### Derivations -/

mutual

/-- A symbol or the right side of a production yields a term: a non-terminal what one of its
productions yields, an argument itself, a literal those with the same value, and a list the lists
with the same head. -/
inductive Cfg.Yields (cfg : Cfg) (args : List String) : SExpr → SExpr → Prop
  | nonTerminal {nt p t} (hnt : nt ∈ cfg) (hp : p ∈ nt.rules) (h : Cfg.Yields cfg args p t) :
      Cfg.Yields cfg args (.id nt.name) t
  | argument {v} (h : v ∈ args) : Cfg.Yields cfg args (.id v) (.id v)
  | literal {v v' c} (h : u64Constant v (.const v) = .ok c)
      (h' : u64Constant v' (.const v') = .ok c) : Cfg.Yields cfg args (.const v) (.const v')
  | list {s l l'} (h : Cfg.YieldsAll cfg args l l') :
      Cfg.Yields cfg args (.list (s :: l)) (.list (s :: l'))

/-- The terms of a list yield those of another one. -/
inductive Cfg.YieldsAll (cfg : Cfg) (args : List String) : List SExpr → List SExpr → Prop
  | nil : Cfg.YieldsAll cfg args [] []
  | cons {s t l l'} (h : Cfg.Yields cfg args s t) (hl : Cfg.YieldsAll cfg args l l') :
      Cfg.YieldsAll cfg args (s :: l) (t :: l')

end

/-- The terms that the start symbol yields. -/
def SynthProblem.Language (problem : SynthProblem) (t : SExpr) : Prop :=
  ∃ nt, problem.cfg.head? = some nt ∧ problem.cfg.Yields problem.args (.id nt.name) t

/-- `Display` of an expression, with the names of the arguments. -/
def ExprIn.written {s : Storage} (env : Environ) (args : List String) : ExprIn s → Option SExpr
  | .un o e₁ => do
      let n ← o.displayName env
      let s₁ ← e₁.written env args
      some (.list [.id n, s₁])
  | .bin o e₁ e₂ => do
      let n ← o.displayName env
      let s₁ ← e₁.written env args
      let s₂ ← e₂.written env args
      some (.list [.id n, s₁, s₂])
  | .ite e₁ e₂ e₃ => do
      let s₁ ← e₁.written env args
      let s₂ ← e₂.written env args
      let s₃ ← e₃.written env args
      some (.list [.id "ite", .list [.id "=", s₁, .const "#x0000000000000000"], s₂, s₃])
  | .var i => args[i]?.map .id
  | .const c => some (.const (hexLiteral c))

namespace SynthProblem

section Conforms

variable (env : Environ) (problem : SynthProblem)

/-- The printed term of the expression is in the language. -/
def Conforms {s : Storage} (e : ExprIn s) : Prop :=
  ∃ t, e.written env problem.args = some t ∧ problem.Language t

/-! ### Operators that are admitted -/

/-- The language is closed under an operator of arity one. -/
def Admits₁ (o : UnOp) : Prop :=
  ∃ n, o.displayName env = some n ∧ ∀ t, problem.Language t → problem.Language (.list [.id n, t])

/-- The language is closed under an operator of arity two. -/
def Admits₂ (o : BinOp) : Prop :=
  ∃ n, o.displayName env = some n ∧ ∀ t₁ t₂, problem.Language t₁ → problem.Language t₂ →
    problem.Language (.list [.id n, t₁, t₂])

/-- The language is closed under an operator with a constant as its second operand. -/
def AdmitsConstant (o : BinOp) (c : BitVec 64) : Prop :=
  ∃ n, o.displayName env = some n ∧ ∀ t, problem.Language t →
    problem.Language (.list [.id n, t, .const (hexLiteral c)])

/-- The language is closed under `ite` with a comparison with zero as its condition. -/
def AdmitsIte : Prop :=
  ∀ t₁ t₂ t₃, problem.Language t₁ → problem.Language t₂ → problem.Language t₃ →
    problem.Language
      (.list [.id "ite", .list [.id "=", t₁, .const "#x0000000000000000"], t₂, t₃])

end Conforms

section Conforms

variable {env : Environ} {problem : SynthProblem} {s s' : Storage} {e₁ e₂ e₃ : ExprIn s}

theorem Conforms.un {o : UnOp} (ho : problem.Admits₁ env o) (h₁ : problem.Conforms env e₁) :
  problem.Conforms env (.un o e₁)
  := by
  obtain ⟨n, hn, ho⟩ := ho
  obtain ⟨t₁, ht₁, h₁⟩ := h₁
  use .list [.id n, t₁]
  constructor
  · simp [ExprIn.written, hn, ht₁]
  · apply ho t₁ h₁

theorem Conforms.bin {o : BinOp} (ho : problem.Admits₂ env o) (h₁ : problem.Conforms env e₁)
    (h₂ : problem.Conforms env e₂) :
  problem.Conforms env (.bin o e₁ e₂)
  := by
  obtain ⟨n, hn, ho⟩ := ho
  obtain ⟨t₁, ht₁, h₁⟩ := h₁
  obtain ⟨t₂, ht₂, h₂⟩ := h₂
  use .list [.id n, t₁, t₂]
  constructor
  · simp [ExprIn.written, hn, ht₁, ht₂]
  · apply ho t₁ t₂ h₁ h₂

theorem Conforms.constant {o : BinOp} {c : BitVec 64} (ho : problem.AdmitsConstant env o c)
    (h₁ : problem.Conforms env e₁) :
  problem.Conforms env (.bin o e₁ (.const c))
  := by
  obtain ⟨n, hn, ho⟩ := ho
  obtain ⟨t₁, ht₁, h₁⟩ := h₁
  use .list [.id n, t₁, .const (hexLiteral c)]
  constructor
  · simp [ExprIn.written, hn, ht₁]
  · apply ho t₁ h₁

theorem Conforms.ite (h : problem.AdmitsIte) (h₁ : problem.Conforms env e₁)
    (h₂ : problem.Conforms env e₂) (h₃ : problem.Conforms env e₃) :
  problem.Conforms env (.ite e₁ e₂ e₃)
  := by
  obtain ⟨t₁, ht₁, h₁⟩ := h₁
  obtain ⟨t₂, ht₂, h₂⟩ := h₂
  obtain ⟨t₃, ht₃, h₃⟩ := h₃
  use .list [.id "ite", .list [.id "=", t₁, .const "#x0000000000000000"], t₂, t₃]
  constructor
  · simp [ExprIn.written, ht₁, ht₂, ht₃]
  · apply h t₁ t₂ t₃ h₁ h₂ h₃

theorem written_convert (e : ExprIn s) (args : List String) :
  (e.convert : ExprIn s').written env args = e.written env args
  := by
  induction e with
  | un o e₁ ih => simp only [ExprIn.convert, ExprIn.written, ih]
  | bin o e₁ e₂ ih₁ ih₂ => simp only [ExprIn.convert, ExprIn.written, ih₁, ih₂]
  | ite e₁ e₂ e₃ ih₁ ih₂ ih₃ => simp only [ExprIn.convert, ExprIn.written, ih₁, ih₂, ih₃]
  | var i => rfl
  | const c => rfl

@[simp]
theorem conforms_convert {e : ExprIn s} :
  problem.Conforms env (e.convert : ExprIn s') ↔ problem.Conforms env e
  := by
  rw [Conforms, Conforms, written_convert]

/-! ### Productions of the start symbol -/

variable {nt : NonTerminal} {p t t₁ t₂ : SExpr} {n : String}

/-- What a production of the start symbol yields is in the language. -/
theorem Language.of_production (hnt : problem.cfg.head? = some nt) (hp : p ∈ nt.rules)
    (h : problem.cfg.Yields problem.args p t) :
  problem.Language t
  := ⟨nt, hnt, .nonTerminal (List.mem_of_head? hnt) hp h⟩

/-- The name of the start symbol yields the terms of the language. -/
theorem Language.yields (hnt : problem.cfg.head? = some nt) (h : problem.Language t) :
  problem.cfg.Yields problem.args (.id nt.name) t
  := by
  obtain ⟨nt', hnt', h⟩ := h
  obtain rfl := Option.some.inj (hnt.symm.trans hnt')
  apply h

theorem admits₁_of_production (hnt : problem.cfg.head? = some nt)
    (hp : .list [.id n, .id nt.name] ∈ nt.rules) {o : UnOp} (hn : o.displayName env = some n) :
  problem.Admits₁ env o
  := by
  use n, hn
  intro t ht
  apply Language.of_production hnt hp
  apply Cfg.Yields.list
  apply Cfg.YieldsAll.cons (ht.yields hnt) .nil

theorem admits₂_of_production (hnt : problem.cfg.head? = some nt)
    (hp : .list [.id n, .id nt.name, .id nt.name] ∈ nt.rules) {o : BinOp}
    (hn : o.displayName env = some n) :
  problem.Admits₂ env o
  := by
  use n, hn
  intro t₁ t₂ h₁ h₂
  apply Language.of_production hnt hp
  apply Cfg.Yields.list
  apply Cfg.YieldsAll.cons (h₁.yields hnt)
  apply Cfg.YieldsAll.cons (h₂.yields hnt) .nil

theorem admitsConstant_of_production (hnt : problem.cfg.head? = some nt) {v : String}
    (hp : .list [.id n, .id nt.name, .const v] ∈ nt.rules) {o : BinOp}
    (hn : o.displayName env = some n) {c : BitVec 64} (hc : u64Constant v (.const v) = .ok c) :
  problem.AdmitsConstant env o c
  := by
  use n, hn
  intro t ht
  apply Language.of_production hnt hp
  apply Cfg.Yields.list
  apply Cfg.YieldsAll.cons (ht.yields hnt)
  apply Cfg.YieldsAll.cons _ .nil
  apply Cfg.Yields.literal hc (u64Constant_hexLiteral c _)

/-- A production that is an argument. -/
theorem conforms_var_of_production (hnt : problem.cfg.head? = some nt) {v : String}
    (hp : .id v ∈ nt.rules) {i : ℕ} (hi : problem.arg v = some i) :
  problem.Conforms env (.var i : ExprIn s)
  := by
  obtain ⟨hlt, hv, -⟩ := List.findIdx?_eq_some_iff_getElem.mp hi
  have hget : problem.args[i] = v := of_decide_eq_true hv
  use .id v
  constructor
  · simp [ExprIn.written, hlt, hget]
  · apply Language.of_production hnt hp
    apply Cfg.Yields.argument
    rw [← hget]
    apply List.getElem_mem

/-- A production that is a literal. -/
theorem conforms_const_of_production (hnt : problem.cfg.head? = some nt) {v : String}
    (hp : .const v ∈ nt.rules) {c : BitVec 64} (hc : u64Constant v (.const v) = .ok c) :
  problem.Conforms env (.const c : ExprIn s)
  := by
  use .const (hexLiteral c), rfl
  apply Language.of_production hnt hp
  apply Cfg.Yields.literal hc (u64Constant_hexLiteral c _)

end Conforms

end SynthProblem

end DryadSynth
