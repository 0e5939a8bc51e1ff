import DryadSynth.Library.Least
import DryadSynth.Parse.Panics

/-!
# The translation of a grammar

`Config::from_problem` turns each production of the start symbol into a rule.  A grammar
generates the s-expressions that its productions derive, whose values are those of
`from_sexpr` and `eval` with the defined functions called by their names.  A configuration
generates the expressions that its rules build.

A production is translated faithfully when it adds one rule, and the rule makes the same
values of the values of the operands.  When every production is, the two generate the same
values.
-/

namespace DryadSynth

open Outcomes SExpr

/-- The value of an expression on the arguments of the function. -/
abbrev ArgValue : Type := List (BitVec 64) → Except Fault (BitVec 64)

namespace ArgValue

/-- The value of an operator of one operand. -/
def un (f : BitVec 64 → Except Fault (BitVec 64)) (v₁ : ArgValue) : ArgValue := fun args => do
  let a ← v₁ args
  f a

/-- The value of an operator of two operands. -/
def bin (f : BitVec 64 → BitVec 64 → Except Fault (BitVec 64)) (v₁ v₂ : ArgValue) : ArgValue :=
  fun args => do
    let a ← v₁ args
    let b ← v₂ args
    f a b

/-- The value of an `ite`. -/
def ite (v₁ v₂ v₃ : ArgValue) : ArgValue := fun args => do
  let a ← v₁ args
  let b ← v₂ args
  let c ← v₃ args
  .ok (op.ite a b c)

/-- The value of a constant. -/
def const (c : BitVec 64) : ArgValue := fun _ => .ok c

/-- The value of an argument. -/
def var (i : ℕ) : ArgValue := fun args =>
  match args[i]? with
  | some v => .ok v
  | none => .error .panic

end ArgValue

/-! ### The values of s-expressions -/

/-- The operator of arity one of an SMT-LIB name. -/
def UnOp.ofSmt (n : String) : Option UnOp :=
  [UnOp.not, .neg].find? fun o => o.smtName = n

/-- The operator of arity two of an SMT-LIB name. -/
def BinOp.ofSmt (n : String) : Option BinOp :=
  [BinOp.add, .xor, .and, .or, .mul, .sub, .lshr, .ashr, .shl, .udiv, .urem, .sdiv,
    .srem].find? fun o => o.smtName = n

namespace Environ

/-- The calls of the defined functions. -/
def calls (env : Environ) : Funs := env.funs env.stack

/-- What a name of one operand computes: an operator, or a defined function, which is called
as `op::fop1` calls it. -/
def unary (env : Environ) (n : String) : Option (BitVec 64 → Except Fault (BitVec 64)) :=
  match UnOp.ofSmt n with
  | some o => some (o.eval env.calls)
  | none => (env.lookup n 1).map fun i a => unwrap (env.calls.fop1 i a)

/-- What a name of two operands computes: an operator, a defined function, or an equality. -/
def binary (env : Environ) (n : String) :
    Option (BitVec 64 → BitVec 64 → Except Fault (BitVec 64)) :=
  match BinOp.ofSmt n with
  | some o => some (o.eval env.calls)
  | none =>
      match env.lookup n 2 with
      | some i => some (env.calls.fop2 i)
      | none => if n = "=" then some fun a b => .ok (op.xor a b) else none

/-- The value of a call from those of the operands. -/
def call (env : Environ) (n : String) : List ArgValue → Option ArgValue
  | [v₁] => (env.unary n).map fun f => .un f v₁
  | [v₁, v₂] => (env.binary n).map fun f => .bin f v₁ v₂
  | [v₁, v₂, v₃] => if n = "ite" then some (.ite v₁ v₂ v₃) else none
  | _ => none

end Environ

namespace SExpr

mutual

/-- The value of an s-expression over the names of the arguments. -/
def value (env : Environ) (names : List String) : SExpr → Option ArgValue
  | .id v => (names.findIdx? fun x => x = v).map .var
  | .const c =>
      match constant c.toList with
      | some ([], a) => some (.const a)
      | _ => none
  | .list (.id n :: ops) => (values env names ops).bind (env.call n)
  | .list _ => none

/-- The values of a list of s-expressions. -/
def values (env : Environ) (names : List String) : List SExpr → Option (List ArgValue)
  | [] => some []
  | s :: l =>
      match value env names s, values env names l with
      | some v, some vs => some (v :: vs)
      | _, _ => none

end

end SExpr

/-! ### What a grammar generates -/

namespace Cfg

/-- `Cfg::nt`: the first non-terminal of a name. -/
def nt (cfg : Cfg) (name : String) : Option NonTerminal := cfg.find? fun nt => nt.name = name

/-- The s-expressions that a production derives. -/
inductive Derives (cfg : Cfg) : SExpr → SExpr → Prop
  | nonTerminal {v nt p t} (hnt : cfg.nt v = some nt) (hp : p ∈ nt.rules) (h : Derives cfg p t) :
      Derives cfg (.id v) t
  | id {v} (hv : cfg.nt v = none) : Derives cfg (.id v) (.id v)
  | const {c} : Derives cfg (.const c) (.const c)
  | call {n l l'} (hlen : l.length = l'.length) (h : ∀ p ∈ l.zip l', Derives cfg p.1 p.2) :
      Derives cfg (.list (.id n :: l)) (.list (.id n :: l'))

/-- The values of the s-expressions that a non-terminal generates. -/
def Generates (cfg : Cfg) (env : Environ) (names : List String) (v : String) : Set ArgValue :=
  {x | ∃ nt, cfg.nt v = some nt ∧ ∃ p ∈ nt.rules, ∃ t, cfg.Derives p t ∧ t.value env names = some x}

mutual

/-- The values of a production, from those of each non-terminal in it. -/
def productionValues (cfg : Cfg) (env : Environ) (names : List String)
    (A : String → Set ArgValue) : SExpr → Set ArgValue
  | .id v =>
      if (cfg.nt v).isSome then A v else {x | SExpr.value env names (.id v) = some x}
  | .const c => {x | SExpr.value env names (.const c) = some x}
  | .list (.id n :: ops) =>
      {x | ∃ vs ∈ operandValues cfg env names A ops, env.call n vs = some x}
  | .list _ => ∅

/-- The values of the operands of a production. -/
def operandValues (cfg : Cfg) (env : Environ) (names : List String)
    (A : String → Set ArgValue) : List SExpr → Set (List ArgValue)
  | [] => {[]}
  | s :: l => {vs | ∃ v ∈ productionValues cfg env names A s,
      ∃ vs' ∈ operandValues cfg env names A l, vs = v :: vs'}

end

end Cfg

/-! ### What a configuration generates -/

/-- The values that a rule makes of those of its operands. -/
def Rule.values (env : Environ) (S : Set ArgValue) (r : Rule) : Set ArgValue :=
  match r.generate with
  | .op1 o => {x | ∃ v ∈ S, x = .un (o.eval env.calls) v}
  | .op1Constant o c => {x | ∃ v ∈ S, x = .bin (o.eval env.calls) v (.const c)}
  | .op2Sym o | .op2 o | .op2Nonzero o =>
      {x | ∃ v₁ ∈ S, ∃ v₂ ∈ S, x = .bin (o.eval env.calls) v₁ v₂}
  | .var i => {.var i}
  | .chatgpt e _ => {fun args => e.eval env args}
  | .const c => {.const c}
  | .ite => {x | ∃ v₁ ∈ S, ∃ v₂ ∈ S, ∃ v₃ ∈ S, x = .ite v₁ v₂ v₃}
  | .panic => ∅

namespace Config

/-- The expressions that the rules of a configuration build. -/
inductive Builds (config : Config) : OwnedExpr → Prop
  | op1 {r o e} (hr : r ∈ config) (hg : r.generate = .op1 o) (h : Builds config e) :
      Builds config (.un o e)
  | op1Constant {r o c e} (hr : r ∈ config) (hg : r.generate = .op1Constant o c)
      (h : Builds config e) : Builds config (.bin o e (.const c))
  | op2 {r o e₁ e₂} (hr : r ∈ config)
      (hg : r.generate = .op2Sym o ∨ r.generate = .op2 o ∨ r.generate = .op2Nonzero o)
      (h₁ : Builds config e₁) (h₂ : Builds config e₂) : Builds config (.bin o e₁ e₂)
  | var {r i} (hr : r ∈ config) (hg : r.generate = .var i) : Builds config (.var i)
  | chatgpt {r e v} (hr : r ∈ config) (hg : r.generate = .chatgpt e v) : Builds config e
  | const {r c} (hr : r ∈ config) (hg : r.generate = .const c) : Builds config (.const c)
  | ite {r e₁ e₂ e₃} (hr : r ∈ config) (hg : r.generate = .ite) (h₁ : Builds config e₁)
      (h₂ : Builds config e₂) (h₃ : Builds config e₃) : Builds config (.ite e₁ e₂ e₃)

/-- The values of the expressions that a configuration generates. -/
def Generates (config : Config) (env : Environ) : Set ArgValue :=
  {x | ∃ e, config.Builds e ∧ x = fun args => e.eval env args}

end Config

/-! ### Least solutions -/

namespace Cfg

variable {cfg : Cfg} {env : Environ} {names : List String}

theorem operandValues_mono {A B : String → Set ArgValue} {l : List SExpr}
    (h : ∀ s ∈ l, cfg.productionValues env names A s ⊆ cfg.productionValues env names B s) :
  cfg.operandValues env names A l ⊆ cfg.operandValues env names B l
  := by
  induction l with
  | nil =>
      rw [operandValues, operandValues]
  | cons s l ih =>
      rintro vs ⟨v, hv, vs', hvs', rfl⟩
      use v, h s List.mem_cons_self hv, vs'
      use ih (fun t ht => h t (List.mem_cons_of_mem s ht)) hvs'

theorem productionValues_mono {A B : String → Set ArgValue} (h : A ≤ B) (p : SExpr) :
  cfg.productionValues env names A p ⊆ cfg.productionValues env names B p
  := by
  induction p using SExpr.ind with
  | id v =>
      rw [productionValues, productionValues]
      split_ifs
      · apply h v
      · rfl
  | const c => rw [productionValues, productionValues]
  | list l ih =>
      unfold productionValues
      split
      next heq => cases heq
      next heq => cases heq
      next n ops heq =>
        cases heq
        rintro x ⟨vs, hvs, hx⟩
        use vs, operandValues_mono (fun s hs => ih s (List.mem_cons_of_mem _ hs)) hvs
      next => rfl

variable (cfg env names) in
/-- What the productions make of the values of the non-terminals. -/
def step : (String → Set ArgValue) →o (String → Set ArgValue) where
  toFun A v := {x | ∃ nt, cfg.nt v = some nt ∧ ∃ p ∈ nt.rules,
    x ∈ cfg.productionValues env names A p}
  monotone' := by
    rintro A B h v x ⟨nt, hnt, p, hp, hx⟩
    use nt, hnt, p, hp, productionValues_mono h p hx

/-- The values of the operands are those of the lists that they derive. -/
theorem mem_operandValues {A : String → Set ArgValue} {l : List SExpr}
    (h : ∀ s ∈ l, ∀ x, x ∈ cfg.productionValues env names A s
      ↔ ∃ t, cfg.Derives s t ∧ t.value env names = some x) (vs : List ArgValue) :
  vs ∈ cfg.operandValues env names A l ↔ ∃ l', l.length = l'.length ∧
    (∀ p ∈ l.zip l', cfg.Derives p.1 p.2) ∧ SExpr.values env names l' = some vs
  := by
  induction l generalizing vs with
  | nil =>
      rw [operandValues]
      constructor
      · rintro rfl
        use []
        simp [SExpr.values]
      · rintro ⟨l', hlen, -, hvs⟩
        rw [List.eq_nil_of_length_eq_zero hlen.symm, SExpr.values] at hvs
        cases hvs
        rfl
  | cons s l ih =>
      have ih := ih fun t ht => h t (List.mem_cons_of_mem s ht)
      constructor
      · rintro ⟨v, hv, vs', hvs', rfl⟩
        obtain ⟨t, ht, hvt⟩ := (h s List.mem_cons_self v).mp hv
        obtain ⟨l', hlen, hl', hvl'⟩ := (ih vs').mp hvs'
        refine ⟨t :: l', by simp [hlen], ?_, by simp [SExpr.values, hvt, hvl']⟩
        intro p hp
        rcases List.mem_cons.mp hp with rfl | hp
        · apply ht
        · apply hl' p hp
      · rintro ⟨_ | ⟨t, l'⟩, hlen, hl', hvs⟩
        · cases hlen
        · rw [SExpr.values] at hvs
          split at hvs
          next v vs' hvt hvl' =>
            cases hvs
            use v, (h s List.mem_cons_self v).mpr ⟨t, hl' (s, t) (by simp), hvt⟩, vs'
            use (ih vs').mpr ⟨l', by simpa using hlen,
              fun p hp => hl' p (List.mem_cons_of_mem _ hp), hvl'⟩
          next => cases hvs

/-- The values of a production over those that the grammar generates are those of the
s-expressions that it derives. -/
theorem mem_productionValues_generates (p : SExpr) (x : ArgValue) :
  x ∈ cfg.productionValues env names (cfg.Generates env names) p
    ↔ ∃ t, cfg.Derives p t ∧ t.value env names = some x
  := by
  induction p using SExpr.ind generalizing x with
  | id v =>
      rw [productionValues]
      constructor
      · split_ifs with hv
        · rintro ⟨nt, hnt, p, hp, t, ht, hx⟩
          use t, .nonTerminal hnt hp ht
        · intro hx
          use .id v, .id (by simpa using hv)
          apply hx
      · rintro ⟨t, ht, hx⟩
        cases ht with
        | @nonTerminal v nt p t hnt hp ht =>
            rw [if_pos (by rw [hnt]; rfl)]
            use nt, hnt, p, hp, t
        | id hv =>
            rw [if_neg (by simp [hv])]
            apply hx
  | const c =>
      rw [productionValues]
      constructor
      · intro hx
        use .const c, .const
        apply hx
      · rintro ⟨t, ht, hx⟩
        cases ht
        apply hx
  | list l ih =>
      rcases (SExpr.list l).call_cases with h | ⟨n, ops, h⟩ | ⟨-, hnot, hne⟩
      · cases h
        constructor
        · rintro ⟨⟩
        · rintro ⟨t, ht, -⟩
          cases ht
      · cases h
        have hops := mem_operandValues fun s hs => ih s (List.mem_cons_of_mem _ hs)
        rw [productionValues]
        constructor
        · rintro ⟨vs, hvs, hx⟩
          obtain ⟨l', hlen, hl', hvl'⟩ := (hops vs).mp hvs
          use .list (.id n :: l'), .call hlen hl'
          rw [SExpr.value, hvl']
          apply hx
        · rintro ⟨t, ht, hx⟩
          cases ht with
          | @call _ _ l' hlen hl' =>
              rw [SExpr.value] at hx
              obtain ⟨vs, hvs, hx⟩ := Option.bind_eq_some_iff.mp hx
              use vs, (hops vs).mpr ⟨l', hlen, hl', hvs⟩
      · constructor
        · intro hx
          unfold productionValues at hx
          split at hx
          next heq => cases heq
          next heq => cases heq
          next n ops heq => exact absurd ⟨n, ops, heq⟩ hnot
          next => cases hx
        · rintro ⟨t, ht, -⟩
          cases ht
          apply absurd ⟨_, _, rfl⟩ hnot

/-- Sets that are closed under the productions have the values of what is derived. -/
theorem mem_of_derives {A : String → Set ArgValue} (hA : cfg.step env names A ≤ A) {p t : SExpr}
    (h : cfg.Derives p t) {x : ArgValue} (hx : t.value env names = some x) :
  x ∈ cfg.productionValues env names A p
  := by
  induction h generalizing x with
  | @nonTerminal v nt p t hnt hp h ih =>
      rw [productionValues, if_pos (by rw [hnt]; rfl)]
      apply hA v
      use nt, hnt, p, hp, ih hx
  | id hv =>
      rw [productionValues, if_neg (by simp [hv])]
      apply hx
  | const =>
      rw [productionValues]
      apply hx
  | @call n l l' hlen h ih =>
      rw [SExpr.value] at hx
      obtain ⟨vs, hvs, hcall⟩ := Option.bind_eq_some_iff.mp hx
      rw [productionValues]
      refine ⟨vs, ?_, hcall⟩
      clear h hx hcall
      induction l generalizing l' vs with
      | nil =>
          rw [List.eq_nil_of_length_eq_zero hlen.symm, SExpr.values] at hvs
          cases hvs
          rfl
      | cons s l ihl =>
          cases l' with
          | nil => cases hlen
          | cons t l' =>
              rw [SExpr.values] at hvs
              split at hvs
              next v vs' hvt hvl' =>
                cases hvs
                use v, ih (s, t) (by simp) hvt, vs'
                use ihl (by simpa using hlen) (fun q hq => ih q (List.mem_cons_of_mem _ hq))
                  vs' hvl'
              next => cases hvs

/-- A grammar generates the least values that are closed under its productions. -/
theorem generates_eq_lfp :
  cfg.Generates env names = OrderHom.lfp (cfg.step env names)
  := by
  apply Least.eq_lfp
  · rintro v x ⟨nt, hnt, p, hp, hx⟩
    obtain ⟨t, ht, hx⟩ := (mem_productionValues_generates p x).mp hx
    use nt, hnt, p, hp, t
  · rintro A hA v x ⟨nt, hnt, p, hp, t, ht, hx⟩
    apply hA v
    use nt, hnt, p, hp, mem_of_derives hA ht hx

end Cfg

namespace Config

variable {config : Config} {env : Environ}

theorem ruleValues_mono {S T : Set ArgValue} (h : S ⊆ T) (r : Rule) :
  r.values env S ⊆ r.values env T
  := by
  unfold Rule.values
  split
  · rintro x ⟨v, hv, rfl⟩
    use v, h hv
  · rintro x ⟨v, hv, rfl⟩
    use v, h hv
  · rintro x ⟨v₁, h₁, v₂, h₂, rfl⟩
    use v₁, h h₁, v₂, h h₂
  · rintro x ⟨v₁, h₁, v₂, h₂, rfl⟩
    use v₁, h h₁, v₂, h h₂
  · rintro x ⟨v₁, h₁, v₂, h₂, rfl⟩
    use v₁, h h₁, v₂, h h₂
  · rfl
  · rfl
  · rfl
  · rintro x ⟨v₁, h₁, v₂, h₂, v₃, h₃, rfl⟩
    use v₁, h h₁, v₂, h h₂, v₃, h h₃
  · rfl

variable (config env) in
/-- What the rules make of a set of values. -/
def step : Set ArgValue →o Set ArgValue where
  toFun S := {x | ∃ r ∈ config, x ∈ r.values env S}
  monotone' := by
    rintro S T h x ⟨r, hr, hx⟩
    use r, hr, ruleValues_mono h r hx

/-- A configuration generates the least values that are closed under its rules. -/
theorem generates_eq_lfp :
  config.Generates env = OrderHom.lfp (config.step env)
  := by
  apply Least.eq_lfp
  · rintro x ⟨r, hr, hx⟩
    rw [Rule.values] at hx
    split at hx
    next o hg =>
      obtain ⟨v, ⟨e, he, rfl⟩, rfl⟩ := hx
      exact ⟨_, .op1 hr hg he, rfl⟩
    next o c hg =>
      obtain ⟨v, ⟨e, he, rfl⟩, rfl⟩ := hx
      exact ⟨_, .op1Constant hr hg he, rfl⟩
    next o hg =>
      obtain ⟨v₁, ⟨e₁, h₁, rfl⟩, v₂, ⟨e₂, h₂, rfl⟩, rfl⟩ := hx
      exact ⟨_, .op2 hr (.inl hg) h₁ h₂, rfl⟩
    next o hg =>
      obtain ⟨v₁, ⟨e₁, h₁, rfl⟩, v₂, ⟨e₂, h₂, rfl⟩, rfl⟩ := hx
      exact ⟨_, .op2 hr (.inr (.inl hg)) h₁ h₂, rfl⟩
    next o hg =>
      obtain ⟨v₁, ⟨e₁, h₁, rfl⟩, v₂, ⟨e₂, h₂, rfl⟩, rfl⟩ := hx
      exact ⟨_, .op2 hr (.inr (.inr hg)) h₁ h₂, rfl⟩
    next i hg =>
      cases hx
      exact ⟨_, .var hr hg, rfl⟩
    next e v hg =>
      cases hx
      exact ⟨_, .chatgpt hr hg, rfl⟩
    next c hg =>
      cases hx
      exact ⟨_, .const hr hg, rfl⟩
    next hg =>
      obtain ⟨v₁, ⟨e₁, h₁, rfl⟩, v₂, ⟨e₂, h₂, rfl⟩, v₃, ⟨e₃, h₃, rfl⟩, rfl⟩ := hx
      exact ⟨_, .ite hr hg h₁ h₂ h₃, rfl⟩
    next hg => cases hx
  · rintro S hS x ⟨e, he, rfl⟩
    induction he with
    | op1 hr hg h ih =>
        apply hS
        refine ⟨_, hr, ?_⟩
        rw [Rule.values, hg]
        exact ⟨_, ih, rfl⟩
    | op1Constant hr hg h ih =>
        apply hS
        refine ⟨_, hr, ?_⟩
        rw [Rule.values, hg]
        exact ⟨_, ih, rfl⟩
    | op2 hr hg h₁ h₂ ih₁ ih₂ =>
        apply hS
        refine ⟨_, hr, ?_⟩
        rw [Rule.values]
        rcases hg with hg | hg | hg <;> rw [hg] <;> exact ⟨_, ih₁, _, ih₂, rfl⟩
    | var hr hg =>
        apply hS
        refine ⟨_, hr, ?_⟩
        rw [Rule.values, hg]
        rfl
    | chatgpt hr hg =>
        apply hS
        refine ⟨_, hr, ?_⟩
        rw [Rule.values, hg]
        rfl
    | const hr hg =>
        apply hS
        refine ⟨_, hr, ?_⟩
        rw [Rule.values, hg]
        rfl
    | ite hr hg h₁ h₂ h₃ ih₁ ih₂ ih₃ =>
        apply hS
        refine ⟨_, hr, ?_⟩
        rw [Rule.values, hg]
        exact ⟨_, ih₁, _, ih₂, _, ih₃, rfl⟩

end Config

/-! ### Faithful translation -/

namespace Config

variable (env : Environ) (problem : SynthProblem) (name : String)

/-- A rule represents a production: on all values of the non-terminals they make the same
values. -/
def Represents (r : Rule) (p : SExpr) : Prop :=
  ∀ A : String → Set ArgValue,
    problem.cfg.productionValues env problem.args A p = r.values env (A name)

/-- A production adds one rule, which represents it. -/
def Represented (p : SExpr) : Prop :=
  ∃ r, ofProduction env problem name p = .ok [r] ∧ Represents env problem name r p

/-- The shifts that `from_problem` takes three names of one operand for. -/
def fixedShift : String → Option (BitVec 64)
  | "ehad" => some 1
  | "arba" => some 4
  | "shesh" => some 16
  | _ => none

/-- The accepted productions that are translated faithfully, with the shapes in the order in
which they are tried.  A shape that adds no rule is not. -/
def Faithful : SExpr → Prop
  | .id v => problem.cfg.nt v = none
  | .const _ => True
  | .list [.id n, .id _] =>
      match fixedShift n with
      | some k => ∃ i, env.lookup n 1 = some i ∧ ∀ a, env.calls.fop1 i a = .ok (op.lshr a k)
      | none => (UnOp.ofSmt n).isSome ∨ ∀ i, env.lookup n 1 = some i → i < 8
  | .list [.id n, .id _, .id _] =>
      (BinOp.ofSmt n).isSome ∨ ∀ i, env.lookup n 2 = some i → i < 8
  | .list [.id "bvlshr", .id _, .const _] => False
  | .list [.id "bvshl", .id _, .const _] => True
  | .list [.id "smol", .id _, .const c] =>
      ∃ i b, env.lookup "smol" 2 = some i ∧ constant c.toList = some ([], b) ∧
        ∀ a, env.calls.fop2 i a b = .ok (op.shl a 1)
  | .list (.id "ite" :: ops) => ∀ A : String → Set ArgValue,
      problem.cfg.productionValues env problem.args A (.list (.id "ite" :: ops))
        = {x | ∃ v₁ ∈ A name, ∃ v₂ ∈ A name, ∃ v₃ ∈ A name, x = .ite v₁ v₂ v₃}
  | .list _ => False

section Production

variable {env : Environ} {problem : SynthProblem} {name : String}

/-! ### Operators and rules of a name -/

/-- The rule of an operator of two operands. -/
theorem ofBinary_of_ofSmt {n : String} {o : BinOp} (h : BinOp.ofSmt n = some o) :
  ∃ r, Rule.ofBinary n = some r ∧
    (r.generate = .op2Sym o ∨ r.generate = .op2 o ∨ r.generate = .op2Nonzero o)
  := by
  have hn : o.smtName = n := by
    have hn := List.find?_some h
    simpa using hn
  have ho := List.mem_of_find?_eq_some h
  subst hn
  fin_cases ho <;> exact ⟨_, rfl, by simp [Rule.generate]⟩

theorem ofBinary_eq_none {n : String} (h : BinOp.ofSmt n = none) :
  Rule.ofBinary n = none
  := by
  unfold Rule.ofBinary
  split <;> first | rfl | exact absurd h (by decide)

theorem ofUnary_cases (n : String) :
  (∃ k, fixedShift n = some k ∧ UnOp.ofSmt n = none ∧ Rule.ofUnary n = some (.lshrC k))
    ∨ (fixedShift n = none ∧ ∃ o r, UnOp.ofSmt n = some o ∧ Rule.ofUnary n = some r ∧
        r.generate = .op1 o)
    ∨ fixedShift n = none ∧ UnOp.ofSmt n = none ∧ Rule.ofUnary n = none
  := by
  unfold Rule.ofUnary
  split
  next => exact .inr (.inl ⟨rfl, .not, .not, rfl, rfl, rfl⟩)
  next => exact .inr (.inl ⟨rfl, .neg, .neg, rfl, rfl, rfl⟩)
  next => exact .inl ⟨1, rfl, rfl, rfl⟩
  next => exact .inl ⟨4, rfl, rfl, rfl⟩
  next => exact .inl ⟨16, rfl, rfl, rfl⟩
  next h₁ h₂ h₃ h₄ h₅ =>
    refine .inr (.inr ⟨?_, ?_, rfl⟩)
    · unfold fixedShift
      split <;> first | rfl | contradiction
    · simp [UnOp.ofSmt, UnOp.smtName, Ne.symm h₁, Ne.symm h₂]

/-! ### The values of the shapes -/

variable {A : String → Set ArgValue} {n : String}

/-- The start symbol is the first non-terminal of its name. -/
theorem nt_name {nt : NonTerminal} (h : problem.cfg.head? = some nt) :
  problem.cfg.nt nt.name = some nt
  := by
  obtain ⟨l, hl⟩ := List.head?_eq_some_iff.mp h
  rw [hl, Cfg.nt, List.find?_cons_of_pos (by simp)]

/-- The start symbol stands for its values. -/
theorem productionValues_name {nt : NonTerminal} (h : problem.cfg.head? = some nt) :
  problem.cfg.productionValues env problem.args A (.id nt.name) = A nt.name
  := by
  rw [Cfg.productionValues, nt_name h]
  rfl

theorem productionValues_un {nt : NonTerminal} (h : problem.cfg.head? = some nt) :
  problem.cfg.productionValues env problem.args A (.list [.id n, .id nt.name])
    = {x | ∃ f, env.unary n = some f ∧ ∃ v ∈ A nt.name, x = .un f v}
  := by
  ext x
  simp only [Cfg.productionValues.eq_3, Cfg.operandValues, productionValues_name h,
    Set.mem_ofPred_eq, Set.mem_singleton_iff]
  constructor
  · rintro ⟨vs, ⟨v, hv, vs', rfl, rfl⟩, hx⟩
    obtain ⟨f, hf, rfl⟩ := Option.map_eq_some_iff.mp hx
    use f, hf, v, hv
  · rintro ⟨f, hf, v, hv, rfl⟩
    use [v], ⟨v, hv, [], rfl, rfl⟩
    rw [Environ.call, hf]
    rfl

theorem productionValues_bin {nt : NonTerminal} (h : problem.cfg.head? = some nt) :
  problem.cfg.productionValues env problem.args A (.list [.id n, .id nt.name, .id nt.name])
    = {x | ∃ f, env.binary n = some f ∧ ∃ v₁ ∈ A nt.name, ∃ v₂ ∈ A nt.name, x = .bin f v₁ v₂}
  := by
  ext x
  simp only [Cfg.productionValues.eq_3, Cfg.operandValues, productionValues_name h,
    Set.mem_ofPred_eq, Set.mem_singleton_iff]
  constructor
  · rintro ⟨vs, ⟨v₁, h₁, vs', ⟨v₂, h₂, vs'', rfl, rfl⟩, rfl⟩, hx⟩
    obtain ⟨f, hf, rfl⟩ := Option.map_eq_some_iff.mp hx
    use f, hf, v₁, h₁, v₂, h₂
  · rintro ⟨f, hf, v₁, h₁, v₂, h₂, rfl⟩
    use [v₁, v₂], ⟨v₁, h₁, [v₂], ⟨v₂, h₂, [], rfl, rfl⟩, rfl⟩
    rw [Environ.call, hf]
    rfl

/-- A production with a constant for its second operand makes the values of an operator of
one operand. -/
theorem productionValues_constant {nt : NonTerminal} (h : problem.cfg.head? = some nt)
    (c : String) :
  problem.cfg.productionValues env problem.args A (.list [.id n, .id nt.name, .const c])
    = {x | ∃ f, (∃ g b, env.binary n = some g ∧ constant c.toList = some ([], b) ∧
        f = fun a => g a b) ∧ ∃ v ∈ A nt.name, x = .un f v}
  := by
  ext x
  have hconst : ∀ v : ArgValue, SExpr.value env problem.args (.const c) = some v
      ↔ ∃ b, constant c.toList = some ([], b) ∧ v = .const b := by
    intro v
    rw [SExpr.value]
    split
    next b hb => simp [hb, eq_comm]
    next hb =>
      constructor
      · rintro ⟨⟩
      · rintro ⟨b, hb', -⟩
        apply absurd hb' (hb b)
  simp only [Cfg.productionValues.eq_3, Cfg.operandValues, productionValues_name h,
    Cfg.productionValues.eq_2, hconst, Set.mem_ofPred_eq, Set.mem_singleton_iff]
  constructor
  · rintro ⟨vs, ⟨v₁, h₁, vs', ⟨v₂, ⟨b, hb, rfl⟩, vs'', rfl, rfl⟩, rfl⟩, hx⟩
    obtain ⟨f, hf, rfl⟩ := Option.map_eq_some_iff.mp hx
    use fun a => f a b, ⟨f, b, hf, hb, rfl⟩, v₁, h₁
    rfl
  · rintro ⟨f, ⟨g, b, hg, hb, rfl⟩, v, hv, rfl⟩
    use [v, .const b], ⟨v, hv, [.const b], ⟨.const b, ⟨b, hb, rfl⟩, [], rfl, rfl⟩, rfl⟩
    rw [Environ.call, hg]
    rfl

/-- A rule of one operand represents a production of one operand exactly when both compute
the same. -/
theorem represents_un {p : SExpr} {r : Rule} {g : BitVec 64 → Except Fault (BitVec 64)}
    {P : (BitVec 64 → Except Fault (BitVec 64)) → Prop}
    (hp : ∀ A, problem.cfg.productionValues env problem.args A p
      = {x | ∃ f, P f ∧ ∃ v ∈ A name, x = .un f v})
    (hP : ∀ f f', P f → P f' → f = f')
    (hr : ∀ S, r.values env S = {x | ∃ v ∈ S, x = .un g v}) :
  Represents env problem name r p ↔ P g
  := by
  constructor
  · intro h
    have hsame : ∀ a, ∃ f, P f ∧ f a = g a := by
      intro a
      have hmem : ArgValue.un g (.const a) ∈ r.values env {ArgValue.const a} := by
        rw [hr]
        use .const a, rfl
      have hA := h fun _ => {ArgValue.const a}
      rw [← hA, hp] at hmem
      obtain ⟨f, hf, v, rfl, hx⟩ := hmem
      use f, hf, (congrFun hx []).symm
    obtain ⟨f, hf, -⟩ := hsame 0
    have hfg : f = g := by
      funext a
      obtain ⟨f', hf', heq⟩ := hsame a
      rw [hP f f' hf hf', heq]
    exact hfg ▸ hf
  · intro h A
    rw [hp, hr]
    ext x
    constructor
    · rintro ⟨f, hf, v, hv, rfl⟩
      use v, hv
      rw [hP f g hf h]
    · rintro ⟨v, hv, rfl⟩
      use g, h, v, hv

theorem represented_of_rule {p : SExpr} {r : Rule}
    (h : ofProduction env problem name p = .ok [r]) :
  Represented env problem name p ↔ Represents env problem name r p
  := by
  simp [Represented, h]

theorem not_represented {p : SExpr} (h : ofProduction env problem name p = .ok []) :
  ¬ Represented env problem name p
  := by
  simp [Represented, h]

/-- A rule that generates nothing does not represent a production with a value. -/
theorem not_represents_of_panic {p : SExpr} {r : Rule} (hr : r.generate = .panic) {x : ArgValue}
    (hx : x ∈ problem.cfg.productionValues env problem.args A p) :
  ¬ Represents env problem name r p
  := by
  intro hrep
  rw [hrep, Rule.values, hr] at hx
  apply hx

theorem represents_unary {nt : NonTerminal} (h : problem.cfg.head? = some nt) {r : Rule}
    {g : BitVec 64 → Except Fault (BitVec 64)}
    (hr : ∀ S, r.values env S = {x | ∃ v ∈ S, x = .un g v}) :
  Represents env problem nt.name r (.list [.id n, .id nt.name]) ↔ env.unary n = some g
  := by
  apply represents_un (P := fun f => env.unary n = some f)
  · intro A
    apply productionValues_un h
  · intro f f' hf hf'
    apply Option.some.inj (hf.symm.trans hf')
  · apply hr

theorem represented_unary {nt : NonTerminal} (h : problem.cfg.head? = some nt) {rules : List Rule}
    (hp : ofProduction env problem nt.name (.list [.id n, .id nt.name]) = .ok rules) :
  Represented env problem nt.name (.list [.id n, .id nt.name])
    ↔ Faithful env problem nt.name (.list [.id n, .id nt.name])
  := by
  have hp' := hp
  simp only [ofProduction, call_list_id, ok_bind, checkStart, if_true] at hp'
  rcases ofUnary_cases n with ⟨k, hk, ho, hrule⟩ | ⟨hk, o, r, ho, hrule, hr⟩ | ⟨hk, ho, hrule⟩
  · rw [hrule] at hp'
    cases hp'
    have hvalues : ∀ S, (Rule.lshrC k).values env S
        = {x | ∃ v ∈ S, x = .un (fun a => .ok (op.lshr a k)) v} := fun S => rfl
    rw [represented_of_rule hp, represents_unary h hvalues, Faithful, hk, Environ.unary, ho]
    simp only [Option.map_eq_some_iff]
    apply exists_congr
    intro i
    apply and_congr_right
    intro _
    rw [funext_iff]
    simp only [unwrap_eq_ok]
  · rw [hrule] at hp'
    cases hp'
    have hvalues : ∀ S, r.values env S = {x | ∃ v ∈ S, x = .un (o.eval env.calls) v} := by
      intro S
      rw [Rule.values, hr]
    rw [represented_of_rule hp, represents_unary h hvalues, Faithful, hk, Environ.unary, ho]
    simp
  · rw [hrule] at hp'
    cases ha : env.lookup n 1 with
    | none =>
        rw [ha] at hp'
        cases hp'
    | some i =>
        rw [ha] at hp'
        cases hp'
        have hun : env.unary n = some fun a => unwrap (env.calls.fop1 i a) := by
          rw [Environ.unary, ho, ha]
          rfl
        rw [represented_of_rule hp, Faithful, hk]
        by_cases hi : i < 8
        · have hvalues : ∀ S, (Rule.fop1 i).values env S
              = {x | ∃ v ∈ S, x = .un (fun a => unwrap (env.calls.fop1 i a)) v} := by
            intro S
            rw [Rule.values, Rule.generate, dif_pos hi]
            rfl
          rw [represents_unary h hvalues, hun]
          simp [ha, hi]
        · have hpanic : (Rule.fop1 i).generate = .panic := by
            rw [Rule.generate, dif_neg hi]
          have hmem : ArgValue.un (fun a => unwrap (env.calls.fop1 i a)) (.const 0)
              ∈ problem.cfg.productionValues env problem.args (fun _ => {ArgValue.const 0})
                (.list [.id n, .id nt.name]) := by
            rw [productionValues_un h]
            exact ⟨_, hun, .const 0, rfl, rfl⟩
          simp [not_represents_of_panic hpanic hmem, ha, ho, hi]

theorem represents_binary {nt : NonTerminal} (h : problem.cfg.head? = some nt) {r : Rule}
    {g : BitVec 64 → BitVec 64 → Except Fault (BitVec 64)}
    (hr : ∀ S, r.values env S = {x | ∃ v₁ ∈ S, ∃ v₂ ∈ S, x = .bin g v₁ v₂})
    (hg : env.binary n = some g) :
  Represents env problem nt.name r (.list [.id n, .id nt.name, .id nt.name])
  := by
  intro A
  rw [productionValues_bin h, hr]
  ext x
  simp [hg]

theorem represented_binary {nt : NonTerminal} (h : problem.cfg.head? = some nt)
    {rules : List Rule}
    (hp : ofProduction env problem nt.name (.list [.id n, .id nt.name, .id nt.name])
      = .ok rules) :
  Represented env problem nt.name (.list [.id n, .id nt.name, .id nt.name])
    ↔ Faithful env problem nt.name (.list [.id n, .id nt.name, .id nt.name])
  := by
  have hp' := hp
  simp only [ofProduction, call_list_id, ok_bind, checkStart, if_true] at hp'
  cases ho : BinOp.ofSmt n with
  | some o =>
      obtain ⟨r, hrule, hr⟩ := ofBinary_of_ofSmt ho
      rw [hrule] at hp'
      cases hp'
      have hvalues : ∀ S, r.values env S
          = {x | ∃ v₁ ∈ S, ∃ v₂ ∈ S, x = .bin (o.eval env.calls) v₁ v₂} := by
        intro S
        rw [Rule.values]
        rcases hr with hr | hr | hr <;> rw [hr]
      have hbin : env.binary n = some (o.eval env.calls) := by
        rw [Environ.binary, ho]
      rw [represented_of_rule hp, Faithful]
      simp [represents_binary h hvalues hbin, ho]
  | none =>
      rw [ofBinary_eq_none ho] at hp'
      cases ha : env.lookup n 2 with
      | none =>
          rw [ha] at hp'
          cases hp'
      | some i =>
          rw [ha] at hp'
          cases hp'
          have hbin : env.binary n = some (env.calls.fop2 i) := by
            rw [Environ.binary, ho, ha]
          rw [represented_of_rule hp, Faithful]
          by_cases hi : i < 8
          · have hvalues : ∀ S, (Rule.fop2 i).values env S
                = {x | ∃ v₁ ∈ S, ∃ v₂ ∈ S, x = .bin (env.calls.fop2 i) v₁ v₂} := by
              intro S
              rw [Rule.values, Rule.generate, dif_pos hi]
              rfl
            simp [represents_binary h hvalues hbin, ha, hi]
          · have hpanic : (Rule.fop2 i).generate = .panic := by
              rw [Rule.generate, dif_neg hi]
            have hmem : ArgValue.bin (env.calls.fop2 i) (.const 0) (.const 0)
                ∈ problem.cfg.productionValues env problem.args (fun _ => {ArgValue.const 0})
                  (.list [.id n, .id nt.name, .id nt.name]) := by
              rw [productionValues_bin h]
              exact ⟨_, hbin, .const 0, rfl, .const 0, rfl, rfl⟩
            simp [not_represents_of_panic hpanic hmem, ha, ho, hi]

/-- A shift by a constant, and a call of `smol` with one. -/
theorem represents_constant {nt : NonTerminal} (h : problem.cfg.head? = some nt) {r : Rule}
    {c : String} {g : BitVec 64 → Except Fault (BitVec 64)}
    (hr : ∀ S, r.values env S = {x | ∃ v ∈ S, x = .un g v}) :
  Represents env problem nt.name r (.list [.id n, .id nt.name, .const c])
    ↔ ∃ f b, env.binary n = some f ∧ constant c.toList = some ([], b) ∧ g = fun a => f a b
  := by
  apply represents_un (P := fun f => ∃ f' b, env.binary n = some f' ∧
    constant c.toList = some ([], b) ∧ f = fun a => f' a b)
  · intro A
    apply productionValues_constant h
  · rintro f f' ⟨g, b, hg, hb, rfl⟩ ⟨g', b', hg', hb', rfl⟩
    cases hg.symm.trans hg'
    cases hb.symm.trans hb'
    rfl
  · apply hr

theorem constant_of_u64Constant {c : String} {span : SExpr} {b : BitVec 64}
    (h : u64Constant c span = .ok b) :
  constant c.toList = some ([], b)
  := by
  rw [u64Constant] at h
  split at h
  next a ha =>
    cases h
    apply ha
  next => cases h
  next => cases h

theorem represented_bvshl {nt : NonTerminal} (h : problem.cfg.head? = some nt) {c : String}
    {rules : List Rule}
    (hp : ofProduction env problem nt.name (.list [.id "bvshl", .id nt.name, .const c])
      = .ok rules) :
  Represented env problem nt.name (.list [.id "bvshl", .id nt.name, .const c])
  := by
  have hp' := hp
  simp only [ofProduction, call_list_id, ok_bind, checkStart, if_true] at hp'
  obtain ⟨b, hb, hp'⟩ := bind_eq_ok.mp hp'
  cases hp'
  have hvalues : ∀ S, (Rule.shlC b).values env S
      = {x | ∃ v ∈ S, x = .un (fun a => .ok (op.shl a b)) v} := fun S => rfl
  rw [represented_of_rule hp, represents_constant h hvalues]
  use BinOp.shl.eval env.calls, b, rfl, constant_of_u64Constant hb
  rfl

theorem represented_smol {nt : NonTerminal} (h : problem.cfg.head? = some nt) {c : String}
    {rules : List Rule}
    (hp : ofProduction env problem nt.name (.list [.id "smol", .id nt.name, .const c])
      = .ok rules) :
  Represented env problem nt.name (.list [.id "smol", .id nt.name, .const c])
    ↔ Faithful env problem nt.name (.list [.id "smol", .id nt.name, .const c])
  := by
  have hp' := hp
  simp only [ofProduction, call_list_id, ok_bind, checkStart, if_true] at hp'
  cases hp'
  have hvalues : ∀ S, (Rule.shlC 1).values env S
      = {x | ∃ v ∈ S, x = .un (fun a => .ok (op.shl a 1)) v} := fun S => rfl
  have hbin : env.binary "smol" = (env.lookup "smol" 2).map env.calls.fop2 := by
    rw [Environ.binary]
    cases env.lookup "smol" 2 <;> rfl
  rw [represented_of_rule hp, represents_constant h hvalues, hbin, Faithful]
  constructor
  · rintro ⟨f, b, hf, hb, heq⟩
    obtain ⟨i, hi, rfl⟩ := Option.map_eq_some_iff.mp hf
    use i, b, hi, hb
    intro a
    apply (congrFun heq a).symm
  · rintro ⟨i, b, hi, hb, heq⟩
    use env.calls.fop2 i, b, by rw [hi]; rfl, hb
    funext a
    rw [heq]

/-- The ite of three start symbols makes the ites of three of its values. -/
theorem faithful_ite {nt : NonTerminal} (h : problem.cfg.head? = some nt) :
  Faithful env problem nt.name
    (.list [.id "ite", .id nt.name, .id nt.name, .id nt.name])
  := by
  intro A
  ext x
  simp only [Cfg.productionValues.eq_3, Cfg.operandValues, productionValues_name h]
  constructor
  · rintro ⟨_, ⟨v₁, h₁, _, ⟨v₂, h₂, _, ⟨v₃, h₃, _, rfl, rfl⟩, rfl⟩, rfl⟩, hx⟩
    cases hx
    exact ⟨v₁, h₁, v₂, h₂, v₃, h₃, rfl⟩
  · rintro ⟨v₁, h₁, v₂, h₂, v₃, h₃, rfl⟩
    exact ⟨_, ⟨v₁, h₁, _, ⟨v₂, h₂, _, ⟨v₃, h₃, _, rfl, rfl⟩, rfl⟩, rfl⟩, rfl⟩

/-- A production is represented exactly when it has a shape that is translated faithfully. -/
theorem represented_iff {nt : NonTerminal} (h : problem.cfg.head? = some nt) {p : SExpr}
    {rules : List Rule} (hp : ofProduction env problem nt.name p = .ok rules) :
  Represented env problem nt.name p ↔ Faithful env problem nt.name p
  := by
  have hp' := hp
  cases p with
  | id v =>
      simp only [ofProduction] at hp'
      split at hp'
      next i hi =>
        cases hp'
        rw [represented_of_rule hp, Faithful]
        have hvalue : SExpr.value env problem.args (.id v) = some (.var i) := by
          rw [SExpr.value]
          rw [SynthProblem.arg] at hi
          rw [hi]
          rfl
        constructor
        · intro hrep
          by_contra hv
          have hmem : ArgValue.var i ∈ (Rule.var i).values env ∅ := rfl
          rw [← hrep fun _ => ∅, Cfg.productionValues,
            if_pos (Option.isSome_iff_ne_none.mpr hv)] at hmem
          apply hmem
        · intro hv A
          rw [Cfg.productionValues, hv, if_neg (by simp), hvalue]
          ext x
          simp [Rule.values, Rule.generate, eq_comm]
      next => cases hp'
  | const c =>
      simp only [ofProduction] at hp'
      obtain ⟨b, hb, hp'⟩ := bind_eq_ok.mp hp'
      cases hp'
      rw [represented_of_rule hp, Faithful, iff_true]
      intro A
      rw [Cfg.productionValues, SExpr.value, constant_of_u64Constant hb]
      ext x
      simp [Rule.values, Rule.generate, eq_comm]
  | list l =>
      rcases (SExpr.list l).call_cases with hl | ⟨n, ops, hl⟩ | ⟨hcall, hnot, hne⟩
      · cases hl
        cases hp'
      · cases hl
        rw [ofProduction, call_list_id, ok_bind] at hp'
        split at hp'
        next n nt' heq =>
          cases heq
          obtain ⟨_, hstart, -⟩ := bind_eq_ok.mp hp'
          cases checkStart_eq_ok.mp hstart
          apply represented_unary h hp
        next n nt₁ nt₂ heq =>
          cases heq
          obtain ⟨_, hstart₁, hp'⟩ := bind_eq_ok.mp hp'
          obtain ⟨_, hstart₂, -⟩ := bind_eq_ok.mp hp'
          cases checkStart_eq_ok.mp hstart₁
          cases checkStart_eq_ok.mp hstart₂
          apply represented_binary h hp
        next nt' c heq =>
          cases heq
          obtain ⟨_, hstart, hp'⟩ := bind_eq_ok.mp hp'
          obtain ⟨b, -, hp'⟩ := bind_eq_ok.mp hp'
          cases hp'
          simp [not_represented hp, Faithful]
        next nt' c heq =>
          cases heq
          obtain ⟨_, hstart, -⟩ := bind_eq_ok.mp hp'
          cases checkStart_eq_ok.mp hstart
          simp [represented_bvshl h hp, Faithful]
        next nt' c heq =>
          cases heq
          obtain ⟨_, hstart, -⟩ := bind_eq_ok.mp hp'
          cases checkStart_eq_ok.mp hstart
          apply represented_smol h hp
        next h₁ h₂ heq =>
          cases heq
          cases hp'
          rw [represented_of_rule hp]
          rw [Faithful]
          · rfl
          · intro s hs
            apply h₁ _ hs
          · intro s t hs
            apply h₂ _ _ hs
        next h₁ h₂ h₃ h₄ h₅ h₆ =>
          cases hp'
          have hfaithful : ¬ Faithful env problem nt.name (.list (.id n :: ops)) := by
            unfold Faithful
            split <;> simp_all
          simp [not_represented hp, hfaithful]
      · have hfaithful : ¬ Faithful env problem nt.name (.list l) := by
          unfold Faithful
          split <;> simp_all [IsCall]
        rw [ofProduction, hcall, ok_bind] at hp'
        cases hp'
        simp [not_represented hp, hfaithful]

/-! ### The whole translation -/

/-- Every element of a traversed list has a result. -/
theorem exists_mem_of_mapM_eq_ok {α β ε : Type} {f : α → Except ε β} {l : List α} {l' : List β}
    (h : l.mapM f = .ok l') {a : α} (ha : a ∈ l) :
  ∃ b ∈ l', f a = .ok b
  := by
  induction l generalizing l' with
  | nil => cases ha
  | cons a' l ih =>
      simp only [List.mapM_cons, bind_eq_ok] at h
      obtain ⟨b, hb, l'', hl, h⟩ := h
      cases h
      rcases List.mem_cons.mp ha with rfl | ha
      · use b, List.mem_cons_self
      · obtain ⟨b', hb', hf⟩ := ih hl ha
        use b', List.mem_cons_of_mem b hb'

/-- The rules of a configuration with no suggested expressions are those that the productions
add. -/
theorem rules_of_fromProblem {config : Config} (h : fromProblem env problem = .ok config)
    (hgpt : problem.chatgptExprs = []) :
  ∃ nt, problem.cfg.head? = some nt ∧
    (∀ p ∈ nt.rules, ∃ rules, ofProduction env problem nt.name p = .ok rules) ∧
    ∀ r, r ∈ config
      ↔ ∃ p ∈ nt.rules, ∃ rules, ofProduction env problem nt.name p = .ok rules ∧ r ∈ rules
  := by
  rw [fromProblem] at h
  split at h
  next nt hnt =>
    obtain ⟨rules, hrules, h⟩ := bind_eq_ok.mp h
    cases h
    refine ⟨nt, hnt, ?_, ?_⟩
    · intro p hp
      obtain ⟨l, -, hl⟩ := exists_mem_of_mapM_eq_ok hrules hp
      use l, hl
    · intro r
      rw [hgpt, List.map_nil, List.nil_append, List.mem_flatten]
      constructor
      · rintro ⟨l, hl, hr⟩
        obtain ⟨p, hp, hpl⟩ := exists_of_mapM_eq_ok hrules hl
        use p, hp, l, hpl
      · rintro ⟨p, hp, l, hpl, hr⟩
        obtain ⟨l', hl', hpl'⟩ := exists_mem_of_mapM_eq_ok hrules hp
        cases hpl.symm.trans hpl'
        use l
  next => cases h

/-- A configuration is that of a grammar: every production adds one rule that represents it,
every rule is added by a production it represents, and both generate the same values. -/
structure Exact (env : Environ) (problem : SynthProblem) (nt : NonTerminal) (config : Config) :
    Prop where
  productions : ∀ p ∈ nt.rules, ∃ r ∈ config,
    ofProduction env problem nt.name p = .ok [r] ∧ Represents env problem nt.name r p
  rules : ∀ r ∈ config, ∃ p ∈ nt.rules,
    ofProduction env problem nt.name p = .ok [r] ∧ Represents env problem nt.name r p
  values : config.Generates env = problem.cfg.Generates env problem.args nt.name

/-- When every rule represents a production and every production is represented, the two make
the same values. -/
theorem generates_eq {nt : NonTerminal} (hnt : problem.cfg.head? = some nt) {config : Config}
    (hproductions : ∀ p ∈ nt.rules, ∃ r ∈ config, Represents env problem nt.name r p)
    (hrules : ∀ r ∈ config, ∃ p ∈ nt.rules, Represents env problem nt.name r p) :
  config.Generates env = problem.cfg.Generates env problem.args nt.name
  := by
  rw [Config.generates_eq_lfp, Cfg.generates_eq_lfp]
  symm
  apply Least.lfp_apply_eq
  intro A
  have hstart := nt_name hnt
  ext x
  constructor
  · rintro ⟨nt', hnt', p, hp, hx⟩
    cases hstart.symm.trans hnt'
    obtain ⟨r, hr, hrep⟩ := hproductions p hp
    use r, hr
    rw [← hrep A]
    apply hx
  · rintro ⟨r, hr, hx⟩
    obtain ⟨p, hp, hrep⟩ := hrules r hr
    use nt, hstart, p, hp
    rw [hrep A]
    apply hx

/-- The translation is exact if and only if every production of the start symbol has a shape
that is translated faithfully. -/
theorem exact_iff {config : Config} (h : fromProblem env problem = .ok config)
    (hgpt : problem.chatgptExprs = []) :
  ∃ nt, problem.cfg.head? = some nt ∧
    (Exact env problem nt config ↔ ∀ p ∈ nt.rules, Faithful env problem nt.name p)
  := by
  obtain ⟨nt, hnt, hok, hmem⟩ := rules_of_fromProblem h hgpt
  refine ⟨nt, hnt, ?_, ?_⟩
  · intro hexact p hp
    obtain ⟨rules, hrules⟩ := hok p hp
    apply (represented_iff hnt hrules).mp
    obtain ⟨r, -, hr⟩ := hexact.productions p hp
    use r
  · intro hfaithful
    have hrep : ∀ p ∈ nt.rules, Represented env problem nt.name p := by
      intro p hp
      obtain ⟨rules, hrules⟩ := hok p hp
      apply (represented_iff hnt hrules).mpr (hfaithful p hp)
    have hproductions : ∀ p ∈ nt.rules, ∃ r ∈ config,
        ofProduction env problem nt.name p = .ok [r] ∧ Represents env problem nt.name r p := by
      intro p hp
      obtain ⟨r, hr, hrp⟩ := hrep p hp
      use r, (hmem r).mpr ⟨p, hp, [r], hr, List.mem_singleton_self r⟩
    have hrules : ∀ r ∈ config, ∃ p ∈ nt.rules,
        ofProduction env problem nt.name p = .ok [r] ∧ Represents env problem nt.name r p := by
      intro r hr
      obtain ⟨p, hp, rules, hrules, hmem⟩ := (hmem r).mp hr
      obtain ⟨r', hr', hrp⟩ := hrep p hp
      cases hrules.symm.trans hr'
      cases List.mem_singleton.mp hmem
      use p, hp
    refine ⟨hproductions, hrules, generates_eq hnt ?_ ?_⟩
    · intro p hp
      obtain ⟨r, hr, -, hrp⟩ := hproductions p hp
      use r, hr
    · intro r hr
      obtain ⟨p, hp, -, hrp⟩ := hrules r hr
      use p, hp

/-- The function of one argument with the grammar of these productions. -/
def oneArgument (rules : List SExpr) : SynthProblem :=
  ⟨"f", ["x"], [⟨"Start", rules⟩], .id "f", [], 64⟩

/-- A grammar of an argument and a shift to the left. -/
theorem exact_iff_bvshl :
  ∃ nt, (oneArgument [.id "x",
      .list [.id "bvshl", .id "Start", .const "#x0000000000000001"]]).cfg.head? = some nt ∧
    (Exact (Environ.new 0) (oneArgument [.id "x",
        .list [.id "bvshl", .id "Start", .const "#x0000000000000001"]]) nt [.var 0, .shlC 1]
      ↔ ∀ p ∈ nt.rules, Faithful (Environ.new 0) (oneArgument [.id "x",
          .list [.id "bvshl", .id "Start", .const "#x0000000000000001"]]) nt.name p)
  := exact_iff (by rfl) rfl

/-- A shift to the right by a constant is read, and its values are lost. -/
theorem bvlshr_lost :
  fromProblem (Environ.new 0) (oneArgument [.id "x",
      .list [.id "bvlshr", .id "Start", .const "#x0000000000000001"]]) = .ok [.var 0] ∧
    Config.Generates [.var 0] (Environ.new 0)
      ≠ (oneArgument [.id "x",
          .list [.id "bvlshr", .id "Start", .const "#x0000000000000001"]]).cfg.Generates
        (Environ.new 0) ["x"] "Start"
  := by
  use rfl
  intro heq
  set cfg := (oneArgument [.id "x",
    .list [.id "bvlshr", .id "Start", .const "#x0000000000000001"]]).cfg with hcfg
  have hstart : cfg.Derives (.id "Start") (.id "x") :=
    .nonTerminal rfl List.mem_cons_self (.id rfl)
  have hshift : cfg.Derives (.list [.id "bvlshr", .id "Start", .const "#x0000000000000001"])
      (.list [.id "bvlshr", .id "x", .const "#x0000000000000001"]) := by
    apply Cfg.Derives.call
    · rfl
    · simp [hstart, Cfg.Derives.const]
  have hmem : ArgValue.bin (BinOp.lshr.eval (Environ.new 0).calls) (.var 0) (.const 1)
      ∈ cfg.Generates (Environ.new 0) ["x"] "Start" :=
    ⟨_, rfl, _, by simp, _, hshift, rfl⟩
  rw [← heq] at hmem
  obtain ⟨e, he, hx⟩ := hmem
  have hvar : e = .var 0 := by
    cases he with
    | op1 hr hg | op1Constant hr hg | op2 hr hg | chatgpt hr hg | const hr hg | ite hr hg =>
        cases List.mem_singleton.mp hr
        simp [Rule.generate] at hg
    | var hr hg =>
        cases List.mem_singleton.mp hr
        cases hg
        rfl
  subst hvar
  have htwo := congrFun hx [2]
  revert htwo
  decide

end Production

end Config

end DryadSynth
