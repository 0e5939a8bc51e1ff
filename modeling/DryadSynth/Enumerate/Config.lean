import DryadSynth.Parse.Problem

/-!
# Enumeration rules

The rules of `enumerate/config.rs` and their extraction from the productions of the start
symbol.
-/

namespace DryadSynth

/-- `Rule`: an atom, an operator, a defined function, a shift by a constant, or an
expression that was suggested, with the size it is enumerated at. -/
inductive Rule where
  | var (i : ℕ)
  | const (c : BitVec 64)
  | fop1 (i : ℕ)
  | fop2 (i : ℕ)
  | chatGPT (e : OwnedExpr) (size : ℕ)
  | lshrC (c : BitVec 64)
  | ashrC (c : BitVec 64)
  | shlC (c : BitVec 64)
  | not
  | neg
  | add
  | xor
  | and
  | or
  | sub
  | mul
  | udiv
  | lshr
  | shl
  | sdiv
  | urem
  | srem
  | ashr
  | ite
  deriving DecidableEq, Repr

namespace Rule

/-- `Rule::is_shift`. -/
def isShift : Rule → Bool
  | .shl | .ashr | .lshr => true
  | _ => false

end Rule

/-- The cases of `generate_op!`, with the constructor and the vector operator as one
operator. -/
inductive Generate where
  | op1 (o : UnOp)
  | op1Constant (o : BinOp) (c : BitVec 64)
  | op2Sym (o : BinOp)
  | op2 (o : BinOp)
  | op2Nonzero (o : BinOp)
  | var (id : ℕ)
  | chatgpt (e : OwnedExpr) (v : ℕ)
  | const (v : BitVec 64)
  | ite
  | panic

/-- `generate_rules_matching!`.  There are eight operators for the defined functions of each
arity, and a rule for another one is a panic. -/
def Rule.generate : Rule → Generate
  | .not => .op1 .not
  | .neg => .op1 .neg
  | .lshrC v => .op1Constant .lshr v
  | .ashrC v => .op1Constant .ashr v
  | .chatGPT e v => .chatgpt e v
  | .shlC v => .op1Constant .shl v
  | .add => .op2Sym .add
  | .xor => .op2Sym .xor
  | .and => .op2Sym .and
  | .or => .op2Sym .or
  | .mul => .op2Sym .mul
  | .sub => .op2 .sub
  | .udiv => .op2Nonzero .udiv
  | .lshr => .op2 .lshr
  | .shl => .op2 .shl
  | .sdiv => .op2Nonzero .sdiv
  | .urem => .op2Nonzero .urem
  | .srem => .op2Nonzero .srem
  | .ashr => .op2 .ashr
  | .var id => .var id
  | .fop1 id => if h : id < 8 then .op1 (.fop1 ⟨id, h⟩) else .panic
  | .fop2 id => if h : id < 8 then .op2Nonzero (.fop2 ⟨id, h⟩) else .panic
  | .const value => .const value
  | .ite => .ite

/-- `Config`: the rules in the order of the productions. -/
abbrev Config : Type := List Rule

/-- The productions with one non-terminal that have a rule of their own. -/
def Rule.ofUnary : String → Option Rule
  | "bvnot" => some .not
  | "bvneg" => some .neg
  | "ehad" => some (.lshrC 1)
  | "arba" => some (.lshrC 4)
  | "shesh" => some (.lshrC 16)
  | _ => none

/-- The productions with two non-terminals that have a rule of their own. -/
def Rule.ofBinary : String → Option Rule
  | "bvadd" => some .add
  | "bvxor" => some .xor
  | "bvand" => some .and
  | "bvor" => some .or
  | "bvsub" => some .sub
  | "bvmul" => some .mul
  | "bvudiv" => some .udiv
  | "bvsdiv" => some .sdiv
  | "bvurem" => some .urem
  | "bvsrem" => some .srem
  | "bvashr" => some .ashr
  | "bvlshr" => some .lshr
  | "bvshl" => some .shl
  | _ => none

namespace Config

/-- The check that a non-terminal of a production is the start symbol `name`. -/
def checkStart (name nt : String) : Parse Unit :=
  if nt = name then .ok ()
  else newCustomErrorSpan "Enumeration: Only Start Non-Terminal is accepted." (.id nt)

/-- The rules that one production of the start symbol `name` adds. -/
def ofProduction (env : Environ) (problem : SynthProblem) (name : String) :
    SExpr → Parse (List Rule)
  | .id v =>
      match problem.arg v with
      | some id => .ok [.var id]
      | none => newCustomErrorSpan "Enumeration: Unknowned variable." (.id v)
  | .const v => do
      let c ← u64Constant v (.const v)
      .ok [.const c]
  | .list l => do
      match ← SExpr.call (.list l) with
      | some (n, [.id nt₁]) => do
          checkStart name nt₁
          match Rule.ofUnary n with
          | some rule => .ok [rule]
          | none =>
              match env.lookup n 1 with
              | some a => .ok [.fop1 a]
              | none => newCustomErrorSpan "Unknown Symbol." (.id nt₁)
      | some (n, [.id nt₁, .id nt₂]) => do
          checkStart name nt₁
          checkStart name nt₂
          match Rule.ofBinary n with
          | some rule => .ok [rule]
          | none =>
              match env.lookup n 2 with
              | some a => .ok [.fop2 a]
              | none => newCustomErrorSpan "Unknown Symbol." (.id nt₁)
      | some ("bvlshr", [.id nt₁, .const v]) => do
          checkStart name nt₁
          let _ ← u64Constant v (.const v)
          -- the constant is read, but no rule is pushed
          .ok []
      | some ("bvshl", [.id nt₁, .const v]) => do
          checkStart name nt₁
          let c ← u64Constant v (.const v)
          .ok [.shlC c]
      | some ("smol", [.id nt₁, .const _]) => do
          checkStart name nt₁
          .ok [.shlC 1]
      | some ("ite", _) => .ok [.ite]
      | _ => .ok []

/-- `Config::from_problem`. -/
def fromProblem (env : Environ) (problem : SynthProblem) : Parse Config :=
  match problem.cfg.head? with
  | some nt => do
      let rules ← nt.rules.mapM (ofProduction env problem nt.name)
      .ok (problem.chatgptExprs.map (fun e => .chatGPT e 1) ++ rules.flatten)
  | none => newCustomErrorSpan "Enumeration: Need a Start Non-Terminal." problem.span

/-! ### The rules of a production -/

section Production

variable (env : Environ) (problem : SynthProblem) (name : String)

/-- The productions that are read without an error, and the rules they add. -/
inductive Production : SExpr → List Rule → Prop
  | var {v id} (h : problem.arg v = some id) : Production (.id v) [.var id]
  | const {v c} (h : u64Constant v (.const v) = .ok c) : Production (.const v) [.const c]
  | unary {n rule} (h : Rule.ofUnary n = some rule) :
      Production (.list [.id n, .id name]) [rule]
  | fop1 {n a} (h : Rule.ofUnary n = none) (ha : env.lookup n 1 = some a) :
      Production (.list [.id n, .id name]) [.fop1 a]
  | binary {n rule} (h : Rule.ofBinary n = some rule) :
      Production (.list [.id n, .id name, .id name]) [rule]
  | fop2 {n a} (h : Rule.ofBinary n = none) (ha : env.lookup n 2 = some a) :
      Production (.list [.id n, .id name, .id name]) [.fop2 a]
  | bvlshr {v c} (h : u64Constant v (.const v) = .ok c) :
      Production (.list [.id "bvlshr", .id name, .const v]) []
  | bvshl {v c} (h : u64Constant v (.const v) = .ok c) :
      Production (.list [.id "bvshl", .id name, .const v]) [.shlC c]
  | smol {v} : Production (.list [.id "smol", .id name, .const v]) [.shlC 1]
  | ite {l} : Production (.list (.id "ite" :: l)) [.ite]
  | skip {l} : Production (.list l) []

variable {env problem name}

theorem checkStart_eq_ok {nt : String} {u : Unit} :
  checkStart name nt = .ok u ↔ nt = name
  := by
  rw [checkStart]
  split_ifs with h
  · simp [h]
  · simp [h, newCustomErrorSpan]

theorem production_of_ofProduction {e : SExpr} {rules : List Rule}
    (h : ofProduction env problem name e = .ok rules) :
  Production env problem name e rules
  := by
  cases e with
  | id v =>
      simp only [ofProduction] at h
      split at h
      next id hid =>
        cases h
        apply Production.var hid
      next => cases h
  | const v =>
      simp only [ofProduction, bind_eq_ok] at h
      obtain ⟨c, hc, h⟩ := h
      cases h
      apply Production.const hc
  | list l =>
      simp only [ofProduction, bind_eq_ok] at h
      obtain ⟨r, hcall, h⟩ := h
      split at h
      next n nt₁ =>
        simp only [bind_eq_ok, checkStart_eq_ok] at h
        obtain ⟨-, rfl, h⟩ := h
        rw [SExpr.call_eq_some hcall]
        split at h
        next rule hrule =>
          cases h
          apply Production.unary hrule
        next hrule =>
          split at h
          next a ha =>
            cases h
            apply Production.fop1 hrule ha
          next => cases h
      next n nt₁ nt₂ =>
        simp only [bind_eq_ok, checkStart_eq_ok] at h
        obtain ⟨-, rfl, -, rfl, h⟩ := h
        rw [SExpr.call_eq_some hcall]
        split at h
        next rule hrule =>
          cases h
          apply Production.binary hrule
        next hrule =>
          split at h
          next a ha =>
            cases h
            apply Production.fop2 hrule ha
          next => cases h
      next nt₁ v =>
        simp only [bind_eq_ok, checkStart_eq_ok] at h
        obtain ⟨-, rfl, c, hc, h⟩ := h
        rw [SExpr.call_eq_some hcall]
        cases h
        apply Production.bvlshr hc
      next nt₁ v =>
        simp only [bind_eq_ok, checkStart_eq_ok] at h
        obtain ⟨-, rfl, c, hc, h⟩ := h
        rw [SExpr.call_eq_some hcall]
        cases h
        apply Production.bvshl hc
      next nt₁ v =>
        simp only [bind_eq_ok, checkStart_eq_ok] at h
        obtain ⟨-, rfl, h⟩ := h
        rw [SExpr.call_eq_some hcall]
        cases h
        apply Production.smol
      next =>
        rw [SExpr.call_eq_some hcall]
        cases h
        apply Production.ite
      next =>
        cases h
        apply Production.skip

/-- The results of a traversal are those of its elements. -/
theorem exists_of_mapM_eq_ok {α β ε : Type} {f : α → Except ε β} {l : List α} {l' : List β}
    (h : l.mapM f = .ok l') {b : β} (hb : b ∈ l') :
  ∃ a ∈ l, f a = .ok b
  := by
  induction l generalizing l' with
  | nil =>
      cases h
      cases hb
  | cons a l ih =>
      simp only [List.mapM_cons, bind_eq_ok] at h
      obtain ⟨b', hb', l'', hl, h⟩ := h
      cases h
      rcases List.mem_cons.mp hb with rfl | hb
      · use a, List.mem_cons_self
      · obtain ⟨a', ha', hfa⟩ := ih hl hb
        use a', List.mem_cons_of_mem a ha'

/-- Every rule of a configuration is a suggested expression or comes from a production of the
start symbol. -/
theorem mem_fromProblem {config : Config} (h : fromProblem env problem = .ok config)
    {rule : Rule} (hrule : rule ∈ config) :
  (∃ e ∈ problem.chatgptExprs, rule = .chatGPT e 1)
    ∨ ∃ nt, problem.cfg.head? = some nt ∧ ∃ p ∈ nt.rules, ∃ rules,
      Production env problem nt.name p rules ∧ rule ∈ rules
  := by
  rw [fromProblem] at h
  split at h
  next nt hnt =>
    simp only [bind_eq_ok] at h
    obtain ⟨rules, hrules, h⟩ := h
    cases h
    rcases List.mem_append.mp hrule with hrule | hrule
    · left
      obtain ⟨e, he, rfl⟩ := List.mem_map.mp hrule
      use e, he
    · right
      obtain ⟨l, hl, hrule⟩ := List.mem_flatten.mp hrule
      obtain ⟨p, hp, hpl⟩ := exists_of_mapM_eq_ok hrules hl
      use nt, hnt, p, hp, l, production_of_ofProduction hpl
  next => cases h

/-- The variables of a configuration are arguments. -/
theorem lt_of_var_mem {config : Config} (h : fromProblem env problem = .ok config) {i : ℕ}
    (hi : .var i ∈ config) :
  i < problem.args.length
  := by
  rcases mem_fromProblem h hi with ⟨e, -, hrule⟩ | ⟨nt, -, p, -, rules, hp, hrule⟩
  · cases hrule
  · cases hp with
    | var hid =>
        cases List.mem_singleton.mp hrule
        apply (List.findIdx?_eq_some_iff_findIdx_eq.mp hid).1
    | unary hn =>
        rw [← List.mem_singleton.mp hrule] at hn
        unfold Rule.ofUnary at hn
        split at hn <;> cases hn
    | binary hn =>
        rw [← List.mem_singleton.mp hrule] at hn
        unfold Rule.ofBinary at hn
        split at hn <;> cases hn
    | const | fop1 | fop2 | bvshl | smol | ite => cases List.mem_singleton.mp hrule
    | bvlshr | skip => cases hrule

end Production

end Config

end DryadSynth
