import DryadSynth.Enumerate.Bank

/-!
# Completeness of the enumerator

The vector of every expression over the rules is found by the size that is its cost, unless
a proper sub-expression has the output as its vector.  The rules combine stored pairs, so the
proof replaces operands by stored expressions with the same vectors.
-/

namespace DryadSynth

variable {N : ℕ}

/-! ### Expressions over the rules and their costs -/

/-- The rule for an operator of arity one. -/
def UnOp.rule : UnOp → Rule
  | .not => .not
  | .neg => .neg
  | .fop1 i => .fop1 i

/-- The rule for an operator of arity two. -/
def BinOp.rule : BinOp → Rule
  | .add => .add
  | .xor => .xor
  | .and => .and
  | .or => .or
  | .mul => .mul
  | .sub => .sub
  | .fop2 i => .fop2 i
  | .lshr => .lshr
  | .ashr => .ashr
  | .shl => .shl
  | .udiv => .udiv
  | .urem => .urem
  | .sdiv => .sdiv
  | .srem => .srem

namespace BinOp

/-- The operators whose second operand has to be an atom. -/
def isShift : BinOp → Bool
  | .lshr | .ashr | .shl => true
  | _ => false

/-- The rule for a shift by a constant. -/
def constRule : BinOp → BitVec 64 → Option Rule
  | .lshr, c => some (.lshrC c)
  | .ashr, c => some (.ashrC c)
  | .shl, c => some (.shlC c)
  | _, _ => none

/-- What an operator adds to the costs of its operands; for a shift, to the cost of the
operand that is shifted. -/
def cost : BinOp → ℕ
  | .add | .xor | .and | .or | .mul | .udiv | .fop2 _ => 1
  | .sub => 2
  | .sdiv | .urem | .srem => 4
  | .lshr => 1
  | .shl => 2
  | .ashr => 3

theorem one_le_cost (o : BinOp) : 1 ≤ o.cost := by cases o <;> simp [cost]

end BinOp

/-- The expressions over the rules of `config`, with their costs.  Those of cost one are the
atoms, so the amount of a shift is an atom. -/
inductive Built (config : Config) : ℕ → Expr → Prop
  | var {i} (h : .var i ∈ config) : Built config 1 (.var i)
  | const {c} (h : .const c ∈ config) : Built config 1 (.const c)
  | un {o c₁ e₁} (h : o.rule ∈ config) (h₁ : Built config c₁ e₁) :
      Built config (1 + c₁) (.un o e₁)
  | constShift {o k rule c₁ e₁} (hrule : o.constRule k = some rule) (h : rule ∈ config)
      (h₁ : Built config c₁ e₁) :
      Built config (1 + c₁) (.bin o e₁ (.const k))
  | shift {o c₁ e₁ e₂} (hshift : o.isShift = true) (h : o.rule ∈ config)
      (h₁ : Built config c₁ e₁) (h₂ : Built config 1 e₂) :
      Built config (o.cost + c₁) (.bin o e₁ e₂)
  | bin {o c₁ c₂ e₁ e₂} (hshift : o.isShift = false) (h : o.rule ∈ config)
      (h₁ : Built config c₁ e₁) (h₂ : Built config c₂ e₂) :
      Built config (o.cost + c₁ + c₂) (.bin o e₁ e₂)

/-- On the lanes, no proper sub-expression has the output as its vector, the second operands
of divisions and of defined functions are nonzero, and the defined functions return. -/
structure Regular (env : Environ) (args : List (Bv N)) (output : Bv N) (e : Expr) : Prop where
  proper : ∀ e' ∈ e.proper, e'.evalBv env args ≠ .ok output
  nonzero : ∀ o e₁ e₂ v₂, .bin o e₁ e₂ ∈ e.proper ++ [e] → o.nonzero = true →
    e₂.evalBv env args = .ok v₂ → v₂.anyEq Bv.zeros = false
  fop1 : ∀ i e₁ v₁, .un (.fop1 i) e₁ ∈ e.proper ++ [e] → e₁.evalBv env args = .ok v₁ →
    ∃ v, env.evalUn (.fop1 i) v₁ = .ok v
  fop2 : ∀ i e₁ e₂ v₁ v₂, .bin (.fop2 i) e₁ e₂ ∈ e.proper ++ [e] →
    e₁.evalBv env args = .ok v₁ → e₂.evalBv env args = .ok v₂ →
    ∃ v, env.evalBin (.fop2 i) v₁ v₂ = .ok v

section Regular

variable {env : Environ} {args : List (Bv N)} {output : Bv N}

/-- The condition passes to an operand. -/
theorem Regular.operand {e e₁ : Expr} (h : Regular env args output e)
    (hsub : e₁.proper ++ [e₁] ⊆ e.proper) :
  Regular env args output e₁ ∧ e₁.evalBv env args ≠ .ok output
  := by
  have hself : e₁.proper ++ [e₁] ⊆ e.proper ++ [e] := by
    apply List.Subset.trans hsub (List.subset_append_left _ _)
  constructor
  · constructor
    · intro e' he'
      apply h.proper e' (hsub (List.mem_append_left _ he'))
    · intro o e₁ e₂ v₂ he
      apply h.nonzero o e₁ e₂ v₂ (hself he)
    · intro i e₁ v₁ he
      apply h.fop1 i e₁ v₁ (hself he)
    · intro i e₁ e₂ v₁ v₂ he
      apply h.fop2 i e₁ e₂ v₁ v₂ (hself he)
  · apply h.proper e₁ (hsub (List.mem_append_right _ (List.mem_singleton_self e₁)))

theorem Regular.un {o : UnOp} {e₁ : Expr} (h : Regular env args output (.un o e₁)) :
  Regular env args output e₁ ∧ e₁.evalBv env args ≠ .ok output
  := h.operand (List.Subset.refl _)

theorem Regular.bin₁ {o : BinOp} {e₁ e₂ : Expr} (h : Regular env args output (.bin o e₁ e₂)) :
  Regular env args output e₁ ∧ e₁.evalBv env args ≠ .ok output
  := h.operand (by simp [ExprIn.proper])

theorem Regular.bin₂ {o : BinOp} {e₁ e₂ : Expr} (h : Regular env args output (.bin o e₁ e₂)) :
  Regular env args output e₂ ∧ e₂.evalBv env args ≠ .ok output
  := h.operand (by simp [ExprIn.proper])

/-- The operator at the root returns on the vectors of its operand. -/
theorem Regular.exists_evalUn {o : UnOp} {e₁ : Expr} {v₁ : Bv N}
    (h : Regular env args output (.un o e₁)) (h₁ : e₁.evalBv env args = .ok v₁) :
  ∃ v, env.evalUn o v₁ = .ok v
  := by
  cases o with
  | not => exact ⟨_, rfl⟩
  | neg => exact ⟨_, rfl⟩
  | fop1 i => apply h.fop1 i e₁ v₁ (List.mem_append_right _ (List.mem_singleton_self _)) h₁

/-- The operator at the root returns on the vectors of its operands. -/
theorem Regular.exists_evalBin {o : BinOp} {e₁ e₂ : Expr} {v₁ v₂ : Bv N}
    (h : Regular env args output (.bin o e₁ e₂)) (h₁ : e₁.evalBv env args = .ok v₁)
    (h₂ : e₂.evalBv env args = .ok v₂) :
  ∃ v, env.evalBin o v₁ v₂ = .ok v
  := by
  have hself : .bin o e₁ e₂ ∈ (ExprIn.bin o e₁ e₂).proper ++ [.bin o e₁ e₂] :=
    List.mem_append_right _ (List.mem_singleton_self _)
  by_cases hfop : ∃ i, o = .fop2 i
  · obtain ⟨i, rfl⟩ := hfop
    apply h.fop2 i e₁ e₂ v₁ v₂ hself h₁ h₂
  · apply Environ.exists_evalBin_of_nonzero (not_exists.mp hfop)
    intro hnonzero
    apply h.nonzero o e₁ e₂ v₂ hself hnonzero h₂

end Regular

/-! ### What the rules offer -/

namespace Algo

section Offers

variable {env : Environ} {algo : Algo N} {rule : Rule} {p₁ p₂ : Expr × Bv N} {v : Bv N}

/-- Of two distinct elements, `combinations` has one of the two pairs. -/
theorem mem_combinations {α : Type} {l : List α} {a b : α} (ha : a ∈ l) (hb : b ∈ l) :
  (a, b) ∈ combinations l ∨ (b, a) ∈ combinations l ∨ a = b
  := by
  induction l with
  | nil => cases ha
  | cons c l ih =>
      simp only [combinations, List.mem_append, List.mem_map]
      rcases List.mem_cons.mp ha with rfl | ha'
      · rcases List.mem_cons.mp hb with rfl | hb'
        · right
          right
          rfl
        · left
          left
          use b
      · rcases List.mem_cons.mp hb with rfl | hb'
        · right
          left
          left
          use a
        · rcases ih ha' hb' with h | h | h
          · left
            right
            apply h
          · right
            left
            right
            apply h
          · right
            right
            apply h

theorem insert₂_eq {counted : Bool} {o : BinOp} (h : env.evalBin o p₁.2 p₂.2 = .ok v) :
  insert₂ env counted o p₁ p₂ = .insert counted (.bin o p₁.1 p₂.1) v
  := by
  rw [insert₂, h, Offer.of]

theorem mem_offers (hrule : rule ∈ algo.config) {offer : Offer N}
    (h : offer ∈ algo.generate env rule) :
  offer ∈ algo.offers env
  := List.mem_flatMap.mpr ⟨rule, hrule, h⟩

/-- An atom is offered at size one. -/
theorem mem_offers_const {c : BitVec 64} (hrule : .const c ∈ algo.config)
    (hsize : algo.size = 1) :
  .insert true (.const c) (Bv.splat c) ∈ algo.offers env
  := by
  apply mem_offers hrule
  simp [generate, Rule.generate, const, hsize]

theorem mem_offers_var (env : Environ) {i : ℕ} (hrule : .var i ∈ algo.config)
    (hsize : algo.size = 1) :
  (∃ v, algo.args[i]? = some v ∧ .insert true (.var i) v ∈ algo.offers env)
    ∨ .fault .panic ∈ algo.offers env
  := by
  cases hv : algo.args[i]? with
  | some v =>
      left
      use v, rfl
      apply mem_offers hrule
      simp [generate, Rule.generate, var, hsize, hv]
  | none =>
      right
      apply mem_offers hrule
      simp [generate, Rule.generate, var, hsize, hv]

/-- An operator of arity one is offered one size after its operand. -/
theorem mem_offers_un {o : UnOp} (hrule : o.rule ∈ algo.config)
    (h₁ : p₁ ∈ algo.row (algo.size - 1)) (hv : env.evalUn o p₁.2 = .ok v) :
  .insert true (.un o p₁.1) v ∈ algo.offers env
  := by
  have hgenerate : o.rule.generate = .op1 o := by cases o <;> simp [UnOp.rule, Rule.generate]
  apply mem_offers hrule
  simp only [generate, hgenerate]
  apply List.mem_map.mpr
  use p₁, h₁
  rw [hv, Offer.of]

/-- A shift by a constant is offered one size after its operand. -/
theorem mem_offers_constShift {o : BinOp} {k : BitVec 64} (hconst : o.constRule k = some rule)
    (hrule : rule ∈ algo.config) (h₁ : p₁ ∈ algo.row (algo.size - 1))
    (hv : env.evalBin o p₁.2 (Bv.splat k) = .ok v) :
  .insert true (.bin o p₁.1 (.const k)) v ∈ algo.offers env
  := by
  have hgenerate : rule.generate = .op1Constant o k := by
    cases o <;> simp only [BinOp.constRule, reduceCtorEq, Option.some.injEq] at hconst <;>
      rw [← hconst] <;> rfl
  apply mem_offers hrule
  simp only [generate, hgenerate]
  apply List.mem_map.mpr
  use p₁, h₁
  apply insert₂_eq hv

/-- A shift by an atom is offered as many sizes after its operand as it costs. -/
theorem mem_offers_shift {o : BinOp} (hshift : o.isShift = true) (hrule : o.rule ∈ algo.config)
    (hsize : o.cost < algo.size) (h₁ : p₁ ∈ algo.row (algo.size - o.cost))
    (h₂ : p₂ ∈ algo.row 1) (hatom : isAtom p₂.1 = true)
    (hv : env.evalBin o p₁.2 p₂.2 = .ok v) :
  .insert true (.bin o p₁.1 p₂.1) v ∈ algo.offers env
  := by
  have hgenerate : o.rule.generate = .op2 o := by
    cases o <;> simp [BinOp.isShift] at hshift <;> rfl
  have hrule' : o.rule.isShift = true ∧ shiftSize o.rule = o.cost := by
    cases o <;> simp [BinOp.isShift] at hshift <;> decide
  apply mem_offers hrule
  simp only [generate, hgenerate, op2, hrule'.1, if_true, op2Shift, hrule'.2, gt_iff_lt, hsize]
  apply List.mem_flatMap.mpr
  use p₂, h₂
  rw [if_pos hatom]
  apply List.mem_map.mpr
  use p₁, h₁
  apply insert₂_eq hv

/-- A subtraction is offered two sizes after the sum of the sizes of its operands. -/
theorem mem_offers_sub {i j : ℕ} (hrule : .sub ∈ algo.config) (hsize : algo.size = 2 + i + j)
    (hi : 1 ≤ i) (hj : 1 ≤ j) (h₁ : p₁ ∈ algo.row i) (h₂ : p₂ ∈ algo.row j)
    (hv : env.evalBin .sub p₁.2 p₂.2 = .ok v) :
  .insert true (.bin .sub p₁.1 p₂.1) v ∈ algo.offers env
  := by
  apply mem_offers hrule
  have hrows : .insert true (.bin .sub p₁.1 p₂.1) v ∈ algo.op2Rows env .sub := by
    rw [op2Rows, if_pos (by omega)]
    apply List.mem_flatMap.mpr
    use i
    constructor
    · rw [List.mem_range'_1]
      omega
    · apply List.mem_flatMap.mpr
      use p₂
      constructor
      · rw [show algo.size - 2 - i = j by omega]
        apply h₂
      · apply List.mem_map.mpr
        use p₁, h₁
        apply insert₂_eq hv
  apply List.mem_append_left _ hrows

/-- A division or a defined function is offered as many sizes after the sum of the sizes of
its operands as it costs, unless a lane of the second operand is zero. -/
theorem mem_offers_nonzero {o : BinOp} {i j : ℕ} (ho : o.nonzero = true)
    (hrule : o.rule ∈ algo.config) (hsize : algo.size = o.cost + i + j) (hi : 1 ≤ i)
    (hj : 1 ≤ j) (h₁ : p₁ ∈ algo.row i) (h₂ : p₂ ∈ algo.row j)
    (hzero : p₂.2.anyEq Bv.zeros = false) (hv : env.evalBin o p₁.2 p₂.2 = .ok v) :
  .insert true (.bin o p₁.1 p₂.1) v ∈ algo.offers env
  := by
  have hgenerate : o.rule.generate = .op2Nonzero o := by
    cases o <;> simp [BinOp.nonzero] at ho <;> simp [BinOp.rule, Rule.generate]
  have hcost : divisionSize o.rule = o.cost := by
    cases o <;> simp [BinOp.nonzero] at ho <;> simp [BinOp.rule, divisionSize, BinOp.cost]
  apply mem_offers hrule
  simp only [generate, hgenerate]
  apply List.mem_append_left
  rw [op2NonzeroRows, hcost, if_pos (by omega)]
  apply List.mem_flatMap.mpr
  use i
  constructor
  · rw [List.mem_range'_1]
    omega
  · apply List.mem_flatMap.mpr
    use p₁, h₁
    apply List.mem_flatMap.mpr
    use p₂
    constructor
    · rw [show algo.size - o.cost - i = j by omega]
      apply h₂
    · rw [hzero, insert₂_eq hv]
      apply List.mem_singleton_self

/-- The operators that `generate_op!(op2_sym, ..)` is used for are commutative. -/
theorem evalBin_comm {o : BinOp} (ho : o.rule.generate = .op2Sym o) (v₁ v₂ : Bv N) :
  env.evalBin o v₁ v₂ = env.evalBin o v₂ v₁
  := by
  cases o with
  | add => exact congrArg Except.ok (funext fun i => BitVec.add_comm (v₁ i) (v₂ i))
  | xor => exact congrArg Except.ok (funext fun i => BitVec.xor_comm (v₁ i) (v₂ i))
  | and => exact congrArg Except.ok (funext fun i => BitVec.and_comm (v₁ i) (v₂ i))
  | or => exact congrArg Except.ok (funext fun i => BitVec.or_comm (v₁ i) (v₂ i))
  | mul => exact congrArg Except.ok (funext fun i => BitVec.mul_comm (v₁ i) (v₂ i))
  | _ => simp [BinOp.rule, Rule.generate] at ho

/-- A commutative operator is offered one size after the sum of the sizes of its operands, in
one of the two orders. -/
theorem mem_offers_sym {o : BinOp} {i j : ℕ} (ho : o.rule.generate = .op2Sym o)
    (hrule : o.rule ∈ algo.config) (hsize : algo.size = 1 + i + j) (hi : 1 ≤ i) (hj : 1 ≤ j)
    (h₁ : p₁ ∈ algo.row i) (h₂ : p₂ ∈ algo.row j) (hv : env.evalBin o p₁.2 p₂.2 = .ok v) :
  ∃ e, .insert true e v ∈ algo.offers env
  := by
  have hv' : env.evalBin o p₂.2 p₁.2 = .ok v := by rw [evalBin_comm ho, hv]
  -- the smaller operand comes first
  have hrows : ∀ {i j : ℕ} {p₁ p₂ : Expr × Bv N}, algo.size = 1 + i + j → 1 ≤ i → i < j →
      p₁ ∈ algo.row i → p₂ ∈ algo.row j → env.evalBin o p₁.2 p₂.2 = .ok v →
      .insert true (.bin o p₁.1 p₂.1) v ∈ algo.op2SymRows env o := by
    intro i j p₁ p₂ hsize hi hij h₁ h₂ hv
    apply List.mem_flatMap.mpr
    use i
    constructor
    · rw [List.mem_range'_1]
      omega
    · apply List.mem_flatMap.mpr
      use p₁, h₁
      apply List.mem_map.mpr
      use p₂
      rw [show algo.size - 1 - i = j by omega]
      use h₂
      apply insert₂_eq hv
  have hgen : ∀ offer ∈ algo.op2SymRows env o ++ algo.op2SymMiddle env o,
      offer ∈ algo.offers env := by
    intro offer hoffer
    apply mem_offers hrule
    simp only [generate, ho]
    apply List.mem_append_left _ hoffer
  rcases Nat.lt_trichotomy i j with hij | rfl | hij
  · exact ⟨_, hgen _ (List.mem_append_left _ (hrows hsize hi hij h₁ h₂ hv))⟩
  · have hmiddle : ∀ {p₁ p₂ : Expr × Bv N}, env.evalBin o p₁.2 p₂.2 = .ok v →
        ((p₁, p₂) ∈ combinations (algo.row i) ∨ p₁ = p₂ ∧ p₁ ∈ algo.row i) →
        .insert true (.bin o p₁.1 p₂.1) v ∈ algo.op2SymMiddle env o := by
      intro p₁ p₂ hv h
      rw [op2SymMiddle, if_pos (by omega), show (algo.size - 1) / 2 = i by omega]
      rcases h with h | ⟨rfl, h⟩
      · apply List.mem_append_left
        apply List.mem_map.mpr
        use (p₁, p₂), h
        apply insert₂_eq hv
      · apply List.mem_append_right
        apply List.mem_map.mpr
        use p₁, h
        apply insert₂_eq hv
    rcases mem_combinations h₁ h₂ with h | h | h
    · exact ⟨_, hgen _ (List.mem_append_right _ (hmiddle hv (Or.inl h)))⟩
    · exact ⟨_, hgen _ (List.mem_append_right _ (hmiddle hv' (Or.inl h)))⟩
    · exact ⟨_, hgen _ (List.mem_append_right _ (hmiddle hv (Or.inr ⟨h, h₁⟩)))⟩
  · exact ⟨_, hgen _ (List.mem_append_left _ (hrows (by omega) hj hij h₂ h₁ hv'))⟩

/-- An operator of arity two that is not a shift is offered as many sizes after the sum of the
sizes of its operands as it costs. -/
theorem mem_offers_bin {o : BinOp} {i j : ℕ} (hshift : o.isShift = false)
    (hrule : o.rule ∈ algo.config) (hsize : algo.size = o.cost + i + j) (hi : 1 ≤ i)
    (hj : 1 ≤ j) (h₁ : p₁ ∈ algo.row i) (h₂ : p₂ ∈ algo.row j)
    (hzero : o.nonzero = true → p₂.2.anyEq Bv.zeros = false)
    (hv : env.evalBin o p₁.2 p₂.2 = .ok v) :
  ∃ e, .insert true e v ∈ algo.offers env
  := by
  cases o with
  | add | xor | and | or | mul => apply mem_offers_sym rfl hrule hsize hi hj h₁ h₂ hv
  | sub => exact ⟨_, mem_offers_sub hrule hsize hi hj h₁ h₂ hv⟩
  | fop2 | udiv | urem | sdiv | srem =>
      exact ⟨_, mem_offers_nonzero rfl hrule hsize hi hj h₁ h₂ (hzero rfl) hv⟩
  | lshr | ashr | shl => cases hshift

end Offers

end Algo

/-! ### What a run finds -/

namespace Run

section Found

variable {σ : Type} {env : Environ} {f : Callback σ N} {s s' : Run σ N} {v : Bv N}

/-- The state `s'` comes after `s`: the finished rows, the stored pairs and the calls of `s`
are still there. -/
structure Later (s s' : Run σ N) : Prop where
  config : s'.algo.config = s.algo.config
  args : s'.algo.args = s.algo.args
  rows : s.algo.exprs <+: s'.algo.exprs
  bank : s.bank ⊆ s'.bank
  calls : s.calls ⊆ s'.calls

theorem Later.refl (s : Run σ N) :
  Later s s
  := ⟨rfl, rfl, List.prefix_rfl, List.Subset.refl _, List.Subset.refl _⟩

theorem Later.trans {s₁ s₂ s₃ : Run σ N} (h₁ : Later s₁ s₂) (h₂ : Later s₂ s₃) :
  Later s₁ s₃
  where
    config := by rw [h₂.config, h₁.config]
    args := by rw [h₂.args, h₁.args]
    rows := h₁.rows.trans h₂.rows
    bank := List.Subset.trans h₁.bank h₂.bank
    calls := List.Subset.trans h₁.calls h₂.calls

theorem Later.finish (s : Run σ N) :
  Later s s.finish
  where
    config := rfl
    args := rfl
    rows := List.prefix_append _ _
    bank := by simp
    calls := List.Subset.refl _

/-- An expansion that does not end the run leaves the finished rows alone. -/
theorem later_insert {offer : Offer N} (h : s.insert f offer = .ok s') :
  Later s s' ∧ s'.algo.exprs = s.algo.exprs
  := by
  cases offer with
  | fault fault => cases h
  | insert counted e v =>
      have hfinal := final_insert f s counted e v
      simp only [h, Machine.final] at hfinal
      rcases hfinal with ⟨-, u, rfl | rfl⟩ | ⟨-, u, rfl⟩ | ⟨e', -, rfl⟩
      · constructor
        · constructor <;> simp [log, put, bank]
        · simp [log, put]
      · constructor
        · constructor <;> simp [log, put, push, bank]
        · simp [log, put, push]
      · constructor
        · constructor <;> simp [log, bank]
        · simp [log]
      · constructor
        · constructor <;> simp
        · simp

theorem later_run {l : List (Offer N)} (h : Machine.run (insert f) s l = .ok s') :
  Later s s' ∧ s'.algo.exprs = s.algo.exprs
  := by
  apply Machine.run_rel (R := fun s s' => Later s s' ∧ s'.algo.exprs = s.algo.exprs) _ _ _ h
  · intro s
    use Later.refl s
  · rintro s₁ s₂ s₃ ⟨h₁, hexprs₁⟩ ⟨h₂, hexprs₂⟩
    use h₁.trans h₂
    rw [hexprs₂, hexprs₁]
  · apply fun _ _ _ => later_insert

/-- The map marks the output only, and its other keys are stored. -/
structure Kept (output : Bv N) (s : Run σ N) : Prop where
  stored : ∀ v e, s.algo.map.lookup v = some (some e) → ∃ p ∈ s.bank, p.2 = v
  output : ∀ v, s.algo.map.lookup v = some none → v = output

variable {output : Bv N}

theorem Kept.start (config : Config) (args : List (Bv N)) (dagSize : Bool) (u : σ) :
  Kept output (start (Algo.new config args output dagSize) u)
  := by
  constructor
  · intro v e h
    simp only [Run.start, Algo.new, List.lookup] at h
    split at h <;> simp at h
  · intro v h
    simp only [Run.start, Algo.new, List.lookup] at h
    split at h
    next hv => apply eq_of_beq hv
    next => cases h

theorem Kept.finish (h : Kept output s) :
  Kept output s.finish
  := by
  constructor
  · intro v e hv
    rw [finish_bank]
    apply h.stored v e hv
  · apply h.output

theorem Kept.insert {offer : Offer N} (h : Kept output s) (hs : s.insert f offer = .ok s') :
  Kept output s'
  := by
  have hlater := (later_insert hs).1
  cases offer with
  | fault fault => cases hs
  | insert counted e v =>
      have hmap : (∀ w, s'.algo.map.lookup w = s.algo.map.lookup w)
          ∨ (e, v) ∈ s'.bank ∧ ∀ w, s'.algo.map.lookup w
            = if w = v then some (some e) else s.algo.map.lookup w := by
        have hfinal := final_insert f s counted e v
        simp only [hs, Machine.final] at hfinal
        rcases insert_eq_ok hs with ⟨hv, hmem⟩ | ⟨hv, -⟩ | ⟨e', hv, -⟩ <;>
          simp only [hv, reduceCtorEq, false_and, true_and, exists_false, false_or, or_false,
            Option.some.injEq] at hfinal
        · right
          use hmem
          intro w
          have hput := lookup_put (s := s.tick counted) (e := e) (v := v) w
          rw [tick_map] at hput
          obtain ⟨u, rfl | rfl⟩ := hfinal
          · apply hput
          · apply hput
        · left
          obtain ⟨u, rfl⟩ := hfinal
          intro w
          simp [log]
        · left
          obtain ⟨-, -, rfl⟩ := hfinal
          intro w
          simp
      constructor
      · intro w e' hw
        rcases hmap with hmap | ⟨hmem, hmap⟩
        · rw [hmap] at hw
          obtain ⟨p, hp, hpw⟩ := h.stored w e' hw
          use p, hlater.bank hp
        · rw [hmap] at hw
          split_ifs at hw with hwv
          · use (e, v), hmem, hwv.symm
          · obtain ⟨p, hp, hpw⟩ := h.stored w e' hw
            use p, hlater.bank hp
      · intro w hw
        rcases hmap with hmap | ⟨-, hmap⟩
        · rw [hmap] at hw
          apply h.output w hw
        · rw [hmap] at hw
          split_ifs at hw
          · cases hw
          · apply h.output w hw

/-- The vector is stored, or it is the output and the closure was called with it. -/
def Found (output : Bv N) (s : Run σ N) (v : Bv N) : Prop :=
  (∃ p ∈ s.bank, p.2 = v) ∨ v = output ∧ ∃ c ∈ s.calls, c.value = output

theorem Found.later (h : Found output s v) (hlater : Later s s') :
  Found output s' v
  := by
  rcases h with ⟨p, hp, hpv⟩ | ⟨hv, c, hc, hcv⟩
  · left
    use p, hlater.bank hp
  · right
    use hv, c, hlater.calls hc

/-- What is offered is found. -/
theorem Kept.found_insert {counted : Bool} {e : Expr} (h : Kept output s)
    (hs : s.insert f (.insert counted e v) = .ok s') :
  Found output s' v
  := by
  rcases insert_eq_ok hs with ⟨-, hmem⟩ | ⟨hv, c, hc, hcv⟩ | ⟨e', hv, hbank⟩
  · left
    use (e, v), hmem
  · right
    obtain rfl := h.output v hv
    use rfl, c, hc, hcv
  · left
    rw [hbank]
    apply h.stored v e' hv

/-- Every offer of an iteration is found at its end. -/
theorem Kept.found_run {l : List (Offer N)} {counted : Bool} {e : Expr} (h : Kept output s)
    (hs : Machine.run (Run.insert f) s l = .ok s') (hmem : .insert counted e v ∈ l) :
  Found output s' v
  := by
  apply Machine.run_establishes (Q := Kept output) _ _ _ hmem h hs
  · intro s₁ s₂ offer h₁ h₂
    apply h₁.insert h₂
  · intro s₁ s₂ h₁ h₂
    apply h₁.found_insert h₂
  · intro s₁ s₂ offer h₁ h₂
    apply h₁.later (later_insert h₂).1

/-! ### The rows of a finished run -/

section Rows

variable {config : Config} {args : List (Bv N)} {dagSize : Bool} {u : σ} {k : ℕ}

/-- The state at the head of an iteration. -/
structure Head (config : Config) (args : List (Bv N)) (output : Bv N) (k : ℕ) (s : Run σ N) :
    Prop where
  cur : s.cur = []
  size : s.algo.size = k + 1
  config_eq : s.algo.config = config
  args_eq : s.algo.args = args
  kept : Kept output s

theorem Kept.run {l : List (Offer N)} (h : Kept output s)
    (hs : Machine.run (Run.insert f) s l = .ok s') :
  Kept output s'
  := by
  apply Machine.run_rel (R := fun s s' => Kept output s → Kept output s') _ _ _ hs h
  · intro s h
    apply h
  · intro s₁ s₂ s₃ h₁ h₂ h
    apply h₂ (h₁ h)
  · intro s₁ s₂ offer h₁ h
    apply h.insert h₁

theorem runUntil_head
    (h : runUntil env f (Algo.new config args output dagSize) u k = .ok s) :
  Head config args output k s
  := by
  induction k generalizing s with
  | zero =>
      cases h
      exact ⟨rfl, rfl, rfl, rfl, Kept.start config args dagSize u⟩
  | succ k ih =>
      obtain ⟨s₀, h₀, s₁, h₁, rfl⟩ := Machine.loop_succ_eq_ok.mp h
      have hhead := ih h₀
      obtain ⟨hlater, hexprs⟩ := later_run h₁
      have hsize := hhead.size
      constructor
      · rfl
      · simp only [Run.finish, Algo.size] at hsize ⊢
        rw [List.length_append, hexprs, hsize, List.length_singleton]
      · apply hlater.config.trans hhead.config_eq
      · apply hlater.args.trans hhead.args_eq
      · apply (hhead.kept.run h₁).finish

/-- A later head has the rows of an earlier one. -/
theorem Later.row (h : Later s s') {i : ℕ} (hi : i < s.algo.size) :
  s'.algo.row i = s.algo.row i
  := by
  obtain ⟨rows, hrows⟩ := h.rows
  rw [Algo.row, Algo.row, ← hrows, List.getD_eq_getElem?_getD, List.getD_eq_getElem?_getD,
    List.getElem?_append_left hi]

/-- The vector is in a row up to `n`, or it is the output and the closure was called with
it. -/
def Present (output : Bv N) (s : Run σ N) (n : ℕ) (v : Bv N) : Prop :=
  (∃ i ≤ n, ∃ p ∈ s.algo.row i, p.2 = v) ∨ v = output ∧ ∃ c ∈ s.calls, c.value = output

theorem Present.mono {m n : ℕ} (h : Present output s m v) (hmn : m ≤ n) :
  Present output s n v
  := by
  rcases h with ⟨i, hi, hp⟩ | h
  · left
    use i, hi.trans hmn
  · right
    apply h

/-- At the head of an iteration, what is found is in a finished row. -/
theorem Head.present {k : ℕ} (h : Head config args output k s) (hv : Found output s v) :
  Present output s k v
  := by
  rcases hv with ⟨p, hp, hpv⟩ | hv
  · left
    rw [Run.bank, h.cur, List.append_nil] at hp
    obtain ⟨l, hl, hp⟩ := List.mem_flatten.mp hp
    obtain ⟨i, hi, rfl⟩ := List.getElem_of_mem hl
    have hsize := h.size
    rw [Algo.size] at hsize
    use i, by omega, p
    rw [Algo.row, List.getD_eq_getElem?_getD, List.getElem?_eq_getElem hi]
    use hp
  · right
    apply hv

/-- Iterations relate the states at their heads. -/
theorem later_runUntil {algo : Algo N} {j : ℕ} {s₀ : Run σ N} (hjk : j ≤ k)
    (hj : runUntil env f algo u j = .ok s₀) (hk : runUntil env f algo u k = .ok s) :
  Later s₀ s
  := by
  apply Machine.loop_rel (R := Later) Later.refl _ _ hjk hj hk
  · apply fun _ _ _ => Later.trans
  · intro s₁ s₂ h
    apply (later_run h).1.trans (Later.finish s₂)

/-- The state at the head of the iteration that fills row `n`: its rows are those of the end
of the run, what it offers is present there, and none of its offers is a fault. -/
theorem exists_head
    (h : runUntil env f (Algo.new config args output dagSize) u k = .ok s) {n : ℕ}
    (hn : 1 ≤ n) (hnk : n ≤ k) :
  ∃ algo : Algo N, algo.size = n ∧ algo.config = config ∧ algo.args = args
    ∧ (∀ i < n, algo.row i = s.algo.row i)
    ∧ (∀ {counted e v}, .insert counted e v ∈ algo.offers env → Present output s n v)
    ∧ ∀ {fault}, .fault fault ∉ algo.offers env
  := by
  obtain ⟨j, rfl⟩ := Nat.exists_eq_add_of_le' hn
  obtain ⟨s₂, h₂⟩ := Machine.exists_loop_of_le hnk h
  obtain ⟨s₀, h₀, s₁, h₁, rfl⟩ := Machine.loop_succ_eq_ok.mp h₂
  have hhead₀ := runUntil_head h₀
  have hhead₂ := runUntil_head h₂
  have hlater := later_runUntil hnk h₂ h
  use s₀.algo, hhead₀.size, hhead₀.config_eq, hhead₀.args_eq
  constructor
  · intro i hi
    rw [(later_runUntil (by omega) h₀ h).row (hhead₀.size.symm ▸ hi)]
  · constructor
    · intro counted e v hmem
      have hfound := (hhead₀.kept.found_run h₁ hmem).later (Later.finish s₁)
      rcases hhead₂.present hfound with ⟨i, hi, p, hp, hpv⟩ | ⟨hv, c, hc, hcv⟩
      · left
        use i, hi, p
        rw [hlater.row (by rw [hhead₂.size]; omega)]
        use hp
      · right
        use hv, c, hlater.calls hc
    · intro fault hmem
      obtain ⟨s₃, s₄, hstep⟩ := Machine.exists_of_run_eq_ok hmem h₁
      cases hstep

/-- No expression is stored at size zero. -/
theorem row_zero (h : runUntil env f (Algo.new config args output dagSize) u k = .ok s) :
  s.algo.row 0 = []
  := by
  have hlater := later_runUntil (Nat.zero_le k) rfl h
  apply hlater.row
  apply Nat.zero_lt_one

/-- The pairs of the row under construction were offered. -/
theorem offered_of_mem_cur {l : List (Offer N)} (hcur : s.cur = [])
    (h : Machine.run (Run.insert f) s l = .ok s') :
  ∀ p ∈ s'.cur, ∃ counted, .insert counted p.1 p.2 ∈ l
  := by
  have hfinal : ∀ p ∈ (Machine.final (Machine.run (Run.insert f) s l)).cur,
      ∃ counted, .insert counted p.1 p.2 ∈ l := by
    apply Machine.final_run
      (P := fun s : Run σ N => ∀ p ∈ s.cur, ∃ counted, .insert counted p.1 p.2 ∈ l)
    · intro s hs offer hoffer p hp
      cases offer with
      | fault fault => apply hs p hp
      | insert counted e v =>
          rcases final_insert f s counted e v with ⟨-, u, hu | hu⟩ | ⟨-, u, hu⟩ | ⟨e', -, hu⟩ <;>
            rw [hu] at hp
          · apply hs p (by simpa [log, put] using hp)
          · have hp : p ∈ s.cur ∨ p = (e, v) := by simpa [log, put, push] using hp
            rcases hp with hp | rfl
            · apply hs p hp
            · use counted
          · apply hs p (by simpa [log] using hp)
          · apply hs p (by simpa using hp)
    · simp [hcur]
  rw [h] at hfinal
  apply hfinal

/-- Without suggested expressions, the expressions of size one are atoms. -/
theorem atom_of_mem_row_one (hchatgpt : ∀ e n, .chatGPT e n ∉ config)
    (h : runUntil env f (Algo.new config args output dagSize) u k = .ok s) (hk : 1 ≤ k) :
  ∀ p ∈ s.algo.row 1, Algo.isAtom p.1 = true
  := by
  obtain ⟨s₂, h₂⟩ := Machine.exists_loop_of_le hk h
  obtain ⟨s₀, h₀, s₁, h₁, rfl⟩ := Machine.loop_succ_eq_ok.mp h₂
  cases h₀
  have hrow : s.algo.row 1 = s₁.cur := by
    rw [(later_runUntil hk h₂ h).row (by rw [(runUntil_head h₂).size]; omega)]
    obtain ⟨-, hexprs⟩ := later_run h₁
    simp [Algo.row, Run.finish, hexprs, Run.start, Algo.new]
  intro p hp
  rw [hrow] at hp
  obtain ⟨counted, hoffer⟩ := offered_of_mem_cur rfl h₁ p hp
  obtain ⟨rule, hrule, hoffer⟩ := Algo.exists_rule_of_mem_offers hoffer
  -- nothing is stored yet, so only the atoms are offered
  have hstored : ∀ p : Expr × Bv N,
      ¬(Algo.new config args output dagSize).Stored p := by
    simp [Algo.Stored, Algo.new]
  have hoperand : ∀ p : Expr × Bv N,
      ¬(Algo.new config args output dagSize).Operand env p := by
    rintro p (hp | ⟨p₁, hp, -⟩)
    · apply hstored p hp
    · apply hstored p₁ hp
  generalize hinsert : Offer.insert counted p.1 p.2 = offer at hoffer
  cases hoffer with
  | op1 hgenerate hp₁ => cases hstored _ (Algo.stored_of_mem_row hp₁)
  | op1Constant hgenerate hp₁ => cases hstored _ hp₁
  | op2Sym hgenerate hp₁ hp₂ => cases hoperand _ hp₁
  | op2Shift hgenerate hshift hp₁ hp₂ hatom => cases hstored _ hp₁
  | op2 hgenerate hshift hp₁ hp₂ => cases hoperand _ hp₁
  | op2Nonzero hgenerate hp hzero => cases hstored _ hp.operands.1
  | var hgenerate hv =>
      injection hinsert with _ he
      rw [he]
      rfl
  | varPanic hgenerate hv => cases hinsert
  | chatgpt hgenerate hv =>
      exfalso
      cases rule with
      | chatGPT e n => apply hchatgpt e n hrule
      | fop1 id | fop2 id =>
          simp only [Rule.generate] at hgenerate
          split_ifs at hgenerate
      | _ => cases hgenerate
  | const hgenerate =>
      injection hinsert with _ he
      rw [he]
      rfl
  | panic hgenerate => cases hinsert
  | walk hp₁ hfault => cases hinsert

end Rows

end Found

/-! ### Completeness -/

/-- When `run_until` has finished the sizes up to the cost of an expression over the rules,
a row up to that cost has the vector of the expression, or this vector is the output and the
closure was called with it. -/
theorem enumerates_built {σ : Type} {env : Environ} {config : Config} {args : List (Bv N)}
    {output : Bv N} {dagSize : Bool} {f : Callback σ N} {u : σ} {k : ℕ} {s : Run σ N}
    (hchatgpt : ∀ e n, .chatGPT e n ∉ config)
    (h : runUntil env f (Algo.new config args output dagSize) u k = .ok s) {c : ℕ} {e : Expr}
    (hbuilt : Built config c e) (hregular : Regular env args output e) (hk : c ≤ k) :
  ∃ v, e.evalBv env args = .ok v
    ∧ ((∃ i ≤ c, ∃ p ∈ s.algo.row i, p.2 = v)
      ∨ v = output ∧ ∃ call ∈ s.calls, call.value = output)
  := by
  -- an operand is stored, in a row above zero, since its vector is not the output
  have hstored : ∀ {c₁ : ℕ} {e₁ : Expr}, e₁.evalBv env args ≠ .ok output →
      (∃ v, e₁.evalBv env args = .ok v ∧ Present output s c₁ v) →
      ∃ v, e₁.evalBv env args = .ok v ∧ ∃ i, 1 ≤ i ∧ i ≤ c₁ ∧ ∃ p ∈ s.algo.row i, p.2 = v := by
    rintro c₁ e₁ houtput ⟨v, he₁, ⟨i, hi, p, hp, hpv⟩ | ⟨rfl, -⟩⟩
    · use v, he₁, i
      constructor
      · rw [Nat.one_le_iff_ne_zero]
        rintro rfl
        rw [row_zero h] at hp
        cases hp
      · use hi, p
    · cases houtput he₁
  suffices ∃ v, e.evalBv env args = .ok v ∧ Present output s c v from this
  induction hbuilt with
  | @var i hrule =>
      obtain ⟨algo, hsize, rfl, rfl, -, hpresent, hfault⟩ := exists_head h (le_refl 1) hk
      rcases Algo.mem_offers_var env hrule hsize with ⟨v, hv, hoffer⟩ | hoffer
      · use v, ExprIn.evalBv_var.mpr hv, hpresent hoffer
      · cases hfault hoffer
  | @const c hrule =>
      obtain ⟨algo, hsize, rfl, rfl, -, hpresent, -⟩ := exists_head h (le_refl 1) hk
      exact ⟨_, ExprIn.evalBv_const, hpresent (Algo.mem_offers_const hrule hsize)⟩
  | @un o c₁ e₁ hrule h₁ ih =>
      obtain ⟨hregular₁, houtput₁⟩ := hregular.un
      obtain ⟨v₁, he₁, i, hi, hic, p, hp, rfl⟩ := hstored houtput₁ (ih hregular₁ (by omega))
      obtain ⟨v, hv⟩ := hregular.exists_evalUn he₁
      obtain ⟨algo, hsize, rfl, rfl, hrow, hpresent, -⟩ :=
        exists_head h (show 1 ≤ 1 + i by omega) (by omega)
      use v, ExprIn.evalBv_un.mpr ⟨_, he₁, hv⟩
      have hp : p ∈ algo.row (algo.size - 1) := by
        rw [hsize, show 1 + i - 1 = i by omega, hrow i (by omega)]
        apply hp
      apply (hpresent (Algo.mem_offers_un hrule hp hv)).mono (by omega)
  | @constShift o k' rule c₁ e₁ hconst hrule h₁ ih =>
      obtain ⟨hregular₁, houtput₁⟩ := hregular.bin₁
      obtain ⟨v₁, he₁, i, hi, hic, p, hp, rfl⟩ := hstored houtput₁ (ih hregular₁ (by omega))
      obtain ⟨v, hv⟩ := hregular.exists_evalBin he₁ ExprIn.evalBv_const
      obtain ⟨algo, hsize, rfl, rfl, hrow, hpresent, -⟩ :=
        exists_head h (show 1 ≤ 1 + i by omega) (by omega)
      use v, ExprIn.evalBv_bin.mpr ⟨_, he₁, _, ExprIn.evalBv_const, hv⟩
      have hp : p ∈ algo.row (algo.size - 1) := by
        rw [hsize, show 1 + i - 1 = i by omega, hrow i (by omega)]
        apply hp
      apply (hpresent (Algo.mem_offers_constShift hconst hrule hp hv)).mono (by omega)
  | @shift o c₁ e₁ e₂ hshift hrule h₁ h₂ ih₁ ih₂ =>
      have hcost := o.one_le_cost
      obtain ⟨hregular₁, houtput₁⟩ := hregular.bin₁
      obtain ⟨hregular₂, houtput₂⟩ := hregular.bin₂
      obtain ⟨v₁, he₁, i, hi, hic, p₁, hp₁, rfl⟩ := hstored houtput₁ (ih₁ hregular₁ (by omega))
      obtain ⟨v₂, he₂, j, hj, hjc, p₂, hp₂, rfl⟩ := hstored houtput₂ (ih₂ hregular₂ (by omega))
      obtain rfl : j = 1 := by omega
      have hatom := atom_of_mem_row_one hchatgpt h (by omega) p₂ hp₂
      obtain ⟨v, hv⟩ := hregular.exists_evalBin he₁ he₂
      obtain ⟨algo, hsize, rfl, rfl, hrow, hpresent, -⟩ :=
        exists_head h (show 1 ≤ o.cost + i by omega) (by omega)
      use v, ExprIn.evalBv_bin.mpr ⟨_, he₁, _, he₂, hv⟩
      have hp₁ : p₁ ∈ algo.row (algo.size - o.cost) := by
        rw [hsize, show o.cost + i - o.cost = i by omega, hrow i (by omega)]
        apply hp₁
      have hp₂ : p₂ ∈ algo.row 1 := by
        rw [hrow 1 (by omega)]
        apply hp₂
      apply (hpresent (Algo.mem_offers_shift hshift hrule (by omega) hp₁ hp₂ hatom hv)).mono
      omega
  | @bin o c₁ c₂ e₁ e₂ hshift hrule h₁ h₂ ih₁ ih₂ =>
      have hcost := o.one_le_cost
      obtain ⟨hregular₁, houtput₁⟩ := hregular.bin₁
      obtain ⟨hregular₂, houtput₂⟩ := hregular.bin₂
      obtain ⟨v₁, he₁, i, hi, hic, p₁, hp₁, rfl⟩ := hstored houtput₁ (ih₁ hregular₁ (by omega))
      obtain ⟨v₂, he₂, j, hj, hjc, p₂, hp₂, rfl⟩ := hstored houtput₂ (ih₂ hregular₂ (by omega))
      obtain ⟨v, hv⟩ := hregular.exists_evalBin he₁ he₂
      obtain ⟨algo, hsize, rfl, rfl, hrow, hpresent, -⟩ :=
        exists_head h (show 1 ≤ o.cost + i + j by omega) (by omega)
      use v, ExprIn.evalBv_bin.mpr ⟨_, he₁, _, he₂, hv⟩
      have hp₁ : p₁ ∈ algo.row i := by
        rw [hrow i (by omega)]
        apply hp₁
      have hp₂ : p₂ ∈ algo.row j := by
        rw [hrow j (by omega)]
        apply hp₂
      have hzero : o.nonzero = true → p₂.2.anyEq Bv.zeros = false := by
        intro hnonzero
        apply hregular.nonzero o e₁ e₂ _ _ hnonzero he₂
        apply List.mem_append_right _ (List.mem_singleton_self _)
      obtain ⟨e, hoffer⟩ := Algo.mem_offers_bin hshift hrule hsize hi hj hp₁ hp₂ hzero hv
      apply (hpresent hoffer).mono
      omega

/-- Half of a square. -/
def halfSquare : Expr := .bin .udiv (.bin .mul (.var 0) (.var 0)) (.const 2)

/-- A run of five sizes. -/
def halfSquareRun : Except (Halt × Run Unit 2) (Run Unit 2) :=
  runUntil (Environ.new 0) (fun _ _ _ => pure ())
    (Algo.new [.var 0, .const 2, .mul, .udiv] [![3, 5]] ![9, 9] true) () 5

theorem halfSquare_built : Built [.var 0, .const 2, .mul, .udiv] 5 halfSquare := by
  have hvar : Built [.var 0, .const 2, .mul, .udiv] 1 (.var 0) := Built.var (by decide)
  have hconst : Built [.var 0, .const 2, .mul, .udiv] 1 (.const 2) := Built.const (by decide)
  have hmul : Built [.var 0, .const 2, .mul, .udiv] 3 (.bin .mul (.var 0) (.var 0)) :=
    Built.bin (o := .mul) rfl (by decide) hvar hvar
  apply Built.bin (o := .udiv) rfl (by decide) hmul hconst

theorem halfSquare_regular :
  Regular (Environ.new 0) [![3, 5]] (![9, 9] : Bv 2) halfSquare
  where
    proper := by decide
    nonzero := by
      intro o e₁ e₂ v₂ he ho hv₂
      simp only [halfSquare, ExprIn.proper, List.nil_append, List.cons_append, List.mem_cons,
        List.not_mem_nil, or_false, reduceCtorEq, false_or, ExprIn.bin.injEq] at he
      rcases he with ⟨rfl, -⟩ | ⟨rfl, -, rfl⟩
      · cases ho
      · cases hv₂
        decide
    fop1 := by simp [halfSquare, ExprIn.proper]
    fop2 := by simp [halfSquare, ExprIn.proper]

/-- The run finds the vector of half of a square. -/
theorem enumerates_built_halfSquare :
  ∃ v, halfSquare.evalBv (Environ.new 0) [![3, 5]] = .ok v
    ∧ ((∃ i ≤ 5, ∃ p ∈ (Machine.final halfSquareRun).algo.row i, p.2 = v)
      ∨ v = ![9, 9] ∧ ∃ call ∈ (Machine.final halfSquareRun).calls, call.value = ![9, 9])
  := by
  have hchatgpt : ∀ e n, Rule.chatGPT e n ∉ [.var 0, .const 2, .mul, .udiv] := by simp
  have h : halfSquareRun = .ok (Machine.final halfSquareRun) := rfl
  apply enumerates_built hchatgpt h halfSquare_built halfSquare_regular (le_refl 5)

end Run

end DryadSynth
