import DryadSynth.Enumerate.Bounded
import DryadSynth.Enumerate.Complete

/-!
# The enumerator with stored and regenerated sizes

`enumerate/algo2.rs`.  The expressions of a size below the memory limit are stored.  Beyond the
limit `run_size` calls itself for the sizes of the operands, and generates again what is not
stored.  Every value is found by the size that is the cost of an expression for it.
-/

namespace DryadSynth

variable {N : ℕ}

/-- `Algo` of `algo2.rs`, without its bank. -/
structure Algo2 (N : ℕ) where
  config : Config
  args : List (Bv N)
  dagSize : Bool
  memSizeLimit : ℕ
  atomShift : Bool

namespace Algo2

/-- `Algo::new`: the enumerator. -/
def new (config : Config) (args : List (Bv N)) (dagSize : Bool) (memSizeLimit : ℕ) : Algo2 N :=
  ⟨config, args, dagSize, memSizeLimit, true⟩

/-- `Algo::new`: the bank, with an empty row for size zero. -/
def bank (output : Bv N) : Bank ℕ N := ⟨[(0, [])], [(output, none)]⟩

/-! ### The rules -/

section Generate

variable (env : Environ) (algo : Algo2 N)

/-- The calls of the filter by `run_size` for the sizes below the one that is run. -/
abbrev Rows (N : ℕ) : Type := List (List (Item N))

variable (rows : Rows N)

/-- `run_size` for a smaller size. -/
def runSize (i : ℕ) : List (Item N) := rows.getD i []

/-- `generate_op!(op1, ..)`. -/
def op1 (o : UnOp) : List (Item N) :=
  eachCall (runSize rows (rows.length - 1)) fun p₁ => [apply₁ env o p₁]

/-- `generate_op!(op1_constant, ..)`. -/
def op1Constant (o : BinOp) (c : BitVec 64) : List (Item N) :=
  eachCall (runSize rows (rows.length - 1)) fun p₁ => [apply₂ env o p₁ (.const c, Bv.splat c)]

/-- The part of `generate_op!(op2_sym, ..)` for two sizes. -/
def op2SymRows (o : BinOp) : List (Item N) :=
  (List.range' 1 ((rows.length - 1) / 2)).flatMap fun i =>
  eachCall (runSize rows i) fun p₁ =>
  eachCall (runSize rows (rows.length - 1 - i)) fun p₂ => [apply₂ env o p₁ p₂]

/-- The part of `generate_op!(op2_sym, ..)` for an operand and its own sub-expressions. -/
def op2SymDag (o : BinOp) : List (Item N) :=
  if rows.length > 3 && algo.dagSize then
    eachCall (runSize rows (rows.length - 2)) fun p₁ =>
    walkCalls env algo.args p₁.1 (fun p₂ => [apply₂ env o p₁ p₂]) ++ [apply₂ env o p₁ p₁]
  else []

/-- `generate_op!(op2_sym, ..)`. -/
def op2Sym (o : BinOp) : List (Item N) := op2SymRows env rows o ++ algo.op2SymDag env rows o

/-- The part of `generate_op!(op2, ..)` for shifts, whose amounts have size one. -/
def op2Shift (o : BinOp) : List (Item N) :=
  if rows.length > 1 then
    eachCall (runSize rows (rows.length - 1)) fun p₁ =>
    eachCall (runSize rows 1) fun p₂ => [apply₂ env o p₁ p₂]
  else []

/-- The part of `generate_op!(op2, ..)` for two sizes. -/
def op2Rows (o : BinOp) : List (Item N) :=
  if rows.length > 2 then
    (List.range' 1 (rows.length - 2 - 1)).flatMap fun i =>
    eachCall (runSize rows (rows.length - 2 - i)) fun p₁ =>
    eachCall (runSize rows i) fun p₂ => [apply₂ env o p₁ p₂]
  else []

/-- The part of `generate_op!(op2, ..)` for an operand and its own sub-expressions. -/
def op2Dag (o : BinOp) : List (Item N) :=
  if rows.length > 3 && algo.dagSize then
    eachCall (runSize rows (rows.length - 2)) fun p₁ =>
    walkCalls env algo.args p₁.1 (fun p₂ => [apply₂ env o p₁ p₂, apply₂ env o p₂ p₁])
      ++ [apply₂ env o p₁ p₁]
  else []

/-- `generate_op!(op2, ..)`. -/
def op2 (rule : Rule) (o : BinOp) : List (Item N) :=
  if rule.isShift && algo.atomShift then op2Shift env rows o
  else op2Rows env rows o ++ algo.op2Dag env rows o

/-- The part of `generate_op!(op2_nonzero, ..)` for two sizes. -/
def op2NonzeroRows (o : BinOp) : List (Item N) :=
  if rows.length > 3 then
    (List.range' 1 (rows.length - 3 - 1)).flatMap fun i =>
    eachCall (runSize rows i) fun p₁ =>
    eachCall (runSize rows (rows.length - 3 - i)) fun p₂ =>
    if p₂.2.anyEq Bv.zeros then [] else [apply₂ env o p₁ p₂]
  else []

/-- The part of `generate_op!(op2_nonzero, ..)` for an operand and its own sub-expressions. -/
def op2NonzeroDag (o : BinOp) : List (Item N) :=
  if rows.length > 5 && algo.dagSize then
    eachCall (runSize rows (rows.length - 5)) fun p₁ =>
    walkCalls env algo.args p₁.1
        (fun p₂ => if p₂.2.anyEq Bv.zeros then [] else [apply₂ env o p₁ p₂])
      ++ if p₁.2.anyEq Bv.zeros then [] else [apply₂ env o p₁ p₁]
  else []

/-- `generate_op!(op2_nonzero, ..)`. -/
def op2Nonzero (o : BinOp) : List (Item N) :=
  op2NonzeroRows env rows o ++ algo.op2NonzeroDag env rows o

/-- `generate_op!(var, ..)`. -/
def var (id : ℕ) : List (Item N) :=
  if rows.length = 1 then
    match algo.args[id]? with
    | some v => [.ok (.var id, v)]
    | none => [.error .panic]
  else []

/-- `generate_op!(const, ..)`. -/
def const (v : BitVec 64) : List (Item N) :=
  if rows.length = 1 then [.ok (.const v, Bv.splat v)] else []

/-- `generate_op!(chatgpt, ..)`. -/
def chatgpt (e : OwnedExpr) (v : ℕ) : List (Item N) :=
  if rows.length = v then
    let expr : Expr := e.convert
    [(expr.evalBv env algo.args).map fun w => (expr, w)]
  else []

/-- The body of the loop over the rules. -/
def generate (rule : Rule) : List (Item N) :=
  match rule.generate with
  | .op1 o => op1 env rows o
  | .op1Constant o c => op1Constant env rows o c
  | .op2Sym o => algo.op2Sym env rows o
  | .op2 o => algo.op2 env rows rule o
  | .op2Nonzero o => algo.op2Nonzero env rows o
  | .var id => algo.var rows id
  | .chatgpt e v => algo.chatgpt env rows e v
  | .const v => const rows v
  | .ite => []
  | .panic => [.error .panic]

/-- The calls of `try_insert` by `run_size` for the size after those of the rows. -/
def offers : List (Item N) := algo.config.flatMap (algo.generate env rows)

/-- The calls of the filter by `run_size` for the size after those of the rows: the row that is
stored, or what `try_insert` lets pass. -/
def calls (b : Bank ℕ N) : List (Item N) :=
  if rows.length < b.exprs.length then (b.row rows.length).map .ok
  else b.passed (algo.offers env rows)

/-- The calls of the filter by `run_size` for all sizes below `n`. -/
def rowsBelow (b : Bank ℕ N) : ℕ → Rows N
  | 0 => []
  | n + 1 =>
      let rows := rowsBelow b n
      rows ++ [algo.calls env rows b]

end Generate

/-- `Algo::run_until`: the first loop stores the sizes below the limit, the second one does not
store the others. -/
def enumerator (env : Environ) (algo : Algo2 N) : Enumerator ℕ N where
  offers b size := algo.offers env (algo.rowsBelow env b size)
  remembers b _ := b.exprs.length < algo.memSizeLimit
  stores size := size < algo.memSizeLimit

/-- `Algo::run_until` up to the size `k`. -/
def runUntil {σ : Type} (env : Environ) (algo : Algo2 N) (f : Filter ℕ σ N) (output : Bv N)
    (u : σ) (k : ℕ) : Except (Halt × Visit ℕ σ N) (Visit ℕ σ N) :=
  Visit.visitAll (algo.enumerator env) f (Visit.start (bank output) u) (List.range' 1 k)

/-! ### Expressions over the rules and their costs -/

/-- What an operator adds to the costs of its operands; for a shift, to the cost of the operand
that is shifted. -/
def cost : BinOp → ℕ
  | .add | .xor | .and | .or | .mul => 1
  | .sub => 2
  | .udiv | .urem | .sdiv | .srem | .fop2 _ => 3
  | .lshr | .shl | .ashr => 1

theorem one_le_cost (o : BinOp) :
  1 ≤ cost o
  := by
  cases o with
  | _ => simp [cost]

/-- The expressions over the rules of `config`, with their costs.  The amount of a shift has
cost one. -/
inductive Costed (config : Config) : ℕ → Expr → Prop
  | var {i} (h : .var i ∈ config) : Costed config 1 (.var i)
  | const {c} (h : .const c ∈ config) : Costed config 1 (.const c)
  | un {o c₁ e₁} (h : o.rule ∈ config) (h₁ : Costed config c₁ e₁) :
      Costed config (1 + c₁) (.un o e₁)
  | constShift {o k rule c₁ e₁} (hrule : o.constRule k = some rule) (h : rule ∈ config)
      (h₁ : Costed config c₁ e₁) :
      Costed config (1 + c₁) (.bin o e₁ (.const k))
  | shift {o c₁ e₁ e₂} (hshift : o.isShift = true) (h : o.rule ∈ config)
      (h₁ : Costed config c₁ e₁) (h₂ : Costed config 1 e₂) :
      Costed config (1 + c₁) (.bin o e₁ e₂)
  | bin {o c₁ c₂ e₁ e₂} (hshift : o.isShift = false) (h : o.rule ∈ config)
      (h₁ : Costed config c₁ e₁) (h₂ : Costed config c₂ e₂) :
      Costed config (cost o + c₁ + c₂) (.bin o e₁ e₂)

/-! ### What the rules offer -/

section Offers

variable {env : Environ} {algo : Algo2 N} {rows : Rows N} {rule : Rule} {p₁ p₂ : Expr × Bv N}
variable {v : Bv N} {i j : ℕ}

theorem mem_offers (hrule : rule ∈ algo.config) {item : Item N}
    (h : item ∈ algo.generate env rows rule) :
  item ∈ algo.offers env rows
  := List.mem_flatMap.mpr ⟨rule, hrule, h⟩

theorem mem_offers_const {c : BitVec 64} (hrule : .const c ∈ algo.config)
    (hsize : rows.length = 1) :
  .ok (.const c, Bv.splat c) ∈ algo.offers env rows
  := by
  apply mem_offers hrule
  simp [generate, Rule.generate, const, hsize]

theorem mem_offers_var (env : Environ) {i : ℕ} (hrule : .var i ∈ algo.config)
    (hsize : rows.length = 1) :
  (∃ v, algo.args[i]? = some v ∧ .ok (.var i, v) ∈ algo.offers env rows) ∨
    .error .panic ∈ algo.offers env rows
  := by
  cases hv : algo.args[i]? with
  | some v =>
      left
      use v, rfl
      apply mem_offers hrule
      simp [generate, Rule.generate, var, hsize, hv]
  | none =>
      right
      apply mem_offers hrule
      simp [generate, Rule.generate, var, hsize, hv]

/-- An operator of arity one is offered one size after its operand. -/
theorem mem_offers_un {o : UnOp} (hrule : o.rule ∈ algo.config)
    (h₁ : .ok p₁ ∈ runSize rows (rows.length - 1)) (hv : env.evalUn o p₁.2 = .ok v) :
  .ok (.un o p₁.1, v) ∈ algo.offers env rows
  := by
  have hgenerate : o.rule.generate = .op1 o := by cases o <;> simp [UnOp.rule, Rule.generate]
  apply mem_offers hrule
  simp only [generate, hgenerate]
  apply mem_eachCall h₁
  rw [apply₁_eq hv]
  apply List.mem_singleton_self

/-- A shift by a constant is offered one size after its operand. -/
theorem mem_offers_constShift {o : BinOp} {k : BitVec 64} (hconst : o.constRule k = some rule)
    (hrule : rule ∈ algo.config) (h₁ : .ok p₁ ∈ runSize rows (rows.length - 1))
    (hv : env.evalBin o p₁.2 (Bv.splat k) = .ok v) :
  .ok (.bin o p₁.1 (.const k), v) ∈ algo.offers env rows
  := by
  have hgenerate : rule.generate = .op1Constant o k := by
    cases o <;> simp only [BinOp.constRule, reduceCtorEq, Option.some.injEq] at hconst <;>
      rw [← hconst] <;> rfl
  apply mem_offers hrule
  simp only [generate, hgenerate]
  apply mem_eachCall h₁
  have happly : apply₂ env o p₁ (.const k, Bv.splat k) = .ok (.bin o p₁.1 (.const k), v) :=
    apply₂_eq hv
  rw [happly]
  apply List.mem_singleton_self

/-- A shift is offered one size after the operand that is shifted. -/
theorem mem_offers_shift {o : BinOp} (hshift : o.isShift = true) (hrule : o.rule ∈ algo.config)
    (hatom : algo.atomShift = true) (hsize : 1 < rows.length)
    (h₁ : .ok p₁ ∈ runSize rows (rows.length - 1)) (h₂ : .ok p₂ ∈ runSize rows 1)
    (hv : env.evalBin o p₁.2 p₂.2 = .ok v) :
  .ok (.bin o p₁.1 p₂.1, v) ∈ algo.offers env rows
  := by
  have hgenerate : o.rule.generate = .op2 o := by
    cases o <;> simp [BinOp.isShift] at hshift <;> rfl
  have hrule' : o.rule.isShift = true := by
    cases o <;> simp [BinOp.isShift] at hshift <;> rfl
  apply mem_offers hrule
  simp only [generate, hgenerate, op2, hrule', hatom, Bool.and_self, if_true, op2Shift]
  rw [if_pos hsize]
  apply mem_eachCall h₁
  apply mem_eachCall h₂
  rw [apply₂_eq hv]
  apply List.mem_singleton_self

/-- A subtraction is offered two sizes after the sum of the sizes of its operands. -/
theorem mem_offers_sub (hrule : .sub ∈ algo.config) (hsize : rows.length = 2 + i + j)
    (hi : 1 ≤ i) (hj : 1 ≤ j) (h₁ : .ok p₁ ∈ runSize rows i) (h₂ : .ok p₂ ∈ runSize rows j)
    (hv : env.evalBin .sub p₁.2 p₂.2 = .ok v) :
  .ok (.bin .sub p₁.1 p₂.1, v) ∈ algo.offers env rows
  := by
  apply mem_offers hrule
  apply List.mem_append_left
  rw [op2Rows, if_pos (by omega)]
  apply List.mem_flatMap.mpr
  use j
  constructor
  · rw [List.mem_range'_1]
    omega
  · rw [show rows.length - 2 - j = i by omega]
    apply mem_eachCall h₁
    apply mem_eachCall h₂
    rw [apply₂_eq hv]
    apply List.mem_singleton_self

/-- A division or a defined function is offered three sizes after the sum of the sizes of its
operands, unless a lane of the second operand is zero. -/
theorem mem_offers_nonzero {o : BinOp} (ho : o.nonzero = true) (hrule : o.rule ∈ algo.config)
    (hsize : rows.length = 3 + i + j) (hi : 1 ≤ i) (hj : 1 ≤ j)
    (h₁ : .ok p₁ ∈ runSize rows i) (h₂ : .ok p₂ ∈ runSize rows j)
    (hzero : p₂.2.anyEq Bv.zeros = false) (hv : env.evalBin o p₁.2 p₂.2 = .ok v) :
  .ok (.bin o p₁.1 p₂.1, v) ∈ algo.offers env rows
  := by
  have hgenerate : o.rule.generate = .op2Nonzero o := by
    cases o <;> simp [BinOp.nonzero] at ho <;> simp [BinOp.rule, Rule.generate]
  apply mem_offers hrule
  simp only [generate, hgenerate]
  apply List.mem_append_left
  rw [op2NonzeroRows, if_pos (by omega)]
  apply List.mem_flatMap.mpr
  use i
  constructor
  · rw [List.mem_range'_1]
    omega
  · apply mem_eachCall h₁
    rw [show rows.length - 3 - i = j by omega]
    apply mem_eachCall h₂
    rw [hzero, apply₂_eq hv]
    apply List.mem_singleton_self

/-- A commutative operator is offered one size after the sum of the sizes of its operands, in
one of the two orders. -/
theorem mem_offers_sym {o : BinOp} (ho : o.rule.generate = .op2Sym o)
    (hrule : o.rule ∈ algo.config) (hsize : rows.length = 1 + i + j) (hi : 1 ≤ i) (hj : 1 ≤ j)
    (h₁ : .ok p₁ ∈ runSize rows i) (h₂ : .ok p₂ ∈ runSize rows j)
    (hv : env.evalBin o p₁.2 p₂.2 = .ok v) :
  ∃ e, .ok (e, v) ∈ algo.offers env rows
  := by
  -- the smaller operand comes first
  have hordered : ∀ {i j : ℕ} {p₁ p₂ : Expr × Bv N}, rows.length = 1 + i + j → 1 ≤ i → i ≤ j →
      .ok p₁ ∈ runSize rows i → .ok p₂ ∈ runSize rows j → env.evalBin o p₁.2 p₂.2 = .ok v →
      .ok (.bin o p₁.1 p₂.1, v) ∈ algo.offers env rows := by
    intro i j p₁ p₂ hsize hi hij h₁ h₂ hv
    apply mem_offers hrule
    simp only [generate, ho]
    apply List.mem_append_left
    apply List.mem_flatMap.mpr
    use i
    constructor
    · rw [List.mem_range'_1]
      omega
    · apply mem_eachCall h₁
      rw [show rows.length - 1 - i = j by omega]
      apply mem_eachCall h₂
      rw [apply₂_eq hv]
      apply List.mem_singleton_self
  rcases Nat.le_total i j with hij | hij
  · exact ⟨_, hordered hsize hi hij h₁ h₂ hv⟩
  · rw [Algo.evalBin_comm ho] at hv
    exact ⟨_, hordered (by omega) hj hij h₂ h₁ hv⟩

/-- An operator of arity two that is not a shift is offered as many sizes after the sum of the
sizes of its operands as it costs. -/
theorem mem_offers_bin {o : BinOp} (hshift : o.isShift = false) (hrule : o.rule ∈ algo.config)
    (hsize : rows.length = cost o + i + j) (hi : 1 ≤ i) (hj : 1 ≤ j)
    (h₁ : .ok p₁ ∈ runSize rows i) (h₂ : .ok p₂ ∈ runSize rows j)
    (hzero : o.nonzero = true → p₂.2.anyEq Bv.zeros = false)
    (hv : env.evalBin o p₁.2 p₂.2 = .ok v) :
  ∃ e, .ok (e, v) ∈ algo.offers env rows
  := by
  cases o with
  | add | xor | and | or | mul => apply mem_offers_sym rfl hrule hsize hi hj h₁ h₂ hv
  | sub => exact ⟨_, mem_offers_sub hrule hsize hi hj h₁ h₂ hv⟩
  | fop2 | udiv | urem | sdiv | srem =>
      exact ⟨_, mem_offers_nonzero rfl hrule hsize hi hj h₁ h₂ (hzero rfl) hv⟩
  | lshr | ashr | shl => cases hshift

end Offers

/-! ### The rows -/

section Rows

variable {env : Environ} {algo : Algo2 N} {b b' : Bank ℕ N} {i n : ℕ}

/-- The calls of the filter by `run_size` for the size `i`. -/
def callsAt (env : Environ) (algo : Algo2 N) (b : Bank ℕ N) (i : ℕ) : List (Item N) :=
  algo.calls env (algo.rowsBelow env b i) b

theorem length_rowsBelow (n : ℕ) :
  (algo.rowsBelow env b n).length = n
  := by
  induction n with
  | zero => rfl
  | succ n ih => rw [rowsBelow, List.length_append, ih, List.length_singleton]

theorem runSize_rowsBelow (h : i < n) :
  runSize (algo.rowsBelow env b n) i = algo.callsAt env b i
  := by
  induction n with
  | zero => cases h
  | succ n ih =>
      rw [runSize, rowsBelow, List.getD_eq_getElem?_getD]
      rcases Nat.lt_succ_iff_lt_or_eq.mp h with h | rfl
      · rw [List.getElem?_append_left (by rwa [length_rowsBelow]), ← List.getD_eq_getElem?_getD]
        apply ih h
      · rw [List.getElem?_append_right (by rw [length_rowsBelow]), length_rowsBelow, Nat.sub_self]
        rfl

/-- A size below the number of rows is read from its row. -/
theorem callsAt_of_lt (h : i < b.exprs.length) :
  algo.callsAt env b i = (b.row i).map .ok
  := by rw [callsAt, calls, length_rowsBelow, if_pos h]

/-- A size that is not stored is generated again. -/
theorem callsAt_of_le (h : b.exprs.length ≤ i) :
  algo.callsAt env b i = b.passed (algo.offers env (algo.rowsBelow env b i))
  := by rw [callsAt, calls, length_rowsBelow, if_neg h.not_gt]

/-- The rows of two banks that store the same. -/
theorem rowsBelow_congr (hb : n ≤ b.exprs.length) (hb' : n ≤ b'.exprs.length)
    (hrow : ∀ i < n, b.row i = b'.row i) :
  algo.rowsBelow env b n = algo.rowsBelow env b' n
  := by
  induction n with
  | zero => rfl
  | succ n ih =>
      rw [rowsBelow, rowsBelow, ih (by omega) (by omega) fun i hi => hrow i (by omega), calls,
        calls, length_rowsBelow, if_pos (by omega), if_pos (by omega), hrow n (by omega)]

end Rows

/-! ### The run -/

section Run

variable {σ : Type} {env : Environ} {algo : Algo2 N} {f : Filter ℕ σ N} {output : Bv N} {u : σ}
variable {k : ℕ} {s : Visit ℕ σ N}

open Visit

theorem runUntil_succ :
  runUntil env algo f output u (k + 1) = .ok s ↔
    ∃ s₁, runUntil env algo f output u k = .ok s₁ ∧
      visit (algo.enumerator env) f s₁ (k + 1) = .ok s
  := by
  rw [runUntil, visitAll, List.range'_1_concat, Machine.run_append, bind_eq_ok, Nat.add_comm 1 k]
  constructor
  · rintro ⟨s₁, h₁, h⟩
    obtain ⟨s₂, h₂, ⟨⟩⟩ := Machine.run_cons_eq_ok.mp h
    exact ⟨s₁, h₁, h₂⟩
  · rintro ⟨s₁, h₁, h⟩
    exact ⟨s₁, h₁, Machine.run_cons_eq_ok.mpr ⟨s, h, rfl⟩⟩

/-- The state when the sizes up to `k` are finished. -/
structure Head (limit k : ℕ) (s : Visit ℕ σ N) : Prop where
  sound : s.Sound
  kept : s.Kept
  cur : s.cur = []
  keys : s.keys = List.range (min (k + 1) limit)
  row_zero : s.bank.row 0 = []

theorem Head.length (h : Head algo.memSizeLimit k s) :
  s.bank.exprs.length = min (k + 1) algo.memSizeLimit
  := by
  have hlength := congrArg List.length h.keys
  rwa [Visit.keys, List.length_map, List.length_range] at hlength

/-- At the beginning of a visit, `try_insert` remembers what is stored. -/
theorem Head.remembers (h : Head algo.memSizeLimit k s) (b : Bank ℕ N)
    (hb : b.exprs = s.bank.exprs) :
  (algo.enumerator env).remembers b (k + 1) = (algo.enumerator env).stores (k + 1)
  := by
  have hlength := h.length
  simp only [enumerator, hb, hlength]
  apply decide_eq_decide.mpr
  omega

theorem head_start (hlimit : 1 ≤ algo.memSizeLimit) :
  Head algo.memSizeLimit 0 (start (bank output) u)
  where
    sound := by
      have hrow : ∀ q, (bank output : Bank ℕ N).row q = [] := by
        intro q
        rw [Bank.row, bank, List.lookup_cons]
        split
        · rfl
        · rfl
      have hmap : ∀ v e, (bank output : Bank ℕ N).map.lookup v ≠ some (some e) := by
        intro v e h
        rw [bank, List.lookup_cons] at h
        split at h
        · cases h
        · cases h
      constructor
      · intro v e h
        apply absurd h (hmap v e)
      · intro q x hx
        rw [start, hrow q] at hx
        cases hx
      · intro x hx
        cases hx
    kept := by
      intro v e h
      rw [start, bank, List.lookup_cons] at h
      split at h
      · cases h
      · cases h
    cur := rfl
    keys := by rw [Nat.min_eq_left (by omega)]; rfl
    row_zero := rfl

theorem Head.visit {s' : Visit ℕ σ N} (h : Head algo.memSizeLimit k s)
    (hlimit : 1 ≤ algo.memSizeLimit)
    (hvisit : Visit.visit (algo.enumerator env) f s (k + 1) = .ok s') :
  Head algo.memSizeLimit (k + 1) s'
  := by
  have hfresh : k + 1 ∉ s.keys := by
    rw [h.keys, List.mem_range]
    omega
  have hkeys := keys_visit hvisit
  constructor
  · apply h.sound.visit hvisit
  · apply h.kept.visit h.cur hfresh _ hvisit
    intro b hb hr
    rwa [← h.remembers b hb]
  · obtain ⟨s₁, -, rfl⟩ := visit_eq_ok hvisit
    apply cur_finish
  · rw [hkeys, h.keys]
    simp only [enumerator, decide_eq_true_eq]
    split
    · next hlt =>
        rw [Nat.min_eq_left (by omega), Nat.min_eq_left (by omega)]
        apply List.range_succ.symm
    · next hlt =>
        rw [Nat.min_eq_right (by omega), Nat.min_eq_right (by omega), List.append_nil]
  · have hzero : 0 ∈ s.keys := by
      rw [h.keys, List.mem_range]
      omega
    rw [(later_visit hvisit).row hzero, h.row_zero]

theorem head_runUntil (hlimit : 1 ≤ algo.memSizeLimit)
    (h : runUntil env algo f output u k = .ok s) :
  Head algo.memSizeLimit k s
  := by
  induction k generalizing s with
  | zero =>
      cases h
      apply head_start hlimit
  | succ k ih =>
      obtain ⟨s₁, h₁, hvisit⟩ := runUntil_succ.mp h
      apply (ih h₁).visit hlimit hvisit

/-- Beyond the limit the bank stays as it is. -/
theorem Head.bank_visit {s' : Visit ℕ σ N} (h : Head algo.memSizeLimit k s)
    (hk : algo.memSizeLimit ≤ k + 1)
    (hvisit : Visit.visit (algo.enumerator env) f s (k + 1) = .ok s') :
  s'.bank = s.bank
  := by
  have hstores : (algo.enumerator env).stores (k + 1) = false := by
    simp only [enumerator, decide_eq_false_iff_not]
    omega
  apply Visit.bank_visit hstores _ hvisit
  intro b hb
  rw [h.remembers b hb, hstores]

/-- The visit of a size, and the rest of the run. -/
theorem exists_visit_of_le (hlimit : 1 ≤ algo.memSizeLimit)
    (h : runUntil env algo f output u k = .ok s) {i : ℕ} (hi : i + 1 ≤ k) :
  ∃ s₁ s₂, Head algo.memSizeLimit i s₁ ∧ Visit.visit (algo.enumerator env) f s₁ (i + 1) = .ok s₂ ∧
    Later s₂ s ∧ (algo.memSizeLimit ≤ i + 1 → s.bank = s₁.bank)
  := by
  induction k generalizing s with
  | zero => cases hi
  | succ k ih =>
      obtain ⟨s', h', hvisit⟩ := runUntil_succ.mp h
      have hhead := head_runUntil hlimit h'
      rcases Nat.lt_succ_iff_lt_or_eq.mp hi with hi | hi
      · obtain ⟨s₁, s₂, hhead₁, hvisit₁, hlater, hbank⟩ := ih h' hi
        refine ⟨s₁, s₂, hhead₁, hvisit₁, hlater.trans (later_visit hvisit), fun hle => ?_⟩
        rw [hhead.bank_visit (by omega) hvisit, hbank hle]
      · obtain rfl : i = k := by omega
        exact ⟨s', s, hhead, hvisit, Later.refl s, fun hle => hhead.bank_visit hle hvisit⟩

/-- The rows that a visit reads are those of the end of the run. -/
theorem rowsBelow_eq (env : Environ) {s₁ : Visit ℕ σ N} {i : ℕ} (h₁ : Head algo.memSizeLimit i s₁)
    (h : Head algo.memSizeLimit k s) (hi : i + 1 ≤ k) (hlater : Later s₁ s)
    (hbank : algo.memSizeLimit ≤ i + 1 → s.bank = s₁.bank) :
  algo.rowsBelow env s₁.bank (i + 1) = algo.rowsBelow env s.bank (i + 1)
  := by
  rcases Nat.lt_or_ge (i + 1) algo.memSizeLimit with hlt | hge
  · have hlength := h.length
    have hlength₁ := h₁.length
    apply rowsBelow_congr (by omega) (by omega)
    intro j hj
    rw [hlater.row]
    rw [h₁.keys, List.mem_range]
    omega
  · rw [hbank hge]

/-- A vector that is offered at a size is found in the calls of some size up to it. -/
theorem exists_mem_callsAt (hlimit : 1 ≤ algo.memSizeLimit)
    (h : runUntil env algo f output u k = .ok s) {i : ℕ} (hi : 1 ≤ i) (hik : i ≤ k) {e : Expr}
    {v : Bv N} (hmem : .ok (e, v) ∈ algo.offers env (algo.rowsBelow env s.bank i)) :
  ∃ j, 1 ≤ j ∧ j ≤ i ∧ ∃ e', .ok (e', v) ∈ algo.callsAt env s.bank j
  := by
  obtain ⟨i, rfl⟩ := Nat.exists_eq_add_of_le' hi
  have hhead := head_runUntil hlimit h
  have hlength := hhead.length
  obtain ⟨s₁, s₂, hhead₁, hvisit, hlater, hbank⟩ := exists_visit_of_le hlimit h hik
  have hhead₂ := hhead₁.visit hlimit hvisit
  have hrows := rowsBelow_eq env hhead₁ hhead hik ((later_visit hvisit).trans hlater) hbank
  -- a stored vector is in the calls of the size it is stored at
  have hstored : ∀ {s' : Visit ℕ σ N}, Later s' s → s'.bank.row 0 = [] →
      (∀ q ∈ s'.keys, q ≤ i + 1 ∧ q < s.bank.exprs.length) → s'.Stored v →
      ∃ j, 1 ≤ j ∧ j ≤ i + 1 ∧ ∃ e', .ok (e', v) ∈ algo.callsAt env s.bank j := by
    rintro s' hlater' hzero hkeys ⟨q, x, hx, rfl⟩
    obtain ⟨hq, hqlength⟩ := hkeys q (mem_keys_of_mem_row hx)
    have hpos : q ≠ 0 := by
      rintro rfl
      rw [hzero] at hx
      cases hx
    use q, Nat.one_le_iff_ne_zero.mpr hpos, hq, x.1
    rw [callsAt_of_lt hqlength]
    apply List.mem_map_of_mem (hlater'.mem_row hx)
  rcases Nat.lt_or_ge (i + 1) algo.memSizeLimit with hlt | hge
  · have hstores : (algo.enumerator env).stores (i + 1) = true := by simp [enumerator, hlt]
    have hfresh : i + 1 ∉ s₁.keys := by
      rw [hhead₁.keys, List.mem_range]
      omega
    have hkeys : ∀ q ∈ s₂.keys, q ≤ i + 1 ∧ q < s.bank.exprs.length := by
      intro q hq
      rw [hhead₂.keys, List.mem_range] at hq
      omega
    rw [← hrows] at hmem
    apply hstored hlater hhead₂.row_zero hkeys
    rcases mem_row_or_known_of_visit hfresh hstores hvisit hmem with ⟨x, hx, hxv⟩ | ⟨e', hv⟩
    · exact ⟨i + 1, x, hx, hxv⟩
    · rcases hhead₂.kept v e' hv with hv | ⟨x, hx, -⟩
      · apply hv
      · rw [hhead₂.cur] at hx
        cases hx
  · cases hadmits : s.bank.admits v with
    | true =>
        use i + 1, hi, le_refl _, e
        rw [callsAt_of_le (by omega)]
        apply List.mem_filter.mpr ⟨hmem, hadmits⟩
    | false =>
        have hknown : ∃ e', s.bank.map.lookup v = some (some e') := by
          rw [Bank.admits] at hadmits
          split at hadmits
          · cases hadmits
          · cases hadmits
          · next e' hv => exact ⟨e', hv⟩
        obtain ⟨e', hv⟩ := hknown
        apply hstored (Later.refl s) hhead.row_zero
        · intro q hq
          rw [hhead.keys, List.mem_range] at hq
          omega
        · rcases hhead.kept v e' hv with hv | ⟨x, hx, -⟩
          · apply hv
          · rw [hhead.cur] at hx
            cases hx

/-- The closure was called with the vectors of the calls of every size that is finished. -/
theorem called_of_mem_callsAt (hlimit : 1 ≤ algo.memSizeLimit)
    (h : runUntil env algo f output u k = .ok s) {i : ℕ} (hi : 1 ≤ i) (hik : i ≤ k) {e : Expr}
    {v : Bv N} (hmem : .ok (e, v) ∈ algo.callsAt env s.bank i) :
  s.Called v
  := by
  obtain ⟨i, rfl⟩ := Nat.exists_eq_add_of_le' hi
  have hhead := head_runUntil hlimit h
  rcases Nat.lt_or_ge (i + 1) s.bank.exprs.length with hlt | hge
  · rw [callsAt_of_lt hlt] at hmem
    obtain ⟨x, hx, hxe⟩ := List.mem_map.mp hmem
    cases hxe
    apply hhead.sound.rows _ _ hx
  · have hlength := hhead.length
    obtain ⟨s₁, s₂, hhead₁, hvisit, hlater, hbank⟩ := exists_visit_of_le hlimit h hik
    rw [callsAt_of_le hge, hbank (by omega)] at hmem
    apply (hhead₁.sound.called_visit hvisit (List.mem_filter.mp hmem).1).later hlater

/-- No call of `try_insert` for a size that is finished ends the run. -/
theorem error_not_mem_offers (hlimit : 1 ≤ algo.memSizeLimit)
    (h : runUntil env algo f output u k = .ok s) {i : ℕ} (hi : 1 ≤ i) (hik : i ≤ k)
    (fault : Fault) :
  .error fault ∉ algo.offers env (algo.rowsBelow env s.bank i)
  := by
  obtain ⟨i, rfl⟩ := Nat.exists_eq_add_of_le' hi
  obtain ⟨s₁, s₂, hhead₁, hvisit, hlater, hbank⟩ := exists_visit_of_le hlimit h hik
  rw [← rowsBelow_eq env hhead₁ (head_runUntil hlimit h) hik ((later_visit hvisit).trans hlater)
    hbank]
  apply error_not_mem_of_visit hvisit fault

/-! ### Completeness -/

/-- When `run_until` has finished the sizes up to the cost of an expression over the rules, the
closure was called with the vector of the expression, whatever the memory limit is. -/
theorem called_of_costed {config : Config} {args : List (Bv N)} {dagSize : Bool} {limit : ℕ}
    (hlimit : 1 ≤ limit) {c : ℕ} {e : Expr} (hcosted : Costed config c e)
    (hregular : Regular env args output e) (hck : c ≤ k)
    (h : runUntil env (new config args dagSize limit) f output u k = .ok s) :
  ∃ v, e.evalBv env args = .ok v ∧ s.Called v
  := by
  set algo : Algo2 N := new config args dagSize limit with halgo
  have hlimit' : 1 ≤ algo.memSizeLimit := hlimit
  -- a vector that is offered is found
  have hfound : ∀ {i : ℕ}, 1 ≤ i → i ≤ k → ∀ {e : Expr} {v : Bv N},
      .ok (e, v) ∈ algo.offers env (algo.rowsBelow env s.bank i) →
      ∃ j, 1 ≤ j ∧ j ≤ i ∧ ∃ e', .ok (e', v) ∈ algo.callsAt env s.bank j := by
    intro i hi hik e v hmem
    apply exists_mem_callsAt hlimit' h hi hik hmem
  have hread : ∀ {i n : ℕ} {p : Expr × Bv N}, i < n → .ok p ∈ algo.callsAt env s.bank i →
      .ok p ∈ runSize (algo.rowsBelow env s.bank n) i := by
    intro i n p hin hp
    rwa [runSize_rowsBelow hin]
  suffices ∃ v, e.evalBv env args = .ok v ∧
      ∃ j, 1 ≤ j ∧ j ≤ c ∧ ∃ e', .ok (e', v) ∈ algo.callsAt env s.bank j by
    obtain ⟨v, hv, j, hj, hjc, e', hmem⟩ := this
    use v, hv
    apply called_of_mem_callsAt hlimit' h hj (hjc.trans hck) hmem
  induction hcosted with
  | @var i hrule =>
      have hlength : (algo.rowsBelow env s.bank 1).length = 1 := length_rowsBelow 1
      have hrule : .var i ∈ algo.config := hrule
      rcases mem_offers_var env hrule hlength with ⟨v, hv, hoffer⟩ | hoffer
      · exact ⟨v, ExprIn.evalBv_var.mpr hv, hfound (le_refl 1) hck hoffer⟩
      · apply absurd hoffer (error_not_mem_offers hlimit' h (le_refl 1) hck _)
  | @const c hrule =>
      have hlength : (algo.rowsBelow env s.bank 1).length = 1 := length_rowsBelow 1
      exact ⟨_, ExprIn.evalBv_const, hfound (le_refl 1) hck (mem_offers_const hrule hlength)⟩
  | @un o c₁ e₁ hrule h₁ ih =>
      obtain ⟨v₁, he₁, i, hi, hic, e₁', hp⟩ := ih hregular.un.1 (by omega)
      obtain ⟨v, hv⟩ := hregular.exists_evalUn he₁
      have hp : .ok (e₁', v₁) ∈ runSize (algo.rowsBelow env s.bank (1 + i))
          ((algo.rowsBelow env s.bank (1 + i)).length - 1) := by
        rw [length_rowsBelow, Nat.add_sub_cancel_left]
        apply hread (by omega) hp
      obtain ⟨j, hj, hji, e', hmem⟩ := hfound (by omega) (by omega)
        (mem_offers_un hrule hp hv)
      exact ⟨v, ExprIn.evalBv_un.mpr ⟨_, he₁, hv⟩, j, hj, by omega, e', hmem⟩
  | @constShift o c rule c₁ e₁ hconst hrule h₁ ih =>
      obtain ⟨v₁, he₁, i, hi, hic, e₁', hp⟩ := ih hregular.bin₁.1 (by omega)
      obtain ⟨v, hv⟩ := hregular.exists_evalBin he₁ ExprIn.evalBv_const
      have hp : .ok (e₁', v₁) ∈ runSize (algo.rowsBelow env s.bank (1 + i))
          ((algo.rowsBelow env s.bank (1 + i)).length - 1) := by
        rw [length_rowsBelow, Nat.add_sub_cancel_left]
        apply hread (by omega) hp
      obtain ⟨j, hj, hji, e', hmem⟩ := hfound (by omega) (by omega)
        (mem_offers_constShift hconst hrule hp hv)
      exact ⟨v, ExprIn.evalBv_bin.mpr ⟨_, he₁, _, ExprIn.evalBv_const, hv⟩, j, hj, by omega, e',
        hmem⟩
  | @shift o c₁ e₁ e₂ hshift hrule h₁ h₂ ih₁ ih₂ =>
      obtain ⟨v₁, he₁, i, hi, hic, e₁', hp₁⟩ := ih₁ hregular.bin₁.1 (by omega)
      obtain ⟨v₂, he₂, i₂, hi₂, hic₂, e₂', hp₂⟩ := ih₂ hregular.bin₂.1 (by omega)
      obtain rfl : i₂ = 1 := by omega
      obtain ⟨v, hv⟩ := hregular.exists_evalBin he₁ he₂
      have hp₁ : .ok (e₁', v₁) ∈ runSize (algo.rowsBelow env s.bank (1 + i))
          ((algo.rowsBelow env s.bank (1 + i)).length - 1) := by
        rw [length_rowsBelow, Nat.add_sub_cancel_left]
        apply hread (by omega) hp₁
      have hsize : 1 < (algo.rowsBelow env s.bank (1 + i)).length := by
        rw [length_rowsBelow]
        omega
      obtain ⟨j, hj, hji, e', hmem⟩ := hfound (by omega) (by omega)
        (mem_offers_shift hshift hrule rfl hsize hp₁ (hread (by omega) hp₂) hv)
      exact ⟨v, ExprIn.evalBv_bin.mpr ⟨_, he₁, _, he₂, hv⟩, j, hj, by omega, e', hmem⟩
  | @bin o c₁ c₂ e₁ e₂ hshift hrule h₁ h₂ ih₁ ih₂ =>
      have hcost := one_le_cost o
      obtain ⟨v₁, he₁, i₁, hi₁, hic₁, e₁', hp₁⟩ := ih₁ hregular.bin₁.1 (by omega)
      obtain ⟨v₂, he₂, i₂, hi₂, hic₂, e₂', hp₂⟩ := ih₂ hregular.bin₂.1 (by omega)
      obtain ⟨v, hv⟩ := hregular.exists_evalBin he₁ he₂
      have hzero : o.nonzero = true → v₂.anyEq Bv.zeros = false := by
        intro hnonzero
        apply hregular.nonzero o e₁ e₂ _ _ hnonzero he₂
        apply List.mem_append_right _ (List.mem_singleton_self _)
      have hlength : (algo.rowsBelow env s.bank (cost o + i₁ + i₂)).length = cost o + i₁ + i₂ :=
        length_rowsBelow _
      have hrule : o.rule ∈ algo.config := hrule
      obtain ⟨e, hoffer⟩ := mem_offers_bin hshift hrule hlength hi₁ hi₂ (hread (by omega) hp₁)
        (hread (by omega) hp₂) hzero hv
      obtain ⟨j, hj, hji, e', hmem⟩ := hfound (by omega) (by omega) hoffer
      exact ⟨v, ExprIn.evalBv_bin.mpr ⟨_, he₁, _, he₂, hv⟩, j, hj, by omega, e', hmem⟩

/-- The square of the first argument. -/
def square : Expr := .bin .mul (.var 0) (.var 0)

/-- A run up to size three that stores size zero only. -/
def squareRun : Except (Halt × Visit ℕ Unit 2) (Visit ℕ Unit 2) :=
  runUntil (Environ.new 0) (new [.var 0, .mul] [![3, 5]] true 1) (fun _ _ _ => pure ()) ![9, 9] () 3

theorem square_regular :
  Regular (Environ.new 0) [![3, 5]] (![9, 9] : Bv 2) square
  where
    proper := by decide
    nonzero := by
      intro o e₁ e₂ v₂ he ho
      simp only [square, ExprIn.proper, List.nil_append, List.cons_append, List.mem_cons,
        List.not_mem_nil, or_false, reduceCtorEq, false_or, ExprIn.bin.injEq] at he
      rw [he.1] at ho
      cases ho
    fop1 := by simp [square, ExprIn.proper]
    fop2 := by simp [square, ExprIn.proper]

/-- The run calls the closure with the vector of the square. -/
theorem called_of_costed_square :
  ∃ v, square.evalBv (Environ.new 0) [![3, 5]] = .ok v ∧ (Machine.final squareRun).Called v
  := by
  have h : squareRun = .ok (Machine.final squareRun) := rfl
  have hvar : Costed [.var 0, .mul] 1 (.var 0) := .var (by decide)
  have hcosted : Costed [.var 0, .mul] 3 square := .bin (o := .mul) rfl (by decide) hvar hvar
  apply called_of_costed (le_refl 1) hcosted square_regular (le_refl 3) h

/-- A defined function of two arguments: the sum of the complement of the first one and of the
second one. -/
def complementSum : Environ :=
  ⟨fun n => if n = 2 then [⟨"g", ["x", "y"], .bin .add (.un .not (.var 0)) (.var 1)⟩] else [], 5⟩

/-- The defined function with the second argument zero. -/
def atZero : Expr := .bin (.fop2 0) (.var 0) (.const 0)

def atZeroRun : Except (Halt × Visit ℕ Unit 1) (Visit ℕ Unit 1) :=
  runUntil complementSum (new [.var 0, .const 0, .fop2 0] [![1]] true 9)
    (fun _ _ _ => pure ()) ![7] () 5

/-- A defined function is skipped when a lane of its second argument is zero: the closure is not
called with the vector of the application when its size is finished. -/
theorem not_called_atZero :
  Costed [.var 0, .const 0, .fop2 0] 5 atZero ∧
    (∀ e ∈ atZero.proper, e.evalBv complementSum [![1]] ≠ .ok (![7] : Bv 1)) ∧
    (∀ o e₁ e₂, .bin o e₁ e₂ ∈ atZero.proper ++ [atZero] → o = .fop2 0) ∧
    (∀ v₁ v₂ : Bv 1, ∃ v, complementSum.evalBin (.fop2 0) v₁ v₂ = .ok v) ∧
    (∃ s v, atZeroRun = .ok s ∧ atZero.evalBv complementSum [![1]] = .ok v ∧ ¬ s.Called v)
  := by
  refine ⟨?_, by decide, ?_, fun v₁ v₂ => ⟨_, rfl⟩, Machine.final atZeroRun, _, rfl, rfl, ?_⟩
  · have hvar : Costed [.var 0, .const 0, .fop2 0] 1 (.var 0) := .var (by decide)
    have hconst : Costed [.var 0, .const 0, .fop2 0] 1 (.const 0) := .const (by decide)
    exact .bin (o := .fop2 0) rfl (by decide) hvar hconst
  · intro o e₁ e₂ h
    simp only [atZero, ExprIn.proper, List.nil_append, List.cons_append, List.mem_cons,
      List.not_mem_nil, or_false, reduceCtorEq, false_or, ExprIn.bin.injEq] at h
    apply h.1
  · rintro ⟨c, hc, hv⟩
    revert c
    decide

end Run

end Algo2

end DryadSynth
