import DryadSynth.Enumerate.Config
import DryadSynth.Enumerate.Vector
import DryadSynth.Library.Machine

/-!
# The bottom-up enumerator

`Algo::run_until` of `enumerate/algo.rs`.  The rows of `exprs` hold the expressions found at
each size, and one iteration of the loop fills the next row.  Within an iteration the rules
read the finished rows only, so the expansions of `insert!` that an iteration executes are a
list computed from the state at its head, and `Run.insert` executes one of them.
-/

namespace DryadSynth

variable {N : ℕ}

/-! ### The state -/

/-- `Algo`. -/
structure Algo (N : ℕ) where
  config : Config
  exprs : List (List (Expr × Bv N))
  map : List (Bv N × Option Expr)
  args : List (Bv N)
  dagSize : Bool
  counter2 : ℕ

/-- What the rules do to the bank: an expression with its vector comes to `insert!`, or
computing the vector ends the run.  The form of `insert!` in the closures of
`for_each_subexpr` is not `counted` by `counter2`. -/
inductive Offer (N : ℕ) where
  | insert (counted : Bool) (e : Expr) (v : Bv N)
  | fault (f : Fault)

/-- `insert!` applied to an expression and the result of its vector operator. -/
def Offer.of (counted : Bool) (e : Expr) : Except Fault (Bv N) → Offer N
  | .ok v => .insert counted e v
  | .error f => .fault f

namespace Algo

/-- `Algo::new`. -/
def new (config : Config) (args : List (Bv N)) (output : Bv N) (dagSize : Bool) : Algo N :=
  ⟨config, [[]], [(output, none)], args, dagSize, 0⟩

/-- `Algo::len`. -/
def len (algo : Algo N) : ℕ := (algo.exprs.map List.length).sum

/-- `Algo::count`. -/
def count (algo : Algo N) : ℕ := algo.map.length

/-- `Algo::size`. -/
def size (algo : Algo N) : ℕ := algo.exprs.length

/-- `self.exprs[i]`.  The rules only index rows below `size`. -/
def row (algo : Algo N) (i : ℕ) : List (Expr × Bv N) := algo.exprs.getD i []

/-! ### The rules -/

/-- `combinations()`: the pairs of elements at increasing positions. -/
def combinations {α : Type} : List α → List (α × α)
  | [] => []
  | a :: l => l.map (fun b => (a, b)) ++ combinations l

section Generate

variable (env : Environ) (algo : Algo N)

/-- `insert!` for an operator of arity two and two stored pairs. -/
def insert₂ (counted : Bool) (o : BinOp) (p₁ p₂ : Expr × Bv N) : Offer N :=
  .of counted (.bin o p₁.1 p₂.1) (env.evalBin o p₁.2 p₂.2)

/-- The expansions of `insert!` in the closure `f` of `for_each_subexpr`, and the end of the
run when the walk fails. -/
def offersOfWalk (e₁ : Expr) (f : Expr × Bv N → List (Offer N)) : List (Offer N) :=
  (e₁.forEachSubexpr env algo.args).calls.flatMap f
    ++ match (e₁.forEachSubexpr env algo.args).result with
      | .ok _ => []
      | .error fault => [.fault fault]

/-- `generate_op!(op1, ..)`. -/
def op1 (o : UnOp) : List (Offer N) :=
  (algo.row (algo.size - 1)).map fun p₁ => .of true (.un o p₁.1) (env.evalUn o p₁.2)

/-- `generate_op!(op1_constant, ..)`. -/
def op1Constant (o : BinOp) (c : BitVec 64) : List (Offer N) :=
  (algo.row (algo.size - 1)).map fun p₁ => insert₂ env true o p₁ (.const c, Bv.splat c)

/-- The part of `generate_op!(op2_sym, ..)` for operands of different sizes. -/
def op2SymRows (o : BinOp) : List (Offer N) :=
  (List.range' 1 ((algo.size - 1 + 1) / 2 - 1)).flatMap fun i =>
  (algo.row i).flatMap fun p₁ =>
  (algo.row (algo.size - 1 - i)).map fun p₂ => insert₂ env true o p₁ p₂

/-- The part of `generate_op!(op2_sym, ..)` for operands of the same size. -/
def op2SymMiddle (o : BinOp) : List (Offer N) :=
  if (algo.size - 1) % 2 = 0 then
    (combinations (algo.row ((algo.size - 1) / 2))).map (fun p => insert₂ env true o p.1 p.2)
      ++ (algo.row ((algo.size - 1) / 2)).map fun p₁ => insert₂ env true o p₁ p₁
  else []

/-- The part of `generate_op!(op2_sym, ..)` for an operand and its own sub-expressions. -/
def op2SymDag (o : BinOp) : List (Offer N) :=
  if algo.size > 3 && algo.dagSize then
    (algo.row (algo.size - 2)).flatMap fun p₁ =>
    algo.offersOfWalk env p₁.1 (fun p₂ => [insert₂ env false o p₁ p₂])
      ++ [insert₂ env true o p₁ p₁]
  else []

/-- `generate_op!(op2_sym, ..)`. -/
def op2Sym (o : BinOp) : List (Offer N) :=
  algo.op2SymRows env o ++ algo.op2SymMiddle env o ++ algo.op2SymDag env o

/-- The matching of `Expr::Var(_) | Expr::Const(_)`. -/
def isAtom : Expr → Bool
  | .var _ | .const _ => true
  | _ => false

/-- The `l` of `generate_op!(op2, ..)`. -/
def shiftSize (rule : Rule) : ℕ :=
  if rule = .lshr then 1 else if rule = .shl then 2 else 3

/-- The part of `generate_op!(op2, ..)` for shifts: the amounts are atoms. -/
def op2Shift (rule : Rule) (o : BinOp) : List (Offer N) :=
  if algo.size > shiftSize rule then
    (algo.row 1).flatMap fun p₂ =>
    if isAtom p₂.1 then
      (algo.row (algo.size - shiftSize rule)).map fun p₁ => insert₂ env true o p₁ p₂
    else []
  else []

/-- The part of `generate_op!(op2, ..)` for two rows. -/
def op2Rows (o : BinOp) : List (Offer N) :=
  if algo.size > 2 then
    (List.range' 1 (algo.size - 2 - 1)).flatMap fun i =>
    (algo.row (algo.size - 2 - i)).flatMap fun p₂ =>
    (algo.row i).map fun p₁ => insert₂ env true o p₁ p₂
  else []

/-- The part of `generate_op!(op2, ..)` for an operand and its own sub-expressions. -/
def op2Dag (o : BinOp) : List (Offer N) :=
  if algo.size > 3 && algo.dagSize then
    (algo.row (algo.size - 2)).flatMap fun p₁ =>
    algo.offersOfWalk env p₁.1
        (fun p₂ => [insert₂ env false o p₁ p₂, insert₂ env false o p₂ p₁])
      ++ [insert₂ env true o p₁ p₁]
  else []

/-- `generate_op!(op2, ..)`. -/
def op2 (rule : Rule) (o : BinOp) : List (Offer N) :=
  if rule.isShift then algo.op2Shift env rule o
  else algo.op2Rows env o ++ algo.op2Dag env o

/-- The `l` of `generate_op!(op2_nonzero, ..)`. -/
def divisionSize (rule : Rule) : ℕ :=
  if rule = .sdiv ∨ rule = .urem ∨ rule = .srem then 4 else 1

/-- The part of `generate_op!(op2_nonzero, ..)` for two rows. -/
def op2NonzeroRows (rule : Rule) (o : BinOp) : List (Offer N) :=
  if algo.size > divisionSize rule then
    (List.range' 1 (algo.size - divisionSize rule - 1)).flatMap fun i =>
    (algo.row i).flatMap fun p₁ =>
    (algo.row (algo.size - divisionSize rule - i)).flatMap fun p₂ =>
    if p₂.2.anyEq Bv.zeros then [] else [insert₂ env true o p₁ p₂]
  else []

/-- The part of `generate_op!(op2_nonzero, ..)` for an operand and its own
sub-expressions. -/
def op2NonzeroDag (o : BinOp) : List (Offer N) :=
  if algo.size > 5 && algo.dagSize then
    (algo.row (algo.size - 4)).flatMap fun p₁ =>
    algo.offersOfWalk env p₁.1
        (fun p₂ => if p₂.2.anyEq Bv.zeros then [] else [insert₂ env false o p₁ p₂])
      ++ if p₁.2.anyEq Bv.zeros then [] else [insert₂ env true o p₁ p₁]
  else []

/-- `generate_op!(op2_nonzero, ..)`. -/
def op2Nonzero (rule : Rule) (o : BinOp) : List (Offer N) :=
  algo.op2NonzeroRows env rule o ++ algo.op2NonzeroDag env o

/-- `generate_op!(var, ..)`. -/
def var (id : ℕ) : List (Offer N) :=
  if algo.size = 1 then
    match algo.args[id]? with
    | some v => [.insert true (.var id) v]
    | none => [.fault .panic]
  else []

/-- `generate_op!(chatgpt, ..)`. -/
def chatgpt (e : OwnedExpr) (v : ℕ) : List (Offer N) :=
  if algo.size = v then
    let expr : Expr := e.convert
    [.of true expr (expr.evalBv env algo.args)]
  else []

/-- `generate_op!(const, ..)`. -/
def const (v : BitVec 64) : List (Offer N) :=
  if algo.size = 1 then [.insert true (.const v) (Bv.splat v)] else []

/-- The body of the loop over the rules. -/
def generate (rule : Rule) : List (Offer N) :=
  match rule.generate with
  | .op1 o => algo.op1 env o
  | .op1Constant o c => algo.op1Constant env o c
  | .op2Sym o => algo.op2Sym env o
  | .op2 o => algo.op2 env rule o
  | .op2Nonzero o => algo.op2Nonzero env rule o
  | .var id => algo.var id
  | .chatgpt e v => algo.chatgpt env e v
  | .const v => algo.const v
  | .ite => []
  | .panic => [.fault .panic]

/-- The expansions of `insert!` in one iteration of the loop. -/
def offers : List (Offer N) := algo.config.flatMap (algo.generate env)

end Generate

end Algo

/-! ### The run -/

/-- The closure that `run_until` calls, with a state of its own. -/
abbrev Callback (σ : Type) (N : ℕ) : Type :=
  Algo N → Expr → Bv N → ExceptT Unit (StateM σ) Unit

/-- A call of the closure. -/
structure Call (N : ℕ) where
  algo : Algo N
  expr : Expr
  value : Bv N

/-- A state of `run_until`: the enumerator, the row `cur` under construction, the state of
the closure, and the calls of the closure so far, the last one first. -/
structure Run (σ : Type) (N : ℕ) where
  algo : Algo N
  cur : List (Expr × Bv N)
  user : σ
  calls : List (Call N)

/-- Why `run_until` ends: an error of the closure, or a fault. -/
inductive Halt where
  | stopped
  | fault (f : Fault)
  deriving DecidableEq

namespace Run

variable {σ : Type}

/-- The state after the closure is called with `e` and `v` and leaves the state `u`. -/
def log (s : Run σ N) (e : Expr) (v : Bv N) (u : σ) : Run σ N :=
  { s with user := u, calls := ⟨s.algo, e, v⟩ :: s.calls }

/-- The call `f(self, e, v)?`. -/
def call (f : Callback σ N) (s : Run σ N) (e : Expr) (v : Bv N) :
    Except (Halt × Run σ N) (Run σ N) :=
  match f s.algo e v s.user with
  | (.ok (), u) => .ok (s.log e v u)
  | (.error (), u) => .error (.stopped, s.log e v u)

/-- `counter2 += 1`, in the first form of `insert!`. -/
def tick (s : Run σ N) (counted : Bool) : Run σ N :=
  if counted then { s with algo := { s.algo with counter2 := s.algo.counter2 + 1 } } else s

/-- `try_insert` on a vacant key. -/
def put (s : Run σ N) (e : Expr) (v : Bv N) : Run σ N :=
  { s with algo := { s.algo with map := (v, some e) :: s.algo.map } }

/-- `exprs.push((e, v))`. -/
def push (s : Run σ N) (e : Expr) (v : Bv N) : Run σ N :=
  { s with cur := s.cur ++ [(e, v)] }

/-- `insert!`, or the end of the run. -/
def insert (f : Callback σ N) (s : Run σ N) :
    Offer N → Except (Halt × Run σ N) (Run σ N)
  | .fault fault => .error (.fault fault, s)
  | .insert counted e v =>
      let s := s.tick counted
      match s.algo.map.lookup v with
      | none => do
          let s ← (s.put e v).call f e v
          .ok (s.push e v)
      | some none => s.call f e v
      | some (some _) => .ok s

/-- `self.exprs.push(exprs)`, and the next iteration begins. -/
def finish (s : Run σ N) : Run σ N :=
  { s with algo := { s.algo with exprs := s.algo.exprs ++ [s.cur] }, cur := [] }

/-- The state in which `run_until` begins. -/
def start (algo : Algo N) (u : σ) : Run σ N := ⟨algo, [], u, []⟩

/-- `Algo::run_until` up to the end of its `k`-th iteration. -/
def runUntil (env : Environ) (f : Callback σ N) (algo : Algo N) (u : σ) (k : ℕ) :
    Except (Halt × Run σ N) (Run σ N) :=
  Machine.loop (insert f) (fun s => s.algo.offers env) finish (start algo u) k

/-- The states of `run_until` after any number of expansions of `insert!`. -/
def Reachable (env : Environ) (f : Callback σ N) (algo : Algo N) (u : σ) (s : Run σ N) : Prop :=
  Machine.Reachable (insert f) (fun s => s.algo.offers env) finish (start algo u) s

/-- The stored pairs, those of the row under construction last. -/
def bank (s : Run σ N) : List (Expr × Bv N) := s.algo.exprs.flatten ++ s.cur

/-! ### What one expansion does -/

section Steps

variable {s : Run σ N} {e : Expr} {v : Bv N} {counted : Bool} {u : σ}

@[simp]
theorem tick_bank : (s.tick counted).bank = s.bank := by cases counted <;> rfl

@[simp]
theorem tick_map : (s.tick counted).algo.map = s.algo.map := by cases counted <;> rfl

@[simp]
theorem tick_args : (s.tick counted).algo.args = s.algo.args := by cases counted <;> rfl

@[simp]
theorem tick_exprs : (s.tick counted).algo.exprs = s.algo.exprs := by cases counted <;> rfl

@[simp]
theorem tick_config : (s.tick counted).algo.config = s.algo.config := by cases counted <;> rfl

@[simp]
theorem tick_cur : (s.tick counted).cur = s.cur := by cases counted <;> rfl

@[simp]
theorem tick_calls : (s.tick counted).calls = s.calls := by cases counted <;> rfl

@[simp]
theorem finish_bank : s.finish.bank = s.bank := by simp [finish, bank]

/-- The state a call of the closure ends in. -/
theorem final_call (f : Callback σ N) (s : Run σ N) (e : Expr) (v : Bv N) :
  ∃ u, Machine.final (s.call f e v) = s.log e v u
  := by
  rcases h : f s.algo e v s.user with ⟨_ | _, u⟩
  · use u
    simp [call, h, Machine.final]
  · use u
    simp [call, h, Machine.final]

/-- The state after a call of the closure that returns no error. -/
theorem eq_log_of_call {f : Callback σ N} {s s' : Run σ N} {e : Expr} {v : Bv N}
    (h : s.call f e v = .ok s') :
  ∃ u, s' = s.log e v u
  := by
  obtain ⟨u, hu⟩ := final_call f s e v
  rw [h] at hu
  use u, hu

/-- The states `insert!` leads to: the vector was new, and the pair is stored unless the
closure returned an error; it was the output; or it was known. -/
theorem final_insert (f : Callback σ N) (s : Run σ N) (counted : Bool) (e : Expr) (v : Bv N) :
  (s.algo.map.lookup v = none ∧ ∃ u,
      (Machine.final (s.insert f (.insert counted e v)) = ((s.tick counted).put e v).log e v u
        ∨ Machine.final (s.insert f (.insert counted e v))
          = (((s.tick counted).put e v).log e v u).push e v))
    ∨ (s.algo.map.lookup v = some none ∧ ∃ u,
      Machine.final (s.insert f (.insert counted e v)) = (s.tick counted).log e v u)
    ∨ ∃ e', s.algo.map.lookup v = some (some e') ∧
      Machine.final (s.insert f (.insert counted e v)) = s.tick counted
  := by
  rcases hv : s.algo.map.lookup v with _ | _ | e'
  · left
    use rfl
    obtain ⟨u, hu⟩ := final_call f ((s.tick counted).put e v) e v
    use u
    cases hcall : ((s.tick counted).put e v).call f e v with
    | error h =>
        left
        rw [hcall] at hu
        simpa [insert, hv, hcall, bind, Except.bind, Machine.final] using hu
    | ok s' =>
        right
        rw [hcall] at hu
        obtain rfl : s' = _ := hu
        simp [insert, hv, hcall, bind, Except.bind, Machine.final]
  · right
    left
    use rfl
    simpa [insert, hv] using final_call f (s.tick counted) e v
  · right
    right
    use e', rfl
    simp [insert, hv, Machine.final]

/-- An expansion ends the run by an error of the closure only. -/
theorem insert_eq_error {f : Callback σ N} {r : Halt × Run σ N}
    (h : s.insert f (.insert counted e v) = .error r) :
  r.1 = .stopped
  := by
  have hcall : ∀ {s₁ : Run σ N}, s₁.call f e v = .error r → r.1 = .stopped := by
    intro s₁ h
    rw [call] at h
    split at h
    next => cases h
    next => rw [← Except.error.inj h]
  simp only [insert] at h
  split at h
  next =>
    cases hs : ((s.tick counted).put e v).call f e v with
    | error r' =>
        simp only [hs, bind, Except.bind, Except.error.injEq] at h
        rw [h] at hs
        apply hcall hs
    | ok s₁ => simp [hs, bind, Except.bind] at h
  next => apply hcall h
  next => cases h

/-- After an expansion that does not end the run, the vector is stored, or it is the one the
map marks and the closure was called with it. -/
theorem insert_eq_ok {f : Callback σ N} {s s' : Run σ N}
    (h : s.insert f (.insert counted e v) = .ok s') :
  (s.algo.map.lookup v = none ∧ (e, v) ∈ s'.bank)
    ∨ (s.algo.map.lookup v = some none ∧ ∃ c ∈ s'.calls, c.value = v)
    ∨ ∃ e', s.algo.map.lookup v = some (some e') ∧ s'.bank = s.bank
  := by
  rcases hv : s.algo.map.lookup v with _ | _ | e'
  · left
    use rfl
    simp only [insert, tick_map, hv, bind_eq_ok, Except.ok.injEq] at h
    obtain ⟨s₁, -, rfl⟩ := h
    simp [bank, push]
  · right
    left
    use rfl
    simp only [insert, tick_map, hv] at h
    obtain ⟨u, rfl⟩ := eq_log_of_call h
    use ⟨(s.tick counted).algo, e, v⟩, List.mem_cons_self
  · right
    right
    use e', rfl
    simp only [insert, tick_map, hv, Except.ok.injEq] at h
    rw [← h, tick_bank]

end Steps

end Run

end DryadSynth
