import DryadSynth.Library.Reach
import DryadSynth.Library.LIA.Quantified

/-!
# Regions

A region is a conjunction of linear inequalities over the integer variables of an invariant
problem.  For a jump of `k` steps by an update vector the inequalities that the update weakens
are taken at the state before the jump, and all others at the state after it.
-/

namespace Sygus.Invariant

open LIA

/-- The integer variables of a problem. -/
structure Variables (n : ℕ) where
  var : Fin n → Var
  injective : Function.Injective var
  sort_var : ∀ i, (var i).sort = .int

/-- The values of the integer variables. -/
abbrev State (n : ℕ) := Fin n → ℤ

namespace Variables

variable {n : ℕ} (vars : Variables n)

def toList : List Var := List.ofFn vars.var

/-- The model in which the variables have the values of a state. -/
def model (M : Model) (s : State n) : Model :=
  M.bind vars.toList (List.ofFn fun i => .int (s i))

/-- The state of a model. -/
def state (M : Model) : State n := fun i => (Expr.var (vars.var i)).intVal M

/-- Substitute for every variable. -/
def substitute (a : Fin n → Expr) (e : Expr) : Expr :=
  e.substituteEach (List.ofFn fun i => (vars.var i, a i))

end Variables

/-- The update vector of a transition. -/
structure UniTrans (n : ℕ) where
  deltaTbl : Fin n → ℤ

/-- A linear inequality: the linear term is not negative. -/
structure Cond (n : ℕ) where
  coeffTbl : Fin n → ℤ
  constTerm : ℤ

namespace Cond

variable {n : ℕ} (vars : Variables n)

def toExpr (c : Cond n) : Expr :=
  .ge (.add ((List.ofFn fun i => .mul [.num (c.coeffTbl i), .var (vars.var i)])
    ++ [.num c.constTerm])) (.num 0)

/-- The inequality `k` steps before. -/
def toKExpr (k : Expr) (t : UniTrans n) (c : Cond n) : Expr :=
  vars.substitute (fun i => .sub [.var (vars.var i), .mul [k, .num (t.deltaTbl i)]])
    (c.toExpr vars)

/-- The value of the linear term. -/
def value (c : Cond n) (s : State n) : ℤ := ∑ i, c.coeffTbl i * s i + c.constTerm

/-- What a step adds to the value. -/
def deltaSum (c : Cond n) (t : UniTrans n) : ℤ := ∑ i, c.coeffTbl i * t.deltaTbl i

end Cond

/-- A region: its inequalities and, once it is extended, which of them are taken before a jump,
and the update of the jump. -/
structure Region (n : ℕ) where
  conds : List (Cond n)
  kExtended : List Bool
  trans : Option (UniTrans n)

namespace Region

variable {n : ℕ} (vars : Variables n)

def toExpr (r : Region n) : Expr := .and (r.conds.map (Cond.toExpr vars))

/-- The conjuncts of `toKExpr`; there are none if the region was not extended. -/
def kClauses (k : Expr) (trans : Option (UniTrans n)) :
    List (Cond n) → List Bool → Option (List Expr)
  | [], _ => some []
  | _ :: _, [] => none
  | c :: conds, true :: kExtended => do
      let t ← trans
      return c.toKExpr vars k t :: (← kClauses k trans conds kExtended)
  | c :: conds, false :: kExtended =>
      return c.toExpr vars :: (← kClauses k trans conds kExtended)

/-- The condition of a jump of `k` steps in the region, on its last state. -/
def toKExpr (k : Expr) (r : Region n) : Option Expr :=
  return .and (← kClauses vars k r.trans r.conds r.kExtended)

def kExtend (t : UniTrans n) (r : Region n) : Region n :=
  { r with
    trans := some t
    kExtended := r.conds.map fun c => decide (0 < c.deltaSum t) }

/-- The state satisfies all inequalities. -/
def Contains (r : Region n) (s : State n) : Prop := ∀ c ∈ r.conds, 0 ≤ c.value s

end Region

/-! ### States in models -/

section Model

variable {n : ℕ} {vars : Variables n} {M M' : Model} {s : State n}

theorem Variables.mem_toList (i : Fin n) :
  vars.var i ∈ vars.toList
  := List.mem_ofFn.mpr ⟨i, rfl⟩

theorem Variables.nodup_toList (vars : Variables n) :
  vars.toList.Nodup
  := List.nodup_ofFn.mpr vars.injective

@[simp]
theorem Variables.var_model (i : Fin n) :
  (vars.model M s).var (vars.var i) = .int (s i)
  := by
  apply var_bind_of_mem vars.nodup_toList
  · simp [Variables.toList]
  · rw [List.mem_iff_getElem]
    use i
    simp [Variables.toList]

@[simp]
theorem Variables.state_model :
  vars.state (vars.model M s) = s
  := by
  funext i
  rw [Variables.state, Expr.intVal, eval_var, Variables.var_model]
  simp [vars.sort_var, Value.cast, Value.toInt]

theorem Variables.var_model_of_not_mem {x : Var} (hx : x ∉ vars.toList) :
  (vars.model M s).var x = M.var x
  := var_bind_of_not_mem hx

/-- The values of the variables are those of the last state a model was given. -/
theorem Variables.model_ext (hfunc : M'.func = M.func)
    (hvar : ∀ x ∉ vars.toList, M'.var x = M.var x) (s : State n) :
  vars.model M' s = vars.model M s
  := by
  have h : (vars.model M' s).var = (vars.model M s).var := by
    funext x
    by_cases hx : x ∈ vars.toList
    · obtain ⟨i, rfl⟩ := List.mem_ofFn.mp hx
      simp
    · rw [Variables.var_model_of_not_mem hx, Variables.var_model_of_not_mem hx, hvar x hx]
  rw [Variables.model, Variables.model, Model.bind, Model.bind, hfunc]
  congr 1

@[simp]
theorem Variables.model_model (s s' : State n) :
  vars.model (vars.model M s) s' = vars.model M s'
  := by
  apply Variables.model_ext
  · rfl
  · intro x hx
    apply Variables.var_model_of_not_mem hx

/-- The state of a model gives the variables the values they have. -/
theorem Variables.eval_model_state (e : Expr) :
  e.eval (vars.model M (vars.state M)) = e.eval M
  := by
  induction e with
  | num k => rfl
  | var x =>
      rw [eval_var, eval_var]
      by_cases hx : x ∈ vars.toList
      · obtain ⟨i, rfl⟩ := List.mem_ofFn.mp hx
        rw [Variables.var_model, vars.sort_var, Variables.state, Expr.intVal, eval_var,
          vars.sort_var]
        rfl
      · rw [Variables.var_model_of_not_mem hx]
  | app o args ih =>
      rw [eval_app, eval_app, List.map_congr_left ih]
      apply apply_congr rfl o _

/-- Substituting for the variables is going to another state. -/
theorem Variables.eval_substitute {a : Fin n → Expr} (hsort : ∀ i, (a i).sort = some .int)
    (hfree : ∀ i j, vars.var j ∈ (a i).vars → j = i) (e : Expr) :
  (vars.substitute a e).eval M = e.eval (vars.model M fun i => (a i).intVal M)
  := by
  rw [Variables.substitute, eval_substituteEach]
  · rw [Variables.model, Variables.toList, List.map_ofFn, List.map_ofFn]
    congr 3
    funext i
    apply eval_of_int (hsort i)
  · rw [List.map_ofFn]
    apply vars.nodup_toList
  · intro p hp
    obtain ⟨i, rfl⟩ := List.mem_ofFn.mp hp
    rw [hsort, vars.sort_var]
  · intro p hp y hy hmem
    obtain ⟨i, rfl⟩ := List.mem_ofFn.mp hp
    rw [List.map_ofFn] at hmem
    obtain ⟨j, rfl⟩ := List.mem_ofFn.mp hmem
    rw [hfree i j hy]
    rfl

theorem Variables.sort_substitute {a : Fin n → Expr} (hsort : ∀ i, (a i).sort = some .int)
    {e : Expr} {t : Srt} (h : e.sort = some t) :
  (vars.substitute a e).sort = some t
  := by
  apply sort_substituteEach _ h
  intro p hp
  obtain ⟨i, rfl⟩ := List.mem_ofFn.mp hp
  rw [hsort, vars.sort_var]

end Model

/-! ### The conditions of a jump -/

section Jump

variable {n : ℕ} {vars : Variables n} {M : Model} {k : Expr} {t : UniTrans n} {c : Cond n}
variable {r : Region n} {s : State n}

/-- The state `k` steps before. -/
def UniTrans.back (t : UniTrans n) (k : ℤ) (s : State n) : State n := s - k • t.deltaTbl

theorem Cond.sort_toExpr :
  (c.toExpr vars).sort = some .bool
  := by
  refine sort_ge.mpr ⟨rfl, sort_add.mpr ⟨rfl, ?_⟩, rfl⟩
  intro e he
  rcases List.mem_append.mp he with he | he
  · obtain ⟨i, rfl⟩ := List.mem_ofFn.mp he
    simp [vars.sort_var]
  · rw [List.mem_singleton.mp he]
    rfl

theorem Cond.holds_toExpr :
  (c.toExpr vars).Holds M ↔ 0 ≤ c.value (vars.state M)
  := by
  rw [Cond.toExpr, holds_ge, intVal_num, intVal_add, List.map_append, List.sum_append,
    List.map_ofFn, List.sum_ofFn]
  simp [Cond.value, Variables.state]

/-- The values the variables had `k` steps before. -/
theorem Variables.eval_substitute_back (hk : k.sort = some .int)
    (hfree : ∀ j, vars.var j ∉ k.vars) (e : Expr) :
  (vars.substitute (fun i => .sub [.var (vars.var i), .mul [k, .num (t.deltaTbl i)]]) e).eval M
    = e.eval (vars.model M (t.back (k.intVal M) (vars.state M)))
  := by
  rw [Variables.eval_substitute]
  · congr 2
    funext i
    simp [UniTrans.back, Variables.state]
  · simp [vars.sort_var, hk]
  · intro i j hj
    have hj' : vars.var j = vars.var i ∨ vars.var j ∈ k.vars := by simpa using hj
    rcases hj' with hj' | hj'
    · apply vars.injective hj'
    · apply absurd hj' (hfree j)

theorem Cond.sort_toKExpr (hk : k.sort = some .int) :
  (c.toKExpr vars k t).sort = some .bool
  := by
  apply Variables.sort_substitute _ Cond.sort_toExpr
  simp [vars.sort_var, hk]

theorem Cond.holds_toKExpr (hk : k.sort = some .int) (hfree : ∀ j, vars.var j ∉ k.vars) :
  (c.toKExpr vars k t).Holds M ↔ 0 ≤ c.value (t.back (k.intVal M) (vars.state M))
  := by
  rw [Cond.toKExpr, Expr.Holds, Variables.eval_substitute_back hk hfree, ← Expr.Holds,
    Cond.holds_toExpr, Variables.state_model]

/-- Each step adds the same to the value. -/
theorem Cond.value_back (c : Cond n) (t : UniTrans n) (k : ℤ) (s : State n) :
  c.value (t.back k s) = c.value s - k * c.deltaSum t
  := by
  have hsum : ∑ i, c.coeffTbl i * (t.back k s) i
      = ∑ i, c.coeffTbl i * s i - k * ∑ i, c.coeffTbl i * t.deltaTbl i := by
    rw [Finset.mul_sum, ← Finset.sum_sub_distrib]
    apply Finset.sum_congr rfl
    intro i _
    simp only [UniTrans.back, Pi.sub_apply, Pi.smul_apply, smul_eq_mul]
    ring
  rw [Cond.value, Cond.value, Cond.deltaSum, hsum]
  ring

theorem Region.sort_toExpr :
  (r.toExpr vars).sort = some .bool
  := by
  refine sort_and.mpr ⟨rfl, ?_⟩
  intro e he
  obtain ⟨c, -, rfl⟩ := List.mem_map.mp he
  apply Cond.sort_toExpr

theorem Region.holds_toExpr :
  (r.toExpr vars).Holds M ↔ r.Contains (vars.state M)
  := by
  rw [Region.toExpr, holds_and, List.forall_mem_map]
  exact forall₂_congr fun c _ => Cond.holds_toExpr

/-- The inequality a jump asks for. -/
def Cond.kClause (vars : Variables n) (k : Expr) (t : UniTrans n) (c : Cond n) : Expr :=
  if 0 < c.deltaSum t then c.toKExpr vars k t else c.toExpr vars

/-- The conjuncts, for inequalities marked by a test. -/
theorem Region.kClauses_map (p : Cond n → Bool) (conds : List (Cond n)) :
  kClauses vars k (some t) conds (conds.map p)
    = some (conds.map fun c => if p c then c.toKExpr vars k t else c.toExpr vars)
  := by
  induction conds with
  | nil => rfl
  | cons c conds ih =>
      rw [List.map_cons, List.map_cons]
      cases h : p c with
      | true =>
          rw [kClauses, ih]
          rfl
      | false =>
          rw [kClauses, ih]
          rfl

theorem Region.kClauses_eq (conds : List (Cond n)) :
  kClauses vars k (some t) conds (conds.map fun c => decide (0 < c.deltaSum t))
    = some (conds.map (Cond.kClause vars k t))
  := by
  rw [kClauses_map]
  simp only [decide_eq_true_eq]
  rfl

theorem Region.toKExpr_kExtend :
  (r.kExtend t).toKExpr vars k = some (.and (r.conds.map (Cond.kClause vars k t)))
  := by
  rw [Region.toKExpr, Region.kExtend, kClauses_eq]
  rfl

/-- An inequality that holds where the jump asks for it holds on the whole way. -/
theorem Cond.value_nonneg_of_jump {k : ℕ}
    (h : if 0 < c.deltaSum t then 0 ≤ c.value (t.back k s) else 0 ≤ c.value s) {j : ℕ}
    (hj : j ≤ k) :
  0 ≤ c.value (t.back j s)
  := by
  have hj' : (j : ℤ) ≤ k := by exact_mod_cast hj
  rw [Cond.value_back] at *
  split at h
  · next hpos => nlinarith
  · next hneg => nlinarith

/-- The conditions of a jump hold precisely when all states on the way are in the region. -/
theorem Region.holds_kClauses (hk : k.sort = some .int) (hfree : ∀ j, vars.var j ∉ k.vars)
    {m : ℕ} (hm : k.intVal M = m) :
  (Expr.and (r.conds.map (Cond.kClause vars k t))).Holds M
    ↔ ∀ j ≤ m, r.Contains (t.back j (vars.state M))
  := by
  rw [holds_and, List.forall_mem_map]
  have hclause : ∀ c : Cond n, (c.kClause vars k t).Holds M
      ↔ if 0 < c.deltaSum t then 0 ≤ c.value (t.back m (vars.state M))
        else 0 ≤ c.value (vars.state M) := by
    intro c
    unfold Cond.kClause
    split
    · rw [Cond.holds_toKExpr hk hfree, hm]
    · rw [Cond.holds_toExpr]
  constructor
  · intro h j hj c hc
    apply Cond.value_nonneg_of_jump ((hclause c).mp (h c hc)) hj
  · intro h c hc
    rw [hclause c]
    split
    · apply h m le_rfl c hc
    · have h0 := h 0 (Nat.zero_le m) c hc
      simpa [UniTrans.back] using h0

end Jump

end Sygus.Invariant
