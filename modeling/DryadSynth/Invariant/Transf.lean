import DryadSynth.Invariant.Region

/-!
# Accelerated transitions

A transition relation that applies an update vector in each of finitely many regions, which may
overlap.  One round of `run` adds to a formula the states that jumps inside one region reach, and
those that a step from a region into another one or into none reaches.  When a round adds
nothing, the formula describes the reachable states.
-/

namespace Sygus.Invariant

open LIA Reach

/-- The regions with their updates, and the complement of all regions unless it is empty. -/
structure Transf (n : ℕ) where
  vars : Variables n
  transMap : List (Region n × UniTrans n)
  rc : Option Expr

/-- How a run leaves its loop. -/
inductive Exit where
  | fixpoint
  | timeout
  deriving DecidableEq, Repr

namespace Transf

variable {n : ℕ} (S : Solver) (t : Transf n)

def kExtend : Transf n :=
  let transMap := t.transMap.map fun p => (p.1.kExtend p.2, p.2)
  let rc := Expr.not (.or (transMap.map fun p => p.1.toExpr t.vars))
  { t with
    transMap
    rc := if S.check (.qf rc) = .SATISFIABLE then some (S.simplify rc) else none }

/-- The states a jump of `k` steps in one region reaches from `input`. -/
def localClause (k input : Expr) (p : Region n × UniTrans n) : Option Expr :=
  return .and [← p.1.toKExpr t.vars k,
    t.vars.substitute (fun i => .sub [.var (t.vars.var i), .mul [k, .num (p.2.deltaTbl i)]]) input,
    .ge k (.num 0)]

def localExpand (input : Expr) : Option Expr := do
  let k := S.freshConst (t.vars.toList ++ input.vars) .int
  let clauses ← t.transMap.mapM (t.localClause (.var k) input)
  let e ← S.qe (.or (.ex [k] (.qf (.or clauses))) (.qf input))
  return S.simplify e

/-- The states in `dest` that a step in one region reaches from `input`. -/
def switchClause (input : Expr) (p : Region n × UniTrans n) (dest : Expr) : Expr :=
  let orig := t.vars.substitute (fun i => .sub [.var (t.vars.var i), .num (p.2.deltaTbl i)])
  .and [orig (p.1.toExpr t.vars), dest, orig input]

/-- Where a step from the region with number `i` can lead: another region, or none. -/
def destinations (i : ℕ) : List Expr :=
  (t.transMap.zipIdx.filter fun q => q.2 ≠ i).map (fun q => q.1.1.toExpr t.vars) ++ t.rc.toList

def switchExpand (input : Expr) : Expr :=
  let clauses := t.transMap.zipIdx.flatMap fun p =>
    (t.destinations p.2).map (t.switchClause input p.1)
  S.simplify (.or (clauses ++ [input]))

def isExpanded (before after : Expr) : Bool :=
  S.check (.qf (.not (.eq before after))) = .SATISFIABLE

/-- The loop of `run`, with the number of rounds that remain after this one. -/
def runLoop : ℕ → Expr → Option (Expr × Exit)
  | timeout, init => do
      let expanded := t.switchExpand S (← t.localExpand S init)
      if !isExpanded S init expanded then
        return (expanded, .fixpoint)
      match timeout with
      | 0 => return (expanded, .timeout)
      | timeout + 1 => runLoop timeout expanded

def run (pre : Expr) : Option (Expr × Exit) := t.runLoop S 8 pre

/-- A step applies the update of any region that contains the state. -/
def Step (s s' : State n) : Prop :=
  ∃ p ∈ t.transMap, p.1.Contains s ∧ s' = s + p.2.deltaTbl

end Transf

/-! ### The states of a formula -/

section States

variable {n : ℕ} {S : Solver} {t : Transf n} {M : Model} {e e' input : Expr}

/-- The states in which a formula holds. -/
def Variables.states (vars : Variables n) (M : Model) (e : Expr) : Set (State n) :=
  {s | e.Holds (vars.model M s)}

/-- The region with a given number. -/
def Transf.region (t : Transf n) (i : Fin t.transMap.length) : Set (State n) :=
  {s | (t.transMap.get i).1.Contains s}

/-- The update vector of the region with a given number. -/
def Transf.delta (t : Transf n) (i : Fin t.transMap.length) : State n :=
  (t.transMap.get i).2.deltaTbl

theorem Transf.step_eq :
  t.Step = Translate t.region t.delta
  := by
  funext s s'
  rw [eq_iff_iff, Transf.Step, Translate, List.exists_mem_iff_get]
  rfl

theorem Variables.states_model {vars : Variables n} {s : State n} :
  vars.states (vars.model M s) e = vars.states M e
  := by
  ext s'
  rw [Variables.states, Set.mem_ofPred_eq, Variables.model_model]
  rfl

/-- A formula holds in a model when it holds in the state of the model. -/
theorem Variables.holds_iff_mem_states {vars : Variables n} :
  e.Holds M ↔ vars.state M ∈ vars.states M e
  := by
  rw [Variables.states, Set.mem_ofPred_eq, Expr.Holds, Expr.Holds, Variables.eval_model_state]

/-- A fresh constant may have any value without changing what the states of a formula are. -/
theorem Variables.holds_model_of_agreeOff {vars : Variables n} {k : Var} {M' : Model}
    {s : State n} (hM' : AgreeOff [k] M M') (hk : k ∉ e.vars) :
  e.Holds (vars.model M' s) ↔ e.Holds (vars.model M s)
  := by
  refine AgreeOff.holds_iff (?_ : AgreeOff [k] _ _) ?_
  · constructor
    · apply hM'.func
    · intro x hx
      by_cases hmem : x ∈ vars.toList
      · obtain ⟨i, rfl⟩ := List.mem_ofFn.mp hmem
        simp
      · rw [Variables.var_model_of_not_mem hmem, Variables.var_model_of_not_mem hmem,
          hM'.var x hx]
  · intro x hx hxk
    rw [List.mem_singleton.mp hxk] at hx
    apply hk hx

end States

/-! ### Jumps -/

section LocalExpand

variable {n : ℕ} {S : Solver} {t : Transf n} {M : Model} {e input k : Expr}

/-- The clause of a region once it is extended. -/
def Transf.jumpClause (t : Transf n) (k input : Expr) (p : Region n × UniTrans n) : Expr :=
  .and [.and (p.1.conds.map (Cond.kClause t.vars k p.2)),
    t.vars.substitute (fun i => .sub [.var (t.vars.var i), .mul [k, .num (p.2.deltaTbl i)]]) input,
    .ge k (.num 0)]

theorem mapM_localClause (l : List (Region n × UniTrans n)) :
  (l.map fun p => (p.1.kExtend p.2, p.2)).mapM (t.localClause k input)
    = some (l.map (t.jumpClause k input))
  := by
  induction l with
  | nil => rfl
  | cons p l ih =>
      rw [List.map_cons, List.mapM_cons, ih, Transf.localClause, Region.toKExpr_kExtend]
      rfl

theorem Transf.sort_jumpClause (hk : k.sort = some .int) (hinput : input.sort = some .bool)
    (p : Region n × UniTrans n) :
  (t.jumpClause k input p).sort = some .bool
  := by
  refine sort_and.mpr ⟨rfl, ?_⟩
  intro e he
  simp only [List.mem_cons, List.not_mem_nil, or_false] at he
  rcases he with rfl | rfl | rfl
  · refine sort_and.mpr ⟨rfl, ?_⟩
    intro e he
    obtain ⟨c, -, rfl⟩ := List.mem_map.mp he
    unfold Cond.kClause
    split
    · apply Cond.sort_toKExpr hk
    · apply Cond.sort_toExpr
  · apply Variables.sort_substitute _ hinput
    simp [t.vars.sort_var, hk]
  · simp [hk]

/-- The clause of a region holds when the constant is the length of a jump. -/
theorem Transf.holds_jumpClause (hk : k.sort = some .int) (hfree : ∀ j, t.vars.var j ∉ k.vars)
    {p : Region n × UniTrans n} :
  (t.jumpClause k input p).Holds M
    ↔ ∃ m : ℕ, k.intVal M = m ∧ (∀ j ≤ m, p.1.Contains (p.2.back j (t.vars.state M))) ∧
        input.Holds (t.vars.model M (p.2.back m (t.vars.state M)))
  := by
  have hinput : (t.vars.substitute
      (fun i => .sub [.var (t.vars.var i), .mul [k, .num (p.2.deltaTbl i)]]) input).Holds M
      ↔ input.Holds (t.vars.model M (p.2.back (k.intVal M) (t.vars.state M))) := by
    rw [Expr.Holds, Variables.eval_substitute_back hk hfree, Expr.Holds]
  rw [Transf.jumpClause, holds_and]
  simp only [List.forall_mem_cons, List.not_mem_nil, false_imp_iff, implies_true, and_true,
    holds_ge, intVal_num, hinput]
  constructor
  · rintro ⟨hconds, hsub, hpos⟩
    obtain ⟨m, hm⟩ := Int.eq_ofNat_of_zero_le hpos
    use m, hm
    rw [hm] at hsub
    exact ⟨(Region.holds_kClauses hk hfree hm).mp hconds, hsub⟩
  · rintro ⟨m, hm, hconds, hsub⟩
    rw [hm]
    exact ⟨(Region.holds_kClauses hk hfree hm).mpr hconds, hsub, Int.natCast_nonneg m⟩

/-- Some value of a fresh constant makes the clause of a region hold precisely after a jump. -/
theorem Transf.exists_holds_jumpClause {x : Var} (hx : x.sort = .int) (hvars : x ∉ t.vars.toList)
    (hinput : x ∉ input.vars) {p : Region n × UniTrans n} :
  (∃ M', AgreeOff [x] M M' ∧ (t.jumpClause (.var x) input p).Holds M')
    ↔ ∃ m : ℕ, (∀ j ≤ m, p.1.Contains (p.2.back j (t.vars.state M))) ∧
        p.2.back m (t.vars.state M) ∈ t.vars.states M input
  := by
  have hk : (Expr.var x).sort = some .int := by rw [sort_var, hx]
  have hfree : ∀ j, t.vars.var j ∉ (Expr.var x).vars := by
    intro j hj
    rw [vars_var, List.mem_singleton] at hj
    exact hvars (hj ▸ Variables.mem_toList j)
  have hstate : ∀ M', AgreeOff [x] M M' → t.vars.state M' = t.vars.state M := by
    intro M' hM'
    funext i
    have hi : t.vars.var i ∉ [x] := by
      rw [List.mem_singleton]
      rintro rfl
      apply hvars (Variables.mem_toList i)
    rw [Variables.state, Expr.intVal, eval_var, hM'.var _ hi]
    rfl
  constructor
  · rintro ⟨M', hM', h⟩
    obtain ⟨m, -, hconds, hsub⟩ := (Transf.holds_jumpClause hk hfree).mp h
    rw [hstate M' hM'] at hconds hsub
    exact ⟨m, hconds, (Variables.holds_model_of_agreeOff hM' hinput).mp hsub⟩
  · rintro ⟨m, hconds, hsub⟩
    set M' := M.bind [x] [.int m] with hM'def
    have hM' : AgreeOff [x] M M' := ⟨rfl, fun y hy => var_bind_of_not_mem hy⟩
    use M', hM'
    rw [Transf.holds_jumpClause hk hfree, hstate M' hM']
    refine ⟨m, ?_, hconds, (Variables.holds_model_of_agreeOff hM' hinput).mpr hsub⟩
    simp [Expr.intVal, hM'def, Model.bind, hx, Value.cast, Value.toInt]

theorem Transf.mem_jump {X : Set (State n)} {s : State n} :
  s ∈ jump t.region t.delta X
    ↔ (∃ p ∈ t.transMap, ∃ m : ℕ, (∀ j ≤ m, p.1.Contains (p.2.back j s)) ∧ p.2.back m s ∈ X)
      ∨ s ∈ X
  := by
  rw [jump, Set.mem_union, or_comm, List.exists_mem_iff_get]
  apply or_congr_left
  apply exists_congr
  intro i
  simp only [UniTrans.back, natCast_zsmul]
  rfl

/-- The formula whose quantifier `localExpand` eliminates. -/
def Transf.jumpFormula (t : Transf n) (x : Var) (input : Expr) : Quantified :=
  .or (.ex [x] (.qf (.or (t.transMap.map (t.jumpClause (.var x) input))))) (.qf input)

theorem Transf.localExpand_kExtend :
  (t.kExtend S).localExpand S input
    = (S.qe (t.jumpFormula (S.freshConst (t.vars.toList ++ input.vars) .int) input)).map S.simplify
  := by
  have hclauses : ∀ k, (t.kExtend S).transMap.mapM ((t.kExtend S).localClause k input)
      = some (t.transMap.map (t.jumpClause k input)) := fun k => mapM_localClause t.transMap
  rw [Transf.localExpand, hclauses, Option.map_eq_bind]
  rfl

theorem Transf.wellSorted_jumpFormula {x : Var} (hx : x.sort = .int)
    (hinput : input.sort = some .bool) :
  (t.jumpFormula x input).WellSorted
  := by
  refine ⟨sort_or.mpr ⟨rfl, ?_⟩, hinput⟩
  intro e he
  obtain ⟨p, -, rfl⟩ := List.mem_map.mp he
  apply Transf.sort_jumpClause (by rw [sort_var, hx]) hinput p

theorem Transf.holds_jumpFormula {x : Var} (hx : x.sort = .int) (hvars : x ∉ t.vars.toList)
    (hinput : x ∉ input.vars) :
  (t.jumpFormula x input).Holds M
    ↔ t.vars.state M ∈ jump t.region t.delta (t.vars.states M input)
  := by
  rw [Transf.jumpFormula, Transf.mem_jump, Quantified.holds_or, Quantified.holds_qf,
    Variables.holds_iff_mem_states]
  apply or_congr_left
  simp only [Quantified.holds_ex, Quantified.holds_qf, holds_or, List.mem_map,
    exists_exists_and_eq_and]
  simp only [← Transf.exists_holds_jumpClause hx hvars hinput]
  constructor
  · rintro ⟨M', hM', p, hp, h⟩
    exact ⟨p, hp, M', hM', h⟩
  · rintro ⟨p, hp, M', hM', h⟩
    exact ⟨M', hM', p, hp, h⟩

/-- Expanding in each region adds the states of the jumps. -/
theorem Transf.states_localExpand (hS : S.Correct) (hinput : input.sort = some .bool)
    (h : (t.kExtend S).localExpand S input = some e) :
  e.sort = some .bool ∧
    ∀ M, t.vars.states M e = jump t.region t.delta (t.vars.states M input)
  := by
  rw [Transf.localExpand_kExtend] at h
  obtain ⟨e₀, he₀, rfl⟩ := Option.map_eq_some_iff.mp h
  have hfresh := hS.fresh (t.vars.toList ++ input.vars) .int
  have hx := hS.sort_fresh (t.vars.toList ++ input.vars) .int
  rw [List.mem_append, not_or] at hfresh
  obtain ⟨hsort, hholds⟩ := hS.qe (Transf.wellSorted_jumpFormula hx hinput) he₀
  use (hS.simplify e₀ _ hsort).1
  intro M
  ext s
  rw [Variables.states, Set.mem_ofPred_eq, (hS.simplify e₀).holds hsort, hholds,
    Transf.holds_jumpFormula hx hfresh.1 hfresh.2, Variables.state_model,
    Variables.states_model]

end LocalExpand

/-! ### Steps out of a region -/

section SwitchExpand

variable {n : ℕ} {S : Solver} {t : Transf n} {M : Model} {e input dest : Expr} {s : State n}

/-- The complement of the regions, before it is simplified. -/
def Transf.complement (t : Transf n) : Expr :=
  .not (.or (t.transMap.map fun p => p.1.toExpr t.vars))

theorem Transf.rc_kExtend :
  (t.kExtend S).rc
    = if S.check (.qf t.complement) = .SATISFIABLE then some (S.simplify t.complement) else none
  := by
  rw [Transf.kExtend, Transf.complement]
  simp only [List.map_map]
  rfl

theorem Transf.sort_complement :
  t.complement.sort = some .bool
  := by
  refine sort_not.mpr ⟨rfl, sort_or.mpr ⟨rfl, ?_⟩⟩
  intro e he
  obtain ⟨p, -, rfl⟩ := List.mem_map.mp he
  apply Region.sort_toExpr

theorem Transf.mem_regions :
  (∃ i, s ∈ t.region i) ↔ ∃ p ∈ t.transMap, p.1.Contains s
  := by
  rw [List.exists_mem_iff_get]
  rfl

theorem Transf.holds_complement :
  t.complement.Holds (t.vars.model M s) ↔ ∀ i, s ∉ t.region i
  := by
  rw [Transf.complement, holds_not, holds_or, ← not_exists, Transf.mem_regions]
  simp only [List.mem_map, exists_exists_and_eq_and, Region.holds_toExpr,
    Variables.state_model]

theorem Transf.sort_rc (hS : S.Correct) (he : e ∈ (t.kExtend S).rc.toList) :
  e.sort = some .bool
  := by
  rw [Transf.rc_kExtend] at he
  split at he
  · rw [Option.toList_some, List.mem_singleton] at he
    rw [he]
    apply (hS.simplify _ _ Transf.sort_complement).1
  · cases he

/-- The complement region holds where no region does, also when it was left out as empty. -/
theorem Transf.holds_rc (hS : S.Correct) :
  (∃ e ∈ (t.kExtend S).rc.toList, e.Holds (t.vars.model M s)) ↔ ∀ i, s ∉ t.region i
  := by
  rw [Transf.rc_kExtend]
  split
  · rw [← Transf.holds_complement (M := M),
      ← (hS.simplify t.complement).holds Transf.sort_complement]
    simp
  · next hunsat =>
      constructor
      · rintro ⟨e, he, -⟩
        cases he
      · intro h
        rw [hS.sat (φ := .qf t.complement) Transf.sort_complement] at hunsat
        apply absurd ⟨t.vars.model M s, Transf.holds_complement.mpr h⟩ hunsat

/-- The extended regions with their numbers. -/
theorem Transf.mem_zipIdx {p : Region n × UniTrans n} {i : ℕ} :
  (p, i) ∈ (t.kExtend S).transMap.zipIdx
    ↔ ∃ j : Fin t.transMap.length, j.val = i ∧
        p = ((t.transMap.get j).1.kExtend (t.transMap.get j).2, (t.transMap.get j).2)
  := by
  rw [List.mem_zipIdx_iff_getElem?, Transf.kExtend]
  simp only [List.getElem?_map, Option.map_eq_some_iff, List.getElem?_eq_some_iff]
  constructor
  · rintro ⟨q, ⟨hi, rfl⟩, rfl⟩
    exact ⟨⟨i, hi⟩, rfl, rfl⟩
  · rintro ⟨j, rfl, rfl⟩
    exact ⟨_, ⟨j.isLt, rfl⟩, rfl⟩

theorem Transf.mem_destinations {i : ℕ} :
  e ∈ (t.kExtend S).destinations i
    ↔ (∃ j : Fin t.transMap.length, j.val ≠ i ∧ e = (t.transMap.get j).1.toExpr t.vars)
      ∨ e ∈ (t.kExtend S).rc.toList
  := by
  rw [Transf.destinations, List.mem_append]
  apply or_congr_left
  rw [List.mem_map]
  constructor
  · rintro ⟨⟨p, j⟩, hp, rfl⟩
    rw [List.mem_filter] at hp
    obtain ⟨j, rfl, rfl⟩ := Transf.mem_zipIdx.mp hp.1
    exact ⟨j, by simpa using hp.2, rfl⟩
  · rintro ⟨j, hj, rfl⟩
    refine ⟨(_, j.val), List.mem_filter.mpr ⟨Transf.mem_zipIdx.mpr ⟨j, rfl, rfl⟩, ?_⟩, rfl⟩
    simpa using hj

/-- A step leads from a region to another one, or out of all. -/
theorem Transf.holds_destinations (hS : S.Correct) {i : Fin t.transMap.length} :
  (∃ e ∈ (t.kExtend S).destinations i, e.Holds (t.vars.model M s))
    ↔ (∃ j ≠ i, s ∈ t.region j) ∨ ∀ j, s ∉ t.region j
  := by
  simp only [Transf.mem_destinations, or_and_right, exists_or]
  rw [Transf.holds_rc hS]
  apply or_congr_left
  constructor
  · rintro ⟨e, ⟨j, hj, rfl⟩, h⟩
    rw [Region.holds_toExpr, Variables.state_model] at h
    exact ⟨j, fun hji => hj (hji ▸ rfl), h⟩
  · rintro ⟨j, hj, h⟩
    refine ⟨_, ⟨j, fun hji => hj (Fin.ext hji), rfl⟩, ?_⟩
    rw [Region.holds_toExpr, Variables.state_model]
    apply h

theorem Transf.sort_of_mem_destinations (hS : S.Correct) {i : ℕ}
    (he : e ∈ (t.kExtend S).destinations i) :
  e.sort = some .bool
  := by
  rcases Transf.mem_destinations.mp he with ⟨j, -, rfl⟩ | he
  · apply Region.sort_toExpr
  · apply Transf.sort_rc hS he

/-- The values the variables had before the last step. -/
theorem Variables.eval_substitute_step {vars : Variables n} {u : UniTrans n} (e : Expr) :
  (vars.substitute (fun i => .sub [.var (vars.var i), .num (u.deltaTbl i)]) e).eval M
    = e.eval (vars.model M (u.back 1 (vars.state M)))
  := by
  rw [Variables.eval_substitute]
  · congr 2
    funext i
    simp [UniTrans.back, Variables.state]
  · simp [vars.sort_var]
  · intro i j hj
    apply vars.injective (by simpa using hj)

theorem Transf.sort_switchClause {p : Region n × UniTrans n} (hdest : dest.sort = some .bool)
    (hinput : input.sort = some .bool) :
  (t.switchClause input p dest).sort = some .bool
  := by
  refine sort_and.mpr ⟨rfl, ?_⟩
  intro e he
  simp only [List.mem_cons, List.not_mem_nil, or_false] at he
  rcases he with rfl | rfl | rfl
  · apply Variables.sort_substitute (by simp [t.vars.sort_var]) Region.sort_toExpr
  · apply hdest
  · apply Variables.sort_substitute (by simp [t.vars.sort_var]) hinput

theorem Transf.holds_switchClause {p : Region n × UniTrans n} :
  (t.switchClause input p dest).Holds (t.vars.model M s)
    ↔ p.1.Contains (p.2.back 1 s) ∧ dest.Holds (t.vars.model M s)
      ∧ p.2.back 1 s ∈ t.vars.states M input
  := by
  rw [Transf.switchClause, holds_and]
  simp only [List.forall_mem_cons, List.not_mem_nil, false_imp_iff, implies_true, and_true]
  rw [Expr.Holds, Variables.eval_substitute_step, ← Expr.Holds, Region.holds_toExpr,
    Variables.state_model, Variables.state_model]
  have hinput : (t.vars.substitute (fun i => .sub [.var (t.vars.var i), .num (p.2.deltaTbl i)])
      input).Holds (t.vars.model M s) ↔ p.2.back 1 s ∈ t.vars.states M input := by
    rw [Expr.Holds, Variables.eval_substitute_step, ← Expr.Holds, Variables.state_model,
      Variables.model_model]
    rfl
  rw [hinput]

/-- Switching adds the states of the steps out of each region. -/
theorem Transf.states_switchExpand (hS : S.Correct) (hinput : input.sort = some .bool) :
  ((t.kExtend S).switchExpand S input).sort = some .bool ∧
    ∀ M, t.vars.states M ((t.kExtend S).switchExpand S input)
      = switch t.region t.delta (t.vars.states M input)
  := by
  set clauses := (t.kExtend S).transMap.zipIdx.flatMap fun p =>
    ((t.kExtend S).destinations p.2).map ((t.kExtend S).switchClause input p.1) with hclauses
  have hmem : ∀ e, e ∈ clauses ↔ ∃ i : Fin t.transMap.length,
      ∃ dest ∈ (t.kExtend S).destinations i, e = t.switchClause input (t.transMap.get i) dest := by
    intro e
    rw [hclauses, List.mem_flatMap]
    constructor
    · rintro ⟨⟨p, i⟩, hp, he⟩
      obtain ⟨i, rfl, rfl⟩ := Transf.mem_zipIdx.mp hp
      obtain ⟨dest, hdest, rfl⟩ := List.mem_map.mp he
      exact ⟨i, dest, hdest, rfl⟩
    · rintro ⟨i, dest, hdest, rfl⟩
      exact ⟨_, Transf.mem_zipIdx.mpr ⟨i, rfl, rfl⟩, List.mem_map.mpr ⟨dest, hdest, rfl⟩⟩
  have hsort : (Expr.or (clauses ++ [input])).sort = some .bool := by
    refine sort_or.mpr ⟨rfl, ?_⟩
    intro e he
    rcases List.mem_append.mp he with he | he
    · obtain ⟨i, dest, hdest, rfl⟩ := (hmem e).mp he
      apply Transf.sort_switchClause (Transf.sort_of_mem_destinations hS hdest) hinput
    · rw [List.mem_singleton.mp he]
      apply hinput
  use (hS.simplify _ _ hsort).1
  intro M
  ext s
  change Expr.Holds _ (S.simplify (.or (clauses ++ [input]))) ↔ _
  rw [(hS.simplify _).holds hsort, holds_or, switch, Set.mem_union, or_comm]
  constructor
  · rintro ⟨e, he, hholds⟩
    rcases List.mem_append.mp he with he | he
    · obtain ⟨i, dest, hdest, rfl⟩ := (hmem e).mp he
      rw [Transf.holds_switchClause, UniTrans.back, one_smul] at hholds
      left
      exact ⟨i, hholds.1, (Transf.holds_destinations hS).mp ⟨dest, hdest, hholds.2.1⟩, hholds.2.2⟩
    · right
      rw [List.mem_singleton.mp he] at hholds
      apply hholds
  · rintro (⟨i, hi, hdest, hs⟩ | hs)
    · obtain ⟨dest, hdest, hholds⟩ := (Transf.holds_destinations (M := M) hS).mpr hdest
      refine ⟨_, List.mem_append_left _ ((hmem _).mpr ⟨i, dest, hdest, rfl⟩), ?_⟩
      rw [Transf.holds_switchClause, UniTrans.back, one_smul]
      exact ⟨hi, hholds, hs⟩
    · exact ⟨input, List.mem_append_right _ (List.mem_singleton_self _), hs⟩

end SwitchExpand

/-! ### Runs -/

section Run

variable {n : ℕ} {S : Solver} {t : Transf n} {M : Model} {e e' pre φ : Expr}

/-- One round on sets of states. -/
def Transf.round (t : Transf n) (X : Set (State n)) : Set (State n) :=
  switch t.region t.delta (jump t.region t.delta X)

theorem Transf.accelerates_round (t : Transf n) :
  Accelerates t.Step t.round
  := by
  rw [Transf.step_eq]
  apply accelerates_switch_jump

/-- A round adds nothing when the formulas have the same states. -/
theorem Transf.isExpanded_eq_false (t : Transf n) (hS : S.Correct) (he : e.sort = some .bool)
    (he' : e'.sort = some .bool) :
  isExpanded S e e' = false ↔ ∀ M, t.vars.states M e = t.vars.states M e'
  := by
  have hwell : (Quantified.qf (.not (.eq e e'))).WellSorted :=
    sort_not.mpr ⟨rfl, sort_eq.mpr ⟨rfl, _, he, he'⟩⟩
  have hholds : ∀ M, (Expr.not (.eq e e')).Holds M ↔ ¬ (e.Holds M ↔ e'.Holds M) := by
    intro M
    rw [holds_not, holds_eq_of_bool he he']
  rw [isExpanded, decide_eq_false_iff_not, hS.sat hwell]
  simp only [Quantified.Satisfiable, Quantified.holds_qf, hholds, not_exists, not_not]
  constructor
  · intro h M
    ext s
    apply h (t.vars.model M s)
  · intro h M
    have hmem : t.vars.state M ∈ t.vars.states M e ↔ t.vars.state M ∈ t.vars.states M e' := by
      rw [h M]
    apply Variables.holds_iff_mem_states.trans (hmem.trans Variables.holds_iff_mem_states.symm)

theorem Transf.runLoop_fixpoint {timeout : ℕ} {init : Expr} (he : t.localExpand S init = some e)
    (hexp : isExpanded S init (t.switchExpand S e) = false) :
  t.runLoop S timeout init = some (t.switchExpand S e, .fixpoint)
  := by
  rw [runLoop.eq_def]
  simp only [he, Option.bind_eq_bind, Option.bind_some, hexp]
  rfl

theorem Transf.runLoop_succ {timeout : ℕ} {init : Expr} (he : t.localExpand S init = some e)
    (hexp : isExpanded S init (t.switchExpand S e) = true) :
  t.runLoop S (timeout + 1) init = t.runLoop S timeout (t.switchExpand S e)
  := by
  rw [runLoop.eq_def]
  simp only [he, Option.bind_eq_bind, Option.bind_some, hexp]
  rfl

/-- What one turn of the loop does. -/
theorem Transf.runLoop_cases {timeout : ℕ} {init : Expr} {exit : Exit}
    (h : t.runLoop S timeout init = some (φ, exit)) :
  ∃ e, t.localExpand S init = some e ∧
    (isExpanded S init (t.switchExpand S e) = false ∧ φ = t.switchExpand S e ∧ exit = .fixpoint ∨
      isExpanded S init (t.switchExpand S e) = true ∧
        (timeout = 0 ∧ φ = t.switchExpand S e ∧ exit = .timeout ∨
          ∃ rest, timeout = rest + 1 ∧
            t.runLoop S rest (t.switchExpand S e) = some (φ, exit)))
  := by
  cases he : t.localExpand S init with
  | none =>
      rw [runLoop.eq_def] at h
      simp only [he] at h
      cases h
  | some e =>
      use e, rfl
      cases hexp : isExpanded S init (t.switchExpand S e) with
      | false =>
          rw [Transf.runLoop_fixpoint he hexp] at h
          obtain ⟨rfl, rfl⟩ := Prod.mk.inj (Option.some.inj h)
          apply Or.inl ⟨rfl, rfl, rfl⟩
      | true =>
          right
          use rfl
          cases timeout with
          | zero =>
              rw [runLoop.eq_def] at h
              simp only [he, Option.bind_eq_bind, Option.bind_some, hexp] at h
              obtain ⟨rfl, rfl⟩ := Prod.mk.inj (Option.some.inj h)
              apply Or.inl ⟨rfl, rfl, rfl⟩
          | succ rest =>
              rw [Transf.runLoop_succ he hexp] at h
              apply Or.inr ⟨rest, rfl, h⟩

/-- A turn of the loop is a round on the states. -/
theorem Transf.states_round (hS : S.Correct) {init : Expr} (hinit : init.sort = some .bool)
    (he : (t.kExtend S).localExpand S init = some e) :
  ((t.kExtend S).switchExpand S e).sort = some .bool ∧
    ∀ M, t.vars.states M ((t.kExtend S).switchExpand S e) = t.round (t.vars.states M init)
  := by
  obtain ⟨hsort, hlocal⟩ := Transf.states_localExpand hS hinit he
  obtain ⟨hsort', hswitch⟩ := Transf.states_switchExpand (t := t) hS hsort
  use hsort'
  intro M
  rw [hswitch, hlocal]
  rfl

/-- A run that ends in a fixpoint ends after finitely many rounds, in a set of states that a
further round does not change. -/
theorem Transf.states_runLoop (hS : S.Correct) {timeout : ℕ} {init : Expr}
    (hinit : init.sort = some .bool)
    (h : (t.kExtend S).runLoop S timeout init = some (φ, .fixpoint)) (M : Model) :
  ∃ m, t.vars.states M φ = t.round^[m] (t.vars.states M init) ∧
    t.round (t.vars.states M φ) = t.vars.states M φ
  := by
  induction timeout using Nat.strong_induction_on generalizing init with
  | _ timeout ih =>
      obtain ⟨e, he, hcases⟩ := Transf.runLoop_cases h
      obtain ⟨hsort, hround⟩ := Transf.states_round hS hinit he
      rcases hcases with ⟨hexp, rfl, -⟩ | ⟨-, ⟨-, -, hexit⟩ | ⟨rest, rfl, hrest⟩⟩
      · have hfix := (t.isExpanded_eq_false hS hinit hsort).mp hexp M
        use 0
        constructor
        · apply hfix.symm
        · rw [← hfix, ← hround M, hfix]
      · cases hexit
      · obtain ⟨m, hm, hfix⟩ := ih rest (Nat.lt_succ_self rest) hsort hrest
        use m + 1
        constructor
        · rw [hm, hround, Function.iterate_succ_apply]
        · apply hfix

/-- When a run ends because a round adds nothing, the formula it returns holds of precisely the
states that are reachable from the precondition; so the precondition implies it and it is
inductive. -/
theorem run_reachable (hS : S.Correct) (t : Transf n) (hpre : pre.sort = some .bool)
    (hrun : (t.kExtend S).run S pre = some (φ, .fixpoint)) (M : Model) :
  (∀ s, φ.Holds (t.vars.model M s)
      ↔ ∃ s₀, pre.Holds (t.vars.model M s₀) ∧ Relation.ReflTransGen t.Step s₀ s) ∧
    (∀ s, pre.Holds (t.vars.model M s) → φ.Holds (t.vars.model M s)) ∧
    ∀ s s', φ.Holds (t.vars.model M s) → t.Step s s' → φ.Holds (t.vars.model M s')
  := by
  obtain ⟨m, hm, hfix⟩ := Transf.states_runLoop hS hpre hrun M
  rw [hm] at hfix
  have hreach : t.vars.states M φ = reachable t.Step (t.vars.states M pre) :=
    hm.trans (t.accelerates_round.eq_reachable hfix.subset)
  refine ⟨fun s => ?_, fun s hs => ?_, fun s s' hs hstep => ?_⟩
  · apply Set.ext_iff.mp hreach s
  · apply hreach.symm.subset (subset_reachable _ _ hs)
  · apply hreach.symm.subset (closed_reachable _ _ s (hreach.subset hs) s' hstep)

end Run

/-! ### A counter -/

section Counter

variable {M : Model} {e : Expr}

/-- A variable that is counted up as long as it is not negative. -/
def counter : Transf 1 where
  vars := ⟨fun _ => ⟨"x", .int⟩, Function.injective_of_subsingleton _, fun _ => rfl⟩
  transMap := [(⟨[⟨fun _ => 1, 0⟩], [], none⟩, ⟨fun _ => 1⟩)]
  rc := none

theorem counter_contains {s : State 1} {i : Fin counter.transMap.length} :
  s ∈ counter.region i ↔ 0 ≤ s 0
  := by
  have hi : i = ⟨0, by decide⟩ := Subsingleton.elim (α := Fin 1) _ _
  rw [hi]
  change (∀ c ∈ [(⟨fun _ => 1, 0⟩ : Cond 1)], 0 ≤ c.value s) ↔ _
  simp [Cond.value]

theorem counter_delta {i : Fin counter.transMap.length} :
  counter.delta i = fun _ => 1
  := by
  have hi : i = ⟨0, by decide⟩ := Subsingleton.elim (α := Fin 1) _ _
  rw [hi]
  rfl

theorem counter_jump {X : Set (State 1)} (hzero : {s | s 0 = 0} ⊆ X) (hX : X ⊆ {s | 0 ≤ s 0}) :
  jump counter.region counter.delta X = {s | 0 ≤ s 0}
  := by
  ext s
  simp only [jump, counter_contains, counter_delta, Set.mem_union, Set.mem_ofPred_eq]
  constructor
  · rintro (hs | ⟨-, k, hk, -⟩)
    · apply hX hs
    · simpa using hk 0 (Nat.zero_le k)
  · intro hs
    obtain ⟨k, hk⟩ := Int.eq_ofNat_of_zero_le hs
    right
    refine ⟨⟨0, by decide⟩, k, ?_, hzero ?_⟩
    · intro j hj
      simpa [hk] using hj
    · simp [hk]

theorem counter_switch :
  switch counter.region counter.delta {s | 0 ≤ s 0} = {s | 0 ≤ s 0}
  := by
  ext s
  simp only [switch, counter_contains, counter_delta, Set.mem_union, Set.mem_ofPred_eq]
  constructor
  · rintro (hs | ⟨-, hs, -⟩)
    · apply hs
    · have hs' : 0 ≤ s 0 - 1 := by simpa using hs
      omega
  · apply Or.inl

/-- The ideal solver eliminates the quantifier of `localExpand`, whenever some expression
describes the jumps. -/
theorem Transf.exists_localExpand {n : ℕ} {t : Transf n} {input : Expr}
    (he : e.sort = some .bool)
    (h : ∀ M, t.vars.states M e = jump t.region t.delta (t.vars.states M input)) :
  ∃ e', (t.kExtend .ideal).localExpand .ideal input = some e'
  := by
  have hfresh := Solver.ideal_correct.fresh (t.vars.toList ++ input.vars) .int
  have hx := Solver.ideal_correct.sort_fresh (t.vars.toList ++ input.vars) .int
  rw [List.mem_append, not_or] at hfresh
  obtain ⟨e', he', -⟩ := Solver.ideal_qe (φ := t.jumpFormula
      (Solver.ideal.freshConst (t.vars.toList ++ input.vars) .int) input) he fun M => by
    rw [Transf.holds_jumpFormula hx hfresh.1 hfresh.2, ← h M, ← Variables.holds_iff_mem_states]
  rw [Transf.localExpand_kExtend, he']
  exact ⟨_, rfl⟩

/-- A round on the counter gives all numbers that are not negative. -/
theorem counter_round {input : Expr} (hinput : input.sort = some .bool)
    (hzero : ∀ M, {s | s 0 = 0} ⊆ counter.vars.states M input)
    (hX : ∀ M, counter.vars.states M input ⊆ {s | 0 ≤ s 0}) :
  ∃ e, (counter.kExtend .ideal).localExpand .ideal input = some e ∧
    ((counter.kExtend .ideal).switchExpand .ideal e).sort = some .bool ∧
    ∀ M, counter.vars.states M ((counter.kExtend .ideal).switchExpand .ideal e)
      = {s | 0 ≤ s 0}
  := by
  have hge : ∀ M, counter.vars.states M (.ge (.var ⟨"x", .int⟩) (.num 0)) = {s | 0 ≤ s 0} := by
    intro M
    ext s
    rw [Variables.states, Set.mem_ofPred_eq, holds_ge, intVal_num]
    change 0 ≤ counter.vars.state (counter.vars.model M s) 0 ↔ _
    rw [Variables.state_model]
    rfl
  obtain ⟨e, he⟩ := Transf.exists_localExpand (t := counter)
    (e := .ge (.var ⟨"x", .int⟩) (.num 0)) (by decide)
    fun M => by rw [counter_jump (hzero M) (hX M), hge]
  obtain ⟨hsort, hstates⟩ := Transf.states_round Solver.ideal_correct hinput he
  use e, he, hsort
  intro M
  rw [hstates M, Transf.round, counter_jump (hzero M) (hX M), counter_switch]

theorem run_reachable_counter :
  ∃ φ, (counter.kExtend .ideal).run .ideal (.eq (.var ⟨"x", .int⟩) (.num 0))
      = some (φ, .fixpoint) ∧
    ∀ M s, φ.Holds (counter.vars.model M s)
      ↔ ∃ s₀, (Expr.eq (.var ⟨"x", .int⟩) (.num 0)).Holds (counter.vars.model M s₀) ∧
          Relation.ReflTransGen counter.Step s₀ s
  := by
  have hsort : (Expr.eq (.var ⟨"x", .int⟩) (.num 0)).sort = some .bool := by decide
  have hpre : ∀ M, counter.vars.states M (.eq (.var ⟨"x", .int⟩) (.num 0)) = {s | s 0 = 0} := by
    intro M
    ext s
    rw [Variables.states, Set.mem_ofPred_eq, holds_eq_of_int rfl rfl, intVal_num]
    change counter.vars.state (counter.vars.model M s) 0 = 0 ↔ _
    rw [Variables.state_model]
    rfl
  obtain ⟨e, he, hsort', hround⟩ := counter_round hsort (fun M => (hpre M).symm.subset) fun M => by
    rw [hpre M]
    intro s hs
    apply le_of_eq (Eq.symm hs)
  obtain ⟨e', he', hsort'', hround'⟩ := counter_round hsort'
    (fun M => (hround M).symm.subset.trans' fun s hs => le_of_eq (Eq.symm hs))
    fun M => (hround M).subset
  have hrun : ∃ φ, (counter.kExtend .ideal).run .ideal (.eq (.var ⟨"x", .int⟩) (.num 0))
      = some (φ, .fixpoint) := by
    rw [Transf.run]
    cases hexp : Transf.isExpanded .ideal (.eq (.var ⟨"x", .int⟩) (.num 0))
        ((counter.kExtend .ideal).switchExpand .ideal e) with
    | false => exact ⟨_, Transf.runLoop_fixpoint he hexp⟩
    | true =>
        rw [Transf.runLoop_succ he hexp]
        refine ⟨_, Transf.runLoop_fixpoint he' ?_⟩
        rw [counter.isExpanded_eq_false Solver.ideal_correct hsort' hsort'']
        intro M
        rw [hround, hround']
  obtain ⟨φ, hφ⟩ := hrun
  exact ⟨φ, hφ, fun M => (run_reachable Solver.ideal_correct counter hsort hφ M).1⟩

end Counter

end Sygus.Invariant
