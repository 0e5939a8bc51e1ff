import DryadSynth.Search.Solutions

/-!
# Soundness of the search

Every solution and every condition is recorded with the set of the examples that it solves.
What the search returns therefore has the output of each example as its value, when it is a
solution of all examples, or a tree for examples that do not fill the last block of a set, of
solutions and conditions that return a value on all examples.
-/

namespace DryadSynth

/-! ### Recorded solutions -/

/-- Every expression comes with the set of the examples that it solves. -/
def Tested (env : Environ) (c : PbeConstraint) (l : List (OwnedExpr × Bits)) : Prop :=
  ∀ p ∈ l, ∃ set, c.test env p.1 = .ok set ∧ p.2 = Bits.fromBitIter set c.len

/-- The expression returns a value on every example. -/
def Returns (env : Environ) (c : PbeConstraint) (e : OwnedExpr) : Prop :=
  ∀ i as, i < c.len → c.args i = .ok as → ∃ v, e.eval env as = .ok v

section Tested

variable {env : Environ} {c : PbeConstraint} {l : List (OwnedExpr × Bits)}

theorem Tested.sized (h : Tested env c l) :
  SubProblem.Sized c.len l
  := by
  intro p hp
  obtain ⟨set, -, hbits⟩ := h p hp
  rw [hbits, Bits.length_fromBitIter]

/-- An example is in the set of an expression exactly when the expression solves it. -/
theorem Tested.mem_iff (h : Tested env c l) {p : OwnedExpr × Bits} (hp : p ∈ l) {i : ℕ}
    {as : List (BitVec 64)} {out : BitVec 64} (has : c.args i = .ok as)
    (hout : c.output[i]? = some out) :
  i ∈ Blocks.toSet p.2 ↔ p.1.eval env as = .ok out
  := by
  obtain ⟨set, hset, hbits⟩ := h p hp
  rw [hbits, Bits.mem_fromBitIter (fun j hj => PbeConstraint.lt_of_mem_test hset hj),
    PbeConstraint.mem_test_iff hset has hout]

end Tested

namespace Solutions

/-- Every solution is recorded with the examples that it solves. -/
structure Sound (env : Environ) (c : PbeConstraint) (s : Solutions) : Prop where
  pbecstr_eq : s.pbecstr = c
  tested : ∀ p ∈ s.solved, c.test env p.1 = .ok p.2

variable {env : Environ} {guide : Guide} {c : PbeConstraint} {s s' : Solutions}
  {conds conds' : CondBuffer} {sol : Expr} {set : List ℕ} {b : Bool}

theorem Sound.toBits (h : Sound env c s) :
  Tested env c s.toBits
  := by
  intro p hp
  obtain ⟨q, hq, rfl⟩ := List.mem_map.mp hp
  use q.2, h.tested q hq
  rw [h.pbecstr_eq]

theorem Sound.markSolved (h : Sound env c s) (set : List ℕ) :
  Sound env c (s.markSolved set)
  := by
  unfold Solutions.markSolved
  split_ifs
  · exact ⟨h.pbecstr_eq, h.tested⟩
  · apply h

theorem Sound.push (h : Sound env c s) (hset : c.test env sol = .ok set) :
  Sound env c (s.push sol set)
  := by
  use h.pbecstr_eq
  intro p hp
  rcases List.mem_append.mp hp with hp | hp
  · apply h.tested p hp
  · obtain rfl := List.mem_singleton.mp hp
    rw [PbeConstraint.test_convert, hset]

theorem Sound.flush (h : Sound env c s) (hconds : Tested env c conds) :
  Tested env c (s.flush conds)
  := by
  unfold Solutions.flush
  split_ifs
  · intro p hp
    rcases List.mem_append.mp hp with hp | hp
    · apply hconds p hp
    · apply h.toBits p (List.mem_of_mem_drop hp)
  · apply hconds

/-- What `add_solution` does: nothing, or it records a solution that is not rejected. -/
theorem addSolution_eq_ok (h : s.addSolution env guide conds sol = .ok (s', conds', b)) :
  s' = s ∧ conds' = conds ∨
    ∃ set, s.pbecstr.test env sol = .ok set ∧ s.rejects set = false ∧
      s' = (s.markSolved set).push sol set ∧ conds' = (s.markSolved set).flush conds
  := by
  obtain ⟨set, hset, h⟩ := bind_eq_ok.mp h
  split at h
  · obtain ⟨failed, -, h⟩ := bind_eq_ok.mp h
    split at h
    · cases h
      exact .inl ⟨rfl, rfl⟩
    · split at h
      · cases h
        exact .inl ⟨rfl, rfl⟩
      · next hrejects =>
          rw [Bool.not_eq_true] at hrejects
          simp only at h
          split at h
          · cases h
            exact .inr ⟨set, hset, hrejects, rfl, rfl⟩
          · obtain ⟨b, -, h⟩ := bind_eq_ok.mp h
            cases h
            exact .inr ⟨set, hset, hrejects, rfl, rfl⟩
  · cases h
    exact .inl ⟨rfl, rfl⟩

theorem addSolution2_eq_ok (h : s.addSolution2 env guide conds sol = .ok (s', conds', b)) :
  conds' = conds ∧ (s' = s ∨
    ∃ set, s.pbecstr.test env sol = .ok set ∧ s.rejects set = false ∧
      s' = (s.markSolved set).push sol set)
  := by
  obtain ⟨set, hset, h⟩ := bind_eq_ok.mp h
  split at h
  · split at h
    · cases h
      exact ⟨rfl, .inl rfl⟩
    · next hrejects =>
        rw [Bool.not_eq_true] at hrejects
        obtain ⟨b, -, h⟩ := bind_eq_ok.mp h
        cases h
        exact ⟨rfl, .inr ⟨set, hset, hrejects, rfl⟩⟩
  · cases h
    exact ⟨rfl, .inl rfl⟩

theorem Sound.addSolution (hs : Sound env c s)
    (h : s.addSolution env guide conds sol = .ok (s', conds', b)) :
  Sound env c s'
  := by
  rcases addSolution_eq_ok h with ⟨rfl, -⟩ | ⟨set, hset, -, rfl, -⟩
  · apply hs
  · rw [hs.pbecstr_eq] at hset
    apply (hs.markSolved set).push hset

theorem Sound.addSolution2 (hs : Sound env c s)
    (h : s.addSolution2 env guide conds sol = .ok (s', conds', b)) :
  Sound env c s'
  := by
  rcases addSolution2_eq_ok h with ⟨-, rfl | ⟨set, hset, -, rfl⟩⟩
  · apply hs
  · rw [hs.pbecstr_eq] at hset
    apply (hs.markSolved set).push hset

theorem Sound.addSolutionUnchecked (hs : Sound env c s)
    (h : s.addSolutionUnchecked env sol = .ok (s', b)) :
  Sound env c s'
  := by
  obtain ⟨set, hset, h⟩ := bind_eq_ok.mp h
  split_ifs at h
  · cases h
    rw [hs.pbecstr_eq] at hset
    apply Sound.push _ hset
    exact ⟨hs.pbecstr_eq, hs.tested⟩
  · cases h
    apply hs

end Solutions

/-! ### The search -/

namespace SearchRun

/-- The invariant of the search: the solutions are recorded with the examples they solve, and
the conditions with the examples they are zero on. -/
structure Sound (env : Environ) (c : PbeConstraint) (s : SearchRun) : Prop where
  exprs : s.exprs.Sound env c
  exprs_buffer : s.exprs.condBuffer = false
  conds : s.conds.Sound env (c.setOutput 0)
  cond : Tested env (c.setOutput 0) s.cond

variable {env : Environ} {guide : Guide} {c : PbeConstraint} {s s' : SearchRun}

theorem Sound.start (env : Environ) (cfg : SearchConfig) (c additional : PbeConstraint) :
  Sound env c (start cfg c additional)
  := by
  constructor
  · exact ⟨rfl, by simp [SearchRun.start, Solutions.new]⟩
  · rfl
  · exact ⟨rfl, by simp [SearchRun.start, Solutions.new]⟩
  · intro p hp
    cases hp

/-- The condition buffer of the expressions is off, and stays so. -/
theorem condBuffer_markSolved_push (s : Solutions) (sol : Expr) (set : List ℕ) :
  ((s.markSolved set).push sol set).condBuffer = s.condBuffer
  := by
  unfold Solutions.markSolved
  split_ifs <;> rfl

theorem Sound.step (h : Sound env c s) (event : SearchEvent) :
  Sound env c (Machine.final (step env guide s event))
  := by
  cases event with
  | addSolution sol =>
      simp only [SearchRun.step]
      split
      · next exprs cond b hadd =>
          have hexprs := h.exprs.addSolution hadd
          rcases Solutions.addSolution_eq_ok hadd with ⟨rfl, rfl⟩ | ⟨set, hset, -, rfl, rfl⟩
          · apply h
          · have hbuffer := (condBuffer_markSolved_push s.exprs sol set).trans h.exprs_buffer
            have hflush : (s.exprs.markSolved set).flush s.cond = s.cond := if_neg (by
              rw [show (s.exprs.markSolved set).condBuffer = false from hbuffer]
              apply Bool.false_ne_true)
            rw [hflush]
            exact ⟨hexprs, hbuffer, h.conds, h.cond⟩
      · apply h
  | addSolution2 sol =>
      simp only [SearchRun.step]
      split
      · next exprs cond b hadd =>
          have hexprs := h.exprs.addSolution2 hadd
          obtain ⟨rfl, rfl | ⟨set, hset, -, rfl⟩⟩ := Solutions.addSolution2_eq_ok hadd
          · apply h
          · exact ⟨hexprs, (condBuffer_markSolved_push s.exprs sol set).trans h.exprs_buffer,
              h.conds, h.cond⟩
      · apply h
  | addSolutionUnchecked sol =>
      simp only [SearchRun.step]
      split
      · next exprs b hadd =>
          have hexprs := h.exprs.addSolutionUnchecked hadd
          refine ⟨hexprs, ?_, h.conds, h.cond⟩
          obtain ⟨set, -, hadd⟩ := bind_eq_ok.mp hadd
          split_ifs at hadd
          · cases hadd
            apply h.exprs_buffer
          · cases hadd
            apply h.exprs_buffer
      · apply h
  | setCoverLimit value =>
      exact ⟨⟨h.exprs.pbecstr_eq, h.exprs.tested⟩, h.exprs_buffer, h.conds, h.cond⟩
  | addCondition sol =>
      simp only [SearchRun.step]
      split
      · next conds cond b hadd =>
          refine ⟨h.exprs, h.exprs_buffer, h.conds.addSolution hadd, ?_⟩
          rcases Solutions.addSolution_eq_ok hadd with ⟨-, rfl⟩ | ⟨set, -, -, -, rfl⟩
          · apply h.cond
          · apply (h.conds.markSolved set).flush h.cond
      · apply h
  | setConditionCoverLimit value =>
      exact ⟨h.exprs, h.exprs_buffer, ⟨h.conds.pbecstr_eq, h.conds.tested⟩, h.cond⟩

theorem Sound.run (h : Sound env c s) {l : List SearchEvent}
    (hrun : SearchRun.run env guide s l = .ok s') :
  Sound env c s'
  := by
  have hfinal : Sound env c (Machine.final (Machine.run (SearchRun.step env guide) s l)) :=
    Machine.final_run (fun s hs i _ => hs.step i) h
  unfold SearchRun.run at hrun
  split at hrun
  · next s₁ hs₁ =>
      cases hrun
      rw [hs₁] at hfinal
      apply hfinal
  · cases hrun

/-- The trees of a sound state solve the examples, when they do not fill the last block and all
recorded expressions return a value on them. -/
theorem Sound.getTree (h : Sound env c s) (hlen : c.len % 128 ≠ 0)
    (hexprs : ∀ p ∈ s.exprs.solved, Returns env c p.1) (hcond : ∀ p ∈ s.cond, Returns env c p.1)
    {e : OwnedExpr} (he : s.exprs.getTree guide s.cond = .ok e) {i : ℕ} {as : List (BitVec 64)}
    {out : BitVec 64} (has : c.args i = .ok as) (hout : c.output[i]? = some out) :
  e.eval env as = .ok out
  := by
  have hi : i < c.len := (List.getElem?_eq_some_iff.mp hout).1
  unfold Solutions.getTree at he
  split at he
  · next limit hlimit =>
      obtain ⟨⟨root, b⟩, htree, he⟩ := bind_eq_ok.mp he
      rw [h.exprs.pbecstr_eq] at htree
      have hsized : SubProblem.Sized c.len s.cond := by
        have := h.cond.sized
        rwa [PbeConstraint.len_setOutput] at this
      have hcovers := SubProblem.covers_treeLearning hlen hsized h.exprs.toBits.sized htree
      apply hcovers.eval _ _ hi he
      · intro p hp
        obtain ⟨v, hv⟩ := hcond p hp i as hi has
        use v, hv
        rw [h.cond.mem_iff hp (PbeConstraint.args_setOutput.trans has)
          (PbeConstraint.output_setOutput hi), hv]
        rw [Except.ok.injEq]
      · intro p hp
        obtain ⟨q, hq, rfl⟩ := List.mem_map.mp hp
        obtain ⟨v, hv⟩ := hexprs q hq i as hi has
        use v, hv
        intro hmem
        rw [h.exprs.toBits.mem_iff hp has hout, hv] at hmem
        apply Except.ok.inj hmem
  · cases he

/-- What `search` returns is a solution that solves all examples, or the tree of a sound
state; a solution was recorded before. -/
theorem search_eq_ok {cfg : SearchConfig} {additional : PbeConstraint}
    {before improving : List SearchEvent} {between : List Expr} {e : OwnedExpr}
    (h : search env guide cfg c additional before between improving = .ok (some e)) :
  ∃ e₀ set, c.test env e₀ = .ok set ∧ (e₀ = e ∧ set.length = c.len ∨
    ∃ s, stage env guide cfg c additional before between improving = .ok (.tree s) ∧
      Sound env c s ∧ s.exprs.getTree guide s.cond = .ok e)
  := by
  obtain ⟨r, hr, h⟩ := bind_eq_ok.mp h
  have hstage := hr
  obtain ⟨s₁, hs₁, hr⟩ := bind_eq_ok.mp hr
  have hsound := (Sound.start env cfg c additional).run hs₁
  split at hr
  · cases hr
    cases h
  · split at hr
    · cases hr
    · next e₀ set hlast =>
        have htested := hsound.exprs.tested _ (List.mem_of_getLast? hlast)
        use e₀, set, htested
        split at hr
        · next hall =>
            cases hr
            cases h
            exact .inl ⟨rfl, hall⟩
        · simp only [bind_eq_ok] at hr
          obtain ⟨b, -, s₂, hs₂, hr⟩ := hr
          cases hr
          obtain ⟨e', he', h⟩ := bind_eq_ok.mp h
          cases h
          refine .inr ⟨s₂, hstage, ?_, he'⟩
          refine Sound.run ?_ hs₂
          exact ⟨⟨hsound.exprs.pbecstr_eq, hsound.exprs.tested⟩, hsound.exprs_buffer, hsound.conds,
            hsound.cond⟩

/-- What `search` returns has the output of every example as its value, if it is a solution of
all examples, or a tree for examples that do not fill the last block, of solutions and
conditions that return a value on all examples. -/
theorem search_solves {cfg : SearchConfig} {additional : PbeConstraint}
    {before improving : List SearchEvent} {between : List Expr} {e : OwnedExpr}
    (h : search env guide cfg c additional before between improving = .ok (some e))
    (hcond : ∀ s, stage env guide cfg c additional before between improving = .ok (.tree s) →
      c.len % 128 ≠ 0 ∧ (∀ p ∈ s.exprs.solved, Returns env c p.1) ∧
        ∀ p ∈ s.cond, Returns env c p.1) :
  ∀ i < c.len, ∃ as out, c.args i = .ok as ∧ c.output[i]? = some out ∧ e.eval env as = .ok out
  := by
  intro i hi
  obtain ⟨e₀, set, hset, ⟨rfl, hall⟩ | ⟨s, hs, hsound, htree⟩⟩ := search_eq_ok h
  · apply PbeConstraint.mem_test hset
    apply PbeConstraint.mem_test_of_length hset hall hi
  · obtain ⟨hlen, hexprs, hconds⟩ := hcond s hs
    obtain ⟨as, out, has, hout⟩ := PbeConstraint.exists_args_of_test hset hi
    exact ⟨as, out, has, hout, hsound.getTree hlen hexprs hconds htree has hout⟩

/-! ### A tree for two examples, and two trees that are wrong -/

/-- Entropies with which every set of examples may be accepted, and the first condition is
taken. -/
def firstGuide : Guide where
  settled _ _ := true
  best _ _ _ := 0

/-- The examples `0 ↦ 7` and `1 ↦ 9`. -/
def twoExamples : PbeConstraint := ⟨[[0, 1]], [7, 9]⟩

/-- The solution `7` of the first example, the condition `x`, and a solution of the second. -/
def twoEvents (sol : Expr) : List SearchEvent :=
  [.addSolution (.const 7), .addCondition (.var 0), .addCondition (.un .neg (.var 0)),
    .addSolution sol]

/-- The tree `(ite (= x 0) 7 9)` solves both examples. -/
theorem search_solves_two :
  search (Environ.new 0) firstGuide ⟨5, false⟩ twoExamples (PbeConstraint.new 1)
      (twoEvents (.const 9)) [] [] = .ok (some (.ite (.var 0) (.const 7) (.const 9)))
    ∧ ∀ i < twoExamples.len, ∃ as out, twoExamples.args i = .ok as ∧
      twoExamples.output[i]? = some out ∧
      (.ite (.var 0) (.const 7) (.const 9) : OwnedExpr).eval (Environ.new 0) as = .ok out
  := by
  have hsearch : search (Environ.new 0) firstGuide ⟨5, false⟩ twoExamples (PbeConstraint.new 1)
      (twoEvents (.const 9)) [] [] = .ok (some (.ite (.var 0) (.const 7) (.const 9))) := rfl
  use hsearch
  apply search_solves hsearch
  intro s hs
  obtain rfl := Stage.tree.inj (Except.ok.inj hs)
  have hreturns : ∀ e : OwnedExpr, e = .const 7 ∨ e = .const 9 ∨ e = .var 0 →
      Returns (Environ.new 0) twoExamples e := by
    intro e he i as hi has
    have hi : i < 2 := hi
    interval_cases i
    · obtain rfl := Except.ok.inj has
      rcases he with rfl | rfl | rfl <;> exact ⟨_, rfl⟩
    · obtain rfl := Except.ok.inj has
      rcases he with rfl | rfl | rfl <;> exact ⟨_, rfl⟩
  refine ⟨by decide, ?_, ?_⟩
  · intro p hp
    rcases List.mem_cons.mp hp with rfl | hp
    · apply hreturns _ (.inl rfl)
    · obtain rfl := List.mem_singleton.mp hp
      apply hreturns _ (.inr (.inl rfl))
  · intro p hp
    obtain rfl := List.mem_singleton.mp hp
    apply hreturns _ (.inr (.inr rfl))

/-- The examples `0 ↦ 0`, 127 times, and `1 ↦ 5`. -/
def fullBlock : PbeConstraint :=
  ⟨[List.replicate 127 0 ++ [1]], List.replicate 127 0 ++ [5]⟩

/-- With 128 examples the root of the tree is the empty set, and the first solution is
returned; and a tree whose second branch divides by zero on the first example has no value
there. -/
theorem search_wrong :
  (search (Environ.new 0) firstGuide ⟨5, false⟩ fullBlock (PbeConstraint.new 1)
      [.addSolution (.var 0), .addSolution (.const 5)] [] [] = .ok (some (.var 0))
    ∧ fullBlock.args 127 = .ok [1] ∧ fullBlock.output[127]? = some 5
    ∧ (.var 0 : OwnedExpr).eval (Environ.new 0) [1] = .ok 1)
  ∧ search (Environ.new 0) firstGuide ⟨5, false⟩ twoExamples (PbeConstraint.new 1)
      (twoEvents (.bin .udiv (.const 9) (.var 0))) [] []
      = .ok (some (.ite (.var 0) (.const 7) (.bin .udiv (.const 9) (.var 0))))
    ∧ twoExamples.args 0 = .ok [0] ∧ twoExamples.output[0]? = some 7
    ∧ (.ite (.var 0) (.const 7) (.bin .udiv (.const 9) (.var 0)) : OwnedExpr).eval
      (Environ.new 0) [0] = .error .divideByZero
  := ⟨⟨by decide +kernel, rfl, rfl, rfl⟩, rfl, rfl, rfl, rfl⟩

end SearchRun

end DryadSynth
