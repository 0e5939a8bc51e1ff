import DryadSynth.Search.Bookkeeping
import DryadSynth.Search.Collector
import DryadSynth.TreeLearning.Partition

/-!
# The end of the search

`SearchConfig::search` once no example remains: a tree is learned, the solutions are improved until
one is found, and the tree is built again, while the thread of the conditions goes on.
-/

namespace DryadSynth

/-- A set of examples that one option solves has an entropy of zero. -/
def Guide.Settles (guide : Guide) : Prop :=
  ∀ (options : List (OwnedExpr × Bits)) (bits : Bits),
    (∃ o ∈ options, bits.subset o.2 = true) → guide.settled options bits = true

namespace SearchRun

/-- The panics of `search`: an `unwrap`, a division by zero, one of the decision tree, or one of
the evaluation of an expression. -/
inductive Panic where
  | unwrap
  | divideByZero
  | tree
  | evaluation

/-- How far `search` has come, once no example remains.  A search for improvements goes with the
flag `solved` of its filter. -/
inductive Ending where
  | covered (s : SearchRun)
  | learning (s : SearchRun)
  | improving (s : SearchRun) (solved : Bool)
  | building (s : SearchRun)
  | returned (e : OwnedExpr)

/-- What one of the threads does next.  The filter of a search for improvements adds a solution,
which may end this search if it is accepted (`ends`) or have solved the sample (`solves`), or it
stops the search, by the number of expressions or by the time. -/
inductive Move where
  | search
  | setCoverLimit (value : ℕ)
  | addSolution (sol : Expr) (ends solves : Bool)
  | stop
  | addCondition (sol : Expr)
  | setConditionCoverLimit (value : ℕ)

section Ending

variable (env : Environ) (guide : Guide) (cfg : SearchConfig) (c : PbeConstraint)

/-- `limited_ite` of `search`. -/
def limited : Bool := cfg.limitedIte || cfg.iteTreeLimit == 1 || decide (c.len ≤ 1)

/-- The state after an event of the thread of the conditions. -/
def condition (s : SearchRun) (event : SearchEvent) : SearchRun :=
  Machine.final (step env guide s event)

/-- The same stage in another state. -/
def Ending.map (f : SearchRun → SearchRun) : Ending → Ending
  | .covered s => .covered (f s)
  | .learning s => .learning (f s)
  | .improving s solved => .improving (f s) solved
  | .building s => .building (f s)
  | .returned e => .returned e

/-- The next step of `search` itself. -/
def proceed : Ending → Except Panic Ending
  | .covered s =>
      match s.exprs.solved.getLast? with
      | none => .error .unwrap
      | some (e, set) =>
          if set.length = c.len then .ok (.returned e)
          else .ok (.learning { s with exprs.checkTreeLearning := some cfg.iteTreeLimit })
  | .learning s =>
      match s.exprs.treeLearning guide s.cond with
      | .error _ => .error .tree
      | .ok true => .ok (.building s)
      | .ok false =>
          if limited cfg c then .ok (.building s)
          -- the cover limit of the search for improvements
          else if (cfg.iteTreeLimit + 1) / 2 - 1 = 0 then .error .divideByZero
          else .ok (.improving s false)
  | .improving s solved => .ok (.improving s solved)
  | .building s =>
      match s.exprs.getTree guide s.cond with
      | .error _ => .error .tree
      | .ok e => .ok (.returned e)
  | .returned e => .ok (.returned e)

/-- A search for improvements is over: it reports `!filter.solved`, and otherwise there is another
one. -/
def finish (s : SearchRun) (solved : Bool) : Ending :=
  if !solved then .building s else .improving s false

/-- A call of `add_solution` by the search for improvements. -/
def improve (sol : Expr) (ends solves : Bool) : Ending → Except Panic Ending
  | .improving s solved =>
      match s.exprs.pbecstr.test env sol, s.exprs.failsAdditionalCheck env sol,
        s.exprs.addSolution env guide s.cond sol with
      | _, _, .ok (exprs, cond, b) =>
          if b && ends then .ok (finish { s with exprs, cond } solved)
          else .ok (.improving { s with exprs, cond } (solved || solves))
      | .ok _, .ok _, .error _ => .error .tree
      | _, _, .error _ => .error .evaluation
  | st => .ok st

def move (st : Ending) : Move → Except Panic Ending
  | .search => proceed guide cfg c st
  | .setCoverLimit value =>
      match st with
      | .improving s solved =>
          .ok (.improving { s with exprs := s.exprs.setCoverLimit value } solved)
      | st => .ok st
  | .addSolution sol ends solves => improve env guide sol ends solves st
  | .stop =>
      match st with
      | .improving s solved => .ok (finish s solved)
      | st => .ok st
  | .addCondition sol => .ok (st.map fun s => condition env guide s (.addCondition sol))
  | .setConditionCoverLimit value =>
      .ok (st.map fun s => condition env guide s (.setConditionCoverLimit value))

/-- A number of moves of the threads, in any order. -/
def moves (st : Ending) (l : List Move) : Except Panic Ending :=
  l.foldlM (move env guide cfg c) st

/-- A move does not take a branch that goes wrong: if no tree is learned, improvements are searched
with a limit that leaves room for a tree; a search for improvements is stopped only if its sample is
solved or a tree can be learned; and the buffer of the conditions does not change between the
success and the last tree. -/
def Safe : Ending → Move → Prop
  | .learning s, .search => s.exprs.treeLearning guide s.cond = .ok true ∨
      limited cfg c = false ∧ 3 ≤ cfg.iteTreeLimit
  | .improving s solved, .stop => solved = true ∨ s.exprs.treeLearning guide s.cond = .ok true
  | .building s, .addCondition sol => (condition env guide s (.addCondition sol)).cond = s.cond
  | _, _ => True

/-- All moves are safe. -/
def SafeMoves : Ending → List Move → Prop
  | _, [] => True
  | st, m :: l => Safe env guide cfg c st m ∧
      ∀ st', move env guide cfg c st m = .ok st' → SafeMoves st' l

end Ending

end SearchRun

/-! ### Trees that are solved -/

namespace SubProblem

variable {guide : Guide} {conditions options : List (OwnedExpr × Bits)} {limit size : ℕ}
variable {root : SubProblem} {S : Set ℕ}

/-- A tree that is solved has no unsolved nodes. -/
theorem pending_of_run {fuel counter : ℕ} {root root' : SubProblem}
    (h : run guide conditions options limit fuel counter root = .ok (root', true)) :
  root'.pending = 0
  := by
  induction fuel generalizing counter root with
  | zero => cases h
  | succ fuel ih =>
      rw [run_succ_eq, bind_eq_ok] at h
      obtain ⟨r, hr, h⟩ := h
      match r, hr, h with
      | none, hr, h =>
          cases h
          apply pending_of_expand_none hr
      | some (root₁, false), _, h => exact ih h
      | some (root₁, true), _, h =>
          simp only at h
          split_ifs at h
          · cases h
          · apply ih h

/-- The expression of a tree without unsolved nodes. -/
theorem exists_bvexpr (h : Covers size conditions options root S) (hpending : root.pending = 0) :
  ∃ e, root.bvexpr conditions options = .ok e
  := by
  induction root generalizing S with
  | unsolved bits => cases hpending
  | accept i =>
      obtain ⟨o, ho, -⟩ := h
      rw [bvexpr, ho]
      exact ⟨_, rfl⟩
  | ite expr t f iht ihf =>
      obtain ⟨c, hc, ht, hf⟩ := h
      obtain ⟨hpt, hpf⟩ := Nat.add_eq_zero_iff.mp hpending
      obtain ⟨et, het⟩ := iht ht hpt
      obtain ⟨ef, hef⟩ := ihf hf hpf
      rw [bvexpr, het, hef, hc]
      exact ⟨_, rfl⟩

/-- A solution of all examples is a tree, whatever the conditions. -/
theorem treeLearning_of_option (hguide : guide.Settles) {o : OwnedExpr × Bits} (ho : o ∈ options)
    (hall : (Bits.boxedOnes size).subset o.2 = true) :
  ∃ root, treeLearning guide conditions options limit size = .ok (root, true)
  := by
  have hsettled : guide.settled options (Bits.boxedOnes size) = true := hguide _ _ ⟨o, ho, hall⟩
  have hfound : ∃ i, options.findIdx? (fun x => (Bits.boxedOnes size).subset x.2) = some i := by
    rw [← Option.isSome_iff_exists, List.findIdx?_isSome, List.any_eq_true]
    exact ⟨o, ho, hall⟩
  obtain ⟨i, hi⟩ := hfound
  have hselect : select guide conditions options (Bits.boxedOnes size) = .ok (.accept i) := by
    simp only [select, hsettled, if_true, hi]
  use .accept i
  have hexpand : expand guide conditions options (.unsolved (Bits.boxedOnes size))
      = .ok (some (.accept i, false)) := by
    rw [expand, hselect]
    rfl
  rw [treeLearning, run_succ_eq, hexpand]
  rfl

/-- Learning does not panic when there is a condition. -/
theorem exists_treeLearning (guide : Guide) (options : List (OwnedExpr × Bits)) (size : ℕ)
    (hne : conditions ≠ []) (hlimit : 0 < limit) :
  ∃ r, treeLearning guide conditions options limit size = .ok r
  := by
  obtain ⟨root, b, hrun, -⟩ := exists_run guide options
    (.unsolved (Bits.boxedOnes size)) hne (limit + 3) 1 hlimit rfl
  exact ⟨_, hrun⟩

end SubProblem

namespace SearchRun

section Ending

variable {env : Environ} {guide : Guide} {cfg : SearchConfig} {c additional : PbeConstraint}
variable {s s' : SearchRun} {st st' : Ending} {l : List Move} {before : List SearchEvent}

/-- The tree of the state is solved. -/
def Learned (guide : Guide) (s : SearchRun) : Prop :=
  ∃ limit, s.exprs.checkTreeLearning = some limit ∧ ∃ root,
    SubProblem.treeLearning guide s.cond s.exprs.toBits limit s.exprs.pbecstr.len = .ok (root, true)

/-- A tree that is solved can be built. -/
theorem Sound.exists_getTree (h : Sound env c s) (hlearned : Learned guide s) :
  ∃ e, s.exprs.getTree guide s.cond = .ok e
  := by
  obtain ⟨limit, hlimit, root, htree⟩ := hlearned
  rw [Solutions.getTree, hlimit]
  simp only [htree, bind, Except.bind]
  rw [h.exprs.pbecstr_eq] at htree
  have hsized : SubProblem.Sized c.len s.cond := by
    have hcond := h.cond.sized
    rwa [PbeConstraint.len_setOutput] at hcond
  have hstart : SubProblem.Covers c.len s.cond s.exprs.toBits (.unsolved (Bits.boxedOnes c.len))
      (Blocks.toSet (Bits.boxedOnes c.len)) := ⟨Bits.length_boxedOnes c.len, rfl⟩
  have hcovers := hstart.run hsized h.exprs.toBits.sized htree
  apply SubProblem.exists_bvexpr hcovers (SubProblem.pending_of_run htree)

/-- Learning does not panic, and where it succeeds the tree is solved. -/
theorem exists_treeLearning (guide : Guide) {limit : ℕ} (hlimit : 0 < limit) {t : Solutions}
    (conds : CondBuffer) (ht : t.checkTreeLearning = some limit) :
  ∃ b, t.treeLearning guide conds = .ok b ∧ (b = true → ∃ root,
    SubProblem.treeLearning guide conds t.toBits limit t.pbecstr.len = .ok (root, true))
  := by
  rw [Solutions.treeLearning, ht]
  simp only
  split_ifs with hunsolved hempty
  · exact ⟨false, rfl, nofun⟩
  · exact ⟨false, rfl, nofun⟩
  · have hne : conds ≠ [] := fun h => hempty (congrArg List.length h)
    obtain ⟨⟨root, b⟩, htree⟩ := SubProblem.exists_treeLearning guide
      t.toBits t.pbecstr.len hne hlimit
    rw [htree]
    refine ⟨b, rfl, fun hb => ⟨root, ?_⟩⟩
    rw [← hb]

/-- Adding a solution does not panic where its evaluation does not. -/
theorem exists_addSolution (guide : Guide) {limit : ℕ} (hlimit : 0 < limit) {t : Solutions}
    (conds : CondBuffer) {sol : Expr} {set : List ℕ} {failed : Bool}
    (ht : t.checkTreeLearning = some limit)
    (hset : t.pbecstr.test env sol = .ok set)
    (hfailed : t.failsAdditionalCheck env sol = .ok failed) :
  ∃ r, t.addSolution env guide conds sol = .ok r
  := by
  have hmark : (t.markSolved set).checkTreeLearning = some limit := by
    unfold Solutions.markSolved
    split_ifs
    · apply ht
    · apply ht
  rw [Solutions.addSolution, hset]
  simp only [bind, Except.bind, hfailed]
  split
  · split
    · exact ⟨_, rfl⟩
    · split
      · exact ⟨_, rfl⟩
      · split
        · exact ⟨_, rfl⟩
        · obtain ⟨b, hb, -⟩ := exists_treeLearning guide hlimit
            (t := (t.markSolved set).push sol set) ((t.markSolved set).flush conds) hmark
          rw [hb]
          exact ⟨_, rfl⟩
  · exact ⟨_, rfl⟩

/-- A solution that is accepted solves all examples, or the tree is solved with it. -/
theorem addSolution_eq_true {t t' : Solutions} {conds conds' : CondBuffer} {sol : Expr}
    (h : t.addSolution env guide conds sol = .ok (t', conds', true)) :
  ∃ set, t.pbecstr.test env sol = .ok set ∧ t' = (t.markSolved set).push sol set ∧
    (set.length = t'.pbecstr.len ∨ t'.treeLearning guide conds' = .ok true)
  := by
  obtain ⟨set, hset, h⟩ := bind_eq_ok.mp h
  split at h
  · obtain ⟨failed, -, h⟩ := bind_eq_ok.mp h
    split at h
    · cases h
    · split at h
      · cases h
      · simp only at h
        split at h
        · next hall =>
            cases h
            exact ⟨set, hset, rfl, Or.inl hall⟩
        · obtain ⟨b, hb, h⟩ := bind_eq_ok.mp h
          cases h
          exact ⟨set, hset, rfl, Or.inr hb⟩
  · cases h

/-- A set of as many examples as there are has all of them. -/
theorem boxedOnes_subset {sol : Expr} {set : List ℕ} (hset : c.test env sol = .ok set)
    (hall : set.length = c.len) :
  (Bits.boxedOnes c.len).subset (Bits.fromBitIter set c.len) = true
  := by
  apply Blocks.subset_of_toSet
  intro i hi
  rw [Bits.mem_fromBitIter fun j hj => PbeConstraint.lt_of_mem_test hset hj]
  apply PbeConstraint.mem_test_of_length hset hall
  rw [Bits.mem_boxedOnes, Bits.ceildiv] at hi
  omega

theorem checkTreeLearning_addSolution {t t' : Solutions} {conds conds' : CondBuffer} {sol : Expr}
    {b : Bool} (h : t.addSolution env guide conds sol = .ok (t', conds', b)) :
  t'.checkTreeLearning = t.checkTreeLearning
  := by
  rcases Solutions.addSolution_eq_ok h with ⟨rfl, -⟩ | ⟨set, -, -, rfl, -⟩
  · rfl
  · unfold Solutions.markSolved
    split_ifs
    · rfl
    · rfl

/-- After an accepted solution the tree is solved. -/
theorem learned_addSolution (hguide : guide.Settles) (hlimit : 0 < cfg.iteTreeLimit)
    (hsound : Sound env c s) (hcheck : s.exprs.checkTreeLearning = some cfg.iteTreeLimit)
    {exprs : Solutions} {cond : CondBuffer} {sol : Expr}
    (hadd : s.exprs.addSolution env guide s.cond sol = .ok (exprs, cond, true)) :
  Learned guide { s with exprs, cond }
  := by
  have hcheck' := (checkTreeLearning_addSolution hadd).trans hcheck
  have hcstr : exprs.pbecstr = c := (hsound.exprs.addSolution hadd).pbecstr_eq
  refine ⟨cfg.iteTreeLimit, hcheck', ?_⟩
  obtain ⟨set, hset, hpush, hall | htree⟩ := addSolution_eq_true hadd
  · -- a solution of all examples is an option that covers the root
    rw [hsound.exprs.pbecstr_eq] at hset
    rw [hcstr] at hall
    have hsubset := boxedOnes_subset hset hall
    rw [← hcstr] at hsubset
    apply SubProblem.treeLearning_of_option hguide (o := (sol.convert, _)) _ hsubset
    have hmark : (s.exprs.markSolved set).pbecstr = exprs.pbecstr := by
      rw [hpush]
      rfl
    rw [hpush, Solutions.toBits_push, hmark, ← hpush]
    apply List.mem_append_right _ (List.mem_singleton_self _)
  · obtain ⟨b, hb, hroot⟩ := exists_treeLearning guide hlimit cond hcheck'
    rw [hb] at htree
    apply hroot (Except.ok.inj htree)

/-- What holds at a stage: nothing remains, and before the last tree is built it is solved. -/
def Invariant (env : Environ) (guide : Guide) (cfg : SearchConfig) (c : PbeConstraint) :
    Ending → Prop
  | .covered s => Sound env c s ∧ s.exprs.solved ≠ []
  | .learning s => Sound env c s ∧ s.exprs.checkTreeLearning = some cfg.iteTreeLimit
  | .improving s _ => Sound env c s ∧ s.exprs.checkTreeLearning = some cfg.iteTreeLimit
  | .building s => Sound env c s ∧ Learned guide s
  | .returned _ => True

/-- An event of the conditions leaves the expressions as they are. -/
theorem exprs_condition {event : SearchEvent}
    (hevent : (∃ sol, event = .addCondition sol) ∨ ∃ v, event = .setConditionCoverLimit v) :
  (condition env guide s event).exprs = s.exprs
  := by
  rcases hevent with ⟨sol, rfl⟩ | ⟨v, rfl⟩
  · simp only [condition, SearchRun.step]
    split
    · rfl
    · rfl
  · rfl

theorem Invariant.map {event : SearchEvent}
    (hevent : (∃ sol, event = .addCondition sol) ∨ ∃ v, event = .setConditionCoverLimit v)
    (h : Invariant env guide cfg c st)
    (hcond : ∀ s, st = .building s → (condition env guide s event).cond = s.cond) :
  Invariant env guide cfg c (st.map fun s => condition env guide s event)
  := by
  cases st with
  | covered s => exact ⟨h.1.step event, by rw [exprs_condition hevent]; exact h.2⟩
  | learning s => exact ⟨h.1.step event, by rw [exprs_condition hevent]; exact h.2⟩
  | improving s solved => exact ⟨h.1.step event, by rw [exprs_condition hevent]; exact h.2⟩
  | building s =>
      refine ⟨h.1.step event, ?_⟩
      rw [Learned, exprs_condition hevent, hcond s rfl]
      apply h.2
  | returned e => trivial

/-- A safe step of `search` does not panic. -/
theorem Invariant.proceed (hlimit : 0 < cfg.iteTreeLimit) (h : Invariant env guide cfg c st)
    (hsafe : Safe env guide cfg c st .search) :
  ∃ st', SearchRun.proceed guide cfg c st = .ok st' ∧ Invariant env guide cfg c st'
  := by
  cases st with
  | covered s =>
      obtain ⟨hsound, hne⟩ := h
      simp only [SearchRun.proceed]
      rw [List.getLast?_eq_some_getLast hne]
      simp only
      split
      · exact ⟨_, rfl, trivial⟩
      · refine ⟨_, rfl, ?_, rfl⟩
        exact ⟨⟨hsound.exprs.pbecstr_eq, hsound.exprs.tested⟩, hsound.exprs_buffer, hsound.conds,
          hsound.cond⟩
  | learning s =>
      obtain ⟨hsound, hcheck⟩ := h
      obtain ⟨b, hb, hroot⟩ := exists_treeLearning guide hlimit s.cond hcheck
      simp only [SearchRun.proceed, hb]
      cases b with
      | true => exact ⟨_, rfl, hsound, cfg.iteTreeLimit, hcheck, hroot rfl⟩
      | false =>
          rcases hsafe with hlearned | ⟨hlimited, hroom⟩
          · rw [hb] at hlearned
            cases hlearned
          · have hdivisor : (cfg.iteTreeLimit + 1) / 2 - 1 ≠ 0 := by omega
            simp only [hlimited, Bool.false_eq_true, if_false, hdivisor]
            exact ⟨_, rfl, hsound, hcheck⟩
  | improving s solved => exact ⟨_, rfl, h⟩
  | building s =>
      obtain ⟨e, he⟩ := h.1.exists_getTree h.2
      simp only [SearchRun.proceed, he]
      exact ⟨_, rfl, trivial⟩
  | returned e => exact ⟨_, rfl, trivial⟩

/-- When a search for improvements is over, a tree is solved or there is another search. -/
theorem Invariant.finish {solved : Bool} (h : Invariant env guide cfg c (.improving s solved))
    (hlearned : solved = false → Learned guide s) :
  Invariant env guide cfg c (SearchRun.finish s solved)
  := by
  cases solved with
  | false => exact ⟨h.1, hlearned rfl⟩
  | true => exact h

/-- A search for improvements panics only where an evaluation does, and ends with a tree that is
solved. -/
theorem Invariant.improve (hguide : guide.Settles) (hlimit : 0 < cfg.iteTreeLimit)
    (h : Invariant env guide cfg c st) (sol : Expr) (ends solves : Bool) :
  SearchRun.improve env guide sol ends solves st = .error .evaluation ∨
    ∃ st', SearchRun.improve env guide sol ends solves st = .ok st' ∧
      Invariant env guide cfg c st'
  := by
  cases st with
  | improving s solved =>
      obtain ⟨hsound, hcheck⟩ := h
      simp only [SearchRun.improve]
      split
      · next exprs cond b hadd =>
          have hstep : Sound env c { s with exprs, cond } := by
            have hevent : Sound env c (Machine.final (step env guide s (.addSolution sol))) :=
              hsound.step _
            rw [SearchRun.step, hadd] at hevent
            apply hevent
          have hcheck' : exprs.checkTreeLearning = some cfg.iteTreeLimit := by
            rw [← hcheck]
            apply checkTreeLearning_addSolution hadd
          split
          · next hboth =>
              obtain rfl := (Bool.and_eq_true_iff.mp hboth).1
              have hinv : Invariant env guide cfg c (.improving { s with exprs, cond } solved) :=
                ⟨hstep, hcheck'⟩
              refine Or.inr ⟨_, rfl, hinv.finish fun _ => ?_⟩
              apply learned_addSolution hguide hlimit hsound hcheck hadd
          · apply Or.inr ⟨_, rfl, hstep, hcheck'⟩
      · next set failed f hset hfailed hadd =>
          obtain ⟨r, hr⟩ := exists_addSolution guide hlimit s.cond hcheck hset
            hfailed
          rw [hadd] at hr
          cases hr
      · apply Or.inl rfl
  | covered s => exact Or.inr ⟨_, rfl, h⟩
  | learning s => exact Or.inr ⟨_, rfl, h⟩
  | building s => exact Or.inr ⟨_, rfl, h⟩
  | returned e => exact Or.inr ⟨_, rfl, h⟩

/-- A safe move panics only where an evaluation does. -/
theorem Invariant.move (hguide : guide.Settles) (hlimit : 0 < cfg.iteTreeLimit)
    (h : Invariant env guide cfg c st) {m : Move} (hsafe : Safe env guide cfg c st m) :
  SearchRun.move env guide cfg c st m = .error .evaluation ∨
    ∃ st', SearchRun.move env guide cfg c st m = .ok st' ∧ Invariant env guide cfg c st'
  := by
  cases m with
  | search => exact Or.inr (h.proceed hlimit hsafe)
  | setCoverLimit value =>
      cases st with
      | improving s solved =>
          refine Or.inr ⟨_, rfl, ?_, h.2⟩
          have hevent : Sound env c (Machine.final (step env guide s (.setCoverLimit value))) :=
            h.1.step _
          apply hevent
      | covered s => exact Or.inr ⟨_, rfl, h⟩
      | learning s => exact Or.inr ⟨_, rfl, h⟩
      | building s => exact Or.inr ⟨_, rfl, h⟩
      | returned e => exact Or.inr ⟨_, rfl, h⟩
  | addSolution sol ends solves => exact h.improve hguide hlimit sol ends solves
  | stop =>
      cases st with
      | improving s solved =>
          refine Or.inr ⟨_, rfl, h.finish fun hsolved => ?_⟩
          rcases hsafe with htrue | hlearned
          · cases htrue.symm.trans hsolved
          · obtain ⟨b, hb, hroot⟩ := exists_treeLearning guide hlimit s.cond h.2
            rw [hb] at hlearned
            exact ⟨cfg.iteTreeLimit, h.2, hroot (Except.ok.inj hlearned)⟩
      | covered s => exact Or.inr ⟨_, rfl, h⟩
      | learning s => exact Or.inr ⟨_, rfl, h⟩
      | building s => exact Or.inr ⟨_, rfl, h⟩
      | returned e => exact Or.inr ⟨_, rfl, h⟩
  | addCondition sol =>
      refine Or.inr ⟨_, rfl, h.map (Or.inl ⟨sol, rfl⟩) ?_⟩
      rintro s rfl
      apply hsafe
  | setConditionCoverLimit value =>
      refine Or.inr ⟨_, rfl, h.map (Or.inr ⟨value, rfl⟩) ?_⟩
      rintro s rfl
      rfl

theorem Invariant.moves (hguide : guide.Settles) (hlimit : 0 < cfg.iteTreeLimit)
    (h : Invariant env guide cfg c st) (hsafe : SafeMoves env guide cfg c st l) :
  (∃ st', SearchRun.moves env guide cfg c st l = .ok st' ∧ Invariant env guide cfg c st') ∨
    SearchRun.moves env guide cfg c st l = .error .evaluation
  := by
  induction l generalizing st with
  | nil => exact Or.inl ⟨st, rfl, h⟩
  | cons m l ih =>
      rw [SearchRun.moves, List.foldlM_cons]
      rcases h.move hguide hlimit hsafe.1 with herror | ⟨st', hst', hinv⟩
      · rw [herror]
        apply Or.inr rfl
      · rw [hst']
        apply ih hinv (hsafe.2 st' hst')

/-- The expressions are bookkept. -/
def Keeps (env : Environ) (c : PbeConstraint) (s : SearchRun) : Prop :=
  Solutions.Bookkept env c s.exprs ∧ s.exprs.pbecstr = c ∧ s.exprs.checkDups = true

theorem Keeps.call (h : Keeps env c s) (guide : Guide) (call : SolutionCall) {exprs : Solutions}
    (hcall : s.exprs.call env guide call = .ok exprs) :
  Solutions.Bookkept env c exprs ∧ exprs.pbecstr = c ∧ exprs.checkDups = true
  := by
  obtain ⟨hbook, hc, hdups, -⟩ := h.1.call h.2.1 h.2.2 hcall
  exact ⟨hbook, hc, hdups⟩

theorem Keeps.step (h : Keeps env c s) (event : SearchEvent) :
  Keeps env c (Machine.final (step env guide s event))
  := by
  cases event with
  | addSolution sol =>
      simp only [SearchRun.step]
      split
      · next exprs cond b hadd =>
          exact h.call guide (.addSolution s.cond sol)
            (Solutions.map_eq_ok.mpr ⟨_, hadd, rfl⟩)
      · apply h
  | addSolution2 sol =>
      simp only [SearchRun.step]
      split
      · next exprs cond b hadd =>
          exact h.call guide (.addSolution2 s.cond sol)
            (Solutions.map_eq_ok.mpr ⟨_, hadd, rfl⟩)
      · apply h
  | addSolutionUnchecked sol =>
      simp only [SearchRun.step]
      split
      · next exprs b hadd =>
          exact h.call guide (.addSolutionUnchecked sol)
            (Solutions.map_eq_ok.mpr ⟨_, hadd, rfl⟩)
      · apply h
  | setCoverLimit value =>
      apply h.call guide (.configure _ s.exprs.checkTreeLearning) rfl
  | addCondition sol =>
      change Keeps env c (condition env guide s (.addCondition sol))
      rw [Keeps, exprs_condition (Or.inl ⟨sol, rfl⟩)]
      apply h
  | setConditionCoverLimit value => exact h

/-- Something is recorded when there are examples and none remains. -/
theorem solved_ne_nil (hlen : 0 < c.len)
    (hbefore : run env guide (start cfg c additional) before = .ok s)
    (hcovered : s.exprs.unsolved = []) :
  s.exprs.solved ≠ []
  := by
  have hnew := Solutions.bookkept_checked env c additional false
  have hstart : Keeps env c (start cfg c additional) :=
    ⟨⟨hnew.unsolved, hnew.recorded, hnew.sorted_unsolved, hnew.sorted_solved⟩, rfl, rfl⟩
  have hkeeps : Keeps env c (Machine.final (Machine.run (SearchRun.step env guide)
      (start cfg c additional) before)) :=
    Machine.final_run (fun s hs i _ => hs.step i) hstart
  unfold run at hbefore
  split at hbefore
  · next s₁ hs₁ =>
      cases hbefore
      rw [hs₁] at hkeeps
      intro hnil
      have hzero := (hkeeps.1.unsolved 0).mpr ⟨hlen, by rw [Machine.final, hnil]; exact nofun⟩
      rw [Machine.final, hcovered] at hzero
      cases hzero
  · cases hbefore

/-- Once no example remains, `search` panics only where the evaluation of an expression does, if
its moves are safe, and before the last tree is built it is solved. -/
theorem moves_panic (hguide : guide.Settles) (hlen : 0 < c.len) (hlimit : 0 < cfg.iteTreeLimit)
    (hbefore : run env guide (start cfg c additional) before = .ok s)
    (hcovered : s.exprs.unsolved = []) (hsafe : SafeMoves env guide cfg c (.covered s) l) :
  (∃ st, moves env guide cfg c (.covered s) l = .ok st ∧
      ∀ s', st = .building s' → Learned guide s') ∨
    moves env guide cfg c (.covered s) l = .error .evaluation
  := by
  have hsound := (Sound.start env cfg c additional).run hbefore
  have hinv : Invariant env guide cfg c (.covered s) :=
    ⟨hsound, solved_ne_nil hlen hbefore hcovered⟩
  rcases hinv.moves hguide hlimit hsafe with ⟨st, hst, hinv'⟩ | herror
  · refine Or.inl ⟨st, hst, ?_⟩
    rintro s' rfl
    apply hinv'.2
  · apply Or.inr herror

end Ending

/-! ### A search that ends and one that panics -/

theorem firstGuide_settles :
  firstGuide.Settles
  := fun _ _ _ => rfl

/-- The solutions `7` and `9` of the two examples, and a condition between them. -/
theorem moves_panic_two :
  ∃ s, run (Environ.new 0) firstGuide (start ⟨5, false⟩ twoExamples (PbeConstraint.new 1))
      (twoEvents (.const 9)) = .ok s ∧
    ((∃ st, moves (Environ.new 0) firstGuide ⟨5, false⟩ twoExamples (.covered s)
        [.search, .search] = .ok st ∧ ∀ s', st = .building s' → Learned firstGuide s') ∨
      moves (Environ.new 0) firstGuide ⟨5, false⟩ twoExamples (.covered s) [.search, .search]
        = .error .evaluation)
  := by
  have hpanic : ∀ s, run (Environ.new 0) firstGuide
      (start ⟨5, false⟩ twoExamples (PbeConstraint.new 1)) (twoEvents (.const 9)) = .ok s →
      s.exprs.unsolved = [] →
      SafeMoves (Environ.new 0) firstGuide ⟨5, false⟩ twoExamples (.covered s) [.search, .search] →
      _ := fun s hs hcovered hsafe =>
    moves_panic firstGuide_settles (by decide) (by decide) hs hcovered hsafe
  refine ⟨_, rfl, hpanic _ rfl rfl ?_⟩
  refine ⟨trivial, fun st hst => ?_⟩
  obtain rfl := Except.ok.inj hst
  exact ⟨Or.inl rfl, fun _ _ => trivial⟩

/-- With a limit of two and no condition yet, the cover limit is divided by zero. -/
theorem moves_divideByZero :
  ¬ ∀ (env : Environ) (guide : Guide) (cfg : SearchConfig) (c additional : PbeConstraint)
      (before : List SearchEvent) (s : SearchRun) (l : List Move) (panic : Panic),
      guide.Settles → 0 < c.len → 0 < cfg.iteTreeLimit →
        run env guide (start cfg c additional) before = .ok s → s.exprs.unsolved = [] →
          moves env guide cfg c (.covered s) l = .error panic → panic = .evaluation
  := by
  intro h
  have hdivide := h (Environ.new 0) firstGuide ⟨2, false⟩ twoExamples (PbeConstraint.new 1)
    [.addSolution (.const 7), .addSolution (.const 9)] _ [.search, .search] .divideByZero
    firstGuide_settles (by decide) (by decide) rfl rfl rfl
  cases hdivide

end SearchRun

end DryadSynth
