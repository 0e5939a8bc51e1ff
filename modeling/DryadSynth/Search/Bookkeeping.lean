import DryadSynth.Search.SearchSound

/-!
# Bookkeeping of solutions

The examples that remain are those that no recorded solution solves, after any calls that add
solutions.
-/

namespace DryadSynth

/-- The expression has the output of an example as its value. -/
def Solves (env : Environ) (c : PbeConstraint) (e : OwnedExpr) (i : ℕ) : Prop :=
  ∃ as out, c.args i = .ok as ∧ c.output[i]? = some out ∧ e.eval env as = .ok out

/-- A call that may add a solution, with the conditions that are in the buffer, or a change of
the fields that decide what is accepted. -/
inductive SolutionCall where
  | addSolution (conds : CondBuffer) (sol : Expr)
  | addSolution2 (conds : CondBuffer) (sol : Expr)
  | addSolutionUnchecked (sol : Expr)
  | configure (coverLimit : ℕ) (checkTreeLearning : Option ℕ)

namespace Solutions

section Calls

variable (env : Environ) (guide : Guide)

/-- Solutions that are checked for duplicates, before any call. -/
def checked (c additional : PbeConstraint) (condBuffer : Bool) : Solutions :=
  { Solutions.new c true with additionalCheck := additional, condBuffer }

/-- The solutions after a call. -/
def call (s : Solutions) : SolutionCall → Except Fault Solutions
  | .addSolution conds sol => (s.addSolution env guide conds sol).map fun r => r.1
  | .addSolution2 conds sol => (s.addSolution2 env guide conds sol).map fun r => r.1
  | .addSolutionUnchecked sol => (s.addSolutionUnchecked env sol).map fun r => r.1
  | .configure coverLimit checkTreeLearning => .ok { s with coverLimit, checkTreeLearning }

/-- The solutions after a number of calls. -/
def callAll (s : Solutions) (calls : List SolutionCall) : Except Fault Solutions :=
  calls.foldlM (call env guide) s

/-- What remains and what is recorded are in step: an example remains exactly when no recorded
solution solves it, every solution is recorded with the examples that it solves, and all sets
are sorted without duplicates. -/
structure Bookkept (c : PbeConstraint) (s : Solutions) : Prop where
  unsolved (i : ℕ) : i ∈ s.unsolved ↔ i < c.len ∧ ∀ p ∈ s.solved, i ∉ p.2
  recorded : ∀ p ∈ s.solved, ∀ i, i ∈ p.2 ↔ i < c.len ∧ Solves env c p.1 i
  sorted_unsolved : s.unsolved.Pairwise (· < ·)
  sorted_solved : ∀ p ∈ s.solved, p.2.Pairwise (· < ·)

/-- A call records nothing and leaves what remains as it is, or it records a set, which is not
contained in a recorded one unless it is not checked. -/
def Records (s : Solutions) (c : SolutionCall) (s' : Solutions) : Prop :=
  s'.solved = s.solved ∧ s'.unsolved = s.unsolved ∨
    ∃ e set, s'.solved = s.solved ++ [(e, set)] ∧
      ((∃ sol, c = .addSolutionUnchecked sol) ∨ ∀ p ∈ s.solved, ¬ set ⊆ p.2)

end Calls

section Calls

variable {env : Environ} {guide : Guide} {c : PbeConstraint} {s s' : Solutions} {set : List ℕ}
variable {sol : Expr} {calls : List SolutionCall} {e : OwnedExpr}

theorem map_eq_ok {ε α β : Type} {x : Except ε α} {f : α → β} {b : β} :
  x.map f = .ok b ↔ ∃ a, x = .ok a ∧ b = f a
  := by
  cases x with
  | error fault => simp [Except.map]
  | ok a => simp [Except.map, eq_comm]

theorem mem_difference {a b : List ℕ} {i : ℕ} :
  i ∈ difference a b ↔ i ∈ a ∧ i ∉ b
  := by simp [difference]

/-- A set is rejected when it is contained in a recorded one. -/
theorem not_subset_of_rejects (hdups : s.checkDups = true) (h : s.rejects set = false) :
  ∀ p ∈ s.solved, ¬ set ⊆ p.2
  := by
  intro p hp hsub
  rw [rejects, if_pos hdups, List.any_eq_false] at h
  apply h p hp
  rw [decide_eq_true_iff, List.length_eq_zero_iff, difference, List.filter_eq_nil_iff]
  intro i hi
  simpa using hsub hi

/-- The examples in the set of a tested expression are those that it solves. -/
theorem mem_test_iff_solves (h : c.test env e = .ok set) (i : ℕ) :
  i ∈ set ↔ i < c.len ∧ Solves env c e i
  := by
  constructor
  · intro hi
    exact ⟨PbeConstraint.lt_of_mem_test h hi, PbeConstraint.mem_test h hi⟩
  · rintro ⟨-, as, out, has, hout, heval⟩
    apply (PbeConstraint.mem_test_iff h has hout).mpr heval

theorem sorted_test (h : c.test env e = .ok set) :
  set.Pairwise (· < ·)
  := by
  rw [(PbeConstraint.filterM_eq_ok h).1]
  apply List.pairwise_lt_range.filter _

/-- What holds after a set is recorded and its examples no longer remain. -/
theorem Bookkept.push (h : Bookkept env c s) (hset : c.test env sol = .ok set) :
  Bookkept env c (Solutions.push { s with unsolved := difference s.unsolved set } sol set)
  := by
  have hset' : c.test env (sol.convert : OwnedExpr) = .ok set := by
    rw [PbeConstraint.test_convert, hset]
  constructor
  · intro i
    simp only [Solutions.push, mem_difference, h.unsolved, List.forall_mem_append,
      List.forall_mem_singleton, and_assoc]
  · intro p hp
    rcases List.mem_append.mp hp with hp | hp
    · apply h.recorded p hp
    · rw [List.mem_singleton.mp hp]
      apply mem_test_iff_solves hset'
  · apply h.sorted_unsolved.filter _
  · intro p hp
    rcases List.mem_append.mp hp with hp | hp
    · apply h.sorted_solved p hp
    · rw [List.mem_singleton.mp hp]
      apply sorted_test hset'

/-- What a call does. -/
theorem Bookkept.call (h : Bookkept env c s) (hc : s.pbecstr = c) (hdups : s.checkDups = true)
    {call : SolutionCall} (hcall : s.call env guide call = .ok s') :
  Bookkept env c s' ∧ s'.pbecstr = c ∧ s'.checkDups = true ∧ Records s call s'
  := by
  have hmark : ∀ set, s.markSolved set = { s with unsolved := difference s.unsolved set } := by
    intro set
    rw [markSolved, if_pos hdups]
  cases call with
  | addSolution conds sol =>
      obtain ⟨⟨s₁, conds', b⟩, hadd, rfl⟩ := map_eq_ok.mp hcall
      rcases addSolution_eq_ok hadd with ⟨rfl, -⟩ | ⟨set, hset, hrejects, rfl, -⟩
      · exact ⟨h, hc, hdups, Or.inl ⟨rfl, rfl⟩⟩
      · rw [hmark]
        rw [hc] at hset
        refine ⟨h.push hset, hc, hdups, Or.inr ⟨_, set, rfl, Or.inr ?_⟩⟩
        apply not_subset_of_rejects hdups hrejects
  | addSolution2 conds sol =>
      obtain ⟨⟨s₁, conds', b⟩, hadd, rfl⟩ := map_eq_ok.mp hcall
      rcases addSolution2_eq_ok hadd with ⟨-, rfl | ⟨set, hset, hrejects, rfl⟩⟩
      · exact ⟨h, hc, hdups, Or.inl ⟨rfl, rfl⟩⟩
      · rw [hmark]
        rw [hc] at hset
        refine ⟨h.push hset, hc, hdups, Or.inr ⟨_, set, rfl, Or.inr ?_⟩⟩
        apply not_subset_of_rejects hdups hrejects
  | addSolutionUnchecked sol =>
      obtain ⟨⟨s₁, b⟩, hadd, rfl⟩ := map_eq_ok.mp hcall
      obtain ⟨set, hset, hadd⟩ := bind_eq_ok.mp hadd
      split at hadd
      · cases hadd
        rw [hc] at hset
        exact ⟨h.push hset, hc, hdups, Or.inr ⟨_, set, rfl, Or.inl ⟨sol, rfl⟩⟩⟩
      · cases hadd
        exact ⟨h, hc, hdups, Or.inl ⟨rfl, rfl⟩⟩
  | configure coverLimit checkTreeLearning =>
      cases hcall
      exact ⟨⟨h.unsolved, h.recorded, h.sorted_unsolved, h.sorted_solved⟩, hc, hdups,
        Or.inl ⟨rfl, rfl⟩⟩

theorem bookkept_checked (env : Environ) (c additional : PbeConstraint) (condBuffer : Bool) :
  Bookkept env c (checked c additional condBuffer)
  := by
  constructor
  · intro i
    simp [checked, Solutions.new]
  · simp [checked, Solutions.new]
  · apply List.pairwise_lt_range
  · simp [checked, Solutions.new]

/-- After any calls what remains and what is recorded are in step, and the next call keeps both
or records a set that is new. -/
theorem bookkept_callAll {additional : PbeConstraint} {condBuffer : Bool}
    (h : callAll env guide (checked c additional condBuffer) calls = .ok s) :
  Bookkept env c s ∧ ∀ call s', s.call env guide call = .ok s' → Records s call s'
  := by
  have hrun : Bookkept env c s ∧ s.pbecstr = c ∧ s.checkDups = true := by
    induction calls using List.reverseRecOn generalizing s with
    | nil =>
        cases h
        exact ⟨bookkept_checked env c additional condBuffer, rfl, rfl⟩
    | append_singleton calls call ih =>
        rw [callAll, List.foldlM_append] at h
        obtain ⟨s₁, hs₁, h⟩ := bind_eq_ok.mp h
        rw [List.foldlM_cons] at h
        obtain ⟨s₂, hs₂, h⟩ := bind_eq_ok.mp h
        cases h
        obtain ⟨hbook, hc, hdups⟩ := ih hs₁
        obtain ⟨hbook', hc', hdups', -⟩ := hbook.call hc hdups hs₂
        exact ⟨hbook', hc', hdups'⟩
  obtain ⟨hbook, hc, hdups⟩ := hrun
  refine ⟨hbook, fun call s' hcall => ?_⟩
  apply (hbook.call hc hdups hcall).2.2.2

/-- A solution of each of two examples. -/
theorem bookkept_callAll_two :
  ∃ s, callAll (Environ.new 0) ⟨fun _ _ => true, fun _ _ _ => 0⟩
      (checked ⟨[[0, 1]], [7, 9]⟩ (PbeConstraint.new 1) false)
      [.addSolution [] (.const 7), .configure 0 none, .addSolution2 [] (.const 9)] = .ok s ∧
    Bookkept (Environ.new 0) ⟨[[0, 1]], [7, 9]⟩ s ∧
    ∀ call s', s.call (Environ.new 0) ⟨fun _ _ => true, fun _ _ _ => 0⟩ call = .ok s' →
      Records s call s'
  := by
  obtain ⟨s, hs⟩ : ∃ s, callAll (Environ.new 0) ⟨fun _ _ => true, fun _ _ _ => 0⟩
      (checked ⟨[[0, 1]], [7, 9]⟩ (PbeConstraint.new 1) false)
      [.addSolution [] (.const 7), .configure 0 none, .addSolution2 [] (.const 9)] = .ok s :=
    ⟨_, rfl⟩
  exact ⟨s, hs, bookkept_callAll hs⟩

end Calls

end Solutions

end DryadSynth
