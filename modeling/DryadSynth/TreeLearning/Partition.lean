import DryadSynth.TreeLearning.Tree

/-!
# The leaves of a decision tree

At every iteration of `TreeLearning::run` the leaves of the tree divide the examples of the root
among them.  The loop ends, and if it ends with a solved tree, the tree has only accepted
leaves and is within the limit.
-/

namespace DryadSynth

namespace SubProblem

/-! ### Leaves -/

section Leaves

variable (conditions : List (OwnedExpr × Bits))

/-- The leaves of a tree with their sets of examples, given the set at the root.  An unsolved leaf
stores its set. -/
def leaves : SubProblem → Set ℕ → List (SubProblem × Set ℕ)
  | .unsolved bits, _ => [(.unsolved bits, Blocks.toSet bits)]
  | .accept i, S => [(.accept i, S)]
  | .ite expr t f, S =>
      match conditions[expr]? with
      | some c => t.leaves (S ∩ Blocks.toSet c.2) ++ f.leaves (S \ Blocks.toSet c.2)
      | none => []

/-- `TreeLearning::result_size`. -/
def resultSize : SubProblem → ℕ
  | .unsolved _ => 1
  | .accept _ => 1
  | .ite _ t f => 1 + t.resultSize + f.resultSize

end Leaves

/-- The leaves divide a set of examples, and what is accepted is solved by its option. -/
structure Partitions (conditions options : List (OwnedExpr × Bits)) (root : SubProblem)
    (S : Set ℕ) : Prop where
  disjoint : ((root.leaves conditions S).map Prod.snd).Pairwise Disjoint
  union (j : ℕ) : j ∈ S ↔ ∃ p ∈ root.leaves conditions S, j ∈ p.2
  accepted (i : ℕ) (T : Set ℕ) : (.accept i, T) ∈ root.leaves conditions S →
    ∃ o, options[i]? = some o ∧ T ⊆ Blocks.toSet o.2

section Partitions

variable {guide : Guide} {conditions options : List (OwnedExpr × Bits)} {limit size : ℕ}
variable {root root' : SubProblem} {S : Set ℕ} {b : Bool}

/-- A tree that covers a set of examples divides it. -/
theorem Covers.partitions (h : Covers size conditions options root S) :
  Partitions conditions options root S
  := by
  induction root generalizing S with
  | unsolved bits =>
      obtain ⟨-, rfl⟩ := h
      constructor
      · apply List.pairwise_singleton _ _
      · intro j
        simp [leaves]
      · intro i T hmem
        simp [leaves] at hmem
  | accept i =>
      constructor
      · apply List.pairwise_singleton _ _
      · intro j
        simp [leaves]
      · intro i' T hmem
        obtain ⟨rfl, rfl⟩ : i' = i ∧ T = S := by simpa [leaves] using hmem
        apply h
  | ite expr t f iht ihf =>
      obtain ⟨c, hc, ht, hf⟩ := h
      have hpt := iht ht
      have hpf := ihf hf
      have hleaves : (SubProblem.ite expr t f).leaves conditions S
          = t.leaves conditions (S ∩ Blocks.toSet c.2)
            ++ f.leaves conditions (S \ Blocks.toSet c.2) := by
        rw [leaves, hc]
      constructor
      · rw [hleaves, List.map_append, List.pairwise_append]
        refine ⟨hpt.disjoint, hpf.disjoint, ?_⟩
        intro T hT T' hT'
        obtain ⟨p, hp, rfl⟩ := List.mem_map.mp hT
        obtain ⟨p', hp', rfl⟩ := List.mem_map.mp hT'
        -- the one is in the set of the condition, the other one is not
        rw [Set.disjoint_left]
        intro j hj hj'
        have hin := (hpt.union j).mpr ⟨p, hp, hj⟩
        have hout := (hpf.union j).mpr ⟨p', hp', hj'⟩
        apply hout.2 hin.2
      · intro j
        simp only [hleaves, List.mem_append, or_and_right, exists_or]
        rw [← hpt.union j, ← hpf.union j]
        constructor
        · intro hj
          by_cases hcj : j ∈ Blocks.toSet c.2
          · apply Or.inl ⟨hj, hcj⟩
          · apply Or.inr ⟨hj, hcj⟩
        · rintro (hj | hj)
          · apply hj.1
          · apply hj.1
      · intro i T hmem
        rw [hleaves, List.mem_append] at hmem
        rcases hmem with hmem | hmem
        · apply hpt.accepted i T hmem
        · apply hpf.accepted i T hmem

/-! ### The loop -/

/-- There is always something to select when there is a condition. -/
theorem exists_select (guide : Guide) (options : List (OwnedExpr × Bits)) (hne : conditions ≠ [])
    (bits : Bits) :
  ∃ r, select guide conditions options bits = .ok r
  := by
  have hlt : guide.best options conditions bits % conditions.length < conditions.length :=
    Nat.mod_lt _ (List.length_pos_iff.mpr hne)
  simp only [select]
  split
  · exact ⟨_, rfl⟩
  · rw [List.getElem?_eq_getElem hlt]
    exact ⟨_, rfl⟩

/-- An iteration does not panic when there is a condition. -/
theorem exists_expand (guide : Guide) (options : List (OwnedExpr × Bits)) (hne : conditions ≠ [])
    (root : SubProblem) :
  ∃ r, root.expand guide conditions options = .ok r
  := by
  induction root with
  | unsolved bits =>
      obtain ⟨r, hr⟩ := exists_select guide options hne bits
      rw [expand, hr]
      cases r with
      | accept i => exact ⟨_, rfl⟩
      | ite expr t f => exact ⟨_, rfl⟩
  | accept i => exact ⟨_, rfl⟩
  | ite expr t f iht ihf =>
      obtain ⟨rt, ht⟩ := iht
      obtain ⟨rf, hf⟩ := ihf
      rw [expand, ht]
      cases rt with
      | some p => exact ⟨_, rfl⟩
      | none =>
          simp only [bind, Except.bind, hf]
          cases rf with
          | some p => exact ⟨_, rfl⟩
          | none => exact ⟨_, rfl⟩

/-- There is nothing to do exactly when no node is unsolved. -/
theorem pending_of_expand_none (h : root.expand guide conditions options = .ok none) :
  root.pending = 0
  := by
  induction root with
  | unsolved bits =>
      obtain ⟨r, -, h⟩ := bind_eq_ok.mp h
      cases r with
      | accept i => cases h
      | ite expr t f => cases h
  | accept i => rfl
  | ite expr t f iht ihf =>
      obtain ⟨rt, ht, h⟩ := bind_eq_ok.mp h
      cases rt with
      | some p => cases h
      | none =>
          obtain ⟨rf, hf, h⟩ := bind_eq_ok.mp h
          cases rf with
          | some p => cases h
          | none => rw [pending, iht ht, ihf hf]

/-- A split adds two nodes. -/
theorem resultSize_expand (h : root.expand guide conditions options = .ok (some (root', b))) :
  root'.resultSize = root.resultSize + (if b then 2 else 0)
  := by
  induction root generalizing root' b with
  | unsolved bits =>
      obtain ⟨r, -, h⟩ := bind_eq_ok.mp h
      cases r with
      | accept i =>
          cases h
          rfl
      | ite expr t f =>
          cases h
          rfl
  | accept i => cases h
  | ite expr t f iht ihf =>
      obtain ⟨rt, ht, h⟩ := bind_eq_ok.mp h
      cases rt with
      | some p =>
          cases h
          have hsize := iht ht
          simp only [resultSize]
          omega
      | none =>
          obtain ⟨rf, hf, h⟩ := bind_eq_ok.mp h
          cases rf with
          | some p =>
              cases h
              have hsize := ihf hf
              simp only [resultSize]
              omega
          | none => cases h

/-- The counter of the loop is the size of the tree.  With enough iterations the loop ends,
with no unsolved node and a tree within the limit, or with a tree beyond the limit. -/
theorem exists_run (guide : Guide) (options : List (OwnedExpr × Bits)) (root : SubProblem)
    (hne : conditions ≠ []) (fuel counter : ℕ) (hcounter : counter ≤ limit)
    (hsize : root.resultSize = counter) :
  ∃ root' b, run guide conditions options limit fuel counter root = .ok (root', b) ∧
    (b = true → root'.pending = 0 ∧ root'.resultSize ≤ limit) ∧
    ((limit + 2 - counter) + root.pending ≤ fuel → b = false → limit < root'.resultSize)
  := by
  induction fuel generalizing counter root with
  | zero =>
      refine ⟨root, false, rfl, nofun, fun hfuel _ => ?_⟩
      omega
  | succ fuel ih =>
      obtain ⟨r, hr⟩ := exists_expand guide options hne root
      rw [run_succ_eq, hr]
      match r, hr with
      | none, hr =>
          refine ⟨root, true, rfl, fun _ => ⟨pending_of_expand_none hr, ?_⟩, nofun⟩
          apply hsize.le.trans hcounter
      | some (root₁, false), hr =>
          have hpending := pending_expand hr
          have hsize₁ := resultSize_expand hr
          simp only [Bool.false_eq_true, if_false] at hpending hsize₁
          obtain ⟨root', b, hrun, hsolved, hends⟩ := ih _ counter hcounter (hsize₁.trans hsize)
          refine ⟨root', b, hrun, hsolved, fun hfuel => hends ?_⟩
          omega
      | some (root₁, true), hr =>
          have hpending := pending_expand hr
          have hsize₁ := resultSize_expand hr
          simp only [if_true] at hpending hsize₁
          simp only [bind, Except.bind]
          split_ifs with hlimit
          · refine ⟨root₁, false, rfl, nofun, fun _ _ => ?_⟩
            omega
          · obtain ⟨root', b, hrun, hsolved, hends⟩ :=
              ih _ (counter + 2) (not_lt.mp hlimit) (hsize₁.trans (congrArg (· + 2) hsize))
            refine ⟨root', b, hrun, hsolved, fun hfuel => hends ?_⟩
            omega

/-- A tree without unsolved nodes has only accepted leaves. -/
theorem accept_of_pending (h : root.pending = 0) :
  ∀ p ∈ root.leaves conditions S, ∃ i, p.1 = .accept i
  := by
  induction root generalizing S with
  | unsolved bits => cases h
  | accept i =>
      intro p hp
      use i
      rw [List.mem_singleton.mp hp]
  | ite expr t f iht ihf =>
      obtain ⟨ht, hf⟩ := Nat.add_eq_zero_iff.mp h
      intro p hp
      rw [leaves] at hp
      split at hp
      · rcases List.mem_append.mp hp with hp | hp
        · apply iht ht p hp
        · apply ihf hf p hp
      · cases hp

/-- Learning a tree ends, with accepted leaves only and a tree within the limit if the tree is
solved and with a tree beyond the limit if not; and after any number of iterations the
leaves divide the set of the root. -/
theorem run_partitions (guide : Guide) (hne : conditions ≠ [])
    (hconditions : Sized size conditions) (hoptions : Sized size options) (hlimit : 1 ≤ limit) :
  (∃ root b, (∀ k, run guide conditions options limit (limit + 3 + k) 1
        (.unsolved (Bits.boxedOnes size)) = .ok (root, b)) ∧
      (b = true → (∀ p ∈ root.leaves conditions (Blocks.toSet (Bits.boxedOnes size)),
        ∃ i, p.1 = .accept i) ∧ root.resultSize ≤ limit) ∧
      (b = false → limit < root.resultSize)) ∧
    ∀ k, ∃ root b, run guide conditions options limit k 1 (.unsolved (Bits.boxedOnes size))
        = .ok (root, b) ∧
      Partitions conditions options root (Blocks.toSet (Bits.boxedOnes size))
  := by
  constructor
  · obtain ⟨root, b, hrun, hsolved, hends⟩ := exists_run guide options
      (.unsolved (Bits.boxedOnes size)) hne (limit + 3) 1 hlimit rfl
    refine ⟨root, b, fun k => ?_, fun hb => ?_, fun hb => ?_⟩
    · rw [treeLearning_eq]
      apply hrun
    · exact ⟨accept_of_pending (hsolved hb).1, (hsolved hb).2⟩
    · apply hends _ hb
      simp only [pending]
      omega
  · intro k
    obtain ⟨root, b, hrun, -⟩ := exists_run guide options
      (.unsolved (Bits.boxedOnes size)) hne k 1 hlimit rfl
    have hstart : Covers size conditions options (.unsolved (Bits.boxedOnes size))
        (Blocks.toSet (Bits.boxedOnes size)) := ⟨Bits.length_boxedOnes size, rfl⟩
    have hcovers := hstart.run hconditions hoptions hrun
    exact ⟨root, b, hrun, hcovers.partitions⟩

/-- Two examples, an option for each of them, and a condition that tells them apart. -/
theorem run_partitions_two :
  (∃ root b, (∀ k, run ⟨fun _ _ => true, fun _ _ _ => 0⟩ [(.var 0, Bits.fromBitIter [0] 2)]
        [(.const 7, Bits.fromBitIter [0] 2), (.const 9, Bits.fromBitIter [1] 2)] 3 (3 + 3 + k) 1
        (.unsolved (Bits.boxedOnes 2)) = .ok (root, b)) ∧
      (b = true → (∀ p ∈ root.leaves [(.var 0, Bits.fromBitIter [0] 2)]
        (Blocks.toSet (Bits.boxedOnes 2)), ∃ i, p.1 = .accept i) ∧ root.resultSize ≤ 3) ∧
      (b = false → 3 < root.resultSize)) ∧
    ∀ k, ∃ root b, run ⟨fun _ _ => true, fun _ _ _ => 0⟩ [(.var 0, Bits.fromBitIter [0] 2)]
        [(.const 7, Bits.fromBitIter [0] 2), (.const 9, Bits.fromBitIter [1] 2)] 3 k 1
        (.unsolved (Bits.boxedOnes 2)) = .ok (root, b) ∧
      Partitions [(.var 0, Bits.fromBitIter [0] 2)]
        [(.const 7, Bits.fromBitIter [0] 2), (.const 9, Bits.fromBitIter [1] 2)] root
        (Blocks.toSet (Bits.boxedOnes 2))
  := run_partitions _ (by simp) (by simp [Sized, Bits.length_fromBitIter])
    (by simp [Sized, Bits.length_fromBitIter]) (by decide)

end Partitions

end SubProblem

end DryadSynth
