import Mathlib

/-!
# Transition systems, their reachable states and their invariants

The states reachable from a set are the least set that contains it and is closed under the
steps.  An acceleration adds to a set of states some reachable ones, and all successors among
them; iterated until nothing is added it gives the reachable states.

An invariant contains the initial states, is closed under the steps and is contained in the
safe states.  There is one precisely when the reachable states are safe.
-/

namespace Reach

section Reachable

variable {σ : Type*} {step : σ → σ → Prop} {X Y : Set σ} {F : Set σ → Set σ}

/-- The states reachable from `X` by finitely many steps. -/
def reachable (step : σ → σ → Prop) (X : Set σ) : Set σ :=
  {s | ∃ s₀ ∈ X, Relation.ReflTransGen step s₀ s}

/-- Every step from a state of the set leads to a state of the set. -/
def Closed (step : σ → σ → Prop) (X : Set σ) : Prop :=
  ∀ s ∈ X, ∀ s', step s s' → s' ∈ X

theorem subset_reachable (step : σ → σ → Prop) (X : Set σ) :
  X ⊆ reachable step X
  := fun s hs => ⟨s, hs, .refl⟩

theorem closed_reachable (step : σ → σ → Prop) (X : Set σ) :
  Closed step (reachable step X)
  := by
  rintro s ⟨s₀, hs₀, hs⟩ s' hstep
  exact ⟨s₀, hs₀, hs.tail hstep⟩

theorem Closed.mem_of_steps (h : Closed step X) {s s' : σ} (hs : s ∈ X)
    (hsteps : Relation.ReflTransGen step s s') :
  s' ∈ X
  := by
  induction hsteps with
  | refl => exact hs
  | tail _ hstep ih => exact h _ ih _ hstep

/-- The reachable states are the least closed set. -/
theorem reachable_subset (hXY : X ⊆ Y) (hY : Closed step Y) :
  reachable step X ⊆ Y
  := by
  rintro s ⟨s₀, hs₀, hs⟩
  apply hY.mem_of_steps (hXY hs₀) hs

/-- One round of an acceleration keeps the set, adds its successors, and adds nothing that is
not reachable. -/
structure Accelerates (step : σ → σ → Prop) (F : Set σ → Set σ) : Prop where
  subset (X : Set σ) : X ⊆ F X
  successor {X : Set σ} {s s' : σ} (hs : s ∈ X) (hstep : step s s') : s' ∈ F X
  sound (X : Set σ) : F X ⊆ reachable step X

namespace Accelerates

theorem subset_iterate (h : Accelerates step F) (X : Set σ) (n : ℕ) :
  X ⊆ F^[n] X
  := by
  induction n with
  | zero => exact Set.Subset.refl X
  | succ n ih =>
      rw [Function.iterate_succ_apply']
      apply ih.trans (h.subset _)

theorem iterate_subset (h : Accelerates step F) (X : Set σ) (n : ℕ) :
  F^[n] X ⊆ reachable step X
  := by
  induction n with
  | zero => exact subset_reachable step X
  | succ n ih =>
      rw [Function.iterate_succ_apply']
      apply (h.sound _).trans (reachable_subset ih (closed_reachable step X))

/-- When a round adds nothing, the set is the set of the reachable states. -/
theorem eq_reachable (h : Accelerates step F) {n : ℕ} (hfix : F (F^[n] X) ⊆ F^[n] X) :
  F^[n] X = reachable step X
  := by
  apply Set.Subset.antisymm (h.iterate_subset X n)
  apply reachable_subset (h.subset_iterate X n)
  intro s hs s' hstep
  apply hfix (h.successor hs hstep)

end Accelerates

end Reachable

/-! ### Guarded translations -/

section Translation

variable {ι σ : Type*} [AddCommGroup σ] {R : ι → Set σ} {δ : ι → σ} {X : Set σ}

/-- A step from a state of one of the sets `R i` translates it by `δ i`. -/
def Translate (R : ι → Set σ) (δ : ι → σ) (s s' : σ) : Prop :=
  ∃ i, s ∈ R i ∧ s' = s + δ i

/-- All states that any number of translations by one `δ i` reach, with the states on the way
and the last one in `R i`. -/
def jump (R : ι → Set σ) (δ : ι → σ) (X : Set σ) : Set σ :=
  X ∪ {s | ∃ i, ∃ k : ℕ, (∀ j ≤ k, s - j • δ i ∈ R i) ∧ s - k • δ i ∈ X}

/-- All states that one translation reaches from `R i` in another one of the sets, or outside of
them all. -/
def switch (R : ι → Set σ) (δ : ι → σ) (X : Set σ) : Set σ :=
  X ∪ {s | ∃ i, s - δ i ∈ R i ∧ ((∃ j ≠ i, s ∈ R j) ∨ ∀ j, s ∉ R j) ∧ s - δ i ∈ X}

/-- The states of a jump are reached step by step. -/
theorem reachable_of_jump {s : σ} {i : ι} (k : ℕ) (hR : ∀ j ≤ k, s - j • δ i ∈ R i)
    (hs : s - k • δ i ∈ X) :
  s ∈ reachable (Translate R δ) X
  := by
  induction k generalizing s with
  | zero =>
      rw [zero_nsmul, sub_zero] at hs
      apply subset_reachable _ _ hs
  | succ k ih =>
      have hprev : s - δ i ∈ reachable (Translate R δ) X := by
        apply ih
        · intro j hj
          have h := hR (j + 1) (by omega)
          rwa [succ_nsmul', ← sub_sub] at h
        · rwa [succ_nsmul', ← sub_sub] at hs
      apply closed_reachable _ _ _ hprev
      use i
      constructor
      · simpa using hR 1 (by omega)
      · rw [sub_add_cancel]

/-- Jumping and then switching is an acceleration of the guarded translations. -/
theorem accelerates_switch_jump :
  Accelerates (Translate R δ) fun X => switch R δ (jump R δ X)
  := by
  constructor
  · intro X
    apply Set.subset_union_left.trans Set.subset_union_left
  · rintro X s s' hs ⟨i, hi, rfl⟩
    by_cases hi' : s + δ i ∈ R i
    · left
      right
      use i, 1
      constructor
      · intro j hj
        interval_cases j
        · simpa using hi'
        · simpa using hi
      · simpa using hs
    · right
      have hs' : s + δ i - δ i ∈ jump R δ X := by
        rw [add_sub_cancel_right]
        apply Or.inl hs
      refine ⟨i, by simpa using hi, ?_, hs'⟩
      by_cases h : ∃ j, s + δ i ∈ R j
      · obtain ⟨j, hj⟩ := h
        left
        use j
        constructor
        · rintro rfl
          apply hi' hj
        · apply hj
      · right
        simpa using h
  · intro X
    have hjump : jump R δ X ⊆ reachable (Translate R δ) X := by
      rintro s (hs | ⟨i, k, hR, hs⟩)
      · apply subset_reachable _ _ hs
      · apply reachable_of_jump k hR hs
    rintro s (hs | ⟨i, hi, -, hs⟩)
    · apply hjump hs
    · apply closed_reachable _ _ _ (hjump hs)
      exact ⟨i, hi, by simp⟩

end Translation

/-! ### Invariants -/

/-- A transition system with its initial and its safe states. -/
structure System (σ : Type*) where
  pre : Set σ
  trans : σ → σ → Prop
  post : Set σ

section Invariant

variable {σ : Type*} {S : System σ} {I J : Set σ}

/-- The three conditions on an invariant. -/
structure IsInvariant (S : System σ) (I : Set σ) : Prop where
  pre : S.pre ⊆ I
  closed : Closed S.trans I
  post : I ⊆ S.post

theorem IsInvariant.reachable_subset (h : IsInvariant S I) :
  reachable S.trans S.pre ⊆ I
  := Reach.reachable_subset h.pre h.closed

theorem isInvariant_reachable (h : reachable S.trans S.pre ⊆ S.post) :
  IsInvariant S (reachable S.trans S.pre)
  := ⟨subset_reachable _ _, closed_reachable _ _, h⟩

theorem exists_invariant_iff :
  (∃ I, IsInvariant S I) ↔ reachable S.trans S.pre ⊆ S.post
  := by
  constructor
  · rintro ⟨I, hI⟩
    apply hI.reachable_subset.trans hI.post
  · intro h
    exact ⟨_, isInvariant_reachable h⟩

end Invariant

end Reach
