import Mathlib

/-!
# Decision trees in an array

The nodes of a complete binary tree with the numbers `0`, …, `n - 1`, where the children of `i` are
`2 * i + 1` and `2 * i + 2`.  A walk goes from a node down to a leaf as the conditions at the nodes
say.  The conditions can be chosen such that a walk from the root passes any given node, and goes
from there to a leaf on either side.
-/

namespace DecisionTree

/-- The number `j` is in the subtree of `i`. -/
inductive Under (i : ℕ) : ℕ → Prop
  | refl : Under i i
  | left {j} : Under i j → Under i (2 * j + 1)
  | right {j} : Under i j → Under i (2 * j + 2)

namespace Under

variable {i j k : ℕ}

theorem le (h : Under i j) :
  i ≤ j
  := by
  induction h with
  | refl => exact le_rfl
  | left _ ih => omega
  | right _ ih => omega

theorem trans (hij : Under i j) (hjk : Under j k) :
  Under i k
  := by
  induction hjk with
  | refl => exact hij
  | left _ ih => exact ih.left
  | right _ ih => exact ih.right

theorem zero (j : ℕ) :
  Under 0 j
  := by
  induction j using Nat.strong_induction_on with
  | _ j ih =>
      rcases Nat.even_or_odd' j with ⟨k, rfl | rfl⟩
      · cases k with
        | zero => exact .refl
        | succ k => exact (ih k (by omega)).right
      · apply (ih k (by omega)).left

/-- What is below a node is below one of its children. -/
theorem eq_or_child (h : Under i j) :
  j = i ∨ Under (2 * i + 1) j ∨ Under (2 * i + 2) j
  := by
  induction h with
  | refl => exact .inl rfl
  | left _ ih =>
      rcases ih with rfl | h | h
      · exact .inr (.inl .refl)
      · exact .inr (.inl h.left)
      · exact .inr (.inr h.left)
  | right _ ih =>
      rcases ih with rfl | h | h
      · exact .inr (.inr .refl)
      · exact .inr (.inl h.right)
      · exact .inr (.inr h.right)

/-- Of two nodes above a third one, one is above the other. -/
theorem total (hi : Under i k) (hj : Under j k) :
  Under i j ∨ Under j i
  := by
  induction hi with
  | refl => exact .inr hj
  | @left k hik ih =>
      generalize hm : 2 * k + 1 = m at hj
      cases hj with
      | refl => exact .inl (hm ▸ hik.left)
      | @left l hjl => exact ih ((by omega : l = k) ▸ hjl)
      | @right l hjl => omega
  | @right k hik ih =>
      generalize hm : 2 * k + 2 = m at hj
      cases hj with
      | refl => exact .inl (hm ▸ hik.right)
      | @left l hjl => omega
      | @right l hjl => exact ih ((by omega : l = k) ▸ hjl)

/-- The subtrees of the two children are disjoint. -/
theorem not_right (h : Under (2 * i + 1) j) :
  ¬Under (2 * i + 2) j
  := by
  intro h'
  rcases total h h' with hlr | hrl
  · generalize hm : 2 * i + 2 = m at hlr
    cases hlr with
    | refl => omega
    | left _ => omega
    | @right l hl =>
        have := hl.le
        omega
  · have := hrl.le
    omega

end Under

/-- The leaf at which the walk from `i` ends. -/
def walk (n : ℕ) (goesLeft : ℕ → Bool) (i : ℕ) : ℕ :=
  if i < (n - 1) / 2 then walk n goesLeft (bif goesLeft i then 2 * i + 1 else 2 * i + 2) else i
  termination_by n - i
  decreasing_by
    cases goesLeft i with
    | true => rw [cond_true]; omega
    | false => rw [cond_false]; omega

variable {n : ℕ} {goesLeft goesLeft' : ℕ → Bool} {i j : ℕ}

theorem walk_of_leaf (hi : ¬i < (n - 1) / 2) :
  walk n goesLeft i = i
  := by
  rw [walk, if_neg hi]

theorem walk_left (hi : i < (n - 1) / 2) (h : goesLeft i = true) :
  walk n goesLeft i = walk n goesLeft (2 * i + 1)
  := by
  rw [walk, if_pos hi, h, cond_true]

theorem walk_right (hi : i < (n - 1) / 2) (h : goesLeft i = false) :
  walk n goesLeft i = walk n goesLeft (2 * i + 2)
  := by
  rw [walk, if_pos hi, h, cond_false]

theorem under_walk (n : ℕ) (goesLeft : ℕ → Bool) (i : ℕ) :
  Under i (walk n goesLeft i)
  := by
  induction i using walk.induct n goesLeft with
  | case1 i hi ih =>
      cases h : goesLeft i with
      | true =>
          rw [h, cond_true] at ih
          rw [walk_left hi h]
          apply Under.refl.left.trans ih
      | false =>
          rw [h, cond_false] at ih
          rw [walk_right hi h]
          apply Under.refl.right.trans ih
  | case2 i hi =>
      rw [walk_of_leaf hi]
      exact .refl

/-- The conditions above `j` lead to it. -/
def Leads (goesLeft : ℕ → Bool) (j : ℕ) : Prop :=
  ∀ i < j, (Under (2 * i + 1) j → goesLeft i = true) ∧ (Under (2 * i + 2) j → goesLeft i = false)

theorem walk_of_leads (hlead : Leads goesLeft j) (hj : j ≤ 2 * ((n - 1) / 2)) (h : Under i j) :
  walk n goesLeft i = walk n goesLeft j
  := by
  induction i using walk.induct n goesLeft with
  | case1 i hi ih =>
      rcases h.eq_or_child with rfl | hl | hr
      · rfl
      · have hgoes := (hlead i (by have := hl.le; omega)).1 hl
        rw [hgoes, cond_true] at ih
        rw [walk_left hi hgoes, ih hl]
      · have hgoes := (hlead i (by have := hr.le; omega)).2 hr
        rw [hgoes, cond_false] at ih
        rw [walk_right hi hgoes, ih hr]
  | case2 i hi =>
      rcases h.eq_or_child with rfl | hl | hr
      · rfl
      · have := hl.le
        omega
      · have := hr.le
        omega

open Classical in
/-- Labels for which the walk from the root leads to `j`, with the label `b` there, and everything
to the left below `j` is labelled `true` and everything to the right `false`. -/
noncomputable def steer (j : ℕ) (b : Bool) (i : ℕ) : Bool :=
  if i < j then decide (Under (2 * i + 1) j)
  else if i = j then b
  else !decide (Under (2 * j + 2) i)

theorem leads_steer (j : ℕ) (b : Bool) :
  Leads (steer j b) j
  := by
  intro i hi
  simp only [steer, if_pos hi, decide_eq_true_iff, decide_eq_false_iff_not]
  exact ⟨fun h => h, fun hr hl => hl.not_right hr⟩

/-- The label at `j` is the label at the end of the walk. -/
theorem steer_walk (b : Bool) (hj : j ≤ 2 * ((n - 1) / 2)) :
  steer j b (walk n (steer j b) 0) = b
  := by
  rw [walk_of_leads (leads_steer j b) hj (Under.zero j)]
  have hself : steer j b j = b := by
    rw [steer, if_neg (lt_irrefl j), if_pos rfl]
  by_cases hleaf : j < (n - 1) / 2
  · cases b with
    | true =>
        rw [walk_left hleaf hself]
        have hunder := under_walk n (steer j true) (2 * j + 1)
        have hle := hunder.le
        rw [steer, if_neg (by omega), if_neg (by omega)]
        simpa using hunder.not_right
    | false =>
        rw [walk_right hleaf hself]
        have hunder := under_walk n (steer j false) (2 * j + 2)
        have hle := hunder.le
        rw [steer, if_neg (by omega), if_neg (by omega)]
        simpa using hunder
  · rw [walk_of_leaf hleaf, hself]

/-- The labels with `true` and with `false` at `j` differ at `j` only. -/
theorem steer_of_ne (b b' : Bool) (hij : i ≠ j) :
  steer j b i = steer j b' i
  := by
  simp only [steer, if_neg hij]

end DecisionTree
