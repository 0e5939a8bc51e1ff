import Mathlib.Order.Bounds.Basic
import Mathlib.Data.Set.Finite.Lemmas

/-!
# Boundary values

A property of the elements of a linear order that is built from comparisons with finitely many
boundary values, without negations, holds of a boundary value if it holds at all, unless there
are no boundary values.
-/

namespace Boundary

variable {α : Type} [LinearOrder α] {K L : Set α} {P Q : α → Prop} {v w : α}

/-- What is above or below the value `v` among the boundary values is so for `w`. -/
def Within (K : Set α) (v w : α) : Prop := ∀ t ∈ K, (t ≤ v → t ≤ w) ∧ (v ≤ t → w ≤ t)

/-- The property is kept by values that are on the same sides of the boundary values. -/
def Positive (K : Set α) (P : α → Prop) : Prop := ∀ v w, Within K v w → P v → P w

theorem Within.mono (h : Within K v w) (hsub : L ⊆ K) :
  Within L v w
  := fun t ht => h t (hsub ht)

/-- One of the boundary values is on the same sides of all of them. -/
theorem exists_within (hK : K.Finite) (hne : K.Nonempty) (v : α) :
  ∃ t ∈ K, Within K v t
  := by
  by_cases hbelow : ∃ t ∈ K, t ≤ v
  · -- the greatest of the boundary values below `v`
    obtain ⟨t, ⟨ht, htv⟩, hmax⟩ := Set.exists_max_image {t ∈ K | t ≤ v} id
      (hK.subset (Set.sep_subset _ _)) hbelow
    use t, ht
    intro s hs
    constructor
    · intro hsv
      apply hmax s ⟨hs, hsv⟩
    · intro hvs
      apply htv.trans hvs
  · -- the least of the boundary values, which are all above `v`
    obtain ⟨t, ht, hmin⟩ := Set.exists_min_image K id hK hne
    use t, ht
    intro s hs
    constructor
    · intro hsv
      apply absurd ⟨s, hs, hsv⟩ hbelow
    · intro _
      apply hmin s hs

namespace Positive

theorem const (p : Prop) :
  Positive K fun _ => p
  := fun _ _ _ h => h

theorem ge {t : α} (ht : t ∈ K) :
  Positive K fun v => t ≤ v
  := fun _ _ hvw => (hvw t ht).1

theorem le {t : α} (ht : t ∈ K) :
  Positive K fun v => v ≤ t
  := fun _ _ hvw => (hvw t ht).2

theorem eq {t : α} (ht : t ∈ K) :
  Positive K fun v => v = t
  := by
  intro v w hvw hv
  apply le_antisymm ((hvw t ht).2 hv.le) ((hvw t ht).1 hv.ge)

theorem forall_mem {ι : Type} {l : List ι} {P : ι → α → Prop} (h : ∀ i ∈ l, Positive K (P i)) :
  Positive K fun v => ∀ i ∈ l, P i v
  := fun v w hvw hv i hi => h i hi v w hvw (hv i hi)

theorem exists_mem {ι : Type} {l : List ι} {P : ι → α → Prop} (h : ∀ i ∈ l, Positive K (P i)) :
  Positive K fun v => ∃ i ∈ l, P i v
  := by
  rintro v w hvw ⟨i, hi, hv⟩
  exact ⟨i, hi, h i hi v w hvw hv⟩

theorem congr (h : Positive K P) (hPQ : ∀ v, Q v ↔ P v) :
  Positive K Q
  := by
  intro v w hvw hv
  rw [hPQ] at hv ⊢
  apply h v w hvw hv

/-- The property holds of a boundary value, or of any value when there are none. -/
theorem exists_mem_insert (h : Positive K P) (hK : K.Finite) (d : α) (hv : P v) :
  ∃ t ∈ insert d K, P t
  := by
  rcases K.eq_empty_or_nonempty with hempty | hne
  · use d, Set.mem_insert d K
    apply h v d _ hv
    intro t ht
    rw [hempty] at ht
    cases ht
  · obtain ⟨t, ht, hvt⟩ := exists_within hK hne v
    exact ⟨t, Set.mem_insert_of_mem d ht, h v t hvt hv⟩

end Positive

end Boundary
