import Mathlib

/-!
# Meets and joins under a mask

A target `o` is approximated by pieces: a meet with an element above the target, or a join
with one below it.  A mask records where the target is not settled by the pieces so far: a
meet settles the target outside its element, a join inside it.  Applying the pieces from the
last to the first turns every element that agrees with the target under the mask into the
target.  The pieces may be applied in their stored form, which depends on the mask at the time
they were added; where the stored form changes nothing, the piece may be left out.
-/

namespace Masked

variable {α : Type} [BooleanAlgebra α]

/-- A meet or a join with an element. -/
inductive Piece (α : Type) where
  | meet (v : α)
  | join (v : α)

namespace Piece

/-- The piece can be applied to the target `o` without changing it. -/
def Fits (o : α) : Piece α → Prop
  | .meet v => o ≤ v
  | .join v => v ≤ o

/-- The mask that is left after the piece. -/
def narrow (m : α) : Piece α → α
  | .meet v => m ⊓ v
  | .join v => m ⊓ vᶜ

/-- The form in which the piece is stored under the mask `m`. -/
def store (m : α) : Piece α → Piece α
  | .meet v => .meet (mᶜ ⊔ v)
  | .join v => .join (m ⊓ v)

/-- The piece applied to an element. -/
def apply (r : α) : Piece α → α
  | .meet v => r ⊓ v
  | .join v => r ⊔ v

variable {o m t r : α} {p : Piece α}

/-- What agrees with the target under the narrowed mask agrees with it under the mask after
the stored piece is applied. -/
theorem apply_store_inf (hp : p.Fits o) (ht : t ⊓ p.narrow m = o ⊓ p.narrow m) :
  (p.store m).apply t ⊓ m = o ⊓ m
  := by
  cases p with
  | meet v =>
      have hv : o ⊓ v = o := inf_eq_left.mpr hp
      calc t ⊓ (mᶜ ⊔ v) ⊓ m = t ⊓ (m ⊓ v) := by
            rw [inf_assoc, inf_sup_right, compl_inf_self, bot_sup_eq, inf_comm v m]
        _ = o ⊓ (m ⊓ v) := ht
        _ = o ⊓ m := by rw [inf_comm m v, ← inf_assoc, hv]
  | join v =>
      have hv : m ⊓ v = o ⊓ (m ⊓ v) := (inf_eq_right.mpr (inf_le_right.trans hp)).symm
      have ht : t ⊓ (m ⊓ vᶜ) = o ⊓ (m ⊓ vᶜ) := ht
      have hm : m = m ⊓ vᶜ ⊔ m ⊓ v := by rw [← inf_sup_left, compl_sup_eq_top, inf_top_eq]
      have htm : t ⊓ m = t ⊓ (m ⊓ vᶜ) ⊔ t ⊓ (m ⊓ v) := by rw [← inf_sup_left, ← hm]
      calc (t ⊔ m ⊓ v) ⊓ m = t ⊓ m ⊔ m ⊓ v := by
            rw [inf_sup_right, inf_eq_left.mpr (inf_le_left : m ⊓ v ≤ m)]
        _ = t ⊓ (m ⊓ vᶜ) ⊔ m ⊓ v := by
            rw [htm, sup_assoc, sup_eq_right.mpr (inf_le_right : t ⊓ (m ⊓ v) ≤ m ⊓ v)]
        _ = o ⊓ (m ⊓ vᶜ) ⊔ o ⊓ (m ⊓ v) := by rw [ht, ← hv]
        _ = o ⊓ m := by rw [← inf_sup_left, ← hm]

/-- The element `r` is the target or the tracked element `t`, in every place. -/
def Between (o t r : α) : Prop := t ⊓ o ≤ r ∧ r ≤ t ⊔ o

theorem Between.refl (o t : α) : Between o t t := ⟨inf_le_left, le_sup_left⟩

/-- What is between the target and the target is the target. -/
theorem Between.eq (h : Between o o r) : r = o := by
  apply le_antisymm
  · simpa using h.2
  · simpa using h.1

/-- Applying a piece to `r` and its stored form to `t` keeps `r` between them. -/
theorem Between.apply (h : Between o t r) (hp : p.Fits o) (m : α) :
  Between o ((p.store m).apply t) (p.apply r)
  := by
  cases p with
  | meet v =>
      constructor
      · apply le_inf
        · apply (inf_le_inf_right o inf_le_left).trans h.1
        · apply inf_le_right.trans hp
      · calc r ⊓ v ≤ (t ⊔ o) ⊓ v := inf_le_inf_right v h.2
          _ = t ⊓ v ⊔ o ⊓ v := inf_sup_right _ _ _
          _ ≤ t ⊓ (mᶜ ⊔ v) ⊔ o := sup_le_sup (inf_le_inf_left t le_sup_right) inf_le_left
  | join v =>
      constructor
      · calc (t ⊔ m ⊓ v) ⊓ o = t ⊓ o ⊔ m ⊓ v ⊓ o := inf_sup_right _ _ _
          _ ≤ r ⊔ v := sup_le_sup h.1 (inf_le_left.trans inf_le_right)
      · apply sup_le
        · apply h.2.trans (sup_le_sup_right le_sup_left o)
        · apply le_sup_of_le_right hp

end Piece

end Masked
