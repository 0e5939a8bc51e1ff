import Mathlib

/-!
# One component of a system of equations

A monotone system has one unknown for each index.  When the equation of one index uses only
the unknown of this index, its least solution is the least solution of this equation alone.
-/

namespace Least

variable {ι α : Type*} [CompleteLattice α]

/-- What is closed under a step, and below everything that is, is its least fixed point. -/
theorem eq_lfp {F : α →o α} {a : α} (hstep : F a ≤ a) (hleast : ∀ b, F b ≤ b → a ≤ b) :
  a = OrderHom.lfp F
  := by
  apply le_antisymm
  · apply OrderHom.le_lfp
    apply hleast
  · apply OrderHom.lfp_le F hstep

/-- The least solution at an index whose equation is that of `G`. -/
theorem lfp_apply_eq (F : (ι → α) →o (ι → α)) (G : α →o α) (i : ι)
    (h : ∀ A, F A i = G (A i)) :
  OrderHom.lfp F i = OrderHom.lfp G
  := by
  classical
  apply le_antisymm
  · -- the least solution of the one equation is a bound of this component
    have hbound : OrderHom.lfp F ≤ Function.update ⊤ i (OrderHom.lfp G) := by
      apply OrderHom.lfp_le
      intro j
      by_cases hj : j = i
      · subst hj
        rw [h, Function.update_self, OrderHom.map_lfp]
      · rw [Function.update_of_ne hj]
        apply le_top
    have hi := hbound i
    rw [Function.update_self] at hi
    apply hi
  · apply OrderHom.lfp_le
    rw [← h, OrderHom.map_lfp]

end Least
