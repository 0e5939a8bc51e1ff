import Mathlib

/-!
# What the points of a graph offer

Every point of a graph offers what is its own and what its successors offer.  With some points
forbidden, only what is reached without them is offered.  A path to something offered need not
come back to where it starts, so a point offers something if it is its own or is offered by a
successor with the point forbidden.

The second part is about two graphs that agree outside one point.
-/

/-- What `a` offers: its own, and what is reached along the steps, without the points of `Q`. -/
inductive Offers {α β : Type*} (step : α → α → Prop) (own : α → β → Prop) (Q : Set α) :
    α → β → Prop
  | own {a b} : a ∉ Q → own a b → Offers step own Q a b
  | step {a a' b} : a ∉ Q → step a a' → Offers step own Q a' b → Offers step own Q a b

namespace Offers

variable {α β : Type*} {step step' : α → α → Prop} {own own' : α → β → Prop} {P Q : Set α}
  {a c : α} {b : β}

theorem notMem (h : Offers step own Q a b) :
  a ∉ Q
  := by
  cases h with
  | own ha _ => exact ha
  | step ha _ _ => exact ha

theorem mono (hPQ : P ⊆ Q) (h : Offers step own Q a b) :
  Offers step own P a b
  := by
  induction h with
  | own ha hown => exact .own (fun haP => ha (hPQ haP)) hown
  | step ha hstep _ ih => exact .step (fun haP => ha (hPQ haP)) hstep ih

/-- Either a path to the offer can do without `c`, or it goes on from the last visit of `c`. -/
theorem last_visit (c : α) (h : Offers step own Q a b) :
  Offers step own (insert c Q) a b
    ∨ own c b ∨ ∃ c', step c c' ∧ Offers step own (insert c Q) c' b
  := by
  induction h with
  | @own a b ha hown =>
      by_cases hac : a = c
      · subst hac
        exact .inr (.inl hown)
      · exact .inl (.own (by simp [hac, ha]) hown)
  | @step a a' b ha hstep _ ih =>
      rcases ih with ih | ih
      · by_cases hac : a = c
        · subst hac
          exact .inr (.inr ⟨a', hstep, ih⟩)
        · exact .inl (.step (by simp [hac, ha]) hstep ih)
      · exact .inr ih

/-- A path to the offer that does not come back to where it starts. -/
theorem iff_first_step :
  Offers step own Q a b
    ↔ a ∉ Q ∧ (own a b ∨ ∃ a', step a a' ∧ Offers step own (insert a Q) a' b)
  := by
  constructor
  · intro h
    rcases h.last_visit a with h' | h'
    · apply absurd (Set.mem_insert a Q) h'.notMem
    · exact ⟨h.notMem, h'⟩
  · rintro ⟨ha, hown | ⟨a', hstep, h⟩⟩
    · exact .own ha hown
    · exact .step ha hstep (h.mono (Set.subset_insert a Q))

section Update

variable (hstep : ∀ a ≠ c, ∀ a', step a a' ↔ step' a a')
  (hown : ∀ a ≠ c, ∀ b, own a b ↔ own' a b)

include hstep hown

/-- What is offered without `c` does not depend on `c`. -/
theorem of_forbidden (hc : c ∈ Q) (h : Offers step own Q a b) :
  Offers step' own' Q a b
  := by
  induction h with
  | own ha hab => exact .own ha ((hown _ (ne_of_mem_of_not_mem hc ha).symm _).mp hab)
  | step ha hab _ ih => exact .step ha ((hstep _ (ne_of_mem_of_not_mem hc ha).symm _).mp hab) ih

/-- If the changed point offers the same, every point does. -/
theorem of_update (hoffers : ∀ b, Offers step own Q c b → Offers step' own' Q c b)
    (h : Offers step own Q a b) :
  Offers step' own' Q a b
  := by
  induction h with
  | @own a b ha hab =>
      by_cases hac : a = c
      · subst hac
        apply hoffers b (.own ha hab)
      · exact .own ha ((hown a hac b).mp hab)
  | @step a a' b ha hab h ih =>
      by_cases hac : a = c
      · subst hac
        apply hoffers b (.step ha hab h)
      · exact .step ha ((hstep a hac a').mp hab) ih

end Update

end Offers
