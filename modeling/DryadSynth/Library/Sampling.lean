import Mathlib

/-!
# Search from a growing sample

A candidate is looked for that meets a requirement at all elements of a sample.  If it fails at
other elements, some of these are added to the sample and the search begins again.  The sample
never has an element twice, and it grows in every round, so over finitely many elements there are
fewer rounds than elements.
-/

namespace Sampling

variable {ι γ : Type*}

/-- A round: a candidate fails nowhere in the sample, and some elements where it fails are
added. -/
inductive Round (fails : γ → ι → Prop) (s : List ι) : List ι → Prop
  | intro (c : γ) {new : List ι} (hsample : ∀ i ∈ s, ¬ fails c i) (hne : new ≠ [])
      (hnodup : new.Nodup) (hfails : ∀ i ∈ new, fails c i) : Round fails s (s ++ new)

variable {fails : γ → ι → Prop} {s s' : List ι}

theorem Round.nodup (h : Round fails s s') (hs : s.Nodup) :
  s'.Nodup
  := by
  obtain ⟨c, hsample, -, hnodup, hfails⟩ := h
  rw [List.nodup_append]
  refine ⟨hs, hnodup, ?_⟩
  rintro i hi _ hj rfl
  apply hsample i hi (hfails i hj)

theorem Round.length_lt (h : Round fails s s') :
  s.length < s'.length
  := by
  obtain ⟨c, -, hne, -, -⟩ := h
  have := List.length_pos_iff.mpr hne
  rw [List.length_append]
  omega

theorem Round.prefix (h : Round fails s s') :
  s <+: s'
  := by
  obtain ⟨c, -, -, -, -⟩ := h
  apply List.prefix_append

/-- The sample after `n` rounds. -/
structure Sampled (start : List ι) (n : ℕ) (s : List ι) : Prop where
  nodup : s.Nodup
  begins : start <+: s
  length : start.length + n ≤ s.length

theorem sampled_start {start : List ι} (h : start.Nodup) :
  Sampled start 0 start
  := ⟨h, List.prefix_rfl, le_refl _⟩

theorem Sampled.round {start : List ι} {n : ℕ} (hs : Sampled start n s) (h : Round fails s s') :
  Sampled start (n + 1) s'
  where
  nodup := h.nodup hs.nodup
  begins := hs.begins.trans h.prefix
  length := by
    have := hs.length
    have := h.length_lt
    omega

/-- There are fewer rounds than elements. -/
theorem Sampled.lt_card [Fintype ι] {start : List ι} {n : ℕ} (hs : Sampled start n s)
    (hstart : start ≠ []) :
  n < Fintype.card ι
  := by
  have := hs.length
  have := hs.nodup.length_le_card
  have := List.length_pos_iff.mpr hstart
  omega

end Sampling
