import Mathlib.Data.List.Basic

/-!
# Entries that are put together from other entries

A table gets entries for keys in some order, and it may get an entry for a key again.  The new
entry is put together from the entries that other keys have at this time.  It is complete if all of
them are there and complete.
-/

namespace Entries

variable {α : Type*}

/-- After entries for the keys `h`, the first one first, the key has a complete entry.  The entry
for `k` is put together from those for `needs k`; there may be no way to do it. -/
inductive Complete (needs : α → Option (List α)) : List α → α → Prop where
  | put {h h' : List α} {k : α} {l : List α} (hk : needs k = some l)
      (hl : ∀ a ∈ l, Complete needs h a) : Complete needs (h ++ k :: h') k

section Complete

variable {needs : α → Option (List α)} {h : List α} {a k : α}

/-- Entries stay complete. -/
theorem Complete.append (hk : Complete needs h k) (h' : List α) :
  Complete needs (h ++ h') k
  := by
  cases hk with
  | put hk hl =>
      rw [List.append_assoc, List.cons_append]
      exact .put hk hl

/-- A complete entry is the last one, or it was complete before. -/
theorem Complete.last (hk : Complete needs (h ++ [a]) k) :
  (k = a ∧ ∃ l, needs k = some l ∧ ∀ b ∈ l, Complete needs h b) ∨ Complete needs h k
  := by
  generalize hg : h ++ [a] = g at hk
  cases hk with
  | @put h₀ h' _ l hk hl =>
      rcases List.eq_nil_or_concat' h' with rfl | ⟨h', b, rfl⟩
      · obtain ⟨rfl, hak⟩ := List.append_inj' hg rfl
        obtain rfl : a = k := List.head_eq_of_cons_eq hak
        exact .inl ⟨rfl, l, hk, hl⟩
      · rw [← List.cons_append, ← List.append_assoc] at hg
        obtain ⟨rfl, -⟩ := List.append_inj' hg rfl
        exact .inr (.put hk hl)

/-- The entry that is put last is complete if those are that it is put together from. -/
theorem complete_put :
  Complete needs (h ++ [k]) k ↔ ∃ l, needs k = some l ∧ ∀ a ∈ l, Complete needs h a
  := by
  constructor
  · intro hk
    rcases hk.last with ⟨-, hl⟩ | hbefore
    · apply hl
    · cases hbefore with
      | put hneeds hl => exact ⟨_, hneeds, fun a ha => (hl a ha).append _⟩
  · rintro ⟨l, hk, hl⟩
    exact .put hk hl

theorem complete_put_of_ne (hne : k ≠ a) :
  Complete needs (h ++ [a]) k ↔ Complete needs h k
  := by
  constructor
  · intro hk
    exact hk.last.resolve_left fun hlast => hne hlast.1
  · exact fun hk => hk.append _

theorem not_complete_nil :
  ¬ Complete needs [] k
  := by
  generalize hg : ([] : List α) = g
  rintro ⟨-, -⟩
  apply List.cons_ne_nil _ _ (List.append_eq_nil_iff.mp hg.symm).2

end Complete

end Entries
