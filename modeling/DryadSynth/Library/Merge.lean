import Mathlib

/-!
# Merging sets into classes

Sets are added one after the other to a family of disjoint sets.  A set that meets some members
of the family is united with these.  The members are then the classes of the relation that links
the elements of every set that was added; an empty set stays a class of its own.  In which order
the sets are added makes no difference.
-/

namespace Merge

variable {α : Type*}

/-- The elements are in one of the sets. -/
def Joined (l : List (Finset α)) (x y : α) : Prop := ∃ u ∈ l, x ∈ u ∧ y ∈ u

/-- The elements are in a chain of sets, each of which meets the next one. -/
def Linked (l : List (Finset α)) : α → α → Prop := Relation.TransGen (Joined l)

/-- The family consists of the classes into which the sets fall. -/
structure Classes (l : List (Finset α)) (relation : Finset (Finset α)) : Prop where
  disjoint : ∀ s ∈ relation, ∀ t ∈ relation, s ≠ t → Disjoint s t
  covers : ∀ u ∈ l, ∃ s ∈ relation, u ⊆ s
  linked : ∀ s ∈ relation, ∀ x ∈ s, ∀ y ∈ s, Linked l x y
  empty : ∅ ∈ relation ↔ ∅ ∈ l

section Classes

variable {l l' : List (Finset α)} {relation relation' : Finset (Finset α)} {u s : Finset α}
  {x y : α}

theorem linked_of_mem (hu : u ∈ l) (hx : x ∈ u) (hy : y ∈ u) :
  Linked l x y
  := .single ⟨u, hu, hx, hy⟩

theorem Linked.symm (h : Linked l x y) :
  Linked l y x
  := by
  induction h with
  | single h =>
      obtain ⟨u, hu, hx, hy⟩ := h
      apply linked_of_mem hu hy hx
  | tail _ h ih =>
      obtain ⟨u, hu, hx, hy⟩ := h
      apply (linked_of_mem hu hy hx).trans ih

theorem Linked.mono (hl : ∀ u ∈ l, u ∈ l') (h : Linked l x y) :
  Linked l' x y
  := by
  refine Relation.TransGen.mono ?_ _ _ h
  rintro x y ⟨u, hu, hx, hy⟩
  exact ⟨u, hl u hu, hx, hy⟩

theorem classes_nil :
  Classes ([] : List (Finset α)) ∅
  := ⟨by simp, by simp, by simp, by simp⟩

theorem Classes.eq_of_mem (h : Classes l relation) {t : Finset α} (hs : s ∈ relation)
    (ht : t ∈ relation) (hxs : x ∈ s) (hxt : x ∈ t) :
  s = t
  := by
  by_contra hne
  apply Finset.disjoint_left.mp (h.disjoint s hs t ht hne) hxs hxt

/-- Elements that are linked are in one class. -/
theorem Classes.mem_of_linked (h : Classes l relation) (hs : s ∈ relation) (hx : x ∈ s)
    (hxy : Linked l x y) :
  y ∈ s
  := by
  have hstep : ∀ {x y : α}, x ∈ s → Joined l x y → y ∈ s := by
    rintro x y hx ⟨u, hu, hxu, hyu⟩
    obtain ⟨t, ht, hut⟩ := h.covers u hu
    rw [h.eq_of_mem hs ht hx (hut hxu)]
    apply hut hyu
  induction hxy with
  | single h => exact hstep hx h
  | tail _ h ih => exact hstep ih h

/-- Every element of a class is an element of one of the sets. -/
theorem Classes.exists_mem (h : Classes l relation) (hs : s ∈ relation) (hx : x ∈ s) :
  ∃ u ∈ l, x ∈ u
  := by
  obtain ⟨y, ⟨u, hu, hxu, -⟩, -⟩ := Relation.TransGen.head'_iff.mp (h.linked s hs x hx x hx)
  exact ⟨u, hu, hxu⟩

theorem Classes.subset (h : Classes l relation) (h' : Classes l' relation')
    (hl : ∀ u, u ∈ l ↔ u ∈ l') :
  relation ⊆ relation'
  := by
  intro s hs
  rcases s.eq_empty_or_nonempty with rfl | ⟨x, hx⟩
  · rw [h'.empty, ← hl, ← h.empty]
    apply hs
  · obtain ⟨u, hu, hxu⟩ := h.exists_mem hs hx
    obtain ⟨t, ht, hut⟩ := h'.covers u ((hl u).mp hu)
    have hst : s = t := by
      ext y
      constructor
      · intro hy
        exact h'.mem_of_linked ht (hut hxu) ((h.linked s hs x hx y hy).mono fun u => (hl u).mp)
      · intro hy
        exact h.mem_of_linked hs hx
          ((h'.linked t ht x (hut hxu) y hy).mono fun u => (hl u).mpr)
    rw [hst]
    apply ht

/-- The sets that are added determine the classes. -/
theorem Classes.eq (h : Classes l relation) (h' : Classes l' relation')
    (hl : ∀ u, u ∈ l ↔ u ∈ l') :
  relation = relation'
  := (h.subset h' hl).antisymm (h'.subset h fun u => (hl u).symm)

end Classes

section Merge

variable [DecidableEq α] {l : List (Finset α)} {relation : Finset (Finset α)}
variable {u s : Finset α} {x : α}

/-- Add the set `used` to the family. -/
def merge (relation : Finset (Finset α)) (used : Finset α) : Finset (Finset α) :=
  let newrelation := relation.filter fun set => used ∩ set = ∅
  let overlapped := relation \ newrelation
  insert (used ∪ overlapped.biUnion id) newrelation

/-- The set with the members of the family it meets. -/
def merged (relation : Finset (Finset α)) (used : Finset α) : Finset α :=
  used ∪ (relation.filter fun set => ¬used ∩ set = ∅).biUnion id

theorem mem_merge :
  s ∈ merge relation u ↔ s = merged relation u ∨ s ∈ relation ∧ u ∩ s = ∅
  := by
  rw [merge, merged, Finset.filter_not, Finset.mem_insert, Finset.mem_filter]

theorem mem_merged :
  x ∈ merged relation u ↔ x ∈ u ∨ ∃ t ∈ relation, ¬u ∩ t = ∅ ∧ x ∈ t
  := by
  rw [merged, Finset.mem_union, Finset.mem_biUnion]
  simp only [Finset.mem_filter, id, and_assoc]

/-- What was not united with the set is disjoint from it. -/
theorem Classes.disjoint_merged (h : Classes l relation) (hs : s ∈ relation) (hus : u ∩ s = ∅) :
  Disjoint (merged relation u) s
  := by
  rw [Finset.disjoint_left]
  intro x hx hxs
  rcases mem_merged.mp hx with hxu | ⟨t, ht, hut, hxt⟩
  · exact Finset.notMem_empty x (hus ▸ Finset.mem_inter.mpr ⟨hxu, hxs⟩)
  · rw [h.eq_of_mem ht hs hxt hxs] at hut
    apply hut hus

/-- Adding a set to the classes. -/
theorem Classes.merge (h : Classes l relation) (u : Finset α) :
  Classes (l ++ [u]) (merge relation u)
  := by
  have hl : ∀ v ∈ l, v ∈ l ++ [u] := fun v => List.mem_append_left [u]
  have hu : u ∈ l ++ [u] := by simp
  constructor
  · intro s hs t ht hne
    rcases mem_merge.mp hs with rfl | ⟨hs, hus⟩
    · rcases mem_merge.mp ht with rfl | ⟨ht, hut⟩
      · apply absurd rfl hne
      · apply h.disjoint_merged ht hut
    · rcases mem_merge.mp ht with rfl | ⟨ht, hut⟩
      · apply (h.disjoint_merged hs hus).symm
      · apply h.disjoint s hs t ht hne
  · intro v hv
    have hmerged : merged relation u ∈ Merge.merge relation u := mem_merge.mpr (.inl rfl)
    rcases List.mem_append.mp hv with hv | hv
    · obtain ⟨s, hs, hvs⟩ := h.covers v hv
      by_cases hus : u ∩ s = ∅
      · exact ⟨s, mem_merge.mpr (.inr ⟨hs, hus⟩), hvs⟩
      · refine ⟨merged relation u, hmerged, fun x hx => ?_⟩
        apply mem_merged.mpr (.inr ⟨s, hs, hus, hvs hx⟩)
    · obtain rfl := List.mem_singleton.mp hv
      exact ⟨merged relation v, hmerged, fun x hx => mem_merged.mpr (.inl hx)⟩
  · intro s hs
    rcases mem_merge.mp hs with rfl | ⟨hs, -⟩
    · -- every element is linked to one of the new set
      have hlinked : ∀ x ∈ merged relation u, ∃ z ∈ u, Linked (l ++ [u]) x z := by
        intro x hx
        rcases mem_merged.mp hx with hxu | ⟨t, ht, hut, hxt⟩
        · exact ⟨x, hxu, linked_of_mem hu hxu hxu⟩
        · obtain ⟨z, hz⟩ := Finset.nonempty_iff_ne_empty.mpr hut
          obtain ⟨hzu, hzt⟩ := Finset.mem_inter.mp hz
          exact ⟨z, hzu, (h.linked t ht x hxt z hzt).mono hl⟩
      intro x hx y hy
      obtain ⟨z, hzu, hxz⟩ := hlinked x hx
      obtain ⟨w, hwu, hyw⟩ := hlinked y hy
      apply (hxz.trans (linked_of_mem hu hzu hwu)).trans hyw.symm
    · intro x hx y hy
      apply (h.linked s hs x hx y hy).mono hl
  · rw [mem_merge, List.mem_append, List.mem_singleton, ← h.empty]
    constructor
    · rintro (hmerged | ⟨hs, -⟩)
      · right
        rw [eq_comm, ← Finset.subset_empty, hmerged]
        exact fun x hx => mem_merged.mpr (.inl hx)
      · exact .inl hs
    · rintro (hs | rfl)
      · exact .inr ⟨hs, Finset.inter_empty u⟩
      · left
        rw [eq_comm, Finset.eq_empty_iff_forall_notMem]
        intro x hx
        rcases mem_merged.mp hx with hx | ⟨t, -, ht, -⟩
        · apply Finset.notMem_empty x hx
        · apply ht (Finset.empty_inter t)

/-- Adding sets one after the other gives the classes. -/
theorem classes_foldl (l : List (Finset α)) :
  Classes l (l.foldl merge ∅)
  := by
  induction l using List.reverseRecOn with
  | nil => exact classes_nil
  | append_singleton l u ih =>
      rw [List.foldl_append]
      apply ih.merge u

end Merge

end Merge
