import Mathlib

/-!
# Splitting by questions

The elements of a set are told apart by their answers to questions, which are asked one after the
other.  A part has some elements and the answers they all gave; a part may be left alone from some
question on, while others are split further.  Two parts differ in an answer that both of them gave,
so the elements of a part are exactly those whose answers begin like this.
-/

namespace Splitting

variable {ι κ : Type*}

/-! ### Lists that differ -/

/-- Two lists differ before either of them ends. -/
def Apart (l l' : List κ) : Prop := ¬ l <+: l' ∧ ¬ l' <+: l

section Apart

variable {l l' : List κ}

theorem Apart.symm (h : Apart l l') :
  Apart l' l
  := ⟨h.2, h.1⟩

theorem Apart.ne_nil (h : Apart l l') :
  l ≠ []
  := by
  rintro rfl
  exact h.1 List.nil_prefix

theorem Apart.append_right (h : Apart l l') (m : List κ) :
  Apart (l ++ m) l'
  := by
  constructor
  · intro hpre
    apply h.1 ((List.prefix_append l m).trans hpre)
  · intro hpre
    rcases List.prefix_or_prefix_of_prefix hpre (List.prefix_append l m) with hl | hl
    · apply h.2 hl
    · apply h.1 hl

theorem apart_append_left (k : List κ) :
  Apart (k ++ l) (k ++ l') ↔ Apart l l'
  := by
  rw [Apart, Apart, List.prefix_append_right_inj, List.prefix_append_right_inj]

/-- Two lists that are apart have different elements in some place. -/
theorem Apart.exists_ne (h : Apart l l') :
  ∃ (j : ℕ) (x y : κ), l[j]? = some x ∧ l'[j]? = some y ∧ x ≠ y
  := by
  induction l generalizing l' with
  | nil => exact absurd rfl h.ne_nil
  | cons a l ih =>
      cases l' with
      | nil => exact absurd rfl h.symm.ne_nil
      | cons b l' =>
          by_cases hab : a = b
          · subst hab
            obtain ⟨j, x, y, hx, hy, hne⟩ := ih ((apart_append_left [a]).mp h)
            exact ⟨j + 1, x, y, hx, hy, hne⟩
          · exact ⟨0, a, b, rfl, rfl, hab⟩

theorem apart_concat (k : List κ) {a b : κ} (hne : a ≠ b) :
  Apart (k ++ [a]) (k ++ [b])
  := by
  rw [apart_append_left]
  constructor
  · intro hpre
    apply hne (List.cons_prefix_cons.mp hpre).1
  · intro hpre
    apply hne (List.cons_prefix_cons.mp hpre).1.symm

end Apart

/-! ### Answers -/

variable {answer : ℕ → ι → κ} {i : ι}

/-- The first answers of an element are these. -/
def Follows (answer : ℕ → ι → κ) (i : ι) (path : List κ) : Prop :=
  path = (List.range path.length).map fun j => answer j i

theorem follows_nil (answer : ℕ → ι → κ) (i : ι) :
  Follows answer i []
  := rfl

theorem follows_concat {path : List κ} {k : κ} :
  Follows answer i (path ++ [k]) ↔ Follows answer i path ∧ k = answer path.length i
  := by
  rw [Follows, Follows, List.length_append, List.length_singleton, List.range_succ,
    List.map_append, List.map_singleton]
  constructor
  · intro h
    obtain ⟨hpath, hk⟩ := List.append_inj' h rfl
    exact ⟨hpath, List.head_eq_of_cons_eq hk⟩
  · rintro ⟨hpath, rfl⟩
    rw [← hpath]

theorem Follows.getElem? {path : List κ} (h : Follows answer i path) {j : ℕ}
    (hj : j < path.length) :
  path[j]? = some (answer j i)
  := by
  rw [h, List.getElem?_map, List.getElem?_range hj, Option.map_some]

/-- Of two lists of first answers one continues the other. -/
theorem Follows.prefix_or_prefix {path path' : List κ} (h : Follows answer i path)
    (h' : Follows answer i path') :
  path <+: path' ∨ path' <+: path
  := by
  rw [h, h']
  rcases Nat.le_total path.length path'.length with hle | hle
  · left
    apply List.IsPrefix.map
    rw [List.prefix_iff_eq_take, List.length_range, List.take_range, Nat.min_eq_left hle]
  · right
    apply List.IsPrefix.map
    rw [List.prefix_iff_eq_take, List.length_range, List.take_range, Nat.min_eq_left hle]

theorem Follows.not_apart {path path' : List κ} (h : Follows answer i path)
    (h' : Follows answer i path') :
  ¬ Apart path path'
  := by
  intro hapart
  rcases h.prefix_or_prefix h' with hpre | hpre
  · apply hapart.1 hpre
  · apply hapart.2 hpre

/-- Answers to later questions do not matter. -/
theorem Follows.congr {answer' : ℕ → ι → κ} {path : List κ} (h : Follows answer i path)
    (heq : ∀ j < path.length, answer' j i = answer j i) :
  Follows answer' i path
  := by
  apply h.trans
  apply List.map_congr_left
  intro j hj
  apply (heq j (List.mem_range.mp hj)).symm

/-! ### Parts -/

/-- Some elements and the answers they gave. -/
structure Part (ι κ : Type*) where
  members : List ι
  path : List κ

/-- The parts split the elements `S` by the answers. -/
structure Splits (answer : ℕ → ι → κ) (S : Set ι) (parts : List (Part ι κ)) : Prop where
  nonempty : ∀ P ∈ parts, P.members ≠ []
  follows : ∀ P ∈ parts, ∀ i ∈ P.members, Follows answer i P.path
  apart : parts.Pairwise fun P Q => Apart P.path Q.path
  cover : ∀ i, i ∈ S ↔ ∃ P ∈ parts, i ∈ P.members

variable {S : Set ι} {parts : List (Part ι κ)} {P Q : Part ι κ}

instance : Std.Symm fun P Q : Part ι κ => Apart P.path Q.path := ⟨fun _ _ h => h.symm⟩

/-- One part, before the first question. -/
theorem splits_singleton {l : List ι} (hl : l ≠ []) :
  Splits answer { i | i ∈ l } [⟨l, []⟩]
  where
  nonempty := by
    intro P hP
    rw [List.mem_singleton] at hP
    rw [hP]
    exact hl
  follows := by
    intro P hP i _
    rw [List.mem_singleton] at hP
    rw [hP]
    apply follows_nil
  apart := List.pairwise_singleton _ _
  cover := by simp

theorem Splits.perm (h : Splits answer S parts) {parts' : List (Part ι κ)}
    (hperm : parts.Perm parts') :
  Splits answer S parts'
  where
  nonempty P hP := h.nonempty P (hperm.mem_iff.mpr hP)
  follows P hP := h.follows P (hperm.mem_iff.mpr hP)
  apart := h.apart.perm hperm fun hapart => hapart.symm
  cover i := by
    rw [h.cover]
    simp only [hperm.mem_iff]

/-- No element is in two parts. -/
theorem Splits.eq_of_mem (h : Splits answer S parts) (hP : P ∈ parts) (hQ : Q ∈ parts)
    (hi : i ∈ P.members) (hi' : i ∈ Q.members) :
  P = Q
  := by
  by_contra hne
  have hapart := h.apart.forall hP hQ hne
  apply (h.follows P hP i hi).not_apart (h.follows Q hQ i hi') hapart

/-- An element is in the part whose answers it gives. -/
theorem Splits.mem_of_follows (h : Splits answer S parts) (hi : i ∈ S) (hP : P ∈ parts)
    (hfollows : Follows answer i P.path) :
  i ∈ P.members
  := by
  obtain ⟨Q, hQ, hmem⟩ := (h.cover i).mp hi
  by_cases hPQ : P = Q
  · rw [hPQ]
    exact hmem
  · have hapart := h.apart.forall hP hQ hPQ
    exact absurd hapart (hfollows.not_apart (h.follows Q hQ i hmem))

/-- The answers matter as far as they were given. -/
theorem Splits.congr (h : Splits answer S parts) (answer' : ℕ → ι → κ)
    (heq : ∀ P ∈ parts, ∀ i ∈ P.members, ∀ j < P.path.length, answer' j i = answer j i) :
  Splits answer' S parts
  where
  nonempty := h.nonempty
  follows P hP i hi := (h.follows P hP i hi).congr (heq P hP i hi)
  apart := h.apart
  cover := h.cover

/-- What a part is split into by the next question: the pieces have the members of the part, by
the answers they give. -/
structure Pieces (answer : ℕ → ι → κ) (P : Part ι κ) (pieces : List (Part ι κ)) : Prop where
  nonempty : ∀ Q ∈ pieces, Q.members ≠ []
  answers : ∀ Q ∈ pieces, ∃ k, Q.path = P.path ++ [k] ∧ ∀ i ∈ Q.members, k = answer P.path.length i
  distinct : pieces.Pairwise fun Q R => Q.path ≠ R.path
  cover : ∀ i, i ∈ P.members ↔ ∃ Q ∈ pieces, i ∈ Q.members

/-- A part is replaced by what it is split into. -/
theorem Splits.replace (h : Splits answer S (P :: parts)) {pieces : List (Part ι κ)}
    (hpieces : Pieces answer P pieces) :
  Splits answer S (pieces ++ parts)
  where
  nonempty Q hQ := by
    rcases List.mem_append.mp hQ with hQ | hQ
    · apply hpieces.nonempty Q hQ
    · apply h.nonempty Q (List.mem_cons_of_mem P hQ)
  follows Q hQ i hi := by
    rcases List.mem_append.mp hQ with hQ | hQ
    · obtain ⟨k, hpath, hk⟩ := hpieces.answers Q hQ
      have hmem := (hpieces.cover i).mpr ⟨Q, hQ, hi⟩
      rw [hpath, follows_concat]
      exact ⟨h.follows P List.mem_cons_self i hmem, hk i hi⟩
    · apply h.follows Q (List.mem_cons_of_mem P hQ) i hi
  apart := by
    have hapart := List.pairwise_cons.mp h.apart
    rw [List.pairwise_append]
    refine ⟨?_, hapart.2, ?_⟩
    · apply hpieces.distinct.imp_of_mem
      intro Q R hQ hR hne
      obtain ⟨k, hk, -⟩ := hpieces.answers Q hQ
      obtain ⟨k', hk', -⟩ := hpieces.answers R hR
      rw [hk, hk']
      apply apart_concat
      rintro rfl
      exact hne (hk.trans hk'.symm)
    · intro Q hQ R hR
      obtain ⟨k, hk, -⟩ := hpieces.answers Q hQ
      rw [hk]
      apply (hapart.1 R hR).append_right
  cover i := by
    rw [h.cover, List.exists_mem_cons_iff, hpieces.cover]
    simp only [List.mem_append, or_and_right, exists_or]

/-- All parts of a list are replaced by what they are split into. -/
theorem Splits.flatMap {rest : List (Part ι κ)} (h : Splits answer S (parts ++ rest))
    (split : Part ι κ → List (Part ι κ)) (hsplit : ∀ P ∈ parts, Pieces answer P (split P)) :
  Splits answer S (parts.flatMap split ++ rest)
  := by
  induction parts generalizing rest with
  | nil => exact h
  | cons P parts ih =>
      have hreplace : Splits answer S (split P ++ (parts ++ rest)) := by
        apply h.replace (hsplit P List.mem_cons_self)
      have hrest := ih (hreplace.perm (List.perm_append_comm_assoc _ _ _)) fun Q hQ =>
        hsplit Q (List.mem_cons_of_mem P hQ)
      rw [List.flatMap_cons, List.append_assoc]
      apply hrest.perm (List.perm_append_comm_assoc _ _ _)

end Splitting
