import DryadSynth.Library.Ones

/-!
# The submasks of a mask

A bit-vector is a submask of a mask when its ones are among those of the mask.  The next
larger submask adds the lowest one of the mask that is missing and clears the ones below it:
submasks count in binary on the ones of the mask.  The rank of a submask is the number so
counted, whose bits are those of the submask at the ones of the mask in increasing order;
submasks and the numbers below two to the number of ones of the mask correspond.
-/

namespace Ones

variable {w : ℕ} {m x y z p q : BitVec w} {i j : ℕ}

/-- A submask is at most the mask. -/
theorem le_of_ones_subset (h : ones x ⊆ ones y) :
  x ≤ y
  := by
  apply BitVec.not_lt.mp
  intro hlt
  obtain ⟨i, hy, hx, -⟩ := exists_of_lt hlt
  apply hy (h hx)

/-! ### The next larger submask -/

/-- The lowest one of `m` that the submask `x` lacks is at `f`, and `y` has it in place of the
ones of `x` below it. -/
structure StepsUp (m : BitVec w) (f : ℕ) (x y : BitVec w) : Prop where
  subset : ones x ⊆ ones m
  mem : f ∈ ones m
  notMem : f ∉ ones x
  below : ∀ i ∈ ones m, i < f → i ∈ ones x
  mem_iff : ∀ i, i ∈ ones y ↔ i = f ∨ (i ∈ ones x ∧ f < i)

namespace StepsUp

variable {f : ℕ} (h : StepsUp m f x y)

include h

theorem ones_subset :
  ones y ⊆ ones m
  := by
  intro i hi
  rcases (h.mem_iff i).mp hi with rfl | ⟨hi, -⟩
  · apply h.mem
  · apply h.subset hi

theorem lt_step :
  x < y
  := by
  apply lt_of_ones h.notMem
  · apply (h.mem_iff f).mpr (.inl rfl)
  · intro j hj
    rw [h.mem_iff]
    constructor
    · intro hjx
      right
      use hjx
    · rintro (rfl | ⟨hjx, -⟩)
      · apply absurd hj (lt_irrefl _)
      · apply hjx

/-- Between `x` and `y` there is no submask. -/
theorem not_subset_of_between (hxz : x < z) (hzy : z < y) :
  ¬ ones z ⊆ ones m
  := by
  intro hzm
  obtain ⟨a, hax, haz, hxa⟩ := exists_of_lt hxz
  obtain ⟨b, hbz, hby, hyb⟩ := exists_of_lt hzy
  have hfa : f ≤ a := by
    by_contra haf
    apply hax (h.below a (hzm haz) (not_le.mp haf))
  rcases (h.mem_iff b).mp hby with rfl | ⟨hbx, hfb⟩
  · -- above `f` the bit-vector `z` has the ones of `y`, which are those of `x`
    rcases hfa.eq_or_lt with rfl | hfa
    · apply hbz haz
    · rcases (h.mem_iff a).mp ((hyb a hfa).mp haz) with rfl | ⟨hax', -⟩
      · apply hbz haz
      · apply hax hax'
  · rcases lt_trichotomy a b with hab | rfl | hba
    · apply hbz ((hxa b hab).mp hbx)
    · apply hbz haz
    · rcases (h.mem_iff a).mp ((hyb a hba).mp haz) with rfl | ⟨hax', -⟩
      · omega
      · apply hax hax'

end StepsUp

/-! ### Pairs of submasks that cover the mask -/

/-- A submask that makes up the mask with `x` has all the ones that `x` lacks and some of the
ones of `x`. -/
theorem covers_iff (hx : ones x ⊆ ones m) :
  (∃ z, ones z ⊆ ones x ∧ m &&& ~~~x ||| z = y) ↔ ones y ⊆ ones m ∧ ones x ∪ ones y = ones m
  := by
  constructor
  · rintro ⟨z, hz, rfl⟩
    rw [ones_or, ones_and_not]
    constructor
    · apply Finset.union_subset Finset.sdiff_subset (hz.trans hx)
    · rw [← Finset.union_assoc, Finset.union_sdiff_of_subset hx]
      apply Finset.union_eq_left.mpr (hz.trans hx)
  · rintro ⟨hy, hcover⟩
    refine ⟨x &&& y, by rw [ones_and]; apply Finset.inter_subset_left, ?_⟩
    apply ones_injective
    rw [ones_or, ones_and_not, ones_and, ← hcover, Finset.union_sdiff_left]
    rw [Finset.inter_comm]
    apply Finset.sdiff_union_inter

/-- The ones they share are determined. -/
theorem covers_injective (hy : ones y ⊆ ones x) (hz : ones z ⊆ ones x)
    (h : m &&& ~~~x ||| y = m &&& ~~~x ||| z) :
  y = z
  := by
  have hshared : ∀ {u : BitVec w}, ones u ⊆ ones x →
      ones (m &&& ~~~x ||| u) ∩ ones x = ones u := by
    intro u hu
    rw [ones_or, ones_and_not, Finset.union_inter_distrib_right, Finset.sdiff_inter_self,
      Finset.empty_union]
    apply Finset.inter_eq_left.mpr hu
  apply ones_injective
  rw [← hshared hy, ← hshared hz, h]

/-! ### The positions of the ones in order -/

/-- The positions of the ones in increasing order. -/
def positions (m : BitVec w) : List ℕ := (ones m).sort

@[simp]
theorem mem_positions :
  i ∈ positions m ↔ i ∈ ones m
  := Finset.mem_sort _

theorem positions_pairwise (m : BitVec w) :
  (positions m).Pairwise (· < ·)
  := (Finset.sortedLT_sort (ones m)).pairwise

@[simp]
theorem length_positions (m : BitVec w) :
  (positions m).length = (ones m).card
  := Finset.length_sort _

theorem positions_inj {k : ℕ} (hi : (positions m)[i]? = some k) (hj : (positions m)[j]? = some k) :
  i = j
  := by
  have hlt := (List.getElem?_eq_some_iff.mp hi).1
  apply (List.getElem?_inj hlt (Finset.sort_nodup _ _)).mp (hi.trans hj.symm)

theorem card_ones_le (m : BitVec w) :
  (ones m).card ≤ w
  := by
  apply (Finset.card_le_card (Finset.filter_subset _ _)).trans
  rw [Finset.card_range]

theorem positions_zero :
  positions (0 : BitVec w) = []
  := by
  rw [positions, ones_zero, Finset.sort_empty]

/-- The lowest one comes first. -/
theorem positions_eq_cons (hlow : ∀ j ∈ ones x, i < j) (hmem : ones m = insert i (ones x)) :
  positions m = i :: positions x
  := by
  have hi : i ∉ ones x := by
    intro hi
    apply lt_irrefl i (hlow i hi)
  rw [positions, hmem]
  apply Finset.sort_insert _ (fun j hj => (hlow j hj).le) hi

/-! ### The rank of a submask -/

/-- The number `p` has the bits of the submask `x` at the ones of `m`, in increasing order. -/
structure Ranked (m x p : BitVec w) : Prop where
  subset : ones x ⊆ ones m
  lt : p.toNat < 2 ^ (ones m).card
  mem_iff : ∀ i j, (positions m)[i]? = some j → (i ∈ ones p ↔ j ∈ ones x)

namespace Ranked

theorem rank_subset (hp : Ranked m x p) (hq : Ranked m x q) :
  ones p ⊆ ones q
  := by
  intro i hi
  have hlt : i < (positions m).length := by
    rw [length_positions]
    apply toNat_lt_two_pow_iff.mp hp.lt i hi
  have hget := List.getElem?_eq_getElem hlt
  rw [hq.mem_iff i _ hget]
  apply (hp.mem_iff i _ hget).mp hi

/-- A submask has one rank. -/
theorem rank_eq (hp : Ranked m x p) (hq : Ranked m x q) :
  p = q
  := by
  apply ones_injective
  apply Finset.Subset.antisymm (hp.rank_subset hq) (hq.rank_subset hp)

theorem submask_subset (hx : Ranked m x p) (hy : Ranked m y p) :
  ones x ⊆ ones y
  := by
  intro j hj
  obtain ⟨i, hi⟩ := List.mem_iff_getElem?.mp (mem_positions.mpr (hx.subset hj))
  rw [← hy.mem_iff i j hi]
  apply (hx.mem_iff i j hi).mpr hj

/-- A number is the rank of one submask. -/
theorem submask_eq (hx : Ranked m x p) (hy : Ranked m y p) :
  x = y
  := by
  apply ones_injective
  apply Finset.Subset.antisymm (hx.submask_subset hy) (hy.submask_subset hx)

end Ranked

/-! ### Collecting ones -/

/-- The ones of a disjunction over a list. -/
theorem mem_ones_foldl {γ : Type} (c : γ → Prop) [DecidablePred c] (g : γ → BitVec w)
    (l : List γ) (x : BitVec w) :
  i ∈ ones (l.foldl (fun r a => if c a then r ||| g a else r) x)
    ↔ i ∈ ones x ∨ ∃ a ∈ l, c a ∧ i ∈ ones (g a)
  := by
  induction l generalizing x with
  | nil => simp
  | cons a l ih =>
      rw [List.foldl_cons, ih]
      by_cases ha : c a
      · simp [ha, or_assoc]
      · simp [ha]

end Ones
