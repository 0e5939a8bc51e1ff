import DryadSynth.Library.Blocks

/-!
# Sets of examples

`tree_learning/bits.rs`: sets of examples in blocks of 128 bits.
-/

namespace DryadSynth

/-- `Bits`. -/
abbrev Bits : Type := List (BitVec 128)

namespace Bits

/-- `ceildiv`. -/
def ceildiv (a b : ℕ) : ℕ := (a + b - 1) / b

/-- `from_bit_iter`, of numbers below `len`. -/
def fromBitIter (t : List ℕ) (len : ℕ) : Bits :=
  t.foldl Blocks.insert (Blocks.zeros 128 (ceildiv len 128))

/-- `conjunction_assign`. -/
def conjunctionAssign (this other : Bits) : Bits := Blocks.inter this other

/-- `union_assign`. -/
def unionAssign (this other : Bits) : Bits := Blocks.union this other

/-- `difference_assign`. -/
def differenceAssign (this other : Bits) : Bits := Blocks.diff this other

/-- `subset`. -/
def subset (this other : Bits) : Bool := Blocks.subset this other

/-- `count_ones`, a sum of 32-bit numbers. -/
def countOnes (this : Bits) : BitVec 32 := (this.map fun x => x.cpop.setWidth 32).sum

/-- `boxed_ones`.  The last block has the bits below the remainder of `size`, so none when
the blocks are full. -/
def boxedOnes (size : ℕ) : Bits :=
  let l := ceildiv size 128
  let rem := size % 128
  (List.range l).map fun i => if i + 1 = l then (1#128 <<< rem) - 1#128 else BitVec.allOnes 128

theorem lt_ceildiv {i n : ℕ} (h : i < n) :
  i / 128 < ceildiv n 128
  := by
  rw [ceildiv]
  omega

theorem mem_fromBitIter {t : List ℕ} {len : ℕ} (h : ∀ j ∈ t, j < len) (i : ℕ) :
  i ∈ Blocks.toSet (fromBitIter t len) ↔ i ∈ t
  := Blocks.mem_toSet_foldl_insert (by decide) fun j hj => lt_ceildiv (h j hj)

theorem length_fromBitIter (t : List ℕ) (len : ℕ) :
  (fromBitIter t len).length = ceildiv len 128
  := by
  rw [fromBitIter, Blocks.length_foldl_insert, Blocks.zeros, List.length_replicate]

theorem length_boxedOnes (size : ℕ) :
  (boxedOnes size).length = ceildiv size 128
  := by
  simp [boxedOnes]

theorem mem_boxedOnes {size i : ℕ} :
  i ∈ Blocks.toSet (boxedOnes size)
    ↔ i / 128 < ceildiv size 128 ∧ (i / 128 + 1 = ceildiv size 128 → i % 128 < size % 128)
  := by
  have hrem : size % 128 < 128 := Nat.mod_lt _ (by decide)
  rw [Blocks.mem_toSet, boxedOnes, List.getElem?_map]
  by_cases hlt : i / 128 < ceildiv size 128
  · rw [List.getElem?_range hlt, Option.map_some]
    simp only [Option.some.injEq, exists_eq_left', hlt, true_and]
    split_ifs with hlast
    · rw [Ones.getLsbD_low hrem, decide_eq_true_iff]
      simp [hlast]
    · rw [BitVec.getLsbD_allOnes, decide_eq_true_iff]
      simp [hlast, Nat.mod_lt]
  · rw [List.getElem?_eq_none (by simpa using hlt)]
    simp [hlt]

/-- When the last block is not full, `boxed_ones` is the set of all examples. -/
theorem toSet_boxedOnes {size : ℕ} (h : size % 128 ≠ 0) :
  Blocks.toSet (boxedOnes size) = {i | i < size}
  := by
  ext i
  rw [mem_boxedOnes, ceildiv, Set.mem_ofPred_eq]
  omega

/-- When all blocks are full, `boxed_ones` lacks the last one. -/
theorem toSet_boxedOnes_of_dvd {size : ℕ} (h : size % 128 = 0) :
  Blocks.toSet (boxedOnes size) = {i | i + 128 < size}
  := by
  ext i
  rw [mem_boxedOnes, ceildiv, Set.mem_ofPred_eq]
  omega

/-! ### Sets as blocks -/

/-- The blocks stand for a set of examples below `n`, with no bit set beyond them. -/
structure Represents (n : ℕ) (a : Bits) (A : Finset ℕ) : Prop where
  length : a.length = ceildiv n 128
  lt : ∀ i ∈ A, i < n
  toSet : Blocks.toSet a = A

theorem toNat_countOnes (a : Bits) :
  (countOnes a).toNat = Blocks.count a % 2 ^ 32
  := by
  induction a with
  | nil => rfl
  | cons x a ih =>
      simp only [countOnes, Blocks.count, List.map_cons, List.sum_cons] at ih ⊢
      rw [BitVec.toNat_add, ih, BitVec.toNat_setWidth, ← Nat.add_mod]

namespace Represents

variable {n : ℕ} {a b : Bits} {A B : Finset ℕ}

/-- `from_bit_iter` gives the set of the numbers it reads. -/
theorem fromBitIter {t : List ℕ} (h : ∀ j ∈ t, j < n) :
  Represents n (fromBitIter t n) t.toFinset
  := by
  refine ⟨length_fromBitIter t n, ?_, ?_⟩
  · intro i hi
    apply h i (List.mem_toFinset.mp hi)
  · ext i
    rw [mem_fromBitIter h, Finset.mem_coe, List.mem_toFinset]

theorem conjunctionAssign (ha : Represents n a A) (hb : Represents n b B) :
  Represents n (conjunctionAssign a b) (A ∩ B)
  := by
  refine ⟨(Blocks.length_inter a b).trans ha.length, ?_, ?_⟩
  · intro i hi
    apply ha.lt i (Finset.mem_inter.mp hi).1
  · rw [Bits.conjunctionAssign, Blocks.toSet_inter (ha.length.trans hb.length.symm).le, ha.toSet,
      hb.toSet, Finset.coe_inter]

theorem unionAssign (ha : Represents n a A) (hb : Represents n b B) :
  Represents n (unionAssign a b) (A ∪ B)
  := by
  refine ⟨(Blocks.length_union a b).trans ha.length, ?_, ?_⟩
  · intro i hi
    rcases Finset.mem_union.mp hi with hi | hi
    · apply ha.lt i hi
    · apply hb.lt i hi
  · rw [Bits.unionAssign, Blocks.toSet_union (ha.length.trans hb.length.symm), ha.toSet,
      hb.toSet, Finset.coe_union]

theorem differenceAssign (ha : Represents n a A) (hb : Represents n b B) :
  Represents n (differenceAssign a b) (A \ B)
  := by
  refine ⟨(Blocks.length_diff a b).trans ha.length, ?_, ?_⟩
  · intro i hi
    apply ha.lt i (Finset.mem_sdiff.mp hi).1
  · rw [Bits.differenceAssign, Blocks.toSet_diff, ha.toSet, hb.toSet, Finset.coe_sdiff]

theorem subset_iff (ha : Represents n a A) (hb : Represents n b B) :
  subset a b = true ↔ A ⊆ B
  := by
  rw [← Finset.coe_subset, ← ha.toSet, ← hb.toSet]
  constructor
  · intro h
    apply Blocks.toSet_subset h (ha.length.trans hb.length.symm).le
  · apply Blocks.subset_of_toSet

/-- `count_ones` is the number of elements, in 32 bits. -/
theorem countOnes (ha : Represents n a A) :
  (countOnes a).toNat = A.card % 2 ^ 32
  := by
  rw [toNat_countOnes, ← Blocks.ncard_toSet (by decide), ha.toSet, Set.ncard_coe_finset]

end Represents

/-- The block sets of size `n` are the sets of examples below `n`, and their operations are
the operations on sets. -/
structure Faithful (n : ℕ) : Prop where
  fromBitIter : ∀ t : List ℕ, (∀ j ∈ t, j < n) → Represents n (fromBitIter t n) t.toFinset
  conjunctionAssign : ∀ {a b A B}, Represents n a A → Represents n b B →
    Represents n (conjunctionAssign a b) (A ∩ B)
  unionAssign : ∀ {a b A B}, Represents n a A → Represents n b B →
    Represents n (unionAssign a b) (A ∪ B)
  differenceAssign : ∀ {a b A B}, Represents n a A → Represents n b B →
    Represents n (differenceAssign a b) (A \ B)
  subset : ∀ {a b A B}, Represents n a A → Represents n b B → (subset a b = true ↔ A ⊆ B)
  countOnes : ∀ {a A}, Represents n a A → (countOnes a).toNat = A.card
  boxedOnes : Represents n (boxedOnes n) (Finset.range n)

/-- A set of `2 ^ 32` examples is counted as empty. -/
theorem lt_of_countOnes {n : ℕ}
    (h : ∀ {a A}, Represents n a A → (countOnes a).toNat = A.card) :
  n < 2 ^ 32
  := by
  by_contra hn
  have hlt : ∀ j ∈ List.range (2 ^ 32), j < n := by
    intro j hj
    apply (List.mem_range.mp hj).trans_le (not_lt.mp hn)
  have hrep := Represents.fromBitIter hlt
  have hcount := h hrep
  have hcard : (List.range (2 ^ 32)).toFinset.card = 2 ^ 32 := by
    rw [List.toFinset_card_of_nodup List.nodup_range, List.length_range]
  rw [hrep.countOnes, hcard, Nat.mod_self] at hcount
  omega

/-- The block sets of size `n` are the sets of examples below `n` exactly when `n` is zero or
not a multiple of 128, so that `boxed_ones` has all of them, and the 32 bits of `count_ones`
hold `n`. -/
theorem faithful_iff (n : ℕ) :
  Faithful n ↔ (n = 0 ∨ n % 128 ≠ 0) ∧ n < 2 ^ 32
  := by
  constructor
  · intro h
    refine ⟨?_, lt_of_countOnes h.countOnes⟩
    by_contra hn
    obtain ⟨hne, hdvd⟩ := not_or.mp hn
    have hones := h.boxedOnes.toSet
    rw [toSet_boxedOnes_of_dvd (not_not.mp hdvd)] at hones
    -- the last example is missing
    have hlast : n - 1 ∈ {i | i + 128 < n} := by
      rw [hones, Finset.mem_coe, Finset.mem_range]
      omega
    rw [Set.mem_ofPred_eq] at hlast
    omega
  · rintro ⟨hn, hlt⟩
    refine ⟨fun t ht => .fromBitIter ht, .conjunctionAssign, .unionAssign, .differenceAssign,
      Represents.subset_iff, ?_, ⟨length_boxedOnes n, by simp, ?_⟩⟩
    · intro a A ha
      have hcard : A.card ≤ n := by
        rw [← Finset.card_range n]
        apply Finset.card_le_card
        intro i hi
        apply Finset.mem_range.mpr (ha.lt i hi)
      rw [ha.countOnes, Nat.mod_eq_of_lt (hcard.trans_lt hlt)]
    · rw [Finset.coe_range]
      rcases hn with rfl | hn
      · ext i
        simp [Bits.boxedOnes, ceildiv]
      · apply toSet_boxedOnes hn

/-- With 128 examples `boxed_ones` is empty. -/
theorem not_faithful :
  ¬ Faithful 128
  := by
  intro h
  have hzero : 0 ∈ Blocks.toSet (boxedOnes 128) := by
    rw [h.boxedOnes.toSet]
    simp
  rw [mem_boxedOnes] at hzero
  revert hzero
  decide

end Bits

end DryadSynth
