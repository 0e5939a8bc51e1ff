import Mathlib

/-!
# The ones of a bit-vector

The positions of the ones of a bit-vector as a finite set.  The population count is its
size, and the order of bit-vectors is the order of these sets at the highest position at
which they differ.  Among the bit-vectors with a given number of ones, the next smaller one
moves the lowest one that stands above a zero down by one place, and packs the ones below
it right under its new place.
-/

namespace Ones

variable {w : ℕ} {x y : BitVec w} {i : ℕ}

/-- The positions of the ones. -/
def ones (x : BitVec w) : Finset ℕ := (Finset.range w).filter fun i => x.getLsbD i = true

@[simp]
theorem mem_ones :
  i ∈ ones x ↔ x.getLsbD i = true
  := by
  simp only [ones, Finset.mem_filter, Finset.mem_range, and_iff_right_iff_imp]
  apply BitVec.lt_of_getLsbD

theorem lt_of_mem_ones (h : i ∈ ones x) :
  i < w
  := BitVec.lt_of_getLsbD (mem_ones.mp h)

/-- Bit-vectors with the same ones are equal. -/
theorem ones_injective :
  Function.Injective (ones : BitVec w → Finset ℕ)
  := by
  intro x y h
  apply BitVec.eq_of_getLsbD_eq
  intro i _
  apply Bool.eq_iff_iff.mpr
  rw [← mem_ones, ← mem_ones, h]

theorem ones_zero :
  ones (0 : BitVec w) = ∅
  := by
  ext i
  simp

@[simp]
theorem ones_and (x y : BitVec w) :
  ones (x &&& y) = ones x ∩ ones y
  := by
  ext i
  simp

@[simp]
theorem ones_or (x y : BitVec w) :
  ones (x ||| y) = ones x ∪ ones y
  := by
  ext i
  simp

@[simp]
theorem ones_and_not (x y : BitVec w) :
  ones (x &&& ~~~y) = ones x \ ones y
  := by
  ext i
  rw [Finset.mem_sdiff, mem_ones, mem_ones, mem_ones, BitVec.getLsbD_and, BitVec.getLsbD_not]
  cases hx : x.getLsbD i with
  | false => simp
  | true => simp [BitVec.lt_of_getLsbD hx]

/-- A bit-vector without ones is zero. -/
theorem ones_eq_empty_iff :
  ones x = ∅ ↔ x = 0
  := by
  rw [← ones_zero, ones_injective.eq_iff]

theorem ones_nonempty_iff :
  (ones x).Nonempty ↔ 0 < x.toNat
  := by
  rw [Finset.nonempty_iff_ne_empty, ne_eq, ones_eq_empty_iff, ← ne_eq, ← BitVec.toNat_ne_iff_ne,
    Nat.pos_iff_ne_zero]
  rfl

/-- The ones of a power of two. -/
theorem ones_shiftLeft_one {k : ℕ} (hk : k < w) :
  ones (1#w <<< k) = {k}
  := by
  ext i
  rw [mem_ones, BitVec.getLsbD_shiftLeft, BitVec.getLsbD_one, Finset.mem_singleton]
  simp only [Bool.and_eq_true, decide_eq_true_eq, Bool.not_eq_true', decide_eq_false_iff_not]
  omega

/-- The recursion of the population count, on the positions below `n`. -/
theorem cpopNatRec_eq_card (x : BitVec w) (n : ℕ) :
  x.cpopNatRec n 0 = ((Finset.range n).filter fun i => x.getLsbD i = true).card
  := by
  induction n with
  | zero => rfl
  | succ n ih =>
      rw [BitVec.cpopNatRec_succ, BitVec.cpopNatRec_eq, ih, Finset.range_add_one,
        Finset.filter_insert]
      cases h : x.getLsbD n with
      | true => simp
      | false => simp

/-- The population count is the number of ones. -/
theorem card_ones (x : BitVec w) :
  (ones x).card = x.cpop.toNat
  := by
  have hlt : x.cpopNatRec w 0 < 2 ^ w :=
    (BitVec.cpopNatRec_zero_le x w).trans_lt Nat.lt_two_pow_self
  rw [BitVec.cpop, BitVec.toNat_ofNat, Nat.mod_eq_of_lt hlt, cpopNatRec_eq_card, ones]

/-- A bit-vector is smaller when it lacks a one of the other above which they agree. -/
theorem lt_of_ones (hx : i ∉ ones x) (hy : i ∈ ones y)
    (habove : ∀ j, i < j → (j ∈ ones x ↔ j ∈ ones y)) :
  x < y
  := by
  apply BitVec.lt_def.mpr
  apply Nat.lt_of_testBit i
  · simpa [BitVec.testBit_toNat] using hx
  · simpa [BitVec.testBit_toNat] using hy
  · intro j hj
    rw [BitVec.testBit_toNat, BitVec.testBit_toNat]
    apply Bool.eq_iff_iff.mpr
    rw [← mem_ones, ← mem_ones, habove j hj]

/-- A smaller bit-vector lacks a one of the other above which they agree. -/
theorem exists_of_lt (h : x < y) :
  ∃ i, i ∉ ones x ∧ i ∈ ones y ∧ ∀ j, i < j → (j ∈ ones x ↔ j ∈ ones y)
  := by
  have hne : (x ^^^ y).toNat ≠ 0 := by
    intro h0
    have hzero : x ^^^ y = 0#w := BitVec.eq_of_toNat_eq h0
    obtain rfl := BitVec.xor_eq_zero_iff.mp hzero
    apply BitVec.lt_irrefl x h
  obtain ⟨i, hi, habove⟩ := Nat.exists_most_significant_bit hne
  simp only [BitVec.testBit_toNat, BitVec.getLsbD_xor, bne_eq_false_iff_eq] at hi habove
  have hagree : ∀ j, i < j → (j ∈ ones x ↔ j ∈ ones y) := by
    intro j hj
    rw [mem_ones, mem_ones, habove j hj]
  cases hx : x.getLsbD i with
  | false =>
      refine ⟨i, by simp [hx], ?_, hagree⟩
      simpa [hx] using hi
  | true =>
      -- otherwise the order would be the other one
      exfalso
      have hy : i ∉ ones y := by
        simpa [hx] using hi
      have hlt : y < x := lt_of_ones hy (mem_ones.mpr hx) fun j hj => (hagree j hj).symm
      apply BitVec.lt_asymm h hlt

/-- A bit-vector is below a power of two when all its ones are below the exponent. -/
theorem toNat_lt_two_pow_iff {n : ℕ} :
  x.toNat < 2 ^ n ↔ ∀ i ∈ ones x, i < n
  := by
  constructor
  · intro h i hi
    by_contra hni
    have hlt : x.toNat < 2 ^ i := h.trans_le (Nat.pow_le_pow_right (by decide) (not_lt.mp hni))
    have hbit := mem_ones.mp hi
    rw [← BitVec.testBit_toNat, Nat.testBit_lt_two_pow hlt] at hbit
    cases hbit
  · intro h
    apply Nat.lt_pow_two_of_testBit
    intro i hi
    rw [BitVec.testBit_toNat, ← Bool.not_eq_true, ← mem_ones]
    intro hmem
    apply not_lt.mpr hi (h i hmem)

/-- The ones of the mask of the low `k` bits. -/
theorem getLsbD_low {k : ℕ} (hk : k < w) (i : ℕ) :
  ((1#w <<< k) - 1#w).getLsbD i = decide (i < k)
  := by
  have hone : (1#w).toNat = 1 := by
    rw [BitVec.toNat_ofNat, Nat.mod_eq_of_lt (Nat.one_lt_two_pow (Nat.ne_zero_of_lt hk))]
  have hpow : 2 ^ k < 2 ^ w := Nat.pow_lt_pow_right (by decide) hk
  have hshift : (1#w <<< k).toNat = 2 ^ k := by
    rw [BitVec.toNat_shiftLeft, Nat.shiftLeft_eq, hone, Nat.one_mul, Nat.mod_eq_of_lt hpow]
  have hle : 1#w ≤ 1#w <<< k := by
    rw [BitVec.le_def, hshift, hone]
    apply Nat.one_le_two_pow
  rw [← BitVec.testBit_toNat, BitVec.toNat_sub_of_le hle, hshift, hone,
    Nat.testBit_two_pow_sub_one]

theorem mem_ones_low {k : ℕ} (hk : k < w) :
  i ∈ ones ((1#w <<< k) - 1#w) ↔ i < k
  := by
  rw [mem_ones, getLsbD_low hk, decide_eq_true_eq]

/-! ### The next smaller bit-vector with as many ones -/

/-- A bit-vector whose ones are packed at the bottom is the least with as many ones. -/
theorem card_lt_of_packed {t : ℕ} {z : BitVec w} (hx : ∀ i, i ∈ ones x ↔ i < t) (hz : z < x) :
  (ones z).card < (ones x).card
  := by
  obtain ⟨i, hiz, hix, habove⟩ := exists_of_lt hz
  apply Finset.card_lt_card
  apply (Finset.ssubset_iff_of_subset _).mpr ⟨i, hix, hiz⟩
  intro j hj
  rcases lt_trichotomy i j with hij | rfl | hji
  · apply (habove j hij).mp hj
  · apply absurd hj hiz
  · apply (hx j).mpr (hji.trans ((hx i).mp hix))

/-- The ones of `x` below `f` are those below `t`, it has a one at `f`, and `y` has `t + 1`
ones right below `f` in place of these. -/
structure StepsDown (t f : ℕ) (x y : BitVec w) : Prop where
  lt : t < f
  mem : f ∈ ones x
  below : ∀ i, i < f → (i ∈ ones x ↔ i < t)
  mem_iff : ∀ i, i ∈ ones y ↔ (i ∈ ones x ∧ f < i) ∨ (f - t - 1 ≤ i ∧ i < f)

namespace StepsDown

variable {t f : ℕ} {z : BitVec w} (h : StepsDown t f x y)

include h

theorem step_lt :
  y < x
  := by
  apply lt_of_ones (i := f) _ h.mem
  · intro j hj
    rw [h.mem_iff]
    constructor
    · rintro (⟨hj, -⟩ | ⟨-, hjf⟩)
      · apply hj
      · omega
    · intro hjx
      left
      use hjx
  · rw [h.mem_iff]
    omega

theorem card_eq :
  (ones y).card = (ones x).card
  := by
  have hlt := h.lt
  have hy : ones y = (ones x).filter (f < ·) ∪ Finset.Ico (f - t - 1) f := by
    ext i
    simp only [h.mem_iff, Finset.mem_union, Finset.mem_filter, Finset.mem_Ico]
  have hx : ones x = (ones x).filter (f < ·) ∪ insert f (Finset.range t) := by
    ext i
    simp only [Finset.mem_union, Finset.mem_filter, Finset.mem_insert, Finset.mem_range]
    rcases lt_trichotomy i f with hi | rfl | hi
    · rw [h.below i hi]
      omega
    · simp [h.mem]
    · have hne : ¬ (i = f ∨ i < t) := by omega
      simp only [hi, and_true, hne, or_false]
  have hdisjy : Disjoint ((ones x).filter (f < ·)) (Finset.Ico (f - t - 1) f) := by
    apply Finset.disjoint_left.mpr
    intro i hi
    simp only [Finset.mem_filter] at hi
    simp only [Finset.mem_Ico]
    omega
  have hdisjx : Disjoint ((ones x).filter (f < ·)) (insert f (Finset.range t)) := by
    apply Finset.disjoint_left.mpr
    intro i hi
    simp only [Finset.mem_filter] at hi
    simp only [Finset.mem_insert, Finset.mem_range]
    omega
  have hf : f ∉ Finset.range t := by
    rw [Finset.mem_range]
    omega
  have hcard : (ones x).card = ((ones x).filter (f < ·)).card + (t + 1) := by
    conv_lhs => rw [hx]
    rw [Finset.card_union_of_disjoint hdisjx, Finset.card_insert_of_notMem hf, Finset.card_range]
  rw [hy, Finset.card_union_of_disjoint hdisjy, hcard, Nat.card_Ico]
  omega

/-- Between `y` and `x` every bit-vector has another number of ones. -/
theorem card_ne_of_between (hyz : y < z) (hzx : z < x) :
  (ones z).card ≠ (ones x).card
  := by
  have hlt := h.lt
  obtain ⟨i, hiz, hix, habove⟩ := exists_of_lt hzx
  rcases lt_trichotomy i f with hi | rfl | hi
  · -- `z` has the high ones of `x` and fewer of the low ones
    apply ne_of_lt
    apply Finset.card_lt_card
    apply (Finset.ssubset_iff_of_subset _).mpr ⟨i, hix, hiz⟩
    intro j hj
    rcases lt_trichotomy i j with hij | rfl | hji
    · apply (habove j hij).mp hj
    · apply absurd hj hiz
    · apply (h.below j (hji.trans hi)).mpr (hji.trans ((h.below i hi).mp hix))
  · -- `z` has the ones of `y` and one more below them
    rw [← h.card_eq]
    apply ne_of_gt
    obtain ⟨j, hjy, hjz, hjabove⟩ := exists_of_lt hyz
    have hji : j < i := by
      by_contra hij
      rcases (not_lt.mp hij).eq_or_lt with rfl | hij
      · apply hiz hjz
      · apply hjy
        apply (h.mem_iff j).mpr
        left
        use (habove j hij).mp hjz
    have hjd : j < i - t - 1 := by
      by_contra hge
      apply hjy
      apply (h.mem_iff j).mpr
      right
      omega
    apply Finset.card_lt_card
    apply (Finset.ssubset_iff_of_subset _).mpr ⟨j, hjz, hjy⟩
    intro k hk
    rcases lt_trichotomy j k with hjk | rfl | hkj
    · apply (hjabove k hjk).mp hk
    · apply hjz
    · rcases (h.mem_iff k).mp hk with ⟨-, hik⟩ | ⟨hik, -⟩
      · omega
      · omega
  · -- above `f` the bit-vectors `x` and `y` agree
    exfalso
    have hzy : z < y := by
      apply lt_of_ones hiz
      · apply (h.mem_iff i).mpr
        left
        use hix
      · intro j hj
        rw [habove j hj, h.mem_iff]
        constructor
        · intro hjx
          left
          use hjx, hi.trans hj
        · rintro (⟨hjx, -⟩ | ⟨-, hjf⟩)
          · apply hjx
          · omega
    apply BitVec.lt_asymm hyz hzy

end StepsDown

end Ones
