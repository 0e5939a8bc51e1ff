import DryadSynth.Enumerate.Expr
import DryadSynth.Library.Iteration
import DryadSynth.Library.Ones

/-!
# Combinations as masks

`CombIter` of `enumerate/utils.rs`, which yields the masks with a given number of ones among
the low bits.  A step moves the lowest one that can move down by one place, and puts the ones
below it right under its new place.  Shifts and subtractions are checked: out of range they
are a panic.
-/

namespace DryadSynth

open Ones (ones mem_ones)

/-! ### Words -/

namespace U64

/-- `1 << k`. -/
def shlOne (k : ℕ) : Except Fault (BitVec 64) :=
  if k < 64 then .ok (1#64 <<< k) else .error .panic

/-- `x - y`. -/
def sub (x y : BitVec 64) : Except Fault (BitVec 64) :=
  if y ≤ x then .ok (x - y) else .error .panic

/-- `(1 << k) - 1`. -/
def low (k : ℕ) : Except Fault (BitVec 64) := do
  let x ← shlOne k
  sub x 1

/-- `BitSetU64Ext::bits`: the ones from `a` up to and without `b`. -/
def bits (a b : ℕ) : Except Fault (BitVec 64) := do
  let x ← low b
  let y ← low a
  .ok (x &&& ~~~y)

/-- `u64::trailing_zeros`. -/
def trailingZeros (x : BitVec 64) : ℕ := x.ctz.toNat

/-- `u64::trailing_ones`. -/
def trailingOnes (x : BitVec 64) : ℕ := trailingZeros (~~~x)

end U64

/-- A subtraction on `u32`. -/
def subU32 (a b : ℕ) : Except Fault ℕ :=
  if b ≤ a then .ok (a - b) else .error .panic

/-! ### The iterator -/

namespace CombIter

/-- `CombIter::next`, on the mask the iterator keeps. -/
def next (cur : BitVec 64) : Except Fault (Option (BitVec 64) × BitVec 64) := do
  let t := U64.trailingOnes cur
  let mask ← U64.low t
  let noto := cur &&& ~~~mask
  let fo := U64.trailingZeros noto
  if fo = 64 then
    if cur ≠ 0 then .ok (some cur, 0) else .ok (none, cur)
  else do
    let gone ← U64.bits 0 (fo + 1)
    let d ← subU32 fo t
    let d ← subU32 d 1
    let packed ← U64.bits d fo
    .ok (some cur, cur &&& ~~~gone ||| packed)

/-- `CombIter::new`. -/
def new (p n : ℕ) : Except Fault (BitVec 64) :=
  if p ≤ n then do
    let a ← subU32 n p
    U64.bits a n
  else .error .panic

end CombIter

/-- `BitSetU64Ext::comb_iter`, with the arguments cut to 32 bits. -/
def combIter (n r : BitVec 64) : Except Fault (BitVec 64) :=
  CombIter.new (r.setWidth 32).toNat (n.setWidth 32).toNat

/-! ### Masks of the low bits -/

namespace U64

theorem sub_one_eq {k : ℕ} (hk : k < 64) :
  sub (1#64 <<< k) 1 = .ok ((1#64 <<< k) - 1#64)
  := by
  have hone : 1#64 ≤ 1#64 <<< k := by
    rw [BitVec.le_def, BitVec.toNat_shiftLeft, Nat.shiftLeft_eq, BitVec.toNat_ofNat,
      Nat.mod_eq_of_lt (by decide : 1 < 2 ^ 64), Nat.one_mul,
      Nat.mod_eq_of_lt (Nat.pow_lt_pow_right (by decide) hk)]
    apply Nat.one_le_two_pow
  apply if_pos hone

theorem low_eq {k : ℕ} (hk : k < 64) :
  low k = .ok ((1#64 <<< k) - 1#64)
  := by
  rw [low, shlOne, if_pos hk]
  apply sub_one_eq hk

/-- The ones of `bits`. -/
theorem exists_bits {a b : ℕ} (ha : a < 64) (hb : b < 64) :
  ∃ m, bits a b = .ok m ∧ ∀ i, i ∈ ones m ↔ a ≤ i ∧ i < b
  := by
  refine ⟨_, by rw [bits, low_eq hb, low_eq ha]; rfl, ?_⟩
  intro i
  rw [Ones.ones_and_not, Finset.mem_sdiff, Ones.mem_ones_low ha, Ones.mem_ones_low hb, not_lt]
  apply and_comm

theorem trailingZeros_zero :
  trailingZeros 0 = 64
  := by
  have hrev : (0#64).reverse = 0 := BitVec.reverse_eq_zero_iff.mpr rfl
  have hclz : (0#64).reverse.clz = 64 := BitVec.clz_eq_iff_eq_zero.mpr hrev
  rw [trailingZeros, BitVec.ctz]
  apply congrArg BitVec.toNat hclz

/-- The first one stands at `trailing_zeros`. -/
theorem trailingZeros_mem {x : BitVec 64} (hx : x ≠ 0) :
  trailingZeros x ∈ ones x
  := mem_ones.mpr (BitVec.getLsbD_true_ctz_of_ne_zero hx)

theorem trailingZeros_le {x : BitVec 64} {i : ℕ} (hi : i ∈ ones x) :
  trailingZeros x ≤ i
  := by
  apply not_lt.mp
  intro hlt
  have hfalse := BitVec.getLsbD_false_of_lt_ctz hlt
  rw [mem_ones.mp hi] at hfalse
  cases hfalse

/-- A word that lacks a one has its first zero at `trailing_ones`. -/
theorem trailingOnes_spec {x : BitVec 64} {k : ℕ} (hk : k < 64) (hx : k ∉ ones x) :
  trailingOnes x ≤ k ∧ trailingOnes x ∉ ones x ∧ ∀ i < trailingOnes x, i ∈ ones x
  := by
  have hnot : ∀ i, i ∈ ones (~~~x) ↔ i < 64 ∧ i ∉ ones x := by
    intro i
    rw [mem_ones, mem_ones, BitVec.getLsbD_not]
    simp
  have hmem : k ∈ ones (~~~x) := (hnot k).mpr ⟨hk, hx⟩
  have hne : ~~~x ≠ 0 := by
    intro h
    rw [h] at hmem
    simp at hmem
  have hle : trailingOnes x ≤ k := trailingZeros_le hmem
  refine ⟨hle, ((hnot _).mp (trailingZeros_mem hne)).2, ?_⟩
  intro i hi
  by_contra hx'
  have hle' : trailingOnes x ≤ i := trailingZeros_le ((hnot i).mpr ⟨by omega, hx'⟩)
  omega

end U64

/-! ### A step -/

namespace CombIter

/-- At a mask whose ones are packed at the bottom the iterator yields its last element. -/
theorem next_packed {cur : BitVec 64} {t : ℕ} (ht : t < 64) (hne : cur ≠ 0)
    (hcur : ∀ i, i ∈ ones cur ↔ i < t) :
  next cur = .ok (some cur, 0)
  := by
  have hnot : t ∉ ones cur := by
    rw [hcur]
    omega
  obtain ⟨hle, hmem, hbelow⟩ := U64.trailingOnes_spec ht hnot
  have htrail : U64.trailingOnes cur = t := by
    rw [hcur] at hmem
    omega
  have hnoto : cur &&& ~~~((1#64 <<< t) - 1#64) = 0 := by
    rw [← Ones.ones_eq_empty_iff, Ones.ones_and_not, Finset.sdiff_eq_empty_iff_subset]
    intro i hi
    rw [Ones.mem_ones_low ht]
    apply (hcur i).mp hi
  simp only [next, htrail, U64.low_eq ht, bind, Except.bind, hnoto, U64.trailingZeros_zero, if_true]
  apply if_pos hne

/-- At any other mask below the highest bit the iterator yields it and steps down. -/
theorem exists_next {cur : BitVec 64} (hhigh : 63 ∉ ones cur)
    (hcur : ¬ ∃ t, ∀ i, i ∈ ones cur ↔ i < t) :
  ∃ t f y, Ones.StepsDown t f cur y ∧ next cur = .ok (some cur, y)
  := by
  obtain ⟨htop, hmem, hbelow⟩ := U64.trailingOnes_spec (by decide) hhigh
  set t := U64.trailingOnes cur with ht
  have ht64 : t < 64 := by omega
  set noto := cur &&& ~~~((1#64 <<< t) - 1#64) with hnoto
  have hones : ∀ i, i ∈ ones noto ↔ i ∈ ones cur ∧ t ≤ i := by
    intro i
    rw [hnoto, Ones.ones_and_not, Finset.mem_sdiff, Ones.mem_ones_low ht64, not_lt]
  have hne : noto ≠ 0 := by
    intro h0
    apply hcur
    use t
    intro i
    constructor
    · intro hi
      by_contra hti
      have hmem' : i ∈ ones noto := (hones i).mpr ⟨hi, not_lt.mp hti⟩
      rw [h0] at hmem'
      simp at hmem'
    · apply hbelow i
  obtain ⟨hf, htf⟩ := (hones _).mp (U64.trailingZeros_mem hne)
  set f := U64.trailingZeros noto with hfdef
  have hlt : t < f := by
    apply htf.lt_of_ne
    intro heq
    rw [heq] at hmem
    apply hmem hf
  have hf63 : f < 63 := by
    have hf64 : f < 64 := Ones.lt_of_mem_ones hf
    have hne63 : f ≠ 63 := by
      intro heq
      rw [heq] at hf
      apply hhigh hf
    omega
  obtain ⟨gone, hgone, hgoneMem⟩ := U64.exists_bits (a := 0) (b := f + 1) (by decide) (by omega)
  obtain ⟨packed, hpacked, hpackedMem⟩ :=
    U64.exists_bits (a := f - t - 1) (b := f) (by omega) (by omega)
  refine ⟨t, f, cur &&& ~~~gone ||| packed, ⟨hlt, hf, ?_, ?_⟩, ?_⟩
  · intro i hi
    constructor
    · intro hicur
      by_contra hti
      have hle := U64.trailingZeros_le ((hones i).mpr ⟨hicur, not_lt.mp hti⟩)
      omega
    · apply hbelow i
  · intro i
    rw [Ones.ones_or, Ones.ones_and_not, Finset.mem_union, Finset.mem_sdiff, hgoneMem, hpackedMem]
    constructor
    · rintro (⟨hi, hif⟩ | hi)
      · left
        use hi
        omega
      · right
        apply hi
    · rintro (⟨hi, hif⟩ | hi)
      · left
        use hi
        omega
      · right
        apply hi
  · have hsub : subU32 f t = .ok (f - t) := if_pos hlt.le
    have hsub' : subU32 (f - t) 1 = .ok (f - t - 1) := if_pos (by omega)
    simp only [next, ← ht, U64.low_eq ht64, bind, Except.bind, ← hnoto, ← hfdef,
      if_neg (by omega : f ≠ 64), hgone, hsub, hsub', hpacked]

/-- The iterator that has yielded its last element has ended. -/
theorem next_zero :
  next 0 = .ok (none, 0)
  := by
  have hnot : (0 : ℕ) ∉ ones (0 : BitVec 64) := by simp
  obtain ⟨hle, -, -⟩ := U64.trailingOnes_spec (by decide) hnot
  have ht : U64.trailingOnes 0 = 0 := by omega
  have hand : (0 : BitVec 64) &&& ~~~((1#64 <<< 0) - 1#64) = 0 := BitVec.zero_and
  simp only [next, ht, U64.low_eq (by decide : 0 < 64), bind, Except.bind, hand,
    U64.trailingZeros_zero, if_true]
  rfl

/-- At a mask with `r` ones among the low `n` bits the iterator steps down to the next
smaller one, or ends at the least one. -/
theorem descends {n r : ℕ} {x : BitVec 64} (hr : 1 ≤ r) (hn : n ≤ 63) (hx : x.toNat < 2 ^ n)
    (hcard : (ones x).card = r) :
  (∃ y : BitVec 64, (y.toNat < 2 ^ n ∧ (ones y).card = r) ∧ y.toNat < x.toNat ∧
      (∀ z : BitVec 64, y.toNat < z.toNat → z.toNat < x.toNat →
        ¬ (z.toNat < 2 ^ n ∧ (ones z).card = r)) ∧
      next x = .ok (some x, y))
    ∨ ∃ s, (∀ z : BitVec 64, z.toNat < x.toNat → ¬ (z.toNat < 2 ^ n ∧ (ones z).card = r)) ∧
      next x = .ok (some x, s) ∧ next s = .ok (none, s)
  := by
  have hhigh : 63 ∉ ones x := by
    intro h
    have h63 := Ones.toNat_lt_two_pow_iff.mp hx 63 h
    omega
  by_cases hpacked : ∃ t, ∀ i, i ∈ ones x ↔ i < t
  · right
    obtain ⟨t, ht⟩ := hpacked
    have ht64 : t < 64 := by
      have h63 := (ht 63).not.mp hhigh
      omega
    have hne : x ≠ 0 := by
      rintro rfl
      rw [← hcard] at hr
      simp [ones] at hr
    refine ⟨0, ?_, next_packed ht64 hne ht, next_zero⟩
    rintro z hz ⟨-, hzcard⟩
    have hlt := Ones.card_lt_of_packed ht (BitVec.lt_def.mpr hz)
    omega
  · left
    obtain ⟨t, f, y, hstep, hnext⟩ := exists_next hhigh hpacked
    have hyx : y.toNat < x.toNat := BitVec.lt_def.mp hstep.step_lt
    refine ⟨y, ⟨hyx.trans hx, hstep.card_eq.trans hcard⟩, hyx, ?_, hnext⟩
    rintro z hyz hzx ⟨-, hzcard⟩
    have hne := hstep.card_ne_of_between (BitVec.lt_def.mpr hyz) (BitVec.lt_def.mpr hzx)
    omega

end CombIter

/-! ### The run -/

/-- The first mask of the iterator has its ones at the top. -/
theorem exists_combIter {n r : BitVec 64} (hrn : r.toNat ≤ n.toNat) (hn : n.toNat ≤ 63) :
  ∃ it, combIter n r = .ok it ∧ ∀ i, i ∈ ones it ↔ n.toNat - r.toNat ≤ i ∧ i < n.toNat
  := by
  have hcut : ∀ x : BitVec 64, x.toNat ≤ 63 → (x.setWidth 32).toNat = x.toNat := by
    intro x hx
    rw [BitVec.toNat_setWidth, Nat.mod_eq_of_lt (by omega)]
  have hsub : subU32 n.toNat r.toNat = .ok (n.toNat - r.toNat) := if_pos hrn
  obtain ⟨it, hit, hmem⟩ :=
    U64.exists_bits (a := n.toNat - r.toNat) (b := n.toNat) (by omega) (by omega)
  refine ⟨it, ?_, hmem⟩
  rw [combIter, CombIter.new, hcut n hn, hcut r (by omega), if_pos hrn, hsub]
  apply hit

/-- `comb_iter` yields the masks with `r` ones among the low `n` bits, each once and in
decreasing order, and then none for ever; no shift and no subtraction is out of range. -/
theorem combIter_complete (n r : BitVec 64) (hr : 1 ≤ r.toNat) (hrn : r.toNat ≤ n.toNat)
    (hn : n.toNat ≤ 63) :
  ∃ it, combIter n r = .ok it ∧ ∃ l : List (BitVec 64),
    l.Pairwise (fun a b => b < a) ∧
    (∀ m, m ∈ l ↔ m.toNat < 2 ^ n.toNat ∧ m.cpop.toNat = r.toNat) ∧
    ∀ k, Iteration.nexts CombIter.next k it
      = .ok ((l.map some ++ List.replicate k none).take k)
  := by
  obtain ⟨it, hit, hmem⟩ := exists_combIter hrn hn
  have hcard : (ones it).card = r.toNat := by
    have hico : ones it = Finset.Ico (n.toNat - r.toNat) n.toNat := by
      ext i
      rw [hmem, Finset.mem_Ico]
    rw [hico, Nat.card_Ico]
    omega
  have hit2 : it.toNat < 2 ^ n.toNat :=
    Ones.toNat_lt_two_pow_iff.mpr fun i hi => ((hmem i).mp hi).2
  obtain ⟨l, hl, hdesc, hlmem⟩ := Iteration.exists_yields_descending BitVec.toNat_injective
    (fun m => m.toNat < 2 ^ n.toNat ∧ (ones m).card = r.toNat) id
    (fun x hx => CombIter.descends hr hn hx.1 hx.2) it ⟨hit2, hcard⟩
  refine ⟨it, hit, l, hdesc, ?_, hl.nexts_eq⟩
  intro m
  rw [hlmem, ← Ones.card_ones]
  apply and_iff_left_of_imp
  rintro ⟨hm, hmcard⟩
  -- a larger mask of this kind has every one of the first mask and one more
  by_contra hlt
  obtain ⟨i, hi, him, habove⟩ := Ones.exists_of_lt (BitVec.lt_def.mpr (not_le.mp hlt))
  have hin := Ones.toNat_lt_two_pow_iff.mp hm i him
  have hcard' : (ones it).card < (ones m).card := by
    apply Finset.card_lt_card
    apply (Finset.ssubset_iff_of_subset _).mpr ⟨i, him, hi⟩
    intro j hj
    apply (habove j _).mp hj
    have hj := (hmem j).mp hj
    have hi := (hmem i).not.mp hi
    omega
  omega

/-- Two of three. -/
theorem combIter_complete_three :
  ∃ it, combIter 3 2 = .ok it ∧ ∃ l : List (BitVec 64),
    l.Pairwise (fun a b => b < a) ∧
    (∀ m, m ∈ l ↔ m.toNat < 2 ^ (3 : BitVec 64).toNat ∧ m.cpop.toNat = (2 : BitVec 64).toNat) ∧
    ∀ k, Iteration.nexts CombIter.next k it
      = .ok ((l.map some ++ List.replicate k none).take k)
  := combIter_complete 3 2 (by decide) (by decide) (by decide)

end DryadSynth
