import DryadSynth.Enumerate.Comb
import DryadSynth.Library.Adapters
import DryadSynth.Library.Submasks

/-!
# Subsets as masks

The iterators of `enumerate/utils.rs` over the bits, the ones and the subsets of a mask, and
the numbering of the subsets.  Shifts and subtractions are checked: out of range they are a
panic.  The `for` loops take fuel; a loop that runs out of it counts as a panic.
-/

namespace DryadSynth

open Ones (ones mem_ones positions)

/-! ### Bits and ones -/

/-- `BitIter::next`, on the mask the iterator keeps. -/
def BitIter.next (cur : BitVec 64) : Except Fault (Option Bool × BitVec 64) :=
  if cur = 0 then .ok (none, cur)
  else
    let b := cur &&& 1
    if b = 0 then .ok (some false, cur >>> 1) else .ok (some true, cur >>> 1)

/-- `OneIter::next`, on the mask the iterator keeps. -/
def OneIter.next (cur : BitVec 64) : Except Fault (Option (BitVec 64) × BitVec 64) := do
  let a := U64.trailingZeros cur
  if a = 64 then .ok (none, cur)
  else do
    let one ← U64.shlOne a
    .ok (some one, cur &&& ~~~one)

/-! ### The iterators over subsets -/

/-- `SubsetIter`: the mask and the last subset. -/
structure SubsetIter where
  mask : BitVec 64
  cur : BitVec 64
  deriving DecidableEq, Repr

/-- `TSubsetIter`, which has the same fields. -/
abbrev TSubsetIter := SubsetIter

/-- `BitSetU64Ext::subset_iter`. -/
def subsetIter (mask : BitVec 64) : SubsetIter := ⟨mask, 0⟩

/-- `BitSetU64Ext::tsubset_iter`. -/
def tsubsetIter (mask : BitVec 64) : TSubsetIter := ⟨mask, 0⟩

section

variable (fuel : ℕ)

/-- The pass of the loop of `SubsetIter::next` at the one `i`, with what is returned and the
last subset. -/
def SubsetIter.pass (i : BitVec 64) (state : Option (BitVec 64) × BitVec 64) :
    Except Fault (ForInStep (Option (BitVec 64) × BitVec 64)) := do
  let (ret, cur) := state
  if i &&& cur = 0 then do
    let below ← U64.sub i 1
    let cur := cur &&& ~~~below ||| i
    .ok (.done (some cur, cur))
  else .ok (.yield (ret, cur))

/-- `SubsetIter::next`. -/
def SubsetIter.next (it : SubsetIter) : Except Fault (Option (BitVec 64) × SubsetIter) := do
  let (ret, cur) ← Iteration.loop .panic SubsetIter.pass OneIter.next fuel it.mask (none, it.cur)
  .ok (ret, { it with cur := cur })

/-- The pass of the loop of `TSubsetIter::next`, which returns none at the mask itself. -/
def TSubsetIter.pass (mask i : BitVec 64) (state : Option (BitVec 64) × BitVec 64) :
    Except Fault (ForInStep (Option (BitVec 64) × BitVec 64)) := do
  let (ret, cur) := state
  if i &&& cur = 0 then do
    let below ← U64.sub i 1
    let cur := cur &&& ~~~below ||| i
    if cur = mask then .ok (.done (none, cur)) else .ok (.done (some cur, cur))
  else .ok (.yield (ret, cur))

/-- `TSubsetIter::next`. -/
def TSubsetIter.next (it : TSubsetIter) : Except Fault (Option (BitVec 64) × TSubsetIter) := do
  let (ret, cur) ←
    Iteration.loop .panic (TSubsetIter.pass it.mask) OneIter.next fuel it.mask (none, it.cur)
  .ok (ret, { it with cur := cur })

/-- The state of `split_iter`: the subsets and, in the middle of one, the rest of its subsets
and of the empty set. -/
abbrev SplitIter := Option SubsetIter × Option (BitVec 64 × (Option SubsetIter × List (BitVec 64)))

/-- `BitSetU64Ext::split_iter`. -/
def splitIter (mask : BitVec 64) : SplitIter := (some (subsetIter mask), none)

/-- `next` of `split_iter`. -/
def SplitIter.next (mask : BitVec 64) :
    SplitIter → Except Fault (Option (BitVec 64 × BitVec 64) × SplitIter) :=
  Iteration.flatMap .panic (SubsetIter.next fuel) (fun i => (some (subsetIter i), [0]))
    (fun i => Iteration.map (Iteration.chain (SubsetIter.next fuel) Iteration.items)
      fun j => (i, mask &&& ~~~i ||| j))
    fuel

/-! ### The numbers of subsets -/

/-- `BitSetU64Ext::pos_of_subset`. -/
def posOfSubset (mask other : BitVec 64) : Except Fault (BitVec 64) :=
  Iteration.loop .panic
    (fun a res =>
      if a.2 &&& other ≠ 0 then do
        let one ← U64.shlOne a.1
        .ok (.yield (res ||| one))
      else .ok (.yield res))
    (Iteration.enumerate OneIter.next) fuel (mask, 0) 0

/-- `BitSetU64Ext::subset_of_pos`. -/
def subsetOfPos (mask other : BitVec 64) : Except Fault (BitVec 64) :=
  Iteration.loop .panic
    (fun a res => if a.2 then .ok (.yield (res ||| a.1)) else .ok (.yield res))
    (Iteration.zip OneIter.next BitIter.next) fuel (mask, other) 0

end

/-! ### What the bits and the ones deliver -/

open Iteration (Delivers Yields YieldsOnce)

theorem OneIter.next_of_ne {m : BitVec 64} (hm : m ≠ 0) :
  U64.trailingZeros m < 64 ∧ OneIter.next m
    = .ok (some (1#64 <<< U64.trailingZeros m), m &&& ~~~(1#64 <<< U64.trailingZeros m))
  := by
  have hlt : U64.trailingZeros m < 64 := Ones.lt_of_mem_ones (U64.trailingZeros_mem hm)
  use hlt
  simp only [next, if_neg hlt.ne, U64.shlOne, if_pos hlt, bind, Except.bind]

/-- The ones in increasing order. -/
theorem OneIter.delivers (m : BitVec 64) :
  Delivers next m ((positions m).map (1#64 <<< ·)) 0
  := by
  induction hn : (ones m).card using Nat.strongRecOn generalizing m with
  | ind n ih =>
      subst hn
      by_cases hm : m = 0
      · subst hm
        rw [Ones.positions_zero]
        apply Delivers.done
        simp only [next, U64.trailingZeros_zero, if_true]
      · obtain ⟨hlt, hnext⟩ := next_of_ne hm
        set a := U64.trailingZeros m with ha
        have hmem : a ∈ ones m := U64.trailingZeros_mem hm
        have hrest : ones (m &&& ~~~(1#64 <<< a)) = (ones m).erase a := by
          rw [Ones.ones_and_not, Ones.ones_shiftLeft_one hlt, Finset.sdiff_singleton_eq_erase]
        have hpos : positions m = a :: positions (m &&& ~~~(1#64 <<< a)) := by
          apply Ones.positions_eq_cons
          · intro j hj
            rw [hrest, Finset.mem_erase] at hj
            apply (U64.trailingZeros_le hj.2).lt_of_ne hj.1.symm
          · rw [hrest, Finset.insert_erase hmem]
        rw [hpos, List.map_cons]
        apply Delivers.step hnext
        apply ih _ _ _ rfl
        rw [hrest]
        apply Finset.card_erase_lt_of_mem hmem

theorem OneIter.length_ones_le (m : BitVec 64) :
  ((positions m).map (1#64 <<< ·)).length ≤ 64
  := by
  rw [List.length_map, Ones.length_positions]
  apply Ones.card_ones_le

/-- The bits from the lowest one up to the highest one that is set. -/
theorem BitIter.delivers (x : BitVec 64) :
  Delivers next x x.toNat.bits 0
  := by
  induction hn : x.toNat using Nat.strongRecOn generalizing x with
  | ind n ih =>
      subst hn
      by_cases hx : x = 0
      · subst hx
        apply Delivers.done
        rfl
      · have hne : x.toNat ≠ 0 := BitVec.toNat_ne_iff_ne.mpr hx
        have hshift : (x >>> 1).toNat = x.toNat / 2 := by
          rw [BitVec.toNat_ushiftRight, Nat.shiftRight_one]
        have hlow : (x &&& 1).toNat = x.toNat % 2 := Nat.and_one_is_mod _
        have hrest : Delivers next (x >>> 1) (x.toNat / 2).bits 0 := by
          apply ih (x.toNat / 2) (Nat.div_lt_self (Nat.pos_of_ne_zero hne) (by decide)) _ hshift
        have hbit : x &&& 1 = 0 ↔ x.toNat % 2 = 0 := by
          rw [← hlow, ← BitVec.toNat_inj]
          rfl
        rcases Nat.even_or_odd' x.toNat with ⟨k, hk | hk⟩
        · rw [hk, Nat.bit0_bits k (by omega)]
          rw [hk, Nat.mul_div_cancel_left k (by decide)] at hrest
          apply Delivers.step _ hrest
          simp only [next, if_neg hx, if_pos (hbit.mpr (by omega))]
        · rw [hk, Nat.bit1_bits]
          rw [hk, Nat.mul_add_div (by decide), Nat.div_eq_of_lt (by decide), Nat.add_zero] at hrest
          apply Delivers.step _ hrest
          simp only [next, if_neg hx, if_neg (hbit.not.mpr (by omega))]

/-- A bit that is set is delivered at its place. -/
theorem BitIter.getElem?_bits (x : BitVec 64) (i : ℕ) :
  x.toNat.bits[i]? = some true ↔ i ∈ ones x
  := by
  rw [mem_ones, ← BitVec.testBit_toNat, Nat.testBit_eq_inth, List.getI_eq_getElem?_getD]
  cases x.toNat.bits[i]? with
  | none => simp
  | some b => simp

/-! ### The next subset -/

/-- A subset that lacks a one of the mask has a next one. -/
theorem exists_stepsUp {mask cur : BitVec 64} (hsub : ones cur ⊆ ones mask) (hne : cur ≠ mask) :
  ∃ f, Ones.StepsUp mask f cur (cur &&& ~~~((1#64 <<< f) - 1#64) ||| 1#64 <<< f)
  := by
  have hlacks : (ones mask \ ones cur).Nonempty := by
    apply Finset.sdiff_nonempty.mpr
    intro hsup
    apply hne
    apply Ones.ones_injective
    apply Finset.Subset.antisymm hsub hsup
  set f := (ones mask \ ones cur).min' hlacks with hf
  obtain ⟨hfm, hfc⟩ := Finset.mem_sdiff.mp (Finset.min'_mem _ hlacks)
  rw [← hf] at hfm hfc
  have hlt : f < 64 := Ones.lt_of_mem_ones hfm
  use f
  constructor
  · apply hsub
  · apply hfm
  · apply hfc
  · intro i him hif
    by_contra hic
    have hle := Finset.min'_le _ i (Finset.mem_sdiff.mpr ⟨him, hic⟩)
    omega
  · intro i
    rw [Ones.ones_or, Ones.ones_and_not, Ones.ones_shiftLeft_one hlt, Finset.mem_union,
      Finset.mem_sdiff, Finset.mem_singleton, Ones.mem_ones_low hlt, not_lt]
    constructor
    · rintro (⟨hic, hfi⟩ | rfl)
      · right
        use hic
        apply hfi.lt_of_ne
        rintro rfl
        apply hfc hic
      · left
        rfl
    · rintro (rfl | ⟨hic, hfi⟩)
      · right
        rfl
      · left
        use hic, hfi.le

theorem and_shiftLeft_one_eq_zero {f : ℕ} (hf : f < 64) (x : BitVec 64) :
  (1#64 <<< f) &&& x = 0 ↔ f ∉ ones x
  := by
  rw [← Ones.ones_eq_empty_iff, Ones.ones_and, Ones.ones_shiftLeft_one hf,
    ← Finset.disjoint_iff_inter_eq_empty, Finset.disjoint_singleton_left]

section Loops

variable {fuel : ℕ} {mask cur : BitVec 64}
  {body : BitVec 64 → Option (BitVec 64) × BitVec 64 →
    Except Fault (ForInStep (Option (BitVec 64) × BitVec 64))}

/-- The passes before the lowest one that is missing change nothing, and that one leaves the
loop. -/
theorem loop_of_stepsUp {f : ℕ} {y : BitVec 64} {r : Option (BitVec 64) × BitVec 64}
    (h : Ones.StepsUp mask f cur y) (hfuel : 64 < fuel)
    (hskip : ∀ i, i &&& cur ≠ 0 → body i (none, cur) = .ok (.yield (none, cur)))
    (hleave : body (1#64 <<< f) (none, cur) = .ok (.done r)) :
  Iteration.loop .panic body OneIter.next fuel mask (none, cur) = .ok r
  := by
  obtain ⟨pre, post, hsplit⟩ := List.append_of_mem (Ones.mem_positions.mpr h.mem)
  have hones := OneIter.delivers mask
  rw [hsplit, List.map_append, List.map_cons] at hones
  have hlen := OneIter.length_ones_le mask
  rw [hsplit, List.length_map, List.length_append] at hlen
  have hsorted := Ones.positions_pairwise mask
  rw [hsplit, List.pairwise_append] at hsorted
  apply hones.loop_eq_of_done _ _ hleave
  · rw [List.length_map]
    rw [List.length_cons] at hlen
    omega
  · intro c hc
    obtain ⟨i, hi, rfl⟩ := List.mem_map.mp hc
    have him : i ∈ ones mask := by
      rw [← Ones.mem_positions, hsplit]
      apply List.mem_append_left _ hi
    apply hskip
    intro hzero
    apply (and_shiftLeft_one_eq_zero (Ones.lt_of_mem_ones him) cur).mp hzero
    apply h.below i him (hsorted.2.2 i hi f List.mem_cons_self)

/-- At the mask itself no pass changes anything. -/
theorem loop_of_eq_mask (hfuel : 64 < fuel)
    (hskip : ∀ i, i &&& mask ≠ 0 → body i (none, mask) = .ok (.yield (none, mask))) :
  Iteration.loop .panic body OneIter.next fuel mask (none, mask) = .ok (none, mask)
  := by
  apply (OneIter.delivers mask).loop_eq_self
  · apply (OneIter.length_ones_le mask).trans_lt hfuel
  · intro c hc
    obtain ⟨i, hi, rfl⟩ := List.mem_map.mp hc
    apply hskip
    intro hzero
    have him := Ones.mem_positions.mp hi
    apply (and_shiftLeft_one_eq_zero (Ones.lt_of_mem_ones him) mask).mp hzero him

end Loops

section Steps

variable {fuel : ℕ} {mask cur : BitVec 64}

/-- At a subset that is not the mask, `SubsetIter` yields the next one. -/
theorem SubsetIter.next_of_stepsUp {f : ℕ} {y : BitVec 64} (hfuel : 64 < fuel)
    (h : Ones.StepsUp mask f cur y)
    (hy : y = cur &&& ~~~((1#64 <<< f) - 1#64) ||| 1#64 <<< f) :
  next fuel ⟨mask, cur⟩ = .ok (some y, ⟨mask, y⟩)
  := by
  have hf : f < 64 := Ones.lt_of_mem_ones h.mem
  have hloop : Iteration.loop .panic pass OneIter.next fuel mask (none, cur)
      = .ok (some y, y) := by
    apply loop_of_stepsUp h hfuel
    · intro i hi
      apply if_neg hi
    · have hzero := (and_shiftLeft_one_eq_zero hf cur).mpr h.notMem
      simp only [pass, if_pos hzero, U64.sub_one_eq hf, bind, Except.bind, ← hy]
  simp only [next, hloop, bind, Except.bind]

/-- At the mask `SubsetIter` ends. -/
theorem SubsetIter.next_mask (hfuel : 64 < fuel) :
  next fuel ⟨mask, mask⟩ = .ok (none, ⟨mask, mask⟩)
  := by
  have hloop : Iteration.loop .panic pass OneIter.next fuel mask (none, mask)
      = .ok (none, mask) := by
    apply loop_of_eq_mask hfuel
    intro i hi
    apply if_neg hi
  simp only [next, hloop, bind, Except.bind]

/-- At a subset that is not the mask, `TSubsetIter` steps to the next one, and ends there if that
is the mask. -/
theorem TSubsetIter.next_of_stepsUp {f : ℕ} {y : BitVec 64} (hfuel : 64 < fuel)
    (h : Ones.StepsUp mask f cur y)
    (hy : y = cur &&& ~~~((1#64 <<< f) - 1#64) ||| 1#64 <<< f) :
  next fuel ⟨mask, cur⟩ = .ok (if y = mask then none else some y, ⟨mask, y⟩)
  := by
  have hf : f < 64 := Ones.lt_of_mem_ones h.mem
  have hloop : Iteration.loop .panic (pass mask) OneIter.next fuel mask (none, cur)
      = .ok (if y = mask then none else some y, y) := by
    apply loop_of_stepsUp h hfuel
    · intro i hi
      apply if_neg hi
    · have hzero := (and_shiftLeft_one_eq_zero hf cur).mpr h.notMem
      simp only [pass, if_pos hzero, U64.sub_one_eq hf, bind, Except.bind, ← hy]
      split
      · rfl
      · rfl
  simp only [next, hloop, bind, Except.bind]

/-- At the mask `TSubsetIter` ends. -/
theorem TSubsetIter.next_mask (hfuel : 64 < fuel) :
  next fuel ⟨mask, mask⟩ = .ok (none, ⟨mask, mask⟩)
  := by
  have hloop : Iteration.loop .panic (pass mask) OneIter.next fuel mask (none, mask)
      = .ok (none, mask) := by
    apply loop_of_eq_mask hfuel
    intro i hi
    apply if_neg hi
  simp only [next, hloop, bind, Except.bind]

end Steps

/-! ### The runs -/

section Runs

variable {fuel : ℕ} {mask x : BitVec 64}

/-- At a subset the iterator yields the next larger one, or ends at the mask. -/
theorem SubsetIter.ascends (hfuel : 64 < fuel) (hx : ones x ⊆ ones mask) :
  (∃ y : BitVec 64, ones y ⊆ ones mask ∧ x.toNat < y.toNat ∧
      (∀ z : BitVec 64, x.toNat < z.toNat → z.toNat < y.toNat → ¬ ones z ⊆ ones mask) ∧
      next fuel ⟨mask, x⟩ = .ok (some y, ⟨mask, y⟩))
    ∨ ∃ s, (∀ z : BitVec 64, x.toNat < z.toNat → ¬ ones z ⊆ ones mask) ∧
      next fuel ⟨mask, x⟩ = .ok (none, s) ∧ next fuel s = .ok (none, s)
  := by
  by_cases hne : x = mask
  · right
    subst hne
    refine ⟨⟨x, x⟩, ?_, next_mask hfuel, next_mask hfuel⟩
    intro z hxz hz
    apply not_le.mpr hxz (BitVec.le_def.mp (Ones.le_of_ones_subset hz))
  · left
    obtain ⟨f, hstep⟩ := exists_stepsUp hx hne
    refine ⟨_, hstep.ones_subset, BitVec.lt_def.mp hstep.lt_step, ?_,
      next_of_stepsUp hfuel hstep rfl⟩
    intro z hxz hzy
    apply hstep.not_subset_of_between (BitVec.lt_def.mpr hxz) (BitVec.lt_def.mpr hzy)

/-- At a proper subset the iterator yields the next larger one, or ends at the largest one. -/
theorem TSubsetIter.ascends (hfuel : 64 < fuel) (hx : ones x ⊂ ones mask) :
  (∃ y : BitVec 64, ones y ⊂ ones mask ∧ x.toNat < y.toNat ∧
      (∀ z : BitVec 64, x.toNat < z.toNat → z.toNat < y.toNat → ¬ ones z ⊂ ones mask) ∧
      next fuel ⟨mask, x⟩ = .ok (some y, ⟨mask, y⟩))
    ∨ ∃ s, (∀ z : BitVec 64, x.toNat < z.toNat → ¬ ones z ⊂ ones mask) ∧
      next fuel ⟨mask, x⟩ = .ok (none, s) ∧ next fuel s = .ok (none, s)
  := by
  have hne : x ≠ mask := by
    rintro rfl
    apply hx.ne rfl
  obtain ⟨f, hstep⟩ := exists_stepsUp hx.subset hne
  have hnext := next_of_stepsUp hfuel hstep rfl
  generalize cur_eq : x &&& ~~~((1#64 <<< f) - 1#64) ||| 1#64 <<< f = y at hstep hnext
  have hgap : ∀ z : BitVec 64, x.toNat < z.toNat → z.toNat < y.toNat → ¬ ones z ⊂ ones mask := by
    intro z hxz hzy hz
    apply hstep.not_subset_of_between (BitVec.lt_def.mpr hxz) (BitVec.lt_def.mpr hzy) hz.subset
  by_cases hy : y = mask
  · right
    rw [if_pos hy, hy] at hnext
    refine ⟨⟨mask, mask⟩, ?_, hnext, next_mask hfuel⟩
    intro z hxz hz
    have hle : z.toNat ≤ mask.toNat := BitVec.le_def.mp (Ones.le_of_ones_subset hz.subset)
    rcases hle.eq_or_lt with heq | hlt
    · apply hz.ne
      rw [BitVec.eq_of_toNat_eq heq]
    · rw [← hy] at hlt
      apply hgap z hxz hlt hz
  · left
    rw [if_neg hy] at hnext
    refine ⟨y, ?_, BitVec.lt_def.mp hstep.lt_step, hgap, hnext⟩
    apply hstep.ones_subset.ssubset_of_ne
    intro heq
    apply hy (Ones.ones_injective heq)

/-- An increasing list has no duplicates. -/
theorem nodup_of_increasing {l : List (BitVec 64)}
    (h : l.Pairwise fun a b => a.toNat < b.toNat) :
  l.Nodup
  := by
  apply h.imp
  rintro a b hab rfl
  apply lt_irrefl _ hab

/-- The non-empty subsets, each once. -/
theorem SubsetIter.exists_yields (hfuel : 64 < fuel) (mask : BitVec 64) :
  ∃ l, Yields (next fuel) (subsetIter mask) l ∧ l.Nodup ∧
    ∀ s, s ∈ l ↔ (ones s).Nonempty ∧ ones s ⊆ ones mask
  := by
  obtain ⟨l, hl, hasc, hmem⟩ := Iteration.exists_yields_ascending
    (fun s : BitVec 64 => ones s ⊆ ones mask) BitVec.toNat_injective
    (fun s hs => BitVec.le_def.mp (Ones.le_of_ones_subset hs)) (SubsetIter.mk mask)
    (fun s hs => ascends hfuel hs) 0 (by rw [Ones.ones_zero]; apply Finset.empty_subset)
  refine ⟨l, hl, nodup_of_increasing hasc, ?_⟩
  intro s
  rw [hmem, Ones.ones_nonempty_iff, and_comm]
  rfl

/-- The non-empty proper subsets, each once. -/
theorem TSubsetIter.exists_yields (hfuel : 64 < fuel) (mask : BitVec 64) :
  ∃ l, Yields (next fuel) (tsubsetIter mask) l ∧ l.Nodup ∧
    ∀ s, s ∈ l ↔ (ones s).Nonempty ∧ ones s ⊂ ones mask
  := by
  by_cases hmask : mask = 0
  · subst hmask
    refine ⟨[], .done (next_mask hfuel) (next_mask hfuel), .nil, ?_⟩
    intro s
    rw [Ones.ones_zero]
    simp
  · have hzero : ones (0 : BitVec 64) ⊂ ones mask := by
      rw [Ones.ones_zero, Finset.empty_ssubset, Finset.nonempty_iff_ne_empty]
      apply Ones.ones_eq_empty_iff.not.mpr hmask
    obtain ⟨l, hl, hasc, hmem⟩ := Iteration.exists_yields_ascending
      (fun s : BitVec 64 => ones s ⊂ ones mask) BitVec.toNat_injective
      (fun s hs => BitVec.le_def.mp (Ones.le_of_ones_subset hs.subset)) (SubsetIter.mk mask)
      (fun s hs => ascends hfuel hs) 0 hzero
    refine ⟨l, hl, nodup_of_increasing hasc, ?_⟩
    intro s
    rw [hmem, Ones.ones_nonempty_iff, and_comm]
    rfl

/-- The non-empty subsets and the empty one. -/
theorem mem_subsets {i : BitVec 64} {l : List (BitVec 64)}
    (hl : ∀ s, s ∈ l ↔ (ones s).Nonempty ∧ ones s ⊆ ones i) (j : BitVec 64) :
  j ∈ l ++ [0] ↔ ones j ⊆ ones i
  := by
  rw [List.mem_append, List.mem_singleton, hl, ← Ones.ones_eq_empty_iff,
    ← Finset.not_nonempty_iff_eq_empty]
  constructor
  · rintro (⟨-, hj⟩ | hj)
    · apply hj
    · rw [Finset.not_nonempty_iff_eq_empty.mp hj]
      apply Finset.empty_subset
  · intro hj
    by_cases hne : (ones j).Nonempty
    · left
      use hne
    · right
      apply hne

namespace SplitIter

/-- The pairs at the subset `i`, when `l` lists its non-empty subsets. -/
def pairs (mask i : BitVec 64) (l : List (BitVec 64)) : List (BitVec 64 × BitVec 64) :=
  (l ++ [0]).map fun j => (i, mask &&& ~~~i ||| j)

variable {i : BitVec 64} {l : List (BitVec 64)}

theorem fst_of_mem_pairs {p : BitVec 64 × BitVec 64} (h : p ∈ pairs mask i l) :
  p.1 = i
  := by
  obtain ⟨j, -, rfl⟩ := List.mem_map.mp h
  rfl

theorem mem_pairs (hl : ∀ s, s ∈ l ↔ (ones s).Nonempty ∧ ones s ⊆ ones i)
    (hi : ones i ⊆ ones mask) (b : BitVec 64) :
  (i, b) ∈ pairs mask i l ↔ ones b ⊆ ones mask ∧ ones i ∪ ones b = ones mask
  := by
  rw [← Ones.covers_iff hi, pairs, List.mem_map]
  constructor
  · rintro ⟨j, hj, hb⟩
    use j, (mem_subsets hl j).mp hj, (Prod.mk.inj hb).2
  · rintro ⟨j, hj, hb⟩
    use j, (mem_subsets hl j).mpr hj
    rw [hb]

theorem nodup_pairs (hl : ∀ s, s ∈ l ↔ (ones s).Nonempty ∧ ones s ⊆ ones i) (hnodup : l.Nodup) :
  (pairs mask i l).Nodup
  := by
  apply List.Nodup.map_on
  · intro j hj k hk hjk
    apply Ones.covers_injective ((mem_subsets hl j).mp hj) ((mem_subsets hl k).mp hk)
      (Prod.mk.inj hjk).2
  · apply hnodup.append (List.nodup_singleton 0)
    intro j hj hj0
    rw [List.mem_singleton.mp hj0, hl, Ones.ones_zero] at hj
    apply Finset.not_nonempty_empty hj.1

theorem delivers_pairs (hl : Yields (SubsetIter.next fuel) (subsetIter i) l) :
  ∃ t, Delivers (Iteration.map (Iteration.chain (SubsetIter.next fuel) Iteration.items)
    fun j => (i, mask &&& ~~~i ||| j)) (some (subsetIter i), [0]) (pairs mask i l) t
  := by
  obtain ⟨t, ht, -⟩ := hl
  use (none, [])
  apply (ht.chain (Iteration.delivers_items [0])).map

/-- The pairs of subsets with the first not empty and the mask as their union, each once. -/
theorem exists_yields (hfuel : 64 < fuel) (mask : BitVec 64) :
  ∃ l, Yields (next fuel mask) (splitIter mask) l ∧ l.Nodup ∧
    ∀ p : BitVec 64 × BitVec 64, p ∈ l ↔ (ones p.1).Nonempty ∧ ones p.1 ⊆ ones mask ∧
      ones p.2 ⊆ ones mask ∧ ones p.1 ∪ ones p.2 = ones mask
  := by
  choose subsets hyields hnodup hmem using SubsetIter.exists_yields hfuel
  refine ⟨(subsets mask).flatMap fun i => pairs mask i (subsets i), ?_, ?_, ?_⟩
  · apply (hyields mask).flatMap _ (by omega)
    intro i _
    constructor
    · simp [pairs]
    · apply delivers_pairs (hyields i)
  · apply List.nodup_flatMap.mpr
    constructor
    · intro i _
      apply nodup_pairs (hmem i) (hnodup i)
    · apply (hnodup mask).imp
      intro i k hik
      apply List.disjoint_left.mpr
      intro p hpi hpk
      apply hik
      rw [← fst_of_mem_pairs hpi, ← fst_of_mem_pairs hpk]
  · rintro ⟨a, b⟩
    rw [List.mem_flatMap]
    constructor
    · rintro ⟨i, hi, hp⟩
      obtain rfl : a = i := fst_of_mem_pairs hp
      obtain ⟨hne, hsub⟩ := (hmem mask a).mp hi
      use hne, hsub
      apply (mem_pairs (hmem a) hsub b).mp hp
    · rintro ⟨hne, hsub, hcover⟩
      use a, (hmem mask a).mpr ⟨hne, hsub⟩
      apply (mem_pairs (hmem a) hsub b).mpr hcover

end SplitIter

end Runs

/-! ### The numbers of subsets -/

section Numbers

variable {fuel : ℕ}

theorem OneIter.enumerate_delivers (mask : BitVec 64) :
  ∃ t, Delivers (Iteration.enumerate next) (mask, 0)
    (((positions mask).map (1#64 <<< ·)).zipIdx.map Prod.swap) t
  := ⟨_, (delivers mask).enumerate 0⟩

/-- A number and the one it is the number of. -/
theorem mem_enumerated {mask : BitVec 64} {a : ℕ × BitVec 64} :
  a ∈ ((positions mask).map (1#64 <<< ·)).zipIdx.map Prod.swap
    ↔ ∃ j, (positions mask)[a.1]? = some j ∧ 1#64 <<< j = a.2
  := by
  rw [List.mem_map]
  constructor
  · rintro ⟨b, hb, rfl⟩
    rw [List.mem_zipIdx_iff_getElem?, List.getElem?_map, Option.map_eq_some_iff] at hb
    apply hb
  · intro h
    use a.swap
    rw [List.mem_zipIdx_iff_getElem?, List.getElem?_map, Option.map_eq_some_iff]
    use h
    rfl

theorem lt_of_getElem?_positions {mask : BitVec 64} {i j : ℕ}
    (h : (positions mask)[i]? = some j) :
  i < (ones mask).card ∧ i < 64 ∧ j < 64 ∧ j ∈ ones mask
  := by
  have hlt : i < (ones mask).card := by
    rw [← Ones.length_positions]
    apply (List.getElem?_eq_some_iff.mp h).1
  have hmem : j ∈ ones mask := Ones.mem_positions.mp (List.mem_of_getElem? h)
  use hlt, hlt.trans_le (Ones.card_ones_le mask), Ones.lt_of_mem_ones hmem

/-- What `pos_of_subset` collects. -/
theorem exists_posOfSubset (hfuel : 64 < fuel) (mask other : BitVec 64) :
  ∃ p, posOfSubset fuel mask other = .ok p ∧
    ∀ i, i ∈ ones p ↔ ∃ j, (positions mask)[i]? = some j ∧ j ∈ ones other
  := by
  obtain ⟨t, ht⟩ := OneIter.enumerate_delivers mask
  refine ⟨_, ht.loop_eq_foldl (f := fun r a => if a.2 &&& other ≠ 0 then r ||| 1#64 <<< a.1 else r)
    ?_ ?_ 0, ?_⟩
  · rw [List.length_map, List.length_zipIdx]
    apply (OneIter.length_ones_le mask).trans_lt hfuel
  · intro a ha res
    obtain ⟨j, hj, -⟩ := mem_enumerated.mp ha
    obtain ⟨-, hlt, -⟩ := lt_of_getElem?_positions hj
    simp only [U64.shlOne, if_pos hlt, bind, Except.bind]
    split
    · rfl
    · rfl
  · intro i
    rw [Ones.mem_ones_foldl, Ones.ones_zero]
    constructor
    · rintro (hi | ⟨a, ha, hother, hi⟩)
      · cases hi
      · obtain ⟨j, hj, hja⟩ := mem_enumerated.mp ha
        obtain ⟨-, hi64, hj64, -⟩ := lt_of_getElem?_positions hj
        rw [← hja, ne_eq, and_shiftLeft_one_eq_zero hj64, not_not] at hother
        rw [Ones.ones_shiftLeft_one hi64, Finset.mem_singleton] at hi
        subst hi
        use j
    · rintro ⟨j, hj, hother⟩
      obtain ⟨-, hi64, hj64, -⟩ := lt_of_getElem?_positions hj
      right
      refine ⟨(i, 1#64 <<< j), mem_enumerated.mpr ⟨j, hj, rfl⟩, ?_, ?_⟩
      · rw [ne_eq, and_shiftLeft_one_eq_zero hj64, not_not]
        apply hother
      · rw [Ones.ones_shiftLeft_one hi64, Finset.mem_singleton]

/-- What `subset_of_pos` collects. -/
theorem exists_subsetOfPos (hfuel : 64 < fuel) (mask other : BitVec 64) :
  ∃ s, subsetOfPos fuel mask other = .ok s ∧
    ∀ j, j ∈ ones s ↔ ∃ i, (positions mask)[i]? = some j ∧ i ∈ ones other
  := by
  obtain ⟨t, ht⟩ := (OneIter.delivers mask).zip (BitIter.delivers other)
  refine ⟨_, ht.loop_eq_foldl (f := fun r a => if a.2 then r ||| a.1 else r) ?_ ?_ 0, ?_⟩
  · rw [List.length_zip]
    apply (min_le_left _ _).trans_lt
    apply (OneIter.length_ones_le mask).trans_lt hfuel
  · intro a _ res
    split
    · rfl
    · rfl
  · intro j
    rw [Ones.mem_ones_foldl (fun a : BitVec 64 × Bool => a.2 = true), Ones.ones_zero]
    constructor
    · rintro (hj | ⟨a, ha, hbit, hj⟩)
      · cases hj
      · obtain ⟨i, hi⟩ := List.mem_iff_getElem?.mp ha
        obtain ⟨hone, hi⟩ := List.getElem?_zip_eq_some.mp hi
        rw [List.getElem?_map, Option.map_eq_some_iff] at hone
        obtain ⟨j', hj', hone⟩ := hone
        obtain ⟨-, -, hj64, -⟩ := lt_of_getElem?_positions hj'
        rw [← hone, Ones.ones_shiftLeft_one hj64, Finset.mem_singleton] at hj
        subst hj
        rw [hbit, BitIter.getElem?_bits] at hi
        use i
    · rintro ⟨i, hi, hother⟩
      obtain ⟨-, -, hj64, -⟩ := lt_of_getElem?_positions hi
      right
      refine ⟨(1#64 <<< j, true), ?_, rfl, ?_⟩
      · apply List.mem_iff_getElem?.mpr
        use i
        apply List.getElem?_zip_eq_some.mpr
        rw [List.getElem?_map, hi, BitIter.getElem?_bits]
        use rfl
      · rw [Ones.ones_shiftLeft_one hj64, Finset.mem_singleton]

/-- `pos_of_subset` returns the rank of a subset. -/
theorem exists_ranked_of_subset (hfuel : 64 < fuel) {mask s : BitVec 64}
    (hs : ones s ⊆ ones mask) :
  ∃ p, posOfSubset fuel mask s = .ok p ∧ Ones.Ranked mask s p
  := by
  obtain ⟨p, hp, hmem⟩ := exists_posOfSubset hfuel mask s
  refine ⟨p, hp, hs, ?_, ?_⟩
  · apply Ones.toNat_lt_two_pow_iff.mpr
    intro i hi
    obtain ⟨j, hj, -⟩ := (hmem i).mp hi
    apply (lt_of_getElem?_positions hj).1
  · intro i j hij
    rw [hmem, hij]
    simp

/-- `subset_of_pos` returns the subset of a rank. -/
theorem exists_ranked_of_lt (hfuel : 64 < fuel) {mask p : BitVec 64}
    (hp : p.toNat < 2 ^ (ones mask).card) :
  ∃ s, subsetOfPos fuel mask p = .ok s ∧ Ones.Ranked mask s p
  := by
  obtain ⟨s, hs, hmem⟩ := exists_subsetOfPos hfuel mask p
  refine ⟨s, hs, ?_, hp, ?_⟩
  · intro j hj
    obtain ⟨i, hi, -⟩ := (hmem j).mp hj
    apply (lt_of_getElem?_positions hi).2.2.2
  · intro i j hij
    rw [hmem]
    constructor
    · intro hi
      use i
    · rintro ⟨i', hi', hmem'⟩
      have heq := Ones.positions_inj hij hi'
      rw [heq]
      apply hmem'

end Numbers

/-- The iterators over the subsets of a mask yield the non-empty subsets, the non-empty proper
subsets, and the pairs of subsets with the first not empty and the mask as their union, each
once, and then none for ever; `pos_of_subset` and `subset_of_pos` are inverse to each other
between the subsets of the mask and the numbers below two to its population count. -/
theorem subset_iteration_complete {fuel : ℕ} (hfuel : 64 < fuel) (mask : BitVec 64) :
  YieldsOnce (SubsetIter.next fuel) (subsetIter mask)
    (fun s => (ones s).Nonempty ∧ ones s ⊆ ones mask) ∧
  YieldsOnce (TSubsetIter.next fuel) (tsubsetIter mask)
    (fun s => (ones s).Nonempty ∧ ones s ⊂ ones mask) ∧
  YieldsOnce (SplitIter.next fuel mask) (splitIter mask)
    (fun p => (ones p.1).Nonempty ∧ ones p.1 ⊆ ones mask ∧ ones p.2 ⊆ ones mask ∧
      ones p.1 ∪ ones p.2 = ones mask) ∧
  (∀ s, ones s ⊆ ones mask → ∃ p, posOfSubset fuel mask s = .ok p ∧
    p.toNat < 2 ^ mask.cpop.toNat ∧ subsetOfPos fuel mask p = .ok s) ∧
  ∀ p : BitVec 64, p.toNat < 2 ^ mask.cpop.toNat → ∃ s, subsetOfPos fuel mask p = .ok s ∧
    ones s ⊆ ones mask ∧ posOfSubset fuel mask s = .ok p
  := by
  rw [← Ones.card_ones]
  refine ⟨?_, ?_, ?_, ?_, ?_⟩
  · obtain ⟨l, hl, hnodup, hmem⟩ := SubsetIter.exists_yields hfuel mask
    apply hl.once hnodup hmem
  · obtain ⟨l, hl, hnodup, hmem⟩ := TSubsetIter.exists_yields hfuel mask
    apply hl.once hnodup hmem
  · obtain ⟨l, hl, hnodup, hmem⟩ := SplitIter.exists_yields hfuel mask
    apply hl.once hnodup hmem
  · intro s hs
    obtain ⟨p, hp, hrank⟩ := exists_ranked_of_subset hfuel hs
    obtain ⟨s', hs', hrank'⟩ := exists_ranked_of_lt hfuel hrank.lt
    use p, hp, hrank.lt
    rw [hrank.submask_eq hrank']
    apply hs'
  · intro p hp
    obtain ⟨s, hs, hrank⟩ := exists_ranked_of_lt hfuel hp
    obtain ⟨p', hp', hrank'⟩ := exists_ranked_of_subset hfuel hrank.subset
    use s, hs, hrank.subset
    rw [hrank.rank_eq hrank']
    apply hp'

/-- The subsets of a mask with four ones. -/
theorem subset_iteration_complete_four :
  YieldsOnce (SubsetIter.next 65) (subsetIter 0x17)
    (fun s => (ones s).Nonempty ∧ ones s ⊆ ones (0x17 : BitVec 64)) ∧
  YieldsOnce (TSubsetIter.next 65) (tsubsetIter 0x17)
    (fun s => (ones s).Nonempty ∧ ones s ⊂ ones (0x17 : BitVec 64)) ∧
  YieldsOnce (SplitIter.next 65 0x17) (splitIter 0x17)
    (fun p => (ones p.1).Nonempty ∧ ones p.1 ⊆ ones (0x17 : BitVec 64) ∧
      ones p.2 ⊆ ones (0x17 : BitVec 64) ∧ ones p.1 ∪ ones p.2 = ones (0x17 : BitVec 64)) ∧
  (∀ s, ones s ⊆ ones (0x17 : BitVec 64) → ∃ p, posOfSubset 65 0x17 s = .ok p ∧
    p.toNat < 2 ^ (0x17 : BitVec 64).cpop.toNat ∧ subsetOfPos 65 0x17 p = .ok s) ∧
  ∀ p : BitVec 64, p.toNat < 2 ^ (0x17 : BitVec 64).cpop.toNat →
    ∃ s, subsetOfPos 65 0x17 p = .ok s ∧ ones s ⊆ ones (0x17 : BitVec 64) ∧
      posOfSubset 65 0x17 s = .ok p
  := subset_iteration_complete (by decide) 0x17

end DryadSynth
