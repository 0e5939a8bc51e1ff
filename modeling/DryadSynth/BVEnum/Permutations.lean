import DryadSynth.BVEnum.BitVector

/-!
# The heights of subtrees

A tree of height `maxH + 1` has subtrees of heights up to `maxH`, and one of them is of that
height.  `genPermutations` of `BVEnum.java` is to list these tuples of heights: it takes the
nondecreasing tuples that are one shorter, puts `maxH` in at every place, and collects the
results in a set ordered by hash codes.

Not every tuple is a nondecreasing one with its maximum put in, and two tuples with one hash
code are one element of the set.  `yields_iff` says for which heights and numbers of arguments
the list is complete nevertheless.
-/

namespace DryadSynth

namespace BVEnum

/-- `genPrmtHelper`: the nondecreasing tuples between two bounds, by their size. -/
def genPrmtHelper (start stop : ℕ) : ℕ → List (List ℕ)
  | 0 => [[]]
  | size + 1 =>
      (List.range' start (stop + 1 - start)).flatMap fun i =>
        (genPrmtHelper i stop size).map fun copy => i :: copy

/-- `Arrays.hashCode`. -/
def hashCode (o : List ℕ) : BitVec 32 :=
  o.foldl (fun result x => 31 * result + BitVec.ofNat 32 x) 1

/-- The comparator of the set: equality, and the difference of the hash codes. -/
def compare (o1 o2 : List ℕ) : BitVec 32 := if o1 = o2 then 0 else hashCode o1 - hashCode o2

/-- `TreeSet.add`: an element that compares equal to one of the set is not added. -/
def add (prmts : List (List ℕ)) (resarr : List ℕ) : List (List ℕ) :=
  if prmts.any fun o => compare resarr o = 0 then prmts
  else prmts.orderedInsert (fun o1 o2 => (compare o1 o2).slt 0) resarr

/-- The tuples that are added to the set, in this order. -/
def inserted (maxH numArgs : ℕ) : List (List ℕ) :=
  (List.range numArgs).flatMap fun i =>
    (genPrmtHelper 1 maxH (numArgs - 1)).map fun arr => arr.insertIdx i maxH

/-- `genPermutations` -/
def genPermutations (maxH numArgs : ℕ) : Except JavaFault (List (List ℕ)) :=
  if numArgs = 0 then .error .negativeArraySize
  else .ok ((inserted maxH numArgs).foldl add [])

/-! ### What is to be listed -/

/-- The heights of `numArgs` subtrees, the greatest of which is `maxH`. -/
structure IsTuple (maxH numArgs : ℕ) (t : List ℕ) : Prop where
  length : t.length = numArgs
  bounds : ∀ x ∈ t, 1 ≤ x ∧ x ≤ maxH
  max : maxH ∈ t

/-- `genPermutations` lists all of them. -/
def Yields (maxH numArgs : ℕ) : Prop :=
  ∃ prmts, genPermutations maxH numArgs = .ok prmts ∧ ∀ t, IsTuple maxH numArgs t → t ∈ prmts

/-- The heights and numbers of arguments for which it does. -/
def Covered (maxH numArgs : ℕ) : Prop :=
  numArgs = 1 ∨ 0 < numArgs ∧ maxH ≤ 1 ∨ numArgs = 2 ∧ maxH ≤ 31

/-! ### The tuples that are added -/

theorem mem_genPrmtHelper {start stop size : ℕ} {t : List ℕ} :
  t ∈ genPrmtHelper start stop size ↔
    t.length = size ∧ t.Pairwise (· ≤ ·) ∧ ∀ x ∈ t, start ≤ x ∧ x ≤ stop
  := by
  induction size generalizing start t with
  | zero =>
      rw [genPrmtHelper, List.mem_singleton, List.length_eq_zero_iff]
      constructor
      · rintro rfl
        simp
      · rintro ⟨rfl, -⟩
        rfl
  | succ size ih =>
      rw [genPrmtHelper, List.mem_flatMap]
      constructor
      · rintro ⟨i, hi, ht⟩
        obtain ⟨copy, hcopy, rfl⟩ := List.mem_map.mp ht
        obtain ⟨hlen, hsorted, hbounds⟩ := ih.mp hcopy
        rw [List.mem_range'_1] at hi
        refine ⟨by rw [List.length_cons, hlen], ?_, ?_⟩
        · rw [List.pairwise_cons]
          exact ⟨fun x hx => (hbounds x hx).1, hsorted⟩
        · intro x hx
          rcases List.mem_cons.mp hx with rfl | hx
          · omega
          · have := hbounds x hx
            omega
      · rintro ⟨hlen, hsorted, hbounds⟩
        cases t with
        | nil => cases hlen
        | cons i copy =>
            rw [List.pairwise_cons] at hsorted
            have hi := hbounds i List.mem_cons_self
            refine ⟨i, by rw [List.mem_range'_1]; omega, List.mem_map.mpr ⟨copy, ?_, rfl⟩⟩
            apply ih.mpr
            refine ⟨by simpa using hlen, hsorted.2, ?_⟩
            intro x hx
            exact ⟨hsorted.1 x hx, (hbounds x (List.mem_cons_of_mem i hx)).2⟩

theorem mem_inserted {maxH numArgs : ℕ} {t : List ℕ} :
  t ∈ inserted maxH numArgs ↔
    ∃ i < numArgs, ∃ arr ∈ genPrmtHelper 1 maxH (numArgs - 1), arr.insertIdx i maxH = t
  := by
  simp [inserted]

theorem isTuple_of_mem_inserted {maxH numArgs : ℕ} (hH : 1 ≤ maxH) {t : List ℕ}
    (ht : t ∈ inserted maxH numArgs) :
  IsTuple maxH numArgs t
  := by
  obtain ⟨i, hi, arr, harr, rfl⟩ := mem_inserted.mp ht
  obtain ⟨hlen, -, hbounds⟩ := mem_genPrmtHelper.mp harr
  have hle : i ≤ arr.length := by omega
  constructor
  · rw [List.length_insertIdx_of_le_length hle]
    omega
  · intro x hx
    rcases (List.mem_insertIdx hle).mp hx with rfl | hx
    · omega
    · apply hbounds x hx
  · apply (List.mem_insertIdx hle).mpr (.inl rfl)

/-! ### The set -/

theorem compare_eq_zero {o1 o2 : List ℕ} :
  compare o1 o2 = 0 ↔ hashCode o1 = hashCode o2
  := by
  rw [compare]
  split
  next h => simp [h]
  next =>
    constructor
    · intro h
      simpa using BitVec.sub_eq_iff_eq_add.mp h
    · intro h
      rw [h]
      apply BitVec.sub_self

theorem any_compare {prmts : List (List ℕ)} {t : List ℕ} :
  (prmts.any fun o => compare t o = 0) = true ↔ ∃ o ∈ prmts, hashCode t = hashCode o
  := by
  rw [List.any_eq_true]
  simp only [decide_eq_true_eq, compare_eq_zero]

theorem mem_of_mem_foldl_add {l prmts : List (List ℕ)} {t : List ℕ}
    (h : t ∈ l.foldl add prmts) :
  t ∈ prmts ∨ t ∈ l
  := by
  induction l generalizing prmts with
  | nil => exact .inl h
  | cons a l ih =>
      rcases ih h with h | h
      · rw [add] at h
        split at h
        next => exact .inl h
        next =>
          rcases (List.mem_orderedInsert _).mp h with rfl | h
          · exact .inr List.mem_cons_self
          · exact .inl h
      · exact .inr (List.mem_cons_of_mem a h)

/-- Adding an element leaves the others in the set. -/
theorem subset_add (prmts : List (List ℕ)) (a : List ℕ) :
  prmts ⊆ add prmts a
  := by
  intro t ht
  rw [add]
  split
  next => exact ht
  next => exact (List.mem_orderedInsert _).mpr (.inr ht)

theorem subset_foldl_add (l prmts : List (List ℕ)) :
  prmts ⊆ l.foldl add prmts
  := by
  induction l generalizing prmts with
  | nil => exact List.Subset.refl prmts
  | cons a l ih => exact List.Subset.trans (subset_add prmts a) (ih (add prmts a))

/-- Something with the hash code of an added element is in the set. -/
theorem exists_hashCode {l : List (List ℕ)} (prmts : List (List ℕ)) {t : List ℕ} (h : t ∈ l) :
  ∃ o ∈ l.foldl add prmts, hashCode t = hashCode o
  := by
  induction l generalizing prmts with
  | nil => cases h
  | cons a l ih =>
      rcases List.mem_cons.mp h with rfl | h
      · have hadd : ∃ o ∈ add prmts t, hashCode t = hashCode o := by
          rw [add]
          split
          next hany => exact any_compare.mp hany
          next => exact ⟨t, (List.mem_orderedInsert _).mpr (.inl rfl), rfl⟩
        obtain ⟨o, ho, hhash⟩ := hadd
        exact ⟨o, subset_foldl_add l _ ho, hhash⟩
      · apply ih (add prmts a) h

/-- Two elements of the set have different hash codes. -/
theorem hashCode_injOn (l prmts : List (List ℕ))
    (h : ∀ s ∈ prmts, ∀ t ∈ prmts, hashCode s = hashCode t → s = t) :
  ∀ s ∈ l.foldl add prmts, ∀ t ∈ l.foldl add prmts, hashCode s = hashCode t → s = t
  := by
  induction l generalizing prmts with
  | nil => exact h
  | cons a l ih =>
      apply ih (add prmts a)
      intro s hs t ht hst
      rw [add] at hs ht
      split at hs
      next hany =>
        rw [if_pos hany] at ht
        apply h s hs t ht hst
      next hany =>
        rw [if_neg hany] at ht
        rw [any_compare] at hany
        rcases (List.mem_orderedInsert _).mp hs with hsa | hs'
        · rcases (List.mem_orderedInsert _).mp ht with hta | ht'
          · rw [hsa, hta]
          · rw [hsa] at hst
            apply absurd ⟨t, ht', hst⟩ hany
        · rcases (List.mem_orderedInsert _).mp ht with hta | ht'
          · rw [hta] at hst
            apply absurd ⟨s, hs', hst.symm⟩ hany
          · apply h s hs' t ht' hst

/-! ### Where the list is complete -/

/-- Every tuple is listed if every one is added and they have different hash codes. -/
theorem yields_of_injOn {maxH numArgs : ℕ} (hn : 0 < numArgs) (hH : 1 ≤ maxH)
    (hadded : ∀ t, IsTuple maxH numArgs t → t ∈ inserted maxH numArgs)
    (hinj : ∀ s t, IsTuple maxH numArgs s → IsTuple maxH numArgs t →
      hashCode s = hashCode t → s = t) :
  Yields maxH numArgs
  := by
  refine ⟨_, if_neg (by omega), ?_⟩
  intro t ht
  obtain ⟨o, ho, hhash⟩ := exists_hashCode [] (hadded t ht)
  have hotuple : IsTuple maxH numArgs o := by
    apply isTuple_of_mem_inserted hH
    rcases mem_of_mem_foldl_add ho with h | h
    · cases h
    · apply h
  rw [hinj t o ht hotuple hhash]
  apply ho

theorem isTuple_one {maxH : ℕ} {t : List ℕ} (h : IsTuple maxH 1 t) :
  t = [maxH]
  := by
  obtain ⟨x, rfl⟩ := List.length_eq_one_iff.mp h.length
  rw [List.mem_singleton.mp h.max]

theorem isTuple_ones {numArgs : ℕ} {t : List ℕ} (h : IsTuple 1 numArgs t) :
  t = List.replicate numArgs 1
  := by
  rw [List.eq_replicate_iff]
  refine ⟨h.length, ?_⟩
  intro x hx
  have := h.bounds x hx
  omega

/-- A pair is added with its maximum in the place that it has. -/
theorem pair_mem_inserted {maxH : ℕ} {t : List ℕ} (h : IsTuple maxH 2 t) :
  t ∈ inserted maxH 2
  := by
  obtain ⟨a, b, rfl⟩ := List.length_eq_two.mp h.length
  have ha := h.bounds a (by simp)
  have hb := h.bounds b (by simp)
  rw [mem_inserted]
  rcases List.mem_pair.mp h.max with rfl | rfl
  · refine ⟨0, by omega, [b], ?_, rfl⟩
    rw [mem_genPrmtHelper]
    simp [hb]
  · refine ⟨1, by omega, [a], ?_, rfl⟩
    rw [mem_genPrmtHelper]
    simp [ha]

theorem hashCode_pair (a b : ℕ) :
  hashCode [a, b] = BitVec.ofNat 32 (961 + 31 * a + b)
  := by
  apply BitVec.eq_of_toNat_eq
  simp [hashCode]
  omega

theorem hashCode_pair_inj {a b c d : ℕ} (ha : a ≤ 31) (hb : 1 ≤ b ∧ b ≤ 31) (hc : c ≤ 31)
    (hd : 1 ≤ d ∧ d ≤ 31) (h : hashCode [a, b] = hashCode [c, d]) :
  a = c ∧ b = d
  := by
  rw [hashCode_pair, hashCode_pair] at h
  have h := congrArg BitVec.toNat h
  rw [BitVec.toNat_ofNat, BitVec.toNat_ofNat, Nat.mod_eq_of_lt (by omega),
    Nat.mod_eq_of_lt (by omega)] at h
  omega

theorem yields_of_covered {maxH numArgs : ℕ} (h : Covered maxH numArgs) :
  Yields maxH numArgs
  := by
  have hn : 0 < numArgs := by
    rcases h with rfl | ⟨h, -⟩ | ⟨rfl, -⟩
    · omega
    · apply h
    · omega
  by_cases hH : maxH = 0
  · subst hH
    refine ⟨_, if_neg (by omega), ?_⟩
    intro t ht
    have := ht.bounds 0 ht.max
    omega
  rcases h with rfl | ⟨-, h⟩ | ⟨rfl, h⟩
  · apply yields_of_injOn hn (by omega)
    · intro t ht
      rw [isTuple_one ht, mem_inserted]
      exact ⟨0, by omega, [], by rw [mem_genPrmtHelper]; simp, rfl⟩
    · intro s t hs ht _
      rw [isTuple_one hs, isTuple_one ht]
  · obtain rfl : maxH = 1 := by omega
    apply yields_of_injOn hn (by omega)
    · intro t ht
      rw [isTuple_ones ht, mem_inserted]
      refine ⟨0, hn, List.replicate (numArgs - 1) 1, ?_, ?_⟩
      · rw [mem_genPrmtHelper]
        refine ⟨List.length_replicate, List.pairwise_replicate.mpr (.inr le_rfl), ?_⟩
        intro x hx
        rw [List.eq_of_mem_replicate hx]
        omega
      · rw [List.insertIdx_zero, ← List.replicate_succ, Nat.sub_add_cancel hn]
    · intro s t hs ht _
      rw [isTuple_ones hs, isTuple_ones ht]
  · apply yields_of_injOn hn (by omega)
    · intro t ht
      apply pair_mem_inserted ht
    · intro s t hs ht hst
      obtain ⟨a, b, rfl⟩ := List.length_eq_two.mp hs.length
      obtain ⟨c, d, rfl⟩ := List.length_eq_two.mp ht.length
      have ha := hs.bounds a (by simp)
      have hb := hs.bounds b (by simp)
      have hc := ht.bounds c (by simp)
      have hd := ht.bounds d (by simp)
      obtain ⟨rfl, rfl⟩ := hashCode_pair_inj (by omega) (by omega) (by omega) (by omega) hst
      rfl

/-! ### Where it is not -/

/-- From height 32 on, two pairs have one hash code. -/
theorem not_yields_pair {maxH : ℕ} (h : 32 ≤ maxH) :
  ¬ Yields maxH 2
  := by
  rintro ⟨prmts, hprmts, hall⟩
  rw [genPermutations, if_neg (by omega)] at hprmts
  cases hprmts
  have hfst : IsTuple maxH 2 [maxH - 1, maxH] := by
    constructor
    · rfl
    · simp
      omega
    · simp
  have hsnd : IsTuple maxH 2 [maxH, maxH - 31] := by
    constructor
    · rfl
    · simp
      omega
    · simp
  have hhash : hashCode [maxH - 1, maxH] = hashCode [maxH, maxH - 31] := by
    rw [hashCode_pair, hashCode_pair]
    congr 1
    omega
  have heq := hashCode_injOn (inserted maxH 2) [] (by simp) _ (hall _ hfst) _ (hall _ hsnd) hhash
  have := congrArg List.head? heq
  simp at this
  omega

/-- From three arguments and height 2 on, a tuple that falls from its second place to its third
is no nondecreasing tuple with its maximum put in. -/
theorem not_mem_inserted {maxH n : ℕ} (hH : 2 ≤ maxH) :
  maxH :: maxH :: List.replicate (n + 1) 1 ∉ inserted maxH (n + 3)
  := by
  intro hmem
  obtain ⟨i, hi, arr, harr, heq⟩ := mem_inserted.mp hmem
  obtain ⟨hlen, hsorted, -⟩ := mem_genPrmtHelper.mp harr
  have hat : (maxH :: maxH :: List.replicate (n + 1) 1)[i]? = some maxH := by
    rw [← heq, List.getElem?_insertIdx_self, if_pos (by omega)]
  have harr' : arr = (maxH :: maxH :: List.replicate (n + 1) 1).eraseIdx i := by
    rw [← heq, List.eraseIdx_insertIdx_self]
  have hfall : arr = maxH :: List.replicate (n + 1) 1 := by
    rcases i with _ | _ | i
    · apply harr'
    · apply harr'
    · rw [List.getElem?_cons_succ, List.getElem?_cons_succ, List.getElem?_replicate] at hat
      split at hat
      · cases hat
        omega
      · cases hat
  rw [hfall, List.replicate_succ, List.pairwise_cons] at hsorted
  have := hsorted.1 1 List.mem_cons_self
  omega

theorem not_yields_of_three {maxH n : ℕ} (hH : 2 ≤ maxH) :
  ¬ Yields maxH (n + 3)
  := by
  rintro ⟨prmts, hprmts, hall⟩
  rw [genPermutations, if_neg (by omega)] at hprmts
  cases hprmts
  have htuple : IsTuple maxH (n + 3) (maxH :: maxH :: List.replicate (n + 1) 1) := by
    constructor
    · simp
    · intro x hx
      rcases List.mem_cons.mp hx with rfl | hx
      · omega
      · rcases List.mem_cons.mp hx with rfl | hx
        · omega
        · rw [List.eq_of_mem_replicate hx]
          omega
    · simp
  rcases mem_of_mem_foldl_add (hall _ htuple) with h | h
  · cases h
  · apply not_mem_inserted hH h

/-- For which heights and numbers of arguments the list is complete. -/
theorem yields_iff (maxH numArgs : ℕ) :
  Yields maxH numArgs ↔ Covered maxH numArgs
  := by
  refine ⟨?_, yields_of_covered⟩
  intro h
  rcases numArgs with _ | _ | _ | n
  · obtain ⟨prmts, hprmts, -⟩ := h
    cases hprmts
  · exact .inl rfl
  · by_cases hH : maxH ≤ 31
    · exact .inr (.inr ⟨rfl, hH⟩)
    · apply absurd h (not_yields_pair (by omega))
  · by_cases hH : maxH ≤ 1
    · exact .inr (.inl ⟨by omega, hH⟩)
    · apply absurd h (not_yields_of_three (by omega))

end BVEnum

end DryadSynth
