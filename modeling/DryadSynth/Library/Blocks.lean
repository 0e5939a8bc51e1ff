import DryadSynth.Library.Ones

/-!
# Sets of numbers in blocks of bits

A list of blocks of `w` bits stands for a set of natural numbers: the number `i` belongs to
it when the bit `i % w` of the block `i / w` is set.  The operations work block by block, and
a list that is shorter than another leaves the other as it is.
-/

namespace Blocks

variable {w : ℕ} {a b : List (BitVec w)} {i j n : ℕ}

/-- The set that blocks stand for. -/
def toSet (a : List (BitVec w)) : Set ℕ :=
  {i | ∃ x, a[i / w]? = some x ∧ x.getLsbD (i % w) = true}

theorem mem_toSet :
  i ∈ toSet a ↔ ∃ x, a[i / w]? = some x ∧ x.getLsbD (i % w) = true
  := Iff.rfl

/-- The intersection. -/
def inter (a b : List (BitVec w)) : List (BitVec w) :=
  List.zipWith (· &&& ·) a b ++ a.drop b.length

/-- The union. -/
def union (a b : List (BitVec w)) : List (BitVec w) :=
  List.zipWith (· ||| ·) a b ++ a.drop b.length

/-- The difference. -/
def diff (a b : List (BitVec w)) : List (BitVec w) :=
  List.zipWith (fun x y => x &&& ~~~y) a b ++ a.drop b.length

/-- Inclusion, decided on the blocks that both lists have. -/
def subset (a b : List (BitVec w)) : Bool :=
  (b.zip a).all fun p => p.1 &&& p.2 = p.2

/-- The number `i` put into blocks. -/
def insert (a : List (BitVec w)) (i : ℕ) : List (BitVec w) :=
  a.modify (i / w) (· ||| (1#w <<< (i % w)))

/-- The number of ones of all blocks. -/
def count (a : List (BitVec w)) : ℕ := (a.map fun x => x.cpop.toNat).sum

/-- Empty blocks. -/
def zeros (w n : ℕ) : List (BitVec w) := List.replicate n 0

/-- A block of a zip with a function, with the rest of the first list. -/
theorem getElem?_zipWith_append_drop {α : Type} (f : α → α → α) (a b : List α) (k : ℕ) :
  (List.zipWith f a b ++ a.drop b.length)[k]?
    = match a[k]?, b[k]? with
      | some x, some y => some (f x y)
      | some x, none => some x
      | none, _ => none
  := by
  induction a generalizing b k with
  | nil => simp
  | cons x a ih =>
      cases b with
      | nil => cases h : (x :: a)[k]? <;> simp [h]
      | cons y b =>
          cases k with
          | zero => simp
          | succ k => simpa using ih b k

@[simp]
theorem length_inter (a b : List (BitVec w)) :
  (inter a b).length = a.length
  := by
  simp only [inter, List.length_append, List.length_zipWith, List.length_drop]
  omega

@[simp]
theorem length_union (a b : List (BitVec w)) :
  (union a b).length = a.length
  := by
  simp only [union, List.length_append, List.length_zipWith, List.length_drop]
  omega

@[simp]
theorem length_diff (a b : List (BitVec w)) :
  (diff a b).length = a.length
  := by
  simp only [diff, List.length_append, List.length_zipWith, List.length_drop]
  omega

@[simp]
theorem length_insert (a : List (BitVec w)) (i : ℕ) :
  (insert a i).length = a.length
  := List.length_modify ..

theorem toSet_inter (h : a.length ≤ b.length) :
  toSet (inter a b) = toSet a ∩ toSet b
  := by
  ext i
  rw [Set.mem_inter_iff, mem_toSet, mem_toSet, mem_toSet, inter, getElem?_zipWith_append_drop]
  cases hx : a[i / w]? with
  | none => simp
  | some x =>
      have hlt : i / w < b.length := (List.getElem?_eq_some_iff.mp hx).1.trans_le h
      rw [List.getElem?_eq_getElem hlt]
      simp

theorem toSet_union (h : a.length = b.length) :
  toSet (union a b) = toSet a ∪ toSet b
  := by
  ext i
  rw [Set.mem_union, mem_toSet, mem_toSet, mem_toSet, union, getElem?_zipWith_append_drop]
  cases hx : a[i / w]? with
  | none =>
      have hle : b.length ≤ i / w := h ▸ List.getElem?_eq_none_iff.mp hx
      simp [List.getElem?_eq_none hle]
  | some x =>
      have hlt : i / w < b.length := h ▸ (List.getElem?_eq_some_iff.mp hx).1
      rw [List.getElem?_eq_getElem hlt]
      simp

theorem toSet_diff :
  toSet (diff a b) = toSet a \ toSet b
  := by
  ext i
  rw [Set.mem_sdiff, mem_toSet, mem_toSet, mem_toSet, diff, getElem?_zipWith_append_drop]
  cases hx : a[i / w]? with
  | none => simp
  | some x =>
      cases hy : b[i / w]? with
      | none => simp
      | some y =>
          have hbit : x.getLsbD (i % w) = true → i % w < w := by
            intro hbit
            by_contra hge
            rw [BitVec.getLsbD_of_ge x _ (not_lt.mp hge)] at hbit
            cases hbit
          simp only [Option.some.injEq, exists_eq_left', BitVec.getLsbD_and, BitVec.getLsbD_not,
            Bool.and_eq_true, decide_eq_true_eq, Bool.not_eq_true', ← Bool.not_eq_true]
          tauto

/-- An inclusion of blocks is one of sets. -/
theorem toSet_subset (h : subset a b = true) (hlen : a.length ≤ b.length) :
  toSet a ⊆ toSet b
  := by
  rintro i ⟨x, hx, hbit⟩
  have hlt : i / w < b.length := (List.getElem?_eq_some_iff.mp hx).1.trans_le hlen
  have hmem : (b[i / w], x) ∈ b.zip a := by
    apply List.mem_of_getElem? (i := i / w)
    rw [List.getElem?_zip_eq_some]
    exact ⟨List.getElem?_eq_getElem hlt, hx⟩
  have hand := of_decide_eq_true (List.all_eq_true.mp h _ hmem)
  refine ⟨b[i / w], List.getElem?_eq_getElem hlt, ?_⟩
  have hbits := congrArg (fun x => x.getLsbD (i % w)) hand
  simpa [hbit] using hbits

/-- An inclusion of sets is one of blocks. -/
theorem subset_of_toSet (h : toSet a ⊆ toSet b) :
  subset a b = true
  := by
  rw [subset, List.all_eq_true]
  rintro ⟨y, x⟩ hmem
  rw [decide_eq_true_iff]
  obtain ⟨k, hk⟩ := List.mem_iff_getElem?.mp hmem
  rw [List.getElem?_zip_eq_some] at hk
  ext j hj
  rw [BitVec.getElem_and]
  cases hx : x[j] with
  | false => simp
  | true =>
      -- the bit stands for an element of the set, which is one of the other set
      have hdiv : (w * k + j) / w = k := by
        rw [Nat.mul_add_div (Nat.zero_lt_of_lt hj), Nat.div_eq_of_lt hj, Nat.add_zero]
      have hmod : (w * k + j) % w = j := by
        rw [Nat.mul_add_mod, Nat.mod_eq_of_lt hj]
      have hin : w * k + j ∈ toSet a := by
        refine ⟨x, by rw [hdiv, hk.2], ?_⟩
        rw [hmod, BitVec.getLsbD_eq_getElem hj, hx]
      obtain ⟨y', hy', hbit⟩ := h hin
      rw [hdiv, hk.1, Option.some.injEq] at hy'
      rw [hmod, ← hy', BitVec.getLsbD_eq_getElem hj] at hbit
      rw [hbit]
      rfl

theorem mem_toSet_insert (hw : 0 < w) (hj : j / w < a.length) :
  i ∈ toSet (insert a j) ↔ i = j ∨ i ∈ toSet a
  := by
  have hmod : i % w < w := Nat.mod_lt i hw
  rw [mem_toSet, mem_toSet, insert, List.getElem?_modify]
  by_cases hblock : j / w = i / w
  · have hsame : i = j ↔ i % w = j % w := by
      constructor
      · rintro rfl
        rfl
      · intro h
        rw [← Nat.div_add_mod i w, ← Nat.div_add_mod j w, hblock, h]
    rw [← hblock, List.getElem?_eq_getElem hj]
    simp only [if_true, Option.map_eq_map, Option.map_some, Option.some.injEq, exists_eq_left',
      BitVec.getLsbD_or, BitVec.getLsbD_shiftLeft, Bool.or_eq_true, hsame]
    have hone : (decide (i % w < w) && !decide (i % w < j % w) && (1#w).getLsbD (i % w - j % w))
        = true ↔ i % w = j % w := by
      simp [hmod, BitVec.getLsbD_one, hw]
      omega
    rw [hone]
    tauto
  · have hne : i ≠ j := by
      rintro rfl
      apply hblock rfl
    simp [hblock, hne]

/-- The set of the numbers put into empty blocks. -/
theorem mem_toSet_foldl_insert (hw : 0 < w) {l : List ℕ} (hl : ∀ j ∈ l, j / w < n) :
  i ∈ toSet (l.foldl insert (zeros w n)) ↔ i ∈ l
  := by
  have hfold : ∀ a : List (BitVec w), a.length = n →
      (i ∈ toSet (l.foldl insert a) ↔ i ∈ l ∨ i ∈ toSet a) := by
    induction l with
    | nil => simp
    | cons j l ih =>
        intro a ha
        rw [List.foldl_cons,
          ih (fun k hk => hl k (List.mem_cons_of_mem _ hk)) _ (by simpa using ha),
          mem_toSet_insert hw (ha ▸ hl j List.mem_cons_self), List.mem_cons]
        tauto
  rw [hfold _ (by simp [zeros])]
  have hzeros : i ∉ toSet (zeros w n) := by
    rintro ⟨x, hx, hbit⟩
    rw [zeros, List.getElem?_replicate] at hx
    split_ifs at hx
    cases hx
    simp at hbit
  simp [hzeros]

theorem length_foldl_insert (l : List ℕ) (a : List (BitVec w)) :
  (l.foldl insert a).length = a.length
  := by
  induction l generalizing a with
  | nil => rfl
  | cons j l ih => rw [List.foldl_cons, ih, length_insert]

/-! ### The number of elements -/

@[simp]
theorem toSet_nil :
  toSet ([] : List (BitVec w)) = ∅
  := by
  ext i
  simp [mem_toSet]

/-- The first block and the rest, one block further. -/
theorem toSet_cons (hw : 0 < w) (x : BitVec w) (a : List (BitVec w)) :
  toSet (x :: a) = ↑(Ones.ones x) ∪ (fun i => i + w) '' toSet a
  := by
  ext i
  simp only [Set.mem_union, Finset.mem_coe, Ones.mem_ones, Set.mem_image, mem_toSet]
  by_cases hi : i < w
  · have hnot : ∀ j, j + w ≠ i := by omega
    simp [Nat.div_eq_of_lt hi, Nat.mod_eq_of_lt hi, hnot]
  · obtain ⟨j, rfl⟩ := Nat.exists_eq_add_of_le' (not_lt.mp hi)
    simp [Nat.add_div_right j hw]

theorem finite_toSet (hw : 0 < w) (a : List (BitVec w)) :
  (toSet a).Finite
  := by
  induction a with
  | nil => simp
  | cons x a ih =>
      rw [toSet_cons hw]
      apply (Finset.finite_toSet _).union (ih.image _)

/-- The number of elements is the number of ones. -/
theorem ncard_toSet (hw : 0 < w) (a : List (BitVec w)) :
  (toSet a).ncard = count a
  := by
  induction a with
  | nil => simp [count]
  | cons x a ih =>
      have hdisj : Disjoint (↑(Ones.ones x) : Set ℕ) ((fun i => i + w) '' toSet a) := by
        apply Set.disjoint_left.mpr
        rintro _ hi ⟨j, -, rfl⟩
        have hlt : j + w < w := Ones.lt_of_mem_ones (Finset.mem_coe.mp hi)
        omega
      rw [toSet_cons hw, Set.ncard_union_eq hdisj (Finset.finite_toSet _)
        ((finite_toSet hw a).image _), Set.ncard_coe_finset, Ones.card_ones,
        Set.ncard_image_of_injective _ (add_left_injective w), ih, count, count, List.map_cons,
        List.sum_cons]

end Blocks
