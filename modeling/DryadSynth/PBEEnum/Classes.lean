import DryadSynth.PBEEnum.Covered

/-!
# The classes of examples

The conditions found so far ask each example for its branch, and `updateECs` splits the classes
that are not covered by one more condition.  The classes of an enumeration split the selected
examples by the branches that they take, the outsiders are the examples in classes that are not
covered, and an expression is right on each covered class (`Separates`).
-/

namespace DryadSynth

open QFBV (Term)
open Splitting (Part Splits Pieces)

open TermEquality

namespace PBEEnumSize

variable (p : PBEEnumSize) (selected : List (Fin p.input.length))

/-- The condition sends an example to the true branch of the conditional. -/
def IsTrue (cond : Term 64) (i : ℕ) : Prop :=
  ∃ v, p.Computes selected cond i v ∧
    p.pbeDispatch p.branchCombinator.termSyb [some v, some 1, some 0] = .ok (some 1)

open Classical in
/-- The index of the branch that an example takes at a condition.  A condition is there twice, for
its true branch and for its false branch. -/
noncomputable def answer (conditions : List (Term 64)) (j i : ℕ) : ℕ :=
  if ∃ cond, conditions[2 * j]? = some cond ∧ p.IsTrue selected cond i then 2 * j else 2 * j + 1

/-- The covered and the uncovered classes. -/
def classes (st : State) : List (Part ℕ ℕ) :=
  st.coveredEquivClasses ++ st.uncoveredEquivClasses.map Prod.snd

/-- The condition has been evaluated on an example. -/
def Evaluated (cond : Term 64) (i : ℕ) : Prop :=
  ∃ v w, p.Computes selected cond i v ∧
    p.pbeDispatch p.branchCombinator.termSyb [some v, some 1, some 0] = .ok (some w)

/-- The classes of a state. -/
structure Separates (st : State) : Prop where
  splits : Splits (p.answer selected st.conditions) { i | i < selected.length } (classes st)
  evaluated : ∀ P ∈ classes st, ∀ i ∈ P.members, ∀ j < P.path.length, ∃ cond,
    st.conditions[2 * j]? = some cond ∧ p.Evaluated selected cond i
  even : st.conditions.length = 2 * (st.conditions.length / 2)
  uncovered : ∀ ec ∈ st.uncoveredEquivClasses, ec.2.path.length = st.conditions.length / 2
  covered : ∀ P ∈ st.coveredEquivClasses, P.path.length ≤ st.conditions.length / 2 ∧
    ∃ c ∈ st.covered, P.members ⊆ c.2
  outsider : ∀ i, i ∈ st.outsider ↔ ∃ ec ∈ st.uncoveredEquivClasses, i ∈ ec.2.members
  divides : ∀ cond, st.conditions[0]? = some cond →
    (∃ i < selected.length, p.IsTrue selected cond i) ∧
      ∃ i < selected.length, ¬ p.IsTrue selected cond i

/-- The first condition is asked of every covered class. -/
def Asked (st : State) : Prop := ∀ P ∈ st.coveredEquivClasses, P.path ≠ []

variable {p selected} {st : State}

theorem mem_classes {P : Part ℕ ℕ} :
  P ∈ classes st ↔ P ∈ st.coveredEquivClasses ∨ ∃ ec ∈ st.uncoveredEquivClasses, ec.2 = P
  := by
  rw [classes, List.mem_append, List.mem_map]

theorem Separates.lt_length (h : p.Separates selected st) {i : ℕ} (hi : i ∈ st.outsider) :
  i < selected.length
  := by
  obtain ⟨ec, hec, hmem⟩ := (h.outsider i).mp hi
  apply (h.splits.cover i).mpr ⟨ec.2, mem_classes.mpr (.inr ⟨ec, hec, rfl⟩), hmem⟩

/-- If no outsider is left, all classes are covered. -/
theorem Separates.exists_covered (h : p.Separates selected st) (houtsider : st.outsider = [])
    {i : ℕ} (hi : i < selected.length) :
  ∃ P ∈ st.coveredEquivClasses, i ∈ P.members
  := by
  obtain ⟨P, hP, hmem⟩ := (h.splits.cover i).mp hi
  rcases mem_classes.mp hP with hP | ⟨ec, hec, rfl⟩
  · exact ⟨P, hP, hmem⟩
  · have := (h.outsider i).mpr ⟨ec, hec, hmem⟩
    rw [houtsider] at this
    cases this

/-! ### Covered classes -/

/-- The classes that `updateCoveredECs` finds covered. -/
def newlyCovered (p : PBEEnumSize) (st : State) : List (ℕ × Part ℕ ℕ) :=
  (p.arrange st.uncoveredEquivClasses).filter fun ec =>
    st.covered.any fun c => ec.2.members ⊆ c.2

theorem mem_newlyCovered {ec : ℕ × Part ℕ ℕ} :
  ec ∈ newlyCovered p st ↔
    ec ∈ st.uncoveredEquivClasses ∧ ∃ c ∈ st.covered, ec.2.members ⊆ c.2
  := by
  rw [newlyCovered, List.mem_filter, (p.perm st.uncoveredEquivClasses).mem_iff, List.any_eq_true]
  simp only [decide_eq_true_iff]

/-- The covered classes go from one list to the other. -/
theorem classes_updateCoveredECs (p : PBEEnumSize) (st : State) :
  (classes (p.updateCoveredECs st)).Perm (classes st)
  := by
  rw [classes, classes, updateCoveredECs, List.append_assoc]
  apply List.Perm.append_left
  rw [← List.map_append]
  apply List.Perm.map
  apply List.Perm.trans (List.Perm.append_right _ ((p.perm st.uncoveredEquivClasses).filter _))
  have hnot : (fun ec : ℕ × Part ℕ ℕ =>
      decide ((st.covered.any fun c => ec.2.members ⊆ c.2) = false))
      = fun ec => !(st.covered.any fun c => ec.2.members ⊆ c.2) := by
    funext ec
    cases st.covered.any fun c => decide (ec.2.members ⊆ c.2) <;> rfl
  rw [hnot]
  apply List.filter_append_perm

theorem later_updateCoveredECs (p : PBEEnumSize) (st : State) :
  Later st (p.updateCoveredECs st)
  where
  needed i hi := by
    apply needed_mono _ _ hi
    · exact List.filter_subset_self _
    · exact List.Subset.refl _
  covered c hc := ⟨c, hc, List.Subset.refl _⟩

theorem mem_uncovered_updateCoveredECs {ec : ℕ × Part ℕ ℕ} :
  ec ∈ (p.updateCoveredECs st).uncoveredEquivClasses ↔
    ec ∈ st.uncoveredEquivClasses ∧ ∀ c ∈ st.covered, ¬ ec.2.members ⊆ c.2
  := by
  rw [updateCoveredECs, List.mem_filter, decide_eq_true_iff, List.any_eq_false]
  simp only [decide_eq_true_iff]

theorem mem_covered_updateCoveredECs {P : Part ℕ ℕ} :
  P ∈ (p.updateCoveredECs st).coveredEquivClasses ↔
    P ∈ st.coveredEquivClasses ∨ ∃ ec ∈ newlyCovered p st, ec.2 = P
  := by
  rw [updateCoveredECs, List.mem_append, List.mem_map]
  rfl

theorem mem_outsider_updateCoveredECs {i : ℕ} :
  i ∈ (p.updateCoveredECs st).outsider ↔
    i ∈ st.outsider ∧ ∀ ec ∈ newlyCovered p st, i ∉ ec.2.members
  := by
  rw [updateCoveredECs, List.mem_filter, decide_eq_true_iff]
  rfl

/-- An outsider remains one as long as its class is not covered. -/
theorem outsider_updateCoveredECs (h : p.Separates selected st) (i : ℕ) :
  i ∈ (p.updateCoveredECs st).outsider ↔
    ∃ ec ∈ (p.updateCoveredECs st).uncoveredEquivClasses, i ∈ ec.2.members
  := by
  simp only [mem_outsider_updateCoveredECs, mem_uncovered_updateCoveredECs, h.outsider]
  constructor
  · rintro ⟨⟨ec, hec, hi⟩, hnot⟩
    refine ⟨ec, ⟨hec, ?_⟩, hi⟩
    intro c hc hsub
    apply hnot ec (mem_newlyCovered.mpr ⟨hec, c, hc, hsub⟩) hi
  · rintro ⟨ec, ⟨hec, hnot⟩, hi⟩
    refine ⟨⟨ec, hec, hi⟩, ?_⟩
    intro ec' hec' hi'
    obtain ⟨hmem, c, hc, hsub⟩ := mem_newlyCovered.mp hec'
    have heq : ec.2 = ec'.2 := by
      apply h.splits.eq_of_mem _ _ hi hi'
      · exact mem_classes.mpr (.inr ⟨ec, hec, rfl⟩)
      · exact mem_classes.mpr (.inr ⟨ec', hmem, rfl⟩)
    rw [← heq] at hsub
    apply hnot c hc hsub

theorem Separates.updateCoveredECs (h : p.Separates selected st) :
  p.Separates selected (p.updateCoveredECs st)
  where
  splits := h.splits.perm (classes_updateCoveredECs p st).symm
  evaluated P hP := h.evaluated P ((classes_updateCoveredECs p st).mem_iff.mp hP)
  even := h.even
  uncovered ec hec := h.uncovered ec (mem_uncovered_updateCoveredECs.mp hec).1
  covered P hP := by
    rcases mem_covered_updateCoveredECs.mp hP with hP | ⟨ec, hec, rfl⟩
    · apply h.covered P hP
    · obtain ⟨hmem, hc⟩ := mem_newlyCovered.mp hec
      exact ⟨(h.uncovered ec hmem).le, hc⟩
  outsider := outsider_updateCoveredECs h
  divides := h.divides

/-- A class without conditions has all examples, and no expression is right on all of them. -/
theorem asked_updateCoveredECs (h : p.Separates selected st) (hinc : p.Incomplete selected st)
    (hasked : Asked st) :
  Asked (p.updateCoveredECs st)
  := by
  intro P hP
  rcases mem_covered_updateCoveredECs.mp hP with hP | ⟨ec, hec, rfl⟩
  · apply hasked P hP
  · intro hnil
    obtain ⟨hmem, c, hc, hsub⟩ := mem_newlyCovered.mp hec
    obtain ⟨i, hi, hnot⟩ := hinc c hc
    apply hnot (hsub _)
    apply h.splits.mem_of_follows hi (mem_classes.mpr (.inr ⟨ec, hmem, rfl⟩))
    rw [hnil]
    apply Splitting.follows_nil

/-! ### A new condition -/

/-- What the class is split into. -/
def pieces (trueOutputs : List ℕ) (condTrueIndex : ℕ) (P : Part ℕ ℕ) : List (Part ℕ ℕ) :=
  let newEC := P.members.filter fun i => i ∈ trueOutputs
  let updatedEC := P.members.filter fun i => i ∉ trueOutputs
  if newEC = [] then [⟨P.members, P.path ++ [condTrueIndex + 1]⟩]
  else if updatedEC = [] then [⟨newEC, P.path ++ [condTrueIndex]⟩]
  else [⟨newEC, P.path ++ [condTrueIndex]⟩, ⟨updatedEC, P.path ++ [condTrueIndex + 1]⟩]

theorem splitEC_snd (trueOutputs : List ℕ) (condTrueIndex : ℕ) (acc : List (ℕ × Part ℕ ℕ) × ℕ)
    (ec : ℕ × Part ℕ ℕ) :
  (splitEC trueOutputs condTrueIndex acc ec).1.map Prod.snd
    = acc.1.map Prod.snd ++ pieces trueOutputs condTrueIndex ec.2
  := by
  rw [splitEC, pieces]
  split
  · rw [List.map_append]
    rfl
  · split
    · rw [List.map_append]
      rfl
    · rw [List.map_append]
      rfl

theorem foldl_splitEC (trueOutputs : List ℕ) (condTrueIndex : ℕ) (l : List (ℕ × Part ℕ ℕ))
    (acc : List (ℕ × Part ℕ ℕ) × ℕ) :
  (l.foldl (splitEC trueOutputs condTrueIndex) acc).1.map Prod.snd
    = acc.1.map Prod.snd ++ (l.map Prod.snd).flatMap (pieces trueOutputs condTrueIndex)
  := by
  induction l generalizing acc with
  | nil => simp
  | cons ec l ih =>
      rw [List.foldl_cons, ih, splitEC_snd, List.map_cons, List.flatMap_cons, List.append_assoc]

/-- The pieces of a class whose examples have answered the condition. -/
theorem pieces_spec {answer : ℕ → ℕ → ℕ} {trueOutputs : List ℕ} {condTrueIndex : ℕ}
    {P : Part ℕ ℕ} (hne : P.members ≠ [])
    (hanswer : ∀ i ∈ P.members, answer P.path.length i
      = if i ∈ trueOutputs then condTrueIndex else condTrueIndex + 1) :
  Pieces answer P (pieces trueOutputs condTrueIndex P)
  := by
  rw [pieces]
  split
  next hnew =>
      have hfalse : ∀ i ∈ P.members, i ∉ trueOutputs := by
        simpa [List.filter_eq_nil_iff] using hnew
      refine ⟨by simpa using hne, ?_, List.pairwise_singleton _ _, by simp⟩
      intro Q hQ
      rw [List.mem_singleton] at hQ
      subst hQ
      refine ⟨condTrueIndex + 1, rfl, ?_⟩
      intro i hi
      rw [hanswer i hi, if_neg (hfalse i hi)]
  next hnew =>
      split
      next hupdated =>
          have htrue : ∀ i ∈ P.members, i ∈ trueOutputs := by
            simpa [List.filter_eq_nil_iff] using hupdated
          refine ⟨by simpa using hnew, ?_, List.pairwise_singleton _ _, ?_⟩
          · intro Q hQ
            rw [List.mem_singleton] at hQ
            subst hQ
            refine ⟨condTrueIndex, rfl, ?_⟩
            intro i hi
            have hi := List.mem_of_mem_filter hi
            rw [hanswer i hi, if_pos (htrue i hi)]
          · intro i
            simp only [List.mem_singleton, exists_eq_left, List.mem_filter, decide_eq_true_iff]
            exact ⟨fun hi => ⟨hi, htrue i hi⟩, fun hi => hi.1⟩
      next hupdated =>
          refine ⟨?_, ?_, ?_, ?_⟩
          · intro Q hQ
            rcases List.mem_pair.mp hQ with rfl | rfl
            · exact hnew
            · exact hupdated
          · intro Q hQ
            rcases List.mem_pair.mp hQ with rfl | rfl
            · refine ⟨condTrueIndex, rfl, ?_⟩
              intro i hi
              obtain ⟨hi, htrue⟩ := List.mem_filter.mp hi
              rw [hanswer i hi, if_pos (of_decide_eq_true htrue)]
            · refine ⟨condTrueIndex + 1, rfl, ?_⟩
              intro i hi
              obtain ⟨hi, hfalse⟩ := List.mem_filter.mp hi
              rw [hanswer i hi, if_neg (of_decide_eq_true hfalse)]
          · rw [List.pairwise_pair]
            intro heq
            have := List.head_eq_of_cons_eq (List.append_inj' heq rfl).2
            omega
          · intro i
            simp only [List.mem_cons, List.not_mem_nil, or_false, exists_eq_or_imp,
              exists_eq_left, List.mem_filter, decide_eq_true_iff]
            tauto

/-- The classes after all of them have been split. -/
def splitECs (p : PBEEnumSize) (trueOutputs : List ℕ) (st : State) : List (ℕ × Part ℕ ℕ) × ℕ :=
  (p.arrange st.uncoveredEquivClasses).foldl (splitEC trueOutputs st.conditions.length)
    ([], st.ecCounter)

theorem map_splitECs (p : PBEEnumSize) (trueOutputs : List ℕ) (st : State) :
  (splitECs p trueOutputs st).1.map Prod.snd
    = ((p.arrange st.uncoveredEquivClasses).map Prod.snd).flatMap
        (pieces trueOutputs st.conditions.length)
  := foldl_splitEC trueOutputs st.conditions.length _ _

theorem mem_splitECs {trueOutputs : List ℕ} {P : Part ℕ ℕ} :
  (∃ ec ∈ (splitECs p trueOutputs st).1, ec.2 = P) ↔
    ∃ ec ∈ st.uncoveredEquivClasses, P ∈ pieces trueOutputs st.conditions.length ec.2
  := by
  rw [← List.mem_map, map_splitECs, List.mem_flatMap]
  simp only [List.mem_map, (p.perm st.uncoveredEquivClasses).mem_iff]
  constructor
  · rintro ⟨_, ⟨ec, hec, rfl⟩, hP⟩
    exact ⟨ec, hec, hP⟩
  · rintro ⟨ec, hec, hP⟩
    exact ⟨ec.2, ⟨ec, hec, rfl⟩, hP⟩

section NewCondition

variable {cond : Term 64}

theorem answer_append_of_lt {conditions : List (Term 64)} {j : ℕ}
    (hj : 2 * j < conditions.length) (i : ℕ) :
  p.answer selected (conditions ++ [cond, cond]) j i = p.answer selected conditions j i
  := by
  rw [answer, answer, List.getElem?_append_left hj]

theorem answer_append_self {conditions : List (Term 64)} {j : ℕ}
    (hj : conditions.length = 2 * j) {i : ℕ} {trueOutputs : List ℕ}
    (htrue : i ∈ trueOutputs ↔ p.IsTrue selected cond i) :
  p.answer selected (conditions ++ [cond, cond]) j i
    = if i ∈ trueOutputs then conditions.length else conditions.length + 1
  := by
  have hget : (conditions ++ [cond, cond])[2 * j]? = some cond := by
    rw [← hj, List.getElem?_append_right (le_refl _), Nat.sub_self]
    rfl
  rw [answer, hget, hj]
  by_cases hi : i ∈ trueOutputs
  · rw [if_pos hi, if_pos ⟨cond, rfl, htrue.mp hi⟩]
  · rw [if_neg hi, if_neg]
    rintro ⟨cond', heq, hcond⟩
    cases heq
    apply hi (htrue.mpr hcond)

/-- The classes with the new condition, before some of them are covered. -/
def conditioned (p : PBEEnumSize) (trueOutputs : List ℕ) (cond : Term 64) (st : State) : State :=
  { st with
    uncoveredEquivClasses := (splitECs p trueOutputs st).1
    ecCounter := (splitECs p trueOutputs st).2
    conditions := st.conditions ++ [cond, cond] }

variable {trueOutputs : List ℕ}

theorem pieces_of_mem (h : p.Separates selected st)
    (htrue : ∀ i ∈ st.outsider, i ∈ trueOutputs ↔ p.IsTrue selected cond i)
    {ec : ℕ × Part ℕ ℕ} (hec : ec ∈ st.uncoveredEquivClasses) :
  Pieces (p.answer selected (st.conditions ++ [cond, cond])) ec.2
    (pieces trueOutputs st.conditions.length ec.2)
  := by
  apply pieces_spec (h.splits.nonempty _ (mem_classes.mpr (.inr ⟨ec, hec, rfl⟩)))
  intro i hi
  apply answer_append_self
  · rw [h.uncovered ec hec, ← h.even]
  · apply htrue i ((h.outsider i).mpr ⟨ec, hec, hi⟩)

theorem splits_conditioned (h : p.Separates selected st)
    (htrue : ∀ i ∈ st.outsider, i ∈ trueOutputs ↔ p.IsTrue selected cond i) :
  Splits (p.answer selected (st.conditions ++ [cond, cond])) { i | i < selected.length }
    (classes (conditioned p trueOutputs cond st))
  := by
  have hlen : ∀ P ∈ classes st, P.path.length ≤ st.conditions.length / 2 := by
    intro P hP
    rcases mem_classes.mp hP with hP | ⟨ec, hec, rfl⟩
    · apply (h.covered P hP).1
    · exact (h.uncovered ec hec).le
  have hcongr := h.splits.congr (p.answer selected (st.conditions ++ [cond, cond]))
    fun P hP i _ j hj => by
      apply answer_append_of_lt
      have := hlen P hP
      omega
  have hperm : (classes st).Perm
      ((p.arrange st.uncoveredEquivClasses).map Prod.snd ++ st.coveredEquivClasses) := by
    apply List.perm_append_comm.trans
    apply List.Perm.append_right
    apply (p.perm st.uncoveredEquivClasses).symm.map
  have hsplit := (hcongr.perm hperm).flatMap (pieces trueOutputs st.conditions.length)
    fun P hP => by
      obtain ⟨ec, hec, rfl⟩ := List.mem_map.mp hP
      apply pieces_of_mem h htrue ((p.perm st.uncoveredEquivClasses).mem_iff.mp hec)
  rw [← map_splitECs] at hsplit
  apply hsplit.perm List.perm_append_comm

theorem Separates.conditioned (h : p.Separates selected st)
    (hcond : ∀ i ∈ st.outsider, p.Evaluated selected cond i)
    (htrue : ∀ i ∈ st.outsider, i ∈ trueOutputs ↔ p.IsTrue selected cond i)
    (hsome : ∃ i ∈ st.outsider, i ∈ trueOutputs) (hnot : ∃ i ∈ st.outsider, i ∉ trueOutputs) :
  p.Separates selected (conditioned p trueOutputs cond st)
  where
  splits := splits_conditioned h htrue
  evaluated := by
    intro P hP i hi j hj
    have hold : ∀ Q ∈ classes st, i ∈ Q.members → j < Q.path.length → ∃ cond',
        (st.conditions ++ [cond, cond])[2 * j]? = some cond' ∧
          p.Evaluated selected cond' i := by
      intro Q hQ hi hj
      obtain ⟨cond', hget, hv⟩ := h.evaluated Q hQ i hi j hj
      refine ⟨cond', ?_, hv⟩
      rw [List.getElem?_append_left (List.getElem?_eq_some_iff.mp hget).1, hget]
    rcases mem_classes.mp hP with hP | hP
    · apply hold P (mem_classes.mpr (.inl hP)) hi hj
    · obtain ⟨ec, hec, hpiece⟩ := mem_splitECs.mp hP
      have hpieces := pieces_of_mem h htrue hec
      have hmem := (hpieces.cover i).mpr ⟨P, hpiece, hi⟩
      obtain ⟨k, hpath, -⟩ := hpieces.answers P hpiece
      rw [hpath, List.length_append, List.length_singleton] at hj
      rcases Nat.lt_succ_iff_lt_or_eq.mp hj with hj | rfl
      · apply hold ec.2 (mem_classes.mpr (.inr ⟨ec, hec, rfl⟩)) hmem hj
      · refine ⟨cond, ?_, hcond i ((h.outsider i).mpr ⟨ec, hec, hmem⟩)⟩
        have hlen : st.conditions.length = 2 * ec.2.path.length := by
          rw [h.uncovered ec hec, ← h.even]
        rw [← hlen]
        exact List.getElem?_append_right (le_refl _) |>.trans (by rw [Nat.sub_self]; rfl)
  even := by
    have := h.even
    simp only [PBEEnumSize.conditioned, List.length_append, List.length_cons, List.length_nil]
    omega
  uncovered := by
    intro ec hec
    obtain ⟨ec', hec', hpiece⟩ := mem_splitECs.mp ⟨ec, hec, rfl⟩
    obtain ⟨k, hpath, -⟩ := (pieces_of_mem h htrue hec').answers ec.2 hpiece
    have hlen := h.uncovered ec' hec'
    rw [hpath]
    simp only [PBEEnumSize.conditioned, List.length_append, List.length_cons, List.length_nil, hlen]
    omega
  covered := by
    intro P hP
    obtain ⟨hlen, hc⟩ := h.covered P hP
    refine ⟨?_, hc⟩
    simp only [PBEEnumSize.conditioned, List.length_append, List.length_cons, List.length_nil]
    omega
  outsider := by
    intro i
    have hmem : (∃ ec ∈ (splitECs p trueOutputs st).1, i ∈ ec.2.members) ↔
        ∃ P, (∃ ec ∈ (splitECs p trueOutputs st).1, ec.2 = P) ∧ i ∈ P.members := by
      constructor
      · rintro ⟨ec, hec, hi⟩
        exact ⟨ec.2, ⟨ec, hec, rfl⟩, hi⟩
      · rintro ⟨_, ⟨ec, hec, rfl⟩, hi⟩
        exact ⟨ec, hec, hi⟩
    change i ∈ st.outsider ↔ ∃ ec ∈ (splitECs p trueOutputs st).1, i ∈ ec.2.members
    simp only [hmem, mem_splitECs, h.outsider]
    constructor
    · rintro ⟨ec, hec, hi⟩
      obtain ⟨P, hP, hi⟩ := ((pieces_of_mem h htrue hec).cover i).mp hi
      exact ⟨P, ⟨ec, hec, hP⟩, hi⟩
    · rintro ⟨P, ⟨ec, hec, hP⟩, hi⟩
      exact ⟨ec, hec, ((pieces_of_mem h htrue hec).cover i).mpr ⟨P, hP, hi⟩⟩
  divides := by
    intro cond' hcond'
    cases hconditions : st.conditions with
    | nil =>
        have heq : cond = cond' := by
          rw [PBEEnumSize.conditioned, hconditions] at hcond'
          cases hcond'
          rfl
        subst heq
        obtain ⟨i, hi, hmem⟩ := hsome
        obtain ⟨j, hj, hmem'⟩ := hnot
        exact ⟨⟨i, h.lt_length hi, (htrue i hi).mp hmem⟩,
          ⟨j, h.lt_length hj, fun hj' => hmem' ((htrue j hj).mpr hj')⟩⟩
    | cons c l =>
        apply h.divides cond'
        rw [PBEEnumSize.conditioned, hconditions] at hcond'
        rw [hconditions]
        exact hcond'

end NewCondition

/-- The fields that `updateECs` changes. -/
def Reclassified (st st' : State) : Prop :=
  ∃ outsider uncoveredEquivClasses ecCounter coveredEquivClasses conditions, st' = { st with
    outsider := outsider
    uncoveredEquivClasses := uncoveredEquivClasses
    ecCounter := ecCounter
    coveredEquivClasses := coveredEquivClasses
    conditions := conditions }

theorem updateECs_spec (h : p.Separates selected st) {outputs : Outputs} {cond : Term 64}
    (houtputs : ∀ i ∈ st.outsider, ∀ w, (outputs[i]?).join = some w → ∃ v,
      p.Computes selected cond i v ∧
        p.pbeDispatch p.branchCombinator.termSyb [some v, some 1, some 0] = .ok (some w))
    {st' : State} (hupdate : p.updateECs outputs cond st = .ok st') :
  p.Separates selected st' ∧ Later st st' ∧ Reclassified st st' ∧
    (∀ cond' ∈ st'.conditions, cond' ∈ st.conditions ∨ cond' = cond) ∧
    (p.Incomplete selected st → Asked st → Asked st')
  := by
  have hsame : p.Separates selected st ∧ Later st st ∧ Reclassified st st ∧
      (∀ cond' ∈ st.conditions, cond' ∈ st.conditions ∨ cond' = cond) ∧
      (p.Incomplete selected st → Asked st → Asked st) :=
    ⟨h, .refl st, ⟨_, _, _, _, _, rfl⟩, fun _ => .inl, fun _ hasked => hasked⟩
  rw [updateECs] at hupdate
  split at hupdate
  next => cases hupdate
  next hnull =>
      dsimp only at hupdate
      split at hupdate
      next =>
          cases hupdate
          exact hsame
      next hsplit =>
          split at hupdate
          next =>
              cases hupdate
              exact hsame
          next =>
              cases hupdate
              have hw : ∀ i ∈ st.outsider, ∃ w, (outputs[i]?).join = some w := by
                intro i hi
                apply Option.ne_none_iff_exists'.mp
                intro hnone
                apply hnull
                rw [List.any_eq_true]
                exact ⟨i, hi, decide_eq_true hnone⟩
              have htrue : ∀ i ∈ st.outsider,
                  i ∈ st.outsider.filter (fun i => (outputs[i]?).join = some 1) ↔
                    p.IsTrue selected cond i := by
                intro i hi
                obtain ⟨w, hw⟩ := hw i hi
                obtain ⟨v, hv, hdispatch⟩ := houtputs i hi w hw
                rw [List.mem_filter, decide_eq_true_iff, hw, Option.some.injEq]
                constructor
                · rintro ⟨-, rfl⟩
                  exact ⟨v, hv, hdispatch⟩
                · rintro ⟨v', hv', hone⟩
                  rw [hv'.unique hv, hdispatch] at hone
                  cases hone
                  exact ⟨hi, rfl⟩
              have hcond : ∀ i ∈ st.outsider, p.Evaluated selected cond i := by
                intro i hi
                obtain ⟨w, hw⟩ := hw i hi
                obtain ⟨v, hv, hdispatch⟩ := houtputs i hi w hw
                exact ⟨v, w, hv, hdispatch⟩
              obtain ⟨hzero, hall⟩ := not_or.mp hsplit
              have hsome : ∃ i ∈ st.outsider,
                  i ∈ st.outsider.filter (fun i => (outputs[i]?).join = some 1) := by
                obtain ⟨i, hi⟩ := List.exists_mem_of_length_pos (Nat.pos_of_ne_zero hzero)
                exact ⟨i, List.mem_of_mem_filter hi, hi⟩
              have hnot : ∃ i ∈ st.outsider,
                  i ∉ st.outsider.filter (fun i => (outputs[i]?).join = some 1) := by
                by_contra hmem
                push Not at hmem
                apply hall
                rw [List.filter_eq_self.mpr]
                intro i hi
                apply (List.mem_filter.mp (hmem i hi)).2
              have hconditioned := h.conditioned hcond htrue hsome hnot
              refine ⟨hconditioned.updateCoveredECs, ?_, ⟨_, _, _, _, _, rfl⟩, ?_, ?_⟩
              · apply Later.trans _ (later_updateCoveredECs p _)
                exact ⟨fun _ hi => hi, fun c hc => ⟨c, hc, List.Subset.refl _⟩⟩
              · intro cond' hcond'
                rcases List.mem_append.mp hcond' with hcond' | hcond'
                · exact .inl hcond'
                · simp only [List.mem_cons, List.not_mem_nil, or_false, or_self] at hcond'
                  exact .inr hcond'
              · intro hinc hasked
                apply asked_updateCoveredECs hconditioned hinc hasked

end PBEEnumSize

end DryadSynth
