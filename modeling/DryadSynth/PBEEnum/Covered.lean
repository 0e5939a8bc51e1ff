import DryadSynth.PBEEnum.Values

/-!
# The examples that are covered

`verifyOutput` records for a new expression on which of the selected examples it is right.  A
record that is contained in another one is dropped.  As long as no expression is right on all
examples, what the records cover does not shrink, `verifyOutput_spec`: an expression that was
recorded before is right, among the examples that still need an output, only where it was.
-/

namespace DryadSynth

open QFBV (Term)

open TermEquality

namespace PBEEnumSize

variable (p : PBEEnumSize) (selected : List (Fin p.input.length))

/-- The expression gives the expected output of an example. -/
def Right (e : Term 64) (i : ℕ) : Prop :=
  ∃ v, p.Computes selected e i v ∧ (p.sampleOutput selected)[i]? = some (toUnsignedString v)

/-- What the records of the covered examples say. -/
structure Records (st : State) : Prop where
  nodup : st.coveredExample.Nodup
  bound : ∀ i ∈ st.coveredExample, i < selected.length
  recorded : ∀ i ∈ st.coveredExample, ∃ c ∈ st.covered, i ∈ c.2
  right : ∀ c ∈ st.covered, ∃ e, st.coveredExpr[c.1]? = some e ∧
    ∀ i ∈ c.2, i < selected.length ∧ p.Right selected e i
  kept : ∀ e ∈ st.coveredExpr, ∃ c ∈ st.covered, ∀ i < selected.length, p.Right selected e i →
    containsVar p.varNames e = false ∨ needed st i = true → i ∈ c.2

/-- No expression was right on all examples. -/
def Incomplete (st : State) : Prop := ∀ c ∈ st.covered, ∃ i < selected.length, i ∉ c.2

/-- The examples that need no output go on to need none, and what is covered by an expression
remains covered by one. -/
structure Later (st st' : State) : Prop where
  needed : ∀ i, needed st i = false → PBEEnumSize.needed st' i = false
  covered : ∀ c ∈ st.covered, ∃ c' ∈ st'.covered, c.2 ⊆ c'.2

section Later

variable {st st' st'' : State}

theorem Later.refl (st : State) :
  Later st st
  where
  needed _ h := h
  covered c hc := ⟨c, hc, List.Subset.refl _⟩

theorem Later.trans (h : Later st st') (h' : Later st' st'') :
  Later st st''
  where
  needed i hi := h'.needed i (h.needed i hi)
  covered c hc := by
    obtain ⟨c', hc', hsub⟩ := h.covered c hc
    obtain ⟨c'', hc'', hsub'⟩ := h'.covered c' hc'
    exact ⟨c'', hc'', List.Subset.trans hsub hsub'⟩

theorem needed_eq_false {i : ℕ} :
  needed st i = false ↔ i ∉ st.outsider ∧ i ∈ st.coveredExample
  := by
  rw [needed, decide_eq_false_iff_not, not_or, not_not]

/-- Fewer outsiders and more covered examples. -/
theorem needed_mono (houtsider : st'.outsider ⊆ st.outsider)
    (hcovered : st.coveredExample ⊆ st'.coveredExample) {i : ℕ} (h : needed st i = false) :
  needed st' i = false
  := by
  rw [needed_eq_false] at h ⊢
  exact ⟨fun hi => h.1 (houtsider hi), hcovered h.2⟩

end Later

variable {p selected} {st : State} {outputs : Outputs} {e : Term 64}

theorem isExpected_iff {i : ℕ} :
  p.isExpected selected outputs i = true ↔
    ∃ v, outputs[i]? = some (some v) ∧
      (p.sampleOutput selected)[i]? = some (toUnsignedString v)
  := by
  rw [isExpected]
  rcases hout : outputs[i]? with _ | _ | v
  · simp
  · simp
  · simp

/-- The examples on which `verifyOutput` finds an expression right. -/
def coveredOutputs (p : PBEEnumSize) (selected : List (Fin p.input.length)) (outputs : Outputs) :
    List ℕ :=
  (List.range outputs.length).filter (p.isExpected selected outputs)

theorem mem_coveredOutputs (hvalid : p.Valid selected st outputs e) {i : ℕ}
    (hi : i ∈ coveredOutputs p selected outputs) :
  i < selected.length ∧ p.Right selected e i ∧ ∃ v, outputs[i]? = some (some v)
  := by
  rw [coveredOutputs, List.mem_filter, List.mem_range, hvalid.length, isExpected_iff] at hi
  obtain ⟨hi, v, hv, hexpected⟩ := hi
  refine ⟨hi, ?_, v, hv⟩
  rcases hvalid.values i hi with ⟨w, hw, hcomputes⟩ | ⟨hnull, -⟩
  · rw [hv] at hw
    cases hw
    exact ⟨v, hcomputes, hexpected⟩
  · rw [hv] at hnull
    cases hnull

theorem mem_coveredOutputs_of_right (hvalid : p.Valid selected st outputs e) {i : ℕ}
    (hi : i < selected.length) (hright : p.Right selected e i)
    (hout : containsVar p.varNames e = false ∨ needed st i = true) :
  i ∈ coveredOutputs p selected outputs
  := by
  obtain ⟨v, hv, hexpected⟩ := hright
  rw [coveredOutputs, List.mem_filter, List.mem_range, hvalid.length, isExpected_iff]
  refine ⟨hi, v, ?_, hexpected⟩
  rcases hvalid.values i hi with ⟨w, hw, hcomputes⟩ | ⟨-, hvar, hneeded⟩
  · rw [hcomputes.unique hv] at hw
    exact hw
  · rcases hout with hconst | hout
    · rw [hconst] at hvar
      cases hvar
    · rw [hout] at hneeded
      cases hneeded

theorem nodup_coveredOutputs (p : PBEEnumSize) (selected : List (Fin p.input.length))
    (outputs : Outputs) :
  (coveredOutputs p selected outputs).Nodup
  := List.nodup_range.filter _

/-- An entry for a new key comes last. -/
theorem put_of_not_mem {κ α : Type} [DecidableEq κ] {m : List (κ × α)} {k : κ}
    (hk : k ∉ m.map Prod.fst) (a : α) :
  put m k a = m ++ [(k, a)]
  := by
  rw [put, if_neg hk]

/-- The examples on which an expression is right are covered as well. -/
theorem Records.example (h : p.Records selected st) (hvalid : p.Valid selected st outputs e)
    (st' : State) (hcovered : st'.covered = st.covered) (hexpr : st'.coveredExpr = st.coveredExpr)
    (houtsider : st'.outsider = st.outsider)
    (hrecorded : ∀ i ∈ coveredOutputs p selected outputs, ∃ c ∈ st.covered, i ∈ c.2)
    (hexample : st'.coveredExample = st.coveredExample ++
      (coveredOutputs p selected outputs).filter fun i => i ∉ st.coveredExample) :
  p.Records selected st' ∧ Later st st'
  := by
  have hlater : Later st st' := by
    constructor
    · intro i hi
      apply needed_mono _ _ hi
      · rw [houtsider]
        exact List.Subset.refl _
      · rw [hexample]
        exact List.subset_append_left _ _
    · intro c hc
      rw [hcovered]
      exact ⟨c, hc, List.Subset.refl _⟩
  refine ⟨⟨?_, ?_, ?_, ?_, ?_⟩, hlater⟩
  · rw [hexample, List.nodup_append]
    refine ⟨h.nodup, (nodup_coveredOutputs p selected outputs).filter _, ?_⟩
    rintro i hi _ hj rfl
    simp [hi] at hj
  · intro i hi
    rw [hexample] at hi
    rcases List.mem_append.mp hi with hi | hi
    · apply h.bound i hi
    · apply (mem_coveredOutputs hvalid (List.mem_filter.mp hi).1).1
  · intro i hi
    rw [hexample] at hi
    rw [hcovered]
    rcases List.mem_append.mp hi with hi | hi
    · apply h.recorded i hi
    · apply hrecorded i (List.mem_filter.mp hi).1
  · rw [hcovered, hexpr]
    exact h.right
  · intro e' he'
    rw [hexpr] at he'
    obtain ⟨c, hc, hkept⟩ := h.kept e' he'
    rw [hcovered]
    refine ⟨c, hc, ?_⟩
    intro i hi hright hout
    apply hkept i hi hright
    rcases hout with hconst | hneeded
    · exact .inl hconst
    · right
      by_contra hnot
      rw [hlater.needed i (Bool.not_eq_true _ ▸ hnot)] at hneeded
      cases hneeded

/-- An expression that is recorded before is no news. -/
theorem Records.not_mem (h : p.Records selected st) (hvalid : p.Valid selected st outputs e)
    (hexact : ∀ i v, outputs[i]? = some (some v) →
      containsVar p.varNames e = false ∨ needed st i = true)
    (hnew : ∀ c ∈ st.covered, ¬ coveredOutputs p selected outputs ⊆ c.2) :
  e ∉ st.coveredExpr
  := by
  intro hmem
  obtain ⟨c, hc, hkept⟩ := h.kept e hmem
  apply hnew c hc
  intro i hi
  obtain ⟨hlt, hright, v, hv⟩ := mem_coveredOutputs hvalid hi
  apply hkept i hlt hright (hexact i v hv)

/-- A new record replaces those that it contains. -/
theorem Records.record (h : p.Records selected st) (hvalid : p.Valid selected st outputs e)
    (hmem : e ∉ st.coveredExpr) {st' : State}
    (hst : st' = { st with
      covered := put (st.covered.filter fun c => ¬ c.2 ⊆ coveredOutputs p selected outputs)
        ((st.coveredExpr ++ [e]).idxOf e) (coveredOutputs p selected outputs)
      coveredExpr := st.coveredExpr ++ [e] }) :
  p.Records selected st' ∧ Later st st' ∧
    st'.covered = (st.covered.filter fun c => ¬ c.2 ⊆ coveredOutputs p selected outputs)
      ++ [(st.coveredExpr.length, coveredOutputs p selected outputs)]
  := by
  have hidx : (st.coveredExpr ++ [e]).idxOf e = st.coveredExpr.length := by
    rw [List.idxOf_append_of_notMem hmem, List.idxOf_cons_self, Nat.add_zero]
  have hput : st'.covered = (st.covered.filter fun c => ¬ c.2 ⊆ coveredOutputs p selected outputs)
      ++ [(st.coveredExpr.length, coveredOutputs p selected outputs)] := by
    rw [hst, hidx]
    apply put_of_not_mem
    intro hkey
    obtain ⟨c, hc, hkey⟩ := List.mem_map.mp hkey
    obtain ⟨e', he', -⟩ := h.right c (List.mem_of_mem_filter hc)
    have := (List.getElem?_eq_some_iff.mp he').1
    omega
  have hkeeps : ∀ c ∈ st.covered, ∃ c' ∈ st'.covered, c.2 ⊆ c'.2 := by
    intro c hc
    rw [hput]
    by_cases hsub : c.2 ⊆ coveredOutputs p selected outputs
    · exact ⟨_, List.mem_append_right _ (List.mem_singleton_self _), hsub⟩
    · refine ⟨c, List.mem_append_left _ (List.mem_filter.mpr ⟨hc, ?_⟩), List.Subset.refl _⟩
      simpa using hsub
  have hexample : st'.coveredExample = st.coveredExample := by rw [hst]
  have hexpr : st'.coveredExpr = st.coveredExpr ++ [e] := by rw [hst]
  have hneeded : ∀ i, needed st' i = needed st i := by
    intro i
    rw [hst]
    rfl
  refine ⟨⟨?_, ?_, ?_, ?_, ?_⟩, ⟨fun i hi => by rw [hneeded, hi], hkeeps⟩, hput⟩
  · rw [hexample]
    exact h.nodup
  · rw [hexample]
    exact h.bound
  · intro i hi
    rw [hexample] at hi
    obtain ⟨c, hc, hmem⟩ := h.recorded i hi
    obtain ⟨c', hc', hsub⟩ := hkeeps c hc
    exact ⟨c', hc', hsub hmem⟩
  · intro c hc
    rw [hput] at hc
    rw [hexpr]
    rcases List.mem_append.mp hc with hc | hc
    · obtain ⟨e', he', hright⟩ := h.right c (List.mem_of_mem_filter hc)
      refine ⟨e', ?_, hright⟩
      rw [List.getElem?_append_left (List.getElem?_eq_some_iff.mp he').1, he']
    · rw [List.mem_singleton] at hc
      rw [hc]
      refine ⟨e, List.getElem?_concat_length, ?_⟩
      intro i hi
      obtain ⟨hlt, hright, -⟩ := mem_coveredOutputs hvalid hi
      exact ⟨hlt, hright⟩
  · intro e' he'
    rw [hexpr] at he'
    rcases List.mem_append.mp he' with he' | he'
    · obtain ⟨c, hc, hkept⟩ := h.kept e' he'
      obtain ⟨c', hc', hsub⟩ := hkeeps c hc
      refine ⟨c', hc', ?_⟩
      intro i hi hright hout
      rw [hneeded] at hout
      apply hsub (hkept i hi hright hout)
    · rw [List.mem_singleton] at he'
      rw [he', hput]
      refine ⟨_, List.mem_append_right _ (List.mem_singleton_self _), ?_⟩
      intro i hi hright hout
      rw [hneeded] at hout
      apply mem_coveredOutputs_of_right hvalid hi hright hout

/-- The fields that `verifyOutput` changes. -/
def Rerecorded (st st' : State) : Prop :=
  ∃ covered coveredExpr coveredExample, st' = { st with
    covered := covered
    coveredExpr := coveredExpr
    coveredExample := coveredExample }

theorem verifyOutput_spec (h : p.Records selected st) (hvalid : p.Valid selected st outputs e)
    (hexact : ∀ i v, outputs[i]? = some (some v) →
      containsVar p.varNames e = false ∨ needed st i = true) {result : Bool} {st' : State}
    (hverify : p.verifyOutput selected outputs e st = (result, st')) :
  p.Records selected st' ∧ Later st st' ∧ Rerecorded st st' ∧
    (∀ e' ∈ st'.coveredExpr, e' ∈ st.coveredExpr ∨ e' = e) ∧
    (result = true → ∀ i < selected.length, p.Right selected e i) ∧
    (result = false → p.Incomplete selected st → p.Incomplete selected st')
  := by
  have hresult : (p.verifyOutput selected outputs e st).1
      = decide ((coveredOutputs p selected outputs).length = outputs.length) := by
    rw [verifyOutput]
    dsimp only
    split
    · rfl
    · split <;> rfl
  have hall : result = true → ∀ i < selected.length, p.Right selected e i := by
    intro htrue i hi
    rw [hverify, htrue, eq_comm, decide_eq_true_iff] at hresult
    have hfilter : coveredOutputs p selected outputs = List.range outputs.length := by
      apply List.filter_sublist.eq_of_length
      rw [List.length_range]
      exact hresult
    have hmem : i ∈ coveredOutputs p selected outputs := by
      rw [hfilter, List.mem_range, hvalid.length]
      exact hi
    apply (mem_coveredOutputs hvalid hmem).2.1
  rw [verifyOutput] at hverify
  dsimp only at hverify
  rw [← coveredOutputs] at hverify
  split at hverify
  next hnone =>
      cases hverify
      obtain ⟨hrecords, hlater⟩ := h.example hvalid { st with
        coveredExample := st.coveredExample ++
          (coveredOutputs p selected outputs).filter fun i => i ∉ st.coveredExample }
        rfl rfl rfl (by simp [hnone]) rfl
      exact ⟨hrecords, hlater, ⟨_, _, _, rfl⟩, fun _ => .inl, hall, fun _ hinc => hinc⟩
  next hsome =>
      split at hverify
      next hold =>
          cases hverify
          have hold' : ∃ c ∈ st.covered, coveredOutputs p selected outputs ⊆ c.2 := by
            simpa using hold
          obtain ⟨c, hc, hsub⟩ := hold'
          obtain ⟨hrecords, hlater⟩ := h.example hvalid { st with
            coveredExample := st.coveredExample ++
              (coveredOutputs p selected outputs).filter fun i => i ∉ st.coveredExample }
            rfl rfl rfl (fun i hi => ⟨c, hc, hsub hi⟩) rfl
          exact ⟨hrecords, hlater, ⟨_, _, _, rfl⟩, fun _ => .inl, hall, fun _ hinc => hinc⟩
      next hnew =>
          cases hverify
          have hnew' : ∀ c ∈ st.covered, ¬ coveredOutputs p selected outputs ⊆ c.2 := by
            simpa using hnew
          obtain ⟨hrecord, hlater, hput⟩ :=
            h.record hvalid (h.not_mem hvalid hexact hnew') rfl
          obtain ⟨hrecords, hlater'⟩ := hrecord.example (hvalid.mono fun _ hi => hi) { st with
            coveredExample := st.coveredExample ++
              (coveredOutputs p selected outputs).filter fun i => i ∉ st.coveredExample
            covered := put (st.covered.filter fun c => ¬ c.2 ⊆ coveredOutputs p selected outputs)
              ((st.coveredExpr ++ [e]).idxOf e) (coveredOutputs p selected outputs)
            coveredExpr := st.coveredExpr ++ [e] } rfl rfl rfl
            (fun i hi => ⟨_, hput ▸ List.mem_append_right _ (List.mem_singleton_self _), hi⟩) rfl
          refine ⟨hrecords, hlater.trans hlater', ⟨_, _, _, rfl⟩, by simp, hall, ?_⟩
          intro hfalse hinc c hc
          have hc : c ∈ (st.covered.filter fun c => ¬ c.2 ⊆ coveredOutputs p selected outputs)
              ++ [(st.coveredExpr.length, coveredOutputs p selected outputs)] := by
            rw [← hput]
            exact hc
          rcases List.mem_append.mp hc with hc | hc
          · apply hinc c (List.mem_of_mem_filter hc)
          · rw [List.mem_singleton] at hc
            rw [hc]
            by_contra hcomplete
            push Not at hcomplete
            apply of_decide_eq_false hfalse
            rw [coveredOutputs, List.filter_eq_self.mpr, List.length_range]
            intro i hi
            rw [List.mem_range, hvalid.length] at hi
            apply (List.mem_filter.mp (hcomplete i hi)).2

end PBEEnumSize

end DryadSynth
