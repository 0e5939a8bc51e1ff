import DryadSynth.PBEEnum.Classes

/-!
# A whole enumeration

What holds between two steps of `generate`, whatever the order in which the hash sets deliver their
elements: the stored outputs are those of the stored expressions, which are expressions of their
nonterminals, and the records and the classes are as in `Records` and `Separates`.  An enumeration
ends with an expression that is right on all selected examples, or with no outsider.
-/

namespace DryadSynth

open QFBV (Term)
open Splitting (Part Splits)
open Sygus.DnC (Rule)
open Exits (Ends)

open TermEquality

namespace PBEEnumSize

variable (p : PBEEnumSize) (selected : List (Fin p.input.length))

/-- The expressions of a nonterminal. -/
inductive Derives : String → Term 64 → Prop
  | terminal {nt r e} (hr : r ∈ p.grammar.rules nt) (hargs : r.args = [])
      (he : p.getSybExpr r.termSyb = .ok e) : Derives nt e
  | node {nt r e} {es : List (Term 64)} (hr : r ∈ p.grammar.rules nt) (hargs : r.args ≠ [])
      (hes : es.length = r.args.length) (hd : ∀ q ∈ r.args.zip es, Derives q.1 q.2)
      (he : p.opDis.dispatch r.termSyb es true true = .ok e) : Derives nt e

/-- What holds between two steps of an enumeration. -/
structure Good (st : State) : Prop where
  stored : ∀ nt, ∀ out ∈ st.exprStorage nt, p.Valid selected st out.1 out.2 ∧ p.Derives nt out.2
  keys : ∀ nt, ((st.exprStorage nt).map Prod.fst).Nodup
  records : p.Records selected st
  separates : p.Separates selected st
  coveredExpr : ∀ e ∈ st.coveredExpr, p.Derives p.start e
  conditions : ∀ cond ∈ st.conditions, ∃ nt ∈ p.branchCombinator.args.head?, p.Derives nt cond
  incomplete : st.definition = none → p.Incomplete selected st ∧ Asked st
  definition : ∀ e, st.definition = some e → p.Derives p.start e ∧
    ∀ i < selected.length, p.Right selected e i

/-- What holds when `generate` returns. -/
structure Returned (st : State) : Prop where
  good : p.Good selected st
  outsider : st.definition = none → st.outsider = []

variable {p selected} {st : State}

/-- The records of the examples, after some examples have lost their need of an output. -/
theorem Records.of_eq (h : p.Records selected st) {st' : State}
    (hcovered : st'.covered = st.covered) (hexpr : st'.coveredExpr = st.coveredExpr)
    (hexample : st'.coveredExample = st.coveredExample)
    (hneeded : ∀ i, needed st i = false → needed st' i = false) :
  p.Records selected st'
  where
  nodup := hexample ▸ h.nodup
  bound := hexample ▸ h.bound
  recorded := by
    rw [hexample, hcovered]
    exact h.recorded
  right := by
    rw [hcovered, hexpr]
    exact h.right
  kept := by
    rw [hcovered, hexpr]
    intro e he
    obtain ⟨c, hc, hkept⟩ := h.kept e he
    refine ⟨c, hc, ?_⟩
    intro i hi hright hout
    apply hkept i hi hright
    rcases hout with hconst | hout
    · exact .inl hconst
    · right
      by_contra hnot
      rw [hneeded i (Bool.not_eq_true _ ▸ hnot)] at hout
      cases hout

/-- The classes do not depend on the other fields. -/
theorem Separates.of_eq (h : p.Separates selected st) {st' : State}
    (hcoveredECs : st'.coveredEquivClasses = st.coveredEquivClasses)
    (huncoveredECs : st'.uncoveredEquivClasses = st.uncoveredEquivClasses)
    (hconditions : st'.conditions = st.conditions) (houtsider : st'.outsider = st.outsider)
    (hcovered : ∀ c ∈ st.covered, ∃ c' ∈ st'.covered, c.2 ⊆ c'.2) :
  p.Separates selected st'
  := by
  have hclasses : classes st' = classes st := by
    rw [classes, classes, hcoveredECs, huncoveredECs]
  constructor
  · rw [hclasses, hconditions]
    exact h.splits
  · rw [hclasses, hconditions]
    exact h.evaluated
  · rw [hconditions]
    exact h.even
  · rw [huncoveredECs, hconditions]
    exact h.uncovered
  · rw [hcoveredECs, hconditions]
    intro P hP
    obtain ⟨hlen, c, hc, hsub⟩ := h.covered P hP
    obtain ⟨c', hc', hsub'⟩ := hcovered c hc
    exact ⟨hlen, c', hc', List.Subset.trans hsub hsub'⟩
  · rw [houtsider, huncoveredECs]
    exact h.outsider
  · rw [hconditions]
    exact h.divides

/-! ### One expression -/

section Step

variable {nt : String} {hasVar : Bool} {outputs : Outputs} {e : Term 64} {st' : State}

/-- New outputs are stored with their expression. -/
theorem Good.stored_append (h : p.Good selected st) (hvalid : p.Valid selected st outputs e)
    (hderives : p.Derives nt e) (hnew : outputs ∉ (st.exprStorage nt).map Prod.fst) :
  p.Good selected { st with
    currNew := st.currNew ++ [outputs]
    exprStorage := Function.update st.exprStorage nt (st.exprStorage nt ++ [(outputs, e)]) }
  where
  stored := by
    intro nt' out hout
    dsimp only at hout
    by_cases hnt : nt' = nt
    · subst hnt
      rw [Function.update_self] at hout
      rcases List.mem_append.mp hout with hout | hout
      · obtain ⟨hout, hd⟩ := h.stored nt' out hout
        exact ⟨hout.mono fun _ hi => hi, hd⟩
      · rw [List.mem_singleton] at hout
        subst hout
        exact ⟨hvalid.mono fun _ hi => hi, hderives⟩
    · rw [Function.update_of_ne hnt] at hout
      obtain ⟨hout, hd⟩ := h.stored nt' out hout
      exact ⟨hout.mono fun _ hi => hi, hd⟩
  keys := by
    intro nt'
    by_cases hnt : nt' = nt
    · subst hnt
      dsimp only
      rw [Function.update_self]
      apply Lists.nodup_keys_concat (h.keys nt') hnew
    · dsimp only
      rw [Function.update_of_ne hnt]
      apply h.keys nt'
  records := h.records.of_eq rfl rfl rfl fun _ hi => hi
  separates := h.separates.of_eq rfl rfl rfl rfl fun c hc => ⟨c, hc, List.Subset.refl _⟩
  coveredExpr := h.coveredExpr
  conditions := h.conditions
  incomplete := h.incomplete
  definition := h.definition

/-- The branches that the outsiders take at a condition. -/
theorem branchOutputs_spec (hvalid : p.Valid selected st outputs e) {iteoutputs : Outputs}
    (h : p.branchOutputs st outputs true = .ok (some iteoutputs)) {i : ℕ}
    (hi : i < selected.length) (hmem : i ∈ st.outsider) {w : BitVec 64}
    (hw : (iteoutputs[i]?).join = some w) :
  ∃ v, p.Computes selected e i v ∧
    p.pbeDispatch p.branchCombinator.termSyb [some v, some 1, some 0] = .ok (some w)
  := by
  rw [branchOutputs] at h
  obtain ⟨-, hall⟩ := compute_var (by exact hvalid.length) h
  have hneeded : needed st i = true := by
    rw [needed, decide_eq_true_iff]
    exact .inl hmem
  obtain ⟨x, hx, hdispatch⟩ := hall i hi
  rw [if_pos hneeded] at hdispatch
  rw [hx] at hw
  obtain rfl : x = some w := hw
  rcases hvalid.values i hi with ⟨v, hv, hcomputes⟩ | ⟨-, -, hnot⟩
  · refine ⟨v, hcomputes, ?_⟩
    have hrow : row [outputs, outputs.map fun _ => some 1, outputs.map fun _ => some 0] i
        = [some v, some 1, some 0] := by
      simp only [row, List.map_cons, List.map_nil, List.getElem?_map, hv]
      rfl
    rw [← hrow]
    exact hdispatch
  · rw [hneeded] at hnot
    cases hnot

theorem store_spec (h : p.Good selected st) (hvalid : p.Valid selected st outputs e)
    (hderives : p.Derives nt e) (hnew : outputs ∉ (st.exprStorage nt).map Prod.fst)
    (hstore : p.store nt hasVar outputs e st = .ok st') :
  p.Good selected st' ∧ Later st st'
  := by
  have hgood := h.stored_append hvalid hderives hnew
  have hlater : Later st { st with
      currNew := st.currNew ++ [outputs]
      exprStorage := Function.update st.exprStorage nt (st.exprStorage nt ++ [(outputs, e)]) } :=
    ⟨fun _ hi => hi, fun c hc => ⟨c, hc, List.Subset.refl _⟩⟩
  rw [store] at hstore
  split at hstore
  next hcond =>
      obtain ⟨iteoutputs, hite, hstore⟩ := Exits.bind_eq_ok.mp hstore
      split at hstore
      next =>
          cases hstore
          exact ⟨hgood, hlater⟩
      next iteoutputs =>
          obtain ⟨hseparates, hlater', ⟨_, _, _, _, _, rfl⟩, hconditions, hasked⟩ :=
            updateECs_spec hgood.separates (fun i hi w hw =>
              branchOutputs_spec (hvalid.mono hlater.needed) hite
                (hgood.separates.lt_length hi) hi hw) hstore
          refine ⟨⟨?_, hgood.keys, ?_, hseparates, hgood.coveredExpr, ?_, ?_, hgood.definition⟩,
            hlater.trans hlater'⟩
          · intro nt' out hout
            obtain ⟨hout, hd⟩ := hgood.stored nt' out hout
            exact ⟨hout.mono hlater'.needed, hd⟩
          · exact hgood.records.of_eq rfl rfl rfl hlater'.needed
          · intro cond hmem
            rcases hconditions cond hmem with hmem | rfl
            · apply hgood.conditions cond hmem
            · exact ⟨nt, hcond.2, hderives⟩
          · intro hdefinition
            obtain ⟨hinc, hasked'⟩ := hgood.incomplete hdefinition
            exact ⟨hinc, hasked hinc hasked'⟩
  next =>
      cases hstore
      exact ⟨hgood, hlater⟩

theorem verified_spec (h : p.Good selected st) (hvalid : p.Valid selected st outputs e)
    (hexact : ∀ i v, outputs[i]? = some (some v) →
      containsVar p.varNames e = false ∨ needed st i = true) (hderives : p.Derives p.start e)
    {result : Bool} (hverify : p.verifyOutput selected outputs e st = (result, st')) :
  Later st st' ∧ Rerecorded st st' ∧ (result = false → p.Good selected st') ∧
    (result = true → p.Good selected { st' with definition := some e })
  := by
  obtain ⟨hrecords, hlater, hfields, hexpr, htrue, hfalse⟩ :=
    verifyOutput_spec h.records hvalid hexact hverify
  refine ⟨hlater, hfields, ?_, ?_⟩
  · intro hresult
    obtain ⟨_, _, _, rfl⟩ := hfields
    refine ⟨?_, h.keys, hrecords, h.separates.of_eq rfl rfl rfl rfl hlater.covered, ?_,
      h.conditions, ?_, h.definition⟩
    · intro nt' out hout
      obtain ⟨hout, hd⟩ := h.stored nt' out hout
      exact ⟨hout.mono hlater.needed, hd⟩
    · intro e' he'
      rcases hexpr e' he' with he' | rfl
      · apply h.coveredExpr e' he'
      · exact hderives
    · intro hdefinition
      obtain ⟨hinc, hasked⟩ := h.incomplete hdefinition
      exact ⟨hfalse hresult hinc, hasked⟩
  · intro hresult
    obtain ⟨_, _, _, rfl⟩ := hfields
    refine ⟨?_, h.keys, hrecords.of_eq rfl rfl rfl fun _ hi => hi,
      h.separates.of_eq rfl rfl rfl rfl hlater.covered, ?_, h.conditions, ?_, ?_⟩
    · intro nt' out hout
      obtain ⟨hout, hd⟩ := h.stored nt' out hout
      exact ⟨hout.mono hlater.needed, hd⟩
    · intro e' he'
      rcases hexpr e' he' with he' | rfl
      · apply h.coveredExpr e' he'
      · exact hderives
    · intro hdefinition
      cases hdefinition
    · intro e' he'
      cases he'
      exact ⟨hderives, htrue hresult⟩

theorem consider_spec (h : p.Good selected st) (hvalid : p.Valid selected st outputs e)
    (hexact : ∀ i v, outputs[i]? = some (some v) →
      containsVar p.varNames e = false ∨ needed st i = true) (hderives : p.Derives nt e)
    (hconsider : p.consider selected nt hasVar outputs e st = .ok st') :
  p.Good selected st' ∧ Later st st'
  := by
  rw [consider] at hconsider
  split at hconsider
  next =>
      cases hconsider
      exact ⟨h, .refl st⟩
  next hnew =>
      split at hconsider
      next hstart =>
          obtain ⟨-, rfl⟩ := hstart
          split at hconsider
          next st₁ hverify =>
              cases hconsider
              obtain ⟨hlater, -, -, hgood⟩ := verified_spec h hvalid hexact hderives hverify
              exact ⟨hgood rfl, hlater.needed, hlater.covered⟩
          next st₁ hverify =>
              obtain ⟨hlater, ⟨_, _, _, rfl⟩, hgood, -⟩ :=
                verified_spec h hvalid hexact hderives hverify
              obtain ⟨hgood', hlater'⟩ :=
                store_spec (hgood rfl) (hvalid.mono hlater.needed) hderives hnew hconsider
              exact ⟨hgood', hlater.trans hlater'⟩
      next => exact store_spec h hvalid hderives hnew hconsider

theorem combine_spec (hfresh : p.opDis.FreshNames) (h : p.Good selected st) {rule : Rule}
    (hrule : rule ∈ p.grammar.rules nt) (hargs : rule.args ≠ []) {comb : List Outputs}
    {operands : List (Term 64)} (hvalid : List.Forall₂ (p.Valid selected st) comb operands)
    (hderives : List.Forall₂ p.Derives rule.args operands)
    (hcombine : p.combine selected rule nt comb operands st = .ok st') :
  p.Good selected st' ∧ Later st st'
  := by
  have hne := Lists.ne_nil_of_forall₂ hderives hargs
  rw [combine] at hcombine
  obtain ⟨e, he, hcombine⟩ := Exits.bind_eq_ok.mp hcombine
  have hd : p.Derives nt e := by
    apply Derives.node hrule hargs hderives.length_eq.symm _ he
    intro q hq
    apply (List.forall₂_iff_zip.mp hderives).2 hq
  dsimp only at hcombine
  split at hcombine
  next =>
      cases hcombine
      exact ⟨h, .refl st⟩
  next => cases hcombine
  next => cases hcombine
  next outputs hcompute =>
      obtain ⟨hvalid, hexact⟩ := compute_spec hfresh hvalid hne he hcompute
      exact consider_spec h hvalid hexact hd hcombine

end Step

/-! ### All combinations -/

theorem exprOf_eq_ok {nt : String} {input : Outputs} {e : Term 64}
    (h : exprOf st nt input = .ok e) :
  (input, e) ∈ st.exprStorage nt
  := by
  rw [exprOf] at h
  split at h
  next e' hlookup =>
      cases h
      obtain ⟨l, l', heq, -⟩ := List.lookup_eq_some_iff.mp hlookup
      rw [heq]
      exact List.mem_append_right l List.mem_cons_self
  next => cases h

theorem genOutputCombsHelper_spec (hfresh : p.opDis.FreshNames) {rule : Rule} {nt : String}
    (hrule : rule ∈ p.grammar.rules nt) (hargs : rule.args ≠ []) {places : List (ℕ × String)}
    {symbols : List String} (hsymbols : symbols ++ places.map Prod.snd = rule.args)
    {first : Bool} {comb : List Outputs} {operands : List (Term 64)} {avoidSymm : List Outputs}
    (h : p.Good selected st) (hvalid : List.Forall₂ (p.Valid selected st) comb operands)
    (hderives : List.Forall₂ p.Derives symbols operands) {st' : State}
    (hhelper : p.genOutputCombsHelper selected rule nt places first comb operands avoidSymm st
      = .ok st') :
  p.Good selected st' ∧ Later st st'
  := by
  induction places generalizing symbols first comb operands avoidSymm st st' with
  | nil =>
      rw [genOutputCombsHelper] at hhelper
      split at hhelper
      · cases hhelper
        exact ⟨h, .refl st⟩
      · rw [List.map_nil, List.append_nil] at hsymbols
        rw [hsymbols] at hderives
        exact combine_spec hfresh h hrule hargs hvalid hderives hhelper
  | cons place places ih =>
      rw [genOutputCombsHelper] at hhelper
      split at hhelper
      · cases hhelper
        exact ⟨h, .refl st⟩
      · obtain ⟨inputs, -, hhelper⟩ := Exits.bind_eq_ok.mp hhelper
        obtain ⟨acc, hacc, hhelper⟩ := Exits.bind_eq_ok.mp hhelper
        cases hhelper
        apply Exits.foldlM_eq_ok (I := fun acc => p.Good selected acc.1 ∧ Later st acc.1)
          ⟨h, .refl st⟩ _ hacc
        rintro input - ⟨st₁, avoid⟩ acc' ⟨hgood, hlater⟩ hpass
        obtain ⟨e, he, hpass⟩ := Exits.bind_eq_ok.mp hpass
        dsimp only at hpass
        obtain ⟨st₂, hst₂, hpass⟩ := Exits.bind_eq_ok.mp hpass
        cases hpass
        split at hst₂
        · cases hst₂
          exact ⟨hgood, hlater⟩
        · obtain ⟨hout, hd⟩ := hgood.stored _ _ (exprOf_eq_ok he)
          have hsymbols' : (symbols ++ [place.2]) ++ places.map Prod.snd = rule.args := by
            rw [← hsymbols, List.map_cons, List.append_assoc]
            rfl
          have hvalid' : List.Forall₂ (p.Valid selected st₁) (comb ++ [input]) (operands ++ [e]) :=
            List.rel_append (hvalid.imp fun _ _ h => h.mono hlater.needed) (.cons hout .nil)
          obtain ⟨hgood', hlater'⟩ :=
            ih hsymbols' hgood hvalid' (List.rel_append hderives (.cons hd .nil)) hst₂
          exact ⟨hgood', hlater.trans hlater'⟩

/-! ### The loops of `generate` -/

/-- What holds when an enumeration is left. -/
def Left (p : PBEEnumSize) (selected : List (Fin p.input.length)) : Exit → Prop
  | .threw _ => True
  | .returned st => p.Returned selected st

theorem ends_lift {α : Type} {P : α → Prop} {x : Except JavaFault α}
    (h : ∀ a, x = .ok a → P a) :
  Ends (Left p selected) P (lift x)
  := by
  cases x with
  | error fault => trivial
  | ok a => exact h a rfl

theorem Good.updateCoveredECs (h : p.Good selected st) (hdefinition : st.definition = none) :
  p.Good selected (p.updateCoveredECs { st with coverFound := true })
  := by
  have hfound : Later st { st with coverFound := true } :=
    ⟨fun _ hi => hi, fun c hc => ⟨c, hc, List.Subset.refl _⟩⟩
  have hlater := hfound.trans (later_updateCoveredECs p _)
  have hseparates : p.Separates selected { st with coverFound := true } :=
    h.separates.of_eq rfl rfl rfl rfl fun c hc => ⟨c, hc, List.Subset.refl _⟩
  obtain ⟨hinc, hasked⟩ := h.incomplete hdefinition
  refine ⟨?_, h.keys, ?_, hseparates.updateCoveredECs, h.coveredExpr, h.conditions, ?_,
    h.definition⟩
  · intro nt out hout
    obtain ⟨hout, hd⟩ := h.stored nt out hout
    exact ⟨hout.mono hlater.needed, hd⟩
  · exact h.records.of_eq rfl rfl rfl hlater.needed
  · intro _
    exact ⟨hinc, asked_updateCoveredECs hseparates hinc hasked⟩

theorem length_of_genPrmtHelper {symmetric : Bool} {places budget : ℕ} {previous : Option ℕ}
    {prmt : List ℕ} (h : prmt ∈ genPrmtHelper symmetric places budget previous) :
  prmt.length = places
  := by
  induction places generalizing budget previous prmt with
  | zero =>
      rw [genPrmtHelper] at h
      split at h
      · rw [List.mem_singleton.mp h]
        rfl
      · cases h
  | succ places ih =>
      rw [genPrmtHelper] at h
      split at h
      · cases h
      · split at h
        · cases h
        · obtain ⟨i, -, hprmt⟩ := List.mem_flatMap.mp h
          obtain ⟨rest, hrest, rfl⟩ := List.mem_map.mp hprmt
          rw [List.length_cons, ih hrest]

/-- The end of a pass, where all examples are covered. -/
theorem ends_pass (h : p.Good selected st) :
  Ends (Left p selected) (p.Good selected)
    (if st.outsider = [] then .error (.returned st) else .ok st)
  := by
  split
  next houtsider => exact ⟨h, fun _ => houtsider⟩
  next => exact h

theorem tryPrmt_spec (hfresh : p.opDis.FreshNames) {nt : String} {rule : Rule}
    (hrule : rule ∈ p.grammar.rules nt) (hargs : rule.args ≠ []) (h : p.Good selected st)
    {prmt : List ℕ} (hlen : prmt.length = rule.args.length) :
  Ends (Left p selected) (p.Good selected) (p.tryPrmt selected nt rule st prmt)
  := by
  rw [tryPrmt]
  have hcombs : ∀ st', p.genOutputCombs selected prmt rule nt st = .ok st' →
      p.Good selected st' := by
    intro st' hst'
    have hsymbols : [] ++ (prmt.zip rule.args).map Prod.snd = rule.args := by
      rw [List.nil_append, List.map_snd_zip hlen.ge]
    exact (genOutputCombsHelper_spec hfresh hrule hargs hsymbols h .nil .nil hst').1
  apply (ends_lift hcombs).bind
  intro st' hst'
  split
  next hsome =>
      refine ⟨hst', ?_⟩
      intro hnone
      rw [hnone] at hsome
      cases hsome
  next hnone =>
      have hnone : st'.definition = none := by simpa using hnone
      split
      next =>
          split
          next => exact ends_pass hst'
          next => exact ends_pass (hst'.updateCoveredECs hnone)
      next => exact hst'

theorem tryRule_spec (hfresh : p.opDis.FreshNames) {nt : String} {rule : Rule}
    (hrule : rule ∈ p.grammar.rules nt) (hargs : rule.args ≠ []) (h : p.Good selected st)
    (iter : ℕ) :
  Ends (Left p selected) (p.Good selected) (p.tryRule selected iter nt st rule)
  := by
  rw [tryRule]
  split
  next => exact h
  next =>
      apply Exits.ends_foldlM (fun _ => p.Good selected) h
      intro pre prmt post hl st hst
      apply tryPrmt_spec hfresh hrule hargs hst
      apply length_of_genPrmtHelper
      rw [← genPrmt, hl]
      exact List.mem_append_right pre List.mem_cons_self

theorem mem_ops {nt : String} {rule : Rule} (h : rule ∈ p.ops nt) :
  rule ∈ p.grammar.rules nt ∧ rule.args ≠ []
  := by
  rw [ops, List.mem_filter, decide_eq_true_iff] at h
  exact ⟨h.1, h.2.1⟩

/-- The outputs by size are lists of outputs that are stored. -/
theorem Good.outputs (h : p.Good selected st) (outputStorage : BVEnum.Storage Outputs)
    (currNew : List Outputs) :
  p.Good selected { st with outputStorage := outputStorage, currNew := currNew }
  where
  stored nt out hout := by
    obtain ⟨hout, hd⟩ := h.stored nt out hout
    exact ⟨hout.mono fun _ hi => hi, hd⟩
  keys := h.keys
  records := h.records.of_eq rfl rfl rfl fun _ hi => hi
  separates := h.separates.of_eq rfl rfl rfl rfl fun c hc => ⟨c, hc, List.Subset.refl _⟩
  coveredExpr := h.coveredExpr
  conditions := h.conditions
  incomplete := h.incomplete
  definition := h.definition

theorem tryNonTerminal_spec (hfresh : p.opDis.FreshNames) (h : p.Good selected st) (iter : ℕ)
    (nt : String) :
  Ends (Left p selected) (p.Good selected) (p.tryNonTerminal selected iter st nt)
  := by
  rw [tryNonTerminal]
  have hloop : Ends (Left p selected) (p.Good selected)
      ((p.ops nt).foldlM (p.tryRule selected iter nt) { st with currNew := [] }) := by
    apply Exits.ends_foldlM (fun _ => p.Good selected) (h.outputs st.outputStorage [])
    intro pre rule post hl st hst
    have hmem : rule ∈ p.ops nt := by
      rw [hl]
      exact List.mem_append_right pre List.mem_cons_self
    apply tryRule_spec hfresh (mem_ops hmem).1 (mem_ops hmem).2 hst
  apply hloop.bind
  intro st' hst'
  exact hst'.outputs (st'.outputStorage.put nt iter st'.currNew) st'.currNew

/-! ### The terminals -/

/-- The outputs of a terminal are its values. -/
theorem value_of_terminalOutput {args : List (BitVec 64)} {e : Term 64}
    {x : Option (BitVec 64)} (h : p.terminalOutput args e = .ok x) :
  ∃ v, x = some v ∧ p.value args e = .ok (some v)
  := by
  unfold terminalOutput at h
  split at h
  next => cases h
  next hlen =>
      cases e with
      | literal y =>
          cases h
          refine ⟨y, rfl, ?_⟩
          rw [value, OpDispatcher.applyThenCompute, if_neg hlen]
      | symbol s =>
          obtain ⟨v, rfl⟩ := Option.isSome_iff_exists.mp (OpDispatcher.isSome_of_constant h)
          refine ⟨v, rfl, ?_⟩
          rw [value, OpDispatcher.applyThenCompute, if_neg hlen]
          exact h
      | app f ts => cases h

/-- The terminals of a grammar are variables of it and literals. -/
theorem varsIn_terminal {symbol : String} (hsymbol : symbol ∈ p.grammar.keys) {rule : Rule}
    (hrule : rule ∈ p.terminals symbol) {e : Term 64} (he : p.getSybExpr rule.termSyb = .ok e)
    {args : List (BitVec 64)} {x : Option (BitVec 64)} (h : p.terminalOutput args e = .ok x) :
  VarsIn p.varNames e
  := by
  unfold terminalOutput at h
  split at h
  next => cases h
  next =>
      cases e with
      | literal y => exact .literal y
      | symbol s =>
          apply VarsIn.symbol
          rw [varNames, List.mem_flatMap]
          refine ⟨symbol, hsymbol, List.mem_filterMap.mpr ⟨rule, hrule, ?_⟩⟩
          rw [varName, he]
      | app f ts => cases h

/-- The stored terminals. -/
theorem terminalStorage_spec (hsel : selected ≠ []) {symbol : String}
    (hsymbol : symbol ∈ p.grammar.keys) {exprStrg : List (Outputs × Term 64)}
    (h : p.terminalStorage selected symbol = .ok exprStrg) :
  (exprStrg.map Prod.fst).Nodup ∧
    ∀ out ∈ exprStrg, (∀ st, p.Valid selected st out.1 out.2) ∧ p.Derives symbol out.2
  := by
  apply Exits.foldlM_eq_ok (I := fun exprStrg => (exprStrg.map Prod.fst).Nodup ∧
    ∀ out ∈ exprStrg, (∀ st, p.Valid selected st out.1 out.2) ∧ p.Derives symbol out.2)
    (by simp) _ h
  rintro rule hrule exprStrg exprStrg' ⟨hkeys, hstrg⟩ hpass
  obtain ⟨e, he, hpass⟩ := Exits.bind_eq_ok.mp hpass
  obtain ⟨outputs, houtputs, hpass⟩ := Exits.bind_eq_ok.mp hpass
  cases hpass
  split
  next => exact ⟨hkeys, hstrg⟩
  next hnew =>
    constructor
    · apply Lists.nodup_keys_concat hkeys hnew
    intro out hout
    rcases List.mem_append.mp hout with hout | hout
    · apply hstrg out hout
    · rw [List.mem_singleton] at hout
      subst hout
      have hall := Exits.mapM_eq_ok.mp houtputs
      have hlen : (p.sampleInput selected).length = selected.length := by
        rw [sampleInput, List.length_map]
      constructor
      · intro st
        refine ⟨by rw [← hall.length_eq, hlen], ?_, ?_⟩
        · obtain ⟨i, hi⟩ := List.exists_mem_of_ne_nil selected hsel
          obtain ⟨x, hx⟩ : ∃ x, p.terminalOutput (p.input.get i) e = .ok x := by
            apply Lists.exists_forall₂.mp ⟨_, hall⟩
            exact List.mem_map.mpr ⟨i, hi, rfl⟩
          exact varsIn_terminal hsymbol hrule he hx
        · intro i hi
          obtain ⟨args, hargs⟩ : ∃ args, (p.sampleInput selected)[i]? = some args := by
            rw [← hlen] at hi
            exact ⟨_, List.getElem?_eq_getElem hi⟩
          obtain ⟨x, hx, hout⟩ := Lists.getElem?_of_forall₂ hall hargs
          obtain ⟨v, rfl, hv⟩ := value_of_terminalOutput hout
          exact .inl ⟨v, hx, args, hargs, hv⟩
      · rw [terminals, List.mem_filter, decide_eq_true_iff] at hrule
        exact .terminal hrule.1 hrule.2 he

/-- The state before anything has been found. -/
theorem good_start (hsel : selected ≠ []) (zeros : Outputs) (ecCounter : ℕ) :
  p.Good selected
    { exprStorage := fun _ => []
      outputStorage := fun _ => none
      zeros := zeros
      definition := none
      covered := []
      coveredExpr := []
      coveredExample := []
      outsider := List.range selected.length
      uncoveredEquivClasses := [(ecCounter, ⟨List.range selected.length, []⟩)]
      ecCounter := ecCounter + 1
      coveredEquivClasses := []
      conditions := []
      coverFound := false
      currNew := [] }
  where
  stored := by simp
  keys := by simp
  records := ⟨List.nodup_nil, by simp, by simp, by simp, by simp⟩
  separates := by
    have hpos : List.range selected.length ≠ [] := by simpa using hsel
    have hsplits : Splits (p.answer selected []) { i | i ∈ List.range selected.length }
        [⟨List.range selected.length, []⟩] := Splitting.splits_singleton hpos
    simp only [List.mem_range] at hsplits
    refine ⟨hsplits, ?_, by simp, by simp, by simp, by simp, by simp⟩
    intro P hP i hi j hj
    have hpath : P.path = [] := by
      have hP : P = ⟨List.range selected.length, []⟩ := by simpa [classes] using hP
      rw [hP]
    rw [hpath] at hj
    cases hj
  coveredExpr := by simp
  conditions := by simp
  incomplete := by
    intro _
    exact ⟨by simp [Incomplete], by simp [Asked]⟩
  definition := by simp

/-- Before the terminals are checked, every example is an outsider and every terminal has all its
outputs. -/
structure Fresh (p : PBEEnumSize) (selected : List (Fin p.input.length)) (st : State) : Prop where
  good : p.Good selected st
  outsider : st.outsider = List.range selected.length
  terminals : ∀ nt, ∀ out ∈ st.exprStorage nt, ∀ st, p.Valid selected st out.1 out.2

theorem initStorage_spec (hsel : selected ≠ []) {numSample ecCounter : ℕ} {st : State}
    (h : p.initStorage selected numSample ecCounter = .ok st) :
  p.Fresh selected st
  := by
  rw [initStorage] at h
  apply Exits.foldlM_eq_ok (I := p.Fresh selected)
    ⟨good_start hsel _ _, rfl, by simp⟩ _ h
  intro symbol hsymbol st st' hst hpass
  obtain ⟨exprStrg, hstrg, hpass⟩ := Exits.bind_eq_ok.mp hpass
  cases hpass
  obtain ⟨hkeys, hterminals⟩ := terminalStorage_spec hsel hsymbol hstrg
  have hstored : ∀ nt, ∀ out ∈ Function.update st.exprStorage symbol exprStrg nt,
      (∀ st, p.Valid selected st out.1 out.2) ∧ p.Derives nt out.2 := by
    intro nt out hout
    by_cases hnt : nt = symbol
    · subst hnt
      rw [Function.update_self] at hout
      apply hterminals out hout
    · rw [Function.update_of_ne hnt] at hout
      exact ⟨hst.terminals nt out hout, (hst.good.stored nt out hout).2⟩
  refine ⟨⟨?_, ?_, ?_, ?_, hst.good.coveredExpr, hst.good.conditions, hst.good.incomplete,
    hst.good.definition⟩, hst.outsider, fun nt out hout => (hstored nt out hout).1⟩
  · intro nt out hout
    obtain ⟨hvalid, hd⟩ := hstored nt out hout
    exact ⟨hvalid _, hd⟩
  · intro nt
    by_cases hnt : nt = symbol
    · subst hnt
      dsimp only
      rw [Function.update_self]
      exact hkeys
    · dsimp only
      rw [Function.update_of_ne hnt]
      apply hst.good.keys nt
  · exact hst.good.records.of_eq rfl rfl rfl fun _ hi => hi
  · exact hst.good.separates.of_eq rfl rfl rfl rfl fun c hc => ⟨c, hc, List.Subset.refl _⟩

theorem tryTerminal_spec (h : p.Fresh selected st) {out : Outputs × Term 64}
    (hvalid : p.Valid selected st out.1 out.2) (hderives : p.Derives p.start out.2) :
  Ends (Left p selected) (p.Fresh selected) (p.tryTerminal selected st out)
  := by
  have hexact : ∀ i v, out.1[i]? = some (some v) →
      containsVar p.varNames out.2 = false ∨ needed st i = true := by
    intro i v hv
    right
    rw [needed, decide_eq_true_iff, h.outsider, List.mem_range, ← hvalid.length]
    exact .inl (List.getElem?_eq_some_iff.mp hv).1
  rw [tryTerminal]
  split
  next st' hverify =>
      obtain ⟨-, -, -, hgood⟩ := verified_spec h.good hvalid hexact hderives hverify
      exact ⟨hgood rfl, by simp⟩
  next st' hverify =>
      obtain ⟨-, ⟨_, _, _, rfl⟩, hgood, -⟩ := verified_spec h.good hvalid hexact hderives hverify
      exact ⟨hgood rfl, h.outsider, h.terminals⟩

/-! ### `generate` -/

/-- Every enumeration, up to any size, keeps its invariant; it returns only when an expression is
right on all selected examples, or when no outsider is left. -/
theorem generate_spec (hfresh : p.opDis.FreshNames) (hsel : selected ≠ [])
    (numSample ecCounter iter : ℕ) :
  Ends (Left p selected) (p.Good selected) (p.generate selected numSample ecCounter iter)
  := by
  induction iter using generate.induct with
  | case1 =>
      rw [generate]
      apply ends_lift
      intro st hst
      exact (initStorage_spec hsel hst).good
  | case2 ih =>
      rw [generate, generate]
      apply (ends_lift (P := p.Fresh selected) fun st hst => initStorage_spec hsel hst).bind
      intro st hst
      have hloop : Ends (Left p selected) (p.Fresh selected)
          ((p.arrange (st.exprStorage p.start)).foldlM (p.tryTerminal selected) st) := by
        apply Exits.ends_foldlM (fun _ => p.Fresh selected) hst
        intro pre out post hl st' hst'
        have hmem : out ∈ st.exprStorage p.start := by
          rw [← (p.perm _).mem_iff, hl]
          exact List.mem_append_right pre List.mem_cons_self
        apply tryTerminal_spec hst' (hst.terminals _ out hmem st')
        exact (hst.good.stored _ out hmem).2
      apply hloop.mono
      intro st' hst'
      exact hst'.good
  | case3 iter ih =>
      rw [generate]
      apply ih.bind
      intro st hst
      apply Exits.ends_foldlM (fun _ => p.Good selected) hst
      intro pre nt post _ st' hst'
      apply tryNonTerminal_spec hfresh hst'

/-! ### What an enumeration has stored -/

/-- No outputs are stored twice for a nonterminal.  They are values of the stored expression, and
no value is missing that is needed. -/
structure Sound (p : PBEEnumSize) (selected : List (Fin p.input.length)) (st : State) : Prop where
  keys : ∀ nt, ((st.exprStorage nt).map Prod.fst).Nodup
  derives : ∀ nt, ∀ out ∈ st.exprStorage nt, p.Derives nt out.2
  length : ∀ nt, ∀ out ∈ st.exprStorage nt, out.1.length = selected.length
  values : ∀ nt, ∀ out ∈ st.exprStorage nt, ∀ i < selected.length,
    (∃ v, out.1[i]? = some (some v) ∧ p.Computes selected out.2 i v) ∨
      out.1[i]? = some none ∧ i ∉ st.outsider ∧ ∃ e ∈ st.coveredExpr, p.Right selected e i

theorem Good.sound (h : p.Good selected st) :
  Sound p selected st
  where
  keys := h.keys
  derives nt out hout := (h.stored nt out hout).2
  length nt out hout := (h.stored nt out hout).1.length
  values := by
    intro nt out hout i hi
    rcases (h.stored nt out hout).1.values i hi with hv | ⟨hnull, -, hneeded⟩
    · exact .inl hv
    · obtain ⟨houtsider, hcovered⟩ := needed_eq_false.mp hneeded
      obtain ⟨c, hc, hmem⟩ := h.records.recorded i hcovered
      obtain ⟨e, he, hright⟩ := h.records.right c hc
      exact .inr ⟨hnull, houtsider, e, List.mem_of_getElem? he, (hright i hmem).2⟩

/-- Whatever the order of the hash sets, after every size of an enumeration and when it returns,
the stored outputs are sound: they are different, and the values of expressions of the grammar. -/
theorem stored_sound (hfresh : p.opDis.FreshNames) (hsel : selected ≠ [])
    (numSample ecCounter iter : ℕ) :
  Ends (fun x => ∀ st, x = .returned st → Sound p selected st) (Sound p selected)
    (p.generate selected numSample ecCounter iter)
  := by
  apply (generate_spec hfresh hsel numSample ecCounter iter).imp
  · rintro _ hleft st rfl
    exact hleft.good.sound
  · intro st hgood
    exact hgood.sound

/-- Two of the examples. -/
def firstAndLast : List (Fin negateUnlessOne.input.length) := [⟨0, by decide⟩, ⟨2, by decide⟩]

theorem fresh_negateUnlessOne :
  negateUnlessOne.opDis.FreshNames
  := by
  intro name hname
  fin_cases hname <;> rfl

theorem stored_sound_negateUnlessOne :
  Ends (fun x => ∀ st, x = .returned st → Sound negateUnlessOne firstAndLast st)
    (Sound negateUnlessOne firstAndLast) (negateUnlessOne.generate firstAndLast 1 0 4)
  := by
  apply stored_sound fresh_negateUnlessOne (by decide)

/-! ### What the conditions tell apart -/

/-- Every selected example is in one class, a class has the examples that take its branches at the
conditions, two classes took different branches at a condition, the outsiders are those that are in
no covered class, and an expression is recorded for every covered class. -/
structure Separated (p : PBEEnumSize) (selected : List (Fin p.input.length)) (st : State) :
    Prop where
  nonempty : ∀ P ∈ classes st, P.members ≠ []
  unique : ∀ i < selected.length, ∃! P, P ∈ classes st ∧ i ∈ P.members
  members : ∀ P ∈ classes st, ∀ i < selected.length,
    i ∈ P.members ↔ Splitting.Follows (p.answer selected st.conditions) i P.path
  differ : (classes st).Pairwise fun P Q => ∃ (j : ℕ) (x y : ℕ),
    P.path[j]? = some x ∧ Q.path[j]? = some y ∧ x ≠ y
  outsider : ∀ i < selected.length, i ∈ st.outsider ↔ ∀ P ∈ st.coveredEquivClasses, i ∉ P.members
  covered : ∀ P ∈ st.coveredEquivClasses, ∃ c ∈ st.covered, P.members ⊆ c.2 ∧
    ∃ e, st.coveredExpr[c.1]? = some e ∧ p.Derives p.start e ∧ ∀ i ∈ c.2, p.Right selected e i

theorem Good.separated (h : p.Good selected st) :
  Separated p selected st
  where
  nonempty := h.separates.splits.nonempty
  differ := h.separates.splits.apart.imp Splitting.Apart.exists_ne
  unique := by
    intro i hi
    obtain ⟨P, hP, hmem⟩ := (h.separates.splits.cover i).mp hi
    refine ⟨P, ⟨hP, hmem⟩, ?_⟩
    rintro Q ⟨hQ, hmem'⟩
    apply h.separates.splits.eq_of_mem hQ hP hmem' hmem
  members := by
    intro P hP i hi
    constructor
    · apply h.separates.splits.follows P hP i
    · apply h.separates.splits.mem_of_follows hi hP
  outsider := by
    intro i hi
    rw [h.separates.outsider]
    constructor
    · rintro ⟨ec, hec, hmem⟩ P hP hmem'
      have hapart := (List.pairwise_append.mp h.separates.splits.apart).2.2 P hP ec.2
        (List.mem_map_of_mem hec)
      have hfollows := h.separates.splits.follows P (mem_classes.mpr (.inl hP)) i hmem'
      apply hfollows.not_apart _ hapart
      apply h.separates.splits.follows ec.2 (mem_classes.mpr (.inr ⟨ec, hec, rfl⟩)) i hmem
    · intro hnot
      obtain ⟨P, hP, hmem⟩ := (h.separates.splits.cover i).mp hi
      rcases mem_classes.mp hP with hP | ⟨ec, hec, rfl⟩
      · exact absurd hmem (hnot P hP)
      · exact ⟨ec, hec, hmem⟩
  covered := by
    intro P hP
    obtain ⟨-, c, hc, hsub⟩ := h.separates.covered P hP
    obtain ⟨e, he, hright⟩ := h.records.right c hc
    exact ⟨c, hc, hsub, e, he, h.coveredExpr e (List.mem_of_getElem? he),
      fun i hi => (hright i hi).2⟩

/-- Whatever the order of the hash sets, after every size of an enumeration and when it returns,
the examples are separated, and an enumeration returns only with an expression that is right on all
selected examples or with every example in a covered class. -/
theorem examples_separated (hfresh : p.opDis.FreshNames) (hsel : selected ≠ [])
    (numSample ecCounter iter : ℕ) :
  Ends (fun x => ∀ st, x = .returned st → Separated p selected st ∧
      ((∃ e, st.definition = some e ∧ ∀ i < selected.length, p.Right selected e i) ∨
        ∀ i < selected.length, ∃ P ∈ st.coveredEquivClasses, i ∈ P.members))
    (Separated p selected) (p.generate selected numSample ecCounter iter)
  := by
  apply (generate_spec hfresh hsel numSample ecCounter iter).imp
  · rintro _ hleft st rfl
    refine ⟨hleft.good.separated, ?_⟩
    cases hdefinition : st.definition with
    | some e => exact .inl ⟨e, rfl, (hleft.good.definition e hdefinition).2⟩
    | none =>
        right
        intro i hi
        apply hleft.good.separates.exists_covered (hleft.outsider hdefinition) hi
  · intro st hgood
    exact hgood.separated

theorem examples_separated_negateUnlessOne :
  Ends (fun x => ∀ st, x = .returned st → Separated negateUnlessOne firstAndLast st ∧
      ((∃ e, st.definition = some e ∧
        ∀ i < firstAndLast.length, negateUnlessOne.Right firstAndLast e i) ∨
        ∀ i < firstAndLast.length, ∃ P ∈ st.coveredEquivClasses, i ∈ P.members))
    (Separated negateUnlessOne firstAndLast) (negateUnlessOne.generate firstAndLast 1 0 4)
  := by
  apply examples_separated fresh_negateUnlessOne (by decide)

end PBEEnumSize

end DryadSynth
