import DryadSynth.Library.Sampling
import DryadSynth.PBEEnum.Tree

/-!
# The selection of examples

`run` enumerates for some of the examples, and adds examples on which the result fails until there
are none.  The result is checked by the solver, and the fast evaluator serves for the
enumeration.  They agree on the expressions of the grammar where every call is exact
(`Interpreted`).  Then the selected examples never fail, every try selects new ones, and the loop
ends after at most as many tries as there are examples, with a result that is right on all of them.
-/

namespace DryadSynth

open QFBV (Term Interpretation denote)
open Exits (Ends)
open Sampling (Round Sampled)

open TermEquality

namespace PBEEnumSize

variable (p : PBEEnumSize)

/-- The fields that are kept from one try to the next. -/
structure Selection where
  selected : List (Fin p.input.length)
  numSample : ℕ
  ecCounter : ℕ

/-- How `run` is left; `unfinished` if an enumeration goes on beyond a size. -/
inductive Outcome where
  | threw (fault : JavaFault)
  | unfinished
  | solved (definition : Term 64)

/-- `Map::putIfAbsent` -/
def putIfAbsent {κ α : Type} [DecidableEq κ] (m : List (κ × α)) (k : κ) (a : α) : List (κ × α) :=
  if k ∈ m.map Prod.fst then m else m ++ [(k, a)]

section Solver

variable (solve : Term 64 → List (BitVec 64) → BitVec 64)

/-- `getFailed` -/
def getFailed (expr : Term 64) : List (Fin p.input.length) :=
  (List.finRange p.input.length).filter fun i =>
    p.outputOf i ≠ toUnsignedString (solve expr (p.input.get i))

/-- The conditions without their repetitions. -/
def prevConds : List (Term 64) → List (Term 64)
  | [] => []
  | [cond] => [cond]
  | cond :: _ :: conditions => cond :: prevConds conditions

/-- The branches that the failed examples take at a condition. -/
def iteOutput (st : State) (failed : List (Fin p.input.length)) (cond : Term 64) :
    Except JavaFault Outputs := do
  let outputs := failed.map fun i => some (solve cond (p.input.get i))
  match ← p.branchOutputs st outputs false with
  | some iteoutputs => .ok iteoutputs
  | none => .error .nullPointer

/-- `updateSelected`: one failed example is selected for every path through the conditions. -/
def updateSelected (st : State) (selected failed : List (Fin p.input.length)) :
    Except JavaFault (List (Fin p.input.length)) :=
  match failed with
  | [] => .ok selected
  | [i] => .ok (selected ++ [i])
  | i :: _ =>
      if st.conditions = [] then .ok (selected ++ [i])
      else do
        let iteOutputs ← (prevConds st.conditions).mapM (p.iteOutput solve st failed)
        let exOnBranch := failed.zipIdx.foldl (fun exOnBranch ex =>
          putIfAbsent exOnBranch (iteOutputs.map fun outputs => (outputs[ex.2]?).join) ex.1) []
        .ok (selected ++ (p.arrange exOnBranch).map Prod.snd)

/-- The body of the loop of `run`, if the enumeration returns up to a size. -/
def tryOnce (s : Selection p) (iter : ℕ) : Except Outcome (Selection p) :=
  match p.generate s.selected s.numSample s.ecCounter iter with
  | .ok _ => .error .unfinished
  | .error (.threw fault) => .error (.threw fault)
  | .error (.returned st) =>
      match p.result st with
      | none => .error (.threw .nullPointer)
      | some definition =>
          let failed := p.getFailed solve definition
          if failed = [] then .error (.solved definition)
          else
            match p.updateSelected solve st s.selected failed with
            | .error fault => .error (.threw fault)
            | .ok selected => .ok ⟨selected, s.selected.length, st.ecCounter⟩

/-- `run` from one example, for the sizes up to which the tries enumerate. -/
def run (example1 : Fin p.input.length) (sizes : List ℕ) : Except Outcome (Selection p) :=
  sizes.foldlM (p.tryOnce solve) ⟨[example1], 1, 0⟩

/-- The solver simplifies a term with the inputs of an example to its value. -/
def Simplifies (U : Interpretation 64) : Prop :=
  ∀ t args z, denote U (p.inputs args) t = some z → solve t args = longValue z

end Solver

variable {p} {solve : Term 64 → List (BitVec 64) → BitVec 64} {U : Interpretation 64}
  {rank : String → ℕ}

/-! ### The failed examples -/

theorem mem_getFailed {expr : Term 64} {i : Fin p.input.length} :
  i ∈ p.getFailed solve expr ↔
    p.outputOf i ≠ toUnsignedString (solve expr (p.input.get i))
  := by
  rw [getFailed, List.mem_filter, decide_eq_true_iff, and_iff_right (List.mem_finRange i)]

theorem nodup_getFailed (expr : Term 64) :
  (p.getFailed solve expr).Nodup
  := (List.nodup_finRange _).filter _

theorem sampleInput_eq {selected : List (Fin p.input.length)} {j : ℕ} {i : Fin p.input.length}
    (hi : selected[j]? = some i) {args : List (BitVec 64)}
    (hargs : (p.sampleInput selected)[j]? = some args) :
  args = p.input.get i
  := by
  rw [sampleInput, List.getElem?_map, hi] at hargs
  cases hargs
  rfl

/-- A result that solves the selected examples does not fail on them. -/
theorem not_mem_getFailed (h : p.Simplifies solve U) {selected : List (Fin p.input.length)}
    {t : Term 64} (ht : ∀ j < selected.length, p.Solves selected U t j) {i : Fin p.input.length}
    (hi : i ∈ selected) :
  i ∉ p.getFailed solve t
  := by
  obtain ⟨j, hj⟩ := List.mem_iff_getElem?.mp hi
  obtain ⟨args, z, hargs, hz, hexpected⟩ := ht j (List.getElem?_eq_some_iff.mp hj).1
  obtain rfl := sampleInput_eq hj hargs
  rw [sampleOutput, List.getElem?_map, hj, Option.map_some, Option.some.injEq] at hexpected
  rw [mem_getFailed, not_not, h t _ z hz]
  exact hexpected

/-! ### The new examples -/

/-- The loop of `updateSelected` takes some of the examples, the first one among them. -/
theorem putIfAbsent_spec {κ α β : Type} [DecidableEq κ] (key : β → κ) (f : β → α) (l : List β)
    (m : List (κ × α)) :
  ∃ l', l'.Sublist l ∧ (m = [] → l ≠ [] → l' ≠ []) ∧
    (l.foldl (fun m b => putIfAbsent m (key b) (f b)) m).map Prod.snd = m.map Prod.snd ++ l'.map f
  := by
  induction l generalizing m with
  | nil => exact ⟨[], List.Sublist.refl [], fun _ h => h, by simp⟩
  | cons b l ih =>
      obtain ⟨l', hsub, -, heq⟩ := ih (putIfAbsent m (key b) (f b))
      by_cases hmem : key b ∈ m.map Prod.fst
      · rw [putIfAbsent, if_pos hmem] at heq
        refine ⟨l', hsub.cons b, ?_, ?_⟩
        · rintro rfl
          cases hmem
        · rw [List.foldl_cons, putIfAbsent, if_pos hmem, heq]
      · rw [putIfAbsent, if_neg hmem] at heq
        refine ⟨b :: l', hsub.cons_cons b, fun _ _ => List.cons_ne_nil b l', ?_⟩
        rw [List.foldl_cons, putIfAbsent, if_neg hmem, heq, List.map_append, List.append_assoc]
        rfl

/-- Some of the failed examples are selected. -/
theorem updateSelected_spec {st : State} {selected failed selected' : List (Fin p.input.length)}
    (hnodup : failed.Nodup) (hne : failed ≠ [])
    (h : p.updateSelected solve st selected failed = .ok selected') :
  ∃ new, selected' = selected ++ new ∧ new ≠ [] ∧ new.Nodup ∧ new ⊆ failed
  := by
  have hfirst : ∀ i, i ∈ failed → selected' = selected ++ [i] →
      ∃ new, selected' = selected ++ new ∧ new ≠ [] ∧ new.Nodup ∧ new ⊆ failed := by
    intro i hi heq
    refine ⟨[i], heq, List.cons_ne_nil _ _, List.nodup_singleton i, ?_⟩
    simpa using hi
  rcases failed with _ | ⟨i, _ | ⟨j, rest⟩⟩
  · exact absurd rfl hne
  · cases h
    apply hfirst i (List.mem_singleton_self i) rfl
  · rw [updateSelected] at h
    · split at h
      next =>
          cases h
          apply hfirst i List.mem_cons_self rfl
      next =>
          obtain ⟨iteOutputs, -, h⟩ := Exits.bind_eq_ok.mp h
          cases h
          obtain ⟨l', hsub, hnonempty, heq⟩ := putIfAbsent_spec
            (fun ex : Fin p.input.length × ℕ => iteOutputs.map fun outputs => (outputs[ex.2]?).join)
            Prod.fst (i :: j :: rest).zipIdx []
          have hperm := (p.perm ((i :: j :: rest).zipIdx.foldl (fun exOnBranch ex =>
            putIfAbsent exOnBranch (iteOutputs.map fun outputs => (outputs[ex.2]?).join) ex.1)
            [])).map Prod.snd
          rw [heq, List.map_nil, List.nil_append] at hperm
          have hsub : (l'.map Prod.fst).Sublist (i :: j :: rest) := by
            have := hsub.map Prod.fst
            rwa [List.zipIdx_map_fst] at this
          refine ⟨_, rfl, ?_, ?_, ?_⟩
          · intro hnil
            rw [hnil] at hperm
            apply hnonempty rfl (by simp) (List.map_eq_nil_iff.mp hperm.nil_eq.symm)
          · apply hperm.nodup_iff.mpr (hsub.nodup hnodup)
          · intro k hk
            apply hsub.subset (hperm.mem_iff.mp hk)
    · simp

/-! ### The tries -/

/-- The result of a try is an expression of the grammar that has the expected outputs of all
examples. -/
structure Correct (p : PBEEnumSize) (U : Interpretation 64) (t : Term 64) : Prop where
  derives : p.Derives p.start t
  right : ∀ i : Fin p.input.length, ∃ z, denote U (p.inputs (p.input.get i)) t = some z ∧
    p.outputOf i = toUnsignedString (longValue z)

/-- One try ends with a correct result, or selects new examples on which its result failed. -/
theorem tryOnce_spec (hU : p.Interpreted U rank) (h : p.Simplifies solve U) {s : Selection p}
    (hs : s.selected ≠ []) (iter : ℕ) :
  Ends (fun x => ∀ t, x = .solved t → Correct p U t)
    (fun s' => Round (fun t i => i ∈ p.getFailed solve t) s.selected s'.selected)
    (p.tryOnce solve s iter)
  := by
  have hgenerate := generate_spec hU.freshNames hs s.numSample s.ecCounter iter
  rw [tryOnce]
  split
  next =>
      intro t ht
      cases ht
  next =>
      intro t ht
      cases ht
  next st hreturned =>
      rw [hreturned] at hgenerate
      obtain ⟨definition, hresult, hderives, hsolves⟩ := Returned.result_spec hU hgenerate hs
      rw [hresult]
      dsimp only
      split
      next hnone =>
          intro t ht
          cases ht
          refine ⟨hderives, ?_⟩
          intro i
          obtain ⟨z, hz⟩ := hU.sorted _ _ hderives _ (List.get_mem p.input i)
          refine ⟨z, hz, ?_⟩
          by_contra hne
          rw [← h definition _ z hz] at hne
          have hmem := mem_getFailed.mpr hne
          rw [hnone] at hmem
          cases hmem
      next hsome =>
          split
          next =>
              intro t ht
              cases ht
          next selected' hselected =>
              obtain ⟨new, rfl, hne, hnodup, hsub⟩ :=
                updateSelected_spec (nodup_getFailed definition) hsome hselected
              apply Round.intro definition _ hne hnodup
              · intro i hi
                apply hsub hi
              · intro i hi
                apply not_mem_getFailed h hsolves hi

/-- The loop of `run` never selects an example twice and selects a new one in every try, so it makes
fewer unsuccessful tries than there are examples.  Its result is an expression of the grammar that
is right on all examples. -/
theorem run_correct (hU : p.Interpreted U rank) (h : p.Simplifies solve U)
    (example1 : Fin p.input.length) (sizes : List ℕ) :
  Ends (fun x => ∀ t, x = .solved t → Correct p U t)
    (fun s => s.selected.Nodup ∧ sizes.length < s.selected.length ∧
      sizes.length < p.input.length)
    (p.run solve example1 sizes)
  := by
  rw [run]
  have hloop : Ends (fun x => ∀ t, x = .solved t → Correct p U t)
      (fun s : Selection p => Sampled [example1] sizes.length s.selected)
      (sizes.foldlM (p.tryOnce solve) ⟨[example1], 1, 0⟩) := by
    apply Exits.ends_foldlM fun pre (s : Selection p) => Sampled [example1] pre.length s.selected
    · apply Sampling.sampled_start (List.nodup_singleton example1)
    · intro pre iter post _ s hs
      have hne : s.selected ≠ [] := by
        obtain ⟨rest, hrest⟩ := hs.begins
        rw [← hrest]
        apply List.cons_ne_nil
      apply (tryOnce_spec hU h hne iter).mono
      intro s' hround
      rw [List.length_append, List.length_singleton]
      exact hs.round hround
  apply hloop.mono
  intro s hs
  have hcard := hs.lt_card (List.cons_ne_nil _ _)
  rw [Fintype.card_fin] at hcard
  have hlength := hs.length
  rw [List.length_singleton] at hlength
  exact ⟨hs.nodup, by omega, hcard⟩

/-- A solver for `negateUnlessOne`. -/
def solveIf0 (t : Term 64) (args : List (BitVec 64)) : BitVec 64 :=
  match denote if0Interpretation (negateUnlessOne.inputs args) t with
  | some z => longValue z
  | none => 0

theorem simplifies_solveIf0 :
  negateUnlessOne.Simplifies solveIf0 if0Interpretation
  := by
  intro t args z hz
  rw [solveIf0, hz]

theorem run_correct_negateUnlessOne :
  Ends (fun x => ∀ t, x = .solved t → Correct negateUnlessOne if0Interpretation t)
    (fun s => s.selected.Nodup ∧ [3, 4].length < s.selected.length ∧
      [3, 4].length < negateUnlessOne.input.length)
    (negateUnlessOne.run solveIf0 ⟨0, by decide⟩ [3, 4])
  := by
  -- the run is not to be computed
  generalize [3, 4] = sizes
  apply run_correct interpreted_negateUnlessOne simplifies_solveIf0

end PBEEnumSize

end DryadSynth
