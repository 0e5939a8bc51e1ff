import DryadSynth.Library.LIA.Quantified

/-!
# Rectangles and crosses

The variables of a formula are divided into classes.  A formula is a rectangle if it follows from
its projections to the classes, and a cross if it follows, where it holds, for all values of one
class or for all values of the other variables.
-/

namespace LIA

/-- The classes cover the variables. -/
structure Cover (xs : List Var) (classes : List (List Var)) : Prop where
  subset : ∀ C ∈ classes, C ⊆ xs
  cover : ∀ x ∈ xs, ∃ C ∈ classes, x ∈ C

/-- The variables outside of a class. -/
def others (xs C : List Var) : List Var := xs.filter (· ∉ C)

/-- The model with the variables of `C` as in another one. -/
def Model.mix (M : Model) (C : List Var) (N : Model) : Model :=
  { M with var := fun x => if x ∈ C then N.var x else M.var x }

section Mix

variable {M N : Model} {xs C : List Var} {x : Var}

theorem mem_others :
  x ∈ others xs C ↔ x ∈ xs ∧ x ∉ C
  := by simp [others]

theorem mix_of_mem (hx : x ∈ C) :
  (M.mix C N).var x = N.var x
  := if_pos hx

theorem mix_of_not_mem (hx : x ∉ C) :
  (M.mix C N).var x = M.var x
  := if_neg hx

theorem agreeOff_mix (M : Model) (C : List Var) (N : Model) :
  AgreeOff C M (M.mix C N)
  := ⟨rfl, fun _ hx => mix_of_not_mem hx⟩

end Mix

section Classes

variable {xs : List Var} {classes : List (List Var)} {φ : Quantified} {M : Model}

/-- A rectangle holds where its projections to all classes do. -/
theorem holds_of_square (hcover : Cover xs classes) (hne : classes ≠ [])
    (hsquare : ∀ C ∈ classes, ∀ N, (Quantified.ex C φ).Holds N →
      (Quantified.ex (others xs C) φ).Holds N → φ.Holds N)
    (hM : ∀ C ∈ classes, (Quantified.ex (others xs C) φ).Holds M) :
  φ.Holds M
  := by
  -- class by class, a model of the formula takes over the values of `M`
  have hstep : ∀ l : List (List Var), l ⊆ classes → l ≠ [] →
      ∃ N, AgreeOff xs M N ∧ (∀ C ∈ l, ∀ x ∈ C, N.var x = M.var x) ∧ φ.Holds N := by
    intro l
    induction l with
    | nil => intro _ h; exact absurd rfl h
    | cons C l ih =>
        intro hl _
        have hC := hl List.mem_cons_self
        obtain ⟨M', hM', hφ'⟩ := hM C hC
        have hagree' : AgreeOff xs M M' := hM'.mono fun x hx => (mem_others.mp hx).1
        have hC' : ∀ x ∈ C, M'.var x = M.var x := fun x hx =>
          hM'.var x fun hx' => (mem_others.mp hx').2 hx
        cases l with
        | nil =>
            use M', hagree'
            constructor
            · intro D hD x hx
              rw [List.mem_singleton.mp hD] at hx
              apply hC' x hx
            · apply hφ'
        | cons D l =>
            obtain ⟨N, hN, hvar, hφ⟩ := ih (fun x hx => hl (List.mem_cons_of_mem _ hx)) nofun
            use N.mix C M
            refine ⟨hN.trans ((agreeOff_mix N C M).mono (hcover.subset C hC)), ?_, ?_⟩
            · intro E hE x hx
              by_cases hxC : x ∈ C
              · apply mix_of_mem hxC
              · rw [mix_of_not_mem hxC]
                rcases List.mem_cons.mp hE with rfl | hE
                · apply absurd hx hxC
                · apply hvar E hE x hx
            · apply hsquare C hC
              · exact ⟨N, (agreeOff_mix N C M).symm, hφ⟩
              · refine ⟨M', ⟨hM'.func.trans hN.func.symm, ?_⟩, hφ'⟩
                intro x hx
                by_cases hxC : x ∈ C
                · rw [mix_of_mem hxC, hC' x hxC]
                · have hxs : x ∉ xs := fun hxs => hx (mem_others.mpr ⟨hxs, hxC⟩)
                  rw [mix_of_not_mem hxC, hagree'.var x hxs, hN.var x hxs]
  obtain ⟨N, hN, hvar, hφ⟩ := hstep classes (List.Subset.refl _) hne
  have hNM : AgreeOff [] M N := by
    refine ⟨hN.func, ?_⟩
    intro x _
    by_cases hx : x ∈ xs
    · obtain ⟨C, hC, hxC⟩ := hcover.cover x hx
      apply hvar C hC x hxC
    · apply hN.var x hx
  rw [← hNM.eq]
  apply hφ

/-- A cross that holds does so for all values of the variables outside of some class. -/
theorem exists_class_of_cross (hcover : Cover xs classes) (hne : classes ≠ [])
    (hcross : ∀ C ∈ classes, ∀ N, φ.Holds N →
      (Quantified.all C φ).Holds N ∨ (Quantified.all (others xs C) φ).Holds N)
    (hM : φ.Holds M) :
  ∃ C ∈ classes, (Quantified.all (others xs C) φ).Holds M
  := by
  by_contra hnone
  -- class by class, the formula holds for all values
  have hstep : ∀ l : List (List Var), l ⊆ classes → ∀ N, AgreeOff l.flatten M N → φ.Holds N := by
    intro l
    induction l with
    | nil =>
        intro _ N hN
        rw [hN.eq]
        apply hM
    | cons C l ih =>
        intro hl N hN
        have hC := hl List.mem_cons_self
        have hmix : AgreeOff l.flatten M (N.mix C M) := by
          refine ⟨hN.func, ?_⟩
          intro x hx
          by_cases hxC : x ∈ C
          · apply mix_of_mem hxC
          · rw [mix_of_not_mem hxC]
            apply hN.var
            rw [List.flatten_cons, List.mem_append, not_or]
            exact ⟨hxC, hx⟩
        have hφ := ih (fun x hx => hl (List.mem_cons_of_mem _ hx)) _ hmix
        rcases hcross C hC _ hφ with hall | hall
        · apply hall N (agreeOff_mix N C M).symm
        · refine absurd ⟨C, hC, ?_⟩ hnone
          intro M' hM'
          apply hall
          refine ⟨hM'.func.trans hN.func.symm, ?_⟩
          intro x hx
          rw [hM'.var x hx]
          by_cases hxC : x ∈ C
          · rw [mix_of_mem hxC]
          · have hxs : x ∉ xs := fun hxs => hx (mem_others.mpr ⟨hxs, hxC⟩)
            rw [mix_of_not_mem hxC, hN.var]
            intro hmem
            obtain ⟨D, hD, hxD⟩ := List.mem_flatten.mp hmem
            apply hxs (hcover.subset D (hl hD) hxD)
  obtain ⟨C, hC⟩ := List.exists_mem_of_ne_nil _ hne
  refine hnone ⟨C, hC, fun M' hM' => hstep classes (List.Subset.refl _) M' (hM'.mono ?_)⟩
  intro x hx
  obtain ⟨D, hD, hxD⟩ := hcover.cover x (mem_others.mp hx).1
  apply List.mem_flatten.mpr ⟨D, hD, hxD⟩

end Classes

end LIA
