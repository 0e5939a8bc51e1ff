import DryadSynth.Library.LIA.Calls

/-!
# Conditionals between formulas

Conditionals of sort `Bool` are replaced by disjunctions of two conjunctions.
-/

namespace Sygus

open LIA

/-- An application, or the disjunction for a conditional of sort `Bool`. -/
def elimApp (isBool : Bool) (o : Op) (args : List Expr) : Expr :=
  match o, args with
  | .ite, [condTerm, thenTerm, elseTerm] =>
      if isBool then
        .or [.and [condTerm, thenTerm], .and [.not condTerm, elseTerm]]
      else .app .ite [condTerm, thenTerm, elseTerm]
  | o, args => .app o args

mutual

/-- Eliminate the conditionals between formulas. -/
def elimITE : Expr → Expr
  | .num n => .num n
  | .var x => .var x
  | .app o args => elimApp ((Expr.app o args).sort = some .bool) o (elimAll args)

def elimAll : List Expr → List Expr
  | [] => []
  | e :: l => elimITE e :: elimAll l

end

section ElimITE

variable {e : Expr} {o : Op} {l : List Expr}

theorem elimAll_eq (l : List Expr) :
  elimAll l = l.map elimITE
  := by
  induction l with
  | nil => rfl
  | cons e l ih => rw [elimAll, ih, List.map_cons]

theorem elimApp_preserves (b : Bool) (h : b = true → (Expr.app o l).sort = some .bool) :
  Preserves (.app o l) (elimApp b o l)
  := by
  unfold elimApp
  split
  · next c t f =>
      split
      · next hb =>
          obtain ⟨hc, ht, hf⟩ := sort_ite.mp (h hb)
          apply Preserves.of_holds
          intro s hs
          obtain rfl : s = .bool := Option.some.inj (hs.symm.trans (h hb))
          refine ⟨rfl, by simp [hc, ht, hf], fun M => ?_⟩
          rw [holds_or_pair, holds_and_pair, holds_and_pair, holds_not, holds_ite]
          split
          · next hM => simp [hM]
          · next hM => simp [hM]
      · apply Preserves.refl _
  · apply Preserves.refl _

theorem elimITE_preserves (e : Expr) :
  Preserves e (elimITE e)
  := by
  induction e with
  | num n => exact Preserves.refl _
  | var x => exact Preserves.refl _
  | app o args ih =>
      rw [elimITE, elimAll_eq]
      intro s hs
      have hmap := Preserves.map o ih s hs
      have hbool : decide ((Expr.app o args).sort = some .bool) = true →
          (Expr.app o (args.map elimITE)).sort = some .bool := by
        intro h
        rw [hmap.1, ← hs]
        apply of_decide_eq_true h
      obtain ⟨hs', heval⟩ := elimApp_preserves _ hbool s hmap.1
      exact ⟨hs', fun M => (heval M).trans (hmap.2 M)⟩

theorem calls_elimApp (b : Bool) (h : (Expr.app o l).calls = []) :
  (elimApp b o l).calls = []
  := by
  unfold elimApp
  split
  · next c t f =>
      split
      · obtain ⟨hc, ht, hf⟩ : c.calls = [] ∧ t.calls = [] ∧ f.calls = [] := by
          simpa [Expr.calls, Expr.callsAll] using h
        simp [Expr.calls, Expr.callsAll, hc, ht, hf]
      · apply h
  · apply h

theorem calls_elimITE (h : e.calls = []) :
  (elimITE e).calls = []
  := by
  induction e with
  | num n => rfl
  | var x => rfl
  | app o args ih =>
      rw [elimITE, elimAll_eq]
      apply calls_elimApp
      rw [List.eq_nil_iff_forall_not_mem] at h ⊢
      intro c hc
      rcases mem_calls_app.mp hc with ⟨f, rfl, -⟩ | ⟨e', he', hc⟩
      · apply h (f, args) (mem_calls_app.mpr (Or.inl ⟨f, rfl, rfl⟩))
      · obtain ⟨e, he, rfl⟩ := List.mem_map.mp he'
        rw [ih e he] at hc
        · cases hc
        · rw [List.eq_nil_iff_forall_not_mem]
          intro c' hc'
          apply h c' (mem_calls_app.mpr (Or.inr ⟨e, he, hc'⟩))

end ElimITE

end Sygus
