import Mathlib

/-!
# Outcomes

A computation that may fail in several ways, one of which matters: the condition under which
it succeeds, and the one under which it fails in this way.  The two conditions compose along
sequencing and along the traversals of a list.
-/

namespace Outcomes

variable {α β σ ε : Type}

/-! ### The first element that does not pass -/

section Meets

variable {good bad : α → Prop}

/-- An element of `bad` stands in the list after elements of `good` only. -/
def Meets (good bad : α → Prop) (l : List α) : Prop :=
  ∃ pre x post, l = pre ++ x :: post ∧ (∀ y ∈ pre, good y) ∧ bad x

theorem not_meets_nil :
  ¬ Meets good bad []
  := by
  rintro ⟨pre, x, post, h, -⟩
  cases pre <;> cases h

theorem meets_cons {x : α} {l : List α} :
  Meets good bad (x :: l) ↔ bad x ∨ good x ∧ Meets good bad l
  := by
  constructor
  · rintro ⟨pre, y, post, h, hpre, hy⟩
    cases pre with
    | nil =>
        cases h
        left
        apply hy
    | cons z pre =>
        cases h
        right
        use hpre x List.mem_cons_self, pre, y, post, rfl
        use fun z hz => hpre z (List.mem_cons_of_mem x hz)
  · rintro (hx | ⟨hx, pre, y, post, rfl, hpre, hy⟩)
    · use [], x, l, rfl
      use by simp
    · refine ⟨x :: pre, y, post, rfl, ?_, hy⟩
      intro z hz
      rcases List.mem_cons.mp hz with rfl | hz
      · apply hx
      · apply hpre z hz

end Meets

/-! ### Outcomes -/

/-- The computation succeeds exactly under `good`, and fails with `e` exactly under `bad`. -/
structure Outcome (e : ε) (r : Except ε α) (good bad : Prop) : Prop where
  ok : (∃ a, r = .ok a) ↔ good
  error : r = .error e ↔ bad

namespace Outcome

variable {e : ε} {good bad good' bad' : Prop}

theorem pure (e : ε) (a : α) :
  Outcome e (.ok a) True False
  := by
  constructor
  · simp
  · simp

theorem throw {e' : ε} (h : e' ≠ e) :
  Outcome e (.error e' : Except ε α) False False
  := by
  constructor
  · simp
  · simp [h]

theorem fail (e : ε) :
  Outcome e (.error e : Except ε α) False True
  := by
  constructor
  · simp
  · simp

theorem congr {r : Except ε α} (h : Outcome e r good bad) (hgood : good ↔ good')
    (hbad : bad ↔ bad') :
  Outcome e r good' bad'
  := by
  constructor
  · rw [h.ok, hgood]
  · rw [h.error, hbad]

theorem bind {x : Except ε α} {f : α → Except ε β} (hx : Outcome e x good bad)
    (hf : ∀ a, x = .ok a → Outcome e (f a) good' bad') :
  Outcome e (x >>= f) (good ∧ good') (bad ∨ good ∧ bad')
  := by
  cases x with
  | error e' =>
      have hgood : ¬ good := by
        rw [← hx.ok]
        simp
      constructor
      · simp [Bind.bind, Except.bind, hgood]
      · simp [Bind.bind, Except.bind, hgood, ← hx.error]
  | ok a =>
      have hgood : good := hx.ok.mp ⟨a, rfl⟩
      have hbad : ¬ bad := by
        rw [← hx.error]
        simp
      constructor
      · simp [Bind.bind, Except.bind, hgood, ← (hf a rfl).ok]
      · simp [Bind.bind, Except.bind, hgood, hbad, ← (hf a rfl).error]

/-- What follows and cannot fail. -/
theorem map {x : Except ε α} (f : α → β) (hx : Outcome e x good bad) :
  Outcome e (x >>= fun a => .ok (f a)) good bad
  := by
  apply (hx.bind fun a _ => pure e (f a)).congr <;> simp

section Traversals

variable {good bad : α → Prop}

theorem mapM {f : α → Except ε β} {l : List α}
    (h : ∀ x ∈ l, Outcome e (f x) (good x) (bad x)) :
  Outcome e (l.mapM f) (∀ x ∈ l, good x) (Meets good bad l)
  := by
  induction l with
  | nil => apply (pure e []).congr <;> simp [not_meets_nil]
  | cons x l ih =>
      rw [List.mapM_cons]
      apply ((h x List.mem_cons_self).bind fun b _ =>
        map (b :: ·) (ih fun y hy => h y (List.mem_cons_of_mem x hy))).congr
      · simp
      · rw [meets_cons]

theorem foldlM {f : σ → α → Except ε σ} {l : List α} (s : σ)
    (h : ∀ s, ∀ x ∈ l, Outcome e (f s x) (good x) (bad x)) :
  Outcome e (l.foldlM f s) (∀ x ∈ l, good x) (Meets good bad l)
  := by
  induction l generalizing s with
  | nil => apply (pure e s).congr <;> simp [not_meets_nil]
  | cons x l ih =>
      rw [List.foldlM_cons]
      apply ((h s x List.mem_cons_self).bind fun s' _ =>
        ih s' fun s y hy => h s y (List.mem_cons_of_mem x hy)).congr
      · simp
      · rw [meets_cons]

end Traversals

end Outcome

end Outcomes
