import Mathlib

/-!
# Runs that may be left early

A run ends with a value or is left by an exit: an exception, or a `return` from inside a loop.
What holds of the value, and of the exit if there is one, goes through sequencing and through
loops.  The invariant of a loop speaks of the elements that have been passed.
-/

namespace Exits

variable {ε ε' α β σ : Type} {Q : ε → Prop} {P : α → Prop}

/-- A sequence that is not left. -/
theorem bind_eq_ok {x : Except ε α} {f : α → Except ε β} {b : β} :
  x >>= f = .ok b ↔ ∃ a, x = .ok a ∧ f a = .ok b
  := by
  cases x with
  | error e => simp [bind, Except.bind]
  | ok a => simp [bind, Except.bind]

theorem mapM_congr {f g : α → Except ε β} {l : List α} (h : ∀ a ∈ l, f a = g a) :
  l.mapM f = l.mapM g
  := by
  induction l with
  | nil => rfl
  | cons a l ih =>
      rw [List.mapM_cons, List.mapM_cons, h a List.mem_cons_self,
        ih fun b hb => h b (List.mem_cons_of_mem a hb)]

/-- A traversal that is not left. -/
theorem mapM_eq_ok {f : α → Except ε β} {l : List α} {l' : List β} :
  l.mapM f = .ok l' ↔ List.Forall₂ (fun a b => f a = .ok b) l l'
  := by
  induction l generalizing l' with
  | nil => simp [pure, Except.pure, eq_comm]
  | cons a l ih =>
      rw [List.mapM_cons, bind_eq_ok, List.forall₂_cons_left_iff]
      constructor
      · rintro ⟨b, hb, h⟩
        obtain ⟨bs, hbs, h⟩ := bind_eq_ok.mp h
        cases h
        exact ⟨b, bs, hb, ih.mp hbs, rfl⟩
      · rintro ⟨b, bs, hb, hbs, rfl⟩
        refine ⟨b, hb, ?_⟩
        rw [ih.mpr hbs]
        rfl

/-- The value meets `P`, or the exit meets `Q`. -/
def Ends (Q : ε → Prop) (P : α → Prop) : Except ε α → Prop
  | .ok a => P a
  | .error e => Q e

theorem Ends.mono {P' : α → Prop} {x : Except ε α} (h : Ends Q P x) (hP : ∀ a, P a → P' a) :
  Ends Q P' x
  := by
  cases x with
  | error e => exact h
  | ok a => exact hP a h

/-- Weaker conditions, for the exit too. -/
theorem Ends.imp {Q' : ε → Prop} {P' : α → Prop} {x : Except ε α} (h : Ends Q P x)
    (hQ : ∀ e, Q e → Q' e) (hP : ∀ a, P a → P' a) :
  Ends Q' P' x
  := by
  cases x with
  | error e => exact hQ e h
  | ok a => exact hP a h

/-- A run goes on from its value. -/
theorem Ends.bind_of_ok {R : β → Prop} {x : Except ε α} {f : α → Except ε β} (hx : Ends Q P x)
    (hf : ∀ a, x = .ok a → P a → Ends Q R (f a)) :
  Ends Q R (x >>= f)
  := by
  cases x with
  | error e => exact hx
  | ok a => exact hf a rfl hx

theorem Ends.bind {R : β → Prop} {x : Except ε α} {f : α → Except ε β} (hx : Ends Q P x)
    (hf : ∀ a, P a → Ends Q R (f a)) :
  Ends Q R (x >>= f)
  := by
  apply hx.bind_of_ok
  intro a _ ha
  apply hf a ha

/-- A run that may not be left. -/
theorem ends_false {x : Except ε α} :
  Ends (fun _ => False) P x ↔ ∃ a, x = .ok a ∧ P a
  := by
  cases x with
  | error e => simp [Ends]
  | ok a => simp [Ends]

theorem ends_mapError {f : ε' → ε} {x : Except ε' α} (h : ∃ a, x = .ok a ∧ P a) :
  Ends Q P (x.mapError f)
  := by
  obtain ⟨a, rfl, ha⟩ := h
  apply ha

/-- A loop, from what one pass does to the invariant. -/
theorem ends_foldlM {f : σ → α → Except ε σ} (I : List α → σ → Prop) {l : List α} {s : σ}
    (hstart : I [] s)
    (hpass : ∀ pre a post, l = pre ++ a :: post → ∀ s, I pre s → Ends Q (I (pre ++ [a])) (f s a)) :
  Ends Q (I l) (l.foldlM f s)
  := by
  induction l generalizing s I with
  | nil => exact hstart
  | cons a l ih =>
      rw [List.foldlM_cons]
      apply Ends.bind (hpass [] a l rfl s hstart)
      intro s' hs'
      apply ih (fun pre => I (a :: pre)) hs'
      intro pre b post hl t ht
      apply hpass (a :: pre) b post _ t ht
      rw [hl, List.cons_append]

/-- A loop that is not left, from what a pass that is not left does to the invariant. -/
theorem foldlM_eq_ok {f : σ → α → Except ε σ} {I : σ → Prop} {l : List α} {s s' : σ} (hs : I s)
    (hpass : ∀ a ∈ l, ∀ s s', I s → f s a = .ok s' → I s') (h : l.foldlM f s = .ok s') :
  I s'
  := by
  induction l generalizing s with
  | nil =>
      cases h
      exact hs
  | cons a l ih =>
      rw [List.foldlM_cons] at h
      obtain ⟨s₁, h₁, h⟩ := bind_eq_ok.mp h
      apply ih (hpass a List.mem_cons_self s s₁ hs h₁) _ h
      intro b hb
      apply hpass b (List.mem_cons_of_mem a hb)

/-- A traversal that may not be left. -/
theorem exists_mapM {f : α → Except ε β} {l : List α} (h : ∀ a ∈ l, ∃ b, f a = .ok b) :
  ∃ bs, l.mapM f = .ok bs ∧ bs.length = l.length ∧ ∀ b, b ∈ bs ↔ ∃ a ∈ l, f a = .ok b
  := by
  induction l with
  | nil => exact ⟨[], rfl, rfl, by simp⟩
  | cons a l ih =>
      obtain ⟨b, hb⟩ := h a List.mem_cons_self
      obtain ⟨bs, hbs, hlen, hmem⟩ := ih fun a' ha' => h a' (List.mem_cons_of_mem a ha')
      refine ⟨b :: bs, ?_, by rw [List.length_cons, List.length_cons, hlen], ?_⟩
      · rw [List.mapM_cons, hb, hbs]
        rfl
      · intro b'
        rw [List.mem_cons, hmem]
        constructor
        · rintro (rfl | ⟨a', ha', hb'⟩)
          · exact ⟨a, List.mem_cons_self, hb⟩
          · exact ⟨a', List.mem_cons_of_mem a ha', hb'⟩
        · rintro ⟨a', ha', hb'⟩
          rcases List.mem_cons.mp ha' with rfl | ha'
          · rw [hb] at hb'
            cases hb'
            exact .inl rfl
          · exact .inr ⟨a', ha', hb'⟩

end Exits
