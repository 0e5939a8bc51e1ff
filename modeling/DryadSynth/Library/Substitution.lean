import DryadSynth.Library.QFBV

/-!
# Substitution in terms

Replacing the constants of a term by terms, and its meaning: the value of the result is the
value of the term where the replaced constants have the values of the terms that replace
them.
-/

namespace QFBV

variable {w : ℕ}

@[elab_as_elim]
theorem Term.ind {P : Term w → Prop} (symbol : ∀ s, P (.symbol s)) (literal : ∀ x, P (.literal x))
    (app : ∀ f ts, (∀ t ∈ ts, P t) → P (.app f ts)) (t : Term w) :
  P t
  := by
  refine @Term.rec w P (fun l => ∀ t ∈ l, P t) symbol literal app ?_ ?_ t
  · intro t ht
    cases ht
  · intro t l ht hl t' ht'
    rcases List.mem_cons.mp ht' with rfl | ht'
    · apply ht
    · apply hl t' ht'

mutual

/-- Replacing constants by terms. -/
def Term.substitute (σ : String → Option (Term w)) : Term w → Term w
  | .symbol s => (σ s).getD (.symbol s)
  | .literal x => .literal x
  | .app f ts => .app f (Term.substituteAll σ ts)

/-- Replacing constants by terms in a list of terms. -/
def Term.substituteAll (σ : String → Option (Term w)) : List (Term w) → List (Term w)
  | [] => []
  | t :: ts => t.substitute σ :: Term.substituteAll σ ts

end

variable {U : Interpretation w} {ρ : Valuation w}

/-- The valuation in which the replaced constants have the values of the terms. -/
def Valuation.extend (U : Interpretation w) (ρ : Valuation w) (σ : String → Option (Term w)) :
    Valuation w := fun s =>
  match σ s with
  | some t => denote U ρ t
  | none => ρ s

/-- The value after a substitution. -/
theorem denote_substitute (σ : String → Option (Term w)) (t : Term w) :
  denote U ρ (t.substitute σ) = denote U (Valuation.extend U ρ σ) t
  := by
  induction t using Term.ind with
  | symbol s =>
      rw [Term.substitute, denote, Valuation.extend]
      cases σ s <;> rfl
  | literal x => rfl
  | app f ts ih =>
      have hall : denoteAll U ρ (Term.substituteAll σ ts)
          = denoteAll U (Valuation.extend U ρ σ) ts := by
        induction ts with
        | nil => rfl
        | cons t ts ihts =>
            rw [Term.substituteAll, denoteAll_cons, denoteAll_cons, ih t List.mem_cons_self,
              ihts fun t' ht' => ih t' (List.mem_cons_of_mem t ht')]
      rw [Term.substitute, denote, denote, hall]

/-- The values of a list are those of its elements. -/
theorem denoteAll_map {α : Type*} {f : α → Term w} {g : α → Value w}
    (h : ∀ a, denote U ρ (f a) = some (g a)) (l : List α) :
  denoteAll U ρ (l.map f) = some (l.map g)
  := by
  induction l with
  | nil => rfl
  | cons a l ih => simp [h, ih]

theorem length_of_denoteAll {ts : List (Term w)} {vs : List (Value w)}
    (h : denoteAll U ρ ts = some vs) :
  vs.length = ts.length
  := by
  induction ts generalizing vs with
  | nil =>
      cases h
      rfl
  | cons t ts ih =>
      rw [denoteAll_cons] at h
      obtain ⟨v, -, h⟩ := Option.bind_eq_some_iff.mp h
      obtain ⟨vs', hvs', rfl⟩ := Option.map_eq_some_iff.mp h
      rw [List.length_cons, List.length_cons, ih hvs']

/-- Parameters replaced by terms have the values of the terms. -/
theorem extend_zip {params : List String} {α : Type*} {f : α → Term w} {g : α → Value w}
    (h : ∀ a, denote U ρ (f a) = some (g a)) (hρ : ∀ s, ρ s = none) (l : List α) :
  Valuation.extend U ρ (fun s => ((params.zip (l.map f)).find? fun p => p.1 = s).map Prod.snd)
    = bindParams params (l.map g)
  := by
  funext s
  induction params generalizing l with
  | nil => simp [Valuation.extend, bindParams, hρ]
  | cons p params ih =>
      cases l with
      | nil => simp [Valuation.extend, bindParams, hρ]
      | cons a l =>
          have ih := ih l
          rw [Valuation.extend, bindParams] at ih ⊢
          by_cases hp : p = s
          · simp [hp, h]
          · simpa [hp] using ih

end QFBV
