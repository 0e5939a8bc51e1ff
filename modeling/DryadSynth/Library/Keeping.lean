import Mathlib

/-!
# Computations that keep an invariant

A computation with a state that may stop early keeps an invariant when it leaves a state with the
invariant in every state with it, whether it returns or stops.
-/

namespace Keeping

variable {ε σ α β : Type} {I : σ → Prop}

/-- The computation keeps the invariant. -/
def Keeps (I : σ → Prop) (m : ExceptT ε (StateM σ) α) : Prop := ∀ s, I s → I (m s).2

theorem Keeps.pure (a : α) :
  Keeps I (Pure.pure a : ExceptT ε (StateM σ) α)
  := fun _ hs => hs

theorem Keeps.throw (e : ε) :
  Keeps I (throwThe ε e : ExceptT ε (StateM σ) α)
  := fun _ hs => hs

/-- A computation and what follows it. -/
theorem Keeps.bind {m : ExceptT ε (StateM σ) α} {k : α → ExceptT ε (StateM σ) β} (hm : Keeps I m)
    (hk : ∀ a, Keeps I (k a)) :
  Keeps I (m >>= k)
  := by
  intro s hs
  have hms := hm s hs
  change I (ExceptT.bindCont k (m s).1 (m s).2).2
  cases h : (m s).1 with
  | ok a => exact hk a _ hms
  | error e => exact hms

/-- A computation that first looks at the state. -/
theorem Keeps.get_bind {k : σ → ExceptT ε (StateM σ) β} (hk : ∀ s, I s → I (k s s).2) :
  Keeps I ((get : ExceptT ε (StateM σ) σ) >>= k)
  := fun s hs => hk s hs

theorem Keeps.modify {g : σ → σ} (hg : ∀ s, I s → I (g s)) :
  Keeps I (modify g : ExceptT ε (StateM σ) PUnit)
  := fun s hs => hg s hs

theorem Keeps.ite {c : Prop} [Decidable c] {m m' : ExceptT ε (StateM σ) α} (hm : Keeps I m)
    (hm' : Keeps I m') :
  Keeps I (if c then m else m')
  := by
  split_ifs
  · apply hm
  · apply hm'

end Keeping
