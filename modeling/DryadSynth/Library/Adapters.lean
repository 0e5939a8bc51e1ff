import DryadSynth.Library.Iteration

/-!
# Iterator adapters

Iterators made from others.  Each adapter comes with what it delivers, in terms of what the
iterators it is made from deliver: mapping, chaining, numbering, pairing and flattening are the
operations on lists of these names.
-/

namespace Iteration

variable {σ τ α β ε : Type}

/-- `into_iter` of an array, on the elements that are left. -/
def items : List α → Except ε (Option α × List α)
  | [] => .ok (none, [])
  | a :: l => .ok (some a, l)

theorem delivers_items (l : List α) :
  Delivers (ε := ε) items l l []
  := by
  induction l with
  | nil => apply Delivers.done rfl
  | cons a l ih => apply Delivers.step rfl ih

section

variable (next : σ → Except ε (Option α × σ)) (next' : τ → Except ε (Option β × τ))

/-- `map`. -/
def map (f : α → β) (s : σ) : Except ε (Option β × σ) := do
  let (a, s) ← next s
  .ok (a.map f, s)

/-- `chain`; the first iterator is dropped when it ends. -/
def chain (next' : τ → Except ε (Option α × τ)) :
    Option σ × τ → Except ε (Option α × (Option σ × τ))
  | (none, t) => do
      let (a, t) ← next' t
      .ok (a, (none, t))
  | (some s, t) => do
      match ← next s with
      | (some a, s) => .ok (some a, (some s, t))
      | (none, _) => do
          let (a, t) ← next' t
          .ok (a, (none, t))

/-- `enumerate`, with the number of the next element. -/
def enumerate : σ × ℕ → Except ε (Option (ℕ × α) × (σ × ℕ))
  | (s, n) => do
      match ← next s with
      | (none, s) => .ok (none, (s, n))
      | (some a, s) => .ok (some (n, a), (s, n + 1))

/-- `zip`; the second iterator is not asked when the first has ended. -/
def zip : σ × τ → Except ε (Option (α × β) × (σ × τ))
  | (s, t) => do
      match ← next s with
      | (none, s) => .ok (none, (s, t))
      | (some a, s) => do
          match ← next' t with
          | (none, t) => .ok (none, (s, t))
          | (some b, t) => .ok (some (a, b), (s, t))

variable {next next'} {s s' : σ} {t t' : τ} {l : List α} {m : List β}

theorem Delivers.map (h : Delivers next s l s') (f : α → β) :
  Delivers (map next f) s (l.map f) s'
  := by
  induction h with
  | done hs => apply Delivers.done (by simp only [Iteration.map, hs]; rfl)
  | step hs hl ih => apply Delivers.step (by simp only [Iteration.map, hs]; rfl) ih

theorem Delivers.chain {next' : τ → Except ε (Option α × τ)} {m : List α}
    (h : Delivers next s l s') (h' : Delivers next' t m t') :
  Delivers (chain next next') (some s, t) (l ++ m) (none, t')
  := by
  have hsecond : ∀ {t m u}, Delivers next' t m u →
      Delivers (Iteration.chain next next') (none, t) m (none, u) := by
    intro t m u hu
    induction hu with
    | done ht => apply Delivers.done (by simp only [Iteration.chain, ht]; rfl)
    | step ht hm ih => apply Delivers.step (by simp only [Iteration.chain, ht]; rfl) ih
  induction h with
  | done hs =>
      cases h' with
      | done ht => apply Delivers.done (by simp only [Iteration.chain, hs, ht]; rfl)
      | step ht hm =>
          apply Delivers.step (by simp only [Iteration.chain, hs, ht]; rfl) (hsecond hm)
  | step hs hl ih => apply Delivers.step (by simp only [Iteration.chain, hs]; rfl) ih

theorem Delivers.enumerate (h : Delivers next s l s') (n : ℕ) :
  Delivers (enumerate next) (s, n) ((l.zipIdx n).map Prod.swap) (s', n + l.length)
  := by
  induction h generalizing n with
  | done hs => apply Delivers.done (by simp only [Iteration.enumerate, hs]; rfl)
  | @step s s' s'' a l hs hl ih =>
      have hlen : n + (a :: l).length = n + 1 + l.length := by
        rw [List.length_cons]
        omega
      rw [hlen]
      apply Delivers.step (by simp only [Iteration.enumerate, hs]; rfl) (ih (n + 1))

theorem Delivers.zip (h : Delivers next s l s') (h' : Delivers next' t m t') :
  ∃ u, Delivers (zip next next') (s, t) (l.zip m) u
  := by
  induction h generalizing t m with
  | @done s s' hs =>
      use (s', t)
      apply Delivers.done (by simp only [Iteration.zip, hs]; rfl)
  | @step s s' s'' a l hs hl ih =>
      cases h' with
      | done ht =>
          use (s', t')
          apply Delivers.done (by simp only [Iteration.zip, hs, ht]; rfl)
      | step ht hm =>
          obtain ⟨u, hu⟩ := ih hm
          use u
          apply Delivers.step (by simp only [Iteration.zip, hs, ht]; rfl) hu

end

section FlatMap

variable (out : ε) (next : σ → Except ε (Option α × σ))
  (make : α → τ) (inner : α → τ → Except ε (Option β × τ))

/-- `flat_map`.  The outer iterator is dropped when it ends, and the inner one is that of the
last element the outer one has returned.  A call that runs out of fuel before an inner iterator
returns an element fails with `out`. -/
def flatMap : ℕ → Option σ × Option (α × τ) → Except ε (Option β × (Option σ × Option (α × τ)))
  | 0, _ => .error out
  | fuel + 1, (s, some (a, t)) => do
      match ← inner a t with
      | (some b, t) => .ok (some b, (s, some (a, t)))
      | (none, _) => flatMap fuel (s, none)
  | _ + 1, (none, none) => .ok (none, (none, none))
  | fuel + 1, (some s, none) => do
      match ← next s with
      | (none, _) => .ok (none, (none, none))
      | (some a, s) => flatMap fuel (some s, some (a, make a))

variable {out next make inner} {fuel : ℕ} {s s' : σ} {t t' : τ} {a : α} {b : β}

theorem flatMap_of_item (ht : inner a t = .ok (some b, t')) (s : Option σ) :
  flatMap out next make inner (fuel + 1) (s, some (a, t)) = .ok (some b, (s, some (a, t')))
  := by
  simp only [flatMap, ht, bind, Except.bind]

theorem flatMap_of_inner_ended (ht : inner a t = .ok (none, t')) (s : Option σ) :
  flatMap out next make inner (fuel + 1) (s, some (a, t))
    = flatMap out next make inner fuel (s, none)
  := by
  simp only [flatMap, ht, bind, Except.bind]

theorem flatMap_of_ended (hs : next s = .ok (none, s')) :
  flatMap out next make inner (fuel + 1) (some s, none) = .ok (none, (none, none))
  := by
  simp only [flatMap, hs, bind, Except.bind]

theorem flatMap_of_first (hs : next s = .ok (some a, s'))
    (ht : inner a (make a) = .ok (some b, t)) :
  flatMap out next make inner (fuel + 2) (some s, none) = .ok (some b, (some s', some (a, t)))
  := by
  simp only [flatMap, hs, bind, Except.bind, ht]

variable {f : α → List β} {l : List α} {m : List β}

/-- In the middle of an inner iterator, when no inner iterator is empty. -/
theorem Delivers.flatMap_inner (h : Delivers next s l s')
    (hinner : ∀ a ∈ l, f a ≠ [] ∧ ∃ t, Delivers (inner a) (make a) (f a) t)
    (ht : Delivers (inner a) t m t') :
  Delivers (flatMap out next make inner (fuel + 3)) (some s, some (a, t)) (m ++ l.flatMap f)
    (none, none)
  := by
  induction h generalizing a t m t' with
  | done hs =>
      induction ht with
      | done ht =>
          apply Delivers.done
          rw [flatMap_of_inner_ended ht, flatMap_of_ended hs]
      | step ht hm ih => apply Delivers.step (flatMap_of_item ht _) ih
  | @step s s' s'' a' l hs hl ih =>
      induction ht with
      | done ht =>
          obtain ⟨hne, t', ha'⟩ := hinner a' List.mem_cons_self
          rw [List.nil_append, List.flatMap_cons]
          generalize f a' = m at hne ha'
          cases ha' with
          | done ha' => cases hne rfl
          | step ha' hm =>
              apply Delivers.step
              · rw [flatMap_of_inner_ended ht]
                apply flatMap_of_first hs ha'
              apply ih _ hm
              intro a'' ha''
              apply hinner a'' (List.mem_cons_of_mem a' ha'')
      | step ht hm ih' => apply Delivers.step (flatMap_of_item ht _) ih'

/-- When no inner iterator is empty. -/
theorem Delivers.flatMap (h : Delivers next s l s')
    (hinner : ∀ a ∈ l, f a ≠ [] ∧ ∃ t, Delivers (inner a) (make a) (f a) t) (hfuel : 3 ≤ fuel) :
  Delivers (flatMap out next make inner fuel) (some s, none) (l.flatMap f) (none, none)
  := by
  obtain ⟨fuel, rfl⟩ := Nat.exists_eq_add_of_le' hfuel
  cases h with
  | done hs => apply Delivers.done (flatMap_of_ended hs)
  | @step _ s _ a l hs hl =>
      obtain ⟨hne, t, ha⟩ := hinner a List.mem_cons_self
      rw [List.flatMap_cons]
      generalize f a = m at hne ha
      cases ha with
      | done ha => cases hne rfl
      | step ha hm =>
          apply Delivers.step (flatMap_of_first hs ha)
          apply hl.flatMap_inner _ hm
          intro a' ha'
          apply hinner a' (List.mem_cons_of_mem a ha')

theorem Yields.flatMap (h : Yields next s l)
    (hinner : ∀ a ∈ l, f a ≠ [] ∧ ∃ t, Delivers (inner a) (make a) (f a) t) (hfuel : 3 ≤ fuel) :
  Yields (flatMap out next make inner fuel) (some s, none) (l.flatMap f)
  := by
  obtain ⟨s', hs', -⟩ := h
  use (none, none), hs'.flatMap hinner hfuel
  obtain ⟨fuel, rfl⟩ := Nat.exists_eq_add_of_le' hfuel
  rfl

end FlatMap

end Iteration
