import DryadSynth.Library.Lists

/-!
# Folds with a stack and a cache

A fold computes a result for a node from the results for its children.  The loop keeps the nodes
that wait in a stack and the results in a cache.  It looks at the node on top of the stack: if
results for children are missing, it pushes these children; otherwise it pops the node and puts
its result.  A node may be several times in the stack, and the cache may have entries from the
start.

The result for the node the loop starts with is the one of the recursion that looks up every node
below it in the initial cache.
-/

namespace Worklist

open Lists

variable {α β : Type*}

/-- What a node needs results for, and what it makes of them, where it makes anything. -/
structure Fold (α β : Type*) where
  children : α → List α
  combine : α → List β → Option β

/-- The stack, its top first, and the results so far. -/
structure State (α β : Type*) where
  todo : List α
  cache : α → Option β

/-- The result for a node, from the results `value` for its children. -/
def Fold.result (F : Fold α β) (value : α → Option β) (t : α) : Option β :=
  ((F.children t).mapM value).bind (F.combine t)

section Loop

variable [DecidableEq α] (F : Fold α β)

/-- One iteration, for the node on top of the stack. -/
def Fold.visit (t : α) (todo : List α) (cache : α → Option β) : Option (State α β) :=
  match (F.children t).filter fun c => (cache c).isNone with
  | [] =>
      (F.combine t ((F.children t).filterMap cache)).map fun b =>
        ⟨todo, Function.update cache t (some b)⟩
  | missing => some ⟨missing.reverse ++ t :: todo, cache⟩

/-- The loop.  It ends with the cache, or without one where there is no result for a node; there
is no outcome if the iterations do not suffice. -/
def Fold.loop : ℕ → State α β → Option (Option (α → Option β))
  | 0, _ => none
  | _ + 1, ⟨[], cache⟩ => some (some cache)
  | n + 1, ⟨t :: todo, cache⟩ =>
      match F.visit t todo cache with
      | none => some none
      | some s => Fold.loop n s

/-- The result for a node, by the loop that starts with the cache `cache`. -/
def Fold.run (n : ℕ) (cache : α → Option β) (t : α) : Option (Option β) :=
  (F.loop n ⟨[t], cache⟩).map fun c => c.bind fun c => c t

/-- The loop ends, with an outcome that satisfies `P`, the same for all numbers of iterations
above some bound. -/
def Fold.Ends (s : State α β) (P : Option (α → Option β) → Prop) : Prop :=
  ∃ r, P r ∧ ∃ n, ∀ m ≥ n, F.loop m s = some r

variable {F} {P : Option (α → Option β) → Prop}

theorem ends_nil {cache : α → Option β} (h : P (some cache)) :
  F.Ends ⟨[], cache⟩ P
  := by
  use some cache, h, 1
  intro m hm
  obtain ⟨k, rfl⟩ := Nat.exists_eq_add_of_le' hm
  rfl

theorem ends_visit {t : α} {todo : List α} {cache : α → Option β} {s : State α β}
    (hs : F.visit t todo cache = some s) (h : F.Ends s P) :
  F.Ends ⟨t :: todo, cache⟩ P
  := by
  obtain ⟨r, hr, n, hn⟩ := h
  use r, hr, n + 1
  intro m hm
  obtain ⟨k, rfl⟩ := Nat.exists_eq_add_of_le' (Nat.one_le_of_lt hm)
  rw [Fold.loop, hs]
  apply hn k (by omega)

theorem ends_fail {t : α} {todo : List α} {cache : α → Option β}
    (hs : F.visit t todo cache = none) (h : P none) :
  F.Ends ⟨t :: todo, cache⟩ P
  := by
  use none, h, 1
  intro m hm
  obtain ⟨k, rfl⟩ := Nat.exists_eq_add_of_le' hm
  rw [Fold.loop, hs]

end Loop

/-! ### The recursion the loop computes -/

section Results

variable {F : Fold α β}

/-- The results `value` are those of the recursion that looks up a node in `cache` first. -/
structure Solves (F : Fold α β) (cache value : α → Option β) : Prop where
  cached {t : α} {b : β} : cache t = some b → value t = some b
  result {t : α} : cache t = none → value t = F.result value t

/-- What the cache `c` has are results, and it has those of the initial cache `c₀`. -/
structure Sound (c₀ value c : α → Option β) : Prop where
  value {t : α} {b : β} : c t = some b → value t = some b
  initial {t : α} : c t = none → c₀ t = none

variable {c₀ value c : α → Option β}

theorem Solves.sound (h : Solves F c₀ value) :
  Sound c₀ value c₀
  := ⟨h.cached, id⟩

/-- Results that the cache has are those of the recursion. -/
theorem Sound.mapM (h : Sound c₀ value c) {l : List α} (hl : ∀ u ∈ l, c u ≠ none) :
  l.mapM value = some (l.filterMap c)
  := by
  induction l with
  | nil => rfl
  | cons u l ih =>
      obtain ⟨b, hb⟩ := Option.ne_none_iff_exists'.mp (hl u List.mem_cons_self)
      rw [List.mapM_cons, h.value hb, ih fun v hv => hl v (List.mem_cons_of_mem u hv),
        List.filterMap_cons_some hb]
      rfl

end Results

section Recursion

variable [DecidableEq α] {F : Fold α β} {c₀ value c : α → Option β}
  {P : Option (α → Option β) → Prop} {todo : List α}

theorem Sound.update (h : Sound c₀ value c) {t : α} {b : β} (hb : value t = some b) :
  Sound c₀ value (Function.update c t (some b))
  := by
  constructor
  · intro u b' hu
    by_cases hut : u = t
    · subst hut
      rw [Function.update_self] at hu
      rw [hb, hu]
    · rw [Function.update_of_ne hut] at hu
      apply h.value hu
  · intro u hu
    by_cases hut : u = t
    · subst hut
      rw [Function.update_self] at hu
      cases hu
    · rw [Function.update_of_ne hut] at hu
      apply h.initial hu

/-- What the loop does with a node: it puts the result after those for the nodes below it, or it
ends there.  Whatever it does with the nodes of smaller rank it does with this one. -/
theorem ends_of_children {t : α}
    (ih : ∀ u ∈ F.children t, ∀ (c : α → Option β) (todo : List α), Sound c₀ value c →
      c₀ u = none →
      (∀ c', Sound c₀ value c' → c' u ≠ none → (∀ v, c v ≠ none → c' v ≠ none) →
        F.Ends ⟨todo, c'⟩ P) →
      (value u = none → P none) → F.Ends ⟨u :: todo, c⟩ P)
    (hc : Sound c₀ value c)
    (hsome : ∀ c' b, Sound c₀ value c' → (∀ v, c v ≠ none → c' v ≠ none) →
      F.result value t = some b → F.Ends ⟨todo, Function.update c' t (some b)⟩ P)
    (hnone : F.result value t = none → P none) :
  F.Ends ⟨t :: todo, c⟩ P
  := by
  -- the iteration that finds the results for all children
  have hfound : ∀ c', Sound c₀ value c' → (∀ v, c v ≠ none → c' v ≠ none) →
      (∀ u ∈ F.children t, c' u ≠ none) → F.Ends ⟨t :: todo, c'⟩ P := by
    intro c' hc' hext hall
    have hmissing : (F.children t).filter (fun u => (c' u).isNone) = [] := by
      rw [List.filter_eq_nil_iff]
      intro u hu
      rw [Option.isNone_iff_eq_none]
      apply hall u hu
    have hresult : F.result value t = F.combine t ((F.children t).filterMap c') := by
      rw [Fold.result, hc'.mapM hall, Option.bind_some]
    have hvisit : F.visit t todo c'
        = (F.result value t).map fun b => ⟨todo, Function.update c' t (some b)⟩ := by
      rw [Fold.visit, hmissing, hresult]
    cases hb : F.result value t with
    | none =>
        rw [hb, Option.map_none] at hvisit
        apply ends_fail hvisit (hnone hb)
    | some b =>
        rw [hb, Option.map_some] at hvisit
        apply ends_visit hvisit (hsome c' b hc' hext hb)
  -- the nodes that are pushed, one after the other
  have hpushed : ∀ (l : List α), (∀ u ∈ l, u ∈ F.children t ∧ c₀ u = none) →
      ∀ c', Sound c₀ value c' → (∀ v, c v ≠ none → c' v ≠ none) →
      (∀ u ∈ F.children t, u ∈ l ∨ c' u ≠ none) → F.Ends ⟨l ++ t :: todo, c'⟩ P := by
    intro l
    induction l with
    | nil =>
        intro _ c' hc' hext hall
        apply hfound c' hc' hext
        intro u hu
        apply (hall u hu).resolve_left (by simp)
    | cons u l ihl =>
        intro hl c' hc' hext hall
        obtain ⟨hu, hu₀⟩ := hl u List.mem_cons_self
        apply ih u hu c' (l ++ t :: todo) hc' hu₀
        · intro c'' hc'' hu'' hext'
          apply ihl (fun v hv => hl v (List.mem_cons_of_mem u hv)) c'' hc''
          · intro v hv
            apply hext' v (hext v hv)
          · intro v hv
            rcases hall v hv with hv' | hv'
            · rcases List.mem_cons.mp hv' with rfl | hv'
              · exact .inr hu''
              · exact .inl hv'
            · exact .inr (hext' v hv')
        · intro hvalue
          apply hnone
          rw [Fold.result, mapM_eq_none hu hvalue, Option.bind_none]
  by_cases hmissing : (F.children t).filter (fun u => (c u).isNone) = []
  · apply hfound c hc fun _ => id
    intro u hu hcu
    have hu' := List.filter_eq_nil_iff.mp hmissing u hu
    rw [hcu] at hu'
    apply hu' rfl
  · have hvisit : F.visit t todo c
        = some ⟨((F.children t).filter fun u => (c u).isNone).reverse ++ t :: todo, c⟩ := by
      rw [Fold.visit]
      split
      · rename_i heq
        apply absurd heq hmissing
      · rfl
    apply ends_visit hvisit
    apply hpushed _ _ c hc fun _ => id
    · intro u hu
      by_cases hcu : c u = none
      · left
        simp [hu, hcu]
      · exact .inr hcu
    · intro u hu
      obtain ⟨hu, hcu⟩ := List.mem_filter.mp (List.mem_reverse.mp hu)
      exact ⟨hu, hc.initial (Option.isNone_iff_eq_none.mp hcu)⟩

/-- The loop treats a node on top of the stack and goes on below it. -/
theorem Solves.ends (h : Solves F c₀ value) (rank : α → ℕ)
    (hrank : ∀ t, ∀ u ∈ F.children t, rank u < rank t) (t : α) (hc : Sound c₀ value c)
    (hsome : ∀ c' b, Sound c₀ value c' → (∀ v, c v ≠ none → c' v ≠ none) →
      F.result value t = some b → F.Ends ⟨todo, Function.update c' t (some b)⟩ P)
    (hnone : F.result value t = none → P none) :
  F.Ends ⟨t :: todo, c⟩ P
  := by
  induction hn : rank t using Nat.strong_induction_on generalizing t c todo with
  | _ n ih =>
      apply ends_of_children _ hc hsome hnone
      intro u hu c' todo' hc' hu₀ hgo hfail
      have hvalue := h.result hu₀
      apply ih (rank u) (hn ▸ hrank t u hu) u hc' _ _ rfl
      · intro c'' b hc'' hext hb
        apply hgo _ (hc''.update (hvalue.trans hb))
        · rw [Function.update_self]
          nofun
        · intro v hv
          by_cases hvu : v = u
          · subst hvu
            rw [Function.update_self]
            nofun
          · rw [Function.update_of_ne hvu]
            apply hext v hv
      · intro hb
        apply hfail (hvalue.trans hb)

/-- The loop ends, with the result for the node it starts with. -/
theorem Solves.run (h : Solves F c₀ value) (rank : α → ℕ)
    (hrank : ∀ t, ∀ u ∈ F.children t, rank u < rank t) (t : α) :
  ∃ n, ∀ m ≥ n, F.run m c₀ t = some (F.result value t)
  := by
  have hends : F.Ends ⟨[t], c₀⟩ fun r => r.bind (fun c => c t) = F.result value t := by
    apply h.ends rank hrank t h.sound
    · intro c b _ _ hb
      apply ends_nil
      rw [Option.bind_some, Function.update_self, hb]
    · intro hb
      rw [hb, Option.bind_none]
  obtain ⟨r, hr, n, hn⟩ := hends
  use n
  intro m hm
  rw [Fold.run, hn m hm, Option.map_some, hr]

end Recursion

/-! ### The results by recursion on the rank -/

section Rank

variable {F : Fold α β} {c₀ : α → Option β}

/-- The results for nodes of rank below `n`. -/
def Fold.value (F : Fold α β) (c₀ : α → Option β) : ℕ → α → Option β
  | 0, _ => none
  | n + 1, t =>
      match c₀ t with
      | some b => some b
      | none => F.result (Fold.value F c₀ n) t

theorem result_congr {value value' : α → Option β} {t : α}
    (h : ∀ u ∈ F.children t, value u = value' u) :
  F.result value t = F.result value' t
  := by
  rw [Fold.result, Fold.result, mapM_congr h]

theorem value_eq (rank : α → ℕ) (hrank : ∀ t, ∀ u ∈ F.children t, rank u < rank t) {t : α}
    {m n : ℕ} (hm : rank t < m) (hn : rank t < n) :
  F.value c₀ m t = F.value c₀ n t
  := by
  induction m generalizing t n with
  | zero => omega
  | succ m ih =>
      obtain ⟨k, rfl⟩ := Nat.exists_eq_add_of_le' (Nat.one_le_of_lt hn)
      rw [Fold.value, Fold.value]
      cases c₀ t with
      | some b => rfl
      | none =>
          apply result_congr
          intro u hu
          have hut := hrank t u hu
          apply ih (by omega) (by omega)

/-- Where the children of a node have smaller rank, there are results. -/
theorem exists_solves (rank : α → ℕ) (hrank : ∀ t, ∀ u ∈ F.children t, rank u < rank t)
    (c₀ : α → Option β) :
  ∃ value, Solves F c₀ value
  := by
  use fun t => F.value c₀ (rank t + 1) t
  constructor
  · intro t b hb
    rw [Fold.value, hb]
  · intro t ht
    rw [Fold.value, ht]
    apply result_congr
    intro u hu
    apply value_eq rank hrank (hrank t u hu) (Nat.lt_succ_self _)

end Rank

end Worklist
