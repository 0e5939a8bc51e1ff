import Mathlib

/-!
# Iterators

An iterator is a function that returns an element or none and the next state, or fails.  It
delivers a list when the successive calls return its elements and then none, which is all that
a `for` loop looks at.  It yields the list when the calls after that return none for ever.
-/

namespace Iteration

variable {σ α ε : Type} (next : σ → Except ε (Option α × σ))

/-- What the first `k` calls return. -/
def nexts : ℕ → σ → Except ε (List (Option α))
  | 0, _ => .ok []
  | k + 1, s => do
      let (a, s') ← next s
      let as ← nexts k s'
      .ok (a :: as)

/-- From the state the calls return the elements of a list and then none, which leaves the
iterator in the last state. -/
inductive Delivers : σ → List α → σ → Prop
  | done {s t} (h : next s = .ok (none, t)) : Delivers s [] t
  | step {s s' t a l} (h : next s = .ok (some a, s')) (hl : Delivers s' l t) : Delivers s (a :: l) t

/-- From the state the iterator yields a list and then none for ever. -/
def Yields (s : σ) (l : List α) : Prop :=
  ∃ t, Delivers next s l t ∧ next t = .ok (none, t)

/-- From the state the iterator yields the elements of `P`, each once, and then none for ever. -/
def YieldsOnce (s : σ) (P : α → Prop) : Prop :=
  ∃ l : List α, l.Nodup ∧ (∀ a, a ∈ l ↔ P a) ∧
    ∀ k, nexts next k s = .ok ((l.map some ++ List.replicate k none).take k)

variable {next} {s s' t : σ} {a : α} {l : List α}

theorem Yields.done (h : next s = .ok (none, t)) (ht : next t = .ok (none, t)) :
  Yields next s []
  := ⟨t, .done h, ht⟩

theorem Yields.step (h : next s = .ok (some a, s')) (hl : Yields next s' l) :
  Yields next s (a :: l)
  := by
  obtain ⟨t, hl, ht⟩ := hl
  use t, .step h hl

/-- An iterator that has ended returns none for ever. -/
theorem nexts_of_ended (ht : next t = .ok (none, t)) (k : ℕ) :
  nexts next k t = .ok (List.replicate k none)
  := by
  induction k with
  | zero => rfl
  | succ k ih => simp only [nexts, ht, bind, Except.bind, ih, List.replicate_succ]

/-- The first calls return the elements of the list, and none after them. -/
theorem Yields.nexts_eq (h : Yields next s l) (k : ℕ) :
  nexts next k s = .ok ((l.map some ++ List.replicate k none).take k)
  := by
  obtain ⟨t, hl, ht⟩ := h
  induction k generalizing s l with
  | zero => simp [nexts]
  | succ k ih =>
      cases hl with
      | done hs =>
          simp only [nexts, hs, bind, Except.bind, nexts_of_ended ht]
          rw [List.map_nil, List.nil_append, List.take_replicate, Nat.min_self,
            List.replicate_succ]
      | step hs hl =>
          simp only [nexts, hs, bind, Except.bind, ih hl, List.map_cons, List.cons_append,
            List.take_succ_cons]
          congr 2
          rw [List.take_append, List.take_append, List.take_replicate, List.take_replicate]
          congr 2
          omega

theorem Yields.once {P : α → Prop} (h : Yields next s l) (hnodup : l.Nodup)
    (hmem : ∀ a, a ∈ l ↔ P a) :
  YieldsOnce next s P
  := ⟨l, hnodup, hmem, h.nexts_eq⟩

/-! ### Loops -/

section Loop

variable {β : Type} (out : ε) (body : α → β → Except ε (ForInStep β))

/-- A `for` loop over the iterator.  A pass goes on with a value or leaves the loop with one; a
loop that runs out of fuel fails with `out`. -/
def loop (next : σ → Except ε (Option α × σ)) : ℕ → σ → β → Except ε β
  | 0, _, _ => .error out
  | fuel + 1, s, b => do
      match ← next s with
      | (none, _) => .ok b
      | (some a, s') =>
          match ← body a b with
          | .done b => .ok b
          | .yield b => loop next fuel s' b

variable {out body} {fuel : ℕ}

/-- A loop whose passes all go on folds the list. -/
theorem Delivers.loop_eq_foldl {f : β → α → β} (h : Delivers next s l t) (hfuel : l.length < fuel)
    (hbody : ∀ a ∈ l, ∀ b, body a b = .ok (.yield (f b a))) (b : β) :
  loop out body next fuel s b = .ok (l.foldl f b)
  := by
  induction h generalizing fuel b with
  | done hs =>
      obtain ⟨fuel, rfl⟩ := Nat.exists_eq_add_of_lt hfuel
      simp only [loop, hs, bind, Except.bind, List.foldl_nil]
  | @step s s' t a l hs hl ih =>
      obtain ⟨fuel, rfl⟩ := Nat.exists_eq_add_of_lt hfuel
      simp only [loop, hs, bind, Except.bind, hbody a List.mem_cons_self, List.foldl_cons]
      apply ih
      · rw [List.length_cons]
        omega
      · intro a' ha'
        apply hbody a' (List.mem_cons_of_mem a ha')

/-- Passes that change nothing only move the iterator on. -/
theorem Delivers.exists_loop_eq {pre : List α} {b : β} (h : Delivers next s (pre ++ l) t)
    (hpre : ∀ c ∈ pre, body c b = .ok (.yield b)) (fuel : ℕ) :
  ∃ s', Delivers next s' l t ∧
    loop out body next (fuel + pre.length) s b = loop out body next fuel s' b
  := by
  induction pre generalizing s with
  | nil => exact ⟨s, h, rfl⟩
  | cons c pre ih =>
      cases h with
      | step hs hl =>
          obtain ⟨s', hs', hloop⟩ := ih hl fun c' hc' => hpre c' (List.mem_cons_of_mem c hc')
          use s', hs'
          rw [List.length_cons, ← Nat.add_assoc]
          simp only [loop, hs, bind, Except.bind, hpre c List.mem_cons_self]
          apply hloop

/-- A loop whose passes all change nothing. -/
theorem Delivers.loop_eq_self {b : β} (h : Delivers next s l t) (hfuel : l.length < fuel)
    (hl : ∀ c ∈ l, body c b = .ok (.yield b)) :
  loop out body next fuel s b = .ok b
  := by
  obtain ⟨fuel, rfl⟩ := Nat.exists_eq_add_of_lt hfuel
  rw [← List.append_nil l] at h
  obtain ⟨s', hs', hloop⟩ := h.exists_loop_eq hl (fuel + 1)
  rw [Nat.add_assoc, Nat.add_comm, hloop]
  cases hs' with
  | done hs => simp only [loop, hs, bind, Except.bind]

/-- A loop whose first passes change nothing is left by the pass after them. -/
theorem Delivers.loop_eq_of_done {pre post : List α} {b b' : β}
    (h : Delivers next s (pre ++ a :: post) t) (hfuel : pre.length < fuel)
    (hpre : ∀ c ∈ pre, body c b = .ok (.yield b)) (ha : body a b = .ok (.done b')) :
  loop out body next fuel s b = .ok b'
  := by
  obtain ⟨fuel, rfl⟩ := Nat.exists_eq_add_of_lt hfuel
  obtain ⟨s', hs', hloop⟩ := h.exists_loop_eq hpre (fuel + 1)
  rw [Nat.add_assoc, Nat.add_comm, hloop]
  cases hs' with
  | step hs hl => simp only [loop, hs, bind, Except.bind, ha]

end Loop

/-! ### Iterators that move through an order -/

/-- An iterator that, at an element of `P`, yields it and steps down to the next smaller
element of `P`, and ends below the least one, yields the elements of `P` in decreasing
order. -/
theorem exists_yields_descending {key : α → ℕ} (hkey : Function.Injective key)
    (P : α → Prop) (state : α → σ)
    (hstep : ∀ x, P x →
      (∃ y, P y ∧ key y < key x ∧ (∀ z, key y < key z → key z < key x → ¬ P z) ∧
        next (state x) = .ok (some x, state y))
      ∨ (∃ s, (∀ z, key z < key x → ¬ P z) ∧ next (state x) = .ok (some x, s) ∧
        next s = .ok (none, s)))
    (x : α) (hx : P x) :
  ∃ l, Yields next (state x) l ∧ l.Pairwise (fun a b => key b < key a) ∧
    ∀ z, z ∈ l ↔ P z ∧ key z ≤ key x
  := by
  induction hn : key x using Nat.strongRecOn generalizing x with
  | ind n ih =>
      subst hn
      rcases hstep x hx with ⟨y, hy, hyx, hgap, hnext⟩ | ⟨s, hmin, hnext, hend⟩
      · obtain ⟨l, hl, hdesc, hmem⟩ := ih (key y) hyx y hy rfl
        use x :: l, .step hnext hl
        constructor
        · apply List.pairwise_cons.mpr
          use fun z hz => ((hmem z).mp hz).2.trans_lt hyx
        · intro z
          rw [List.mem_cons, hmem]
          constructor
          · rintro (rfl | ⟨hz, hzy⟩)
            · use hx
            · use hz, hzy.trans hyx.le
          · rintro ⟨hz, hzx⟩
            rcases hzx.eq_or_lt with heq | hzx
            · left
              apply hkey heq
            · right
              use hz
              apply not_lt.mp
              intro hyz
              apply hgap z hyz hzx hz
      · use [x], .step hnext (.done hend hend)
        constructor
        · apply List.pairwise_singleton
        · intro z
          rw [List.mem_singleton]
          constructor
          · rintro rfl
            use hx
          · rintro ⟨hz, hzx⟩
            apply hkey
            apply hzx.eq_or_lt.resolve_right
            intro hlt
            apply hmin z hlt hz

/-- An iterator that, at an element of `P`, steps up to the next larger element of `P` and
yields it, and ends at the largest one, yields the larger elements of `P` in increasing order. -/
theorem exists_yields_ascending {key : α → ℕ} (P : α → Prop) {bound : ℕ}
    (hkey : Function.Injective key) (hbound : ∀ x, P x → key x ≤ bound) (state : α → σ)
    (hstep : ∀ x, P x →
      (∃ y, P y ∧ key x < key y ∧ (∀ z, key x < key z → key z < key y → ¬ P z) ∧
        next (state x) = .ok (some y, state y))
      ∨ (∃ s, (∀ z, key x < key z → ¬ P z) ∧ next (state x) = .ok (none, s) ∧
        next s = .ok (none, s)))
    (x : α) (hx : P x) :
  ∃ l, Yields next (state x) l ∧ l.Pairwise (fun a b => key a < key b) ∧
    ∀ z, z ∈ l ↔ P z ∧ key x < key z
  := by
  induction hn : bound - key x using Nat.strongRecOn generalizing x with
  | ind n ih =>
      subst hn
      rcases hstep x hx with ⟨y, hy, hxy, hgap, hnext⟩ | ⟨s, hmax, hnext, hend⟩
      · have hyb := hbound y hy
        obtain ⟨l, hl, hasc, hmem⟩ := ih (bound - key y) (by omega) y hy rfl
        use y :: l, .step hnext hl
        constructor
        · apply List.pairwise_cons.mpr
          use fun z hz => ((hmem z).mp hz).2
        · intro z
          rw [List.mem_cons, hmem]
          constructor
          · rintro (rfl | ⟨hz, hyz⟩)
            · use hy
            · use hz, hxy.trans hyz
          · rintro ⟨hz, hxz⟩
            rcases lt_trichotomy (key y) (key z) with hyz | heq | hzy
            · right
              use hz
            · left
              apply hkey heq.symm
            · apply absurd hz (hgap z hxz hzy)
      · use [], .done hnext hend, .nil
        intro z
        constructor
        · intro hz
          cases hz
        · rintro ⟨hz, hxz⟩
          apply absurd hz (hmax z hxz)

end Iteration
