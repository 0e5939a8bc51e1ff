import Mathlib

/-!
# Machines that may halt

A machine executes a list of instructions from a state.  An instruction leads to a new
state, or halts the machine in a state, for a reason.  A loop executes, at each iteration,
the instructions it reads off the state at its head.

An invariant that every instruction preserves holds in every state a run or a loop
reaches, states between two instructions included.  A property that one instruction
establishes and that all instructions preserve holds at the end of a run that executed it.
-/

namespace Machine

variable {S I H : Type}

/-- The state an execution ends in. -/
def final : Except (H × S) S → S
  | .ok s => s
  | .error (_, s) => s

/-- The execution of a list of instructions. -/
def run (step : S → I → Except (H × S) S) (s : S) (l : List I) : Except (H × S) S :=
  l.foldlM step s

/-- The state `s'` is reached by executing a part of the instructions `l`. -/
def Reaches (step : S → I → Except (H × S) S) (s : S) (l : List I) (s' : S) : Prop :=
  ∃ pre, pre <+: l ∧ final (run step s pre) = s'

/-- `k` iterations of a loop: each executes the instructions `program` reads off the state
and then applies `finish`. -/
def loop (step : S → I → Except (H × S) S) (program : S → List I) (finish : S → S) (s : S) :
    ℕ → Except (H × S) S
  | 0 => .ok s
  | k + 1 => do
      let s' ← loop step program finish s k
      let s'' ← run step s' (program s')
      .ok (finish s'')

/-- The state `s'` is reached during some iteration of a loop. -/
def Reachable (step : S → I → Except (H × S) S) (program : S → List I) (finish : S → S) (s : S)
    (s' : S) : Prop :=
  ∃ k s₀, loop step program finish s k = .ok s₀ ∧ Reaches step s₀ (program s₀) s'

variable {step : S → I → Except (H × S) S} {program : S → List I} {finish : S → S}

@[simp]
theorem run_nil (s : S) :
  run step s [] = .ok s
  := rfl

@[simp]
theorem run_cons (s : S) (i : I) (l : List I) :
  run step s (i :: l) = step s i >>= fun s' => run step s' l
  := rfl

theorem run_append (s : S) (l l' : List I) :
  run step s (l ++ l') = run step s l >>= fun s' => run step s' l'
  := List.foldlM_append

/-- An execution that ends normally executes its first instruction normally. -/
theorem run_cons_eq_ok {s s' : S} {i : I} {l : List I} :
  run step s (i :: l) = .ok s' ↔ ∃ s₁, step s i = .ok s₁ ∧ run step s₁ l = .ok s'
  := by
  rw [run_cons]
  cases h : step s i with
  | ok s₁ => simp [bind, Except.bind]
  | error e => simp [bind, Except.bind]

/-- An invariant of the instructions is an invariant of an execution. -/
theorem final_run {P : S → Prop} {l : List I}
    (hstep : ∀ s, P s → ∀ i ∈ l, P (final (step s i))) {s : S} (hs : P s) :
  P (final (run step s l))
  := by
  induction l generalizing s with
  | nil => exact hs
  | cons i l ih =>
      have hi := hstep s hs i List.mem_cons_self
      rw [run_cons]
      cases h : step s i with
      | ok s₁ =>
          rw [h] at hi
          apply ih (fun s hs j hj => hstep s hs j (List.mem_cons_of_mem i hj)) hi
      | error e =>
          rw [h] at hi
          apply hi

/-- An invariant of the instructions holds in every state that is reached. -/
theorem Reaches.invariant {P : S → Prop} {s s' : S} {l : List I}
    (hstep : ∀ s, P s → ∀ i ∈ l, P (final (step s i))) (hs : P s) (h : Reaches step s l s') :
  P s'
  := by
  obtain ⟨pre, hpre, rfl⟩ := h
  apply final_run _ hs
  intro s hs i hi
  apply hstep s hs i (hpre.subset hi)

/-- A property that one executed instruction establishes, and that all instructions
preserve, holds at the end, along an invariant of the instructions. -/
theorem run_establishes {P Q : S → Prop} {i : I}
    (hinvariant : ∀ s s' j, Q s → step s j = .ok s' → Q s')
    (hestablish : ∀ s s', Q s → step s i = .ok s' → P s')
    (hpreserve : ∀ s s' j, P s → step s j = .ok s' → P s') {l : List I} (hi : i ∈ l) {s s' : S}
    (hs : Q s) (h : run step s l = .ok s') :
  P s'
  := by
  have hrest : ∀ (l : List I) (s : S), P s → run step s l = .ok s' → P s' := by
    intro l
    induction l with
    | nil =>
        rintro s hs ⟨⟩
        apply hs
    | cons j l ih =>
        intro s hs hrun
        obtain ⟨s₁, hj, hrun⟩ := run_cons_eq_ok.mp hrun
        apply ih s₁ (hpreserve s s₁ j hs hj) hrun
  induction l generalizing s with
  | nil => cases hi
  | cons j l ih =>
      obtain ⟨s₁, hj, hrun⟩ := run_cons_eq_ok.mp h
      rcases List.mem_cons.mp hi with rfl | hi
      · apply hrest l s₁ (hestablish s s₁ hs hj) hrun
      · apply ih hi (hinvariant s s₁ j hs hj) hrun

/-- An execution that ends normally executed every instruction normally. -/
theorem exists_of_run_eq_ok {i : I} {l : List I} (hi : i ∈ l) {s s' : S}
    (h : run step s l = .ok s') :
  ∃ s₀ s₁, step s₀ i = .ok s₁
  := by
  induction l generalizing s with
  | nil => cases hi
  | cons j l ih =>
      obtain ⟨s₁, hj, hrun⟩ := run_cons_eq_ok.mp h
      rcases List.mem_cons.mp hi with rfl | hi
      · use s, s₁
      · apply ih hi hrun

/-- A relation that every instruction respects relates the ends of an execution. -/
theorem run_rel {R : S → S → Prop} (hrefl : ∀ s, R s s)
    (htrans : ∀ s₁ s₂ s₃, R s₁ s₂ → R s₂ s₃ → R s₁ s₃)
    (hstep : ∀ s s' i, step s i = .ok s' → R s s') {l : List I} {s s' : S}
    (h : run step s l = .ok s') :
  R s s'
  := by
  induction l generalizing s with
  | nil =>
      cases h
      apply hrefl
  | cons i l ih =>
      obtain ⟨s₁, hi, hrun⟩ := run_cons_eq_ok.mp h
      apply htrans s s₁ s' (hstep s s₁ i hi) (ih hrun)

/-- The iterations before a normal one are normal. -/
theorem loop_succ_eq_ok {s s' : S} {k : ℕ} :
  loop step program finish s (k + 1) = .ok s'
    ↔ ∃ s₀, loop step program finish s k = .ok s₀ ∧
      ∃ s₁, run step s₀ (program s₀) = .ok s₁ ∧ finish s₁ = s'
  := by
  rw [loop]
  cases h : loop step program finish s k with
  | error e => simp [bind, Except.bind]
  | ok s₀ =>
      cases h' : run step s₀ (program s₀) with
      | error e => simp [bind, Except.bind, h']
      | ok s₁ => simp [bind, Except.bind, h']

/-- An invariant of a loop holds at its head. -/
theorem loop_invariant {P : S → Prop} {s : S} (hs : P s)
    (hstep : ∀ s₀ s₁, P s₀ → run step s₀ (program s₀) = .ok s₁ → P (finish s₁)) {k : ℕ} {s' : S}
    (h : loop step program finish s k = .ok s') :
  P s'
  := by
  induction k generalizing s' with
  | zero =>
      cases h
      apply hs
  | succ k ih =>
      obtain ⟨s₀, h₀, s₁, h₁, rfl⟩ := loop_succ_eq_ok.mp h
      apply hstep s₀ s₁ (ih h₀) h₁

/-- The state at the head of an earlier iteration. -/
theorem exists_loop_of_le {s s' : S} {j k : ℕ} (hjk : j ≤ k)
    (h : loop step program finish s k = .ok s') :
  ∃ s₀, loop step program finish s j = .ok s₀
  := by
  induction k generalizing s' with
  | zero =>
      obtain rfl := Nat.le_zero.mp hjk
      use s', h
  | succ k ih =>
      obtain ⟨s₀, h₀, -⟩ := loop_succ_eq_ok.mp h
      rcases Nat.le_succ_iff.mp hjk with hjk | rfl
      · apply ih hjk h₀
      · use s', h

/-- Iterations relate the states at their heads, when every instruction and `finish` do. -/
theorem loop_rel {R : S → S → Prop} (hrefl : ∀ s, R s s)
    (htrans : ∀ s₁ s₂ s₃, R s₁ s₂ → R s₂ s₃ → R s₁ s₃)
    (hrun : ∀ s₀ s₁, run step s₀ (program s₀) = .ok s₁ → R s₀ (finish s₁)) {s s₀ s' : S} {j k : ℕ}
    (hjk : j ≤ k) (hj : loop step program finish s j = .ok s₀)
    (hk : loop step program finish s k = .ok s') :
  R s₀ s'
  := by
  induction k generalizing s' with
  | zero =>
      obtain rfl := Nat.le_zero.mp hjk
      rw [hj] at hk
      cases hk
      apply hrefl
  | succ k ih =>
      rcases Nat.le_succ_iff.mp hjk with hjk | rfl
      · obtain ⟨s₁, h₁, s₂, h₂, rfl⟩ := loop_succ_eq_ok.mp hk
        apply htrans s₀ s₁ _ (ih hjk h₁) (hrun s₁ s₂ h₂)
      · rw [hj] at hk
        cases hk
        apply hrefl

/-- An execution that halts halts at one of its instructions. -/
theorem exists_of_run_eq_error {s : S} {l : List I} {e : H × S} (h : run step s l = .error e) :
  ∃ s₀, ∃ i ∈ l, step s₀ i = .error e
  := by
  induction l generalizing s with
  | nil => cases h
  | cons i l ih =>
      rw [run_cons] at h
      cases hi : step s i with
      | error e' =>
          rw [hi] at h
          cases h
          use s, i, List.mem_cons_self
      | ok s₁ =>
          rw [hi] at h
          obtain ⟨s₀, j, hj, hs⟩ := ih h
          use s₀, j, List.mem_cons_of_mem i hj

/-- A loop that halts halts in some iteration, whose head is reached. -/
theorem exists_of_loop_eq_error {s : S} {k : ℕ} {e : H × S}
    (h : loop step program finish s k = .error e) :
  ∃ j s₀, loop step program finish s j = .ok s₀ ∧ run step s₀ (program s₀) = .error e
  := by
  induction k with
  | zero => cases h
  | succ k ih =>
      rw [loop] at h
      cases h₀ : loop step program finish s k with
      | error e' =>
          rw [h₀] at h
          cases h
          apply ih h₀
      | ok s₀ =>
          cases h₁ : run step s₀ (program s₀) with
          | error e' =>
              simp only [h₀, h₁, bind, Except.bind] at h
              cases h
              use k, s₀
          | ok s₁ => simp [h₀, h₁, bind, Except.bind] at h

/-- An invariant of a loop holds in every state it reaches: the instructions read off a
state with the invariant have a property, and the instructions with the property preserve
the invariant. -/
theorem Reachable.invariant {P : S → Prop} {G : I → Prop} {s s' : S} (hs : P s)
    (hprogram : ∀ s₀, P s₀ → ∀ i ∈ program s₀, G i)
    (hstep : ∀ s₀ i, P s₀ → G i → P (final (step s₀ i))) (hfinish : ∀ s₀, P s₀ → P (finish s₀))
    (h : Reachable step program finish s s') :
  P s'
  := by
  have hrun : ∀ s₀, P s₀ → ∀ s, P s → ∀ i ∈ program s₀, P (final (step s i)) := by
    intro s₀ hs₀ s hs i hi
    apply hstep s i hs (hprogram s₀ hs₀ i hi)
  obtain ⟨k, s₀, hk, hreach⟩ := h
  have hs₀ : P s₀ := by
    apply loop_invariant hs _ hk
    intro s₁ s₂ hs₁ hrun₁
    have := final_run (hrun s₁ hs₁) hs₁
    rw [hrun₁] at this
    apply hfinish s₂ this
  apply hreach.invariant (hrun s₀ hs₀) hs₀

/-- The state in which a loop ends is reached. -/
theorem reachable_final_loop (s : S) (k : ℕ) :
  Reachable step program finish s (final (loop step program finish s k))
  := by
  cases h : loop step program finish s k with
  | ok s₀ => exact ⟨k, s₀, h, [], List.nil_prefix, rfl⟩
  | error e =>
      obtain ⟨j, s₀, hj, hrun⟩ := exists_of_loop_eq_error h
      use j, s₀, hj, program s₀, List.prefix_rfl
      rw [hrun]

end Machine
