import DryadSynth.Search.SearchSound

/-!
# The conditions in the buffer

The thread that searches conditions appends to the shared buffer before it records a condition,
so that the last condition that was recorded is not in the buffer.
-/

namespace DryadSynth

namespace Solutions

section Collector

variable (env : Environ) (guide : Guide)

/-- The collector of conditions, which does not check for duplicates. -/
def collector (cstr additional : PbeConstraint) : Solutions :=
  { Solutions.new cstr false with additionalCheck := additional, condBuffer := true }

/-- A call of `add_solution` with a cover limit. -/
def addWithin (p : Solutions × CondBuffer) (call : ℕ × Expr) :
    Except Fault (Solutions × CondBuffer) := do
  let (s, conds, _) ← { p.1 with coverLimit := call.1 }.addSolution env guide p.2 call.2
  .ok (s, conds)

/-- A number of calls of `add_solution` on a collector whose buffer is empty, each with the cover
limit at that time. -/
def collect (start : Solutions) (calls : List (ℕ × Expr)) : Except Fault (Solutions × CondBuffer) :=
  calls.foldlM (addWithin env guide) (start, [])

/-- The buffer has the conditions that were recorded, in order and with the examples that they
solve. -/
def HandedOver (p : Solutions × CondBuffer) : Prop :=
  p.2 = p.1.toBits ∧ ∀ q ∈ p.1.solved, p.1.pbecstr.test env q.1 = .ok q.2

/-- A condition is not recorded: it solves too few examples, fails the additional check or solves
all examples. -/
def TurnedAway (s : Solutions) (call : ℕ × Expr) : Prop :=
  ∃ set, s.pbecstr.test env call.2 = .ok set ∧
    (¬ (set.length ≥ call.1 ∨ set.length ≥ s.unsolved.length) ∨
      s.failsAdditionalCheck env call.2 = .ok true ∨ set.length = s.pbecstr.len)

end Collector

section Collector

variable {env : Environ} {guide : Guide} {s s' start : Solutions} {conds conds' : CondBuffer}
variable {call : ℕ × Expr} {calls : List (ℕ × Expr)} {p p' : Solutions × CondBuffer} {b : Bool}

/-- A collector changes only the conditions it has recorded, and the buffer has all of them but
the last one. -/
structure Collects (start : Solutions) (p : Solutions × CondBuffer) : Prop where
  pbecstr : p.1.pbecstr = start.pbecstr
  unsolved : p.1.unsolved = start.unsolved
  additionalCheck : p.1.additionalCheck = start.additionalCheck
  checkDups : p.1.checkDups = false
  condBuffer : p.1.condBuffer = true
  buffer : p.2 = p.1.toBits.dropLast

theorem toBits_push (s : Solutions) (sol : Expr) (set : List ℕ) :
  (s.push sol set).toBits = s.toBits ++ [(sol.convert, Bits.fromBitIter set s.pbecstr.len)]
  := List.map_append

/-- The conditions that the buffer lacks are appended to it. -/
theorem Collects.flush (h : Collects start (s, conds)) :
  s.flush conds = s.toBits
  := by
  have hbuffer : conds = s.toBits.dropLast := h.buffer
  rw [Solutions.flush, if_pos h.condBuffer, hbuffer, List.length_dropLast,
    List.dropLast_eq_take, List.take_append_drop]

/-- The buffer has all conditions but the one that is recorded. -/
theorem Collects.push (h : Collects start (s, conds)) (sol : Expr) (set : List ℕ) :
  Collects start (s.push sol set, s.flush conds)
  := by
  refine ⟨h.pbecstr, h.unsolved, h.additionalCheck, h.checkDups, h.condBuffer, ?_⟩
  rw [h.flush, toBits_push, List.dropLast_concat]

theorem Collects.rejects (h : Collects start (s, conds)) (set : List ℕ) :
  s.rejects set = decide (set.length = start.pbecstr.len)
  := by
  have hdups : s.checkDups = false := h.checkDups
  rw [Solutions.rejects, hdups, ← h.pbecstr]
  rfl

theorem Collects.markSolved (h : Collects start (s, conds)) (set : List ℕ) :
  s.markSolved set = s
  := by
  have hdups : s.checkDups = false := h.checkDups
  rw [Solutions.markSolved, hdups]
  rfl

/-- Whether a condition is turned away, from the set of examples that it solves. -/
theorem turnedAway_iff {set : List ℕ} (hset : s.pbecstr.test env call.2 = .ok set) :
  TurnedAway env s call ↔
    (¬ (set.length ≥ call.1 ∨ set.length ≥ s.unsolved.length) ∨
      s.failsAdditionalCheck env call.2 = .ok true ∨ set.length = s.pbecstr.len)
  := by
  constructor
  · rintro ⟨set', hset', h⟩
    obtain rfl := Except.ok.inj (hset.symm.trans hset')
    apply h
  · exact fun h => ⟨set, hset, h⟩

/-- A call of a collector turns the condition away, or hands over all conditions but this one. -/
theorem Collects.addSolution {sol : Expr} (h : Collects start (s, conds))
    (hadd : s.addSolution env guide conds sol = .ok (s', conds', b)) :
  Collects start (s', conds') ∧
    (TurnedAway env start (s.coverLimit, sol) ∧ s'.solved = s.solved ∨
      ¬ TurnedAway env start (s.coverLimit, sol) ∧ s'.solved ≠ [])
  := by
  obtain ⟨set, hset, hadd⟩ := bind_eq_ok.mp hadd
  have hset' : start.pbecstr.test env sol = .ok set := by
    rw [← h.pbecstr]
    apply hset
  have hunsolved : s.unsolved = start.unsolved := h.unsolved
  have hfails : s.failsAdditionalCheck env sol = start.failsAdditionalCheck env sol := by
    have hcheck : s.additionalCheck = start.additionalCheck := h.additionalCheck
    rw [failsAdditionalCheck, hcheck, failsAdditionalCheck]
  rw [turnedAway_iff hset']
  rw [hunsolved] at hadd
  split at hadd
  · next hcover =>
      obtain ⟨failed, hfailed, hadd⟩ := bind_eq_ok.mp hadd
      rw [hfails] at hfailed
      split at hadd
      · next htrue =>
          cases hadd
          exact ⟨h, Or.inl ⟨Or.inr (Or.inl (htrue ▸ hfailed)), rfl⟩⟩
      · next hfalse =>
          rw [h.rejects] at hadd
          split at hadd
          · next hall =>
              cases hadd
              exact ⟨h, Or.inl ⟨Or.inr (Or.inr (of_decide_eq_true hall)), rfl⟩⟩
          · next hall =>
              have hrecorded : ¬ (¬ (set.length ≥ s.coverLimit ∨
                  set.length ≥ start.unsolved.length) ∨
                  start.failsAdditionalCheck env sol = .ok true ∨
                    set.length = start.pbecstr.len) := by
                rintro (h' | h' | h')
                · apply h' hcover
                · rw [hfailed] at h'
                  apply hfalse (Except.ok.inj h')
                · apply hall (decide_eq_true h')
              have hne : (s.push sol set).solved ≠ [] := by simp [Solutions.push]
              rw [h.markSolved] at hadd
              simp only at hadd
              split at hadd
              · cases hadd
                exact ⟨h.push sol set, Or.inr ⟨hrecorded, hne⟩⟩
              · obtain ⟨b', -, hadd⟩ := bind_eq_ok.mp hadd
                cases hadd
                exact ⟨h.push sol set, Or.inr ⟨hrecorded, hne⟩⟩
  · next hcover =>
      cases hadd
      exact ⟨h, Or.inl ⟨Or.inl hcover, rfl⟩⟩

theorem Collects.addWithin (h : Collects start p)
    (hadd : Solutions.addWithin env guide p call = .ok p') :
  Collects start p' ∧
    (TurnedAway env start call ∧ p'.1.solved = p.1.solved ∨
      ¬ TurnedAway env start call ∧ p'.1.solved ≠ [])
  := by
  obtain ⟨⟨s', conds', b⟩, hcall, hp'⟩ := bind_eq_ok.mp hadd
  obtain rfl := Except.ok.inj hp'
  have hlimit : Collects start ({ p.1 with coverLimit := call.1 }, p.2) :=
    ⟨h.pbecstr, h.unsolved, h.additionalCheck, h.checkDups, h.condBuffer, h.buffer⟩
  apply hlimit.addSolution hcall

theorem collect_append (calls : List (ℕ × Expr)) (call : ℕ × Expr) :
  collect env guide start (calls ++ [call])
    = collect env guide start calls >>= fun p => Solutions.addWithin env guide p call
  := by
  rw [collect, List.foldlM_append]
  simp [collect]

/-- What a collector has done. -/
theorem collects_collect (hstart : Collects start (start, []))
    (h : collect env guide start calls = .ok p) :
  Collects start p
  := by
  induction calls using List.reverseRecOn generalizing p with
  | nil =>
      cases h
      apply hstart
  | append_singleton calls call ih =>
      rw [collect_append] at h
      obtain ⟨p₀, hp₀, h⟩ := bind_eq_ok.mp h
      apply ((ih hp₀).addWithin h).1

theorem collects_collector (cstr additional : PbeConstraint) :
  Collects (collector cstr additional) (collector cstr additional, [])
  := ⟨rfl, rfl, rfl, rfl, rfl, rfl⟩

/-- The buffer is complete when nothing is recorded, and only then. -/
theorem Collects.handedOver_flush (h : Collects start p) :
  HandedOver env p ↔ p.1.solved = []
  := by
  constructor
  · rintro ⟨hbits, -⟩
    have hlength := congrArg List.length (h.buffer.symm.trans hbits)
    rw [List.length_dropLast, toBits, List.length_map] at hlength
    apply List.length_eq_zero_iff.mp
    omega
  · intro hnil
    have hbits : p.1.toBits = [] := by rw [toBits, hnil, List.map_nil]
    constructor
    · rw [h.buffer, hbits, List.dropLast_nil]
    · rw [hnil]
      exact nofun

/-- The buffer is complete after each call exactly when every condition is turned away. -/
theorem handedOver_iff (env : Environ) (guide : Guide) (cstr additional : PbeConstraint)
    (calls : List (ℕ × Expr)) :
  (∀ pre p, pre <+: calls → collect env guide (collector cstr additional) pre = .ok p →
      HandedOver env p) ↔
    ∀ pre call p, pre ++ [call] <+: calls →
      collect env guide (collector cstr additional) (pre ++ [call]) = .ok p →
        TurnedAway env (collector cstr additional) call
  := by
  have hstart := collects_collector cstr additional
  constructor
  · intro h pre call p hpre hp
    have hnil := (collects_collect hstart hp).handedOver_flush.mp (h _ p hpre hp)
    rw [collect_append] at hp
    obtain ⟨p₀, hp₀, hcall⟩ := bind_eq_ok.mp hp
    rcases ((collects_collect hstart hp₀).addWithin hcall).2 with ⟨haway, -⟩ | ⟨-, hne⟩
    · apply haway
    · apply absurd hnil hne
  · intro h pre p hpre hp
    rw [(collects_collect hstart hp).handedOver_flush]
    induction pre using List.reverseRecOn generalizing p with
    | nil =>
        cases hp
        rfl
    | append_singleton pre call ih =>
        have haway := h pre call p hpre hp
        rw [collect_append] at hp
        obtain ⟨p₀, hp₀, hcall⟩ := bind_eq_ok.mp hp
        rcases ((collects_collect hstart hp₀).addWithin hcall).2 with ⟨-, hsame⟩ | ⟨hnot, -⟩
        · rw [hsame]
          apply ih p₀ ((List.prefix_append pre [call]).trans hpre) hp₀
        · apply absurd haway hnot

/-- The condition `x`, which is zero on the first one of the examples `0` and `1`, is not in the
buffer. -/
theorem not_handedOver_two :
  ¬ ∀ (env : Environ) (guide : Guide) (cstr additional : PbeConstraint)
      (calls : List (ℕ × Expr)) pre p, pre <+: calls →
        collect env guide (collector cstr additional) pre = .ok p → HandedOver env p
  := by
  intro h
  have hcall : collect (Environ.new 0) ⟨fun _ _ => true, fun _ _ _ => 0⟩
      (collector ⟨[[0, 1]], [0, 0]⟩ (PbeConstraint.new 1)) [(1, .var 0)]
      = .ok ((collector ⟨[[0, 1]], [0, 0]⟩ (PbeConstraint.new 1)).push (.var 0) [0], []) := rfl
  have hbuffer := (h _ _ _ _ _ _ _ (List.prefix_refl _) hcall).1
  cases hbuffer

end Collector

end Solutions

end DryadSynth
