import DryadSynth.Enumerate.Expr
import DryadSynth.TreeLearning.Bits

/-!
# Decision trees

`TreeLearning` of `tree_learning/mod.rs`.  The references to the nodes that are still
unsolved are kept on a stack, on which the two nodes of a new `Ite` come in the place of the
node that it replaces, the one of `t` on top.  The stack is therefore the list of the unsolved
leaves of the tree from left to right, and its top is the leftmost one.

The entropies are 32-bit floating-point numbers.  They decide whether a leaf may be accepted
and which condition is taken, and every result below holds for any such decisions.
-/

namespace DryadSynth

/-- `SubProblem`, without its entropy. -/
inductive SubProblem where
  | unsolved (bits : Bits)
  | accept (i : ℕ)
  | ite (expr : ℕ) (t f : SubProblem)

/-- `SelectResult`, without its entropies. -/
inductive SelectResult where
  | accept (i : ℕ)
  | ite (expr : ℕ) (t f : Bits)

/-- What the entropies of sets of examples decide, given the options and the conditions:
whether the entropy of a set is at most `0.0001`, and which condition has the least
conditional entropy on it. -/
structure Guide where
  settled : List (OwnedExpr × Bits) → Bits → Bool
  best : List (OwnedExpr × Bits) → List (OwnedExpr × Bits) → Bits → ℕ

namespace SubProblem

section Learning

variable (guide : Guide) (conditions options : List (OwnedExpr × Bits)) (limit : ℕ)

/-- `TreeLearning::select`.  It panics when there is no condition to choose from. -/
def select (bits : Bits) : Except Fault SelectResult :=
  let accepted :=
    if guide.settled options bits then options.findIdx? fun x => bits.subset x.2 else none
  match accepted with
  | some i => .ok (.accept i)
  | none =>
      let i := guide.best options conditions bits % conditions.length
      match conditions[i]? with
      | some (_, cb) => .ok (.ite i (bits.conjunctionAssign cb) (bits.differenceAssign cb))
      | none => .error .panic

/-- The body of the loop of `TreeLearning::run`: the leftmost unsolved node is replaced, if
there is one, and the flag tells whether it becomes an `Ite`. -/
def expand : SubProblem → Except Fault (Option (SubProblem × Bool))
  | .unsolved bits => do
      match ← select guide conditions options bits with
      | .accept i => .ok (some (.accept i, false))
      | .ite expr t f => .ok (some (.ite expr (.unsolved t) (.unsolved f), true))
  | .accept _ => .ok none
  | .ite expr t f => do
      match ← t.expand with
      | some (t', b) => .ok (some (.ite expr t' f, b))
      | none => do
          match ← f.expand with
          | some (f', b) => .ok (some (.ite expr t f', b))
          | none => .ok none

/-- The loop of `TreeLearning::run`, for a number of iterations: the tree, and whether it is
solved. -/
def run : ℕ → ℕ → SubProblem → Except Fault (SubProblem × Bool)
  | 0, _, root => .ok (root, false)
  | fuel + 1, counter, root => do
      match ← expand guide conditions options root with
      | none => .ok (root, true)
      | some (root', false) => run fuel counter root'
      | some (root', true) =>
          if counter + 2 > limit then .ok (root', false) else run fuel (counter + 2) root'

/-- `tree_learning`: the loop ends after at most `limit + 3` iterations. -/
def treeLearning (size : ℕ) : Except Fault (SubProblem × Bool) :=
  run guide conditions options limit (limit + 3) 1 (.unsolved (Bits.boxedOnes size))

/-- `TreeLearning::bvexpr`.  It panics when an unsolved node remains. -/
def bvexpr : SubProblem → Except Fault OwnedExpr
  | .unsolved _ => .error .panic
  | .accept i =>
      match options[i]? with
      | some (e, _) => .ok e
      | none => .error .panic
  | .ite expr t f => do
      let t ← t.bvexpr
      let f ← f.bvexpr
      match conditions[expr]? with
      | some (cond, _) => .ok (.ite cond t f)
      | none => .error .panic

end Learning

/-! ### The loop ends -/

section Ends

variable {guide : Guide} {conditions options : List (OwnedExpr × Bits)} {limit : ℕ}

/-- The number of unsolved nodes. -/
def pending : SubProblem → ℕ
  | .unsolved _ => 1
  | .accept _ => 0
  | .ite _ t f => t.pending + f.pending

/-- An iteration accepts an unsolved node or replaces it by two. -/
theorem pending_expand {root root' : SubProblem} {b : Bool}
    (h : root.expand guide conditions options = .ok (some (root', b))) :
  root'.pending + 1 = root.pending + (if b then 2 else 0)
  := by
  induction root generalizing root' b with
  | unsolved bits =>
      simp only [expand, bind_eq_ok] at h
      obtain ⟨r, -, h⟩ := h
      cases r with
      | accept i =>
          cases h
          rfl
      | ite expr t f =>
          cases h
          rfl
  | accept i => cases h
  | ite expr t f iht ihf =>
      simp only [expand, bind_eq_ok] at h
      obtain ⟨r, hr, h⟩ := h
      cases r with
      | some p =>
          cases h
          have ht := iht hr
          simp only [pending]
          omega
      | none =>
          obtain ⟨r, hr, h⟩ := bind_eq_ok.mp h
          cases r with
          | some p =>
              cases h
              have hf := ihf hr
              simp only [pending]
              omega
          | none => cases h

theorem run_succ_eq (fuel counter : ℕ) (root : SubProblem) :
  run guide conditions options limit (fuel + 1) counter root = (do
    match ← expand guide conditions options root with
    | none => .ok (root, true)
    | some (root', false) => run guide conditions options limit fuel counter root'
    | some (root', true) =>
        if counter + 2 > limit then .ok (root', false)
        else run guide conditions options limit fuel (counter + 2) root')
  := rfl

/-- More iterations do not change the result. -/
theorem run_succ {fuel counter : ℕ} {root : SubProblem} (hcounter : counter ≤ limit + 1)
    (h : (limit + 2 - counter) + root.pending ≤ fuel) :
  run guide conditions options limit (fuel + 1) counter root
    = run guide conditions options limit fuel counter root
  := by
  induction fuel generalizing counter root with
  | zero => omega
  | succ fuel ih =>
      rw [run_succ_eq, run_succ_eq]
      cases hexpand : expand guide conditions options root with
      | error fault => rfl
      | ok r =>
          match r, hexpand with
          | none, _ => rfl
          | some (root', false), hexpand =>
              have hpending := pending_expand hexpand
              simp only [Bool.false_eq_true, if_false] at hpending
              apply ih hcounter
              omega
          | some (root', true), hexpand =>
              have hpending := pending_expand hexpand
              simp only [if_true] at hpending
              by_cases hlimit : counter + 2 > limit
              · simp [bind, Except.bind, hlimit]
              · simp only [bind, Except.bind, hlimit, if_false]
                apply ih
                · omega
                · omega

/-- The number of iterations of `tree_learning` is enough. -/
theorem treeLearning_eq (size k : ℕ) :
  run guide conditions options limit (limit + 3 + k) 1 (.unsolved (Bits.boxedOnes size))
    = treeLearning guide conditions options limit size
  := by
  induction k with
  | zero => rfl
  | succ k ih =>
      rw [← ih, ← Nat.add_assoc, run_succ (by omega)]
      simp only [pending]
      omega

end Ends

/-! ### What a tree computes -/

section Covers

variable {guide : Guide} {conditions options : List (OwnedExpr × Bits)} {limit size : ℕ}

/-- Every set in a list has the blocks for `size` examples. -/
def Sized (size : ℕ) (l : List (OwnedExpr × Bits)) : Prop :=
  ∀ p ∈ l, p.2.length = Bits.ceildiv size 128

/-- A tree covers a set of examples: the conditions lead each example of the set to an
unsolved node with the set that remains there, or to an option that solves it. -/
def Covers (size : ℕ) (conditions options : List (OwnedExpr × Bits)) :
    SubProblem → Set ℕ → Prop
  | .unsolved bits, S => bits.length = Bits.ceildiv size 128 ∧ Blocks.toSet bits = S
  | .accept i, S => ∃ o, options[i]? = some o ∧ S ⊆ Blocks.toSet o.2
  | .ite expr t f, S => ∃ c, conditions[expr]? = some c ∧
      Covers size conditions options t (S ∩ Blocks.toSet c.2) ∧
      Covers size conditions options f (S \ Blocks.toSet c.2)

/-- An option is accepted for a set of examples that it solves. -/
theorem select_eq_accept {bits : Bits} {i : ℕ}
    (h : select guide conditions options bits = .ok (.accept i)) :
  ∃ o, options[i]? = some o ∧ bits.subset o.2 = true
  := by
  simp only [select] at h
  split at h
  · next j hj =>
      cases h
      split_ifs at hj
      obtain ⟨hlt, hsubset, -⟩ := List.findIdx?_eq_some_iff_getElem.mp hj
      exact ⟨options[i], List.getElem?_eq_getElem hlt, hsubset⟩
  · split at h <;> cases h

/-- A condition splits a set of examples. -/
theorem select_eq_ite {bits t f : Bits} {i : ℕ}
    (h : select guide conditions options bits = .ok (.ite i t f)) :
  ∃ c, conditions[i]? = some c ∧ t = bits.conjunctionAssign c.2 ∧
    f = bits.differenceAssign c.2
  := by
  simp only [select] at h
  split at h
  · cases h
  · split at h
    · next e cb hc =>
        cases h
        exact ⟨(e, cb), hc, rfl, rfl⟩
    · cases h

/-- An iteration keeps what the tree covers. -/
theorem Covers.expand (hconditions : Sized size conditions) (hoptions : Sized size options)
    {root root' : SubProblem} {b : Bool} {S : Set ℕ} (hroot : Covers size conditions options root S)
    (h : root.expand guide conditions options = .ok (some (root', b))) :
  Covers size conditions options root' S
  := by
  induction root generalizing root' b S with
  | unsolved bits =>
      obtain ⟨hlen, rfl⟩ := hroot
      simp only [SubProblem.expand, bind_eq_ok] at h
      obtain ⟨r, hr, h⟩ := h
      cases r with
      | accept i =>
          cases h
          obtain ⟨o, ho, hsubset⟩ := select_eq_accept hr
          use o, ho
          apply Blocks.toSet_subset hsubset
          rw [hlen, hoptions o (List.mem_of_getElem? ho)]
      | ite expr t f =>
          cases h
          obtain ⟨c, hc, rfl, rfl⟩ := select_eq_ite hr
          have hcb := hconditions c (List.mem_of_getElem? hc)
          refine ⟨c, hc, ⟨?_, ?_⟩, ?_, ?_⟩
          · rw [Bits.conjunctionAssign, Blocks.length_inter, hlen]
          · rw [Bits.conjunctionAssign, Blocks.toSet_inter (hlen.trans hcb.symm).le]
          · rw [Bits.differenceAssign, Blocks.length_diff, hlen]
          · rw [Bits.differenceAssign, Blocks.toSet_diff]
  | accept i => cases h
  | ite expr t f iht ihf =>
      obtain ⟨c, hc, ht, hf⟩ := hroot
      simp only [SubProblem.expand, bind_eq_ok] at h
      obtain ⟨r, hr, h⟩ := h
      cases r with
      | some p =>
          cases h
          exact ⟨c, hc, iht ht hr, hf⟩
      | none =>
          obtain ⟨r, hr, h⟩ := bind_eq_ok.mp h
          cases r with
          | some p =>
              cases h
              exact ⟨c, hc, ht, ihf hf hr⟩
          | none => cases h

/-- The loop keeps what the tree covers. -/
theorem Covers.run (hconditions : Sized size conditions) (hoptions : Sized size options)
    {fuel counter : ℕ} {root root' : SubProblem} {b : Bool} {S : Set ℕ}
    (hroot : Covers size conditions options root S)
    (h : SubProblem.run guide conditions options limit fuel counter root = .ok (root', b)) :
  Covers size conditions options root' S
  := by
  induction fuel generalizing counter root with
  | zero =>
      cases h
      apply hroot
  | succ fuel ih =>
      rw [run_succ_eq, bind_eq_ok] at h
      obtain ⟨r, hr, h⟩ := h
      match r, hr, h with
      | none, _, h =>
          cases h
          apply hroot
      | some (root₁, false), hr, h => apply ih (hroot.expand hconditions hoptions hr) h
      | some (root₁, true), hr, h =>
          have h₁ := hroot.expand hconditions hoptions hr
          simp only at h
          split_ifs at h
          · cases h
            apply h₁
          · apply ih h₁ h

/-- The tree of `tree_learning` covers all examples, when the last block is not full. -/
theorem covers_treeLearning (hsize : size % 128 ≠ 0) (hconditions : Sized size conditions)
    (hoptions : Sized size options) {root : SubProblem} {b : Bool}
    (h : treeLearning guide conditions options limit size = .ok (root, b)) :
  Covers size conditions options root {i | i < size}
  := by
  apply Covers.run hconditions hoptions _ h
  exact ⟨Bits.length_boxedOnes size, Bits.toSet_boxedOnes hsize⟩

section Eval

variable {env : Environ} {args : List (BitVec 64)}

/-- The expression of a tree returns a value where all options and conditions do. -/
theorem returns_of_bvexpr (hconditions : ∀ c ∈ conditions, ∃ v, c.1.eval env args = .ok v)
    (hoptions : ∀ o ∈ options, ∃ v, o.1.eval env args = .ok v) {root : SubProblem}
    {e : OwnedExpr} (h : root.bvexpr conditions options = .ok e) :
  ∃ v, e.eval env args = .ok v
  := by
  induction root generalizing e with
  | unsolved bits => cases h
  | accept i =>
      simp only [bvexpr] at h
      split at h
      · next o bits ho =>
          cases h
          apply hoptions _ (List.mem_of_getElem? ho)
      · cases h
  | ite expr t f iht ihf =>
      simp only [bvexpr, bind_eq_ok] at h
      obtain ⟨et, ht, ef, hf, h⟩ := h
      split at h
      · next cond bits hc =>
          cases h
          obtain ⟨v₁, hv₁⟩ := hconditions _ (List.mem_of_getElem? hc)
          obtain ⟨v₂, hv₂⟩ := iht ht
          obtain ⟨v₃, hv₃⟩ := ihf hf
          use op.ite v₁ v₂ v₃
          apply ExprIn.evalWith_ite.mpr ⟨v₁, hv₁, v₂, hv₂, v₃, hv₃, rfl⟩
      · cases h

/-- The expression of a tree has the output of an example that the tree covers as its value,
where all options and conditions return one. -/
theorem Covers.eval {i : ℕ} {out : BitVec 64}
    (hconditions : ∀ c ∈ conditions, ∃ v, c.1.eval env args = .ok v ∧
      (i ∈ Blocks.toSet c.2 ↔ v = 0))
    (hoptions : ∀ o ∈ options, ∃ v, o.1.eval env args = .ok v ∧
      (i ∈ Blocks.toSet o.2 → v = out))
    {root : SubProblem} {S : Set ℕ} (hroot : Covers size conditions options root S) (hi : i ∈ S)
    {e : OwnedExpr} (h : root.bvexpr conditions options = .ok e) :
  e.eval env args = .ok out
  := by
  have hcreturns : ∀ c ∈ conditions, ∃ v, c.1.eval env args = .ok v :=
    fun c hc => (hconditions c hc).imp fun v hv => hv.1
  have horeturns : ∀ o ∈ options, ∃ v, o.1.eval env args = .ok v :=
    fun o ho => (hoptions o ho).imp fun v hv => hv.1
  induction root generalizing e S with
  | unsolved bits => cases h
  | accept j =>
      obtain ⟨o, ho, hsub⟩ := hroot
      obtain ⟨v, hv, hout⟩ := hoptions o (List.mem_of_getElem? ho)
      simp only [bvexpr, ho] at h
      cases h
      rw [hv, hout (hsub hi)]
  | ite expr t f iht ihf =>
      obtain ⟨c, hc, hct, hcf⟩ := hroot
      obtain ⟨v₁, hv₁, hzero⟩ := hconditions c (List.mem_of_getElem? hc)
      simp only [bvexpr, bind_eq_ok, hc] at h
      obtain ⟨et, ht, ef, hf, h⟩ := h
      cases h
      obtain ⟨v₂, hv₂⟩ := returns_of_bvexpr hcreturns horeturns ht
      obtain ⟨v₃, hv₃⟩ := returns_of_bvexpr hcreturns horeturns hf
      apply ExprIn.evalWith_ite.mpr
      refine ⟨v₁, hv₁, v₂, hv₂, v₃, hv₃, ?_⟩
      by_cases hbit : i ∈ Blocks.toSet c.2
      · have hout := iht hct ⟨hi, hbit⟩ ht
        rw [hv₂] at hout
        rw [op.ite, if_pos (hzero.mp hbit), Except.ok.inj hout]
      · have hout := ihf hcf ⟨hi, hbit⟩ hf
        rw [hv₃] at hout
        rw [op.ite, if_neg fun h0 => hbit (hzero.mpr h0), Except.ok.inj hout]

end Eval

end Covers

end SubProblem

end DryadSynth
