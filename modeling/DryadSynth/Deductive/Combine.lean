import DryadSynth.Enumerate.Algo
import DryadSynth.Library.Masked
import DryadSynth.Parse.Pbe

/-!
# Combination with `and` and `or`

`CombineRules` of `deductive/combine.rs`.  The operands found so far are pieces of the output
under a mask, in the sense of `Masked`: the vectors are read as the sets of their ones.
-/

namespace DryadSynth

variable {N : ℕ}

/-! ### The rules -/

/-- `SubExpr`: an operand of `and` or `or`, with the vector it is stored with. -/
inductive SubExpr (N : ℕ) where
  | and (e : Expr) (first : Bv N)
  | or (e : Expr) (first : Bv N)

/-- `CombineRules`. -/
structure CombineRules (N : ℕ) where
  mask : Bv N
  output : Bv N
  subexprs : List (SubExpr N)

/-- What ends a call of `test`: the assertion of `collect_expr`, or the evaluation of the
expression on the examples. -/
inductive TestFault where
  | assertion
  | fault (f : Fault)

namespace CombineRules

/-- `CombineRules::new`. -/
def new (output : Bv N) : CombineRules N := ⟨Bv.ones, output, []⟩

/-- One step of the loop of `collect_expr`: an operand that leaves the value unchanged is
skipped. -/
def collectStep : Expr × Bv N × ℕ → SubExpr N → Expr × Bv N × ℕ
  | (res, value, size), .and e first =>
      if value.and first ≠ value then (.bin .and e res, value.and first, size + 1)
      else (res, value, size)
  | (res, value, size), .or e first =>
      if value.or first ≠ value then (.bin .or e res, value.or first, size + 1)
      else (res, value, size)

/-- `CombineRules::collect_expr`. -/
def collectExpr (c : CombineRules N) (expr : Expr) (value : Bv N) :
    Except TestFault (Expr × ℕ) :=
  match c.subexprs.reverse.foldl collectStep (expr, value, 0) with
  | (res, value, size) => if value = c.output then .ok (res, size) else .error .assertion

section Test

variable (env : Environ) (pbecstr : PbeConstraint) (c : CombineRules N) (expr : Expr)
  (first : Bv N)

/-- A check on the examples that is left out when the lanes are all the examples. -/
def checkExamples (check : Except Fault Bool) : Except TestFault Bool :=
  if N ≥ pbecstr.len then .ok true
  else match check with
    | .ok b => .ok b
    | .error f => .error (.fault f)

/-- The part of `test` for `and`. -/
def testAnd : Except TestFault (CombineRules N) := do
  if first.imples c.output && decide (c.mask.count - (c.mask.and first).count > 2 * N)
      && decide (3 * first.countZeros > c.output.countZeros) then
    if ← checkExamples (N := N) pbecstr (pbecstr.testAnd env expr) then
      .ok { c with
        subexprs := c.subexprs ++ [.and expr (c.mask.not.or first)]
        mask := c.mask.and first }
    else .ok c
  else .ok c

/-- The part of `test` for `or`. -/
def testOr : Except TestFault (CombineRules N) := do
  if c.output.imples first && decide (c.mask.count - (c.mask.and first.not).count > 2 * N)
      && decide (3 * first.count > c.output.count) then
    if ← checkExamples (N := N) pbecstr (pbecstr.testOr env expr) then
      .ok { c with
        subexprs := c.subexprs ++ [.or expr (c.mask.and first)]
        mask := c.mask.and first.not }
    else .ok c
  else .ok c

/-- `CombineRules::test`: the rules after the call, and what it returns. -/
def test : Except TestFault (CombineRules N × Option Expr) := do
  let c ← c.testAnd env pbecstr expr first
  let c ← c.testOr env pbecstr expr first
  if c.mask.and (first.xor c.output) = Bv.zeros then do
    let (res, size) ← c.collectExpr expr first
    if size > 4 then .ok (c, none) else .ok (c, some res)
  else .ok (c, none)

end Test

/-- A sequence of calls of `test`: the rules after it, and the expressions it returns. -/
def tests (env : Environ) (pbecstr : PbeConstraint) :
    CombineRules N → List (Expr × Bv N) → Except TestFault (CombineRules N × List Expr)
  | c, [] => .ok (c, [])
  | c, (e, v) :: calls => do
      let (c, r) ← c.test env pbecstr e v
      let (c, rs) ← tests env pbecstr c calls
      .ok (c, r.toList ++ rs)

end CombineRules

/-! ### Vectors as sets of ones -/

namespace Bv

/-- The places of the ones of a vector. -/
def bits (v : Bv N) : Set (Fin N × Fin 64) := {p | (v p.1).getLsbD p.2 = true}

variable {v w : Bv N}

theorem bits_injective :
  Function.Injective (bits : Bv N → Set (Fin N × Fin 64))
  := by
  intro v w h
  funext i
  apply BitVec.eq_of_getLsbD_eq
  intro k hk
  have hplace := Set.ext_iff.mp h (i, ⟨k, hk⟩)
  apply Bool.eq_iff_iff.mpr hplace

@[simp]
theorem bits_ones : (ones : Bv N).bits = ⊤ := by
  apply Set.eq_univ_of_forall
  rintro ⟨i, k⟩
  show ((-1 : BitVec 64)).getLsbD k = true
  rw [show (-1 : BitVec 64) = BitVec.allOnes 64 from rfl, BitVec.getLsbD_allOnes]
  apply decide_eq_true k.isLt

@[simp]
theorem bits_zeros : (zeros : Bv N).bits = ⊥ := by
  ext p
  simp [bits, zeros, splat]

@[simp]
theorem bits_not : v.not.bits = v.bitsᶜ := by
  ext p
  simp [bits, Bv.not, op.not]

@[simp]
theorem bits_and : (v.and w).bits = v.bits ⊓ w.bits := by
  ext p
  simp [bits, Bv.and, op.and]

@[simp]
theorem bits_or : (v.or w).bits = v.bits ⊔ w.bits := by
  ext p
  simp [bits, Bv.or, op.or]

/-- `imples` compares the sets of ones. -/
theorem imples_iff : v.imples w = true ↔ w.bits ≤ v.bits := by
  have hlane : ∀ i, ~~~(v i) &&& w i = 0 ↔ ∀ k : Fin 64,
      (w i).getLsbD k = true → (v i).getLsbD k = true := by
    intro i
    constructor
    · intro h k hw
      have hk := congrArg (fun x => x.getLsbD k) h
      have hw : (w i)[k.val] = true := by simpa using hw
      simpa [hw] using hk
    · intro h
      apply BitVec.eq_of_getLsbD_eq
      intro k hk
      have hplace : (w i)[k] = true → (v i)[k] = true := by simpa [hk] using h ⟨k, hk⟩
      simp only [BitVec.getLsbD_and, BitVec.getLsbD_not, hk, decide_true, Bool.true_and]
      cases hw : (w i)[k] with
      | false => simp [hk, hw]
      | true => simp [hk, hw, hplace hw]
  rw [imples, decide_eq_true_iff]
  constructor
  · rintro h ⟨i, k⟩ hp
    apply (hlane i).mp (h i) k hp
  · intro h i
    apply (hlane i).mpr
    intro k hk
    apply h (show (i, k) ∈ w.bits from hk)

/-- No difference under a mask is agreement under it. -/
theorem and_xor_eq_zeros {m : Bv N} :
  m.and (v.xor w) = zeros ↔ v.bits ⊓ m.bits = w.bits ⊓ m.bits
  := by
  rw [← bits_injective.eq_iff, bits_and, bits_zeros]
  constructor
  · intro h
    ext p
    have hp := Set.ext_iff.mp h p
    simp only [bits, Bv.xor, op.xor, Set.inf_eq_inter, Set.mem_inter_iff, Set.mem_ofPred_eq,
      BitVec.getLsbD_xor, Set.bot_eq_empty, Set.mem_empty_iff_false, iff_false, not_and] at hp ⊢
    cases hm : (m p.1).getLsbD p.2 with
    | false => simp
    | true => simpa [hm] using hp
  · intro h
    ext p
    have hp := Set.ext_iff.mp h p
    simp only [bits, Bv.xor, op.xor, Set.inf_eq_inter, Set.mem_inter_iff, Set.mem_ofPred_eq,
      BitVec.getLsbD_xor, Set.bot_eq_empty, Set.mem_empty_iff_false, iff_false, not_and] at hp ⊢
    intro hm
    simpa [hm] using hp

end Bv

/-! ### The operands as pieces of the output -/

namespace SubExpr

/-- The operand itself. -/
def expr : SubExpr N → Expr
  | .and e _ => e
  | .or e _ => e

/-- The piece with the stored vector. -/
def stored : SubExpr N → Masked.Piece (Set (Fin N × Fin 64))
  | .and _ first => .meet first.bits
  | .or _ first => .join first.bits

/-- The piece with a given vector for the operand. -/
def piece (v : Bv N) : SubExpr N → Masked.Piece (Set (Fin N × Fin 64))
  | .and _ _ => .meet v.bits
  | .or _ _ => .join v.bits

end SubExpr

namespace CombineRules

section Linked

variable (env : Environ) (args : List (Bv N)) (output : Bv N)

/-- The operands, the last one first, are pieces of the output: each was added under the mask
that those before it left, and has the mask narrowed by its own vector. -/
inductive Linked : Bv N → List (SubExpr N) → Prop
  | nil : Linked Bv.ones []
  | cons {mask mask' : Bv N} {l : List (SubExpr N)} (s : SubExpr N) (v : Bv N)
      (h : Linked mask l) (hv : s.expr.evalBv env args = .ok v)
      (hfits : (s.piece v).Fits output.bits)
      (hmask : mask'.bits = (s.piece v).narrow mask.bits)
      (hstored : s.stored = (s.piece v).store mask.bits) :
      Linked mask' (s :: l)

variable {env args output}

/-- A step of `collect_expr` tracks the stored piece, and either applies the piece itself or
leaves a value that the stored piece does not change. -/
theorem collectStep_cases {res : Expr} (value : Bv N) (size : ℕ) {r v : Bv N} {s : SubExpr N}
    (hr : res.evalBv env args = .ok r) (hv : s.expr.evalBv env args = .ok v) :
  ∃ res' value' size' r', collectStep (res, value, size) s = (res', value', size')
    ∧ res'.evalBv env args = .ok r'
    ∧ value'.bits = s.stored.apply value.bits
    ∧ (r'.bits = (s.piece v).apply r.bits ∨ r' = r ∧ value' = value)
  := by
  cases s with
  | and e first =>
      by_cases h : value.and first = value
      · refine ⟨res, value, size, r, by simp [collectStep, h], hr, ?_, Or.inr ⟨rfl, rfl⟩⟩
        show value.bits = value.bits ⊓ first.bits
        rw [← Bv.bits_and, h]
      · refine ⟨.bin .and e res, value.and first, size + 1, v.and r, by simp [collectStep, h],
          ExprIn.evalBv_bin.mpr ⟨v, hv, r, hr, rfl⟩, Bv.bits_and, Or.inl ?_⟩
        rw [Bv.bits_and, inf_comm]
        rfl
  | or e first =>
      by_cases h : value.or first = value
      · refine ⟨res, value, size, r, by simp [collectStep, h], hr, ?_, Or.inr ⟨rfl, rfl⟩⟩
        show value.bits = value.bits ⊔ first.bits
        rw [← Bv.bits_or, h]
      · refine ⟨.bin .or e res, value.or first, size + 1, v.or r, by simp [collectStep, h],
          ExprIn.evalBv_bin.mpr ⟨v, hv, r, hr, rfl⟩, Bv.bits_or, Or.inl ?_⟩
        rw [Bv.bits_or, sup_comm]
        rfl

/-- The loop of `collect_expr`, from a tracked value that agrees with the output under the
mask and a real value between the two, ends with the output for both. -/
theorem collect_linked {mask : Bv N} {l : List (SubExpr N)} (h : Linked env args output mask l)
    {res : Expr} {value r : Bv N} (size : ℕ) (hr : res.evalBv env args = .ok r)
    (hvalue : value.bits ⊓ mask.bits = output.bits ⊓ mask.bits)
    (hbetween : Masked.Piece.Between output.bits value.bits r.bits) :
  ∃ res' size', l.foldl collectStep (res, value, size) = (res', output, size')
    ∧ res'.evalBv env args = .ok output
  := by
  induction h generalizing res value r size with
  | nil =>
      have hvo : value = output := by
        apply Bv.bits_injective
        simpa using hvalue
      subst hvo
      have hro : r = value := Bv.bits_injective hbetween.eq
      subst hro
      use res, size, rfl, hr
  | cons s v h hv hfits hmask hstored ih =>
      obtain ⟨res', value', size', r', hstep, hr', hvalue', hreal⟩ :=
        collectStep_cases value size hr hv
      rw [hstored] at hvalue'
      rw [hmask] at hvalue
      have htracked := Masked.Piece.apply_store_inf hfits hvalue
      rw [← hvalue'] at htracked
      have hbetween' : Masked.Piece.Between output.bits value'.bits r'.bits := by
        rcases hreal with hreal | ⟨rfl, rfl⟩
        · rw [hvalue', hreal]
          apply hbetween.apply hfits
        · apply hbetween
      rw [List.foldl_cons, hstep]
      apply ih size' hr' htracked hbetween'

/-- The invariant of the rules. -/
structure Sound (env : Environ) (args : List (Bv N)) (output : Bv N) (c : CombineRules N) :
    Prop where
  output_eq : c.output = output
  linked : Linked env args output c.mask c.subexprs.reverse

theorem Sound.new (env : Environ) (args : List (Bv N)) (output : Bv N) :
  Sound env args output (new output)
  := ⟨rfl, Linked.nil⟩

variable {pbecstr : PbeConstraint} {c c' : CombineRules N} {e : Expr} {v : Bv N}

theorem Sound.testAnd (h : Sound env args output c) (he : e.evalBv env args = .ok v)
    (hc : c.testAnd env pbecstr e v = .ok c') :
  Sound env args output c'
  := by
  rw [CombineRules.testAnd] at hc
  split_ifs at hc with hcond
  · simp only [Bool.and_eq_true] at hcond
    simp only [bind_eq_ok] at hc
    obtain ⟨b, -, hc⟩ := hc
    split_ifs at hc
    · cases hc
      constructor
      · apply h.output_eq
      · rw [List.reverse_append]
        apply Linked.cons (.and e (c.mask.not.or v)) v h.linked he
        · show output.bits ≤ v.bits
          rw [← h.output_eq]
          apply Bv.imples_iff.mp hcond.1.1
        · apply Bv.bits_and
        · show Masked.Piece.meet (c.mask.not.or v).bits = .meet (c.mask.bitsᶜ ⊔ v.bits)
          rw [Bv.bits_or, Bv.bits_not]
    · cases hc
      apply h
  · cases hc
    apply h

theorem Sound.testOr (h : Sound env args output c) (he : e.evalBv env args = .ok v)
    (hc : c.testOr env pbecstr e v = .ok c') :
  Sound env args output c'
  := by
  rw [CombineRules.testOr] at hc
  split_ifs at hc with hcond
  · simp only [Bool.and_eq_true] at hcond
    simp only [bind_eq_ok] at hc
    obtain ⟨b, -, hc⟩ := hc
    split_ifs at hc
    · cases hc
      constructor
      · apply h.output_eq
      · rw [List.reverse_append]
        apply Linked.cons (.or e (c.mask.and v)) v h.linked he
        · show v.bits ≤ output.bits
          rw [← h.output_eq]
          apply Bv.imples_iff.mp hcond.1.1
        · show (c.mask.and v.not).bits = c.mask.bits ⊓ v.bitsᶜ
          rw [Bv.bits_and, Bv.bits_not]
        · show Masked.Piece.join (c.mask.and v).bits = .join (c.mask.bits ⊓ v.bits)
          rw [Bv.bits_and]
    · cases hc
      apply h
  · cases hc
    apply h

/-- When the expression agrees with the output under the mask, `collect_expr` returns, and
what it returns has the output as its value. -/
theorem Sound.collectExpr (h : Sound env args output c) (he : e.evalBv env args = .ok v)
    (hv : c.mask.and (v.xor c.output) = Bv.zeros) :
  ∃ res size, c.collectExpr e v = .ok (res, size) ∧ res.evalBv env args = .ok output
  := by
  rw [h.output_eq] at hv
  obtain ⟨res, size, hfold, hres⟩ := collect_linked h.linked 0 he
    (Bv.and_xor_eq_zeros.mp hv) (Masked.Piece.Between.refl _ _)
  use res, size
  rw [CombineRules.collectExpr, hfold]
  simp [h.output_eq, hres]

theorem checkExamples_ne_assertion {check : Except Fault Bool} :
  checkExamples (N := N) pbecstr check ≠ .error .assertion
  := by
  unfold checkExamples
  split_ifs
  · simp
  · cases check <;> simp

theorem testAnd_ne_assertion :
  c.testAnd env pbecstr e v ≠ .error .assertion
  := by
  intro h
  rw [CombineRules.testAnd] at h
  split_ifs at h
  rcases bind_eq_error.mp h with h | ⟨b, -, h⟩
  · apply checkExamples_ne_assertion h
  · split_ifs at h

theorem testOr_ne_assertion :
  c.testOr env pbecstr e v ≠ .error .assertion
  := by
  intro h
  rw [CombineRules.testOr] at h
  split_ifs at h
  rcases bind_eq_error.mp h with h | ⟨b, -, h⟩
  · apply checkExamples_ne_assertion h
  · split_ifs at h

/-- One call of `test` on an expression with its value. -/
theorem Sound.test (pbecstr : PbeConstraint) (h : Sound env args output c)
    (he : e.evalBv env args = .ok v) :
  c.test env pbecstr e v ≠ .error .assertion
    ∧ ∀ c' r, c.test env pbecstr e v = .ok (c', r) →
      Sound env args output c' ∧ ∀ e' ∈ r, e'.evalBv env args = .ok output
  := by
  constructor
  · intro herror
    rw [CombineRules.test] at herror
    rcases bind_eq_error.mp herror with herror | ⟨c₁, hc₁, herror⟩
    · apply testAnd_ne_assertion herror
    · rcases bind_eq_error.mp herror with herror | ⟨c₂, hc₂, herror⟩
      · apply testOr_ne_assertion herror
      · have h₂ := (h.testAnd he hc₁).testOr he hc₂
        split_ifs at herror with hv
        obtain ⟨res, size, hres, -⟩ := h₂.collectExpr he hv
        simp only [hres, bind, Except.bind] at herror
        split_ifs at herror
  · intro c' r hok
    simp only [CombineRules.test, bind_eq_ok] at hok
    obtain ⟨c₁, hc₁, c₂, hc₂, hok⟩ := hok
    have h₂ := (h.testAnd he hc₁).testOr he hc₂
    split_ifs at hok with hv
    · obtain ⟨res, size, hres, hout⟩ := h₂.collectExpr he hv
      simp only [hres, bind, Except.bind] at hok
      split_ifs at hok
      · cases hok
        use h₂
        simp
      · cases hok
        use h₂
        rintro e' ⟨⟩
        apply hout
    · cases hok
      use h₂
      simp

/-- A sequence of calls from rules with the invariant. -/
theorem Sound.tests {calls : List (Expr × Bv N)} (h : Sound env args output c)
    (hcalls : ∀ p ∈ calls, p.1.evalBv env args = .ok p.2) :
  CombineRules.tests env pbecstr c calls ≠ .error .assertion
    ∧ ∀ c' rs, CombineRules.tests env pbecstr c calls = .ok (c', rs) →
      ∀ e ∈ rs, e.evalBv env args = .ok output
  := by
  induction calls generalizing c with
  | nil =>
      constructor
      · simp [CombineRules.tests]
      · rintro c' rs hok
        cases hok
        simp
  | cons p calls ih =>
      obtain ⟨htest, hsound⟩ := h.test pbecstr (hcalls p List.mem_cons_self)
      have hrest : ∀ p ∈ calls, p.1.evalBv env args = .ok p.2 := by
        intro p hp
        apply hcalls p (List.mem_cons_of_mem _ hp)
      constructor
      · intro herror
        rcases bind_eq_error.mp herror with herror | ⟨⟨c₁, r⟩, hc₁, herror⟩
        · apply htest herror
        · rcases bind_eq_error.mp herror with herror | ⟨⟨c₂, rs⟩, -, herror⟩
          · apply (ih (hsound c₁ r hc₁).1 hrest).1 herror
          · cases herror
      · intro c' rs hok
        simp only [CombineRules.tests, bind_eq_ok] at hok
        obtain ⟨⟨c₁, r⟩, hc₁, ⟨c₂, rs'⟩, hc₂, hok⟩ := hok
        cases hok
        intro e he
        rcases List.mem_append.mp he with he | he
        · apply (hsound c₁ r hc₁).2 e (Option.mem_toList.mp he)
        · apply (ih (hsound c₁ r hc₁).1 hrest).2 c₂ rs' hc₂ e he

end Linked

/-- From the rules for an output, any sequence of calls of `test` on expressions with their
vectors never fails the assertion of `collect_expr`, and every expression it returns has the
output as its vector. -/
theorem tests_correct (env : Environ) (args : List (Bv N)) (output : Bv N)
    (pbecstr : PbeConstraint) {calls : List (Expr × Bv N)}
    (hcalls : ∀ p ∈ calls, p.1.evalBv env args = .ok p.2) :
  tests env pbecstr (new output) calls ≠ .error .assertion
    ∧ ∀ c rs, tests env pbecstr (new output) calls = .ok (c, rs) →
      ∀ e ∈ rs, e.evalBv env args = .ok output
  := (Sound.new env args output).tests hcalls

/-- Two constants that cover the zeros of the output in its upper and in its lower half. -/
def halves : List (Expr × Bv 1) :=
  [(.const 0xffffffff, Bv.splat 0xffffffff),
    (.const 0xffffffff0000ffff, Bv.splat 0xffffffff0000ffff)]

/-- The second call returns the conjunction of the two constants. -/
theorem tests_correct_halves :
  (∃ c, tests (Environ.new 0) (PbeConstraint.new 0) (new (Bv.splat 0xffff)) halves
      = .ok (c, [.bin .and (.const 0xffffffff) (.const 0xffffffff0000ffff)]))
    ∧ ∀ c rs, tests (Environ.new 0) (PbeConstraint.new 0) (new (Bv.splat 0xffff)) halves
        = .ok (c, rs) → ∀ e ∈ rs, e.evalBv (Environ.new 0) [] = .ok (Bv.splat 0xffff : Bv 1)
  := by
  have hcalls : ∀ p ∈ halves, p.1.evalBv (Environ.new 0) [] = .ok p.2 := by decide
  use ⟨_, rfl⟩
  apply (tests_correct (Environ.new 0) [] (Bv.splat 0xffff) (PbeConstraint.new 0) hcalls).2

end CombineRules

end DryadSynth
