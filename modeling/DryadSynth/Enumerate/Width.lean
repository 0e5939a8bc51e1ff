import DryadSynth.Enumerate.Complete
import DryadSynth.Enumerate.Display
import DryadSynth.Library.Widths
import DryadSynth.Parse.Constraint

/-!
# The declared width

`synth-fun` declares a width, and no parser compares it with 64: `eval` computes with 64 bits
whatever the file says.  The value that `QF_BV` gives an expression at the declared width is
compared here with what `eval` returns on the same numbers.

The two agree on all expressions over a grammar exactly when no expression over it leaves what
both widths have in common: its constants and arguments fit both widths, and at each operator the
numbers of the operands give the same number at both widths.
-/

namespace DryadSynth

open QFBV (Value)
open Widths

/-! ### Accepted files -/

/-- A file that the front end accepts: the function to synthesize, the rules and one of the two
kinds of constraints are read without an error. -/
structure Accepted where
  sexpr : SExpr
  env : Environ
  problem : SynthProblem
  config : Config
  parse_eq : SynthProblem.parse sexpr = .ok problem
  fromProblem_eq : Config.fromProblem env problem = .ok config
  constraint : (∃ c, PbeConstraint.parse problem.name problem.args.length sexpr = .ok c) ∨
    ∃ r, RefImplConstraint.parse sexpr = .ok r

/-- The expressions over the rules that call no defined function. -/
inductive Over {s : Storage} (config : Config) : ExprIn s → Prop where
  | un {o e₁} (hfop : ∀ i, o ≠ .fop1 i) (ho : o.rule ∈ config) (h₁ : Over config e₁) :
      Over config (.un o e₁)
  | bin {o e₁ e₂} (hfop : ∀ i, o ≠ .fop2 i) (ho : o.rule ∈ config) (h₁ : Over config e₁)
      (h₂ : Over config e₂) : Over config (.bin o e₁ e₂)
  | shift {o c rule e₁} (ho : o.constRule c = some rule) (hrule : rule ∈ config)
      (h₁ : Over config e₁) : Over config (.bin o e₁ (.const c))
  | ite {e₁ e₂ e₃} (ho : Rule.ite ∈ config) (h₁ : Over config e₁) (h₂ : Over config e₂)
      (h₃ : Over config e₃) : Over config (.ite e₁ e₂ e₃)
  | var {i} (hi : .var i ∈ config) : Over config (.var i)
  | const {c} (hc : .const c ∈ config) : Over config (.const c)

/-! ### The value at a width -/

section Value

variable {w : ℕ}

/-- The bits of a value of sort `(_ BitVec w)`. -/
def asBits : Option (Value w) → Option (BitVec w)
  | some (.bits y) => some y
  | some (.bool _) => none
  | none => none

@[simp]
theorem asBits_eq_some {r : Option (Value w)} {y : BitVec w} :
  asBits r = some y ↔ r = some (.bits y)
  := by
  rcases r with _ | (_ | _) <;> simp [asBits]

/-- The `QF_BV` value of an expression at width `w`.  A literal is a term of this width when its
number is below `2 ^ w`; a condition is compared with zero, as it is printed. -/
def ExprIn.value {s : Storage} (ys : List (BitVec w)) : ExprIn s → Option (BitVec w)
  | .un o e₁ => do
      let a ← e₁.value ys
      asBits (QFBV.theory o.smtName [.bits a])
  | .bin o e₁ e₂ => do
      let a ← e₁.value ys
      let b ← e₂.value ys
      asBits (QFBV.theory o.smtName [.bits a, .bits b])
  | .ite e₁ e₂ e₃ => do
      let a ← e₁.value ys
      let b ← e₂.value ys
      let c ← e₃.value ys
      let t ← QFBV.theory "=" [.bits a, .bits 0]
      asBits (QFBV.theory "ite" [t, .bits b, .bits c])
  | .var i => ys[i]?
  | .const c => if c.toNat < 2 ^ w then some (BitVec.ofNat w c.toNat) else none

/-- What `eval` returns on the same numbers is the number of the value at the declared width. -/
def ExprIn.Agrees {s : Storage} (env : Environ) (ys : List (BitVec w)) (e : ExprIn s) : Prop :=
  ∀ v, e.eval env (ys.map (BitVec.setWidth 64)) = .ok v →
    ∃ y, e.value ys = some y ∧ y.toNat = v.toNat

/-- No divisor in the expression is zero at the declared width. -/
def ExprIn.NoZeroDivisor {s : Storage} (ys : List (BitVec w)) : ExprIn s → Prop
  | .un _ e₁ => e₁.NoZeroDivisor ys
  | .bin o e₁ e₂ => e₁.NoZeroDivisor ys ∧ e₂.NoZeroDivisor ys ∧
      (o.nonzero = true → ∀ b, e₂.value ys = some b → b ≠ 0)
  | .ite e₁ e₂ e₃ => e₁.NoZeroDivisor ys ∧ e₂.NoZeroDivisor ys ∧ e₃.NoZeroDivisor ys
  | .var _ => True
  | .const _ => True

/-- For which number the operator has the same result at width `w` and at 64. -/
def UnOp.Fits (w a : ℕ) : UnOp → Prop
  | .not => w = 64
  | .neg => w = 64 ∨ a = 0
  | .fop1 _ => True

/-- For which numbers the operator has the same result at width `w` and at 64. -/
def BinOp.Fits (w a b : ℕ) : BinOp → Prop
  | .add => w = 64 ∨ a + b < 2 ^ min w 64
  | .sub => w = 64 ∨ b ≤ a
  | .mul => w = 64 ∨ a * b % 2 ^ max w 64 < 2 ^ min w 64
  | .shl => w = 64 ∨ a * 2 ^ b % 2 ^ max w 64 < 2 ^ min w 64
  | .sdiv => w = 64 ∨ QuotientFits (min w 64) a b
  | .srem => w = 64 ∨ RemainderFits (min w 64) a b
  -- at width 64 the shift of a negative number by at least the width
  | .ashr => if w = 64 then ¬ (64 ≤ b ∧ 2 ^ 63 ≤ a)
      else a < 2 ^ (min w 64 - 1) ∨ b = 0 ∨ (64 < w ∧ 64 ≤ b)
  | .and | .or | .xor | .lshr | .udiv | .urem | .fop2 _ => True

/-- The top of the expression leaves nothing that the declared width and 64 bits have in
common. -/
def ExprIn.FitsHere {s : Storage} (ys : List (BitVec w)) : ExprIn s → Prop
  | .un o e₁ => e₁.NoZeroDivisor ys → ∀ a, e₁.value ys = some a → o.Fits w a.toNat
  | .bin o e₁ e₂ => e₁.NoZeroDivisor ys → e₂.NoZeroDivisor ys → ∀ a, e₁.value ys = some a →
      (∀ c, e₂ = .const c → c.toNat < 2 ^ w) ∧
        ∀ b, e₂.value ys = some b → (o.nonzero = true → b ≠ 0) → o.Fits w a.toNat b.toNat
  | .ite _ _ _ => True
  | .var i => ∀ y, ys[i]? = some y → y.toNat < 2 ^ 64
  | .const c => c.toNat < 2 ^ w

end Value

/-! ### The operators -/

section Operators

variable {w : ℕ} {F : Funs} {a b : BitVec w} {v₁ v₂ v : BitVec 64}

theorem lshr_eq (v₁ v₂ : BitVec 64) :
  op.lshr v₁ v₂ = v₁ >>> v₂.toNat
  := by
  rw [op.lshr]
  split_ifs with h
  · rw [BitVec.ushiftRight_eq_zero h]
    rfl
  · rfl

theorem shl_eq (v₁ v₂ : BitVec 64) :
  op.shl v₁ v₂ = v₁ <<< v₂.toNat
  := by
  rw [op.shl]
  split_ifs with h
  · rw [BitVec.shiftLeft_eq_zero h]
    rfl
  · rfl

/-- Two results that are the same at width 64, and at another width under a condition. -/
theorem toNat_eq_iff_or {y : BitVec w} {C : Prop} (heq : w = 64 → y.toNat = v.toNat)
    (hne : w ≠ 64 → (v.toNat = y.toNat ↔ C)) :
  y.toNat = v.toNat ↔ w = 64 ∨ C
  := by
  by_cases hw : w = 64
  · apply iff_of_true (heq hw) (.inl hw)
  · rw [eq_comm, hne hw, or_iff_right hw]

/-- An operator of arity one has a value at every width, and it is the number that the 64-bit
operator returns exactly when the operand fits. -/
theorem UnOp.theory_iff {o : UnOp} (hfop : ∀ i, o ≠ .fop1 i) (ha : v₁.toNat = a.toNat)
    (hv : o.eval F v₁ = .ok v) :
  (∃ y : BitVec w, asBits (QFBV.theory o.smtName [.bits a]) = some y ∧ y.toNat = v.toNat)
    ↔ o.Fits w a.toNat
  := by
  cases o with
  | fop1 i => cases hfop i rfl
  | not =>
      cases hv
      have hth : asBits (QFBV.theory UnOp.not.smtName [.bits a]) = some (~~~a) := rfl
      simp only [hth, Option.some.injEq, exists_eq_left', UnOp.Fits, op.not]
      constructor
      · intro heq
        by_contra hw
        apply toNat_not_ne_of_ne hw ha heq.symm
      · rintro rfl
        rw [BitVec.eq_of_toNat_eq ha]
  | neg =>
      cases hv
      have hth : asBits (QFBV.theory UnOp.neg.smtName [.bits a]) = some (-a) := rfl
      have hneg : op.neg v₁ = -v₁ := BitVec.zero_sub v₁
      simp only [hth, Option.some.injEq, exists_eq_left', UnOp.Fits, hneg]
      apply toNat_eq_iff_or
      · rintro rfl
        rw [BitVec.eq_of_toNat_eq ha]
      · intro hw
        apply toNat_neg_iff_of_ne hw ha

/-- The arithmetic shift: at a width other than 64, a shift that only the smaller width sees as
one of a negative value. -/
theorem ashr_toNat_iff (ha : v₁.toNat = a.toNat) (hb : v₂.toNat = b.toNat) :
  (a.sshiftRight b.toNat).toNat = (op.ashr v₁ v₂).toNat ↔ BinOp.ashr.Fits w a.toNat b.toNat
  := by
  rw [BinOp.Fits]
  split_ifs with hw
  · subst hw
    rw [← BitVec.eq_of_toNat_eq ha, ← BitVec.eq_of_toNat_eq hb, BitVec.toNat_inj, eq_comm,
      ashr_eq_iff, BitVec.msb_eq_decide, decide_eq_true_eq]
  · by_cases hwide : 64 ≤ v₂.toNat
    · have hzero : op.ashr v₁ v₂ = 0 := if_pos hwide
      have hshift : v₁.toNat >>> b.toNat = 0 := by
        rw [← hb, ← BitVec.toNat_ushiftRight, BitVec.ushiftRight_eq_zero hwide]
        rfl
      rcases lt_or_gt_of_ne hw with h | h
      · have hpos : (v₁.sshiftRight b.toNat).toNat = 0 := by
          rw [BitVec.toNat_sshiftRight_of_msb_false (msb_eq_false h ha), hshift]
        have hiff := toNat_sshiftRight_iff h ha b.toNat
        rw [hpos] at hiff
        have hzero' : (op.ashr v₁ v₂).toNat = 0 := by
          rw [hzero]
          rfl
        rw [hzero', eq_comm, hiff, min_eq_left h.le]
        omega
      · rw [hzero, BitVec.toNat_sshiftRight_of_msb_false (msb_eq_false h ha.symm), ← ha, hshift]
        exact iff_of_true rfl (.inr (.inr ⟨h, hb ▸ hwide⟩))
    · have hnarrow : op.ashr v₁ v₂ = v₁.sshiftRight b.toNat := by
        rw [op.ashr, if_neg hwide, hb]
      rw [hnarrow, eq_comm, toNat_sshiftRight_iff_of_ne hw ha]
      omega

/-- An operator of arity two has a value at every width, and it is the number that the 64-bit
operator returns exactly when the operands fit. -/
theorem BinOp.theory_iff {o : BinOp} (hfop : ∀ i, o ≠ .fop2 i) (ha : v₁.toNat = a.toNat)
    (hb : v₂.toNat = b.toNat) (hv : o.eval F v₁ v₂ = .ok v) :
  (∃ y : BitVec w, asBits (QFBV.theory o.smtName [.bits a, .bits b]) = some y ∧
      y.toNat = v.toNat)
    ↔ o.Fits w a.toNat b.toNat
  := by
  have hpos : v₂ ≠ 0 → b.toNat ≠ 0 := by
    intro hne hb₀
    apply hne
    apply BitVec.eq_of_toNat_eq
    rw [hb, hb₀]
    rfl
  have hzero : v₂ ≠ 0 → b ≠ 0 := by
    rintro hne rfl
    apply hpos hne
    simp
  cases o with
  | fop2 i => cases hfop i rfl
  | and =>
      cases hv
      have hth : asBits (QFBV.theory BinOp.and.smtName [.bits a, .bits b]) = some (a &&& b) := rfl
      simp only [hth, Option.some.injEq, exists_eq_left', BinOp.Fits, iff_true, op.and]
      rw [BitVec.toNat_and, BitVec.toNat_and, ha, hb]
  | or =>
      cases hv
      have hth : asBits (QFBV.theory BinOp.or.smtName [.bits a, .bits b]) = some (a ||| b) := rfl
      simp only [hth, Option.some.injEq, exists_eq_left', BinOp.Fits, iff_true, op.or]
      rw [BitVec.toNat_or, BitVec.toNat_or, ha, hb]
  | xor =>
      cases hv
      have hth : asBits (QFBV.theory BinOp.xor.smtName [.bits a, .bits b]) = some (a ^^^ b) := rfl
      simp only [hth, Option.some.injEq, exists_eq_left', BinOp.Fits, iff_true, op.xor]
      rw [BitVec.toNat_xor, BitVec.toNat_xor, ha, hb]
  | lshr =>
      cases hv
      have hth : asBits (QFBV.theory BinOp.lshr.smtName [.bits a, .bits b])
          = some (a >>> b.toNat) := rfl
      simp only [hth, Option.some.injEq, exists_eq_left', BinOp.Fits, iff_true, lshr_eq]
      rw [hb, toNat_ushiftRight_eq ha]
  | udiv =>
      obtain ⟨hne, rfl⟩ := op.udiv_eq_ok hv
      have hth : asBits (QFBV.theory BinOp.udiv.smtName [.bits a, .bits b])
          = some (a.smtUDiv b) := rfl
      rw [QFBV.smtUDiv_of_ne_zero a (hzero hne)] at hth
      simp only [hth, Option.some.injEq, exists_eq_left', BinOp.Fits, iff_true]
      rw [toNat_udiv_eq ha hb]
  | urem =>
      obtain ⟨hne, rfl⟩ := op.urem_eq_ok hv
      have hth : asBits (QFBV.theory BinOp.urem.smtName [.bits a, .bits b]) = some (a % b) := rfl
      simp only [hth, Option.some.injEq, exists_eq_left', BinOp.Fits, iff_true]
      rw [toNat_umod_eq ha hb]
  | ashr =>
      cases hv
      have hth : asBits (QFBV.theory BinOp.ashr.smtName [.bits a, .bits b])
          = some (a.sshiftRight b.toNat) := rfl
      simp only [hth, Option.some.injEq, exists_eq_left']
      apply ashr_toNat_iff ha hb
  | add =>
      cases hv
      have hth : asBits (QFBV.theory BinOp.add.smtName [.bits a, .bits b]) = some (a + b) := rfl
      simp only [hth, Option.some.injEq, exists_eq_left', BinOp.Fits, op.add]
      apply toNat_eq_iff_or
      · rintro rfl
        rw [BitVec.eq_of_toNat_eq ha, BitVec.eq_of_toNat_eq hb]
      · intro hw
        apply toNat_add_iff_of_ne hw ha hb
  | sub =>
      cases hv
      have hth : asBits (QFBV.theory BinOp.sub.smtName [.bits a, .bits b]) = some (a - b) := rfl
      simp only [hth, Option.some.injEq, exists_eq_left', BinOp.Fits, op.sub]
      apply toNat_eq_iff_or
      · rintro rfl
        rw [BitVec.eq_of_toNat_eq ha, BitVec.eq_of_toNat_eq hb]
      · intro hw
        apply toNat_sub_iff_of_ne hw ha hb
  | mul =>
      cases hv
      have hth : asBits (QFBV.theory BinOp.mul.smtName [.bits a, .bits b]) = some (a * b) := rfl
      simp only [hth, Option.some.injEq, exists_eq_left', BinOp.Fits, op.mul]
      apply toNat_eq_iff_or
      · rintro rfl
        rw [BitVec.eq_of_toNat_eq ha, BitVec.eq_of_toNat_eq hb]
      · intro hw
        apply toNat_mul_iff_of_ne hw ha hb
  | shl =>
      cases hv
      have hth : asBits (QFBV.theory BinOp.shl.smtName [.bits a, .bits b])
          = some (a <<< b.toNat) := rfl
      simp only [hth, Option.some.injEq, exists_eq_left', BinOp.Fits, shl_eq]
      apply toNat_eq_iff_or
      · rintro rfl
        rw [BitVec.eq_of_toNat_eq ha, BitVec.eq_of_toNat_eq hb]
      · intro hw
        rw [hb]
        apply toNat_shiftLeft_iff_of_ne hw ha
  | sdiv =>
      obtain ⟨hne, rfl⟩ := op.sdiv_eq_ok hv
      have hth : asBits (QFBV.theory BinOp.sdiv.smtName [.bits a, .bits b])
          = some (a.smtSDiv b) := rfl
      rw [QFBV.smtSDiv_of_ne_zero a (hzero hne)] at hth
      simp only [hth, Option.some.injEq, exists_eq_left', BinOp.Fits]
      apply toNat_eq_iff_or
      · rintro rfl
        rw [BitVec.eq_of_toNat_eq ha, BitVec.eq_of_toNat_eq hb]
      · intro hw
        apply toNat_sdiv_iff_of_ne hw ha hb (hpos hne)
  | srem =>
      obtain ⟨hne, rfl⟩ := op.srem_eq_ok hv
      have hth : asBits (QFBV.theory BinOp.srem.smtName [.bits a, .bits b])
          = some (a.srem b) := rfl
      simp only [hth, Option.some.injEq, exists_eq_left', BinOp.Fits]
      apply toNat_eq_iff_or
      · rintro rfl
        rw [BitVec.eq_of_toNat_eq ha, BitVec.eq_of_toNat_eq hb]
      · intro hw
        apply toNat_srem_iff_of_ne hw ha hb (hpos hne)

end Operators

/-! ### Evaluation -/

section Evaluation

variable {w : ℕ} {F : Funs} {s : Storage} {ys : List (BitVec w)}

theorem UnOp.exists_eval {o : UnOp} (hfop : ∀ i, o ≠ .fop1 i) (v₁ : BitVec 64) :
  ∃ v, o.eval F v₁ = .ok v
  := by
  cases o with
  | fop1 i => cases hfop i rfl
  | _ => exact ⟨_, rfl⟩

/-- An operator returns a value where it does not divide by zero. -/
theorem BinOp.exists_eval_iff {o : BinOp} (hfop : ∀ i, o ≠ .fop2 i) (v₁ v₂ : BitVec 64) :
  (∃ v, o.eval F v₁ v₂ = .ok v) ↔ (o.nonzero = true → v₂ ≠ 0)
  := by
  cases o with
  | fop2 i => cases hfop i rfl
  | udiv | urem | sdiv | srem =>
      simp only [BinOp.eval, BinOp.nonzero, true_implies, op.udiv, op.urem, op.sdiv, op.srem]
      split_ifs with h
      · simp [h]
      · apply iff_of_true ⟨_, rfl⟩ h
  | _ =>
      apply iff_of_true ⟨_, rfl⟩
      rintro ⟨⟩

theorem BinOp.of_constRule {o : BinOp} {c : BitVec 64} {rule : Rule}
    (h : o.constRule c = some rule) :
  (∀ i, o ≠ .fop2 i) ∧ o.nonzero = false
  := by
  cases o with
  | lshr | ashr | shl =>
      constructor
      · rintro i ⟨⟩
      · rfl
  | _ => cases h

theorem ExprIn.value_un {o : UnOp} {e₁ : ExprIn s} {y : BitVec w} :
  (ExprIn.un o e₁).value ys = some y
    ↔ ∃ a, e₁.value ys = some a ∧ asBits (QFBV.theory o.smtName [.bits a]) = some y
  := Option.bind_eq_some_iff

theorem ExprIn.value_bin {o : BinOp} {e₁ e₂ : ExprIn s} {y : BitVec w} :
  (ExprIn.bin o e₁ e₂).value ys = some y
    ↔ ∃ a, e₁.value ys = some a ∧ ∃ b, e₂.value ys = some b ∧
      asBits (QFBV.theory o.smtName [.bits a, .bits b]) = some y
  := by
  simp only [ExprIn.value, Option.bind_eq_bind, Option.bind_eq_some_iff]

theorem ExprIn.value_ite {e₁ e₂ e₃ : ExprIn s} {y : BitVec w} :
  (ExprIn.ite e₁ e₂ e₃).value ys = some y
    ↔ ∃ a, e₁.value ys = some a ∧ ∃ b, e₂.value ys = some b ∧ ∃ c, e₃.value ys = some c ∧
      (if (a == 0) = true then b else c) = y
  := by
  have hth : ∀ a b c : BitVec w, ((QFBV.theory "=" [.bits a, .bits 0]).bind fun t =>
      asBits (QFBV.theory "ite" [t, .bits b, .bits c]))
        = some (if (a == 0) = true then b else c) := by
    intro a b c
    rfl
  simp only [ExprIn.value, Option.bind_eq_bind, hth]
  simp only [Option.bind_eq_some_iff, Option.some.injEq]

/-- A literal of the width has its number. -/
theorem ExprIn.value_const (s : Storage) (ys : List (BitVec w)) {c : BitVec 64}
    (hc : c.toNat < 2 ^ w) :
  ∃ y, (ExprIn.const c : ExprIn s).value ys = some y ∧ y.toNat = c.toNat
  := by
  use BitVec.ofNat w c.toNat, if_pos hc
  rw [BitVec.toNat_ofNat, Nat.mod_eq_of_lt hc]

theorem ExprIn.lt_of_value_const {c : BitVec 64} {y : BitVec w}
    (hy : (ExprIn.const c : ExprIn s).value ys = some y) :
  c.toNat < 2 ^ w
  := by
  rw [ExprIn.value] at hy
  split_ifs at hy with hc
  apply hc

end Evaluation

/-! ### Expressions over the rules -/

section Grammar

variable {w : ℕ} {env : Environ} {config : Config} {s : Storage} {ys : List (BitVec w)}

/-- If all expressions over the rules fit then what `eval` returns is the number of the value,
and it divides by no zero. -/
theorem value_of_eval (hfit : ∀ e : ExprIn s, Over config e → e.FitsHere ys) {e : ExprIn s}
    (he : Over config e) {v : BitVec 64}
    (hv : e.eval env (ys.map (BitVec.setWidth 64)) = .ok v) :
  (∃ y, e.value ys = some y ∧ y.toNat = v.toNat) ∧ e.NoZeroDivisor ys
  := by
  induction he generalizing v with
  | @un o e₁ hfop ho h₁ ih₁ =>
      obtain ⟨v₁, hv₁, hov⟩ := ExprIn.evalWith_un.mp hv
      obtain ⟨⟨a, ha, hav⟩, hnz⟩ := ih₁ hv₁
      obtain ⟨y, hy, hyv⟩ :=
        (UnOp.theory_iff hfop hav.symm hov).mpr (hfit _ (.un hfop ho h₁) hnz a ha)
      constructor
      · use y, ExprIn.value_un.mpr ⟨a, ha, hy⟩
      · apply hnz
  | @bin o e₁ e₂ hfop ho h₁ h₂ ih₁ ih₂ =>
      obtain ⟨v₁, hv₁, v₂, hv₂, hov⟩ := ExprIn.evalWith_bin.mp hv
      obtain ⟨⟨a, ha, hav⟩, hnz₁⟩ := ih₁ hv₁
      obtain ⟨⟨b, hb, hbv⟩, hnz₂⟩ := ih₂ hv₂
      have hne : o.nonzero = true → b ≠ 0 := by
        rintro hnonzero rfl
        apply (BinOp.exists_eval_iff hfop v₁ v₂).mp ⟨v, hov⟩ hnonzero
        apply BitVec.eq_of_toNat_eq
        rw [← hbv]
        simp
      obtain ⟨-, hfits⟩ := hfit _ (.bin hfop ho h₁ h₂) hnz₁ hnz₂ a ha
      obtain ⟨y, hy, hyv⟩ :=
        (BinOp.theory_iff hfop hav.symm hbv.symm hov).mpr (hfits b hb hne)
      constructor
      · use y, ExprIn.value_bin.mpr ⟨a, ha, b, hb, hy⟩
      · use hnz₁, hnz₂
        intro hnonzero b' hb'
        rw [hb] at hb'
        cases hb'
        apply hne hnonzero
  | @shift o c rule e₁ ho hrule h₁ ih₁ =>
      obtain ⟨v₁, hv₁, v₂, hv₂, hov⟩ := ExprIn.evalWith_bin.mp hv
      cases hv₂
      obtain ⟨⟨a, ha, hav⟩, hnz⟩ := ih₁ hv₁
      obtain ⟨hfop, hnonzero⟩ := BinOp.of_constRule ho
      have hne : ∀ b : BitVec w, o.nonzero = true → b ≠ 0 := by
        rw [hnonzero]
        rintro b ⟨⟩
      obtain ⟨hlit, hfits⟩ := hfit _ (.shift ho hrule h₁) hnz trivial a ha
      obtain ⟨b, hb, hbc⟩ := ExprIn.value_const s ys (hlit c rfl)
      obtain ⟨y, hy, hyv⟩ :=
        (BinOp.theory_iff hfop hav.symm hbc.symm hov).mpr (hfits b hb (hne b))
      constructor
      · use y, ExprIn.value_bin.mpr ⟨a, ha, b, hb, hy⟩
      · use hnz, trivial
        intro h b' _
        apply hne b' h
  | @ite e₁ e₂ e₃ ho h₁ h₂ h₃ ih₁ ih₂ ih₃ =>
      obtain ⟨v₁, hv₁, v₂, hv₂, v₃, hv₃, rfl⟩ := ExprIn.evalWith_ite.mp hv
      obtain ⟨⟨a, ha, hav⟩, hnz₁⟩ := ih₁ hv₁
      obtain ⟨⟨b, hb, hbv⟩, hnz₂⟩ := ih₂ hv₂
      obtain ⟨⟨c, hc, hcv⟩, hnz₃⟩ := ih₃ hv₃
      constructor
      · use if (a == 0) = true then b else c, ExprIn.value_ite.mpr ⟨a, ha, b, hb, c, hc, rfl⟩
        have hzero : (a == 0) = true ↔ v₁ = 0 := by
          rw [beq_iff_eq, ← BitVec.toNat_inj, ← BitVec.toNat_inj, hav]
          simp
        rw [op.ite]
        by_cases h : v₁ = 0
        · rw [if_pos (hzero.mpr h), if_pos h, hbv]
        · rw [if_neg (mt hzero.mp h), if_neg h, hcv]
      · use hnz₁, hnz₂
  | @var i hi =>
      have hi' := ExprIn.evalWith_var.mp hv
      rw [List.getElem?_map, Option.map_eq_some_iff] at hi'
      obtain ⟨y, hy, rfl⟩ := hi'
      constructor
      · use y, hy
        rw [BitVec.toNat_setWidth, Nat.mod_eq_of_lt (hfit _ (.var hi) y hy)]
      · exact trivial
  | @const c hc =>
      cases hv
      constructor
      · apply ExprIn.value_const s ys (hfit _ (.const hc))
      · exact trivial

/-- If all expressions over the rules agree then one that has a value and divides by no zero is
evaluated to that number. -/
theorem eval_of_value (hagree : ∀ e : ExprIn s, Over config e → e.Agrees env ys) {e : ExprIn s}
    (he : Over config e) (hnz : e.NoZeroDivisor ys) {y : BitVec w} (hy : e.value ys = some y) :
  ∃ v, e.eval env (ys.map (BitVec.setWidth 64)) = .ok v ∧ v.toNat = y.toNat
  := by
  suffices hret : ∃ v, e.eval env (ys.map (BitVec.setWidth 64)) = .ok v by
    obtain ⟨v, hv⟩ := hret
    obtain ⟨y', hy', hyv⟩ := hagree e he v hv
    rw [hy] at hy'
    cases hy'
    use v, hv, hyv.symm
  induction he generalizing y with
  | @un o e₁ hfop ho h₁ ih₁ =>
      obtain ⟨a, ha, -⟩ := ExprIn.value_un.mp hy
      obtain ⟨v₁, hv₁⟩ := ih₁ hnz ha
      obtain ⟨v, hv⟩ := UnOp.exists_eval hfop v₁
      use v, ExprIn.evalWith_un.mpr ⟨v₁, hv₁, hv⟩
  | @bin o e₁ e₂ hfop ho h₁ h₂ ih₁ ih₂ =>
      obtain ⟨a, ha, b, hb, -⟩ := ExprIn.value_bin.mp hy
      obtain ⟨hnz₁, hnz₂, hne⟩ := hnz
      obtain ⟨v₁, hv₁⟩ := ih₁ hnz₁ ha
      obtain ⟨v₂, hv₂⟩ := ih₂ hnz₂ hb
      obtain ⟨b', hb', hbv⟩ := hagree e₂ h₂ v₂ hv₂
      rw [hb] at hb'
      cases hb'
      obtain ⟨v, hv⟩ : ∃ v, o.eval (env.funs env.stack) v₁ v₂ = .ok v := by
        apply (BinOp.exists_eval_iff hfop v₁ v₂).mpr
        rintro hnonzero rfl
        apply hne hnonzero b hb
        apply BitVec.eq_of_toNat_eq
        rw [hbv]
        simp
      use v, ExprIn.evalWith_bin.mpr ⟨v₁, hv₁, v₂, hv₂, hv⟩
  | @shift o c rule e₁ ho hrule h₁ ih₁ =>
      obtain ⟨a, ha, -⟩ := ExprIn.value_bin.mp hy
      obtain ⟨hfop, hnonzero⟩ := BinOp.of_constRule ho
      obtain ⟨v₁, hv₁⟩ := ih₁ hnz.1 ha
      obtain ⟨v, hv⟩ : ∃ v, o.eval (env.funs env.stack) v₁ c = .ok v := by
        apply (BinOp.exists_eval_iff hfop v₁ c).mpr
        rw [hnonzero]
        rintro ⟨⟩
      use v, ExprIn.evalWith_bin.mpr ⟨v₁, hv₁, c, rfl, hv⟩
  | @ite e₁ e₂ e₃ ho h₁ h₂ h₃ ih₁ ih₂ ih₃ =>
      obtain ⟨a, ha, b, hb, c, hc, -⟩ := ExprIn.value_ite.mp hy
      obtain ⟨hnz₁, hnz₂, hnz₃⟩ := hnz
      obtain ⟨v₁, hv₁⟩ := ih₁ hnz₁ ha
      obtain ⟨v₂, hv₂⟩ := ih₂ hnz₂ hb
      obtain ⟨v₃, hv₃⟩ := ih₃ hnz₃ hc
      use op.ite v₁ v₂ v₃, ExprIn.evalWith_ite.mpr ⟨v₁, hv₁, v₂, hv₂, v₃, hv₃, rfl⟩
  | @var i hi =>
      have hi' : ys[i]? = some y := hy
      use y.setWidth 64
      apply ExprIn.evalWith_var.mpr
      rw [List.getElem?_map, hi', Option.map_some]
  | @const c hc => exact ⟨c, rfl⟩

/-- If all expressions over the rules agree then each of them fits. -/
theorem fitsHere_of_agrees (hagree : ∀ e : ExprIn s, Over config e → e.Agrees env ys)
    {e : ExprIn s} (he : Over config e) :
  e.FitsHere ys
  := by
  cases he with
  | @un o e₁ hfop ho h₁ =>
      intro hnz a ha
      obtain ⟨v₁, hv₁, hva⟩ := eval_of_value hagree h₁ hnz ha
      obtain ⟨v, hv⟩ := UnOp.exists_eval hfop v₁
      apply (UnOp.theory_iff hfop hva hv).mp
      obtain ⟨y, hy, hyv⟩ :=
        hagree _ (.un hfop ho h₁) v (ExprIn.evalWith_un.mpr ⟨v₁, hv₁, hv⟩)
      obtain ⟨a', ha', hy⟩ := ExprIn.value_un.mp hy
      rw [ha] at ha'
      cases ha'
      use y
  | @bin o e₁ e₂ hfop ho h₁ h₂ =>
      intro hnz₁ hnz₂ a ha
      obtain ⟨v₁, hv₁, hva⟩ := eval_of_value hagree h₁ hnz₁ ha
      constructor
      · rintro c rfl
        obtain ⟨y, hy, -⟩ := hagree _ h₂ c rfl
        apply ExprIn.lt_of_value_const hy
      · intro b hb hne
        obtain ⟨v₂, hv₂, hvb⟩ := eval_of_value hagree h₂ hnz₂ hb
        obtain ⟨v, hv⟩ : ∃ v, o.eval (env.funs env.stack) v₁ v₂ = .ok v := by
          apply (BinOp.exists_eval_iff hfop v₁ v₂).mpr
          rintro hnonzero rfl
          apply hne hnonzero
          apply BitVec.eq_of_toNat_eq
          rw [← hvb]
          simp
        apply (BinOp.theory_iff hfop hva hvb hv).mp
        obtain ⟨y, hy, hyv⟩ := hagree _ (.bin hfop ho h₁ h₂) v
          (ExprIn.evalWith_bin.mpr ⟨v₁, hv₁, v₂, hv₂, hv⟩)
        obtain ⟨a', ha', b', hb', hy⟩ := ExprIn.value_bin.mp hy
        rw [ha] at ha'
        rw [hb] at hb'
        cases ha'
        cases hb'
        use y
  | @shift o c rule e₁ ho hrule h₁ =>
      intro hnz _ a ha
      obtain ⟨v₁, hv₁, hva⟩ := eval_of_value hagree h₁ hnz ha
      obtain ⟨hfop, hnonzero⟩ := BinOp.of_constRule ho
      obtain ⟨v, hv⟩ : ∃ v, o.eval (env.funs env.stack) v₁ c = .ok v := by
        apply (BinOp.exists_eval_iff hfop v₁ c).mpr
        rw [hnonzero]
        rintro ⟨⟩
      obtain ⟨y, hy, hyv⟩ := hagree _ (.shift ho hrule h₁) v
        (ExprIn.evalWith_bin.mpr ⟨v₁, hv₁, c, rfl, hv⟩)
      obtain ⟨a', ha', b, hb, hy⟩ := ExprIn.value_bin.mp hy
      rw [ha] at ha'
      cases ha'
      have hc := ExprIn.lt_of_value_const hb
      obtain ⟨b', hb', hbc⟩ := ExprIn.value_const s ys hc
      rw [hb] at hb'
      cases hb'
      constructor
      · rintro c' ⟨⟩
        apply hc
      · intro b' hb' _
        rw [hb] at hb'
        cases hb'
        apply (BinOp.theory_iff hfop hva hbc.symm hv).mp
        use y
  | ite ho h₁ h₂ h₃ => exact trivial
  | @var i hi =>
      intro y hy
      have hval : (ExprIn.var i : ExprIn s).value ys = some y := hy
      obtain ⟨v, -, hv⟩ := eval_of_value hagree (.var hi) trivial hval
      rw [← hv]
      apply v.isLt
  | @const c hc =>
      obtain ⟨y, hy, -⟩ := hagree _ (.const hc) c rfl
      apply ExprIn.lt_of_value_const hy

end Grammar

/-- In an accepted file, `eval` returns for all expressions over the grammar the numbers of their
values at the declared width exactly when all of them fit. -/
theorem agrees_iff_fitsHere (file : Accepted) (ys : List (BitVec file.problem.bits)) :
  (∀ e : OwnedExpr, Over file.config e → e.Agrees file.env ys)
    ↔ ∀ e : OwnedExpr, Over file.config e → e.FitsHere ys
  := by
  constructor
  · intro hagree e he
    apply fitsHere_of_agrees hagree he
  · intro hfit e he v hv
    apply (value_of_eval hfit he hv).1

/-- The file with `(synth-fun f ((x (BitVec 32))) (BitVec 32) ((Start (BitVec 32)
(x #x00000001 (bvadd Start Start)))))` and `(constraint (= (f #xffffffff) #x00000000))`. -/
def incrementFile : Accepted where
  sexpr := .list [
    .list [.id "synth-fun", .id "f", .list [.list [.id "x", .list [.id "BitVec", .id "32"]]],
      .list [.id "BitVec", .id "32"],
      .list [.list [.id "Start", .list [.id "BitVec", .id "32"],
        .list [.id "x", .const "#x00000001", .list [.id "bvadd", .id "Start", .id "Start"]]]]],
    .list [.id "constraint",
      .list [.id "=", .list [.id "f", .const "#xffffffff"], .const "#x00000000"]]]
  env := .new 0
  problem := ⟨"f", ["x"],
    [⟨"Start", [.id "x", .const "#x00000001", .list [.id "bvadd", .id "Start", .id "Start"]]⟩],
    .id "f", [], 32⟩
  config := [.var 0, .const 1, .add]
  parse_eq := by rfl
  fromProblem_eq := by rfl
  constraint := by
    left
    use ⟨[[0xffffffff]], [0]⟩
    rfl

/-- The successor of the largest number of 32 bits is zero at the declared width, and `eval`
returns `2 ^ 32`; the example of the file is not accepted. -/
theorem increment_disagrees :
  Over incrementFile.config (.bin .add (.var 0) (.const 1) : OwnedExpr) ∧
    (.bin .add (.var 0) (.const 1) : OwnedExpr).value [(0xffffffff : BitVec 32)] = some 0 ∧
    (.bin .add (.var 0) (.const 1) : OwnedExpr).eval incrementFile.env [0xffffffff]
      = .ok 0x100000000 ∧
    ¬ ∀ (file : Accepted) (e : OwnedExpr) (ys : List (BitVec file.problem.bits)),
      Over file.config e → e.Agrees file.env ys
  := by
  have hover : Over incrementFile.config (.bin .add (.var 0) (.const 1) : OwnedExpr) := by
    apply Over.bin
    · rintro i ⟨⟩
    · decide
    · exact .var (by decide)
    · exact .const (by decide)
  use hover, by decide, rfl
  intro h
  obtain ⟨y, -, hyv⟩ := h incrementFile _ [(0xffffffff : BitVec 32)] hover 0x100000000 rfl
  have hlt : y.toNat < 2 ^ 32 := y.isLt
  rw [hyv] at hlt
  revert hlt
  decide

end DryadSynth
