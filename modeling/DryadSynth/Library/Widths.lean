import Mathlib

/-!
# One operation at two widths

Bit-vectors of a smaller width `u` and of a larger width `v` that denote the same numbers.  The
operations of both widths are applied to them, and each lemma says for which numbers the results
denote the same number again.  The larger width sees no sign: below `2 ^ u` no number is negative
there.
-/

namespace Widths

/-! ### Signed division of numbers

The operands are written as numbers below `2 * h`, those from `h` on being negative. -/

section Signed

variable {h a b : ℕ}

theorem neg_quotient_eq_iff (ha : a < h) (hb : h ≤ b) (hbM : b < 2 * h) :
  (2 * h - a / (2 * h - b)) % (2 * h) = a / b ↔ a + b < 2 * h
  := by
  rw [Nat.div_eq_of_lt (show a < b by omega)]
  constructor
  · intro hzero
    by_contra hge
    have hpos : 0 < a / (2 * h - b) := Nat.div_pos (by omega) (by omega)
    have hle : a / (2 * h - b) ≤ a := Nat.div_le_self _ _
    rw [Nat.mod_eq_of_lt (by omega)] at hzero
    omega
  · intro hlt
    rw [Nat.div_eq_of_lt (show a < 2 * h - b by omega), Nat.sub_zero, Nat.mod_self]

theorem neg_dividend_eq_iff (ha : h ≤ a) (haM : a < 2 * h) (hb₀ : 0 < b) (hb : b < h) :
  (2 * h - (2 * h - a) / b) % (2 * h) = a / b ↔ b = 1
  := by
  constructor
  · intro heq
    by_contra hne
    have hquot : a / b ≤ a / 2 := Nat.div_le_div_left (by omega) (by omega)
    have hneg : (2 * h - a) / b ≤ (2 * h - a) / 2 := Nat.div_le_div_left (by omega) (by omega)
    have hpos : 0 < a / b := Nat.div_pos (by omega) hb₀
    rcases Nat.eq_zero_or_pos ((2 * h - a) / b) with hz | hz
    · rw [hz, Nat.sub_zero, Nat.mod_self] at heq
      omega
    · rw [Nat.mod_eq_of_lt (by omega)] at heq
      omega
  · rintro rfl
    rw [Nat.div_one, Nat.div_one, Nat.mod_eq_of_lt (by omega)]
    omega

theorem neg_both_eq_iff (ha : h ≤ a) (haM : a < 2 * h) (hb : h ≤ b) (hbM : b < 2 * h) :
  (2 * h - a) / (2 * h - b) = a / b ↔ a = b
  := by
  constructor
  · intro heq
    rcases lt_trichotomy a b with hab | hab | hab
    · have hpos : 0 < (2 * h - a) / (2 * h - b) := Nat.div_pos (by omega) (by omega)
      rw [Nat.div_eq_of_lt hab] at heq
      omega
    · apply hab
    · have hpos : 0 < a / b := Nat.div_pos (by omega) (by omega)
      rw [Nat.div_eq_of_lt (show 2 * h - a < 2 * h - b by omega)] at heq
      omega
  · rintro rfl
    rw [Nat.div_self (by omega), Nat.div_self (by omega)]

theorem rem_neg_divisor_eq_iff (ha : a < h) (hb : h ≤ b) (hbM : b < 2 * h) :
  a % (2 * h - b) = a % b ↔ a + b < 2 * h
  := by
  rw [Nat.mod_eq_of_lt (show a < b by omega), Nat.mod_eq_iff_lt (by omega)]
  omega

theorem rem_neg_dividend_eq_iff (haM : a < 2 * h) (hb₀ : 0 < b) (hb : b < h) :
  (2 * h - (2 * h - a) % b) % (2 * h) = a % b ↔ b ∣ a ∧ b ∣ 2 * h
  := by
  have hlt : a % b < b := Nat.mod_lt a hb₀
  have hlt' : (2 * h - a) % b < b := Nat.mod_lt _ hb₀
  constructor
  · intro heq
    rcases Nat.eq_zero_or_pos ((2 * h - a) % b) with hz | hz
    · rw [hz, Nat.sub_zero, Nat.mod_self] at heq
      have hba : b ∣ a := Nat.dvd_of_mod_eq_zero heq.symm
      use hba
      have hsum : b ∣ a + (2 * h - a) := (Nat.dvd_add_right hba).mpr (Nat.dvd_of_mod_eq_zero hz)
      rwa [Nat.add_sub_cancel' haM.le] at hsum
    · rw [Nat.mod_eq_of_lt (by omega)] at heq
      omega
  · rintro ⟨hba, hbM⟩
    rw [Nat.mod_eq_zero_of_dvd hba, Nat.mod_eq_zero_of_dvd (Nat.dvd_sub hbM hba), Nat.sub_zero,
      Nat.mod_self]

theorem rem_neg_both_eq_iff (ha : h ≤ a) (haM : a < 2 * h) (hb : h ≤ b) (hbM : b < 2 * h) :
  (2 * h - (2 * h - a) % (2 * h - b)) % (2 * h) = a % b ↔ a = b
  := by
  constructor
  · intro heq
    rcases lt_trichotomy a b with hab | hab | hab
    · have hlt : (2 * h - a) % (2 * h - b) < 2 * h - b := Nat.mod_lt _ (by omega)
      rw [Nat.mod_eq_of_lt hab] at heq
      rcases Nat.eq_zero_or_pos ((2 * h - a) % (2 * h - b)) with hz | hz
      · rw [hz, Nat.sub_zero, Nat.mod_self] at heq
        omega
      · rw [Nat.mod_eq_of_lt (show 2 * h - (2 * h - a) % (2 * h - b) < 2 * h by omega)] at heq
        omega
    · apply hab
    · rw [Nat.mod_eq_of_lt (show 2 * h - a < 2 * h - b by omega),
        Nat.mod_eq_of_lt (show 2 * h - (2 * h - a) < 2 * h by omega)] at heq
      have hlt : a % b < b := Nat.mod_lt _ (by omega)
      omega
  · rintro rfl
    rw [Nat.mod_self, Nat.mod_self, Nat.sub_zero, Nat.mod_self]

end Signed

/-! ### The operations -/

section Operations

variable {u v : ℕ} {x y : BitVec u} {x' y' : BitVec v}

theorem two_mul_pow_le (huv : u < v) :
  2 * 2 ^ u ≤ 2 ^ v
  := by
  rw [← pow_succ']
  apply Nat.pow_le_pow_right (by norm_num) huv

/-- A number that the smaller width denotes is not negative at the larger one. -/
theorem msb_eq_false (huv : u < v) (hx : x'.toNat = x.toNat) :
  x'.msb = false
  := by
  rw [BitVec.msb_eq_decide, hx]
  apply decide_eq_false
  have hle : 2 ^ u ≤ 2 ^ (v - 1) := Nat.pow_le_pow_right (by norm_num) (by omega)
  have hlt := x.isLt
  omega

theorem toNat_not_ne (huv : u < v) (hx : x'.toNat = x.toNat) :
  (~~~x').toNat ≠ (~~~x).toNat
  := by
  rw [BitVec.toNat_not, BitVec.toNat_not, hx]
  have hM := two_mul_pow_le huv
  have hlt := x.isLt
  omega

theorem toNat_neg_iff (huv : u < v) (hx : x'.toNat = x.toNat) :
  (-x').toNat = (-x).toNat ↔ x.toNat = 0
  := by
  rw [BitVec.toNat_neg, BitVec.toNat_neg, hx]
  have hM := two_mul_pow_le huv
  have hlt := x.isLt
  constructor
  · intro heq
    by_contra hne
    rw [Nat.mod_eq_of_lt (by omega), Nat.mod_eq_of_lt (by omega)] at heq
    omega
  · intro hz
    rw [hz, Nat.sub_zero, Nat.sub_zero, Nat.mod_self, Nat.mod_self]

theorem toNat_add_iff (huv : u < v) (hx : x'.toNat = x.toNat) (hy : y'.toNat = y.toNat) :
  (x' + y').toNat = (x + y).toNat ↔ x.toNat + y.toNat < 2 ^ u
  := by
  rw [BitVec.toNat_add, BitVec.toNat_add, hx, hy]
  have hM := two_mul_pow_le huv
  have hxlt := x.isLt
  have hylt := y.isLt
  rw [Nat.mod_eq_of_lt (show x.toNat + y.toNat < 2 ^ v by omega), eq_comm,
    Nat.mod_eq_iff_lt (by omega)]

theorem toNat_sub_iff (huv : u < v) (hx : x'.toNat = x.toNat) (hy : y'.toNat = y.toNat) :
  (x' - y').toNat = (x - y).toNat ↔ y.toNat ≤ x.toNat
  := by
  rw [BitVec.toNat_sub, BitVec.toNat_sub, hx, hy]
  have hM := two_mul_pow_le huv
  have hxlt := x.isLt
  have hylt := y.isLt
  constructor
  · intro heq
    by_contra hlt
    rw [Nat.mod_eq_of_lt (by omega), Nat.mod_eq_of_lt (by omega)] at heq
    omega
  · intro hle
    have hsub : ∀ m, y.toNat < m → m - y.toNat + x.toNat = (x.toNat - y.toNat) + m := by
      intro m hm
      omega
    rw [hsub _ (by omega), hsub _ hylt, Nat.add_mod_right, Nat.add_mod_right,
      Nat.mod_eq_of_lt (by omega), Nat.mod_eq_of_lt (by omega)]

/-- A number modulo the powers of two agrees when the larger remainder is small. -/
theorem mod_eq_mod_iff (huv : u < v) (m : ℕ) :
  m % 2 ^ v = m % 2 ^ u ↔ m % 2 ^ v < 2 ^ u
  := by
  have hpos : 0 < 2 ^ u := Nat.two_pow_pos u
  constructor
  · intro heq
    rw [heq]
    apply Nat.mod_lt _ hpos
  · intro hlt
    rw [← Nat.mod_mod_of_dvd m (pow_dvd_pow 2 huv.le), Nat.mod_eq_of_lt hlt]

theorem toNat_mul_iff (huv : u < v) (hx : x'.toNat = x.toNat) (hy : y'.toNat = y.toNat) :
  (x' * y').toNat = (x * y).toNat ↔ x.toNat * y.toNat % 2 ^ v < 2 ^ u
  := by
  rw [BitVec.toNat_mul, BitVec.toNat_mul, hx, hy]
  apply mod_eq_mod_iff huv _

theorem toNat_shiftLeft_iff (huv : u < v) (hx : x'.toNat = x.toNat) (n : ℕ) :
  (x' <<< n).toNat = (x <<< n).toNat ↔ x.toNat * 2 ^ n % 2 ^ v < 2 ^ u
  := by
  rw [BitVec.toNat_shiftLeft, BitVec.toNat_shiftLeft, hx, Nat.shiftLeft_eq]
  apply mod_eq_mod_iff huv _

theorem toNat_ushiftRight_eq (hx : x'.toNat = x.toNat) (n : ℕ) :
  (x' >>> n).toNat = (x >>> n).toNat
  := by rw [BitVec.toNat_ushiftRight, BitVec.toNat_ushiftRight, hx]

theorem toNat_sshiftRight_iff (huv : u < v) (hx : x'.toNat = x.toNat) (n : ℕ) :
  (x'.sshiftRight n).toNat = (x.sshiftRight n).toNat ↔ x.toNat < 2 ^ (u - 1) ∨ n = 0
  := by
  rw [BitVec.toNat_sshiftRight_of_msb_false (msb_eq_false huv hx), hx]
  cases hmsb : x.msb with
  | false =>
      rw [BitVec.toNat_sshiftRight_of_msb_false hmsb]
      rw [BitVec.msb_eq_decide, decide_eq_false_iff_not] at hmsb
      apply iff_of_true rfl (.inl (by omega))
  | true =>
      rw [BitVec.toNat_sshiftRight_of_msb_true hmsb]
      rw [BitVec.msb_eq_decide, decide_eq_true_eq] at hmsb
      have hlt := x.isLt
      have hu : 2 ^ u ≤ 2 * 2 ^ (u - 1) := by
        rw [← pow_succ']
        apply Nat.pow_le_pow_right (by norm_num) (by omega)
      constructor
      · intro heq
        right
        by_contra hn
        have hhalf : ∀ m, m >>> n ≤ m / 2 := by
          intro m
          rw [Nat.shiftRight_eq_div_pow]
          apply Nat.div_le_div_left
          · apply Nat.le_self_pow hn 2
          · norm_num
        have h₁ := hhalf x.toNat
        have h₂ := hhalf (2 ^ u - 1 - x.toNat)
        omega
      · rintro (hsmall | rfl)
        · omega
        · rw [Nat.shiftRight_zero, Nat.shiftRight_zero]
          omega

theorem toNat_udiv_eq (hx : x'.toNat = x.toNat) (hy : y'.toNat = y.toNat) :
  (x' / y').toNat = (x / y).toNat
  := by rw [BitVec.toNat_udiv, BitVec.toNat_udiv, hx, hy]

theorem toNat_umod_eq (hx : x'.toNat = x.toNat) (hy : y'.toNat = y.toNat) :
  (x' % y').toNat = (x % y).toNat
  := by rw [BitVec.toNat_umod, BitVec.toNat_umod, hx, hy]

/-- When signed division of `a` by `b` gives at width `u` the quotient of the numbers. -/
def QuotientFits (u a b : ℕ) : Prop :=
  (a < 2 ^ (u - 1) ∧ b < 2 ^ (u - 1)) ∨ b = 1 ∨ (a < 2 ^ (u - 1) ∧ a + b < 2 ^ u) ∨ a = b

/-- When the signed remainder of `a` by `b` is at width `u` the remainder of the numbers. -/
def RemainderFits (u a b : ℕ) : Prop :=
  (a < 2 ^ (u - 1) ∧ b < 2 ^ (u - 1)) ∨ (2 ^ (u - 1) ≤ a ∧ b < 2 ^ (u - 1) ∧ b ∣ a ∧ b ∣ 2 ^ u) ∨
    (a < 2 ^ (u - 1) ∧ 2 ^ (u - 1) ≤ b ∧ a + b < 2 ^ u) ∨ a = b

theorem toNat_neg_of_ne_zero (hy : y.toNat ≠ 0) :
  (-y).toNat = 2 ^ u - y.toNat
  := by
  rw [BitVec.toNat_neg]
  apply Nat.mod_eq_of_lt
  have hlt := y.isLt
  omega

theorem toNat_sdiv_iff (huv : u < v) (hx : x'.toNat = x.toNat) (hy : y'.toNat = y.toNat)
    (hy₀ : y.toNat ≠ 0) :
  (x'.sdiv y').toNat = (x.sdiv y).toNat ↔ QuotientFits u x.toNat y.toNat
  := by
  have hlarge : (x'.sdiv y').toNat = x.toNat / y.toNat := by
    rw [BitVec.sdiv_eq, msb_eq_false huv hx, msb_eq_false huv hy, BitVec.udiv_eq,
      BitVec.toNat_udiv, hx, hy]
  have hxlt := x.isLt
  have hylt := y.isLt
  have hu : 2 ^ u = 2 * 2 ^ (u - 1) := by
    rcases Nat.eq_zero_or_pos u with rfl | hpos
    · rw [pow_zero] at hylt
      omega
    · rw [← pow_succ', Nat.sub_add_cancel hpos]
  rw [hlarge, eq_comm, BitVec.sdiv_eq, QuotientFits]
  simp only [BitVec.udiv_eq]
  rw [hu] at hxlt hylt
  cases hxm : x.msb with
  | false =>
      rw [BitVec.msb_eq_decide, decide_eq_false_iff_not, not_le] at hxm
      cases hym : y.msb with
      | false =>
          rw [BitVec.msb_eq_decide, decide_eq_false_iff_not, not_le] at hym
          rw [BitVec.toNat_udiv]
          apply iff_of_true rfl (.inl ⟨hxm, hym⟩)
      | true =>
          rw [BitVec.msb_eq_decide, decide_eq_true_eq] at hym
          rw [BitVec.toNat_neg, BitVec.toNat_udiv, toNat_neg_of_ne_zero hy₀, hu,
            neg_quotient_eq_iff hxm hym hylt]
          omega
  | true =>
      rw [BitVec.msb_eq_decide, decide_eq_true_eq] at hxm
      have hx₀ : x.toNat ≠ 0 := by
        have hpos := Nat.two_pow_pos (u - 1)
        omega
      cases hym : y.msb with
      | false =>
          rw [BitVec.msb_eq_decide, decide_eq_false_iff_not, not_le] at hym
          rw [BitVec.toNat_neg, BitVec.toNat_udiv, toNat_neg_of_ne_zero hx₀, hu,
            neg_dividend_eq_iff hxm hxlt (by omega) hym]
          omega
      | true =>
          rw [BitVec.msb_eq_decide, decide_eq_true_eq] at hym
          rw [BitVec.toNat_udiv, toNat_neg_of_ne_zero hx₀,
            toNat_neg_of_ne_zero hy₀, hu, neg_both_eq_iff hxm hxlt hym hylt]
          omega

theorem toNat_srem_iff (huv : u < v) (hx : x'.toNat = x.toNat) (hy : y'.toNat = y.toNat)
    (hy₀ : y.toNat ≠ 0) :
  (x'.srem y').toNat = (x.srem y).toNat ↔ RemainderFits u x.toNat y.toNat
  := by
  have hlarge : (x'.srem y').toNat = x.toNat % y.toNat := by
    rw [BitVec.srem_eq, msb_eq_false huv hx, msb_eq_false huv hy, BitVec.toNat_umod, hx, hy]
  have hxlt := x.isLt
  have hylt := y.isLt
  have hu : 2 ^ u = 2 * 2 ^ (u - 1) := by
    rcases Nat.eq_zero_or_pos u with rfl | hpos
    · rw [pow_zero] at hylt
      omega
    · rw [← pow_succ', Nat.sub_add_cancel hpos]
  rw [hlarge, eq_comm, BitVec.srem_eq, RemainderFits]
  rw [hu] at hxlt hylt ⊢
  cases hxm : x.msb with
  | false =>
      rw [BitVec.msb_eq_decide, decide_eq_false_iff_not, not_le] at hxm
      cases hym : y.msb with
      | false =>
          rw [BitVec.msb_eq_decide, decide_eq_false_iff_not, not_le] at hym
          rw [BitVec.toNat_umod]
          apply iff_of_true rfl (.inl ⟨hxm, hym⟩)
      | true =>
          rw [BitVec.msb_eq_decide, decide_eq_true_eq] at hym
          rw [BitVec.toNat_umod, toNat_neg_of_ne_zero hy₀, hu,
            rem_neg_divisor_eq_iff hxm hym hylt]
          omega
  | true =>
      rw [BitVec.msb_eq_decide, decide_eq_true_eq] at hxm
      have hx₀ : x.toNat ≠ 0 := by
        have hpos := Nat.two_pow_pos (u - 1)
        omega
      cases hym : y.msb with
      | false =>
          rw [BitVec.msb_eq_decide, decide_eq_false_iff_not, not_le] at hym
          rw [BitVec.toNat_neg, BitVec.toNat_umod, toNat_neg_of_ne_zero hx₀, hu,
            rem_neg_dividend_eq_iff hxlt (by omega) hym]
          constructor
          · intro hdvd
            exact .inr (.inl ⟨hxm, hym, hdvd⟩)
          · rintro (⟨hlt, _⟩ | ⟨_, _, hdvd⟩ | ⟨hlt, _⟩ | heq)
            · omega
            · apply hdvd
            · omega
            · omega
      | true =>
          rw [BitVec.msb_eq_decide, decide_eq_true_eq] at hym
          rw [BitVec.toNat_neg, BitVec.toNat_umod, toNat_neg_of_ne_zero hx₀,
            toNat_neg_of_ne_zero hy₀, hu, rem_neg_both_eq_iff hxm hxlt hym hylt]
          omega

end Operations

/-! ### Two different widths

The same, whichever of the two widths is the smaller one. -/

section Different

variable {u v : ℕ} {x y : BitVec u} {x' y' : BitVec v}

theorem toNat_not_ne_of_ne (huv : u ≠ v) (hx : x'.toNat = x.toNat) :
  (~~~x').toNat ≠ (~~~x).toNat
  := by
  rcases lt_or_gt_of_ne huv with h | h
  · apply toNat_not_ne h hx
  · apply (toNat_not_ne h hx.symm).symm

theorem toNat_neg_iff_of_ne (huv : u ≠ v) (hx : x'.toNat = x.toNat) :
  (-x').toNat = (-x).toNat ↔ x.toNat = 0
  := by
  rcases lt_or_gt_of_ne huv with h | h
  · apply toNat_neg_iff h hx
  · rw [eq_comm, ← hx]
    apply toNat_neg_iff h hx.symm

theorem toNat_add_iff_of_ne (huv : u ≠ v) (hx : x'.toNat = x.toNat) (hy : y'.toNat = y.toNat) :
  (x' + y').toNat = (x + y).toNat ↔ x.toNat + y.toNat < 2 ^ min u v
  := by
  rcases lt_or_gt_of_ne huv with h | h
  · rw [min_eq_left h.le]
    apply toNat_add_iff h hx hy
  · rw [min_eq_right h.le, eq_comm, ← hx, ← hy]
    apply toNat_add_iff h hx.symm hy.symm

theorem toNat_sub_iff_of_ne (huv : u ≠ v) (hx : x'.toNat = x.toNat) (hy : y'.toNat = y.toNat) :
  (x' - y').toNat = (x - y).toNat ↔ y.toNat ≤ x.toNat
  := by
  rcases lt_or_gt_of_ne huv with h | h
  · apply toNat_sub_iff h hx hy
  · rw [eq_comm, ← hx, ← hy]
    apply toNat_sub_iff h hx.symm hy.symm

theorem toNat_mul_iff_of_ne (huv : u ≠ v) (hx : x'.toNat = x.toNat) (hy : y'.toNat = y.toNat) :
  (x' * y').toNat = (x * y).toNat ↔ x.toNat * y.toNat % 2 ^ max u v < 2 ^ min u v
  := by
  rcases lt_or_gt_of_ne huv with h | h
  · rw [min_eq_left h.le, max_eq_right h.le]
    apply toNat_mul_iff h hx hy
  · rw [min_eq_right h.le, max_eq_left h.le, eq_comm, ← hx, ← hy]
    apply toNat_mul_iff h hx.symm hy.symm

theorem toNat_shiftLeft_iff_of_ne (huv : u ≠ v) (hx : x'.toNat = x.toNat) (n : ℕ) :
  (x' <<< n).toNat = (x <<< n).toNat ↔ x.toNat * 2 ^ n % 2 ^ max u v < 2 ^ min u v
  := by
  rcases lt_or_gt_of_ne huv with h | h
  · rw [min_eq_left h.le, max_eq_right h.le]
    apply toNat_shiftLeft_iff h hx n
  · rw [min_eq_right h.le, max_eq_left h.le, eq_comm, ← hx]
    apply toNat_shiftLeft_iff h hx.symm n

theorem toNat_sshiftRight_iff_of_ne (huv : u ≠ v) (hx : x'.toNat = x.toNat) (n : ℕ) :
  (x'.sshiftRight n).toNat = (x.sshiftRight n).toNat ↔ x.toNat < 2 ^ (min u v - 1) ∨ n = 0
  := by
  rcases lt_or_gt_of_ne huv with h | h
  · rw [min_eq_left h.le]
    apply toNat_sshiftRight_iff h hx n
  · rw [min_eq_right h.le, eq_comm, ← hx]
    apply toNat_sshiftRight_iff h hx.symm n

theorem toNat_sdiv_iff_of_ne (huv : u ≠ v) (hx : x'.toNat = x.toNat) (hy : y'.toNat = y.toNat)
    (hy₀ : y.toNat ≠ 0) :
  (x'.sdiv y').toNat = (x.sdiv y).toNat ↔ QuotientFits (min u v) x.toNat y.toNat
  := by
  rcases lt_or_gt_of_ne huv with h | h
  · rw [min_eq_left h.le]
    apply toNat_sdiv_iff h hx hy hy₀
  · rw [min_eq_right h.le, eq_comm, ← hx, ← hy]
    exact toNat_sdiv_iff h hx.symm hy.symm (hy ▸ hy₀)

theorem toNat_srem_iff_of_ne (huv : u ≠ v) (hx : x'.toNat = x.toNat) (hy : y'.toNat = y.toNat)
    (hy₀ : y.toNat ≠ 0) :
  (x'.srem y').toNat = (x.srem y).toNat ↔ RemainderFits (min u v) x.toNat y.toNat
  := by
  rcases lt_or_gt_of_ne huv with h | h
  · rw [min_eq_left h.le]
    apply toNat_srem_iff h hx hy hy₀
  · rw [min_eq_right h.le, eq_comm, ← hx, ← hy]
    exact toNat_srem_iff h hx.symm hy.symm (hy ▸ hy₀)

end Different

end Widths
