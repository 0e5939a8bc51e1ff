import DryadSynth.Invariant.Region

/-!
# Jumps computed with machine integers

`kExtend` finds out which inequalities an update weakens from a sum it computes in 32 bits.  An
inequality for which the sum overflows to another sign is misjudged: it is tested at the wrong end
of the jump.
-/

namespace Sygus.Invariant

open LIA

variable {n : ℕ}

/-- The `int` a number wraps to. -/
def toInt32 (z : ℤ) : ℤ := z.bmod (2 ^ 32)

namespace Cond

/-- `deltaSum`, as it is added up. -/
def deltaSumInt (c : Cond n) (t : UniTrans n) : ℤ :=
  (List.finRange n).foldl
    (fun deltaSum i => toInt32 (deltaSum + toInt32 (c.coeffTbl i * t.deltaTbl i))) 0

/-- The end of the jump at which the inequality is tested. -/
def testedEnd (c : Cond n) (t : UniTrans n) (k : ℤ) (s : State n) : State n :=
  if 0 < c.deltaSumInt t then t.back k s else s

/-- The other end of the jump. -/
def otherEnd (c : Cond n) (t : UniTrans n) (k : ℤ) (s : State n) : State n :=
  if 0 < c.deltaSumInt t then s else t.back k s

/-- The sum that was computed has another sign than what a step adds to the value. -/
def Misjudged (c : Cond n) (t : UniTrans n) : Prop :=
  ¬(0 < c.deltaSumInt t ↔ 0 < c.deltaSum t)

end Cond

/-- `kExtend`, with the sums of machine integers. -/
def Region.kExtendInt (t : UniTrans n) (r : Region n) : Region n :=
  { r with
    trans := some t
    kExtended := r.conds.map fun c => decide (0 < c.deltaSumInt t) }

section Overflow

variable {vars : Variables n} {M : Model} {k : Expr} {t : UniTrans n} {c : Cond n} {r : Region n}
  {s : State n}

/-- What is added up is what a step adds, up to a multiple of the size of the machine integers. -/
theorem Cond.deltaSumInt_eq (c : Cond n) (t : UniTrans n) :
  c.deltaSumInt t = toInt32 (c.deltaSum t)
  := by
  have hfold : ∀ (l : List (Fin n)) (z : ℤ),
      l.foldl (fun sum i => toInt32 (sum + toInt32 (c.coeffTbl i * t.deltaTbl i))) (toInt32 z)
        = toInt32 (z + (l.map fun i => c.coeffTbl i * t.deltaTbl i).sum) := by
    intro l
    induction l with
    | nil =>
        intro z
        simp
    | cons i l ih =>
        intro z
        have hstep : toInt32 (toInt32 z + toInt32 (c.coeffTbl i * t.deltaTbl i))
            = toInt32 (z + c.coeffTbl i * t.deltaTbl i) := by
          rw [toInt32, toInt32, toInt32, Int.bmod_add_bmod, Int.add_bmod_bmod, toInt32]
        rw [List.foldl_cons, hstep, ih, List.map_cons, List.sum_cons, add_assoc]
  have hzero : toInt32 0 = 0 := by decide
  rw [Cond.deltaSumInt, ← hzero, hfold, zero_add, Cond.deltaSum, ← List.ofFn_eq_map,
    List.sum_ofFn]

/-- A sum that fits is judged right. -/
theorem Cond.not_misjudged (hlower : -2 ^ 31 ≤ c.deltaSum t) (hupper : c.deltaSum t < 2 ^ 31) :
  ¬c.Misjudged t
  := by
  have heq : c.deltaSumInt t = c.deltaSum t := by
    rw [Cond.deltaSumInt_eq, toInt32]
    apply Int.bmod_eq_of_le_mul_two
    · omega
    · omega
  rw [Cond.Misjudged, heq]
  apply not_not.mpr Iff.rfl

/-- An inequality holds on the whole way just if it holds at both ends. -/
theorem Cond.forall_back_iff {m : ℕ} :
  (∀ j ≤ m, 0 ≤ c.value (t.back j s)) ↔ 0 ≤ c.value s ∧ 0 ≤ c.value (t.back m s)
  := by
  have hstart : t.back (0 : ℕ) s = s := by simp [UniTrans.back]
  constructor
  · intro h
    have h0 := h 0 (Nat.zero_le m)
    rw [hstart] at h0
    exact ⟨h0, h m le_rfl⟩
  · rintro ⟨h0, hm⟩ j hj
    have hj' : (j : ℤ) ≤ m := by exact_mod_cast hj
    rw [Cond.value_back] at *
    by_cases hd : 0 < c.deltaSum t
    · nlinarith
    · nlinarith

/-- An inequality that is judged right holds at both ends if it does at the tested one. -/
theorem Cond.nonneg_otherEnd {m : ℕ} (h : ¬c.Misjudged t)
    (htested : 0 ≤ c.value (c.testedEnd t m s)) :
  0 ≤ c.value (c.otherEnd t m s)
  := by
  have hm : (0 : ℤ) ≤ m := Int.natCast_nonneg m
  rw [Cond.Misjudged, not_not] at h
  rw [Cond.testedEnd] at htested
  rw [Cond.otherEnd]
  split at htested
  · rename_i hpos
    rw [if_pos hpos]
    rw [Cond.value_back] at htested
    nlinarith [h.mp hpos]
  · rename_i hneg
    rw [if_neg hneg, Cond.value_back]
    have hd := not_lt.mp (mt h.mpr hneg)
    nlinarith

theorem Cond.ends_iff {m : ℕ} :
  (0 ≤ c.value (c.testedEnd t m s) ∧ 0 ≤ c.value (c.otherEnd t m s))
    ↔ 0 ≤ c.value s ∧ 0 ≤ c.value (t.back m s)
  := by
  rw [Cond.testedEnd, Cond.otherEnd]
  split
  · apply and_comm
  · apply Iff.rfl

/-- What the jump asks for: every inequality at the end at which it is tested. -/
theorem Region.holds_toKExpr_kExtendInt (hk : k.sort = some .int) (hfree : ∀ j, vars.var j ∉ k.vars)
    {m : ℕ} (hm : k.intVal M = m) :
  ∃ e, (r.kExtendInt t).toKExpr vars k = some e
    ∧ (e.Holds M ↔ ∀ c ∈ r.conds, 0 ≤ c.value (c.testedEnd t m (vars.state M)))
  := by
  have heq : (r.kExtendInt t).toKExpr vars k
      = some (.and (r.conds.map fun c =>
        if decide (0 < c.deltaSumInt t) then c.toKExpr vars k t else c.toExpr vars)) := by
    rw [Region.toKExpr, Region.kExtendInt, kClauses_map]
    rfl
  refine ⟨_, heq, ?_⟩
  · rw [holds_and, List.forall_mem_map]
    apply forall₂_congr
    intro c _
    simp only [decide_eq_true_eq]
    rw [Cond.testedEnd]
    split
    · rw [Cond.holds_toKExpr hk hfree, hm]
    · rw [Cond.holds_toExpr]

/-- The way back stays in the region just if every inequality holds at both ends. -/
theorem Region.forall_contains_iff {m : ℕ} :
  (∀ j ≤ m, r.Contains (t.back j s))
    ↔ ∀ c ∈ r.conds, 0 ≤ c.value (c.testedEnd t m s) ∧ 0 ≤ c.value (c.otherEnd t m s)
  := by
  constructor
  · intro h c hc
    exact Cond.ends_iff.mpr (Cond.forall_back_iff.mp fun j hj => h j hj c hc)
  · intro h j hj c hc
    apply Cond.forall_back_iff.mpr (Cond.ends_iff.mp (h c hc)) j hj

/-- The condition of the jump is exact where the sums fit. -/
theorem Region.toKExpr_kExtendInt_of_fits (hk : k.sort = some .int)
    (hfree : ∀ j, vars.var j ∉ k.vars) {m : ℕ} (hm : k.intVal M = m)
    (hfits : ∀ c ∈ r.conds, -2 ^ 31 ≤ c.deltaSum t ∧ c.deltaSum t < 2 ^ 31) :
  ∃ e, (r.kExtendInt t).toKExpr vars k = some e
    ∧ (e.Holds M ↔ ∀ j ≤ m, r.Contains (t.back j (vars.state M)))
  := by
  obtain ⟨e, he, hholds⟩ := Region.holds_toKExpr_kExtendInt (r := r) (t := t) hk hfree hm
  refine ⟨e, he, ?_⟩
  rw [hholds, Region.forall_contains_iff]
  apply forall₂_congr
  intro c hc
  have hjudged := Cond.not_misjudged (hfits c hc).1 (hfits c hc).2
  exact ⟨fun h => ⟨h, Cond.nonneg_otherEnd hjudged h⟩, And.left⟩

/-- The condition of the jump is exact at a state unless, there, every inequality holds at the
end at which it is tested and a misjudged one fails at the other end. -/
theorem Region.toKExpr_kExtendInt_iff (hk : k.sort = some .int) (hfree : ∀ j, vars.var j ∉ k.vars)
    {m : ℕ} (hm : k.intVal M = m) :
  ∃ e, (r.kExtendInt t).toKExpr vars k = some e
    ∧ ((e.Holds M ↔ ∀ j ≤ m, r.Contains (t.back j (vars.state M)))
      ↔ ((∀ c ∈ r.conds, 0 ≤ c.value (c.testedEnd t m (vars.state M))) →
        ∀ c ∈ r.conds, c.Misjudged t → 0 ≤ c.value (c.otherEnd t m (vars.state M))))
  := by
  obtain ⟨e, he, hholds⟩ := Region.holds_toKExpr_kExtendInt (r := r) (t := t) hk hfree hm
  refine ⟨e, he, ?_⟩
  rw [hholds, Region.forall_contains_iff]
  constructor
  · intro h htested c hc _
    apply (h.mp htested c hc).2
  · intro h
    constructor
    · intro htested c hc
      refine ⟨htested c hc, ?_⟩
      by_cases hmis : c.Misjudged t
      · apply h htested c hc hmis
      · apply Cond.nonneg_otherEnd hmis (htested c hc)
    · intro hboth c hc
      apply (hboth c hc).1

/-- The condition of the jump of one inequality is exact everywhere just if it is judged right. -/
theorem Cond.forall_exact_iff (c : Cond n) (t : UniTrans n) :
  (∀ (m : ℕ) (s : State n),
      (0 ≤ c.value (c.testedEnd t m s) ↔ ∀ j ≤ m, 0 ≤ c.value (t.back j s)))
    ↔ ¬c.Misjudged t
  := by
  constructor
  · intro h hmis
    have hzero : c.deltaSum t ≠ 0 := by
      intro hzero
      apply hmis
      rw [Cond.deltaSumInt_eq, hzero]
      decide
    have hval : ∀ k : ℤ, c.value (t.back k 0) = c.value 0 - k * c.deltaSum t :=
      fun k => Cond.value_back c t k 0
    set v := c.value 0
    set d := c.deltaSum t
    by_cases hint : 0 < c.deltaSumInt t
    · -- the value grows on the way back, from below zero
      have hd : d < 0 := by
        have hle : ¬0 < d := fun hd => hmis (iff_of_true hint hd)
        omega
      have hstart := hval (-(|v| + 1))
      set s := t.back (-(|v| + 1)) 0
      have hneg : c.value s < 0 := by nlinarith [le_abs_self v, abs_nonneg v]
      have hend : 0 ≤ c.value (c.testedEnd t (-c.value s).toNat s) := by
        rw [Cond.testedEnd, if_pos hint, Cond.value_back, Int.toNat_of_nonneg (by omega)]
        nlinarith
      have hall := (Cond.forall_back_iff.mp ((h _ s).mp hend)).1
      omega
    · -- the value falls on the way back, from zero or above
      have hd : 0 < d := by
        have hle : ¬d ≤ 0 := fun hd => hmis (iff_of_false hint (not_lt.mpr hd))
        omega
      have hstart := hval (-|v|)
      set s := t.back (-|v|) 0
      have hpos : 0 ≤ c.value s := by nlinarith [neg_abs_le v, abs_nonneg v]
      have htested : 0 ≤ c.value (c.testedEnd t (c.value s + 1).toNat s) := by
        rw [Cond.testedEnd, if_neg hint]
        apply hpos
      have hall := (Cond.forall_back_iff.mp ((h _ s).mp htested)).2
      rw [Cond.value_back, Int.toNat_of_nonneg (by omega)] at hall
      nlinarith
  · intro h m s
    rw [Cond.forall_back_iff, ← Cond.ends_iff]
    exact ⟨fun htested => ⟨htested, Cond.nonneg_otherEnd h htested⟩, fun hboth => hboth.1⟩

end Overflow

/-! ### A product that wraps to zero -/

/-- One integer variable. -/
def oneVariable : Variables 1 where
  var _ := ⟨"i", .int⟩
  injective := Function.injective_of_subsingleton _
  sort_var _ := rfl

/-- The update by `2 ^ 16`. -/
def largeStep : UniTrans 1 := ⟨fun _ => 65536⟩

/-- The region where `2 ^ 16 * x` is not negative. -/
def largeRegion : Region 1 := ⟨[⟨fun _ => 65536, 0⟩], [], none⟩

/-- The model in which all variables are zero. -/
def zeroModel : Model := ⟨fun _ => .int 0, fun _ _ => .int 0⟩

theorem Region.toKExpr_kExtendInt_iff_large :
  ∃ e, (largeRegion.kExtendInt largeStep).toKExpr oneVariable (.num 1) = some e
    ∧ ((e.Holds zeroModel
        ↔ ∀ j ≤ (1 : ℕ), largeRegion.Contains (largeStep.back j (oneVariable.state zeroModel)))
      ↔ ((∀ c ∈ largeRegion.conds,
          0 ≤ c.value (c.testedEnd largeStep (1 : ℕ) (oneVariable.state zeroModel))) →
        ∀ c ∈ largeRegion.conds, c.Misjudged largeStep →
          0 ≤ c.value (c.otherEnd largeStep (1 : ℕ) (oneVariable.state zeroModel))))
  := Region.toKExpr_kExtendInt_iff rfl (fun _ => List.not_mem_nil) rfl

/-- The jump by one step to zero is allowed, from a state outside of the region. -/
theorem not_exact_largeRegion :
  ∃ e, (largeRegion.kExtendInt largeStep).toKExpr oneVariable (.num 1) = some e
    ∧ e.Holds zeroModel
    ∧ ¬∀ j ≤ (1 : ℕ), largeRegion.Contains (largeStep.back j (oneVariable.state zeroModel))
  := by
  have hfree : ∀ j, oneVariable.var j ∉ (Expr.num 1).vars := fun _ => List.not_mem_nil
  obtain ⟨e, he, hholds⟩ :=
    Region.holds_toKExpr_kExtendInt (M := zeroModel) (r := largeRegion) (t := largeStep)
      (k := .num 1) (m := 1) rfl hfree rfl
  refine ⟨e, he, hholds.mpr ?_, ?_⟩
  · decide
  · intro h
    have hstep := h 1 le_rfl _ List.mem_cons_self
    revert hstep
    decide

end Sygus.Invariant
