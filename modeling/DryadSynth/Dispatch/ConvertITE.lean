import DryadSynth.Dispatch.Printable
import DryadSynth.Invariant.NormalForm
import DryadSynth.Library.LIA.Quantified

/-!
# Conditionals without connectives in their conditions

`convertToITE` replaces a conditional whose condition is a conjunction or a disjunction by nested
conditionals, and `postFormatting` repeats it as long as something was replaced.  Every round makes
the conditions less deep, so that the loop ends, and then no condition has a connective.
-/

namespace Sygus.Format

open LIA Invariant Lists

/-! ### The conversion -/

/-- The order in which the parts of a condition are tested. -/
def getVal : Expr → ℤ
  | .app .ge _ | .app .lt _ | .app .le _ | .app .gt _ => 1
  | .app .not _ => 2
  | .app .eq _ => 4
  | .app .and l | .app .or l => 2 + l.length
  | _ => -1

/-- `Arrays.sort` with `Mycomp`, which is stable: larger values come first. -/
def sortArgs (l : List Expr) : List Expr :=
  l.insertionSort fun e₁ e₂ => getVal e₂ ≤ getVal e₁

/-- Drop the branches that cannot be reached.  The assertions of the solver are the conditions on
the way. -/
def minimizeITE (check : List Expr → Status) (s : List Expr) : Expr → Expr
  | .ite cond e₁ e₂ =>
      if check (cond :: s) = .UNSATISFIABLE then minimizeITE check (.not cond :: s) e₂
      else if check (.not cond :: s) = .UNSATISFIABLE then minimizeITE check (cond :: s) e₁
      else .ite cond (minimizeITE check (cond :: s) e₁) (minimizeITE check (.not cond :: s) e₂)
  | e => e

/-- The nested conditionals for a conjunction of conditions, the first one innermost. -/
def andITE (e₁ e₂ : Expr) (d : Expr) (ds : List Expr) : Expr :=
  ds.foldl (fun ite d => .ite d ite e₂) (.ite d e₁ e₂)

/-- The nested conditionals for a disjunction of conditions, the first one innermost. -/
def orITE (e₁ e₂ : Expr) (d : Expr) (ds : List Expr) : Expr :=
  ds.foldl (fun ite d => .ite d e₁ ite) (.ite d e₁ e₂)

/-- The conditional with a converted condition and branches, and whether it was replaced. -/
def splitCondition (check : List Expr → Status) (cond e₁ e₂ : Expr) : Option (Expr × Bool) :=
  match cond with
  | .and innerArgs =>
      match sortArgs innerArgs with
      | [] => none
      | d :: ds => some (minimizeITE check [] (andITE e₁ e₂ d ds), true)
  | .or innerArgs =>
      match sortArgs innerArgs with
      | [] => none
      | d :: ds => some (minimizeITE check [] (orITE e₁ e₂ d ds), true)
  | cond => some (.ite cond e₁ e₂, false)

/-- The negation of a comparison; other formulas have none. -/
def negateComparison : Expr → Option Expr
  | .ge a b => some (.lt a b)
  | .le a b => some (.gt a b)
  | .gt a b => some (.le a b)
  | .lt a b => some (.ge a b)
  | _ => none

mutual

/-- `convertToITE`, and whether it sets the flag `iteConverted`.  A result `null` is used by its
caller and is an exception there. -/
def convertToITE (check : List Expr → Status) : Expr → Option (Expr × Bool)
  | .num n => some (.num n, false)
  | .var x => some (.var x, false)
  | .not inner => (negateComparison inner).map fun e => (e, false)
  | .ite cond e₁ e₂ => do
      let (cond, flag₀) ← convertToITE check cond
      let (e₁, flag₁) ← convertToITE check e₁
      let (e₂, flag₂) ← convertToITE check e₂
      let (e, flag) ← splitCondition check cond e₁ e₂
      some (e, flag₀ || flag₁ || flag₂ || flag)
  | .and l => do
      let (l, flag) ← convertAll check l
      some (.and l, flag)
  | .or l => do
      let (l, flag) ← convertAll check l
      some (.or l, flag)
  | .mul l => some (.mul l, false)
  | .add l => some (.add l, false)
  -- the unary minus is no subtraction
  | .sub [_] => none
  | .sub l => some (.sub l, false)
  | .ge a b => some (.ge a b, false)
  | .le a b => some (.le a b, false)
  | .gt a b => some (.gt a b, false)
  | .lt a b => some (.lt a b, false)
  | .eq a b =>
      -- the arguments are cast to arithmetic expressions
      if a.sort = some .int ∧ b.sort = some .int then some (.and [.ge a b, .le a b], false)
      else none
  | e => if isConst e then some (e, false) else none

def convertAll (check : List Expr → Status) : List Expr → Option (List Expr × Bool)
  | [] => some ([], false)
  | e :: l => do
      let (e, flag) ← convertToITE check e
      let (l, flag') ← convertAll check l
      some (e :: l, flag || flag')

end

/-- `while (iteConverted)`, for at most the given number of rounds: the result and the flag. -/
def convertLoop (check : List Expr → Status) : ℕ → Bool → Expr → Option (Expr × Bool)
  | _, false, e => some (e, false)
  | 0, true, _ => none
  | fuel + 1, true, e => do
      let (e, iteConverted) ← convertToITE check e
      convertLoop check fuel iteConverted e

/-! ### Convertible expressions -/

/-- Where an expression stands: in the body of a definition outside of all conditions, in a
condition, or in a branch of a conditional in a condition. -/
inductive Level where
  | simple
  | condition
  | body
  deriving DecidableEq

/-- The level of the branches of a conditional. -/
def Level.branch : Level → Level
  | .body => .body
  | _ => .simple

/-- The comparisons. -/
def comparisons : List Op := [.ge, .gt, .le, .lt]

/-- An operand that is printed as it is. -/
structure Term (converted : ConvertMethod) (e : Expr) : Prop where
  unconnected : Unconnected e
  printable : Printable converted e

/-- The operators that start an arithmetic expression. -/
def isArith : Expr → Bool
  | .num _ | .app .mul _ | .app .add _ | .app .sub _ => true
  | _ => false

/-- The expressions that the conversion handles, `neg` saying whether they are negated.  Only
comparisons, conjunctions and disjunctions can be negated. -/
inductive Shape (converted : ConvertMethod) : Level → Bool → Expr → Prop where
  | not {k neg a} (h : Shape converted k (!neg) a) : Shape converted k neg (.not a)
  | and {k neg l} (hk : k ≠ .simple) (hl : l ≠ []) (h : ∀ e ∈ l, Shape converted k neg e) :
      Shape converted k neg (.and l)
  | or {k neg l} (hk : k ≠ .simple) (hl : l ≠ []) (h : ∀ e ∈ l, Shape converted k neg e) :
      Shape converted k neg (.or l)
  | ite {k c a b} (hc : Shape converted .condition false c) (ha : Shape converted k.branch false a)
      (hb : Shape converted k.branch false b) : Shape converted k false (.ite c a b)
  | compare {k neg o a b} (ho : o ∈ comparisons) (ha : Term converted a) (hb : Term converted b) :
      Shape converted k neg (.app o [a, b])
  | eq {k a b} (hk : k ≠ .simple) (ha : Term converted a) (hb : Term converted b)
      (hs : a.sort = some .int) (hs' : b.sort = some .int) : Shape converted k false (.eq a b)
  | const {k e} (he : isConst e = true) : Shape converted k false e
  | arith {e} (he : isArith e = true) (h : Term converted e) : Shape converted .body false e

/-- The expressions between two rounds; those with negations and equalities, which `nots` admits,
only before the first one. -/
inductive Ready (converted : ConvertMethod) (nots : Bool) : Level → Expr → Prop where
  | not {k o a b} (hnots : nots = true) (ho : o ∈ comparisons) (ha : Term converted a)
      (hb : Term converted b) : Ready converted nots k (.not (.app o [a, b]))
  | and {k l} (hk : k ≠ .simple) (hl : l ≠ []) (h : ∀ e ∈ l, Ready converted nots k e) :
      Ready converted nots k (.and l)
  | or {k l} (hk : k ≠ .simple) (hl : l ≠ []) (h : ∀ e ∈ l, Ready converted nots k e) :
      Ready converted nots k (.or l)
  | ite {k c a b} (hc : Ready converted nots .condition c) (ha : Ready converted nots k.branch a)
      (hb : Ready converted nots k.branch b) : Ready converted nots k (.ite c a b)
  | compare {k o a b} (ho : o ∈ comparisons) (ha : Term converted a) (hb : Term converted b) :
      Ready converted nots k (.app o [a, b])
  | eq {k a b} (hnots : nots = true) (hk : k ≠ .simple) (ha : Term converted a)
      (hb : Term converted b) (hs : a.sort = some .int) (hs' : b.sort = some .int) :
      Ready converted nots k (.eq a b)
  | const {k e} (he : isConst e = true) : Ready converted nots k e
  | arith {e} (he : isArith e = true) (h : Term converted e) : Ready converted nots .body e

/-! ### How deep the conditions are -/

mutual

/-- The nesting of the connectives at the top of a condition.  An equality counts as one, since it
becomes a conjunction. -/
def depth : Expr → ℕ
  | .and l => depths l + 1
  | .or l => depths l + 1
  | .eq _ _ => 1
  | _ => 0

/-- The largest depth in a list. -/
def depths : List Expr → ℕ
  | [] => 0
  | e :: l => max (depth e) (depths l)

end

mutual

/-- The largest depth of a condition. -/
def rank : Expr → ℕ
  | .ite c a b => max (max (depth c) (rank c)) (max (rank a) (rank b))
  | .and l => ranks l
  | .or l => ranks l
  | _ => 0

/-- The largest rank in a list. -/
def ranks : List Expr → ℕ
  | [] => 0
  | e :: l => max (rank e) (ranks l)

end

section Rank

variable {e e' : Expr} {l l' : List Expr} {n : ℕ}

theorem depths_le_iff :
  depths l ≤ n ↔ ∀ e ∈ l, depth e ≤ n
  := by
  induction l with
  | nil => simp [depths]
  | cons e l ih => rw [depths, max_le_iff, ih, List.forall_mem_cons]

theorem ranks_le_iff :
  ranks l ≤ n ↔ ∀ e ∈ l, rank e ≤ n
  := by
  induction l with
  | nil => simp [ranks]
  | cons e l ih => rw [ranks, max_le_iff, ih, List.forall_mem_cons]

theorem depth_le_depths (he : e ∈ l) :
  depth e ≤ depths l
  := depths_le_iff.mp le_rfl e he

theorem rank_le_ranks (he : e ∈ l) :
  rank e ≤ ranks l
  := ranks_le_iff.mp le_rfl e he

theorem depths_congr (h : List.Forall₂ (fun e e' => depth e' = depth e) l l') :
  depths l' = depths l
  := by
  induction h with
  | nil => rfl
  | cons h _ ih => rw [depths, depths, h, ih]

theorem ranks_sub_one (h : List.Forall₂ (fun e e' => rank e' ≤ rank e - 1) l l') :
  ranks l' ≤ ranks l - 1
  := by
  induction h with
  | nil => simp [ranks]
  | cons h _ ih =>
      rw [ranks, ranks]
      omega

end Rank

/-! ### Dropping branches -/

section Minimize

variable {converted : ConvertMethod} {check : List Expr → Status} {k : Level} {nots : Bool}
variable {e a b c d : Expr} {l ds path : List Expr} {M : Model} {s : Srt} {n : ℕ}

/-- The solver finds only unsatisfiable assertions unsatisfiable. -/
def SoundCheck (check : List Expr → Status) : Prop :=
  ∀ l, (∀ e ∈ l, e.sort = some .bool) → check l = .UNSATISFIABLE →
    ∀ M, ¬ ∀ e ∈ l, Expr.Holds M e

@[simp]
theorem branch_branch (k : Level) :
  k.branch.branch = k.branch
  := by
  cases k with
  | _ => rfl

theorem branch_of_ne (hk : k ≠ .body) :
  k.branch = .simple
  := by
  cases k with
  | body => exact absurd rfl hk
  | _ => rfl

theorem Ready.of_simple (h : Ready converted nots .simple e) (k : Level) :
  Ready converted nots k e
  := by
  generalize hlevel : Level.simple = level at h
  induction h generalizing k with
  | not hnots ho ha hb => exact .not hnots ho ha hb
  | and hk _ _ _ => exact absurd hlevel.symm hk
  | or hk _ _ _ => exact absurd hlevel.symm hk
  | ite hc ha hb _ iha ihb =>
      cases hlevel
      exact .ite hc (iha _ rfl) (ihb _ rfl)
  | compare ho ha hb => exact .compare ho ha hb
  | eq _ hk _ _ _ _ => exact absurd hlevel.symm hk
  | const he => exact .const he
  | arith he h => cases hlevel

theorem Ready.of_branch (h : Ready converted nots k.branch e) :
  Ready converted nots k e
  := by
  cases k with
  | body => exact h
  | simple => exact h
  | condition => exact h.of_simple _

theorem Ready.depth_simple (h : Ready converted nots .simple e) :
  depth e = 0
  := by
  cases h with
  | not | ite => rfl
  | and hk _ _ => exact absurd rfl hk
  | or hk _ _ => exact absurd rfl hk
  | compare ho _ _ =>
      simp only [comparisons, List.mem_cons, List.not_mem_nil, or_false] at ho
      rcases ho with rfl | rfl | rfl | rfl <;> rfl
  | eq _ hk _ _ _ _ => exact absurd rfl hk
  | const he =>
      unfold isConst at he
      split at he <;> first | rfl | cases he

/-- What is left of a conditional has its value where the conditions on the way hold. -/
theorem minimizeITE_eval (hcheck : SoundCheck check) (hs : e.sort = some s)
    (hpath : ∀ p ∈ path, p.sort = some .bool) :
  (minimizeITE check path e).sort = some s ∧
    ∀ M, (∀ p ∈ path, p.Holds M) → (minimizeITE check path e).eval M = e.eval M
  := by
  fun_induction minimizeITE check path e with
  | case1 path c a b hunsat ih =>
      obtain ⟨hc, ha, hb⟩ := sort_ite.mp hs
      obtain ⟨hsort, heval⟩ := ih hb (List.forall_mem_cons.mpr ⟨by simp [hc], hpath⟩)
      use hsort
      intro M hM
      have hnot : ¬ c.Holds M := by
        intro hcM
        apply hcheck _ (List.forall_mem_cons.mpr ⟨hc, hpath⟩) hunsat M
        apply List.forall_mem_cons.mpr ⟨hcM, hM⟩
      rw [eval_ite, if_neg hnot]
      apply heval
      apply List.forall_mem_cons.mpr ⟨by simpa using hnot, hM⟩
  | case2 path c a b _ hunsat ih =>
      obtain ⟨hc, ha, hb⟩ := sort_ite.mp hs
      obtain ⟨hsort, heval⟩ := ih ha (List.forall_mem_cons.mpr ⟨hc, hpath⟩)
      use hsort
      intro M hM
      have hcM : c.Holds M := by
        by_contra hnot
        apply hcheck _ (List.forall_mem_cons.mpr ⟨by simp [hc], hpath⟩) hunsat M
        apply List.forall_mem_cons.mpr ⟨by simpa using hnot, hM⟩
      rw [eval_ite, if_pos hcM]
      apply heval
      apply List.forall_mem_cons.mpr ⟨hcM, hM⟩
  | case3 path c a b _ _ iha ihb =>
      obtain ⟨hc, ha, hb⟩ := sort_ite.mp hs
      obtain ⟨hsorta, hevala⟩ := iha ha (List.forall_mem_cons.mpr ⟨hc, hpath⟩)
      obtain ⟨hsortb, hevalb⟩ := ihb hb (List.forall_mem_cons.mpr ⟨by simp [hc], hpath⟩)
      constructor
      · simp [hc, hsorta, hsortb]
      · intro M hM
        rw [eval_ite, eval_ite]
        by_cases hcM : c.Holds M
        · rw [if_pos hcM, if_pos hcM]
          apply hevala
          apply List.forall_mem_cons.mpr ⟨hcM, hM⟩
        · rw [if_neg hcM, if_neg hcM]
          apply hevalb
          apply List.forall_mem_cons.mpr ⟨by simpa using hcM, hM⟩
  | case4 path e hne => exact ⟨hs, fun _ _ => rfl⟩

theorem minimizeITE_preserves (hcheck : SoundCheck check) (e : Expr) :
  Preserves e (minimizeITE check [] e)
  := by
  intro s hs
  obtain ⟨hsort, heval⟩ := minimizeITE_eval hcheck hs (List.forall_mem_nil _)
  exact ⟨hsort, fun M => heval M (List.forall_mem_nil _)⟩

theorem Ready.of_ite (h : Ready converted nots k (.ite c a b)) :
  Ready converted nots .condition c ∧ Ready converted nots k.branch a ∧
    Ready converted nots k.branch b
  := by
  cases h with
  | ite hc ha hb => exact ⟨hc, ha, hb⟩
  | const he => cases he
  | arith he _ => cases he

/-- What is left of a conditional stands where the conditional stood. -/
theorem minimizeITE_ready (h : Ready converted nots k.branch e) :
  Ready converted nots k.branch (minimizeITE check path e)
  := by
  fun_induction minimizeITE check path e with
  | case1 path c a b _ ih =>
      obtain ⟨-, -, hb⟩ := h.of_ite
      exact ih (branch_branch k ▸ hb)
  | case2 path c a b _ _ ih =>
      obtain ⟨-, ha, -⟩ := h.of_ite
      exact ih (branch_branch k ▸ ha)
  | case3 path c a b _ _ iha ihb =>
      obtain ⟨hc, ha, hb⟩ := h.of_ite
      rw [branch_branch] at ha hb
      apply Ready.ite hc
      · rw [branch_branch]
        apply iha ha
      · rw [branch_branch]
        apply ihb hb
  | case4 path e hne => exact h

theorem rank_minimizeITE_le (e : Expr) :
  rank (minimizeITE check path e) ≤ rank e
  := by
  fun_induction minimizeITE check path e with
  | case1 path c a b _ ih =>
      rw [rank]
      omega
  | case2 path c a b _ _ ih =>
      rw [rank]
      omega
  | case3 path c a b _ _ iha ihb =>
      rw [rank, rank]
      omega
  | case4 path e hne => exact le_rfl

end Minimize

/-! ### Splitting a condition -/

section Split

variable {converted : ConvertMethod} {check : List Expr → Status} {k : Level} {nots : Bool}
variable {e e₁ e₂ c d x : Expr} {l ds : List Expr} {M : Model} {s : Srt} {n : ℕ}

theorem sortArgs_perm (l : List Expr) :
  (sortArgs l).Perm l
  := List.perm_insertionSort ..

/-- Nested conditionals with the conditions `ds`, by what one of them adds. -/
theorem foldl_ite_induct {P : Expr → Prop} {f : Expr → Expr → Expr}
    (hstep : ∀ d ∈ ds, ∀ x, P x → P (f x d)) (hx : P x) :
  P (ds.foldl f x)
  := by
  induction ds generalizing x with
  | nil => exact hx
  | cons d ds ih =>
      obtain ⟨hd, hds⟩ := List.forall_mem_cons.mp hstep
      apply ih hds (hd x hx)

theorem eval_foldl_and :
  (ds.foldl (fun ite d => .ite d ite e₂) x).eval M
    = if ∀ d ∈ ds, d.Holds M then x.eval M else e₂.eval M
  := by
  induction ds generalizing x with
  | nil => simp
  | cons d ds ih =>
      rw [List.foldl_cons, ih, eval_ite]
      by_cases hd : d.Holds M
      · simp [hd]
      · simp [hd]

theorem eval_foldl_or :
  (ds.foldl (fun ite d => .ite d e₁ ite) x).eval M
    = if ∃ d ∈ ds, d.Holds M then e₁.eval M else x.eval M
  := by
  induction ds generalizing x with
  | nil => simp
  | cons d ds ih =>
      rw [List.foldl_cons, ih, eval_ite]
      by_cases hd : d.Holds M
      · simp [hd]
      · simp [hd]

/-- The nested conditionals for a conjunction. -/
theorem andITE_preserves (hperm : (d :: ds).Perm l) :
  Preserves (.ite (.and l) e₁ e₂) (andITE e₁ e₂ d ds)
  := by
  intro s hs
  obtain ⟨hc, h₁, h₂⟩ := sort_ite.mp hs
  have hl : ∀ d' ∈ d :: ds, d'.sort = some .bool :=
    fun d' hd' => (sort_and.mp hc).2 d' (hperm.mem_iff.mp hd')
  obtain ⟨hd, hds⟩ := List.forall_mem_cons.mp hl
  constructor
  · apply foldl_ite_induct (P := fun x => x.sort = some s)
    · intro d' hd' x hx
      apply sort_ite.mpr ⟨hds d' hd', hx, h₂⟩
    · apply sort_ite.mpr ⟨hd, h₁, h₂⟩
  · intro M
    have hall : (Expr.and l).Holds M ↔ ∀ d' ∈ d :: ds, d'.Holds M := by
      rw [holds_and]
      exact forall_congr' fun d' => by rw [hperm.mem_iff]
    rw [andITE, eval_foldl_and, eval_ite, eval_ite, ← ite_and]
    congr 1
    rw [hall, List.forall_mem_cons, and_comm]

/-- The nested conditionals for a disjunction. -/
theorem orITE_preserves (hperm : (d :: ds).Perm l) :
  Preserves (.ite (.or l) e₁ e₂) (orITE e₁ e₂ d ds)
  := by
  intro s hs
  obtain ⟨hc, h₁, h₂⟩ := sort_ite.mp hs
  have hl : ∀ d' ∈ d :: ds, d'.sort = some .bool :=
    fun d' hd' => (sort_or.mp hc).2 d' (hperm.mem_iff.mp hd')
  obtain ⟨hd, hds⟩ := List.forall_mem_cons.mp hl
  constructor
  · apply foldl_ite_induct (P := fun x => x.sort = some s)
    · intro d' hd' x hx
      apply sort_ite.mpr ⟨hds d' hd', h₁, hx⟩
    · apply sort_ite.mpr ⟨hd, h₁, h₂⟩
  · intro M
    have hany : (Expr.or l).Holds M ↔ ∃ d' ∈ d :: ds, d'.Holds M := by
      rw [holds_or]
      exact exists_congr fun d' => by rw [hperm.mem_iff]
    rw [orITE, eval_foldl_or, eval_ite, eval_ite]
    by_cases hd : d.Holds M
    · simp [hany, hd]
    · simp [hany, hd]

/-- What the replacement of a conditional is: it stands where the conditional stood, means what
the conditional means, and its conditions are less deep. -/
structure Replaced (converted : ConvertMethod) (k : Level) (e e' : Expr) (n : ℕ) : Prop where
  ready : Ready converted false k.branch e'
  preserves : Preserves e e'
  rank : rank e' ≤ n

/-- Nested conditionals, each with one of the conditions, and with the ones before it in one of its
branches. -/
theorem replaced_foldl (hcheck : SoundCheck check) {f : Expr → Expr → Expr}
    (hf : (∀ x d, f x d = .ite d x e₂) ∨ ∀ x d, f x d = .ite d e₁ x)
    (hready : ∀ d' ∈ d :: ds, Ready converted false .condition d')
    (h₁ : Ready converted false k.branch e₁) (h₂ : Ready converted false k.branch e₂)
    (hd : ∀ d' ∈ d :: ds, depth d' ≤ n ∧ rank d' ≤ n) (hn₁ : rank e₁ ≤ n) (hn₂ : rank e₂ ≤ n)
    (hpres : Preserves e (ds.foldl f (.ite d e₁ e₂))) :
  Replaced converted k e (minimizeITE check [] (ds.foldl f (.ite d e₁ e₂))) n
  := by
  obtain ⟨hhead, htail⟩ := List.forall_mem_cons.mp hready
  obtain ⟨hdhead, hdtail⟩ := List.forall_mem_cons.mp hd
  have hite : ∀ d', Ready converted false .condition d' → ∀ x y,
      Ready converted false k.branch x → Ready converted false k.branch y →
      Ready converted false k.branch (.ite d' x y) := by
    intro d' hd' x y hx hy
    apply Ready.ite hd'
    · rwa [branch_branch]
    · rwa [branch_branch]
  have hrank : ∀ d', depth d' ≤ n ∧ rank d' ≤ n → ∀ x y, rank x ≤ n → rank y ≤ n →
      rank (.ite d' x y) ≤ n := by
    intro d' hd' x y hx hy
    rw [rank]
    omega
  constructor
  · apply minimizeITE_ready
    apply foldl_ite_induct _ (hite d hhead _ _ h₁ h₂)
    intro d' hd' x hx
    rcases hf with hf | hf
    · rw [hf]
      apply hite d' (htail d' hd') _ _ hx h₂
    · rw [hf]
      apply hite d' (htail d' hd') _ _ h₁ hx
  · apply hpres.trans (minimizeITE_preserves hcheck _)
  · apply (rank_minimizeITE_le _).trans
    apply foldl_ite_induct (P := fun x => rank x ≤ n) _ (hrank d hdhead _ _ hn₁ hn₂)
    intro d' hd' x hx
    rcases hf with hf | hf
    · rw [hf]
      apply hrank d' (hdtail d' hd') _ _ hx hn₂
    · rw [hf]
      apply hrank d' (hdtail d' hd') _ _ hn₁ hx

/-- A condition that is a conjunction or a disjunction is split. -/
theorem splitCondition_spec (hcheck : SoundCheck check) {o : Op} (ho : o = .and ∨ o = .or)
    (hl : l ≠ []) (hready : ∀ d ∈ l, Ready converted false .condition d)
    (h₁ : Ready converted false k.branch e₁) (h₂ : Ready converted false k.branch e₂)
    (hd : ∀ d ∈ l, depth d ≤ n ∧ rank d ≤ n) (hn₁ : rank e₁ ≤ n) (hn₂ : rank e₂ ≤ n) :
  ∃ e', splitCondition check (.app o l) e₁ e₂ = some (e', true) ∧
    Replaced converted k (.ite (.app o l) e₁ e₂) e' n
  := by
  have hperm := sortArgs_perm l
  cases hsort : sortArgs l with
  | nil =>
      rw [hsort] at hperm
      apply absurd hperm.symm.eq_nil hl
  | cons d ds =>
      rw [hsort] at hperm
      have hmem : ∀ d' ∈ d :: ds, d' ∈ l := fun d' hd' => hperm.mem_iff.mp hd'
      have hready' := fun d' hd' => hready d' (hmem d' hd')
      have hd' := fun d' hd' => hd d' (hmem d' hd')
      rcases ho with rfl | rfl
      · use minimizeITE check [] (andITE e₁ e₂ d ds)
        constructor
        · simp [splitCondition, hsort]
        · exact replaced_foldl hcheck (.inl fun _ _ => rfl) hready' h₁ h₂ hd' hn₁ hn₂
            (andITE_preserves hperm)
      · use minimizeITE check [] (orITE e₁ e₂ d ds)
        constructor
        · simp [splitCondition, hsort]
        · exact replaced_foldl hcheck (.inr fun _ _ => rfl) hready' h₁ h₂ hd' hn₁ hn₂
            (orITE_preserves hperm)

end Split

/-! ### One round -/

section Convert

variable {converted : ConvertMethod} {check : List Expr → Status} {k : Level} {nots : Bool}
variable {e e' : Expr} {l : List Expr} {flag : Bool}

/-- What a round does to an expression. -/
structure Converts (converted : ConvertMethod) (k : Level) (e e' : Expr) (flag : Bool) : Prop where
  ready : Ready converted false k e'
  preserves : Preserves e e'
  flag : flag = decide (0 < rank e)
  rank : rank e' ≤ rank e - 1
  depth : k ≠ .body → depth e' = depth e

/-- An expression without conditionals and negations that may be changed is as it was. -/
theorem Converts.refl (h : Ready converted false k e) (hrank : Format.rank e = 0) :
  Converts converted k e e false
  := by
  constructor
  · apply h
  · exact .refl e
  · simp [hrank]
  · omega
  · exact fun _ => rfl

/-- The round for a list of expressions. -/
theorem convertAll_spec
    (h : ∀ e ∈ l, ∃ e' flag, convertToITE check e = some (e', flag) ∧
      Converts converted k e e' flag) :
  ∃ l', convertAll check l = some (l', decide (0 < ranks l)) ∧
    List.Forall₂ (fun e e' => ∃ flag, Converts converted k e e' flag) l l'
  := by
  induction l with
  | nil => exact ⟨[], by simp [convertAll, ranks], .nil⟩
  | cons e l ih =>
      obtain ⟨⟨e', flag, he, hconv⟩, hl⟩ := List.forall_mem_cons.mp h
      obtain ⟨l', hl', hall⟩ := ih hl
      refine ⟨e' :: l', ?_, .cons ⟨flag, hconv⟩ hall⟩
      rw [convertAll, he, ranks]
      simp [hl', hconv.flag]

theorem rank_compare {o : Op} {a b : Expr} (ho : o ∈ comparisons) :
  rank (.app o [a, b]) = 0 ∧ depth (.app o [a, b]) = 0
  := by
  simp only [comparisons, List.mem_cons, List.not_mem_nil, or_false] at ho
  rcases ho with rfl | rfl | rfl | rfl
  all_goals exact ⟨rfl, rfl⟩

theorem rank_const (h : isConst e = true) :
  rank e = 0
  := by
  unfold isConst at h
  split at h
  · rfl
  · rfl
  · rfl
  · rfl
  · cases h

theorem rank_arith (h : isArith e = true) :
  rank e = 0
  := by
  unfold isArith at h
  split at h
  · rfl
  · rfl
  · rfl
  · rfl
  · cases h

theorem convertToITE_compare {o : Op} {a b : Expr} (ho : o ∈ comparisons) :
  convertToITE check (.app o [a, b]) = some (.app o [a, b], false)
  := by
  simp only [comparisons, List.mem_cons, List.not_mem_nil, or_false] at ho
  rcases ho with rfl | rfl | rfl | rfl
  all_goals rfl

/-- A negated comparison is the opposite one. -/
theorem convertToITE_not (check : List Expr → Status) {o : Op} {a b : Expr} (ho : o ∈ comparisons) :
  ∃ o' ∈ comparisons, convertToITE check (.not (.app o [a, b])) = some (.app o' [a, b], false) ∧
    Preserves (.not (.app o [a, b])) (.app o' [a, b])
  := by
  simp only [comparisons, List.mem_cons, List.not_mem_nil, or_false] at ho
  rcases ho with rfl | rfl | rfl | rfl
  · exact ⟨.lt, by simp [comparisons], rfl, .not_ge⟩
  · exact ⟨.le, by simp [comparisons], rfl, .not_gt⟩
  · exact ⟨.gt, by simp [comparisons], rfl, .not_le⟩
  · exact ⟨.ge, by simp [comparisons], rfl, .not_lt⟩

theorem convertToITE_const (h : isConst e = true) :
  convertToITE check e = some (e, false)
  := by
  have hif : (if isConst e = true then some (e, false) else none) = some (e, false) := if_pos h
  unfold isConst at h
  split at h
  · rfl
  · apply hif
  · apply hif
  · apply hif
  · cases h

theorem convertToITE_arith (h : isArith e = true) (hprint : Printable converted e) :
  convertToITE check e = some (e, false)
  := by
  unfold isArith at h
  split at h
  · rfl
  · rfl
  · rfl
  · next l =>
      have hlen : l.length ≠ 1 := by
        cases hprint with
        | const he => cases he
        | nest _ _ hsub _ => exact hsub rfl
        | fixed ho _ => simp [fixed] at ho
      rcases l with _ | ⟨a, _ | ⟨b, l⟩⟩
      · rfl
      · apply absurd rfl hlen
      · rfl
  · cases h

theorem preserves_eq {a b : Expr} (ha : a.sort = some .int) (hb : b.sort = some .int) :
  Preserves (.eq a b) (.and [.ge a b, .le a b])
  := by
  apply Preserves.of_holds
  intro s hs
  obtain ⟨rfl, -⟩ := sort_eq.mp hs
  refine ⟨rfl, by simp [ha, hb], fun M => ?_⟩
  rw [holds_and_pair, holds_ge, holds_le, holds_eq_of_int ha hb, eq_comm]
  apply le_antisymm_iff.symm

/-- A condition that is neither a conjunction nor a disjunction is not split. -/
theorem splitCondition_of_depth (check : List Expr → Status) {c : Expr} (hdepth : depth c = 0)
    (a b : Expr) :
  splitCondition check c a b = some (.ite c a b, false)
  := by
  unfold splitCondition
  split
  · cases hdepth
  · cases hdepth
  · rfl

/-- After a round the connectives at the top of an expression are conjunctions or disjunctions. -/
theorem Ready.connective_or (h : Ready converted false k e) :
  (∃ o l, (o = .and ∨ o = .or) ∧ e = .app o l ∧ l ≠ [] ∧ ∀ d ∈ l, Ready converted false k d)
    ∨ depth e = 0
  := by
  cases h with
  | not hnots => cases hnots
  | and _ hl h => exact .inl ⟨.and, _, .inl rfl, rfl, hl, h⟩
  | or _ hl h => exact .inl ⟨.or, _, .inr rfl, rfl, hl, h⟩
  | ite => exact .inr rfl
  | compare ho => exact .inr (rank_compare ho).2
  | eq hnots => cases hnots
  | const he =>
      right
      unfold isConst at he
      split at he <;> first | rfl | cases he
  | arith he =>
      right
      unfold isArith at he
      split at he <;> first | rfl | cases he

theorem depth_connective {o : Op} (ho : o = .and ∨ o = .or) :
  depth (.app o l) = depths l + 1
  := by
  rcases ho with rfl | rfl
  · rfl
  · rfl

theorem rank_connective {o : Op} (ho : o = .and ∨ o = .or) :
  rank (.app o l) = ranks l
  := by
  rcases ho with rfl | rfl
  · rfl
  · rfl

/-- A round, on an expression that is ready for it. -/
theorem convertToITE_spec (hcheck : SoundCheck check) (h : Ready converted nots k e) :
  ∃ e' flag, convertToITE check e = some (e', flag) ∧ Converts converted k e e' flag
  := by
  induction h with
  | @not k o a b hnots ho ha hb =>
      obtain ⟨o', ho', heq, hpres⟩ := convertToITE_not check (a := a) (b := b) ho
      refine ⟨_, _, heq, .compare ho' ha hb, hpres, ?_, ?_, ?_⟩
      · simp [rank]
      · simp [rank_compare ho']
      · intro _
        rw [(rank_compare ho').2]
        rfl
  | @and k l hk hl _ ih =>
      obtain ⟨l', hl', hall⟩ := convertAll_spec ih
      refine ⟨.and l', _, by rw [convertToITE, hl']; rfl, ?_, ?_, rfl, ?_, ?_⟩
      · exact .and hk (ne_nil_of_forall₂ hall hl)
          (forall_of_forall₂ hall fun _ _ h => h.choose_spec.ready)
      · exact .app _ (hall.imp fun _ _ h => h.choose_spec.preserves)
      · exact ranks_sub_one (hall.imp fun _ _ h => h.choose_spec.rank)
      · intro hbody
        rw [depth, depth, depths_congr (hall.imp fun _ _ h => h.choose_spec.depth hbody)]
  | @or k l hk hl _ ih =>
      obtain ⟨l', hl', hall⟩ := convertAll_spec ih
      refine ⟨.or l', _, by rw [convertToITE, hl']; rfl, ?_, ?_, rfl, ?_, ?_⟩
      · exact .or hk (ne_nil_of_forall₂ hall hl)
          (forall_of_forall₂ hall fun _ _ h => h.choose_spec.ready)
      · exact .app _ (hall.imp fun _ _ h => h.choose_spec.preserves)
      · exact ranks_sub_one (hall.imp fun _ _ h => h.choose_spec.rank)
      · intro hbody
        rw [depth, depth, depths_congr (hall.imp fun _ _ h => h.choose_spec.depth hbody)]
  | @ite k c a b hc ha hb ihc iha ihb =>
      obtain ⟨c', flag₀, hc', hconvc⟩ := ihc
      obtain ⟨a', flag₁, ha', hconva⟩ := iha
      obtain ⟨b', flag₂, hb', hconvb⟩ := ihb
      have hdepth := hconvc.depth (by simp)
      have hrankc := hconvc.rank
      have hranka := hconva.rank
      have hrankb := hconvb.rank
      have hpres : Preserves (.ite c a b) (.ite c' a' b') :=
        .app .ite (.cons hconvc.preserves (.cons hconva.preserves (.cons hconvb.preserves .nil)))
      rcases hconvc.ready.connective_or with ⟨o, l, ho, rfl, hl, hready⟩ | hzero
      · rw [depth_connective ho] at hdepth
        rw [rank_connective ho] at hrankc
        have hd : ∀ d ∈ l, depth d ≤ rank (.ite c a b) - 1 ∧ rank d ≤ rank (.ite c a b) - 1 := by
          intro d hd
          have hle := depth_le_depths hd
          have hle' := rank_le_ranks hd
          rw [rank]
          omega
        obtain ⟨e', hsplit, hrep⟩ := splitCondition_spec hcheck ho hl hready hconva.ready
          hconvb.ready hd (by rw [rank]; omega) (by rw [rank]; omega)
        refine ⟨e', true, by simp [convertToITE, hc', ha', hb', hsplit], ?_, ?_, ?_, ?_, ?_⟩
        · apply hrep.ready.of_branch
        · apply hpres.trans hrep.preserves
        · rw [rank]
          simp
          omega
        · apply hrep.rank
        · intro hbody
          have hready := hrep.ready
          rw [branch_of_ne hbody] at hready
          apply hready.depth_simple
      · have hsplit := splitCondition_of_depth check hzero a' b'
        refine ⟨.ite c' a' b', flag₀ || flag₁ || flag₂, ?_, ?_, hpres, ?_, ?_, ?_⟩
        · simp [convertToITE, hc', ha', hb', hsplit]
        · exact .ite hconvc.ready hconva.ready hconvb.ready
        · rw [hconvc.flag, hconva.flag, hconvb.flag, rank, ← hdepth, hzero, ← Bool.decide_or,
            ← Bool.decide_or, decide_eq_decide]
          omega
        · rw [rank, rank]
          omega
        · exact fun _ => rfl
  | @compare k o a b ho ha hb =>
      exact ⟨_, _, convertToITE_compare ho, .refl (.compare ho ha hb) (rank_compare ho).1⟩
  | @eq k a b _ hk ha hb hs hs' =>
      refine ⟨.and [.ge a b, .le a b], false, by simp [convertToITE, hs, hs'], ?_, ?_, ?_, ?_, ?_⟩
      · apply Ready.and hk (by simp)
        intro e he
        simp only [List.mem_cons, List.not_mem_nil, or_false] at he
        rcases he with rfl | rfl
        · exact .compare (by simp [comparisons]) ha hb
        · exact .compare (by simp [comparisons]) ha hb
      · apply preserves_eq hs hs'
      · simp [rank]
      · simp [rank, ranks]
      · intro _
        simp [depth, depths]
  | @const k e he => exact ⟨_, _, convertToITE_const he, .refl (.const he) (rank_const he)⟩
  | @arith e he h =>
      exact ⟨_, _, convertToITE_arith he h.printable, .refl (.arith he h) (rank_arith he)⟩

end Convert

/-! ### The loop -/

section Loop

variable {converted : ConvertMethod} {check : List Expr → Status} {k : Level} {nots : Bool}
variable {e e' : Expr} {l : List Expr} {flag : Bool} {fuel : ℕ}

theorem convertLoop_false :
  convertLoop check fuel false e = some (e, false)
  := by
  cases fuel with
  | _ => rfl

/-- The rounds end, the meaning is kept, and no condition is deep any more. -/
theorem convertLoop_spec (hcheck : SoundCheck check) (h : Ready converted nots k e)
    (hfuel : rank e + 1 ≤ fuel) :
  ∃ e', convertLoop check fuel true e = some (e', false) ∧ Ready converted false k e' ∧
    Preserves e e' ∧ rank e' = 0
  := by
  induction fuel generalizing e nots with
  | zero => omega
  | succ fuel ih =>
      obtain ⟨e₁, flag, heq, hconv⟩ := convertToITE_spec hcheck h
      have hrank := hconv.rank
      cases flag with
      | false =>
          have hzero : ¬ 0 < rank e := of_decide_eq_false hconv.flag.symm
          refine ⟨e₁, ?_, hconv.ready, hconv.preserves, by omega⟩
          rw [convertLoop, heq]
          apply convertLoop_false
      | true =>
          have hpos : 0 < rank e := of_decide_eq_true hconv.flag.symm
          obtain ⟨e', hloop, hready, hpres, hzero⟩ := ih hconv.ready (by omega)
          refine ⟨e', ?_, hready, hconv.preserves.trans hpres, hzero⟩
          rw [convertLoop, heq]
          apply hloop

/-- Without depth, what stands in a condition has no connectives. -/
theorem Ready.unconnected (h : Ready converted false k e) (hrank : rank e = 0)
    (hk : k ≠ .body) (hdepth : depth e = 0) :
  Unconnected e
  := by
  induction h with
  | not hnots => cases hnots
  | and => cases hdepth
  | or => cases hdepth
  | @ite k c a b _ ha hb ihc iha ihb =>
      rw [rank] at hrank
      rw [branch_of_ne hk] at ha hb
      have hk' : k.branch ≠ .body := by
        rw [branch_of_ne hk]
        simp
      apply unconnected_app.mpr
      constructor
      · simp [Connects]
      · intro e he
        simp only [List.mem_cons, List.not_mem_nil, or_false] at he
        rcases he with rfl | rfl | rfl
        · apply ihc (by omega) (by simp) (by omega)
        · apply iha (by omega) hk' ha.depth_simple
        · apply ihb (by omega) hk' hb.depth_simple
  | compare ho ha hb =>
      apply unconnected_app.mpr
      constructor
      · rintro (rfl | rfl | ⟨rfl | rfl, -⟩) <;> simp [comparisons] at ho
      · simp [ha.unconnected, hb.unconnected]
  | eq hnots => cases hnots
  | const he => exact (isConst_spec he).2
  | arith => exact absurd rfl hk

/-- Without rank, no condition has connectives. -/
theorem Ready.unconnectedConditions (h : Ready converted false k e) (hrank : rank e = 0) :
  UnconnectedConditions e
  := by
  induction h with
  | not hnots => cases hnots
  | and _ _ _ ih =>
      apply unconnectedConditions_app.mpr
      constructor
      · simp
      · exact fun e he => ih e he (Nat.le_zero.mp (hrank ▸ rank_le_ranks he))
  | or _ _ _ ih =>
      apply unconnectedConditions_app.mpr
      constructor
      · simp
      · exact fun e he => ih e he (Nat.le_zero.mp (hrank ▸ rank_le_ranks he))
  | @ite k c a b hc ha hb ihc iha ihb =>
      rw [rank] at hrank
      apply unconnectedConditions_app.mpr
      constructor
      · intro _ e he
        cases he
        apply hc.unconnected (by omega) (by simp) (by omega)
      · intro e he
        simp only [List.mem_cons, List.not_mem_nil, or_false] at he
        rcases he with rfl | rfl | rfl
        · apply ihc (by omega)
        · apply iha (by omega)
        · apply ihb (by omega)
  | @compare k o a b ho ha hb =>
      apply unconnectedConditions_app.mpr
      constructor
      · rintro rfl
        simp [comparisons] at ho
      · simp [ha.unconnected.conditions, hb.unconnected.conditions]
  | eq hnots => cases hnots
  | const he => exact (isConst_spec he).2.conditions
  | arith _ h => exact h.unconnected.conditions

theorem printable_compare {o : Op} {a b : Expr} (ho : o ∈ comparisons) (ha : Term converted a)
    (hb : Term converted b) :
  Printable converted (.app o [a, b])
  := by
  apply Printable.fixed
  · simp only [comparisons, List.mem_cons, List.not_mem_nil, or_false] at ho
    rcases ho with rfl | rfl | rfl | rfl
    all_goals simp [fixed]
  · simp [ha.printable, hb.printable]

theorem Ready.printable (h : Ready converted nots k e) :
  Printable converted e
  := by
  induction h with
  | not _ ho ha hb =>
      apply Printable.fixed
      · simp [fixed]
      · simp [printable_compare ho ha hb]
  | and _ hl _ ih => exact .nest (.inl rfl) hl (by simp) ih
  | or _ hl _ ih => exact .nest (.inr (.inl rfl)) hl (by simp) ih
  | ite _ _ _ ihc iha ihb =>
      apply Printable.fixed
      · simp [fixed]
      · simp [ihc, iha, ihb]
  | compare ho ha hb => exact printable_compare ho ha hb
  | eq _ _ ha hb _ _ =>
      apply Printable.fixed
      · simp [fixed]
      · simp [ha.printable, hb.printable]
  | const he => exact .const he
  | arith _ h => exact h.printable

theorem products_compare {o : Op} {a b : Expr} (ho : o ∈ comparisons) (ha : Term converted a)
    (hb : Term converted b) :
  UnconnectedProducts (.app o [a, b])
  := by
  apply unconnectedProducts_app.mpr
  constructor
  · rintro rfl
    simp [comparisons] at ho
  · simp [ha.unconnected.products, hb.unconnected.products]

theorem Ready.products (h : Ready converted nots k e) :
  UnconnectedProducts e
  := by
  induction h with
  | not _ ho ha hb =>
      apply unconnectedProducts_app.mpr
      simp [products_compare ho ha hb]
  | and _ _ _ ih => exact unconnectedProducts_app.mpr ⟨by simp, ih⟩
  | or _ _ _ ih => exact unconnectedProducts_app.mpr ⟨by simp, ih⟩
  | ite _ _ _ ihc iha ihb =>
      apply unconnectedProducts_app.mpr
      simp [ihc, iha, ihb]
  | compare ho ha hb => exact products_compare ho ha hb
  | eq _ _ ha hb _ _ =>
      apply unconnectedProducts_app.mpr
      simp [ha.unconnected.products, hb.unconnected.products]
  | const he => exact (isConst_spec he).2.products
  | arith _ h => exact h.unconnected.products

end Loop

end Sygus.Format
