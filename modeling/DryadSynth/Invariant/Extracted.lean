import DryadSynth.Invariant.Conditions

/-!
# What the extraction of transitions keeps

The transition that `fromTransfFormula` reads holds of the same pairs of states as the formula, if
every disjunct is readable: its conditions are read as they are, the atoms with primed variables
leave one state to go to from each state that meets the conditions, and where these atoms are read
by their syntax, they say what is read.
-/

namespace Sygus.Invariant

open LIA Lists

variable {n : ℕ} {vars : Variables n} {M : Model} {s s' : State n}

/-! ### Pairs of states -/

theorem prime_injective {x y : Var} (hsort : x.sort = y.sort) (h : prime x = prime y) :
  x = y
  := by
  have hname : x.name ++ "!" = y.name ++ "!" := congrArg Var.name h
  cases x
  cases y
  simp only [Var.mk.injEq]
  exact ⟨(String.append_left_inj "!").mp hname, hsort⟩

namespace Variables

/-- The primed copies of the variables. -/
def primed (vars : Variables n) : Variables n where
  var i := prime (vars.var i)
  injective i j h := vars.injective
    (prime_injective ((vars.sort_var i).trans (vars.sort_var j).symm) h)
  sort_var := vars.sort_var

/-- The primed copies are other variables. -/
def Copied (vars : Variables n) : Prop := ∀ i j, prime (vars.var i) ≠ vars.var j

/-- The model of a state and one after it. -/
def pair (vars : Variables n) (M : Model) (s s' : State n) : Model :=
  vars.model (vars.primed.model M s') s

theorem state_pair :
  vars.state (vars.pair M s s') = s
  := state_model

theorem intVal_pair_prime (h : vars.Copied) (i : Fin n) :
  (Expr.var (prime (vars.var i))).intVal (vars.pair M s s') = s' i
  := by
  have hmem : prime (vars.var i) ∉ vars.toList := by
    intro hmem
    obtain ⟨j, hj⟩ := List.mem_ofFn.mp hmem
    apply h i j hj.symm
  have hvar : (vars.primed.model M s').var (prime (vars.var i)) = .int (s' i) :=
    vars.primed.var_model i
  rw [Expr.intVal, eval_var, pair, var_model_of_not_mem hmem, hvar]
  show (Value.cast _ (vars.var i).sort).toInt = s' i
  rw [vars.sort_var]
  rfl

/-- The values of the primed variables do not depend on what they were before. -/
theorem pair_primed :
  vars.pair (vars.primed.model M s') s = vars.pair M s
  := by
  funext s''
  rw [pair, pair, model_model]

end Variables

/-- The equation of an update. -/
theorem holds_update (h : vars.Copied) (i : Fin n) (z : ℤ) :
  (Expr.eq (.var (prime (vars.var i))) (.add [.var (vars.var i), .num z])).Holds (vars.pair M s s')
    ↔ s' i = s i + z
  := by
  have hprime : (Expr.var (prime (vars.var i))).sort = some .int :=
    congrArg some (vars.sort_var i)
  have hvar : (Expr.var (vars.var i)).intVal (vars.pair M s s') = s i :=
    congrFun Variables.state_pair i
  rw [holds_eq_of_int hprime (by simp [vars.sort_var]), Variables.intVal_pair_prime h, intVal_add]
  simp [hvar]

theorem UniTrans.holds_toExpr (h : vars.Copied) (u : UniTrans n) :
  (u.toExpr vars).Holds (vars.pair M s s') ↔ s' = s + u.deltaTbl
  := by
  rw [UniTrans.toExpr, LIA.holds_and, funext_iff, List.forall_mem_ofFn_iff]
  exact forall_congr' fun i => holds_update h i (u.deltaTbl i)

theorem Transf.holds_toExpr {t : Transf n} (h : t.vars.Copied) :
  t.toExpr.Holds (t.vars.pair M s s') ↔ t.Step s s'
  := by
  simp only [Transf.toExpr, holds_or, Transf.Step, List.mem_map, exists_exists_and_eq_and]
  apply exists_congr
  intro p
  rw [holds_and_pair, Region.holds_toExpr, Variables.state_pair, UniTrans.holds_toExpr h]

/-! ### Updates -/

namespace Transf

/-- An equation that is read as an update of a variable, with the amount it says.  Operands after
the second one are not read. -/
inductive Update (vars : Variables n) : Expr → Fin n → ℤ → Prop where
  | keep (i : Fin n) :
      Update vars (.eq (.var (prime (vars.var i))) (.var (vars.var i))) i 0
  | add (i : Fin n) (c : ℤ) (rest : List Expr) :
      Update vars (.eq (.var (prime (vars.var i))) (.add (.var (vars.var i) :: .num c :: rest))) i c
  | sub (i : Fin n) (c : ℤ) (rest : List Expr) :
      Update vars (.eq (.var (prime (vars.var i))) (.sub (.var (vars.var i) :: .num c :: rest))) i
        (-c)

/-- The equation means nothing but the update by this amount, which is not the one that overflows
when its subtrahend is negated. -/
structure Precise (vars : Variables n) (u : Expr) (i : Fin n) (z : ℤ) : Prop where
  holds_iff : ∀ M s s', u.Holds (vars.pair M s s') ↔ s' i = s i + z
  ne : z ≠ 2 ^ 31

/-- The equations with two operands are precise. -/
theorem precise_add (h : vars.Copied) (i : Fin n) {c : ℤ} (hc : c ≠ 2 ^ 31) :
  Precise vars (.eq (.var (prime (vars.var i))) (.add [.var (vars.var i), .num c])) i c
  := ⟨fun _ _ _ => holds_update h i c, hc⟩

section Syntax

variable {u a : Expr} {d d' : Deltas n} {i : Fin n}

theorem eq_of_index (h : index vars a = some i) :
  a = .var (vars.var i)
  := by simpa using List.find?_some h

theorem eq_of_isPrimeOf (h : isPrimeOf vars a i = true) (ha : a.sort = some .int) :
  a = .var (prime (vars.var i))
  := by
  unfold isPrimeOf at h
  split at h
  · next y =>
      cases y
      simp_all [prime, vars.sort_var]
  · cases h

theorem fits_of_parseInt {c z : ℤ} (h : Region.parseInt c = some z) :
  z = c ∧ -2 ^ 31 ≤ c ∧ c < 2 ^ 31
  := by
  unfold Region.parseInt at h
  split at h
  · next hfits => exact ⟨(Option.some.inj h).symm, hfits⟩
  · cases h

theorem getDeltaOfSum_spec {subargs : List Expr} {sign : ℤ → ℤ}
    (h : getDeltaOfSum vars a subargs sign d = some (true, d')) :
  ∃ i c rest, subargs = .var (vars.var i) :: .num c :: rest ∧ isPrimeOf vars a i = true ∧
    -2 ^ 31 ≤ c ∧ c < 2 ^ 31 ∧ d' = Function.update d i (some (sign c))
  := by
  unfold getDeltaOfSum at h
  split at h
  · cases h
  · next x rest =>
      split at h
      · cases h
      · next i hi =>
          split at h
          · cases h
          · next c rest =>
              split at h
              · next hprime =>
                  obtain ⟨z, hz, hdeltas⟩ := Option.bind_eq_some_iff.mp h
                  obtain ⟨rfl, hlower, hupper⟩ := fits_of_parseInt hz
                  cases hdeltas
                  exact ⟨i, z, rest, by rw [eq_of_index hi], hprime, hlower, hupper, rfl⟩
              · cases h
          · cases h

/-- What the syntax is read as. -/
theorem getDeltaBySyntax_spec (hs : u.sort = some .bool)
    (h : getDeltaBySyntax vars u d = some (true, d')) :
  ∃ i z, Update vars u i z ∧ (z ≠ 2 ^ 31 → d' = Function.update d i (some z))
  := by
  unfold getDeltaBySyntax at h
  split at h
  · next a b =>
      obtain ⟨-, t, ha, hb⟩ := sort_eq.mp hs
      split at h
      · cases h
      · split at h
        · next subargs =>
            obtain ⟨i, c, rest, rfl, hprime, -, -, hd⟩ := getDeltaOfSum_spec h
            rw [(sort_add.mp hb).1] at ha
            rw [eq_of_isPrimeOf hprime ha]
            exact ⟨i, c, .add i c rest, fun _ => hd⟩
        · cases h
        · next subargs _ =>
            obtain ⟨i, c, rest, rfl, hprime, hlower, hupper, hd⟩ := getDeltaOfSum_spec h
            rw [(sort_sub.mp hb).1] at ha
            rw [eq_of_isPrimeOf hprime ha]
            refine ⟨i, -c, .sub i c rest, fun hne => ?_⟩
            have hint : toInt32 (-c) = -c := by
              apply Int.bmod_eq_of_le_mul_two
              · omega
              · omega
            rw [hd, hint]
        · split at h
          · next i hi =>
              split at h
              · next hprime =>
                  cases h
                  rw [eq_of_index hi, sort_var, vars.sort_var] at hb
                  rw [← hb] at ha
                  rw [eq_of_index hi, eq_of_isPrimeOf hprime ha]
                  exact ⟨i, 0, .keep i, fun _ => rfl⟩
              · cases h
          · cases h
  · cases h

/-- What the loop over all equations reads: for every variable the last update, and what was known
before if there is none. -/
theorem getDeltasBySyntax_spec {nonConds : List Expr} (hs : ∀ u ∈ nonConds, u.sort = some .bool)
    (h : getDeltasBySyntax vars nonConds d = some (true, d')) :
  (∀ u ∈ nonConds, ∃ i z, Update vars u i z) ∧
    ((∀ u ∈ nonConds, ∀ i z, Update vars u i z → Precise vars u i z) → ∀ i,
      (d' i = d i ∧ ∀ u ∈ nonConds, ∃ j ≠ i, ∃ z, Precise vars u j z) ∨
        ∃ z, d' i = some z ∧ ∃ u ∈ nonConds, Precise vars u i z)
  := by
  induction nonConds generalizing d with
  | nil =>
      cases h
      simp
  | cons u nonConds ih =>
      obtain ⟨⟨done, d₁⟩, hu, h⟩ := Option.bind_eq_some_iff.mp h
      cases done with
      | false => cases h
      | true =>
          obtain ⟨hsu, hs⟩ := List.forall_mem_cons.mp hs
          obtain ⟨j, z, hupdate, hd₁⟩ := getDeltaBySyntax_spec hsu hu
          obtain ⟨hall, hdeltas⟩ := ih hs h
          refine ⟨List.forall_mem_cons.mpr ⟨⟨j, z, hupdate⟩, hall⟩, fun hprecise i => ?_⟩
          have hj : Precise vars u j z := hprecise u List.mem_cons_self j z hupdate
          have hrest := hdeltas (fun v hv => hprecise v (List.mem_cons_of_mem u hv)) i
          rw [hd₁ hj.ne] at hrest
          rcases hrest with ⟨hi, hother⟩ | ⟨z', hi, v, hv, hz'⟩
          · by_cases hij : i = j
            · subst hij
              right
              exact ⟨z, by rw [hi, Function.update_self], u, List.mem_cons_self, hj⟩
            · left
              rw [hi, Function.update_of_ne hij]
              exact ⟨rfl, List.forall_mem_cons.mpr ⟨⟨j, Ne.symm hij, z, hj⟩, hother⟩⟩
          · right
            exact ⟨z', hi, v, List.mem_cons_of_mem u hv, hz'⟩

end Syntax

/-- There is one state to go to by some equations, and the syntax is read right. -/
theorem eq_add_of_getDeltasBySyntax {nonConds : List Expr} {d' : Deltas n}
    (hs : ∀ u ∈ nonConds, u.sort = some .bool)
    (h : getDeltasBySyntax vars nonConds (fun _ => none) = some (true, d'))
    (hprecise : ∀ u ∈ nonConds, ∀ i z, Update vars u i z → Precise vars u i z)
    (hunique : ∃! s', ∀ u ∈ nonConds, u.Holds (vars.pair M s s'))
    (hs' : ∀ u ∈ nonConds, u.Holds (vars.pair M s s')) :
  s' = s + fun i => (d' i).getD 0
  := by
  funext i
  rcases (getDeltasBySyntax_spec hs h).2 hprecise i with ⟨-, hother⟩ | ⟨z, hi, u, hu, hz⟩
  · -- a variable without an update could change
    have hchange : ∀ u ∈ nonConds, u.Holds (vars.pair M s (Function.update s' i (s' i + 1))) := by
      intro u hu
      obtain ⟨j, hj, z, hz⟩ := hother u hu
      rw [hz.holds_iff, Function.update_of_ne hj, ← hz.holds_iff M]
      apply hs' u hu
    have heq := congrFun (hunique.unique hs' hchange) i
    rw [Function.update_self] at heq
    omega
  · rw [Pi.add_apply, hi, Option.getD_some]
    apply (hz.holds_iff M s s').mp (hs' u hu)

section SMT

variable {S : Solver} {model : Quantified → Var → Option ℤ} {nonConds : List Expr}
  {δ : Fin n → ℤ}

theorem holds_base {d : Fin n → Expr} :
  (base vars d).Holds M ↔
    ∀ i, (Expr.eq (.var (prime (vars.var i))) (.add [.var (vars.var i), d i])).Holds M
  := by
  have hfold : ∀ (l : List (Fin n)) (e : Expr), (l.foldl (fun e i =>
      .and [e, .eq (.var (prime (vars.var i))) (.add [.var (vars.var i), d i])]) e).Holds M ↔
      e.Holds M ∧
        ∀ i ∈ l, (Expr.eq (.var (prime (vars.var i))) (.add [.var (vars.var i), d i])).Holds M := by
    intro l
    induction l with
    | nil => simp
    | cons i l ih =>
        intro e
        rw [List.foldl_cons, ih, holds_and_pair, List.forall_mem_cons, and_assoc]
  rw [base, hfold]
  simp

theorem sort_base {d : Fin n → Expr} (hd : ∀ i, (d i).sort = some .int) :
  (base vars d).sort = some .bool
  := by
  have hfold : ∀ (l : List (Fin n)) (e : Expr), e.sort = some .bool → (l.foldl (fun e i =>
      .and [e, .eq (.var (prime (vars.var i))) (.add [.var (vars.var i), d i])]) e).sort
        = some .bool := by
    intro l
    induction l with
    | nil => exact fun e he => he
    | cons i l ih =>
        intro e he
        apply ih
        simp [he, hd, prime, vars.sort_var]
  apply hfold
  rfl

/-- The last check finds that the equations lead nowhere else. -/
theorem eq_add_of_getDeltaBySMT (hS : S.Correct) (hcopied : vars.Copied)
    (hs : ∀ u ∈ nonConds, u.sort = some .bool)
    (h : getDeltaBySMT S vars model nonConds = some δ)
    (hs' : ∀ u ∈ nonConds, u.Holds (vars.pair M s s')) :
  s' = s + δ
  := by
  simp only [getDeltaBySMT, ne_eq, ite_not] at h
  split at h
  · split at h
    · obtain ⟨r, -, h⟩ := Option.bind_eq_some_iff.mp h
      split at h
      · next hcheck =>
          have hδ : δ = r := by
            funext i
            apply (fits_of_parseInt (Region.results_spec h i)).1
          have hmoved : (base vars fun i => .num (r i)).sort = some .bool :=
            sort_base fun _ => rfl
          have hsort : (Quantified.qf (.and (nonConds ++
              [.not (base vars fun i => .num (r i))]))).WellSorted :=
            sort_and.mpr ⟨rfl, List.forall_mem_append.mpr ⟨hs, by simp [hmoved]⟩⟩
          have hbase : (base vars fun i => .num (r i)).Holds (vars.pair M s s') := by
            by_contra hne
            apply (hS.unsat hsort).mp hcheck
            use vars.pair M s s'
            rw [Quantified.holds_qf, holds_and, List.forall_mem_append]
            exact ⟨hs', by simp [hne]⟩
          funext i
          rw [hδ]
          apply (holds_update hcopied i (r i)).mp (holds_base.mp hbase i)
      · cases h
    · cases h
  · cases h

/-- There is one state to go to by the atoms with primed variables, and where their syntax is read
it is read right. -/
theorem eq_add_of_getDeltas (hS : S.Correct) (hcopied : vars.Copied)
    (hs : ∀ u ∈ nonConds, u.sort = some .bool) (h : getDeltas S vars model nonConds = some δ)
    (hprecise : (∀ u ∈ nonConds, ∃ i z, Update vars u i z) →
      ∀ u ∈ nonConds, ∀ i z, Update vars u i z → Precise vars u i z)
    (hunique : ∃! s', ∀ u ∈ nonConds, u.Holds (vars.pair M s s'))
    (hs' : ∀ u ∈ nonConds, u.Holds (vars.pair M s s')) :
  s' = s + δ
  := by
  obtain ⟨⟨done, d'⟩, hsyntax, h⟩ := Option.bind_eq_some_iff.mp h
  cases done with
  | false => exact eq_add_of_getDeltaBySMT hS hcopied hs h hs'
  | true =>
      cases h
      have hall := (getDeltasBySyntax_spec hs hsyntax).1
      exact eq_add_of_getDeltasBySyntax hs hsyntax (hprecise hall) hunique hs'

end SMT

/-! ### Transitions -/

/-- A disjunct that is read as it is. -/
structure Readable (vars : Variables n) (conj : Expr) : Prop where
  conditions : ∀ c ∈ conditions conj, Region.ReadCond vars c
  unique : ∀ M s, (∀ c ∈ Invariant.conditions conj, c.Holds (vars.model M s)) →
    ∃! s', ∀ u ∈ updates conj, u.Holds (vars.pair M s s')
  precise : (∀ u ∈ updates conj, ∃ i z, Update vars u i z) →
    ∀ u ∈ updates conj, ∀ i z, Update vars u i z → Precise vars u i z

section Formula

variable {S : Solver} {model : Quantified → Var → Option ℤ} {conj formula : Expr} {t : Transf n}
  {l : List (Region n × UniTrans n)}

theorem holds_conj_pair (conj : Expr) :
  conj.Holds (vars.pair M s s') ↔
    (∀ c ∈ conditions conj, c.Holds (vars.model (vars.primed.model M s') s)) ∧
      ∀ u ∈ updates conj, u.Holds (vars.pair M s s')
  := holds_conj conj

/-- The steps that are read for a disjunct with readable conditions: the same update in all states
that meet them. -/
theorem exists_steps (hS : S.Correct) (hsort : conj.sort = some .bool)
    (hconditions : ∀ c ∈ conditions conj, Region.ReadCond vars c)
    (h : fromDisjunct S vars model conj = some l) :
  ∃ nonConds δ, (∀ u, u ∈ nonConds ↔ u ∈ updates conj) ∧
    getDeltas S vars model nonConds = some δ ∧
    ∀ M s s', (∃ p ∈ l, p.1.Contains s ∧ s' = s + p.2.deltaTbl) ↔
      (∀ c ∈ conditions conj, c.Holds (vars.model M s)) ∧ s' = s + δ
  := by
  obtain ⟨⟨regions, nonConds⟩, hconj, h⟩ := Option.bind_eq_some_iff.mp h
  obtain ⟨δ, hδ, h⟩ := Option.bind_eq_some_iff.mp h
  obtain ⟨hupdates, hne, hregions⟩ := Region.fromConj_spec hS hsort hconj hconditions
  refine ⟨nonConds, δ, hupdates, hδ, fun M s s' => ?_⟩
  rw [if_neg hne] at h
  rw [← Option.some.inj h, ← hregions M s]
  simp only [List.mem_map, exists_exists_and_eq_and]
  constructor
  · rintro ⟨r, hr, hcontains, hs'⟩
    exact ⟨⟨r, hr, hcontains⟩, hs'⟩
  · rintro ⟨⟨r, hr, hcontains⟩, hs'⟩
    exact ⟨r, hr, hcontains, hs'⟩

/-- The steps that are read for a readable disjunct are those in which it holds. -/
theorem fromDisjunct_spec (hS : S.Correct) (hcopied : vars.Copied) (hsort : conj.sort = some .bool)
    (hread : Readable vars conj) (h : fromDisjunct S vars model conj = some l) (M : Model)
    (s s' : State n) :
  (∃ p ∈ l, p.1.Contains s ∧ s' = s + p.2.deltaTbl) ↔ conj.Holds (vars.pair M s s')
  := by
  obtain ⟨nonConds, δ, hupdates, hδ, hsteps⟩ := exists_steps hS hsort hread.conditions h
  -- the primed variables do not matter for the conditions
  rw [hsteps (vars.primed.model M s') s s', holds_conj_pair]
  apply and_congr_right
  intro hs
  have hsorts : ∀ u ∈ nonConds, u.sort = some .bool := by
    intro u hu
    obtain ⟨hu, -⟩ := List.mem_filter.mp ((hupdates u).mp hu)
    apply sort_conjuncts hsort hu
  have hunique := hread.unique _ s hs
  rw [Variables.pair_primed] at hunique
  simp only [← hupdates] at hunique ⊢
  have hforces : ∀ s'', (∀ u ∈ nonConds, u.Holds (vars.pair M s s'')) → s'' = s + δ :=
    fun s'' => eq_add_of_getDeltas hS hcopied hsorts hδ
      (by simpa only [hupdates] using hread.precise) hunique
  constructor
  · intro heq
    obtain ⟨s'', hs'', -⟩ := hunique
    rw [heq, ← hforces s'' hs'']
    apply hs''
  · apply hforces

/-- Where the atoms are read as they are, a disjunct is read right just if it leaves one state to
go to from each state that meets its conditions. -/
theorem fromDisjunct_iff (hS : S.Correct) (hcopied : vars.Copied) (hsort : conj.sort = some .bool)
    (hconditions : ∀ c ∈ conditions conj, Region.ReadCond vars c)
    (hprecise : (∀ u ∈ updates conj, ∃ i z, Update vars u i z) →
      ∀ u ∈ updates conj, ∀ i z, Update vars u i z → Precise vars u i z)
    (h : fromDisjunct S vars model conj = some l) :
  (∀ M s s', (∃ p ∈ l, p.1.Contains s ∧ s' = s + p.2.deltaTbl) ↔ conj.Holds (vars.pair M s s')) ↔
    ∀ M s, (∀ c ∈ conditions conj, c.Holds (vars.model M s)) →
      ∃! s', ∀ u ∈ updates conj, u.Holds (vars.pair M s s')
  := by
  constructor
  · intro hiff M s hs
    obtain ⟨nonConds, δ, -, -, hsteps⟩ := exists_steps hS hsort hconditions h
    have hl : ∃ p ∈ l, p.1.Contains s ∧ s + δ = s + p.2.deltaTbl :=
      (hsteps M s (s + δ)).mpr ⟨hs, rfl⟩
    have hall : ∀ M', ∀ c ∈ conditions conj, c.Holds (vars.model M' s) :=
      fun M' => ((hsteps M' s (s + δ)).mp hl).1
    have hstep : ∀ s', (∀ u ∈ updates conj, u.Holds (vars.pair M s s')) ↔ s' = s + δ := by
      intro s'
      have heq := (hiff M s s').symm.trans (hsteps (vars.primed.model M s') s s')
      rw [holds_conj_pair] at heq
      exact and_congr_right_iff.mp heq (hall _)
    exact ⟨s + δ, (hstep _).mpr rfl, fun s' hs' => (hstep s').mp hs'⟩
  · intro hunique M s s'
    apply fromDisjunct_spec hS hcopied hsort ⟨hconditions, hunique, hprecise⟩ h

/-- The transition that is read holds of the same pairs of states as the formula, if all its
disjuncts are readable. -/
theorem holds_fromTransfFormula (hS : S.Correct) (hcopied : vars.Copied)
    (hsort : formula.sort = some .bool)
    (hread : ∀ conj ∈ splitDisj formula, Readable vars conj)
    (h : fromTransfFormula S vars model formula = some t) (M : Model) (s s' : State n) :
  t.toExpr.Holds (vars.pair M s s') ↔ formula.Holds (vars.pair M s s')
  := by
  obtain ⟨-, -, h⟩ := Option.bind_eq_some_iff.mp h
  obtain ⟨transMap, htransMap, h⟩ := Option.bind_eq_some_iff.mp h
  have hall := forall₂_of_mapM (R := fun conj l =>
      (∃ p ∈ l, p.1.Contains s ∧ s' = s + p.2.deltaTbl) ↔ conj.Holds (vars.pair M s s'))
    htransMap fun conj hconj l hl => fromDisjunct_spec hS hcopied (sort_disjuncts hsort hconj)
      (hread conj hconj) hl M s s'
  have hdisj := exists_getArgsList (dual_holds (vars.pair M s s')) formula
  have hiff := exists_iff_of_forall₂ hall fun _ _ h => h
  have hstep : (Transf.mk vars transMap.flatten none).Step s s' ↔
      ∃ l ∈ transMap, ∃ p ∈ l, p.1.Contains s ∧ s' = s + p.2.deltaTbl := by
    constructor
    · rintro ⟨p, hp, hstep⟩
      obtain ⟨l, hl, hpl⟩ := List.mem_flatten.mp hp
      exact ⟨l, hl, p, hpl, hstep⟩
    · rintro ⟨l, hl, p, hpl, hstep⟩
      exact ⟨p, List.mem_flatten.mpr ⟨l, hl, hpl⟩, hstep⟩
  rw [← Option.some.inj h]
  calc
    _ ↔ (Transf.mk vars transMap.flatten none).Step s s' := holds_toExpr hcopied
    _ ↔ _ := hstep
    _ ↔ _ := hiff
    _ ↔ _ := hdisj

end Formula

/-! ### A counter, and a condition that is negated twice -/

/-- Evaluate integer expressions without variables and function symbols. -/
def foldConstant (e : Expr) : Expr :=
  if e.sort = some .int ∧ e.vars = [] ∧ e.funcs = [] then .num (e.intVal zeroModel) else e

/-- The ideal solver, with constants folded. -/
noncomputable def folding : Solver := { Solver.ideal with simplify := foldConstant }

theorem preserves_foldConstant (e : Expr) :
  Preserves e (foldConstant e)
  := by
  unfold foldConstant
  split
  · next h =>
      obtain ⟨hsort, hvars, hfuncs⟩ := h
      intro s hs
      rw [hsort] at hs
      cases hs
      refine ⟨rfl, fun M => ?_⟩
      rw [eval_num, ← eval_of_int hsort]
      apply eval_congr
      · simp [hvars]
      · simp [hfuncs]
  · apply Preserves.refl e

theorem folding_correct :
  folding.Correct
  := by
  have h := Solver.ideal_correct
  exact ⟨h.sat, h.unsat, h.qe, preserves_foldConstant, h.fresh, h.sort_fresh⟩

theorem copied_oneVariable :
  oneVariable.Copied
  := by
  intro i j
  simp [oneVariable, prime]

/-- Count `i` up, from zero on. -/
def countUp : Expr :=
  .and [.ge (.var ⟨"i", .int⟩) (.num 0),
    .eq (.var ⟨"i!", .int⟩) (.add [.var ⟨"i", .int⟩, .num 1])]

/-- The counter, with its condition negated twice. -/
def countUpTwiceNegated : Expr :=
  .and [.not (.not (.ge (.var ⟨"i", .int⟩) (.num 0))),
    .eq (.var ⟨"i!", .int⟩) (.add [.var ⟨"i", .int⟩, .num 1])]

theorem readable_countUp :
  Readable oneVariable countUp
  := by
  have hconditions : conditions countUp = [.ge (.var ⟨"i", .int⟩) (.num 0)] := rfl
  have hupdates : updates countUp
      = [.eq (.var ⟨"i!", .int⟩) (.add [.var ⟨"i", .int⟩, .num 1])] := rfl
  have hprecise : Precise oneVariable
      (.eq (.var ⟨"i!", .int⟩) (.add [.var ⟨"i", .int⟩, .num 1])) 0 1 :=
    precise_add copied_oneVariable 0 (by decide)
  constructor
  · rw [hconditions, List.forall_mem_singleton]
    refine .compare (by simp) (Region.linear_of_value (f := ⟨1, 0⟩) (g := ⟨0, 0⟩) rfl rfl ?_ ?_)
    · intro M
      funext s
      have hvar : oneVariable.value M (.var ⟨"i", .int⟩) s = s 0 :=
        congrFun Variables.state_model 0
      simp [hvar, Cond.value]
    · intro M
      funext s
      simp [Variables.value, Cond.value]
  · intro M s _
    rw [hupdates]
    simp only [List.forall_mem_singleton, hprecise.holds_iff]
    refine ⟨fun _ => s 0 + 1, rfl, fun s' hs' => ?_⟩
    funext i
    rw [Subsingleton.elim i 0, hs']
  · intro _
    rw [hupdates, List.forall_mem_singleton]
    intro i z h
    generalize hu : Expr.eq (.var ⟨"i!", .int⟩) (.add [.var ⟨"i", .int⟩, .num 1]) = u at h
    cases h with
    | keep i => simp at hu
    | sub i c rest => simp at hu
    | add i c rest =>
        simp only [Expr.app.injEq, List.cons.injEq, Expr.num.injEq, true_and, and_true] at hu
        obtain ⟨-, -, rfl, rfl⟩ := hu
        apply precise_add copied_oneVariable i (by decide)

theorem holds_fromTransfFormula_countUp :
  ∃ t, fromTransfFormula folding oneVariable (fun _ _ => none) countUp = some t ∧
    ∀ M s s', t.toExpr.Holds (oneVariable.pair M s s') ↔ countUp.Holds (oneVariable.pair M s s')
  := by
  have hsplit : splitDisj countUp = [countUp] := rfl
  have hloop : Region.conjLoop [countUp] [] []
      = some ([.eq (.var ⟨"i!", .int⟩) (.add [.var ⟨"i", .int⟩, .num 1])],
        [.ge (.var ⟨"i", .int⟩) (.num 0)]) := by
    simp [countUp, Region.conjLoop, isAtom, Region.hasPrime, Region.hasPrimeAny, Reduce.isPrimed]
  have hsome : (fromTransfFormula folding oneVariable (fun _ _ => none) countUp).isSome := by
    rw [fromTransfFormula, hsplit]
    simp only [List.mapM_cons, fromDisjunct, Region.fromConj, hloop]
    decide
  obtain ⟨t, ht⟩ := Option.isSome_iff_exists.mp hsome
  refine ⟨t, ht, holds_fromTransfFormula folding_correct copied_oneVariable rfl ?_ ht⟩
  rw [hsplit, List.forall_mem_singleton]
  apply readable_countUp

/-- The condition is read as its negation. -/
theorem not_holds_fromTransfFormula_twiceNegated :
  ∃ t M s s', fromTransfFormula folding oneVariable (fun _ _ => none) countUpTwiceNegated = some t ∧
    countUpTwiceNegated.Holds (oneVariable.pair M s s') ∧ ¬t.toExpr.Holds (oneVariable.pair M s s')
  := by
  have hsplit : splitDisj countUpTwiceNegated = [countUpTwiceNegated] := rfl
  have hloop : Region.conjLoop [countUpTwiceNegated] [] []
      = some ([.eq (.var ⟨"i!", .int⟩) (.add [.var ⟨"i", .int⟩, .num 1])],
        [.not (.not (.ge (.var ⟨"i", .int⟩) (.num 0)))]) := by
    simp [countUpTwiceNegated, Region.conjLoop, isAtom, Region.hasPrime, Region.hasPrimeAny,
      Reduce.isPrimed]
  have hread : (fromTransfFormula folding oneVariable (fun _ _ => none) countUpTwiceNegated).map
      (fun t => decide (t.toExpr.Holds (oneVariable.pair zeroModel (fun _ => 0) fun _ => 1)))
        = some false := by
    rw [fromTransfFormula, hsplit]
    simp only [List.mapM_cons, fromDisjunct, Region.fromConj, hloop]
    decide
  obtain ⟨t, ht, hfalse⟩ := Option.map_eq_some_iff.mp hread
  exact ⟨t, zeroModel, fun _ => 0, fun _ => 1, ht, by decide, of_decide_eq_false hfalse⟩

end Transf

end Sygus.Invariant
