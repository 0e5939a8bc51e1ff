import DryadSynth.General.Derivations
import DryadSynth.Library.Lists

/-!
# What the generated formulas and expressions mean

The formula for the variables of a vector holds of the vectors that encode a derivation
(`generateValid_spec`), and the generated expression has, on such a vector, the value of the
expression that is read off it.  On a division of the vector the guard checks all arguments but the
last; since no encoding goes on after another one, it still finds the right division.
-/

namespace Sygus.Encoding

open LIA DnC Divisions

/-- The numbers that the variables of a vector stand for. -/
def entries (M : Model) (vars : List Var) : List ℤ := vars.map fun v => (M.value v).toInt

/-- The formula tests the numbers of a vector. -/
structure Tests (φ : Expr) (vars : List Var) (P : List ℤ → Prop) : Prop where
  sort : φ.sort = some .bool
  holds : ∀ M, φ.Holds M ↔ P (entries M vars)

theorem Tests.congr {φ : Expr} {vars : List Var} {P Q : List ℤ → Prop} (h : Tests φ vars P)
    (hPQ : ∀ M, P (entries M vars) ↔ Q (entries M vars)) :
  Tests φ vars Q
  := ⟨h.sort, fun M => (h.holds M).trans (hPQ M)⟩

namespace Expand

/-- A vector of variables that the internal ones can stand for. -/
structure IsVector (x : Expand) (d : ℕ) (vars : List Var) : Prop where
  ne_nil : vars ≠ []
  length_le : vars.length ≤ d
  length_it : vars.length ≤ x.it.length
  sort : ∀ v ∈ vars, v.sort = .int

/-! ### Instantiation -/

section Instantiate

variable {x : Expand} {d : ℕ} {vars : List Var} {φ e : Expr} {P : List ℤ → Prop}

theorem IsVector.internal (hx : x.WellFormed) (h : x.IsVector d vars) :
  x.IsVector d (x.it.take vars.length)
  := by
  have hlength : (x.it.take vars.length).length = vars.length := List.length_take_of_le h.length_it
  constructor
  · rw [← List.length_pos_iff, hlength, List.length_pos_iff]
    apply h.ne_nil
  · rw [hlength]
    apply h.length_le
  · rw [hlength]
    apply h.length_it
  · intro v hv
    apply hx.it v (List.mem_of_mem_take hv)

theorem Asked.internal {N : String} (hasked : x.Asked N vars.length) (h : x.IsVector d vars) :
  x.Asked N (x.it.take vars.length).length
  := by rwa [List.length_take_of_le h.length_it]

theorem IsVector.mono {d' : ℕ} (h : x.IsVector d vars) (hd : d ≤ d') :
  x.IsVector d' vars
  := ⟨h.ne_nil, h.length_le.trans hd, h.length_it, h.sort⟩

theorem IsVector.self (h : x.IsVector d vars) :
  x.IsVector vars.length vars
  := ⟨h.ne_nil, le_rfl, h.length_it, h.sort⟩

theorem IsVector.part {v : Var} {tail p : List Var} (h : x.IsVector (d + 1) (v :: tail))
    (hne : p ≠ []) (hp : p.Sublist tail) :
  x.IsVector d p
  := by
  have hle := hp.length_le
  have hd := h.length_le
  have hit := h.length_it
  rw [List.length_cons] at hd hit
  constructor
  · exact hne
  · omega
  · omega
  · intro v hv
    apply h.sort v (List.mem_cons_of_mem _ (hp.subset hv))

theorem IsVector.sorts (hx : x.WellFormed) (h : x.IsVector d vars) :
  vars.map Var.sort = (x.it.take vars.length).map Var.sort
  := by
  have hreplicate : ∀ l : List Var, (∀ v ∈ l, v.sort = .int) →
      l.map Var.sort = List.replicate l.length .int := by
    intro l hl
    rw [List.eq_replicate_iff]
    exact ⟨List.length_map _, by simpa using hl⟩
  rw [hreplicate vars h.sort, hreplicate _ (h.internal hx).sort, List.length_take_of_le h.length_it]

theorem IsVector.sorts_var (hx : x.WellFormed) (h : x.IsVector d vars) :
  (vars.map Expr.var).map Expr.sort = (x.it.take vars.length).map fun v => some v.sort
  := by
  have hsome := congrArg (List.map some) (h.sorts hx)
  rw [List.map_map, List.map_map] at hsome
  rw [List.map_map]
  apply hsome

/-- The variables of a vector, written for the internal ones, give them their values. -/
theorem exists_model_instantiate (hx : x.WellFormed) (h : x.IsVector d vars) (M : Model) :
  ∃ M', entries M' (x.it.take vars.length) = entries M vars ∧ AgreeOff x.it M M' ∧
    ∀ e : Expr, (x.instantiate e vars).eval M = e.eval M'
  := by
  have hcons : Fits (x.it.take vars.length) (M.values vars) := by
    rw [Fits, ← h.sorts hx]
    apply fits_values
  refine ⟨M.bind (x.it.take vars.length) (M.values vars), ?_, ⟨rfl, ?_⟩, ?_⟩
  · have hvalues := values_bind (M := M) (hx.nodup_it.sublist (List.take_sublist _ _)) hcons
    have htoInt := congrArg (List.map Value.toInt) hvalues
    rw [Model.values, Model.values, List.map_map, List.map_map] at htoInt
    apply htoInt
  · intro v hv
    apply var_bind_of_not_mem
    intro hmem
    apply hv (List.mem_of_mem_take hmem)
  · intro e
    rw [instantiate, eval_substitute (h.sorts_var hx), eval_map_var]

theorem Tests.instantiate (hx : x.WellFormed) (h : x.IsVector d vars)
    (hφ : Tests φ (x.it.take vars.length) P) :
  Tests (x.instantiate (x.simplify φ) vars) vars P
  := by
  obtain ⟨hsort, heval⟩ := hx.simplify φ .bool hφ.sort
  constructor
  · apply sort_substitute (h.sorts_var hx) hsort
  · intro M
    obtain ⟨M', hentries, -, hinst⟩ := exists_model_instantiate hx h M
    rw [Expr.Holds, hinst, heval, ← hentries]
    apply hφ.holds

theorem vars_of_lookup {e' : Expr}
    (h : (((x.it.take vars.length).map Expr.var).zip (vars.map .var)).reverse.lookup e = some e') :
  ∃ v v', e = .var v ∧ e' = .var v'
  := by
  obtain ⟨v, rfl, -⟩ := eq_var_of_lookup h
  have hmem := List.mem_reverse.mp (mem_of_lookup h)
  obtain ⟨v', -, rfl⟩ := List.mem_map.mp (List.of_mem_zip hmem).2
  exact ⟨v, v', rfl, rfl⟩

/-- Whether a formula is false does not depend on the variables. -/
theorem instantiate_eq_fls :
  x.instantiate e vars = .fls ↔ e = .fls
  := by
  unfold instantiate Expr.substitute
  generalize hσ : (fun e : Expr => (((x.it.take vars.length).map Expr.var).zip
    (vars.map Expr.var)).reverse.lookup e) = σ
  cases h : σ e with
  | some e' =>
      rw [← hσ] at h
      obtain ⟨v, v', rfl, rfl⟩ := vars_of_lookup h
      rw [Expr.replace, ← hσ, h]
      simp
  | none =>
      cases e with
      | num n => rw [Expr.replace, h, Option.getD_none]
      | var v => rw [Expr.replace, h, Option.getD_none]
      | app o args =>
          rw [Expr.replace, h, Option.getD_none]
          cases args <;> simp [Expr.replaceAll, Expr.fls]

end Instantiate

/-! ### The formula -/

section Valid

variable {x : Expand} {d i : ℕ} {N : String} {r : Rule} {v : Var} {vars tail : List Var}
  {valid : String → List Var → Expr} {Q : List ℤ → Prop}

theorem entries_cons (M : Model) :
  entries M (v :: tail) = (M.value v).toInt :: entries M tail
  := rfl

theorem length_entries (M : Model) (vars : List Var) :
  (entries M vars).length = vars.length
  := List.length_map _

theorem tests_fls {P : List ℤ → Prop} (h : ∀ M, ¬ P (entries M vars)) :
  Tests .fls vars P
  := ⟨by simp, fun M => iff_of_false not_holds_fls (h M)⟩

theorem tests_type (hv : v.sort = .int) (h : ∀ M, Q (entries M tail)) :
  Tests (.eq (.var v) (.num i)) (v :: tail) fun w => ∃ ws, w = (i : ℤ) :: ws ∧ Q ws
  := by
  constructor
  · rw [sort_eq]
    exact ⟨rfl, .int, by rw [sort_var, hv], rfl⟩
  · intro M
    rw [holds_var_eq_num hv, entries_cons]
    constructor
    · intro hnum
      exact ⟨_, by rw [hnum], h M⟩
    · rintro ⟨ws, hcons, -⟩
      exact (List.cons.inj hcons).1

theorem tests_and (hv : v.sort = .int) {φ : Expr} (h : Tests φ tail Q) :
  Tests (.and [.eq (.var v) (.num i), φ]) (v :: tail) fun w => ∃ ws, w = (i : ℤ) :: ws ∧ Q ws
  := by
  have htype : Tests (.eq (.var v) (.num i)) (v :: tail) fun w => ∃ ws, w = (i : ℤ) :: ws ∧ True :=
    tests_type hv fun _ => trivial
  constructor
  · simp [htype.sort, h.sort]
  · intro M
    rw [holds_and_pair, htype.holds, h.holds, entries_cons]
    simp

theorem entries_cut (M : Model) (tail : List Var) (ds : List ℕ) :
  cut (entries M tail) 0 ds = (cut tail 0 ds).map (entries M)
  := cut_map _ tail 0 ds

/-- The parts of a vector are shorter vectors. -/
theorem IsVector.of_mem_cut (hvars : x.IsVector (d + 1) (v :: tail)) (htail : tail ≠ []) {k : ℕ}
    {ds : List ℕ} (hds : ds ∈ combine k 1 (tail.length - 1)) {p : List Var}
    (hp : p ∈ cut tail 0 ds) :
  x.IsVector d p
  := by
  obtain ⟨-, hne, hflat⟩ := cut_spec htail hds
  have hsub := List.sublist_flatten_of_mem hp
  rw [hflat] at hsub
  apply hvars.part (hne p hp) hsub

/-- The arguments of a call are considered at the lengths of the parts of a division. -/
theorem Asked.cut (hasked : x.Asked N (v :: tail).length) (hrule : x.RuleOf N i r)
    (hfunc : x.problem.resolveSyb r.termSyb = some .func) (htail : tail ≠ []) {k : ℕ}
    (hargs : r.args.length = k + 1) {ds : List ℕ} (hds : ds ∈ combine k 1 (tail.length - 1)) :
  ∀ a ∈ r.args.zip (cut tail 0 ds), x.Asked a.1 a.2.length
  := by
  obtain ⟨hlength, hne, hflat⟩ := cut_spec htail hds
  apply hasked.parts hrule hfunc (hlength.trans hargs.symm) hne
  rw [hflat, List.length_cons]

/-- The only argument of a call is considered at the length of all that follows the number. -/
theorem Asked.only (hasked : x.Asked N (v :: tail).length) (hrule : x.RuleOf N i r)
    (hfunc : x.problem.resolveSyb r.termSyb = some .func) (htail : tail ≠ []) {a : String}
    (hargs : r.args = [a]) :
  x.Asked a tail.length
  := by
  apply Asked.arg hasked hrule hfunc
  · rw [hargs]
    apply List.mem_singleton_self
  · apply List.length_pos_iff.mpr htail
  · rw [hargs]
    rfl
  · intro _
    rfl

/-- The formula for arguments on all divisions of the vector. -/
theorem tests_divisions (hvars : x.IsVector (d + 1) (v :: tail)) (htail : tail ≠ [])
    (hvalid : ∀ N vars, x.Asked N vars.length → x.IsVector d vars →
      Tests (valid N vars) vars (x.Encodes N))
    {args : List String} {k : ℕ} (hargs : args.length = k + 1)
    (hasked : ∀ ds ∈ combine k 1 (tail.length - 1), ∀ a ∈ args.zip (cut tail 0 ds),
      x.Asked a.1 a.2.length) :
  Tests (.or ((combine k 1 (tail.length - 1)).map fun division =>
      .and ((args.zip (cut tail 0 division)).map fun a => valid a.1 a.2))) tail
    fun ws => ∃ ps, List.Forall₂ x.Encodes args ps ∧ ps.flatten = ws
  := by
  have hpart : ∀ ds ∈ combine k 1 (tail.length - 1), ∀ a ∈ args.zip (cut tail 0 ds),
      Tests (valid a.1 a.2) a.2 (x.Encodes a.1) := fun ds hds a ha =>
    hvalid _ _ (hasked ds hds a ha) (hvars.of_mem_cut htail hds (List.of_mem_zip ha).2)
  constructor
  · simp only [sort_or, true_and, List.mem_map, forall_exists_index, and_imp,
      forall_apply_eq_imp_iff₂, sort_and]
    intro ds hds a ha
    apply (hpart ds hds a ha).sort
  · intro M
    have hentries : entries M tail ≠ [] := by simpa [entries] using htail
    have hlength := length_entries M tail
    simp only [holds_or, List.mem_map, exists_exists_and_eq_and, holds_and, forall_exists_index,
      and_imp, forall_apply_eq_imp_iff₂]
    have hds : ∀ ds ∈ combine k 1 (tail.length - 1),
        (∀ a ∈ args.zip (cut tail 0 ds), (valid a.1 a.2).Holds M)
          ↔ List.Forall₂ x.Encodes args (cut (entries M tail) 0 ds) := by
      intro ds hds
      rw [entries_cut, List.forall₂_map_right_iff, List.forall₂_iff_zip]
      constructor
      · intro hall
        refine ⟨by rw [hargs, (cut_spec htail hds).1], fun {a p} ha => ?_⟩
        apply ((hpart ds hds (a, p) ha).holds M).mp (hall (a, p) ha)
      · rintro ⟨-, hall⟩ a ha
        apply ((hpart ds hds a ha).holds M).mpr (hall ha)
    constructor
    · rintro ⟨ds, hmem, hall⟩
      refine ⟨_, (hds ds hmem).mp hall, ?_⟩
      rw [← hlength] at hmem
      apply (cut_spec hentries hmem).2.2
    · rintro ⟨ps, hps, hflat⟩
      have hne : ∀ p ∈ ps, p ≠ [] := by
        intro p hp
        obtain ⟨i, hi, rfl⟩ := List.mem_iff_getElem.mp hp
        apply (hps.get (hps.length_eq ▸ hi) hi).ne_nil
      obtain ⟨ds, hmem, rfl⟩ := exists_cut_eq hentries (hps.length_eq.symm.trans hargs) hne hflat
      rw [hlength] at hmem
      exact ⟨ds, hmem, (hds ds hmem).mpr hps⟩

/-- No vector of this length can follow. -/
theorem tests_length (h : ∀ ws, x.Follows r ws → ws.length ≠ tail.length) :
  Tests .fls (v :: tail) fun w => ∃ ws, w = (i : ℤ) :: ws ∧ x.Follows r ws
  := by
  apply tests_fls
  rintro M ⟨ws, hcons, hws⟩
  rw [entries_cons] at hcons
  apply h ws hws
  rw [← (List.cons.inj hcons).2, length_entries]

/-- Nothing follows the number of a production that is a name or a number. -/
theorem tests_name (hv : v.sort = .int) (hfollows : ∀ ws, x.Follows r ws ↔ ws = []) :
  Tests (if tail = [] then .eq (.var v) (.num i) else .fls) (v :: tail)
    fun w => ∃ ws, w = (i : ℤ) :: ws ∧ x.Follows r ws
  := by
  split
  · next h =>
      subst h
      apply tests_type hv fun _ => (hfollows _).mpr rfl
  · next h =>
      apply tests_length
      intro ws hws hlength
      rw [(hfollows ws).mp hws] at hlength
      apply h (List.length_eq_zero_iff.mp hlength.symm)

/-- A number follows. -/
theorem tests_cstint (hv : v.sort = .int) (hfollows : ∀ ws, x.Follows r ws ↔ ws.length = 1) :
  Tests (if tail.length = 1 then .eq (.var v) (.num i) else .fls) (v :: tail)
    fun w => ∃ ws, w = (i : ℤ) :: ws ∧ x.Follows r ws
  := by
  split
  · next h =>
      apply tests_type hv
      intro M
      rw [hfollows, length_entries, h]
  · next h =>
      apply tests_length
      intro ws hws hlength
      apply h (hlength.symm.trans ((hfollows ws).mp hws))

/-- The number of a truth value follows. -/
theorem tests_cstbol {value : Var} (hv : v.sort = .int) (hvalue : value.sort = .int)
    (hfollows : ∀ ws, x.Follows r ws ↔ ws = [0] ∨ ws = [1]) :
  Tests (.and [.eq (.var v) (.num i), .or [.eq (.var value) (.num 0), .eq (.var value) (.num 1)]])
    [v, value] fun w => ∃ ws, w = (i : ℤ) :: ws ∧ x.Follows r ws
  := by
  apply tests_and hv
  constructor
  · simp [hvalue]
  · intro M
    rw [holds_or_pair, holds_var_eq_num hvalue, holds_var_eq_num hvalue, hfollows]
    simp [entries]

/-- A production is false of the vectors it is not considered for. -/
theorem validBody_of_not_considers (hrule : x.problem.ruleTbl[i]? = some r)
    (hcons : ¬ x.Considers r (tail.length + 1)) :
  x.validBody valid i (v :: tail) = some .fls
  := by
  unfold Considers at hcons
  push Not at hcons
  obtain ⟨hconst, hleaf, hcall⟩ := hcons
  unfold validBody
  simp only [hrule]
  split
  · rfl
  · split
    · next hint =>
        have hlt := hconst (.inl hint)
        rw [if_neg (by omega)]
    · split
      · next hbool =>
          have hlt := hconst (.inr (.inl hbool))
          rcases tail with _ | ⟨a, _ | ⟨b, tail⟩⟩
          · rfl
          · simp at hlt
          · rfl
      · split
        · rfl
        · next hle =>
            split
            · next hargs =>
                have hne := hleaf hargs
                rw [if_neg]
                rintro rfl
                exact hne rfl
            · next hargs =>
                have hlt := hcall (by simp [hargs])
                omega
            · next hargs hargs' =>
                have hlt := hcall hargs
                omega

theorem considers_of_validBody (hrule : x.problem.ruleTbl[i]? = some r)
    (hvalid : x.validBody valid i (v :: tail) ≠ some .fls) :
  x.Considers r (tail.length + 1)
  := by
  by_contra hcons
  apply hvalid (validBody_of_not_considers hrule hcons)

theorem validBody_spec (hx : x.WellFormed) (hasked : x.Asked N vars.length)
    (hrule : x.RuleOf N i r) (hvars : x.IsVector (d + 1) vars)
    (hvalid : ∀ N vars, x.Asked N vars.length → x.IsVector d vars →
      Tests (valid N vars) vars (x.Encodes N)) :
  ∃ φ, x.validBody valid i vars = some φ ∧
    Tests φ vars fun w => ∃ ws, w = (i : ℤ) :: ws ∧ x.Follows r ws
  := by
  obtain ⟨v, tail, rfl⟩ := List.exists_cons_of_ne_nil hvars.ne_nil
  obtain ⟨hv, htail⟩ := List.forall_mem_cons.mp hvars.sort
  by_cases hcons : x.Considers r (tail.length + 1)
  swap
  · refine ⟨_, validBody_of_not_considers hrule.rule hcons, tests_length ?_⟩
    intro ws hws hlength
    apply hcons
    rw [← hlength]
    apply hws.considers
  unfold validBody
  cases hx.rules N _ i r hasked hrule hcons with
  | @number s n hsyb hint hbool hparse _ =>
      refine ⟨_, ?_, tests_name hv fun ws => ?_⟩
      · rcases hsyb with hsyb | hsyb <;> simp [hrule.rule, hsyb, hint, hbool]
      · rw [follows_leaf rfl (by rcases hsyb with hsyb | hsyb <;> simp [hsyb])]
        rcases hsyb with hsyb | hsyb <;> cases ws <;> simp [leaf, hsyb, hparse]
  | glbvar hsyb hint hbool hvar _ _ =>
      refine ⟨_, ?_, tests_name hv fun ws => ?_⟩
      · simp [hrule.rule, hsyb, hint, hbool]
      · rw [follows_leaf rfl (by simp [hsyb])]
        cases ws <;> simp [leaf, hsyb, hvar]
  | lclarg hsyb hint hbool hvar _ _ =>
      refine ⟨_, ?_, tests_name hv fun ws => ?_⟩
      · simp [hrule.rule, hsyb, hint, hbool]
      · rw [follows_leaf rfl (by simp [hsyb])]
        cases ws <;> simp [leaf, hsyb, hvar]
  | cstint hsyb _ =>
      refine ⟨_, ?_, tests_cstint hv fun ws => ?_⟩
      · simp [hrule.rule, hsyb]
      · rw [follows_leaf rfl (by simp [hsyb])]
        rcases ws with _ | ⟨c, _ | ⟨c', ws⟩⟩ <;> simp [leaf, hsyb]
  | cstbol hsyb _ =>
      have hfollows : ∀ ws, x.Follows ⟨"ConstantBool", []⟩ ws ↔ ws = [0] ∨ ws = [1] := by
        intro ws
        rw [follows_leaf rfl (by simp [hsyb])]
        rcases ws with _ | ⟨c, _ | ⟨c', ws⟩⟩
        · simp [leaf, hsyb]
        · by_cases h0 : c = 0
          · simp [leaf, hsyb, h0]
          · by_cases h1 : c = 1
            · simp [leaf, hsyb, h1]
            · simp [leaf, hsyb, h0, h1]
        · simp [leaf, hsyb]
      by_cases hlength : tail.length = 1
      · obtain ⟨value, rfl⟩ := List.length_eq_one_iff.mp hlength
        refine ⟨_, ?_, tests_cstbol hv (htail value (List.mem_singleton_self value)) hfollows⟩
        simp [hrule.rule, hsyb]
      · refine ⟨.fls, ?_, tests_length ?_⟩
        · rcases tail with _ | ⟨a, _ | ⟨b, tail⟩⟩
          · simp [hrule.rule, hsyb]
          · exact absurd rfl hlength
          · simp [hrule.rule, hsyb]
        · intro ws hws heq
          apply hlength
          rw [← heq]
          rcases (hfollows ws).mp hws with rfl | rfl <;> rfl
  | @func s args hsyb hint hbool hne _ hargs _ =>
      have hfollows : ∀ ws, x.Follows ⟨s, args⟩ ws ↔ _ := fun ws => follows_iff hne hsyb
      simp only [hrule.rule, hsyb, hint, hbool, if_false, reduceCtorEq]
      split
      · next hlt =>
          refine ⟨_, rfl, tests_length ?_⟩
          intro ws hws heq
          have hle := hws.length_le hne
          dsimp only at hle
          omega
      · next hle =>
          have htailne : tail ≠ [] := by
            rintro rfl
            apply hle
            apply List.length_pos_iff.mpr hne
          rcases args with _ | ⟨a, _ | ⟨b, args⟩⟩
          · exact absurd rfl hne
          · have hpart := hasked.only hrule hsyb htailne rfl
            refine ⟨_, if_pos (hargs a rfl), tests_and hv ?_⟩
            apply (hvalid a tail hpart (hvars.part htailne (List.Sublist.refl _))).congr
            intro M
            rw [hfollows]
            simp [List.forall₂_cons_left_iff]
          · refine ⟨_, rfl, tests_and hv ?_⟩
            apply (tests_divisions hvars htailne hvalid (k := args.length + 1) rfl
              fun ds hds => hasked.cut hrule hsyb htailne rfl hds).congr
            intro M
            rw [hfollows]
  | unknown hsyb =>
      refine ⟨.fls, by simp [hrule.rule, hsyb], tests_fls ?_⟩
      rintro M ⟨ws, -, ⟨-, t, hleaf⟩ | ⟨hfunc, -⟩⟩
      · simp [leaf, hsyb] at hleaf
      · simp [hsyb] at hfunc

theorem validRule_spec (hx : x.WellFormed) (hasked : x.Asked N vars.length)
    (hrule : x.RuleOf N i r) (hvars : x.IsVector (d + 1) vars)
    (hvalid : ∀ N vars, x.Asked N vars.length → x.IsVector d vars →
      Tests (valid N vars) vars (x.Encodes N)) :
  Tests (x.validRule valid i vars) vars fun w => ∃ ws, w = (i : ℤ) :: ws ∧ x.Follows r ws
  := by
  obtain ⟨φ, hφ, htests⟩ :=
    validBody_spec hx (hasked.internal hvars) hrule (hvars.internal hx) hvalid
  rw [validRule, hφ]
  apply Tests.instantiate hx hvars htests

/-- The formula for a nonterminal holds of the vectors of its derivations. -/
theorem generateValid_spec (hx : x.WellFormed) (hasked : x.Asked N vars.length)
    (hvars : x.IsVector d vars) :
  Tests (x.generateValid d N vars) vars (x.Encodes N)
  := by
  induction d generalizing N vars with
  | zero => exact absurd (List.length_eq_zero_iff.mp (Nat.le_zero.mp hvars.length_le)) hvars.ne_nil
  | succ d ih =>
      have hinternal := hvars.internal hx
      have hrules : ∀ i ∈ x.rules N, ∃ r, x.RuleOf N i r ∧
          Tests (x.validRule (x.generateValid d) i (x.it.take vars.length)) (x.it.take vars.length)
            fun w => ∃ ws, w = (i : ℤ) :: ws ∧ x.Follows r ws := by
        intro i hi
        obtain ⟨r, hrule⟩ := x.exists_rule hi
        exact ⟨r, hrule, validRule_spec hx (hasked.internal hvars) hrule hinternal
          fun N vars hasked h => ih hasked h⟩
      apply Tests.instantiate hx hvars
      constructor
      · rw [sort_or]
        refine ⟨rfl, List.forall_mem_map.mpr ?_⟩
        intro i hi
        obtain ⟨r, -, htests⟩ := hrules i hi
        apply htests.sort
      · intro M
        simp only [holds_or, List.mem_map, exists_exists_and_eq_and]
        rw [encodes_iff hx (by rw [length_entries]; exact hasked.internal hvars)]
        constructor
        · rintro ⟨i, hi, hholds⟩
          obtain ⟨r, hrule, htests⟩ := hrules i hi
          obtain ⟨ws, hws, hfollows⟩ := (htests.holds M).mp hholds
          exact ⟨i, r, ws, hrule, hws, hfollows⟩
        · rintro ⟨i, r, ws, hrule, hws, hfollows⟩
          obtain ⟨r', hrule', htests⟩ := hrules i hrule.mem
          obtain rfl := Option.some.inj (hrule.rule.symm.trans hrule'.rule)
          exact ⟨i, hrule.mem, (htests.holds M).mpr ⟨ws, hws, hfollows⟩⟩

end Valid

/-! ### The expression -/

/-- The expression has the value of the derivation when the variables are its vector. -/
structure Gives (x : Expand) (e : Expr) (s : Srt) (vars : List Var) (C : Code → Prop) : Prop where
  sort : e.sort = some s
  eval : ∀ M c, x.Coded c → C c → c.word = entries M vars → e.eval M = c.expr.eval M

/-- A call that the variables of a vector are the arguments of. -/
structure Call (x : Expand) (r : Rule) (tail : List Var) where
  model : Model
  subs : List Code
  expr : Expr
  syb : subs.map Code.syb = r.args
  coded : ∀ s ∈ subs, x.Coded s
  word : (subs.map Code.word).flatten = entries model tail
  dispatch : x.dispatch r.termSyb (subs.map Code.expr) = some expr

/-- A derivation that the variables of a vector are the encoding of. -/
structure Reading (x : Expand) (N : String) (vars : List Var) where
  model : Model
  code : Code
  coded : x.Coded code
  syb : code.syb = N
  word : code.word = entries model vars

section Interpret

variable {x : Expand} {d i : ℕ} {N : String} {r : Rule} {v : Var} {vars tail : List Var}
  {interpret : String → List Var → Option Expr} {e : Expr} {s : Srt} {C : Code → Prop}

theorem Gives.instantiate (hx : x.WellFormed) (hasked : x.Asked N vars.length)
    (hvars : x.IsVector d vars) (hC : ∀ c, C c → c.syb = N)
    (h : x.Gives e s (x.it.take vars.length) C) :
  x.Gives (x.instantiate (x.simplify e) vars) s vars C
  := by
  obtain ⟨hsort, heval⟩ := hx.simplify e s h.sort
  constructor
  · apply sort_substitute (hvars.sorts_var hx) hsort
  · intro M c hc hC' hword
    obtain ⟨M', hentries, hagree, hinst⟩ := exists_model_instantiate hx hvars M
    rw [hinst, heval, h.eval M' c hc hC' (hword.trans hentries.symm)]
    have hasked : x.Asked c.syb c.word.length := by
      rwa [hC c hC', hword, length_entries]
    apply hagree.eval_eq (hc.expr_spec hx hasked).2

theorem generateValid_eq_fls {vars' : List Var} (h : vars.length = vars'.length) :
  x.generateValid d N vars = .fls ↔ x.generateValid d N vars' = .fls
  := by
  cases d with
  | zero => rfl
  | succ d => rw [generateValid, instantiate_eq_fls, generateValid, instantiate_eq_fls, h]

theorem validRule_eq_fls {valid : String → List Var → Expr} {vars' : List Var}
    (h : vars.length = vars'.length) :
  x.validRule valid i vars = .fls ↔ x.validRule valid i vars' = .fls
  := by
  rw [validRule, validRule, h]
  split
  · rfl
  · rw [instantiate_eq_fls, instantiate_eq_fls]

/-- Where a derivation has a vector of this length, the nonterminal can be interpreted. -/
theorem isInterpretable_of_encodes (hx : x.WellFormed) (hasked : x.Asked N vars.length)
    (hvars : x.IsVector vars.length vars) (hlength : vars.length ≤ x.t.length) {M : Model}
    (h : x.Encodes N (entries M vars)) :
  x.isInterpretable vars.length N = true
  := by
  have hholds := ((generateValid_spec hx hasked hvars).holds M).mpr h
  rw [isInterpretable, decide_eq_true_iff, ne_eq,
    generateValid_eq_fls (List.length_take_of_le hlength)]
  intro hfls
  rw [hfls] at hholds
  apply not_holds_fls hholds

/-- The arguments are interpreted, unless one of them cannot be. -/
theorem argsInterpreted_spec {subterms : List (String × List Var)}
    (hinterpret : ∀ a ∈ subterms, ∃ e, interpret a.1 a.2 = some e ∧
      x.Gives e (x.grammarSybSort a.1) a.2 fun c => c.syb = a.1) :
  ∃ o, x.argsInterpreted interpret subterms = some o ∧
    (o = none → ∃ a ∈ subterms, x.isInterpretable a.2.length a.1 = false) ∧
    ∀ es, o = some es → List.Forall₂
      (fun a e => x.Gives e (x.grammarSybSort a.1) a.2 fun c => c.syb = a.1) subterms es
  := by
  induction subterms with
  | nil =>
      refine ⟨some [], rfl, ?_, ?_⟩
      · intro hnone
        cases hnone
      · intro es hsome
        cases hsome
        exact .nil
  | cons a subterms ih =>
      obtain ⟨⟨e, he, hgives⟩, hrest⟩ := List.forall_mem_cons.mp hinterpret
      obtain ⟨o, ho, hnone, hsome⟩ := ih hrest
      rw [argsInterpreted]
      split
      · next hint =>
          refine ⟨o.map (e :: ·), by rw [he, ho]; rfl, ?_, ?_⟩
          · intro hmap
            obtain ⟨a', ha', hnot⟩ := hnone (Option.map_eq_none_iff.mp hmap)
            exact ⟨a', List.mem_cons_of_mem a ha', hnot⟩
          · intro es hmap
            obtain ⟨es', hes', rfl⟩ := Option.map_eq_some_iff.mp hmap
            exact .cons hgives (hsome es' hes')
      · next hint =>
          refine ⟨none, rfl, fun _ => ⟨a, List.mem_cons_self, by simpa using hint⟩, ?_⟩
          intro es hnone
          cases hnone

/-- Arguments that are interpreted have the values of the derivations. -/
theorem evals_eq {subs : List Code} {parts : List (List Var)} {es : List Expr} {M : Model}
    (hcoded : ∀ s ∈ subs, x.Coded s) (hword : parts.map (entries M) = subs.map Code.word)
    (hes : List.Forall₂ (fun a e => x.Gives e (x.grammarSybSort a.1) a.2 fun c => c.syb = a.1)
      ((subs.map Code.syb).zip parts) es) :
  es.map (Expr.eval M) = (subs.map Code.expr).map (Expr.eval M)
  := by
  induction subs generalizing parts es with
  | nil =>
      cases hes
      rfl
  | cons s subs ih =>
      obtain ⟨hs, hsubs⟩ := List.forall_mem_cons.mp hcoded
      cases parts with
      | nil => cases hword
      | cons p parts =>
          obtain ⟨hp, hparts⟩ := List.cons.inj hword
          cases hes with
          | cons he hes =>
              rw [List.map_cons, List.map_cons, List.map_cons, ih hsubs hparts hes,
                he.eval M s hs rfl hp.symm]

theorem sorts_of_gives {args : List String} {parts : List (List Var)} {es : List Expr}
    (hlength : parts.length = args.length)
    (hes : List.Forall₂ (fun a e => x.Gives e (x.grammarSybSort a.1) a.2 fun c => c.syb = a.1)
      (args.zip parts) es) :
  es.map Expr.sort = (args.map x.grammarSybSort).map some
  := by
  induction args generalizing parts es with
  | nil =>
      cases hes
      rfl
  | cons a args ih =>
      obtain ⟨p, parts, rfl⟩ := List.exists_cons_of_length_eq_add_one hlength
      cases hes with
      | cons he hes =>
          rw [List.map_cons, List.map_cons, List.map_cons, he.sort,
            ih (Nat.add_right_cancel hlength) hes]

/-- The vector of a call is divided where its arguments begin. -/
theorem Call.exists_division (call : x.Call r tail) (htail : tail ≠ []) {k : ℕ}
    (hargs : r.args.length = k + 1) :
  ∃ ds ∈ combine k 1 (tail.length - 1),
    (cut tail 0 ds).map (entries call.model) = call.subs.map Code.word
  := by
  have hne : ∀ p ∈ call.subs.map Code.word, p ≠ [] := by
    intro p hp
    obtain ⟨s, hs, rfl⟩ := List.mem_map.mp hp
    apply Encodes.ne_nil ⟨s, call.coded s hs, rfl, rfl⟩
  have hlength : (call.subs.map Code.word).length = k + 1 := by
    rw [List.length_map, ← hargs, ← call.syb, List.length_map]
  have hentries : entries call.model tail ≠ [] := by simpa [entries] using htail
  obtain ⟨ds, hds, hcut⟩ := exists_cut_eq hentries hlength hne call.word
  rw [length_entries] at hds
  exact ⟨ds, hds, by rw [← entries_cut, hcut]⟩

theorem Call.encodes (call : x.Call r tail) {parts : List (List Var)}
    (hparts : parts.map (entries call.model) = call.subs.map Code.word)
    {a : String × List Var} (ha : a ∈ r.args.zip parts) :
  x.Encodes a.1 (entries call.model a.2)
  := by
  have hall : List.Forall₂ x.Encodes r.args (parts.map (entries call.model)) := by
    rw [hparts, ← call.syb]
    apply encodes_subs call.coded
  rw [List.forall₂_map_right_iff, List.forall₂_iff_zip] at hall
  apply hall.2 ha

theorem Call.asked (call : x.Call r tail) (hasked : x.Asked N (v :: tail).length)
    (hrule : x.RuleOf N i r) (hfunc : x.problem.resolveSyb r.termSyb = some .func) :
  ∀ s ∈ call.subs, x.Asked s.syb s.word.length
  := by
  apply hasked.subs hrule hfunc call.syb call.coded
  rw [call.word, length_entries, List.length_cons]

/-- The guard of a division finds the arguments of a call. -/
theorem Call.division_unique (hx : x.WellFormed) (hasked : x.Asked N (v :: tail).length)
    (hrule : x.RuleOf N i r) (hfunc : x.problem.resolveSyb r.termSyb = some .func)
    (call : x.Call r tail) (hvars : x.IsVector (d + 1) (v :: tail)) (htail : tail ≠ []) {k : ℕ}
    (hargs : r.args.length = k + 1) {ds : List ℕ} (hds : ds ∈ combine k 1 (tail.length - 1))
    (hguard : ∀ a ∈ (r.args.zip (cut tail 0 ds)).dropLast,
      (x.generateValid a.2.length a.1 a.2).Holds call.model) :
  (cut tail 0 ds).map (entries call.model) = call.subs.map Code.word
  := by
  obtain ⟨hlength, -, hflat⟩ := cut_spec htail hds
  apply x.prefixFree_encodes.parts_unique
  · rw [List.length_map, List.length_map, hlength, ← hargs, ← call.syb, List.length_map]
  · rw [call.word, ← congrArg (entries call.model) hflat]
    apply List.map_flatten.symm
  · intro p hp
    obtain ⟨s, hs, rfl⟩ := List.mem_map.mp hp
    exact ⟨s.syb, s, call.coded s hs, rfl, rfl⟩
  · rw [← List.map_dropLast]
    intro p hp
    obtain ⟨part, hpart, rfl⟩ := List.mem_map.mp hp
    have hzip : cut tail 0 ds = (r.args.zip (cut tail 0 ds)).map Prod.snd := by
      rw [List.map_snd_zip]
      omega
    rw [hzip, ← List.map_dropLast] at hpart
    obtain ⟨a, ha, rfl⟩ := List.mem_map.mp hpart
    have hmem := List.dropLast_subset _ ha
    have hpart := (hvars.of_mem_cut htail hds (List.of_mem_zip hmem).2).self
    have hasked := hasked.cut hrule hfunc htail hargs hds a hmem
    refine ⟨a.1, ((generateValid_spec hx hasked hpart).holds _).mp (hguard a ha)⟩

/-- The interpreted arguments of a call give its value. -/
theorem Call.eval_eq (hx : x.WellFormed) (hasked : x.Asked N (v :: tail).length)
    (hrule : x.RuleOf N i r) (hfunc : x.problem.resolveSyb r.termSyb = some .func)
    (call : x.Call r tail)
    (htyped : x.Typed r.termSyb (r.args.map x.grammarSybSort) s) {parts : List (List Var)}
    (hparts : parts.map (entries call.model) = call.subs.map Code.word) {es : List Expr}
    (hes : List.Forall₂ (fun a e => x.Gives e (x.grammarSybSort a.1) a.2 fun c => c.syb = a.1)
      (r.args.zip parts) es)
    (hb : x.dispatch r.termSyb es = some e) :
  e.eval call.model = call.expr.eval call.model
  := by
  have hlength : parts.length = r.args.length := by
    have hlen := congrArg List.length hparts
    rwa [List.length_map, List.length_map, ← List.length_map Code.syb, call.syb] at hlen
  have hsubs := call.asked hasked hrule hfunc
  have hsorts := sorts_of_coded call.syb fun s hs =>
    ((call.coded s hs).expr_spec hx (hsubs s hs)).1
  apply htyped.eval_eq call.dispatch hb hsorts (sorts_of_gives hlength hes)
  rw [← call.syb] at hes
  apply evals_eq call.coded hparts hes

/-- The conditional for a division gives the calls divided so, and keeps the others. -/
theorem branch_spec (hx : x.WellFormed) (hd : d ≤ x.t.length)
    (hasked : x.Asked N (v :: tail).length) (hrule : x.RuleOf N i r)
    (hfunc : x.problem.resolveSyb r.termSyb = some .func)
    (hvars : x.IsVector (d + 1) (v :: tail)) (htail : tail ≠ [])
    (htyped : x.Typed r.termSyb (r.args.map x.grammarSybSort) s)
    (hinterpret : ∀ N vars, x.Asked N vars.length → x.IsVector d vars →
      ∃ e, interpret N vars = some e ∧ x.Gives e (x.grammarSybSort N) vars fun c => c.syb = N)
    {k : ℕ} (hargs : r.args.length = k + 1) {ds : List ℕ}
    (hds : ds ∈ combine k 1 (tail.length - 1)) {e₀ : Expr} (hsort : e₀.sort = some s) :
  ∃ e', x.branch interpret r tail e₀ ds = some e' ∧ e'.sort = some s ∧
    ∀ call : x.Call r tail,
      (cut tail 0 ds).map (entries call.model) = call.subs.map Code.word ∨
        e₀.eval call.model = call.expr.eval call.model →
      e'.eval call.model = call.expr.eval call.model
  := by
  obtain ⟨hlength, -, -⟩ := cut_spec htail hds
  have hpart : ∀ a ∈ r.args.zip (cut tail 0 ds), x.IsVector d a.2 :=
    fun a ha => hvars.of_mem_cut htail hds (List.of_mem_zip ha).2
  have hparts := hasked.cut hrule hfunc htail hargs hds
  obtain ⟨o, ho, hnone, hsome⟩ :=
    argsInterpreted_spec fun a ha => hinterpret a.1 a.2 (hparts a ha) (hpart a ha)
  simp only [branch, ho, Option.bind_eq_bind, Option.bind_some]
  cases o with
  | none =>
      refine ⟨e₀, rfl, hsort, ?_⟩
      rintro call (hcut | hdone)
      · obtain ⟨a, ha, hnot⟩ := hnone rfl
        have hint := isInterpretable_of_encodes hx (hparts a ha) (hpart a ha).self
          ((hpart a ha).length_le.trans hd) (call.encodes hcut ha)
        rw [hint] at hnot
        cases hnot
      · exact hdone
  | some es =>
      have hes := hsome es rfl
      obtain ⟨b, hb, hbsort⟩ :=
        htyped.exists_dispatch (sorts_of_gives (hlength.trans hargs.symm) hes)
      have hguards : ∀ a ∈ (r.args.zip (cut tail 0 ds)).dropLast,
          Tests (x.generateValid a.2.length a.1 a.2) a.2 (x.Encodes a.1) := by
        intro a ha
        have hmem := List.dropLast_subset _ ha
        apply generateValid_spec hx (hparts a hmem) (hpart a hmem).self
      simp only [hb, Option.bind_some]
      refine ⟨_, rfl, ?_, ?_⟩
      · rw [sort_ite]
        refine ⟨?_, hbsort, hsort⟩
        rw [sort_and]
        exact ⟨rfl, List.forall_mem_map.mpr fun a ha => (hguards a ha).sort⟩
      · intro call hdone
        rw [eval_ite]
        split
        · next hguard =>
            rw [holds_and, List.forall_mem_map] at hguard
            apply call.eval_eq hx hasked hrule hfunc htyped _ hes hb
            apply call.division_unique hx hasked hrule hfunc hvars htail hargs hds hguard
        · next hguard =>
            rcases hdone with hcut | hdone
            · apply absurd _ hguard
              rw [holds_and, List.forall_mem_map]
              intro a ha
              apply ((hguards a ha).holds _).mpr
              apply call.encodes hcut (List.dropLast_subset _ ha)
            · exact hdone

theorem sort_getFallback (s : Srt) :
  (getFallback s).sort = some s
  := by
  cases s with
  | _ => rfl

theorem gives_leaf (hrule : x.RuleOf N i r) (hfunc : x.problem.resolveSyb r.termSyb ≠ some .func)
    (hsort : e.sort = some s)
    (hleaf : ∀ M extra t, entries M vars = (i : ℤ) :: extra → x.leaf r extra = some t →
      e.eval M = t.2.eval M) :
  x.Gives e s vars fun c => c.syb = N ∧ c.word.head? = some (i : ℤ)
  := by
  refine ⟨hsort, ?_⟩
  rintro M c hc ⟨-, hhead⟩ hword
  rcases hc.inv hrule hhead with ⟨-, extra, hextra, hc⟩ | ⟨h, -⟩
  · apply hleaf M extra _ (hword.symm.trans hextra) hc
  · apply absurd h hfunc

/-- An integer variable has the value of its entry. -/
theorem eval_var_of_int {M : Model} (hv : v.sort = .int) {c : ℤ} (h : (M.value v).toInt = c) :
  (Expr.var v).eval M = .int c
  := by
  have hsort : (M.value v).sort = .int := by rw [Model.value, Value.sort_cast, hv]
  rw [← h]
  apply Value.eq_int hsort

/-- The productions without arguments, where the value does not depend on the vector or is the
second entry of it. -/
theorem interpretBody_leaf (hx : x.WellFormed) (hasked : x.Asked N vars.length)
    (hrule : x.RuleOf N i r) (hvars : x.IsVector (d + 1) vars)
    (hfunc : x.problem.resolveSyb r.termSyb ≠ some .func)
    {valid : String → List Var → Expr} (hvalid : x.validBody valid i vars ≠ some .fls) :
  ∃ e, x.interpretBody interpret i vars = some e ∧
    x.Gives e (x.grammarSybSort N) vars fun c => c.syb = N ∧ c.word.head? = some (i : ℤ)
  := by
  obtain ⟨v, tail, rfl⟩ := List.exists_cons_of_ne_nil hvars.ne_nil
  obtain ⟨hv, htail⟩ := List.forall_mem_cons.mp hvars.sort
  have hcons := considers_of_validBody hrule.rule hvalid
  unfold validBody at hvalid
  cases hx.rules N _ i r hasked hrule hcons with
  | @number s n hsyb hint hbool hparse hsort =>
      refine ⟨.num n, ?_, gives_leaf hrule hfunc (by rw [sort_num, hsort]) ?_⟩
      · rcases hsyb with hsyb | hsyb <;> simp [interpretBody, hrule.rule, hsyb, hparse]
      · intro M extra t _ hleaf
        have ht : t = (.leaf s, .num n) := by
          rcases hsyb with hsyb | hsyb <;> cases extra <;> simp_all [leaf]
        rw [ht]
  | @glbvar s u hsyb hint hbool hvar hsort hit =>
      refine ⟨.var u, ?_, gives_leaf hrule hfunc (by rw [sort_var, hsort]) ?_⟩
      · simp [interpretBody, hrule.rule, hsyb, hvar]
      · intro M extra t _ hleaf
        have ht : t = (.leaf s, .var u) := by
          cases extra <;> simp_all [leaf]
        rw [ht]
  | @lclarg s u hsyb hint hbool hvar hsort hit =>
      refine ⟨.var u, ?_, gives_leaf hrule hfunc (by rw [sort_var, hsort]) ?_⟩
      · simp [interpretBody, hrule.rule, hsyb, hvar]
      · intro M extra t _ hleaf
        have ht : t = (.leaf s, .var u) := by
          cases extra <;> simp_all [leaf]
        rw [ht]
  | cstint hsyb hsort =>
      have hlength : tail.length = 1 := by
        by_contra hne
        apply hvalid
        simp [hrule.rule, hsyb, hne]
      obtain ⟨value, rfl⟩ := List.length_eq_one_iff.mp hlength
      have hvalue := htail value (List.mem_singleton_self value)
      refine ⟨.var value, ?_, gives_leaf hrule hfunc (by rw [sort_var, hsort, hvalue]) ?_⟩
      · simp [interpretBody, hrule.rule, hsyb]
      · intro M extra t hword hleaf
        obtain rfl := (List.cons.inj hword).2
        have ht : t.2 = .num (M.value value).toInt := by
          simp only [leaf, hsyb, List.map_cons, List.map_nil, Option.some.injEq] at hleaf
          rw [← hleaf]
        rw [ht, eval_num, eval_var_of_int hvalue rfl]
  | cstbol hsyb hsort =>
      have hlength : tail.length = 1 := by
        by_contra hne
        apply hvalid
        rcases tail with _ | ⟨a, _ | ⟨b, tail⟩⟩
        · simp [hrule.rule, hsyb]
        · exact absurd rfl hne
        · simp [hrule.rule, hsyb]
      obtain ⟨value, rfl⟩ := List.length_eq_one_iff.mp hlength
      have hvalue := htail value (List.mem_singleton_self value)
      refine ⟨.ite (.eq (.var value) (.num 0)) .fls .tru, ?_,
        gives_leaf hrule hfunc (by simp [hsort, hvalue]) ?_⟩
      · simp [interpretBody, hrule.rule, hsyb]
      · intro M extra t hword hleaf
        obtain rfl := (List.cons.inj hword).2
        rw [eval_ite]
        simp only [leaf, hsyb, List.map_cons, List.map_nil] at hleaf
        split
        · next h0 =>
            rw [holds_var_eq_num hvalue] at h0
            rw [if_pos h0] at hleaf
            cases hleaf
            rfl
        · next h0 =>
            rw [holds_var_eq_num hvalue] at h0
            rw [if_neg h0] at hleaf
            split at hleaf
            · cases hleaf
              rfl
            · cases hleaf
  | func hsyb _ _ _ _ _ _ => exact absurd hsyb hfunc
  | unknown hsyb =>
      apply absurd _ hvalid
      simp [hrule.rule, hsyb]

/-- A call of arguments that are read off the vector. -/
theorem exists_call (hrule : x.RuleOf N i r) (hargs : r.args ≠ []) {M : Model} {c : Code}
    (hc : x.Coded c) (hhead : c.word.head? = some (i : ℤ))
    (hword : c.word = entries M (v :: tail)) :
  ∃ call : x.Call r tail, call.model = M ∧ call.expr = c.expr
  := by
  rcases hc.inv hrule hhead with ⟨hnil, -⟩ | ⟨-, subs, hsyb, hcoded, hsubs, hdispatch⟩
  · apply absurd hnil hargs
  · have htail := (List.cons.inj (hsubs.symm.trans hword)).2
    exact ⟨⟨M, subs, c.expr, hsyb, hcoded, htail, hdispatch⟩, rfl, rfl⟩

/-- The calls: the only division of the vector, or all of them. -/
theorem interpretBody_call (hx : x.WellFormed) (hd : d ≤ x.t.length)
    (hasked : x.Asked N vars.length) (hrule : x.RuleOf N i r) (hvars : x.IsVector (d + 1) vars)
    (hfunc : x.problem.resolveSyb r.termSyb = some .func)
    (hinterpret : ∀ N vars, x.Asked N vars.length → x.IsVector d vars →
      ∃ e, interpret N vars = some e ∧ x.Gives e (x.grammarSybSort N) vars fun c => c.syb = N)
    {valid : String → List Var → Expr} (hvalid : x.validBody valid i vars ≠ some .fls) :
  ∃ e, x.interpretBody interpret i vars = some e ∧
    x.Gives e (x.grammarSybSort N) vars fun c => c.syb = N ∧ c.word.head? = some (i : ℤ)
  := by
  obtain ⟨v, tail, rfl⟩ := List.exists_cons_of_ne_nil hvars.ne_nil
  have hcons := considers_of_validBody hrule.rule hvalid
  obtain ⟨hint, hbool, hne, -, htyped⟩ := hx.func_rule hasked hrule hcons hfunc
  have htail : tail ≠ [] := by
    rintro rfl
    apply hvalid
    have hpos := List.length_pos_iff.mpr hne
    simp [validBody, hrule.rule, hfunc, hint, hbool, hpos]
  obtain ⟨s, args⟩ := r
  simp only [interpretBody, hrule.rule, hfunc, Option.bind_eq_bind, Option.bind_some]
  rcases args with _ | ⟨a, _ | ⟨b, args⟩⟩
  · exact absurd rfl hne
  · have hpart := hasked.only hrule hfunc htail rfl
    obtain ⟨e, he, hgives⟩ := hinterpret a tail hpart (hvars.part htail (List.Sublist.refl _))
    have hes : List.Forall₂ (fun a e => x.Gives e (x.grammarSybSort a.1) a.2 fun c => c.syb = a.1)
        ([a].zip [tail]) [e] := .cons hgives .nil
    obtain ⟨b, hb, hsort⟩ := htyped.exists_dispatch (sorts_of_gives rfl hes)
    refine ⟨b, by simp [he, hb], hsort, ?_⟩
    rintro M c hc ⟨-, hhead⟩ hword
    obtain ⟨call, rfl, hexpr⟩ := exists_call hrule hne hc hhead hword
    rw [← hexpr]
    apply call.eval_eq hx hasked hrule hfunc htyped _ hes hb
    obtain ⟨s', hs'⟩ := List.length_eq_one_iff.mp
      (show call.subs.length = 1 by rw [← List.length_map Code.syb, call.syb]; rfl)
    have hflat := call.word
    rw [hs'] at hflat ⊢
    simpa using hflat.symm
  · obtain ⟨e, he, hsort, heval⟩ := Lists.foldlM_achieves (l := combine (args.length + 1) 1
      (tail.length - 1)) (f := x.branch interpret ⟨s, a :: b :: args⟩ tail)
      (I := fun e => e.sort = some (x.grammarSybSort N))
      (D := fun ds (call : x.Call ⟨s, a :: b :: args⟩ tail) =>
        (cut tail 0 ds).map (entries call.model) = call.subs.map Code.word)
      (E := fun call e => e.eval call.model = call.expr.eval call.model)
      (s := getFallback (x.grammarSybSort N)) (sort_getFallback _)
      fun ds hds e he =>
        branch_spec hx hd hasked hrule hfunc hvars htail htyped hinterpret rfl hds he
    refine ⟨e, ?_, hsort, ?_⟩
    · simp only [x.ruleTypeLookup_eq hrule.mem, Option.bind_some, List.length_cons,
        List.tail_cons, Nat.add_sub_cancel]
      apply he
    · rintro M c hc ⟨-, hhead⟩ hword
      obtain ⟨call, rfl, hexpr⟩ := exists_call hrule hne hc hhead hword
      rw [← hexpr]
      apply heval call (.inl (call.exists_division htail rfl))

theorem interpretBody_spec (hx : x.WellFormed) (hd : d ≤ x.t.length)
    (hasked : x.Asked N vars.length) (hrule : x.RuleOf N i r) (hvars : x.IsVector (d + 1) vars)
    (hinterpret : ∀ N vars, x.Asked N vars.length → x.IsVector d vars →
      ∃ e, interpret N vars = some e ∧ x.Gives e (x.grammarSybSort N) vars fun c => c.syb = N)
    {valid : String → List Var → Expr} (hvalid : x.validBody valid i vars ≠ some .fls) :
  ∃ e, x.interpretBody interpret i vars = some e ∧
    x.Gives e (x.grammarSybSort N) vars fun c => c.syb = N ∧ c.word.head? = some (i : ℤ)
  := by
  by_cases hfunc : x.problem.resolveSyb r.termSyb = some .func
  · apply interpretBody_call hx hd hasked hrule hvars hfunc hinterpret hvalid
  · apply interpretBody_leaf hx hasked hrule hvars hfunc hvalid

theorem interpretRule_spec (hx : x.WellFormed) (hd : d ≤ x.t.length)
    (hasked : x.Asked N vars.length) (hrule : x.RuleOf N i r) (hvars : x.IsVector (d + 1) vars)
    (hlength : vars.length ≤ x.t.length)
    (hinterpret : ∀ N vars, x.Asked N vars.length → x.IsVector d vars →
      ∃ e, interpret N vars = some e ∧ x.Gives e (x.grammarSybSort N) vars fun c => c.syb = N)
    (hrule' : x.isInterpretableRule vars.length i = true) :
  ∃ e, x.interpretRule interpret i vars = some e ∧
    x.Gives e (x.grammarSybSort N) vars fun c => c.syb = N ∧ c.word.head? = some (i : ℤ)
  := by
  have hvalid : x.validBody (x.generateValid vars.length) i (x.it.take vars.length)
      ≠ some .fls := by
    intro hfls
    rw [isInterpretableRule, decide_eq_true_iff] at hrule'
    apply hrule'
    rw [validRule, List.length_take_of_le hlength, hfls]
    apply instantiate_eq_fls.mpr hx.simplify_fls
  obtain ⟨e, he, hgives⟩ :=
    interpretBody_spec hx hd (hasked.internal hvars) hrule (hvars.internal hx) hinterpret hvalid
  refine ⟨_, ?_, hgives.instantiate hx hasked hvars fun c hc => hc.1⟩
  rw [interpretRule, he]
  rfl

/-- The guard of a production holds of the vectors of its derivations. -/
theorem Reading.holds_iff (hx : x.WellFormed) (hasked : x.Asked N vars.length)
    (hrule : x.RuleOf N i r) (hvars : x.IsVector vars.length vars) (k : x.Reading N vars) :
  (x.validRule (x.generateValid vars.length) i vars).Holds k.model
    ↔ k.code.word.head? = some (i : ℤ)
  := by
  rw [(validRule_spec hx hasked hrule (hvars.mono (Nat.le_succ _))
    fun N vars hasked h => generateValid_spec hx hasked h).holds, ← k.word]
  constructor
  · rintro ⟨ws, hword, -⟩
    rw [hword]
    rfl
  · intro hhead
    obtain ⟨i', r', ws, hrule', hword, hfollows⟩ :=
      (encodes_iff hx (by rwa [k.word, length_entries])).mp ⟨k.code, k.coded, k.syb, rfl⟩
    rw [hword] at hhead
    cases Nat.cast_injective (Option.some.inj hhead)
    cases hrule.rule.symm.trans hrule'.rule
    exact ⟨ws, hword, hfollows⟩

/-- The conditional for a production gives its derivations, and keeps the others. -/
theorem rule_spec (hx : x.WellFormed) (hd : d + 1 ≤ x.t.length)
    (hasked : x.Asked N vars.length) (hi : i ∈ x.rules N) (hvars : x.IsVector (d + 1) vars)
    (hinterpret : ∀ N vars, x.Asked N vars.length → x.IsVector d vars →
      ∃ e, interpret N vars = some e ∧ x.Gives e (x.grammarSybSort N) vars fun c => c.syb = N)
    {e₀ : Expr} (hsort : e₀.sort = some (x.grammarSybSort N)) :
  ∃ e', (if x.isInterpretableRule vars.length i then do
        let branch ← x.interpretRule interpret i vars
        some (.ite (x.validRule (x.generateValid vars.length) i vars) branch e₀)
      else some e₀) = some e' ∧ e'.sort = some (x.grammarSybSort N) ∧
    ∀ k : x.Reading N vars,
      k.code.word.head? = some (i : ℤ) ∨ e₀.eval k.model = k.code.expr.eval k.model →
      e'.eval k.model = k.code.expr.eval k.model
  := by
  obtain ⟨r, hrule⟩ := x.exists_rule hi
  have hlength : vars.length ≤ x.t.length := hvars.length_le.trans hd
  have hvars' := hvars.self
  split
  · next hint =>
      obtain ⟨e, he, hgives⟩ := interpretRule_spec hx (Nat.le_of_succ_le hd) hasked hrule hvars
        hlength hinterpret hint
      rw [he]
      refine ⟨_, rfl, ?_, ?_⟩
      · rw [sort_ite]
        exact ⟨(validRule_spec hx hasked hrule (hvars'.mono (Nat.le_succ _))
          fun N vars hasked h => generateValid_spec hx hasked h).sort, hgives.sort, hsort⟩
      · intro k hk
        rw [eval_ite]
        split
        · next hguard =>
            have hhead := (k.holds_iff hx hasked hrule hvars').mp hguard
            apply hgives.eval _ _ k.coded ⟨k.syb, hhead⟩ k.word
        · next hguard =>
            rcases hk with hhead | hdone
            · apply absurd ((k.holds_iff hx hasked hrule hvars').mpr hhead) hguard
            · exact hdone
  · next hint =>
      refine ⟨e₀, rfl, hsort, ?_⟩
      rintro k (hhead | hdone)
      · have hholds := (k.holds_iff hx hasked hrule hvars').mpr hhead
        rw [isInterpretableRule, decide_eq_true_iff, not_not,
          validRule_eq_fls (List.length_take_of_le hlength)] at hint
        rw [hint] at hholds
        apply absurd hholds not_holds_fls
      · exact hdone

/-- The expression for a nonterminal gives its derivations. -/
theorem generateInterpret_spec (hx : x.WellFormed) (hd : d ≤ x.t.length)
    (hasked : x.Asked N vars.length) (hvars : x.IsVector d vars) :
  ∃ e, x.generateInterpret d N vars = some e ∧
    x.Gives e (x.grammarSybSort N) vars fun c => c.syb = N
  := by
  induction d generalizing N vars with
  | zero => exact absurd (List.length_eq_zero_iff.mp (Nat.le_zero.mp hvars.length_le)) hvars.ne_nil
  | succ d ih =>
      have hlength := List.length_take_of_le hvars.length_it
      obtain ⟨e, he, hsort, heval⟩ := Lists.foldlM_achieves (l := x.rules N)
        (I := fun e => e.sort = some (x.grammarSybSort N))
        (D := fun i (k : x.Reading N (x.it.take vars.length)) =>
          k.code.word.head? = some (i : ℤ))
        (E := fun k e => e.eval k.model = k.code.expr.eval k.model)
        (s := getFallback (x.grammarSybSort N)) (sort_getFallback _)
        fun i hi e he => rule_spec hx hd (hasked.internal hvars) hi (hvars.internal hx)
          (fun N vars hasked h => ih (Nat.le_of_succ_le hd) hasked h) he
      rw [hlength] at he
      have hgives : x.Gives e (x.grammarSybSort N) (x.it.take vars.length) fun c => c.syb = N := by
        refine ⟨hsort, ?_⟩
        intro M c hc hsyb hword
        obtain ⟨i, hi, hhead⟩ := hc.head
        rw [hsyb] at hi
        apply heval ⟨M, c, hc, hsyb, hword⟩ (.inl ⟨i, hi, hhead⟩)
      refine ⟨_, ?_, hgives.instantiate hx hasked hvars fun c hc => hc⟩
      rw [generateInterpret, he]
      rfl

end Interpret

end Expand

end Sygus.Encoding
