import DryadSynth.Enumerate.Display

/-!
# Scripts and answers of the SMT solver

The scripts that `cegis.rs` sends to the solver, what the solver may answer to them under
the semantics of `QF_BV`, and the value of a printed expression in such a script.  A script
declares constants and asserts terms.  It defines no function, so a term that calls one has
no value in it.
-/

namespace DryadSynth

open QFBV (Value)

/-! ### Terms that call no defined function -/

/-- No defined function has the name of a theory symbol, as SMT-LIB requires. -/
def Environ.Standard (env : Environ) : Prop :=
  ∀ n, ∀ d ∈ env.inner n, d.name ∉ QFBV.theorySymbols

namespace Frame

variable {env : Environ} {U : QFBV.Interpretation 64} {depth : ℕ} {args : List (BitVec 64)}
  {x : Value 64}

theorem denote_un {o : UnOp} {e₁ : OwnedExpr} :
  denote env U ⟨depth, .un o e₁, args⟩ = some x
    ↔ ∃ n v₁, o.displayName env = some n ∧ denote env U ⟨depth, e₁, args⟩ = some v₁ ∧
      QFBV.meaning U n [v₁] = some x
  := by
  constructor
  · intro h
    simp only [denote, ExprIn.term, ExprIn.display, Option.bind_eq_bind,
      Option.bind_eq_some_iff] at h ⊢
    obtain ⟨t, ⟨_, ⟨n, hn, s₁, hs₁, ⟨⟩⟩, ht⟩, hx⟩ := h
    simp only [SExpr.toTerm_call, SExpr.toTerms_cons, SExpr.toTerms_nil, Option.map_some,
      Option.map_eq_some_iff, Option.bind_eq_some_iff] at ht
    obtain ⟨_, ⟨t₁, ht₁, ⟨⟩⟩, rfl⟩ := ht
    simp only [QFBV.denote, QFBV.denoteAll_cons, QFBV.denoteAll_nil, Option.map_some,
      Option.bind_eq_some_iff] at hx
    obtain ⟨_, ⟨v₁, hv₁, ⟨⟩⟩, hx⟩ := hx
    exact ⟨n, v₁, hn, ⟨t₁, ⟨s₁, hs₁, ht₁⟩, hv₁⟩, hx⟩
  · rintro ⟨n, v₁, hn, h₁, hx⟩
    obtain ⟨t₁, ht₁, hd₁⟩ := exists_term_of_denote h₁
    rw [denote, ExprIn.term_un hn ht₁, Option.bind_some, QFBV.denote_app₁ hd₁, hx]

theorem denote_bin {o : BinOp} {e₁ e₂ : OwnedExpr} :
  denote env U ⟨depth, .bin o e₁ e₂, args⟩ = some x
    ↔ ∃ n v₁ v₂, o.displayName env = some n ∧ denote env U ⟨depth, e₁, args⟩ = some v₁ ∧
      denote env U ⟨depth, e₂, args⟩ = some v₂ ∧ QFBV.meaning U n [v₁, v₂] = some x
  := by
  constructor
  · intro h
    simp only [denote, ExprIn.term, ExprIn.display, Option.bind_eq_bind,
      Option.bind_eq_some_iff] at h ⊢
    obtain ⟨t, ⟨_, ⟨n, hn, s₁, hs₁, s₂, hs₂, ⟨⟩⟩, ht⟩, hx⟩ := h
    simp only [SExpr.toTerm_call, SExpr.toTerms_cons, SExpr.toTerms_nil, Option.map_some,
      Option.map_eq_some_iff, Option.bind_eq_some_iff] at ht
    obtain ⟨_, ⟨t₁, ht₁, _, ⟨t₂, ht₂, ⟨⟩⟩, ⟨⟩⟩, rfl⟩ := ht
    simp only [QFBV.denote, QFBV.denoteAll_cons, QFBV.denoteAll_nil, Option.map_some,
      Option.bind_eq_some_iff, Option.map_eq_some_iff] at hx
    obtain ⟨_, ⟨v₁, hv₁, _, ⟨v₂, hv₂, ⟨⟩⟩, ⟨⟩⟩, hx⟩ := hx
    exact ⟨n, v₁, v₂, hn, ⟨t₁, ⟨s₁, hs₁, ht₁⟩, hv₁⟩, ⟨t₂, ⟨s₂, hs₂, ht₂⟩, hv₂⟩, hx⟩
  · rintro ⟨n, v₁, v₂, hn, h₁, h₂, hx⟩
    obtain ⟨t₁, ht₁, hd₁⟩ := exists_term_of_denote h₁
    obtain ⟨t₂, ht₂, hd₂⟩ := exists_term_of_denote h₂
    rw [denote, ExprIn.term_bin hn ht₁ ht₂, Option.bind_some, QFBV.denote_app₂ hd₁ hd₂, hx]

theorem denote_ite {e₁ e₂ e₃ : OwnedExpr} :
  denote env U ⟨depth, .ite e₁ e₂ e₃, args⟩ = some x
    ↔ ∃ v₁ v₂ v₃ b, denote env U ⟨depth, e₁, args⟩ = some v₁ ∧
      denote env U ⟨depth, e₂, args⟩ = some v₂ ∧ denote env U ⟨depth, e₃, args⟩ = some v₃ ∧
      QFBV.meaning U "=" [v₁, .bits 0] = some b ∧ QFBV.meaning U "ite" [b, v₂, v₃] = some x
  := by
  constructor
  · intro h
    simp only [denote, ExprIn.term, ExprIn.display, Option.bind_eq_bind,
      Option.bind_eq_some_iff] at h ⊢
    obtain ⟨t, ⟨_, ⟨s₁, hs₁, s₂, hs₂, s₃, hs₃, ⟨⟩⟩, ht⟩, hx⟩ := h
    have hzero : (SExpr.const "#x0000000000000000").toTerm = some (.literal 0) := by
      have hlit : smtLiteral "#x0000000000000000" = some 0 := by decide
      simp [SExpr.toTerm, hlit]
    simp only [SExpr.toTerm_call, SExpr.toTerms_cons, SExpr.toTerms_nil, Option.map_some, hzero,
      Option.map_eq_some_iff, Option.bind_eq_some_iff, Option.bind_some] at ht
    obtain ⟨_, ⟨_, ⟨_, ⟨t₁, ht₁, ⟨⟩⟩, ⟨⟩⟩, _, ⟨t₂, ht₂, _, ⟨t₃, ht₃, ⟨⟩⟩, ⟨⟩⟩, ⟨⟩⟩, rfl⟩ := ht
    simp only [QFBV.denote, QFBV.denoteAll_cons, QFBV.denoteAll_nil, Option.map_some,
      Option.bind_eq_some_iff, Option.map_eq_some_iff, Option.bind_some] at hx
    obtain ⟨_, ⟨b, ⟨_, ⟨v₁, hv₁, ⟨⟩⟩, hb⟩, _, ⟨v₂, hv₂, _, ⟨v₃, hv₃, ⟨⟩⟩, ⟨⟩⟩, ⟨⟩⟩, hx⟩ := hx
    exact ⟨v₁, v₂, v₃, b, ⟨t₁, ⟨s₁, hs₁, ht₁⟩, hv₁⟩, ⟨t₂, ⟨s₂, hs₂, ht₂⟩, hv₂⟩,
      ⟨t₃, ⟨s₃, hs₃, ht₃⟩, hv₃⟩, hb, hx⟩
  · rintro ⟨v₁, v₂, v₃, b, h₁, h₂, h₃, hb, hx⟩
    obtain ⟨t₁, ht₁, hd₁⟩ := exists_term_of_denote h₁
    obtain ⟨t₂, ht₂, hd₂⟩ := exists_term_of_denote h₂
    obtain ⟨t₃, ht₃, hd₃⟩ := exists_term_of_denote h₃
    have hc := (QFBV.denote_app₂ (f := "=") hd₁ (rfl : QFBV.denote U _ (.literal 0) = _)).trans hb
    rw [denote, ExprIn.term_ite ht₁ ht₂ ht₃, Option.bind_some, QFBV.denote_app₃ hc hd₂ hd₃, hx]

/-- Where the script defines no function, the value of the printed term is the one that the
evaluation returns, when the evaluation reaches no wide shift. -/
theorem denote_eq_of_eval (henv : env.Standard) {fr : Frame}
    (hshift : fr.Throughout env fun fr => ¬ fr.WideShift env) {v : BitVec 64}
    (hv : fr.eval env = .ok v) (hx : fr.denote env QFBV.noSymbols = some x) :
  x = .bits v
  := by
  obtain ⟨depth, e, args⟩ := fr
  induction e generalizing v x with
  | un o e₁ ih =>
      obtain ⟨v₁, hv₁, hv⟩ := ExprIn.evalWith_un.mp hv
      obtain ⟨n, x₁, hn, hx₁, hx⟩ := denote_un.mp hx
      obtain rfl := ih (hshift.of_calls .un) hv₁ hx₁
      have hfop : ∀ i, o ≠ .fop1 i := by
        rintro i rfl
        obtain ⟨d, hd, rfl⟩ := Option.map_eq_some_iff.mp hn
        have hname := henv 1 d (List.mem_of_getElem? hd)
        simp [QFBV.meaning, hname, QFBV.noSymbols] at hx
      rw [UnOp.meaning_eq hn hfop hv] at hx
      apply (Option.some.inj hx).symm
  | bin o e₁ e₂ ih₁ ih₂ =>
      obtain ⟨v₁, hv₁, v₂, hv₂, hv⟩ := ExprIn.evalWith_bin.mp hv
      obtain ⟨n, x₁, x₂, hn, hx₁, hx₂, hx⟩ := denote_bin.mp hx
      obtain rfl := ih₁ (hshift.of_calls .bin₁) hv₁ hx₁
      obtain rfl := ih₂ (hshift.of_calls .bin₂) hv₂ hx₂
      have hfop : ∀ i, o ≠ .fop2 i := by
        rintro i rfl
        obtain ⟨d, hd, rfl⟩ := Option.map_eq_some_iff.mp hn
        have hname := henv 2 d (List.mem_of_getElem? hd)
        simp [QFBV.meaning, hname, QFBV.noSymbols] at hx
      have hwide : o = .ashr → ¬ (64 ≤ v₂.toNat ∧ v₁.msb = true) := by
        rintro rfl ⟨hthat, hmsb⟩
        apply hshift.self
        exact ⟨e₁, e₂, v₁, v₂, rfl, hv₁, hv₂, hthat, hmsb⟩
      rw [BinOp.meaning_eq hn hfop hwide hv] at hx
      apply (Option.some.inj hx).symm
  | ite e₁ e₂ e₃ ih₁ ih₂ ih₃ =>
      obtain ⟨v₁, hv₁, v₂, hv₂, v₃, hv₃, hv⟩ := ExprIn.evalWith_ite.mp hv
      obtain ⟨x₁, x₂, x₃, b, hx₁, hx₂, hx₃, hb, hx⟩ := denote_ite.mp hx
      obtain rfl := ih₁ (hshift.of_calls .ite₁) hv₁ hx₁
      obtain rfl := ih₂ (hshift.of_calls .ite₂) hv₂ hx₂
      obtain rfl := ih₃ (hshift.of_calls .ite₃) hv₃ hx₃
      have heq : QFBV.meaning QFBV.noSymbols "=" [.bits v₁, .bits 0]
          = some (.bool (v₁ == 0)) := rfl
      have hite : QFBV.meaning QFBV.noSymbols "ite" [.bool (v₁ == 0), .bits v₂, .bits v₃]
          = some (.bits (if v₁ == 0 then v₂ else v₃)) := rfl
      obtain rfl := Option.some.inj (heq.symm.trans hb)
      rw [← Option.some.inj (hite.symm.trans hx), ← hv, op.ite]
      simp only [beq_iff_eq]
  | var i =>
      have hterm : (ExprIn.var i : OwnedExpr).term env = some (.symbol (varName i)) := rfl
      rw [denote, hterm, Option.bind_some, QFBV.denote,
        argValuation_varName (ExprIn.evalWith_var.mp hv)] at hx
      apply (Option.some.inj hx).symm
  | const c =>
      have hterm : (ExprIn.const c : OwnedExpr).term env = some (.literal c) := by
        simp [ExprIn.term, ExprIn.display, SExpr.toTerm, smtLiteral_hexLiteral]
      rw [denote, hterm, Option.bind_some, QFBV.denote] at hx
      cases hv
      apply (Option.some.inj hx).symm

end Frame

/-! ### Scripts -/

/-- A script: the constants `v0`, …, `v{args - 1}` it declares, of sort `(_ BitVec 64)`, and
the terms it asserts. -/
structure Script where
  args : ℕ
  asserts : List SExpr
  deriving DecidableEq

namespace Script

/-- The value of an asserted term, when the constants have the values `args`. -/
def value (args : List (BitVec 64)) (s : SExpr) : Option (Value 64) :=
  s.toTerm.bind (QFBV.denote QFBV.noSymbols (argValuation args))

/-- Every asserted term is well sorted. -/
def WellSorted (S : Script) : Prop :=
  ∀ args : List (BitVec 64), args.length = S.args →
    ∀ s ∈ S.asserts, ∃ b, value args s = some (.bool b)

/-- The values `args` of the constants satisfy the script. -/
def Satisfied (S : Script) (args : List (BitVec 64)) : Prop :=
  ∀ s ∈ S.asserts, value args s = some (.bool true)

theorem value_call₁ {args : List (BitVec 64)} {f : String} {s : SExpr} {x : Value 64} :
  value args (.list [.id f, s]) = some x
    ↔ ∃ v, value args s = some v ∧ QFBV.meaning QFBV.noSymbols f [v] = some x
  := by
  cases hs : s.toTerm with
  | none => simp [value, hs]
  | some t => cases ht : QFBV.denote QFBV.noSymbols (argValuation args) t <;>
      simp [value, hs, QFBV.denote, ht]

theorem value_call₂ {args : List (BitVec 64)} {f : String} {s s' : SExpr} {x : Value 64} :
  value args (.list [.id f, s, s']) = some x
    ↔ ∃ v v', value args s = some v ∧ value args s' = some v' ∧
      QFBV.meaning QFBV.noSymbols f [v, v'] = some x
  := by
  cases hs : s.toTerm with
  | none => simp [value, hs]
  | some t =>
      cases hs' : s'.toTerm with
      | none => simp [value, hs, hs']
      | some t' =>
          cases ht : QFBV.denote QFBV.noSymbols (argValuation args) t <;>
            cases ht' : QFBV.denote QFBV.noSymbols (argValuation args) t' <;>
            simp [value, hs, hs', QFBV.denote, ht, ht']

/-- The value of a printed expression. -/
theorem value_display {env : Environ} {e : OwnedExpr} {s : SExpr} (h : e.display env = some s)
    (depth : ℕ) (args : List (BitVec 64)) :
  value args s = Frame.denote env QFBV.noSymbols ⟨depth, e, args⟩
  := by
  rw [Frame.denote, ExprIn.term, h]
  rfl

/-- A declared constant. -/
theorem value_varName {args : List (BitVec 64)} {i : ℕ} {v : BitVec 64} (h : args[i]? = some v) :
  value args (.id (varName i)) = some (.bits v)
  := argValuation_varName h

@[simp]
theorem value_hexLiteral (args : List (BitVec 64)) (x : BitVec 64) :
  value args (.const (hexLiteral x)) = some (.bits x)
  := by
  simp [value, SExpr.toTerm, smtLiteral_hexLiteral, QFBV.denote]

end Script

/-! ### Answers -/

/-- A model as the solver prints it: names of constants and their values. -/
abbrev Model : Type := List (String × String)

/-- What comes back from `check_sat` under the time limit, with the model of `get_model` after
`sat`. -/
inductive Answer where
  | sat (model : Model)
  | unsat
  | unknown
  | error
  | timeout

/-- The values `args` of the constants are those of a model, where it has values. -/
def Model.Describes (m : Model) (args : List (BitVec 64)) : Prop :=
  ∀ i value, (varName i, value) ∈ m → ∃ x, smtLiteral value = some x ∧ args[i]? = some x

/-- An answer is consistent with the semantics of SMT-LIB: a model has a literal for some of
the declared constants, once each, and all values of the constants that it describes satisfy
the script; and what is unsatisfiable is a well-sorted script that no values of the
constants satisfy.  Nothing is known of the other answers. -/
def Answer.Consistent (S : Script) : Answer → Prop
  | .sat m =>
      (m.map Prod.fst).Nodup ∧
        (∀ p ∈ m, (∃ i < S.args, p.1 = varName i) ∧ ∃ x, smtLiteral p.2 = some x) ∧
        ∀ args, args.length = S.args → m.Describes args → S.Satisfied args
  | .unsat => S.WellSorted ∧ ∀ args, args.length = S.args → ¬ S.Satisfied args
  | .unknown | .error | .timeout => True

end DryadSynth
