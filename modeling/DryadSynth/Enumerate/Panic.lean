import DryadSynth.Enumerate.Complete

/-!
# Panics of the enumerator

The calls of defined functions and the suggested expressions are evaluated without a guard,
except that a second operand with a zero lane is skipped, and there are eight operators for
the defined functions of each arity.  `Defined` is what the state before an iteration has to
satisfy, and a run through such states does not panic.
-/

namespace DryadSynth

variable {N : ℕ}

/-- The defined functions of the rules are among the first eight, they return on the operands
that the next iteration takes from the bank, and so do the expressions suggested for its
size. -/
structure Algo.Defined (env : Environ) (algo : Algo N) : Prop where
  fop1 : ∀ id, .fop1 id ∈ algo.config → ∃ h : id < 8,
    ∀ p₁ ∈ algo.row (algo.size - 1), ∃ v, env.evalUn (.fop1 ⟨id, h⟩) p₁.2 = .ok v
  fop2 : ∀ id, .fop2 id ∈ algo.config → ∃ h : id < 8,
    ∀ p₁ p₂, algo.NonzeroOperands env (.fop2 id) p₁ p₂ → p₂.2.anyEq Bv.zeros = false →
      ∃ v, env.evalBin (.fop2 ⟨id, h⟩) p₁.2 p₂.2 = .ok v
  chatgpt : ∀ e n, .chatGPT e n ∈ algo.config → algo.size = n →
    ∃ v, e.evalBv env algo.args = .ok v

section Generate

variable {rule : Rule}

/-- The rules whose cases of `generate_op!` do not name them are those of the defined
functions, of the suggested expressions and of the variables. -/
theorem Rule.eq_of_generate (rule : Rule) :
  (rule.generate = .panic → ∃ id, (rule = .fop1 id ∨ rule = .fop2 id) ∧ ¬id < 8)
    ∧ (∀ e v, rule.generate = .chatgpt e v → rule = .chatGPT e v)
    ∧ (∀ id, rule.generate = .var id → rule = .var id)
    ∧ (∀ i, rule.generate = .op1 (.fop1 i) → rule = .fop1 i)
    ∧ ∀ i, rule.generate = .op2Nonzero (.fop2 i) → rule = .fop2 i
  := by
  cases rule with
  | fop1 id =>
      by_cases h : id < 8
      · simp only [Rule.generate, h, dif_pos, reduceCtorEq, false_imp_iff, implies_true, true_and,
          and_true, Generate.op1.injEq, UnOp.fop1.injEq]
        rintro i rfl
        rfl
      · simp [Rule.generate, h, Nat.not_lt.mp h]
  | fop2 id =>
      by_cases h : id < 8
      · simp only [Rule.generate, h, dif_pos, reduceCtorEq, false_imp_iff, implies_true, true_and,
          Generate.op2Nonzero.injEq, BinOp.fop2.injEq]
        rintro i rfl
        rfl
      · simp [Rule.generate, h, Nat.not_lt.mp h]
  | _ => simp [Rule.generate]

/-- The cases of `generate_op!` without a guard are those of operators that return. -/
theorem Rule.total_of_generate {o : BinOp}
    (h : (∃ c, rule.generate = .op1Constant o c) ∨ rule.generate = .op2Sym o
      ∨ rule.generate = .op2 o) :
  o.nonzero = false
  := by
  cases rule with
  | fop1 id | fop2 id =>
      by_cases hid : id < 8
      · simp [Rule.generate, hid] at h
      · simp [Rule.generate, hid] at h
  | lshrC c | ashrC c | shlC c =>
      simp only [Rule.generate, Generate.op1Constant.injEq, exists_eq_right', reduceCtorEq,
        or_false] at h
      rw [← h]
      rfl
  | add | xor | and | or | mul =>
      simp only [Rule.generate, reduceCtorEq, exists_false, Generate.op2Sym.injEq, or_false,
        false_or] at h
      rw [← h]
      rfl
  | sub | lshr | shl | ashr =>
      simp only [Rule.generate, reduceCtorEq, exists_false, Generate.op2.injEq, false_or] at h
      rw [← h]
      rfl
  | _ => simp [Rule.generate] at h

end Generate

namespace Run

section Panic

variable {σ : Type} {env : Environ} {args : List (Bv N)} {output : Bv N} {s : Run σ N}

theorem of_eq_fault {counted : Bool} {e : Expr} {r : Except Fault (Bv N)} {fault : Fault}
    (h : Offer.of counted e r = .fault fault) :
  r = .error fault
  := by
  cases r with
  | error f =>
      cases h
      rfl
  | ok v => cases h

/-- The operators of arity two other than the defined functions return, when no lane of a
divisor is zero. -/
theorem insert₂_ne_fault {counted : Bool} {o : BinOp} {p₁ p₂ : Expr × Bv N} {fault : Fault}
    (ho : ∀ i, o ≠ .fop2 i) (hp₂ : o.nonzero = true → p₂.2.anyEq Bv.zeros = false) :
  Offer.fault fault ≠ Algo.insert₂ env counted o p₁ p₂
  := by
  intro h
  obtain ⟨v, hv⟩ := env.exists_evalBin_of_nonzero ho p₁.2 hp₂
  have herror := of_eq_fault h.symm
  rw [hv] at herror
  cases herror

/-- The operators without a guard return. -/
theorem insert₂_ne_fault_of_total {counted : Bool} {o : BinOp} {p₁ p₂ : Expr × Bv N}
    {fault : Fault} (ho : o.nonzero = false) :
  Offer.fault fault ≠ Algo.insert₂ env counted o p₁ p₂
  := by
  apply insert₂_ne_fault
  · rintro i rfl
    cases ho
  · simp [ho]

/-- In a sound state that meets the condition, no offer is a fault. -/
theorem Sound.no_fault (h : Sound env args output s) (hdefined : s.algo.Defined env)
    (hvar : ∀ id, .var id ∈ s.algo.config → id < s.algo.args.length) (fault : Fault) :
  .fault fault ∉ s.algo.offers env
  := by
  intro hmem
  obtain ⟨rule, hrule, hoffered⟩ := Algo.exists_rule_of_mem_offers hmem
  obtain ⟨hpanic, hchatgpt, hvarRule, hfop1, hfop2⟩ := Rule.eq_of_generate rule
  generalize hfault : Offer.fault fault = offer at hoffered
  cases hoffered with
  | @op1 o p₁ hgenerate hp₁ =>
      have herror := of_eq_fault hfault.symm
      cases o with
      | fop1 i =>
          obtain rfl := hfop1 i hgenerate
          obtain ⟨hi, hreturns⟩ := hdefined.fop1 i hrule
          obtain ⟨v, hv⟩ := hreturns p₁ hp₁
          rw [hv] at herror
          cases herror
      | not => cases herror
      | neg => cases herror
  | op1Constant hgenerate hp₁ =>
      apply insert₂_ne_fault_of_total (Rule.total_of_generate (Or.inl ⟨_, hgenerate⟩)) hfault
  | op2Sym hgenerate hp₁ hp₂ =>
      apply insert₂_ne_fault_of_total (Rule.total_of_generate (Or.inr (Or.inl hgenerate))) hfault
  | op2Shift hgenerate hshift hp₁ hp₂ hatom =>
      apply insert₂_ne_fault_of_total (Rule.total_of_generate (Or.inr (Or.inr hgenerate))) hfault
  | op2 hgenerate hshift hp₁ hp₂ =>
      apply insert₂_ne_fault_of_total (Rule.total_of_generate (Or.inr (Or.inr hgenerate))) hfault
  | @op2Nonzero o counted p₁ p₂ hgenerate hp hzero =>
      by_cases ho : ∃ i, o = .fop2 i
      · have herror := of_eq_fault hfault.symm
        obtain ⟨i, rfl⟩ := ho
        obtain rfl := hfop2 i hgenerate
        obtain ⟨hi, hreturns⟩ := hdefined.fop2 i hrule
        obtain ⟨v, hv⟩ := hreturns p₁ p₂ hp hzero
        rw [hv] at herror
        cases herror
      · apply insert₂_ne_fault (not_exists.mp ho) (fun _ => hzero) hfault
  | var hgenerate hv => cases hfault
  | @varPanic id hgenerate hv =>
      obtain rfl := hvarRule id hgenerate
      have hid := hvar id hrule
      rw [List.getElem?_eq_none_iff] at hv
      omega
  | @chatgpt e v hgenerate hv =>
      obtain rfl := hchatgpt e v hgenerate
      obtain ⟨w, hw⟩ := hdefined.chatgpt e v hrule hv
      have herror := of_eq_fault hfault.symm
      rw [ExprIn.evalBv_convert, hw] at herror
      cases herror
  | const hgenerate => cases hfault
  | panic hgenerate =>
      obtain ⟨id, rfl | rfl, hid⟩ := hpanic hgenerate
      · obtain ⟨hlt, -⟩ := hdefined.fop1 id hrule
        apply hid hlt
      · obtain ⟨hlt, -⟩ := hdefined.fop2 id hrule
        apply hid hlt
  | @walk p₁ fault' hp₁ hresult =>
      have hvalue := h.bank p₁ (List.mem_append_left _ hp₁)
      rw [← h.args_eq] at hvalue
      rcases ExprIn.forEachSubexpr_of_evalBv hvalue with hnone | hsome
      · rw [hnone] at hresult
        cases hresult
      · rw [hsome] at hresult
        cases hresult

end Panic

/-- On an accepted problem, with a vector for each argument, `run_until` ends by an error of
the closure only, when every state before an iteration meets the condition. -/
theorem runUntil_ne_fault {σ : Type} {env : Environ} {problem : SynthProblem} {config : Config}
    {args : List (Bv N)} {output : Bv N} {dagSize : Bool} {f : Callback σ N} {u : σ}
    (hconfig : Config.fromProblem env problem = .ok config)
    (hargs : args.length = problem.args.length)
    (hdefined : ∀ k s, runUntil env f (Algo.new config args output dagSize) u k = .ok s →
      s.algo.Defined env)
    (k : ℕ) (fault : Fault) (s : Run σ N) :
  runUntil env f (Algo.new config args output dagSize) u k ≠ .error (.fault fault, s)
  := by
  intro h
  obtain ⟨j, s₀, hj, hrun⟩ := Machine.exists_of_loop_eq_error h
  obtain ⟨s₁, offer, hoffer, hstep⟩ := Machine.exists_of_run_eq_error hrun
  have hj : runUntil env f (Algo.new config args output dagSize) u j = .ok s₀ := hj
  have hhead := runUntil_head hj
  have hsound : Sound env args output s₀ := by
    have hreach := reachable_final env f (Algo.new config args output dagSize) u j
    rw [hj] at hreach
    apply hreach.sound
  have hvar : ∀ id, .var id ∈ s₀.algo.config → id < s₀.algo.args.length := by
    intro id hid
    rw [hhead.config_eq] at hid
    rw [hhead.args_eq, hargs]
    apply Config.lt_of_var_mem hconfig hid
  cases offer with
  | fault fault' => apply hsound.no_fault (hdefined j s₀ hj) hvar fault' hoffer
  | insert counted e v =>
      have hstopped := insert_eq_error hstep
      cases hstopped

/-- An environment with the function `f x = -x`. -/
def negEnviron : Environ :=
  (Environ.new 8).push 1 ⟨"f", ["x"], .un .neg (.var 0)⟩

/-- A problem over the grammar `x | (f Start)`. -/
def negProblem : SynthProblem :=
  ⟨"g", ["x"], [⟨"Start", [.id "x", .list [.id "f", .id "Start"]]⟩], .id "g", [], 64⟩

/-- A defined function without divisions: the first three sizes are enumerated, and do not
panic. -/
theorem runUntil_ne_fault_neg :
  (∃ s : Run Unit 1, runUntil negEnviron (fun _ _ _ => pure ())
    (Algo.new [.var 0, .fop1 0] [Bv.splat 5] (Bv.splat 7) true) () 3 = .ok s)
    ∧ ∀ fault (s : Run Unit 1), runUntil negEnviron (fun _ _ _ => pure ())
      (Algo.new [.var 0, .fop1 0] [Bv.splat 5] (Bv.splat 7) true) () 3 ≠ .error (.fault fault, s)
  := by
  use ⟨_, rfl⟩
  have hconfig : Config.fromProblem negEnviron negProblem = .ok [.var 0, .fop1 0] := rfl
  apply runUntil_ne_fault hconfig rfl _ 3
  intro k s h
  have hhead := runUntil_head h
  constructor
  · intro id hid
    simp only [hhead.config_eq, List.mem_cons, reduceCtorEq, Rule.fop1.injEq, List.not_mem_nil,
      or_false, false_or] at hid
    subst hid
    exact ⟨by decide, fun p₁ _ => ⟨_, rfl⟩⟩
  · simp [hhead.config_eq]
  · simp [hhead.config_eq]

/-- The file of a function `g` over the grammar `x | (f Start)`, where `f` has the given
body. -/
def fileWithBody (body : SExpr) : SExpr :=
  let width : SExpr := .list [.id "_", .id "BitVec", .id "64"]
  let argument : SExpr := .list [.list [.id "x", width]]
  .list
    [.list [.id "define-fun", .id "f", argument, width, body],
     .list [.id "synth-fun", .id "g", argument, width,
       .list [.list [.id "Start", width, .list [.id "x", .list [.id "f", .id "Start"]]]]]]

/-- A defined function that divides by its argument: the file is accepted, and the second size
evaluates the function at zero and panics. -/
theorem runUntil_panics_on_divide :
  ∃ env problem config,
    Environ.parse (Environ.new 8)
        (fileWithBody (.list [.id "bvudiv", .const "#x0000000000000001", .id "x"])) = .ok env
      ∧ SynthProblem.parse
        (fileWithBody (.list [.id "bvudiv", .const "#x0000000000000001", .id "x"])) = .ok problem
      ∧ Config.fromProblem env problem = .ok config
      ∧ ∃ s : Run Unit 1, runUntil env (fun _ _ _ => pure ())
        (Algo.new config [Bv.splat 0] (Bv.splat 7) false) () 2 = .error (.fault .panic, s)
  := ⟨_, _, _, rfl, rfl, rfl, _, rfl⟩

end Run

end DryadSynth
