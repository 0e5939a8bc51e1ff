import DryadSynth.Library.Machine
import DryadSynth.Parse.Constraint
import DryadSynth.Search.Solver

/-!
# The CEGIS loop

`CegisState::verify` of `cegis.rs` and the loop of `SearchConfig::cegis_loop`.  The solver is
any function from the number of checks so far and the script to an answer, and the search
proposes any stream of candidates.
-/

namespace DryadSynth

open QFBV (Value)

/-! ### Verification -/

/-- `CegisState`, without the configuration of the solver. -/
structure CegisState where
  examples : PbeConstraint
  constraint : RefImplConstraint

namespace CegisState

/-- `VAR_NAMES`. -/
def varNames : List String := ["v0", "v1", "v2", "v3", "v4", "v5", "v6", "v7", "v8", "v9", "v10"]

/-- `CegisState::new`. -/
def new (args : ℕ) (refimpl : RefImplConstraint) : CegisState := ⟨PbeConstraint.new args, refimpl⟩

/-- The assertion that the candidate differs from the reference. -/
def difference (r e : SExpr) : SExpr := .list [.id "not", .list [.id "=", r, e]]

/-- The equation of the `i`-th constant with a value. -/
def equation (x : BitVec 64) (i : ℕ) : SExpr :=
  .list [.id "=", .id (varName i), .const (hexLiteral x)]

/-- The assertion that the constants do not have the values `args`. -/
def blocking : List (BitVec 64) → SExpr
  | [a] => .list [.id "distinct", .id "v0", .const (hexLiteral a)]
  | args =>
      .list [.id "not", .list (.id "and" :: args.zipIdx.map fun p => equation p.1 p.2)]

/-- The part of `verify` before its loop.  There are eleven names to declare. -/
def script (env : Environ) (c : RefImplConstraint) (expr : OwnedExpr) : Except Fault Script :=
  if c.args ≤ varNames.length then
    match c.refImpl.display env, expr.display env with
    | some r, some e => .ok ⟨c.args, [difference r e]⟩
    | _, _ => .error .panic
  else .error .panic

/-- An entry of the model written into the arguments. -/
def setArg (args : List (BitVec 64)) : String × String → Except Fault (List (BitVec 64))
  | (name, value) =>
      match u64ConstantNoError value, varNames.findIdx? fun x => x = name with
      | .ok x, some i => if i < args.length then .ok (args.set i x) else .error .panic
      | _, _ => .error .panic

/-- The arguments read off a model.  An argument the model says nothing about is its own
index. -/
def modelArgs (n : ℕ) (model : Model) : Except Fault (List (BitVec 64)) :=
  model.foldlM setArg ((List.range n).map (BitVec.ofNat 64))

/-- What an iteration of the loop of `verify` does. -/
inductive Verdict where
  | accepted
  | rejected (args : List (BitVec 64)) (out : BitVec 64)
  | blocked (args : List (BitVec 64))

/-- An iteration of the loop of `verify`, by the answer of the solver.  Every answer other
than `sat` accepts the candidate. -/
def verdict (env : Environ) (c : RefImplConstraint) : Answer → Except Fault Verdict
  | .sat model => do
      let args ← modelArgs c.args model
      match c.refImpl.eval env args with
      | .ok out => .ok (.rejected args out)
      | .error .divideByZero => .ok (.blocked args)
      | .error .panic => .error .panic
      | .error .stackOverflow => .error .stackOverflow
  | .unsat | .unknown | .error | .timeout => .ok .accepted

section Arguments

variable {args args' : List (BitVec 64)}

theorem setArg_eq_ok {name value : String} (h : setArg args (name, value) = .ok args') :
  ∃ i x, name = varName i ∧ i < args.length ∧ u64ConstantNoError value = .ok x ∧
    args' = args.set i x
  := by
  simp only [setArg] at h
  split at h
  · next x i hx hi =>
      split_ifs at h with hlen
      obtain ⟨hlt, hname, -⟩ := List.findIdx?_eq_some_iff_getElem.mp hi
      have hnames : varNames = paramNames 11 := rfl
      refine ⟨i, x, ?_, hlen, hx, (Except.ok.inj h).symm⟩
      simpa [hnames, paramNames] using (of_decide_eq_true hname).symm
  · cases h

theorem length_foldlM_setArg {m : Model} (h : m.foldlM setArg args = .ok args') :
  args'.length = args.length
  := by
  induction m generalizing args with
  | nil =>
      cases h
      rfl
  | cons p m ih =>
      obtain ⟨args₁, hp, h⟩ := bind_eq_ok.mp h
      obtain ⟨i, x, -, -, -, rfl⟩ := setArg_eq_ok hp
      rw [ih h, List.length_set]

/-- Entries of distinct names are all found in the arguments they are written into. -/
theorem describes_foldlM_setArg {m : Model} (hnodup : (m.map Prod.fst).Nodup)
    (hlit : ∀ p ∈ m, ∃ x, smtLiteral p.2 = some x) (h : m.foldlM setArg args = .ok args') :
  m.Describes args' ∧ ∀ i, varName i ∉ m.map Prod.fst → args'[i]? = args[i]?
  := by
  induction m generalizing args with
  | nil =>
      cases h
      constructor
      · intro i value hi
        cases hi
      · intro i hi
        rfl
  | cons p m ih =>
      obtain ⟨name, value⟩ := p
      obtain ⟨args₁, hp, h⟩ := bind_eq_ok.mp h
      obtain ⟨i, x, rfl, hlen, hx, rfl⟩ := setArg_eq_ok hp
      obtain ⟨hi, hnodup⟩ := List.nodup_cons.mp hnodup
      obtain ⟨hdesc, hrest⟩ := ih hnodup (fun p hp => hlit p (List.mem_cons_of_mem _ hp)) h
      constructor
      · intro j value' hj
        rcases List.mem_cons.mp hj with hj | hj
        · obtain ⟨hname, rfl⟩ := Prod.mk.inj hj
          obtain rfl := varName_injective hname
          obtain ⟨y, hy⟩ := hlit _ List.mem_cons_self
          have hxy := Except.ok.inj (hx.symm.trans (u64ConstantNoError_of_smtLiteral hy))
          use y, hy
          rw [hrest j hi, List.getElem?_set_self hlen, hxy]
        · apply hdesc j value' hj
      · intro j hj
        rw [List.map_cons, List.mem_cons, not_or] at hj
        rw [hrest j hj.2, List.getElem?_set_ne]
        rintro rfl
        apply hj.1 rfl

theorem length_modelArgs {n : ℕ} {m : Model} (h : modelArgs n m = .ok args) :
  args.length = n
  := by
  rw [length_foldlM_setArg h, List.length_map, List.length_range]

/-- The arguments that `verify` reads off a model satisfy the script. -/
theorem satisfied_modelArgs {S : Script} {m : Model} (hm : (Answer.sat m).Consistent S)
    (h : modelArgs S.args m = .ok args) :
  S.Satisfied args
  := by
  obtain ⟨hnodup, hentries, hsat⟩ := hm
  apply hsat args (length_modelArgs h)
  apply (describes_foldlM_setArg hnodup _ h).1
  intro p hp
  apply (hentries p hp).2

end Arguments

/-! ### The assertions of a verification -/

section Assertions

variable {args : List (BitVec 64)}

/-- The equations of the constants with a part of some values. -/
theorem value_equations (args xs : List (BitVec 64)) (k : ℕ) (h : k + xs.length ≤ args.length) :
  ∃ ts, ∃ bs : List Bool, SExpr.toTerms ((xs.zipIdx k).map fun p => equation p.1 p.2) = some ts ∧
    QFBV.denoteAll QFBV.noSymbols (argValuation args) ts = some (bs.map .bool) ∧
    (bs.all id = true ↔ xs <+: args.drop k)
  := by
  induction xs generalizing k with
  | nil => exact ⟨[], [], rfl, rfl, by simp⟩
  | cons x xs ih =>
      have hk : k < args.length := by
        simp only [List.length_cons] at h
        omega
      obtain ⟨ts, bs, hts, hbs, hall⟩ := ih (k + 1) (by simp only [List.length_cons] at h; omega)
      have hvalue : Script.value args (equation x k) = some (.bool (args[k] == x)) :=
        Script.value_call₂.mpr ⟨_, _, Script.value_varName (List.getElem?_eq_getElem hk),
          Script.value_hexLiteral args x, rfl⟩
      obtain ⟨t, ht, hb⟩ := Option.bind_eq_some_iff.mp hvalue
      refine ⟨t :: ts, (args[k] == x) :: bs, ?_, ?_, ?_⟩
      · simp [ht, hts]
      · simp [hb, hbs]
      · rw [List.all_cons, Bool.and_eq_true, hall, List.drop_eq_getElem_cons hk,
          List.cons_prefix_cons, id, beq_iff_eq, eq_comm]

/-- The blocking assertion says that the constants do not have the values. -/
theorem value_blocking {args' : List (BitVec 64)} (h : args'.length = args.length) :
  Script.value args' (blocking args) = some (.bool (decide (args' ≠ args)))
  := by
  unfold blocking
  split
  · next a =>
      obtain ⟨a', rfl⟩ := List.length_eq_one_iff.mp h
      have hname : varName 0 = "v0" := rfl
      apply Script.value_call₂.mpr
      refine ⟨.bits a', .bits a, ?_, Script.value_hexLiteral _ a, ?_⟩
      · rw [← hname]
        apply Script.value_varName rfl
      · have hdistinct : QFBV.meaning QFBV.noSymbols "distinct" [.bits a', .bits a]
            = some (.bool (a' != a)) := rfl
        rw [hdistinct]
        congr 2
        rw [Bool.eq_iff_iff, bne_iff_ne, decide_eq_true_iff]
        simp
  · obtain ⟨ts, bs, hts, hbs, hall⟩ := value_equations args' args 0 (by omega)
    apply Script.value_call₁.mpr
    refine ⟨.bool (bs.all id), ?_, ?_⟩
    · simp [Script.value, hts, QFBV.denote, hbs, QFBV.meaning_and]
    · have hnot : QFBV.meaning QFBV.noSymbols "not" [(.bool (bs.all id) : Value 64)]
          = some (.bool !(bs.all id)) := rfl
      rw [hnot]
      congr 2
      rw [Bool.eq_iff_iff, Bool.not_eq_true', ← Bool.not_eq_true, hall, List.drop_zero,
        decide_eq_true_iff, not_iff_not]
      constructor
      · intro hpre
        apply (hpre.eq_of_length h.symm).symm
      · rintro rfl
        apply List.prefix_rfl

/-- The values of both sides of a difference that has a value. -/
theorem value_difference {r e : SExpr} {b : Bool}
    (h : Script.value args (difference r e) = some (.bool b)) :
  ∃ u v, Script.value args r = some u ∧ Script.value args e = some v ∧
    ∀ x y, u = .bits x → v = .bits y → b = (x != y)
  := by
  obtain ⟨c, hc, hb⟩ := Script.value_call₁.mp h
  obtain ⟨u, v, hu, hv, hc⟩ := Script.value_call₂.mp hc
  use u, v, hu, hv
  rintro x y rfl rfl
  cases hc
  apply (Value.bool.inj (Option.some.inj hb)).symm

end Assertions

end CegisState

/-! ### The loop -/

/-- A run of `cegis_loop`: the state, the candidate that is being verified with the script of
its verification, how often the search and the solver were called, and the candidates that
were rejected with the index of the example that each left behind. -/
structure CegisRun where
  state : CegisState
  verifying : Option (OwnedExpr × Script)
  searches : ℕ
  checks : ℕ
  rejected : List (OwnedExpr × ℕ)

/-- How a run ends: with a candidate, after the answer that accepted it; with the error of the
search; or with a fault. -/
inductive CegisHalt where
  | solved (e : OwnedExpr) (answer : Answer)
  | searchError
  | fault (f : Fault)

namespace CegisRun

/-- The beginning of `cegis_loop`: the random examples that the draws give. -/
def start (env : Environ) (args : ℕ) (refimpl : RefImplConstraint)
    (draws : List (List (BitVec 64))) : Except Fault CegisRun := do
  let examples ← draws.foldlM (PbeConstraint.randomExample env refimpl.refImpl)
    (PbeConstraint.new args)
  .ok ⟨{ CegisState.new args refimpl with examples }, none, 0, 0, []⟩

section Step

variable (env : Environ) (search : ℕ → Option OwnedExpr) (solver : ℕ → Script → Answer)

/-- The search proposes a candidate, and its verification begins. -/
def propose (s : CegisRun) : Except (CegisHalt × CegisRun) CegisRun :=
  match search s.searches with
  | none => .error (.searchError, s)
  | some expr =>
      match CegisState.script env s.state.constraint expr with
      | .ok script =>
          .ok { s with verifying := some (expr, script), searches := s.searches + 1 }
      | .error f => .error (.fault f, s)

/-- The solver answers, in the verification of a candidate. -/
def check (s : CegisRun) (expr : OwnedExpr) (script : Script) :
    Except (CegisHalt × CegisRun) CegisRun :=
  match CegisState.verdict env s.state.constraint (solver s.checks script) with
  | .ok .accepted => .error (.solved expr (solver s.checks script), s)
  | .ok (.rejected args out) =>
      .ok { s with
        state.examples := s.state.examples.addExample args out
        verifying := none
        checks := s.checks + 1
        rejected := (expr, s.state.examples.len) :: s.rejected }
  | .ok (.blocked args) =>
      .ok { s with
        verifying :=
          some (expr, { script with asserts := script.asserts ++ [CegisState.blocking args] })
        checks := s.checks + 1 }
  | .error f => .error (.fault f, s)

/-- A step of the loop. -/
def step (s : CegisRun) (_ : Unit) : Except (CegisHalt × CegisRun) CegisRun :=
  match s.verifying with
  | none => s.propose env search
  | some (expr, script) => s.check env solver expr script

/-- A number of steps of the loop. -/
def steps (s : CegisRun) (k : ℕ) : Except (CegisHalt × CegisRun) CegisRun :=
  Machine.loop (step env search solver) (fun _ => [()]) id s k

end Step

/-! ### Steps -/

section Invariants

variable {env : Environ} {search : ℕ → Option OwnedExpr} {solver : ℕ → Script → Answer}
  {s s' : CegisRun}

theorem steps_succ_eq_ok {k : ℕ} :
  steps env search solver s (k + 1) = .ok s'
    ↔ ∃ s₀, steps env search solver s k = .ok s₀ ∧ step env search solver s₀ () = .ok s'
  := by
  rw [steps, Machine.loop_succ_eq_ok]
  simp [steps]

theorem exists_of_steps_eq_error {k : ℕ} {halt : CegisHalt}
    (h : steps env search solver s k = .error (halt, s')) :
  ∃ j s₀, steps env search solver s j = .ok s₀ ∧
    step env search solver s₀ () = .error (halt, s')
  := by
  obtain ⟨j, s₀, hj, hrun⟩ := Machine.exists_of_loop_eq_error h
  use j, s₀, hj
  rw [Machine.run_cons] at hrun
  rcases bind_eq_error.mp hrun with hstep | ⟨s₁, -, hrun⟩
  · apply hstep
  · cases hrun

/-- What a step does: a candidate is proposed, rejected, or kept with a blocking assertion. -/
inductive Transition (env : Environ) (search : ℕ → Option OwnedExpr)
    (solver : ℕ → Script → Answer) (s : CegisRun) : CegisRun → Prop
  | propose {expr script} (hv : s.verifying = none) (he : search s.searches = some expr)
      (hs : CegisState.script env s.state.constraint expr = .ok script) :
      Transition env search solver s
        { s with verifying := some (expr, script), searches := s.searches + 1 }
  | reject {expr script model args out} (hv : s.verifying = some (expr, script))
      (hm : solver s.checks script = .sat model)
      (hargs : CegisState.modelArgs s.state.constraint.args model = .ok args)
      (hout : s.state.constraint.refImpl.eval env args = .ok out) :
      Transition env search solver s
        { s with
          state.examples := s.state.examples.addExample args out
          verifying := none
          checks := s.checks + 1
          rejected := (expr, s.state.examples.len) :: s.rejected }
  | block {expr script args} (hv : s.verifying = some (expr, script))
      (hargs : args.length = s.state.constraint.args)
      (hout : s.state.constraint.refImpl.eval env args = .error .divideByZero) :
      Transition env search solver s
        { s with
          verifying :=
            some (expr, { script with asserts := script.asserts ++ [CegisState.blocking args] })
          checks := s.checks + 1 }

theorem verdict_eq_ok {c : RefImplConstraint} {a : Answer} {v : CegisState.Verdict}
    (h : CegisState.verdict env c a = .ok v) :
  match v with
  | .accepted => ∀ m, a ≠ .sat m
  | .rejected args out => ∃ m, a = .sat m ∧ CegisState.modelArgs c.args m = .ok args ∧
      c.refImpl.eval env args = .ok out
  | .blocked args => ∃ m, a = .sat m ∧ CegisState.modelArgs c.args m = .ok args ∧
      c.refImpl.eval env args = .error .divideByZero
  := by
  cases a with
  | sat m =>
      obtain ⟨args, hargs, h⟩ := bind_eq_ok.mp h
      cases hr : c.refImpl.eval env args with
      | ok out =>
          simp only [hr] at h
          cases h
          exact ⟨m, rfl, hargs, hr⟩
      | error f =>
          cases f with
          | divideByZero =>
              simp only [hr] at h
              cases h
              exact ⟨m, rfl, hargs, hr⟩
          | _ => simp [hr] at h
  | _ =>
      cases h
      simp

theorem step_eq_ok (h : step env search solver s () = .ok s') :
  Transition env search solver s s'
  := by
  unfold step at h
  split at h
  · next hv =>
      unfold propose at h
      split at h
      · cases h
      · next expr he =>
          split at h
          · next script hs =>
              cases h
              exact .propose hv he hs
          · cases h
  · next expr script hv =>
      unfold check at h
      split at h
      · cases h
      · next args out hverdict =>
          cases h
          obtain ⟨m, hm, hargs, hout⟩ := verdict_eq_ok hverdict
          exact .reject hv hm hargs hout
      · next args hverdict =>
          cases h
          obtain ⟨m, hm, hargs, hout⟩ := verdict_eq_ok hverdict
          exact .block hv (CegisState.length_modelArgs hargs) hout
      · cases h

/-- A run that ends with a candidate ends in its verification. -/
theorem step_eq_solved {e : OwnedExpr} {a : Answer}
    (h : step env search solver s () = .error (.solved e a, s')) :
  ∃ script, s.verifying = some (e, script) ∧ solver s.checks script = a
  := by
  unfold step at h
  split at h
  · unfold propose at h
    split at h
    · cases h
    · split at h
      · cases h
      · cases h
  · next expr script hv =>
      unfold check at h
      split at h
      · cases h
        use script, hv
      · cases h
      · cases h
      · cases h

end Invariants

end CegisRun

end DryadSynth
