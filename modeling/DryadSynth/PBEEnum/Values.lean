import DryadSynth.Library.Exits
import DryadSynth.Library.Lists
import DryadSynth.PBEEnum.EnumSize

/-!
# The values of enumerated expressions

The value of an expression on an example is what `applyThenCompute` gives for it as the definition
of the function, with the inputs of the example for the arguments.  `compute` gives the outputs of
a new expression from those of its operands, without a look at the expression.  The outputs that it
gives are values, `compute_spec`.
-/

namespace DryadSynth

open QFBV (Term)
open Sygus.DnC (Rule)

namespace OpDispatcher

/-! ### Evaluation without null -/

section Evaluation

variable {call : String → List (Option (BitVec 64)) → Except JavaFault (Option (BitVec 64))}
  {args : List String} {params : List (BitVec 64)}

theorem length_of_applyThenCompute {t : Term 64} {x : Option (BitVec 64)}
    (h : applyThenCompute call args params t = .ok x) :
  args.length = params.length
  := by
  by_contra hne
  cases t <;> rw [applyThenCompute, if_pos hne] at h <;> cases h

theorem computeAll_eq_mapM (ts : List (Term 64)) :
  computeAll call args params ts = ts.mapM (applyThenCompute call args params)
  := by
  induction ts with
  | nil => rfl
  | cons t ts ih =>
      rw [computeAll, List.mapM_cons, ih]
      rfl

/-- The value of an application from those of its operands. -/
theorem applyThenCompute_of_values {f : String} {ts : List (Term 64)} {vs : List (BitVec 64)}
    (hne : ts ≠ []) (hlen : args.length = params.length)
    (hts : List.Forall₂ (fun t v => applyThenCompute call args params t = .ok (some v)) ts vs) :
  applyThenCompute call args params (.app f ts) = call (declName f) (vs.map some)
  := by
  have hall : ts.mapM (applyThenCompute call args params) = .ok (vs.map some) := by
    rw [Exits.mapM_eq_ok, List.forall₂_map_right_iff]
    exact hts
  rw [applyThenCompute, if_neg (not_not.mpr hlen), if_neg (by simpa using hne),
    computeAll_eq_mapM, hall]
  rfl

theorem isSome_of_constant {s : String} {x : Option (BitVec 64)}
    (h : constant args params s = .ok x) :
  x.isSome
  := by
  rw [constant] at h
  split at h
  · cases h
    rfl
  · cases h

/-- Without null results of the calls there are none at all. -/
theorem isSome_of_applyThenCompute
    (hcall : ∀ name (vs : List (BitVec 64)) x, call name (vs.map some) = .ok x → x.isSome)
    {t : Term 64} {x : Option (BitVec 64)} (h : applyThenCompute call args params t = .ok x) :
  x.isSome
  := by
  have hlen := length_of_applyThenCompute h
  induction t using Term.ind generalizing x with
  | symbol s =>
      rw [applyThenCompute, if_neg (not_not.mpr hlen)] at h
      apply isSome_of_constant h
  | literal y =>
      rw [applyThenCompute, if_neg (not_not.mpr hlen)] at h
      cases h
      rfl
  | app f ts ih =>
      rw [applyThenCompute, if_neg (not_not.mpr hlen)] at h
      split at h
      · apply isSome_of_constant h
      · rw [computeAll_eq_mapM] at h
        obtain ⟨xs, hxs, h⟩ := Exits.bind_eq_ok.mp h
        obtain ⟨vs, rfl⟩ := Lists.exists_map_of_forall₂ (k := some) (Exits.mapM_eq_ok.mp hxs)
          fun t ht y hy => by
            obtain ⟨v, rfl⟩ := Option.isSome_iff_exists.mp (ih t ht hy)
            exact ⟨v, rfl⟩
        apply hcall _ vs x h

end Evaluation

theorem isSome_of_operator (d : OpDispatcher) {n : ℕ} {name : String}
    {f : List (BitVec 64) → Except JavaFault (BitVec 64)} (hop : pbeOperator name = some f)
    {vs : List (BitVec 64)} {x : Option (BitVec 64)}
    (h : d.pbeDispatch n name (vs.map some) false = .ok x) :
  x.isSome
  := by
  rw [pbeDispatch_operator hop] at h
  cases hf : f vs with
  | error fault =>
      rw [hf] at h
      cases h
  | ok a =>
      rw [hf] at h
      cases h
      rfl

/-- A call without null arguments has a value. -/
theorem isSome_of_pbeDispatch (d : OpDispatcher) {n : ℕ} {name : String} {vs : List (BitVec 64)}
    {x : Option (BitVec 64)} (h : d.pbeDispatch n name (vs.map some) false = .ok x) :
  x.isSome
  := by
  cases hop : pbeOperator name with
  | some f => apply d.isSome_of_operator hop h
  | none =>
      induction n generalizing name vs x with
      | zero =>
          rw [pbeDispatch, pbeDispatchWith, mapM_some] at h
          dsimp only at h
          rw [hop] at h
          dsimp only at h
          split at h
          · cases h
          · cases h
      | succ n ih =>
          cases hdf : d.funcs name with
          | none =>
              rw [pbeDispatch, pbeDispatchWith, mapM_some] at h
              dsimp only at h
              rw [hop, hdf] at h
              cases h
          | some df =>
              rw [pbeDispatch_defined hop hdf] at h
              apply isSome_of_applyThenCompute _ h
              intro name vs x hx
              cases hop : pbeOperator name with
              | some f => apply d.isSome_of_operator hop hx
              | none => apply ih hx hop

/-! ### The value of a new expression -/

/-- No function is defined under the name of an operator. -/
def FreshNames (d : OpDispatcher) : Prop := ∀ name ∈ operatorNames, d.funcs name = none

theorem pbeDispatch_declName (d : OpDispatcher) {n : ℕ} (name : String) (vs : List (BitVec 64)) :
  d.pbeDispatch n (declName name) (vs.map some) false = d.pbeDispatch n name (vs.map some) false
  := by
  by_cases hname : name = "ite"
  · subst hname
    rw [pbeDispatch_operator (show pbeOperator (declName "ite") = some conditional by rfl),
      pbeDispatch_operator (show pbeOperator "ite" = some conditional by rfl)]
  · rw [declName, if_neg hname]

/-- A name that is no operator of `pbeDispatch` and no defined function has no value. -/
theorem pbeDispatch_unknown (d : OpDispatcher) {n : ℕ} {name : String}
    (hop : pbeOperator name = none) (hdf : d.funcs name = none) (vs : List (BitVec 64)) :
  d.pbeDispatch n name (vs.map some) false = .error (.unknownOperator name)
  := by
  cases n with
  | zero =>
      rw [pbeDispatch, pbeDispatchWith, mapM_some]
      dsimp only
      rw [hop, hdf]
  | succ n =>
      rw [pbeDispatch, pbeDispatchWith, mapM_some]
      dsimp only
      rw [hop, hdf]

/-- The operators of `pbeDispatch` that take one argument in a term read one. -/
theorem unary_of_mem {name : String} (hname : name ∈ unaryNames)
    {f : List (BitVec 64) → Except JavaFault (BitVec 64)} (hop : pbeOperator name = some f) :
  ∃ k, f = unary k
  := by
  fin_cases hname <;> cases hop <;> exact ⟨_, rfl⟩

/-- The operators of `pbeDispatch` that take two arguments in a term read two. -/
theorem binary_of_mem {name : String} (hname : name ∈ binaryNames)
    {f : List (BitVec 64) → Except JavaFault (BitVec 64)} (hop : pbeOperator name = some f) :
  ∃ k, f = binary k
  := by
  fin_cases hname <;> cases hop <;> exact ⟨_, rfl⟩

theorem argAt_eq_ok {α : Type} {args : List α} {i : ℕ} {a : α} :
  argAt args i = .ok a ↔ args[i]? = some a
  := by
  rw [argAt]
  cases args[i]? <;> simp

/-- The application of `name'` to the first `k` arguments has the values of `name` on all of
them. -/
def ReadsFirst (name name' : String) (k n : ℕ) : Prop :=
  ∀ f, pbeOperator name = some f → ∃ f', pbeOperator name' = some f' ∧
    ∀ vs : List (BitVec 64), vs.length = n → f' (vs.take k) = f vs

/-- The term of an operator takes the first of the arguments. -/
theorem operatorTerm_eq_app {name : String} (hname : name ∈ operatorNames) {es : List (Term 64)}
    {e : Term 64} (he : operatorTerm name es = .ok e) (hne : es ≠ []) :
  ∃ name' k, e = .app name' (es.take k) ∧ es.take k ≠ [] ∧ ReadsFirst name name' k es.length
  := by
  rw [operatorTerm] at he
  split at he
  next =>
      cases he
      refine ⟨name, es.length, by rw [List.take_length], by rwa [List.take_length], ?_⟩
      intro f hop
      refine ⟨f, hop, ?_⟩
      intro vs hvs
      rw [← hvs, List.take_length]
  next hnary =>
      split at he
      next hunary =>
          obtain ⟨a, ha, he⟩ := Exits.bind_eq_ok.mp he
          cases he
          rw [argAt_eq_ok] at ha
          obtain ⟨rest, rfl⟩ : ∃ rest, es = a :: rest := by
            cases es with
            | nil => cases ha
            | cons b rest => exact ⟨rest, by cases ha; rfl⟩
          refine ⟨name, 1, rfl, List.cons_ne_nil _ _, ?_⟩
          intro f hop
          refine ⟨f, hop, ?_⟩
          obtain ⟨k, rfl⟩ := unary_of_mem hunary hop
          intro vs hvs
          cases vs with
          | nil => cases hvs
          | cons v vs => rfl
      next hunary =>
          split at he
          next hbinary =>
              obtain ⟨a, ha, he⟩ := Exits.bind_eq_ok.mp he
              obtain ⟨b, hb, he⟩ := Exits.bind_eq_ok.mp he
              cases he
              rw [argAt_eq_ok] at ha hb
              obtain ⟨rest, rfl⟩ : ∃ rest, es = a :: b :: rest := by
                rcases es with _ | ⟨c, _ | ⟨d, rest⟩⟩
                · cases ha
                · cases hb
                · exact ⟨rest, by cases ha; cases hb; rfl⟩
              refine ⟨name, 2, rfl, List.cons_ne_nil _ _, ?_⟩
              intro f hop
              refine ⟨f, hop, ?_⟩
              obtain ⟨k, rfl⟩ := binary_of_mem hbinary hop
              intro vs hvs
              rcases vs with _ | ⟨v, _ | ⟨w, vs⟩⟩
              · cases hvs
              · cases hvs
              · rfl
          next hbinary =>
              have hite : name ∈ iteNames := by
                simpa [operatorNames, hnary, hunary, hbinary] using hname
              obtain ⟨a, ha, he⟩ := Exits.bind_eq_ok.mp he
              obtain ⟨b, hb, he⟩ := Exits.bind_eq_ok.mp he
              obtain ⟨c, hc, he⟩ := Exits.bind_eq_ok.mp he
              cases he
              rw [argAt_eq_ok] at ha hb hc
              obtain ⟨rest, rfl⟩ : ∃ rest, es = a :: b :: c :: rest := by
                rcases es with _ | ⟨x, _ | ⟨y, _ | ⟨z, rest⟩⟩⟩
                · cases ha
                · cases hb
                · cases hc
                · exact ⟨rest, by cases ha; cases hb; cases hc; rfl⟩
              refine ⟨"ite", 3, rfl, List.cons_ne_nil _ _, ?_⟩
              intro f hop
              obtain rfl : f = conditional := by
                fin_cases hite <;> cases hop <;> rfl
              refine ⟨conditional, rfl, ?_⟩
              intro vs hvs
              rcases vs with _ | ⟨u, _ | ⟨v, _ | ⟨w, vs⟩⟩⟩
              · cases hvs
              · cases hvs
              · cases hvs
              · rfl

/-- `dispatch` applies a name to the first of the arguments, and the value depends on no
others. -/
theorem dispatch_eq_app (d : OpDispatcher) (hfresh : d.FreshNames) {name : String}
    {es : List (Term 64)} {e : Term 64} (he : d.dispatch name es true true = .ok e)
    (hne : es ≠ []) :
  ∃ name' k, e = .app name' (es.take k) ∧ es.take k ≠ [] ∧
    ∀ n (vs : List (BitVec 64)) v, vs.length = es.length →
      d.pbeDispatch n name (vs.map some) false = .ok (some v) →
        d.pbeDispatch n name' ((vs.take k).map some) false = .ok (some v)
  := by
  rw [dispatch] at he
  split at he
  next hname =>
      obtain ⟨name', k, rfl, htake, hreads⟩ := operatorTerm_eq_app hname he hne
      refine ⟨name', k, rfl, htake, ?_⟩
      intro n vs v hlen hv
      cases hop : pbeOperator name with
      | none =>
          rw [d.pbeDispatch_unknown hop (hfresh name hname)] at hv
          cases hv
      | some f =>
          obtain ⟨f', hop', hf'⟩ := hreads f hop
          rw [pbeDispatch_operator hop] at hv
          rw [pbeDispatch_operator hop', hf' vs hlen, hv]
  next =>
      split at he
      next df _ =>
          rw [if_pos rfl] at he
          cases he
          refine ⟨name, es.length, by rw [List.take_length], by rwa [List.take_length], ?_⟩
          intro n vs v hlen hv
          rw [← hlen, List.take_length, hv]
      next =>
          rw [if_pos rfl] at he
          cases he

end OpDispatcher

namespace PBEEnumSize

variable (p : PBEEnumSize)

/-- The value of an expression as the definition of the function. -/
def value (args : List (BitVec 64)) (e : Term 64) : Except JavaFault (Option (BitVec 64)) :=
  OpDispatcher.applyThenCompute p.pbeDispatch p.requestArgs args e

variable {p}

theorem value_dispatch (hfresh : p.opDis.FreshNames) {name : String} {es : List (Term 64)}
    {e : Term 64} (he : p.opDis.dispatch name es true true = .ok e) (hne : es ≠ [])
    {args vs : List (BitVec 64)} {v : BitVec 64}
    (hes : List.Forall₂ (fun e v => p.value args e = .ok (some v)) es vs)
    (hv : p.pbeDispatch name (vs.map some) = .ok (some v)) :
  p.value args e = .ok (some v)
  := by
  obtain ⟨name', k, rfl, htake, hreads⟩ := p.opDis.dispatch_eq_app hfresh he hne
  have hlen : p.requestArgs.length = args.length := by
    cases hes with
    | nil => exact absurd rfl hne
    | cons hval _ => exact OpDispatcher.length_of_applyThenCompute hval
  have hval := OpDispatcher.applyThenCompute_of_values (f := name') htake hlen
    (List.forall₂_take k hes)
  rw [value, hval, pbeDispatch, OpDispatcher.pbeDispatch_declName]
  apply hreads _ vs v hes.length_eq.symm hv

/-! ### Constant expressions -/

/-- The variables of an expression are among these. -/
inductive VarsIn (vars : List String) : Term 64 → Prop
  | symbol {s : String} (hs : s ∈ vars) : VarsIn vars (.symbol s)
  | literal (x : BitVec 64) : VarsIn vars (.literal x)
  | app {f : String} {ts : List (Term 64)} (hne : ts ≠ []) (hts : ∀ t ∈ ts, VarsIn vars t) :
      VarsIn vars (.app f ts)

theorem varsIn_dispatch (hfresh : p.opDis.FreshNames) {vars : List String} {name : String}
    {es : List (Term 64)} {e : Term 64} (he : p.opDis.dispatch name es true true = .ok e)
    (hne : es ≠ []) (hes : ∀ e ∈ es, VarsIn vars e) :
  VarsIn vars e
  := by
  obtain ⟨name', k, rfl, htake, -⟩ := p.opDis.dispatch_eq_app hfresh he hne
  apply VarsIn.app htake
  intro t ht
  apply hes t (List.mem_of_mem_take ht)

theorem anyContainsVar_eq_false {vars : List String} {ts : List (Term 64)} :
  anyContainsVar vars ts = false ↔ ∀ t ∈ ts, containsVar vars t = false
  := by
  induction ts with
  | nil => simp [anyContainsVar]
  | cons t ts ih => rw [anyContainsVar, Bool.or_eq_false_iff, ih, List.forall_mem_cons]

theorem VarsIn.of_constant {vars : List String} {e : Term 64} (he : VarsIn vars e)
    (hconst : containsVar vars e = false) :
  VarsIn [] e
  := by
  induction he with
  | symbol hs => simp [containsVar, hs] at hconst
  | literal x => apply VarsIn.literal
  | @app f ts hne hts ih =>
      have hempty : ts.isEmpty = false := by simpa using hne
      rw [containsVar, hempty, if_neg (by simp), anyContainsVar_eq_false] at hconst
      apply VarsIn.app hne
      intro t ht
      apply ih t ht (hconst t ht)

/-- The value depends on the arguments for the variables of the expression. -/
theorem applyThenCompute_congr
    {call : String → List (Option (BitVec 64)) → Except JavaFault (Option (BitVec 64))}
    {vars args : List String} {params params' : List (BitVec 64)} {e : Term 64}
    (he : VarsIn vars e) (hlen : params.length = params'.length)
    (hvars : ∀ s ∈ vars, OpDispatcher.constant args params s
      = OpDispatcher.constant args params' s) :
  OpDispatcher.applyThenCompute call args params e
    = OpDispatcher.applyThenCompute call args params' e
  := by
  induction he with
  | symbol hs =>
      rw [OpDispatcher.applyThenCompute, OpDispatcher.applyThenCompute, hlen, hvars _ hs]
  | literal x => rw [OpDispatcher.applyThenCompute, OpDispatcher.applyThenCompute, hlen]
  | @app f ts hne hts ih =>
      have hempty : ts.isEmpty = false := by simpa using hne
      have hall : OpDispatcher.computeAll call args params ts
          = OpDispatcher.computeAll call args params' ts := by
        rw [OpDispatcher.computeAll_eq_mapM, OpDispatcher.computeAll_eq_mapM]
        apply Exits.mapM_congr ih
      rw [OpDispatcher.applyThenCompute, OpDispatcher.applyThenCompute, hlen, hempty, hall]
      rfl

/-- An expression without variables has the same value on all examples. -/
theorem value_eq_of_constant {vars : List String} {e : Term 64} (he : VarsIn vars e)
    (hconst : containsVar vars e = false) {args args' : List (BitVec 64)}
    (hlen : args.length = args'.length) :
  p.value args e = p.value args' e
  := applyThenCompute_congr (he.of_constant hconst) hlen (by simp)

/-! ### Outputs -/

section Outputs

variable (p) (selected : List (Fin p.input.length))

/-- The value of an expression on a selected example. -/
def Computes (e : Term 64) (i : ℕ) (v : BitVec 64) : Prop :=
  ∃ args, (p.sampleInput selected)[i]? = some args ∧ p.value args e = .ok (some v)

/-- These are the outputs of the expression.  The examples that need none may have none, unless
the expression is a constant. -/
structure Valid (st : State) (outputs : Outputs) (e : Term 64) : Prop where
  length : outputs.length = selected.length
  vars : VarsIn p.varNames e
  values : ∀ i < selected.length,
    (∃ v, outputs[i]? = some (some v) ∧ p.Computes selected e i v) ∨
      outputs[i]? = some none ∧ containsVar p.varNames e = true ∧ needed st i = false

variable {p selected} {st : State}

theorem Computes.unique {e : Term 64} {i : ℕ} {v w : BitVec 64} (hv : p.Computes selected e i v)
    (hw : p.Computes selected e i w) :
  v = w
  := by
  obtain ⟨args, hargs, hv⟩ := hv
  obtain ⟨args', hargs', hw⟩ := hw
  rw [hargs] at hargs'
  cases hargs'
  rw [hv] at hw
  cases hw
  rfl

theorem computes_dispatch (hfresh : p.opDis.FreshNames) {name : String} {es : List (Term 64)}
    {e : Term 64} (he : p.opDis.dispatch name es true true = .ok e) (hne : es ≠ []) {i : ℕ}
    {vs : List (BitVec 64)} {v : BitVec 64}
    (hes : List.Forall₂ (fun e v => p.Computes selected e i v) es vs)
    (hv : p.pbeDispatch name (vs.map some) = .ok (some v)) :
  p.Computes selected e i v
  := by
  obtain ⟨args, hargs⟩ : ∃ args, (p.sampleInput selected)[i]? = some args := by
    cases hes with
    | nil => exact absurd rfl hne
    | cons hval _ => exact ⟨hval.choose, hval.choose_spec.1⟩
  refine ⟨args, hargs, value_dispatch hfresh he hne (hes.imp ?_) hv⟩
  rintro e' w ⟨args', hargs', hw⟩
  rw [hargs] at hargs'
  cases hargs'
  exact hw

/-- What a constant computes on one example it computes on every example with as many inputs. -/
theorem Computes.of_constant {e e' : Term 64} {i j : ℕ} {v w : BitVec 64}
    (he : p.Computes selected e i v) (hvars : VarsIn p.varNames e)
    (hconst : containsVar p.varNames e = false) (he' : p.Computes selected e' j w) :
  p.Computes selected e j v
  := by
  obtain ⟨args, -, hv⟩ := he
  obtain ⟨args', hargs', hw⟩ := he'
  refine ⟨args', hargs', ?_⟩
  have hlen := (OpDispatcher.length_of_applyThenCompute hv).symm.trans
    (OpDispatcher.length_of_applyThenCompute hw)
  rw [← value_eq_of_constant hvars hconst hlen]
  exact hv

/-- An example that needs no output goes on to need none. -/
theorem Valid.mono {outputs : Outputs} {e : Term 64} (h : p.Valid selected st outputs e)
    {st' : State} (hst : ∀ i, needed st i = false → needed st' i = false) :
  p.Valid selected st' outputs e
  where
  length := h.length
  vars := h.vars
  values i hi := by
    rcases h.values i hi with hv | ⟨hnull, hvar, hneeded⟩
    · exact .inl hv
    · exact .inr ⟨hnull, hvar, hst i hneeded⟩

/-- The outputs of a list of expressions on one example. -/
def row (comb : List Outputs) (i : ℕ) : List (Option (BitVec 64)) :=
  comb.map fun column => (column[i]?).join

theorem row_values {comb : List Outputs} {operands : List (Term 64)}
    (hvalid : List.Forall₂ (p.Valid selected st) comb operands) {i : ℕ}
    (hi : i < selected.length) {vs : List (BitVec 64)} (hrow : row comb i = vs.map some) :
  List.Forall₂ (fun e v => p.Computes selected e i v) operands vs
  := by
  induction hvalid generalizing vs with
  | nil =>
      cases vs with
      | nil => exact .nil
      | cons v vs => cases hrow
  | @cons column e comb operands hcolumn _ ih =>
      cases vs with
      | nil => cases hrow
      | cons v vs =>
          obtain ⟨hhead, htail⟩ := List.cons_eq_cons.mp hrow
          change (column[i]?).join = some v at hhead
          refine .cons ?_ (ih htail)
          rcases hcolumn.values i hi with ⟨w, hw, hcomputes⟩ | ⟨hnull, -⟩
          · rw [hw] at hhead
            cases hhead
            exact hcomputes
          · rw [hnull] at hhead
            cases hhead

theorem row_of_needed {comb : List Outputs} {operands : List (Term 64)}
    (hvalid : List.Forall₂ (p.Valid selected st) comb operands) {i : ℕ}
    (hi : i < selected.length) (hneeded : needed st i = true) :
  ∃ vs : List (BitVec 64), row comb i = vs.map some
  := by
  induction hvalid with
  | nil => exact ⟨[], rfl⟩
  | @cons column e comb operands hcolumn _ ih =>
      obtain ⟨vs, hvs⟩ := ih
      rcases hcolumn.values i hi with ⟨w, hw, -⟩ | ⟨-, -, hnot⟩
      · refine ⟨w :: vs, ?_⟩
        rw [row, List.map_cons, hw, ← row, hvs]
        rfl
      · rw [hneeded] at hnot
        cases hnot

/-- The number of rows. -/
theorem length_head_of_valid {comb : List Outputs} {operands : List (Term 64)}
    (hvalid : List.Forall₂ (p.Valid selected st) comb operands) (hne : operands ≠ []) :
  (comb.headD []).length = selected.length
  := by
  cases hvalid with
  | nil => exact absurd rfl hne
  | cons hcolumn _ => exact hcolumn.length

theorem transpose_eq_map {comb : List Outputs} {n : ℕ} (hlen : (comb.headD []).length = n) :
  transpose comb = (List.range n).map (row comb)
  := by
  rw [transpose, hlen]
  rfl

/-- A call with a result had no null argument. -/
theorem eq_map_of_pbeDispatch {name : String} {args : List (Option (BitVec 64))} {v : BitVec 64}
    (h : p.pbeDispatch name args = .ok (some v)) :
  ∃ vs : List (BitVec 64), args = vs.map some
  := by
  have hargs : args.mapM id ≠ none := by
    intro hnone
    rw [pbeDispatch] at h
    cases hdepth : p.depth <;>
      rw [hdepth, OpDispatcher.pbeDispatch, OpDispatcher.pbeDispatchWith, hnone] at h <;> cases h
  obtain ⟨vs, hvs⟩ := Option.ne_none_iff_exists'.mp hargs
  refine ⟨vs, ?_⟩
  rw [← List.forall₂_eq_eq_eq, List.forall₂_map_right_iff]
  exact Lists.mapM_eq_some_iff.mp hvs

theorem zipIdx_map_range {α : Type} (f : ℕ → α) (n : ℕ) :
  ((List.range n).map f).zipIdx = (List.range n).map fun i => (f i, i)
  := by
  apply List.ext_getElem?
  intro i
  rw [List.getElem?_zipIdx, List.getElem?_map, List.getElem?_map, Nat.zero_add]
  by_cases hi : i < n
  · rw [List.getElem?_range hi]
    rfl
  · rw [List.getElem?_eq_none (by simpa using hi)]
    rfl

/-- The outputs for an expression with variables: those that are needed, and no others. -/
theorem compute_var {name : String} {comb : List Outputs}
    (hrows : (comb.headD []).length = selected.length) {outputs : Outputs}
    (h : p.compute st name comb true true = .ok (some outputs)) :
  outputs.length = selected.length ∧ ∀ i < selected.length, ∃ x, outputs[i]? = some x ∧
    if needed st i = true then p.pbeDispatch name (row comb i) = .ok x else x = none
  := by
  rw [compute, if_pos rfl, transpose_eq_map hrows, zipIdx_map_range] at h
  obtain ⟨outputs', hout, h⟩ := Exits.bind_eq_ok.mp h
  cases h
  have hall := Exits.mapM_eq_ok.mp hout
  rw [List.forall₂_map_left_iff] at hall
  constructor
  · rw [← hall.length_eq, List.length_range]
  · intro i hi
    obtain ⟨x, hx, hR⟩ := Lists.getElem?_of_forall₂ hall (List.getElem?_range hi)
    refine ⟨x, hx, ?_⟩
    split
    next hneeded => simpa [hneeded] using hR
    next hneeded =>
      have hx : (.ok none : Except JavaFault (Option (BitVec 64))) = .ok x := by
        simpa [hneeded] using hR
      cases hx
      rfl

/-- The loop that stops computing at the first result. -/
theorem exists_of_firstResult {α β : Type} {f : α → Except JavaFault (Option β)} {l : List α}
    {x : Option β} {v : β} (h : l.foldlM (firstResult f) x = .ok (some v)) :
  x = some v ∨ ∃ a ∈ l, f a = .ok (some v)
  := by
  induction l generalizing x with
  | nil =>
      cases h
      exact .inl rfl
  | cons a l ih =>
      obtain ⟨y, hy, h⟩ := Exits.bind_eq_ok.mp h
      rcases ih h with rfl | ⟨b, hb, hv⟩
      · cases x with
        | some u =>
            cases hy
            exact .inl rfl
        | none => exact .inr ⟨a, List.mem_cons_self, hy⟩
      · exact .inr ⟨b, List.mem_cons_of_mem a hb, hv⟩

/-- The outputs for a constant: the same for all examples, and one of them was computed. -/
theorem compute_constant {name : String} {comb : List Outputs}
    (hrows : (comb.headD []).length = selected.length) {outputs : Outputs}
    (h : p.compute st name comb false true = .ok (some outputs)) :
  ∃ v, outputs = List.replicate selected.length (some v) ∧
    ∃ j < selected.length, p.pbeDispatch name (row comb j) = .ok (some v)
  := by
  rw [compute, if_neg (by decide), transpose_eq_map hrows] at h
  obtain ⟨ret, hret, h⟩ := Exits.bind_eq_ok.mp h
  cases ret with
  | none => cases h
  | some v =>
      rcases exists_of_firstResult hret with hnone | ⟨args, hargs, hv⟩
      · cases hnone
      · obtain ⟨j, hj, rfl⟩ := List.mem_map.mp hargs
        cases h
        refine ⟨v, ?_, j, List.mem_range.mp hj, hv⟩
        rw [List.length_map, List.length_range]

/-- A constant has an operand that is a constant. -/
theorem exists_computes_of_constant (hfresh : p.opDis.FreshNames) {name : String}
    {comb : List Outputs} {operands : List (Term 64)}
    (hvalid : List.Forall₂ (p.Valid selected st) comb operands) (hne : operands ≠ [])
    {e : Term 64} (he : p.opDis.dispatch name operands true true = .ok e)
    (hconst : containsVar p.varNames e = false) {i : ℕ} (hi : i < selected.length) :
  ∃ e' w, p.Computes selected e' i w
  := by
  obtain ⟨name', k, rfl, htake, -⟩ := p.opDis.dispatch_eq_app hfresh he hne
  have hempty : (operands.take k).isEmpty = false := by simpa using htake
  rw [containsVar, hempty, if_neg (by simp), anyContainsVar_eq_false] at hconst
  obtain ⟨t, ht⟩ := List.exists_mem_of_ne_nil _ htake
  obtain ⟨column, hcolumn⟩ : ∃ column, p.Valid selected st column t :=
    Lists.forall_of_forall₂ (P := fun t => ∃ column, p.Valid selected st column t) hvalid
      (fun column _ h => ⟨column, h⟩) t (List.mem_of_mem_take ht)
  rcases hcolumn.values i hi with ⟨w, -, hw⟩ | ⟨-, hvar, -⟩
  · exact ⟨t, w, hw⟩
  · rw [hconst t ht] at hvar
    cases hvar

/-- The outputs that `compute` gives for an expression are its outputs, and an example that needs
none has one only if the expression is a constant. -/
theorem compute_spec (hfresh : p.opDis.FreshNames) {name : String} {comb : List Outputs}
    {operands : List (Term 64)} (hvalid : List.Forall₂ (p.Valid selected st) comb operands)
    (hne : operands ≠ []) {e : Term 64} (he : p.opDis.dispatch name operands true true = .ok e)
    {outputs : Outputs}
    (h : p.compute st name comb (containsVar p.varNames e) true = .ok (some outputs)) :
  p.Valid selected st outputs e ∧ ∀ i v, outputs[i]? = some (some v) →
    containsVar p.varNames e = false ∨ needed st i = true
  := by
  have hrows := length_head_of_valid hvalid hne
  have hvars : VarsIn p.varNames e := by
    apply varsIn_dispatch hfresh he hne
    apply Lists.forall_of_forall₂ (P := VarsIn p.varNames) hvalid
    intro _ e hcolumn
    exact hcolumn.vars
  cases hvar : containsVar p.varNames e with
  | true =>
      rw [hvar] at h
      obtain ⟨hlen, hall⟩ := compute_var hrows h
      refine ⟨⟨hlen, hvars, ?_⟩, ?_⟩
      · intro i hi
        obtain ⟨x, hx, hR⟩ := hall i hi
        cases hneeded : needed st i with
        | true =>
            rw [if_pos hneeded] at hR
            obtain ⟨vs, hvs⟩ := row_of_needed hvalid hi hneeded
            rw [hvs] at hR
            obtain ⟨v, rfl⟩ := Option.isSome_iff_exists.mp (p.opDis.isSome_of_pbeDispatch hR)
            exact .inl ⟨v, hx, computes_dispatch hfresh he hne (row_values hvalid hi hvs) hR⟩
        | false =>
            rw [if_neg (by simp [hneeded])] at hR
            rw [hR] at hx
            exact .inr ⟨hx, hvar, rfl⟩
      · intro i v hv
        have hi : i < selected.length := by
          rw [← hlen]
          exact (List.getElem?_eq_some_iff.mp hv).1
        obtain ⟨x, hx, hR⟩ := hall i hi
        rw [hv] at hx
        cases hx
        right
        by_contra hneeded
        rw [if_neg hneeded] at hR
        cases hR
  | false =>
      rw [hvar] at h
      obtain ⟨v, rfl, j, hj, hv⟩ := compute_constant hrows h
      refine ⟨⟨List.length_replicate, hvars, ?_⟩, fun _ _ _ => .inl rfl⟩
      intro i hi
      left
      refine ⟨v, by rw [List.getElem?_replicate, if_pos hi], ?_⟩
      obtain ⟨vs, hvs⟩ := eq_map_of_pbeDispatch hv
      have hvj := computes_dispatch hfresh he hne (row_values hvalid hj hvs) (by rw [← hvs, hv])
      obtain ⟨e', w, he'⟩ := exists_computes_of_constant hfresh hvalid hne he hvar hi
      apply hvj.of_constant hvars hvar he'

end Outputs

end PBEEnumSize

end DryadSynth
