import DryadSynth.BVEnum.BitVector

/-!
# Defined functions in the fast evaluator

`applyThenCompute` evaluates the body of a defined function, and calls `pbeDispatch` for each
application in it.  The functions of a file are defined one after another, so the depth of the
nested calls is bounded, and with that much stack the value is that of the term which
`dispatch` builds by substitution in the body.
-/

namespace DryadSynth

open QFBV (Term Value Interpretation Valuation denote denoteAll meaning bindParams theorySymbols)

namespace OpDispatcher

variable (d : OpDispatcher) (U : Interpretation 64)

/-- The applications in a term, with the values of their arguments. -/
inductive Applies (ρ : Valuation 64) : Term 64 → String → List (Value 64) → Prop
  | here {g ts zs} (h : denoteAll U ρ ts = some zs) : Applies ρ (.app g ts) g zs
  | argument {g ts t h zs} (ht : t ∈ ts) (hs : Applies ρ t h zs) : Applies ρ (.app g ts) h zs

/-- The calls made in the evaluation of a call, the call itself among them. -/
inductive Calls : String → List (Value 64) → String → List (Value 64) → Prop
  | self {f vs} : Calls f vs f vs
  | body {f vs df g zs h ws} (hf : d.funcs f = some df)
      (hg : Applies U (bindParams df.args vs) df.definition g zs) (hc : Calls g zs h ws) :
      Calls f vs h ws

/-- The bodies of the functions below a rank: they use operators of the fast evaluator, and
functions of a lower rank.  The parser builds no application to no argument. -/
inductive Accepted (rank : String → ℕ) (r : ℕ) : Term 64 → Prop
  | literal {x} : Accepted rank r (.literal x)
  | symbol {s} : Accepted rank r (.symbol s)
  | operator {g ts} (hg : (pbeOperator g).isSome) (hsymbol : g ∈ theorySymbols) (hne : ts ≠ [])
      (hts : ∀ t ∈ ts, Accepted rank r t) : Accepted rank r (.app g ts)
  | call {g ts df} (hg : d.funcs g = some df) (hrank : rank g < r)
      (harity : df.args.length = ts.length) (hne : ts ≠ [])
      (hts : ∀ t ∈ ts, Accepted rank r t) : Accepted rank r (.app g ts)

/-- The defined functions of a file: none has the name of an operator, each calls only those
before it, and each means what its body computes. -/
structure Defines (rank : String → ℕ) : Prop where
  fresh : ∀ f df, d.funcs f = some df → f ∉ operatorNames ∧ f ∉ theorySymbols
  accepted : ∀ f df, d.funcs f = some df → d.Accepted rank (rank f) df.definition
  meaning : ∀ f df, d.funcs f = some df → ∀ vs : List (Value 64), vs.length = df.args.length →
    U f vs = denote U (bindParams df.args vs) df.definition

/-- With enough stack the fast evaluator returns the value of the term that `dispatch`
builds, and so does the evaluation of the body of a defined function. -/
def Agrees (g : String) (zs : List (Value 64)) : Prop :=
  ∃ depth, ∀ n ≥ depth, ∀ t v, d.dispatch g (zs.map valueTerm) false false = .ok t →
    denote U (fun _ => none) t = some v →
      d.pbeDispatch n g (zs.map fun z => some (longValue z)) false = .ok (some (longValue v)) ∧
      ∀ df, d.funcs g = some df →
        applyThenCompute (fun name as => d.pbeDispatch n name as false) df.args
          (zs.map longValue) df.definition = .ok (some (longValue v))

variable {d U} {rank : String → ℕ}

/-- A parameter has the value of the argument in its place. -/
theorem constant_of_bindParams {args : List String} {vs : List (Value 64)} {s : String}
    {v : Value 64} (h : bindParams args vs s = some v) :
  constant args (vs.map longValue) s = .ok (some (longValue v))
  := by
  rw [bindParams, Option.map_eq_some_iff] at h
  obtain ⟨p, hp, rfl⟩ := h
  have hfind : (args.zip (vs.map longValue)).find? (fun q => q.1 = s)
      = some (p.1, longValue p.2) := by
    rw [List.zip_map_right, List.find?_map]
    have hcomp : ((fun q : String × BitVec 64 => decide (q.1 = s)) ∘ Prod.map id longValue)
        = fun q => decide (q.1 = s) := rfl
    rw [hcomp, hp]
    rfl
  rw [constant, hfind]

section Evaluation

variable {call : String → List (Option (BitVec 64)) → Except JavaFault (Option (BitVec 64))}
  {args : List String} {vs : List (Value 64)}

theorem computeAll_spec {ts : List (Term 64)} {zs : List (Value 64)}
    (hts : ∀ t ∈ ts, ∀ v, denote U (bindParams args vs) t = some v →
      applyThenCompute call args (vs.map longValue) t = .ok (some (longValue v)))
    (h : denoteAll U (bindParams args vs) ts = some zs) :
  computeAll call args (vs.map longValue) ts = .ok (zs.map fun z => some (longValue z))
  := by
  induction ts generalizing zs with
  | nil =>
      cases h
      rfl
  | cons t ts ih =>
      rw [QFBV.denoteAll_cons] at h
      obtain ⟨v, hv, h⟩ := Option.bind_eq_some_iff.mp h
      obtain ⟨zs', hzs', rfl⟩ := Option.map_eq_some_iff.mp h
      rw [computeAll, hts t List.mem_cons_self v hv,
        ih (fun t' ht' => hts t' (List.mem_cons_of_mem t ht')) hzs']
      rfl

theorem applyThenCompute_app (hlen : args.length = vs.length) {g : String} {ts : List (Term 64)}
    (hne : ts ≠ [])
    (hts : ∀ t ∈ ts, ∀ v, denote U (bindParams args vs) t = some v →
      applyThenCompute call args (vs.map longValue) t = .ok (some (longValue v)))
    (hcall : ∀ zs v, denoteAll U (bindParams args vs) ts = some zs → meaning U g zs = some v →
      call (declName g) (zs.map fun z => some (longValue z)) = .ok (some (longValue v)))
    {v : Value 64} (hv : denote U (bindParams args vs) (.app g ts) = some v) :
  applyThenCompute call args (vs.map longValue) (.app g ts) = .ok (some (longValue v))
  := by
  obtain ⟨zs, hzs, hv⟩ := Option.bind_eq_some_iff.mp hv
  rw [applyThenCompute, if_neg (by simpa using hlen), if_neg (by simpa using hne),
    computeAll_spec hts hzs]
  apply hcall zs v hzs hv

/-- A name that a body applies: an operator, or a function of a lower rank. -/
def Applicable (d : OpDispatcher) (rank : String → ℕ) (r : ℕ) (g : String)
    (zs : List (Value 64)) : Prop :=
  (pbeOperator g).isSome ∧ g ∈ theorySymbols ∨
    ∃ df, d.funcs g = some df ∧ rank g < r ∧ df.args.length = zs.length

theorem Accepted.applicable {ρ : Valuation 64} {r : ℕ} {t : Term 64} (ht : d.Accepted rank r t)
    {g : String} {zs : List (Value 64)} (happ : Applies U ρ t g zs) :
  Applicable d rank r g zs
  := by
  induction happ with
  | here hzs =>
      cases ht with
      | operator hg hsymbol => exact .inl ⟨hg, hsymbol⟩
      | call hg hrank harity =>
          refine .inr ⟨_, hg, hrank, ?_⟩
          rw [harity, QFBV.length_of_denoteAll hzs]
  | argument hmem _ ih =>
      cases ht with
      | operator _ _ _ hts => exact ih (hts _ hmem)
      | call _ _ _ _ hts => exact ih (hts _ hmem)

/-- The evaluation of a term whose applications are all evaluated to what they mean. -/
theorem applyThenCompute_spec (hlen : args.length = vs.length) {r : ℕ} {t : Term 64}
    (ht : d.Accepted rank r t)
    (hcall : ∀ g zs v, Applies U (bindParams args vs) t g zs → meaning U g zs = some v →
      call (declName g) (zs.map fun z => some (longValue z)) = .ok (some (longValue v)))
    {v : Value 64} (hv : denote U (bindParams args vs) t = some v) :
  applyThenCompute call args (vs.map longValue) t = .ok (some (longValue v))
  := by
  induction ht generalizing v with
  | literal =>
      cases hv
      rw [applyThenCompute, if_neg (by simpa using hlen)]
      rfl
  | symbol =>
      rw [applyThenCompute, if_neg (by simpa using hlen)]
      apply constant_of_bindParams hv
  | operator hg hsymbol hne hts ih =>
      apply applyThenCompute_app hlen hne _ _ hv
      · intro t ht v hv
        apply ih t ht (fun g zs v happ => hcall g zs v (.argument ht happ)) hv
      · intro zs v hzs hv
        apply hcall _ zs v (.here hzs) hv
  | call hg hrank harity hne hts ih =>
      apply applyThenCompute_app hlen hne _ _ hv
      · intro t ht v hv
        apply ih t ht (fun g zs v happ => hcall g zs v (.argument ht happ)) hv
      · intro zs v hzs hv
        apply hcall _ zs v (.here hzs) hv

end Evaluation

/-- The names of the operators of the fast evaluator are names of `dispatch`. -/
theorem mem_operatorNames {g : String} (h : (pbeOperator g).isSome) :
  g ∈ operatorNames
  := by
  unfold pbeOperator at h
  split at h
  all_goals first | decide | cases h

/-- The operators of the fast evaluator that the solver has under the same name, by the number
of their arguments. -/
theorem operator_cases {g : String} (h : (pbeOperator g).isSome) (hsymbol : g ∈ theorySymbols) :
  g ∈ ["bvadd", "bvsub", "bvmul", "bvurem", "bvudiv", "bvsdiv", "bvsrem", "bvshl", "bvlshr",
      "bvashr", "bvor", "bvand", "bvnand", "bvxor", "bvnor", "bvxnor", "=", "xor"]
    ∨ g ∈ ["bvnot", "bvneg", "not"] ∨ g = "ite" ∨ g ∈ ["and", "or"]
  := by
  unfold pbeOperator at h
  split at h
  all_goals first | decide | exact absurd hsymbol (by decide) | cases h

/-- A body applies an operator to as many arguments as its term takes. -/
theorem operatorTerm_of_meaning {g : String} (h : (pbeOperator g).isSome)
    (hsymbol : g ∈ theorySymbols) {zs : List (Value 64)} {v : Value 64}
    (hv : meaning U g zs = some v) :
  ∃ t, operatorTerm g (zs.map valueTerm) = .ok t ∧ denote U (fun _ => none) t = some v
  := by
  rcases operator_cases h hsymbol with hg | hg | rfl | hg
  · have hlen : ∃ u w, zs = [u, w] := by
      rcases zs with _ | ⟨a | x, _ | ⟨b | y, _ | ⟨c | z, r⟩⟩⟩
      all_goals first | exact ⟨_, _, rfl⟩ | (fin_cases hg <;> cases hv)
    obtain ⟨u, w, rfl⟩ := hlen
    use .app g [valueTerm u, valueTerm w]
    constructor
    · fin_cases hg <;> rfl
    · rw [QFBV.denote_app₂ (denote_valueTerm u) (denote_valueTerm w)]
      apply hv
  · have hlen : ∃ u, zs = [u] := by
      rcases zs with _ | ⟨a | x, _ | ⟨b | y, r⟩⟩
      all_goals first | exact ⟨_, rfl⟩ | (fin_cases hg <;> cases hv)
    obtain ⟨u, rfl⟩ := hlen
    use .app g [valueTerm u]
    constructor
    · fin_cases hg <;> rfl
    · rw [QFBV.denote_app₁ (denote_valueTerm u)]
      apply hv
  · have hlen : ∃ u w z, zs = [u, w, z] := by
      rcases zs with _ | ⟨a | x, _ | ⟨b | y, _ | ⟨c | z, _ | ⟨e | z', r⟩⟩⟩⟩
      all_goals first | exact ⟨_, _, _, rfl⟩ | cases hv
    obtain ⟨u, w, z, rfl⟩ := hlen
    use .app "ite" [valueTerm u, valueTerm w, valueTerm z]
    constructor
    · rfl
    · rw [QFBV.denote_app₃ (denote_valueTerm u) (denote_valueTerm w) (denote_valueTerm z)]
      apply hv
  · use .app g (zs.map valueTerm)
    constructor
    · fin_cases hg <;> rfl
    · have hall := QFBV.denoteAll_map (U := U) (ρ := fun _ => none) denote_valueTerm zs
      rw [List.map_id'] at hall
      rw [denote, hall]
      apply hv

theorem map_some_longValue (zs : List (Value 64)) :
  (zs.map fun z => some (longValue z)) = (zs.map longValue).map some
  := by
  rw [List.map_map]
  rfl

theorem mapM_some {α : Type} (as : List α) :
  (as.map some).mapM id = some as
  := by
  induction as with
  | nil => rfl
  | cons a as ih => simp [ih]

theorem pbeDispatch_operator {g : String}
    {f : List (BitVec 64) → Except JavaFault (BitVec 64)} (h : pbeOperator g = some f) (n : ℕ)
    (as : List (BitVec 64)) (doNotInterp : Bool) :
  d.pbeDispatch n g (as.map some) doNotInterp = (f as).map some
  := by
  cases n with
  | zero =>
      rw [pbeDispatch, pbeDispatchWith, mapM_some]
      dsimp only
      rw [h]
      dsimp only
      cases f as <;> rfl
  | succ n =>
      rw [pbeDispatch, pbeDispatchWith, mapM_some]
      dsimp only
      rw [h]
      dsimp only
      cases f as <;> rfl

theorem pbeDispatch_defined {g : String} {df : DefinedFunc} (hop : pbeOperator g = none)
    (hg : d.funcs g = some df) (n : ℕ) (as : List (BitVec 64)) :
  d.pbeDispatch (n + 1) g (as.map some) false
    = applyThenCompute (fun name as => d.pbeDispatch n name as false) df.args as df.definition
  := by
  rw [pbeDispatch, pbeDispatchWith, mapM_some]
  dsimp only
  rw [hop, hg]
  rfl

theorem pbeOperator_of_defined (hd : d.Defines U rank) {g : String} {df : DefinedFunc}
    (hg : d.funcs g = some df) :
  pbeOperator g = none
  := by
  by_contra hop
  apply (hd.fresh g df hg).1
  apply mem_operatorNames (Option.isSome_iff_ne_none.mpr hop)

/-- The operator of an application in a body is that of its declaration. -/
theorem pbeOperator_declName {g : String} (h : (pbeOperator g).isSome) :
  pbeOperator (declName g) = pbeOperator g
  := by
  rw [declName]
  split
  next hg =>
    subst hg
    rfl
  next => rfl

theorem declName_of_defined (hd : d.Defines U rank) {g : String} {df : DefinedFunc}
    (hg : d.funcs g = some df) :
  declName g = g
  := by
  rw [declName, if_neg]
  rintro rfl
  apply absurd (show "ite" ∈ operatorNames by decide) (hd.fresh _ df hg).1

/-- An operator is evaluated to what it means where it is exact. -/
theorem operator_spec {g : String} (h : (pbeOperator g).isSome) (hsymbol : g ∈ theorySymbols)
    {zs : List (Value 64)} (hexact : Exact g zs) {v : Value 64} (hv : meaning U g zs = some v)
    (n : ℕ) :
  d.pbeDispatch n (declName g) (zs.map fun z => some (longValue z)) false
    = .ok (some (longValue v))
  := by
  obtain ⟨f, hf⟩ := Option.isSome_iff_exists.mp h
  obtain ⟨t, ht, hdenote⟩ := operatorTerm_of_meaning h hsymbol hv
  have hvalue := (computesTerm_iff hf zs).mpr hexact t v ht hdenote
  have hdecl : pbeOperator (declName g) = some f := by rw [pbeOperator_declName h, hf]
  rw [map_some_longValue, pbeDispatch_operator hdecl, hvalue]
  rfl

/-- The body of a defined function is evaluated to what it means where every call in its
evaluation is exact: the depth of the nested calls is at most the rank. -/
theorem body_spec (hd : d.Defines U rank) {f : String} {df : DefinedFunc}
    (hf : d.funcs f = some df) {n : ℕ} (hn : rank f ≤ n) {vs : List (Value 64)}
    (hexact : ∀ g zs, Calls d U f vs g zs → Exact g zs) (hlen : df.args.length = vs.length)
    {v : Value 64} (hv : denote U (bindParams df.args vs) df.definition = some v) :
  applyThenCompute (fun name as => d.pbeDispatch n name as false) df.args (vs.map longValue)
      df.definition
    = .ok (some (longValue v))
  := by
  induction n using Nat.strongRecOn generalizing f df vs v with
  | ind n ih =>
      apply applyThenCompute_spec hlen (hd.accepted f df hf) _ hv
      intro g zs v happ hv
      have hcalls : ∀ h ws, Calls d U g zs h ws → Exact h ws :=
        fun h ws hc => hexact h ws (.body hf happ hc)
      rcases (hd.accepted f df hf).applicable happ with ⟨hg, hsymbol⟩ | ⟨df', hg, hrank, harity⟩
      · apply operator_spec hg hsymbol (hcalls g zs .self) hv
      · obtain ⟨m, rfl⟩ : ∃ m, n = m + 1 := ⟨n - 1, by omega⟩
        rw [declName_of_defined hd hg, map_some_longValue,
          pbeDispatch_defined (pbeOperator_of_defined hd hg) hg]
        apply ih m (by omega) hg (by omega) hcalls harity
        rw [← hd.meaning g df' hg zs harity.symm]
        rw [QFBV.meaning, if_neg (hd.fresh g df' hg).2] at hv
        apply hv

/-- The term of a call of a defined function has the value of its body. -/
theorem dispatch_defined (hd : d.Defines U rank) {f : String} {df : DefinedFunc}
    (hf : d.funcs f = some df) {vs : List (Value 64)} {t : Term 64}
    (ht : d.dispatch f (vs.map valueTerm) false false = .ok t) :
  df.args.length = vs.length ∧
    denote U (fun _ => none) t = denote U (bindParams df.args vs) df.definition
  := by
  rw [dispatch, if_neg (hd.fresh f df hf).1, hf] at ht
  dsimp only at ht
  rw [if_neg (by decide), DefinedFunc.apply] at ht
  split at ht
  next hlen =>
    cases ht
    constructor
    · simpa using hlen
    · rw [QFBV.denote_substitute, QFBV.extend_zip denote_valueTerm (fun _ => rfl), List.map_id']
  next => cases ht

/-- A name with no operator is exact everywhere. -/
theorem exact_of_none {g : String} (h : pbeOperator g = none) (zs : List (Value 64)) :
  Exact g zs
  := by
  refine ⟨?_, ?_, ?_⟩
  · intro x y r _
    unfold ExactBits
    split
    all_goals trivial
  · rintro rfl
    cases h
  · rintro rfl
    cases h

/-- The names that an evaluation calls are operators and defined functions. -/
theorem named_of_calls (hd : d.Defines U rank) {f g : String} {vs zs : List (Value 64)}
    (hname : (pbeOperator f).isSome ∨ (d.funcs f).isSome) (h : Calls d U f vs g zs) :
  (pbeOperator g).isSome ∨ (d.funcs g).isSome
  := by
  induction h with
  | self => exact hname
  | body hf happ _ ih =>
      apply ih
      rcases (hd.accepted _ _ hf).applicable happ with ⟨hg, -⟩ | ⟨df', hg, -⟩
      · exact .inl hg
      · exact .inr (by rw [hg]; rfl)

theorem Calls.trans {f g h : String} {vs zs ws : List (Value 64)} (hg : Calls d U f vs g zs)
    (hh : Calls d U g zs h ws) :
  Calls d U f vs h ws
  := by
  induction hg with
  | self => exact hh
  | body hf happ _ ih => exact .body hf happ (ih hh)

/-- An operator agrees with the solver exactly where it is exact. -/
theorem agrees_operator (hd : d.Defines U rank) {g : String} (h : (pbeOperator g).isSome)
    (zs : List (Value 64)) :
  Agrees d U g zs ↔ Exact g zs
  := by
  obtain ⟨f, hf⟩ := Option.isSome_iff_exists.mp h
  have hfuncs : d.funcs g = none := by
    by_contra hg
    obtain ⟨df, hdf⟩ := Option.ne_none_iff_exists'.mp hg
    apply (hd.fresh g df hdf).1 (mem_operatorNames h)
  have hdispatch : d.dispatch g (zs.map valueTerm) false false
      = operatorTerm g (zs.map valueTerm) := by
    rw [dispatch, if_pos (mem_operatorNames h)]
  rw [← computesTerm_iff hf zs (U := U)]
  constructor
  · rintro ⟨n, hn⟩ t v ht hv
    rw [← hdispatch] at ht
    obtain ⟨hvalue, -⟩ := hn n le_rfl t v ht hv
    rw [map_some_longValue, pbeDispatch_operator hf] at hvalue
    cases hfz : f (zs.map longValue) with
    | error e =>
        rw [hfz] at hvalue
        cases hvalue
    | ok a =>
        rw [hfz] at hvalue
        cases hvalue
        rfl
  · intro hcomputes
    refine ⟨0, ?_⟩
    intro n _ t v ht hv
    rw [hdispatch] at ht
    constructor
    · rw [map_some_longValue, pbeDispatch_operator hf, hcomputes t v ht hv]
      rfl
    · intro df hdf
      rw [hfuncs] at hdf
      cases hdf

/-- A defined function agrees with the solver where every call in its evaluation is exact. -/
theorem agrees_defined (hd : d.Defines U rank) {f : String} {df : DefinedFunc}
    (hf : d.funcs f = some df) {vs : List (Value 64)}
    (hexact : ∀ g zs, Calls d U f vs g zs → Exact g zs) :
  Agrees d U f vs
  := by
  refine ⟨rank f + 1, ?_⟩
  intro n hn t v ht hv
  obtain ⟨hlen, hdenote⟩ := dispatch_defined hd hf ht
  rw [hdenote] at hv
  constructor
  · obtain ⟨m, rfl⟩ : ∃ m, n = m + 1 := ⟨n - 1, by omega⟩
    rw [map_some_longValue, pbeDispatch_defined (pbeOperator_of_defined hd hf) hf]
    apply body_spec hd hf (by omega) hexact hlen hv
  · intro df' hdf'
    rw [hf] at hdf'
    cases hdf'
    apply body_spec hd hf (by omega) hexact hlen hv

/-- Every call in the evaluation of a call agrees with the solver exactly if every one is
exact. -/
theorem calls_agree_iff (hd : d.Defines U rank) {f : String}
    (hname : (pbeOperator f).isSome ∨ (d.funcs f).isSome) (vs : List (Value 64)) :
  (∀ g zs, Calls d U f vs g zs → Agrees d U g zs) ↔
    ∀ g zs, Calls d U f vs g zs → Exact g zs
  := by
  constructor
  · intro hagrees g zs hcall
    cases hop : pbeOperator g with
    | none => apply exact_of_none hop
    | some k =>
        apply (agrees_operator hd (by rw [hop]; rfl) zs).mp
        apply hagrees g zs hcall
  · intro hexact g zs hcall
    rcases named_of_calls hd hname hcall with hg | hg
    · apply (agrees_operator hd hg zs).mpr
      apply hexact g zs hcall
    · obtain ⟨df, hdf⟩ := Option.isSome_iff_exists.mp hg
      apply agrees_defined hd hdf
      intro h ws hh
      apply hexact h ws (hcall.trans hh)

/-- A function of a file, `half x`, which shifts its argument by one. -/
def halfDispatcher : OpDispatcher where
  requests := []
  funcs := fun name =>
    if name = "half" then some ⟨["x"], .app "bvlshr" [.symbol "x", .literal 1]⟩ else none

/-- The interpretation of `half`. -/
def halfInterpretation : Interpretation 64 := fun name vs =>
  if name = "half" then
    denote (fun _ _ => none) (bindParams ["x"] vs) (.app "bvlshr" [.symbol "x", .literal 1])
  else none

theorem half_of_funcs {f : String} {df : DefinedFunc} (h : halfDispatcher.funcs f = some df) :
  f = "half" ∧ df = ⟨["x"], .app "bvlshr" [.symbol "x", .literal 1]⟩
  := by
  simp only [halfDispatcher] at h
  split at h
  next hf =>
    cases h
    exact ⟨hf, rfl⟩
  next => cases h

theorem defines_half :
  halfDispatcher.Defines halfInterpretation fun _ => 0
  := by
  constructor
  · intro f df hf
    obtain ⟨rfl, -⟩ := half_of_funcs hf
    decide
  · intro f df hf
    obtain ⟨-, rfl⟩ := half_of_funcs hf
    apply Accepted.operator (by decide) (by decide) (by simp)
    intro t ht
    rcases List.mem_pair.mp ht with rfl | rfl
    · apply Accepted.symbol
    · apply Accepted.literal
  · intro f df hf vs _
    obtain ⟨rfl, rfl⟩ := half_of_funcs hf
    rfl

theorem calls_agree_iff_half :
  Agrees halfDispatcher halfInterpretation "half" [.bits 7]
  := by
  apply (calls_agree_iff defines_half (.inr (by decide)) [.bits 7]).mpr _ _ _ .self
  intro g zs hcall
  cases hcall with
  | self => apply exact_of_none rfl
  | body hf happ hc =>
      obtain ⟨-, rfl⟩ := half_of_funcs hf
      cases happ with
      | here hzs =>
          cases hzs
          cases hc with
          | self =>
              refine ⟨?_, fun h => absurd h (by decide), fun h => absurd h (by decide)⟩
              rintro x y r h
              cases h
              exact .inl (by decide)
          | body hg _ _ =>
              obtain ⟨hg, -⟩ := half_of_funcs hg
              apply absurd hg (by decide)
      | argument hmem happ =>
          rcases List.mem_pair.mp hmem with rfl | rfl
          · cases happ
          · cases happ

/-- A shift of one by 64 gives one, where the solver gives zero, and a division by zero is an
exception, where the solver gives the greatest value. -/
theorem not_calls_agree :
  ¬ Agrees halfDispatcher halfInterpretation "bvshl" [.bits 1, .bits 64] ∧
    ¬ Agrees halfDispatcher halfInterpretation "bvudiv" [.bits 1, .bits 0]
  := by
  constructor
  · rintro ⟨n, hn⟩
    obtain ⟨h, -⟩ := hn n le_rfl _ _ rfl rfl
    rw [show ([.bits 1, .bits 64] : List (Value 64)).map (fun z => some (longValue z))
      = [1, 64].map some from rfl, pbeDispatch_operator rfl] at h
    apply absurd h (by decide)
  · rintro ⟨n, hn⟩
    obtain ⟨h, -⟩ := hn n le_rfl _ _ rfl rfl
    rw [show ([.bits 1, .bits 0] : List (Value 64)).map (fun z => some (longValue z))
      = [1, 0].map some from rfl, pbeDispatch_operator rfl] at h
    apply absurd h (by decide)

end OpDispatcher

end DryadSynth
