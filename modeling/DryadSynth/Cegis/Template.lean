import DryadSynth.Library.DecisionTree
import DryadSynth.Library.LIA.Closed
import DryadSynth.Library.Lists

/-!
# The template of the linear tracks and its decoder

A function to synthesise is sought as a complete binary tree: every node has a linear polynomial of
the arguments with unknown coefficients, the inner nodes branch on its sign, and the leaves give its
value, or its sign for a predicate.  `Expand.generateEval` builds the tree from the root down, and
`SynthDecoder.generateFunction` the tree with the coefficients of a model from the last node up.

Both are the same walk through a decision tree, `Expand.generateEval_spec` and `decode_spec`.  They
differ when an argument has the name of a coefficient: in the template it takes the coefficient's
place, and the model's value is put in before that in the decoded function.
-/

namespace Sygus.Cegis

open LIA DecisionTree

/-- The parts of a `SygusProblem` that the template is built from.  The reduced declarations keep
the ranges. -/
structure TemplateProblem where
  names : List String
  requests : String → FuncDecl
  rdcdRequests : String → FuncDecl
  requestUsedArgs : String → List Var
  range_rdcd : ∀ name, (rdcdRequests name).range = (requests name).range

/-- `(int)Math.pow(2, b)` -/
def intPow2 (b : ℤ) : ℤ := if b < 0 then 0 else min (2 ^ b.toNat) (2 ^ 31 - 1)

/-- `Expand` for the linear tracks: the bound is the number of nodes. -/
structure Expand where
  problem : TemplateProblem
  bound : ℕ
  equationBound : ℤ

/-- `new Expand(ctx, problem)` -/
def Expand.new (problem : TemplateProblem) : Expand := ⟨problem, 0, 0⟩

/-- The polynomial of a node: the terms of the arguments are added to the constant one after the
other, with the coefficients from `j` on.  The arguments must be integers. -/
def addTerms (c : ℕ → Expr) : ℕ → Expr → List Var → Option Expr
  | _, poly, [] => some poly
  | j, poly, x :: xs =>
      if x.sort = .int then addTerms c (j + 1) (.add [poly, .mul [c j, .var x]]) xs else none

def polynomial (c : ℕ → Expr) (args : List Var) : Option Expr := addTerms c 1 (c 0) args

namespace Expand

def setEquationBound (x : Expand) (eqBound : ℤ) : Expand :=
  { x with equationBound := intPow2 eqBound - 1 }

def setHeightBound (x : Expand) (heightBound : ℕ) : Expand :=
  { x with bound := (intPow2 heightBound - 1).toNat }

/-- `c[k][j][i]` -/
def coefficient (k j i : ℕ) : Var :=
  ⟨"f" ++ toString k ++ "_c" ++ toString j ++ "_" ++ toString i, .int⟩

/-- `eq[k][j]` -/
def equationFlag (k j : ℕ) : Var := ⟨"f" ++ toString k ++ "_eq" ++ toString j, .bool⟩

/-- The range is that of a predicate. -/
def isBool (x : Expand) (name : String) : Bool := (x.problem.requests name).range = .bool

def generateEval (x : Expand) (k i : ℕ) : Option Expr :=
  match x.problem.names[k]? with
  | none => none
  | some name =>
      if i < x.bound then
        match polynomial (fun j => .var (coefficient k i j)) (x.problem.requestUsedArgs name) with
        | none => none
        | some poly =>
            let condition : Expr :=
              if x.bound ≤ x.equationBound then
                .or [.and [.gt poly (.num 0), .var (equationFlag k i)], .eq poly (.num 0)]
              else .ge poly (.num 0)
            if i < (x.bound - 1) / 2 then
              match x.generateEval k (2 * i + 1), x.generateEval k (2 * i + 2) with
              | some a, some b => some (.ite condition a b)
              | _, _ => none
            else if x.isBool name then some (.ite condition .tru .fls)
            else some poly
      else none
  termination_by x.bound - i

end Expand

/-! ### The decoder -/

section Decoder

variable (M : Model)

/-- `evaluteCoefficient`, with the values of the model. -/
def evaluteCoefficient (k j i : ℕ) : Expr := .num (M.value (Expand.coefficient k j i)).toInt

/-- `evaluteEquationFlag` -/
def evaluteEquationFlag (k j : ℕ) : Expr :=
  if (M.value (Expand.equationFlag k j)).toBool then .tru else .fls

/-- The condition of a node of the decoded function. -/
def decodedCondition (n : ℕ) (equationBound : ℤ) (p eqflag : Expr) : Expr :=
  if n ≤ equationBound then
    if eqflag = .tru then .ge p (.num 0)
    else if eqflag = .fls then .eq p (.num 0)
    else .or [.and [.gt p (.num 0), eqflag], .eq p (.num 0)]
  else .ge p (.num 0)

/-- One iteration over the nodes: the children have larger numbers. -/
def decodedNode (n : ℕ) (isINV : Bool) (cond p : ℕ → Expr) (f : ℕ → Option Expr) (i : ℕ) :
    Option Expr :=
  if i < (n - 1) / 2 then
    match f (2 * i + 1), f (2 * i + 2) with
    | some a, some b => some (.ite (cond i) a b)
    | _, _ => none
  else if isINV then some (.ite (cond i) .tru .fls)
  else some (p i)

/-- The nodes below `m`, from the last one on. -/
def fillNodes (node : (ℕ → Option Expr) → ℕ → Option Expr) :
    ℕ → (ℕ → Option Expr) → Option (ℕ → Option Expr)
  | 0, f => some f
  | m + 1, f =>
      match node f m with
      | none => none
      | some e => fillNodes node m (Function.update f m (some e))

/-- The tree of the function with number `k`, before it is simplified. -/
def decode (x : Expand) (eqBound : ℤ) (k : ℕ) (name : String) : Option Expr :=
  match (List.range x.bound).mapM fun i =>
      polynomial (evaluteCoefficient M k i) (x.problem.requestUsedArgs name) with
  | none => none
  | some p =>
      let equationBound := intPow2 eqBound - 1
      let isINV : Bool := (x.problem.rdcdRequests name).range = .bool
      let cond i := decodedCondition x.bound equationBound (p.getD i .tru)
        (evaluteEquationFlag M k i)
      match fillNodes (decodedNode x.bound isINV cond fun i => p.getD i .tru) x.bound
          fun _ => none with
      | none => none
      | some f => f 0

/-- `generateFunction`: the functions in the order of their names. -/
def generateFunction (simplify : Expr → Expr) (x : Expand) (eqBound : ℤ) :
    Option (List (String × Expr)) :=
  x.problem.names.zipIdx.mapM fun p =>
    match decode M x eqBound p.2 p.1 with
    | none => none
    | some f => some (p.1, simplify f)

end Decoder

/-! ### Both are walks through a decision tree -/

/-- The value of a polynomial: the constant and the coefficients from the first one on. -/
def polyVal (c : ℕ → ℤ) (xs : List ℤ) : ℤ :=
  c 0 + (xs.zipIdx 1).foldr (fun p v => c p.2 * p.1 + v) 0

/-- The condition of a node, for the value of its polynomial and its flag. -/
def meets (equation : Bool) (v : ℤ) (flag : Bool) : Bool :=
  if equation then (decide (0 < v) && flag) || decide (v = 0) else decide (0 ≤ v)

/-- What the tree gives at a node, for the values of the polynomials and the flags. -/
def nodeValue (n : ℕ) (equation isBool : Bool) (v : ℕ → ℤ) (flag : ℕ → Bool) (i : ℕ) : Value :=
  let leaf := walk n (fun j => meets equation (v j) (flag j)) i
  if isBool then .bool (meets equation (v leaf) (flag leaf)) else .int (v leaf)

section Values

variable {N : Model}

theorem addTerms_spec {c : ℕ → Expr} (hc : ∀ j, (c j).sort = some .int) {args : List Var}
    (hargs : ∀ x ∈ args, x.sort = .int) (j : ℕ) {p : Expr} (hp : p.sort = some .int) :
  ∃ q, addTerms c j p args = some q ∧ q.sort = some .int
    ∧ ∀ N : Model, q.intVal N
      = p.intVal N + ((args.map fun x => (Expr.var x).intVal N).zipIdx j).foldr
          (fun t v => (c t.2).intVal N * t.1 + v) 0
  := by
  induction args generalizing j p with
  | nil => exact ⟨p, rfl, hp, fun N => by simp⟩
  | cons x args ih =>
      rw [List.forall_mem_cons] at hargs
      have hmul : (Expr.mul [c j, .var x]).sort = some .int :=
        sort_mul.mpr (by simp [hc, hargs.1])
      have hadd : (Expr.add [p, .mul [c j, .var x]]).sort = some .int :=
        sort_add.mpr (by simp [hp, hmul])
      obtain ⟨q, hq, hsort, hval⟩ := ih hargs.2 (j + 1) hadd
      refine ⟨q, ?_, hsort, fun N => ?_⟩
      · rw [addTerms, if_pos hargs.1, hq]
      · rw [hval, List.map_cons, List.zipIdx_cons, List.foldr_cons]
        simp [add_assoc]

/-- A polynomial of integer arguments. -/
theorem polynomial_spec {c : ℕ → Expr} (hc : ∀ j, (c j).sort = some .int) {args : List Var}
    (hargs : ∀ x ∈ args, x.sort = .int) :
  ∃ q, polynomial c args = some q ∧ q.sort = some .int
    ∧ ∀ N : Model, q.intVal N
      = polyVal (fun j => (c j).intVal N) (args.map fun x => (Expr.var x).intVal N)
  := addTerms_spec hc hargs 1 (hc 0)

/-- Without an integer for every argument there is no polynomial. -/
theorem sort_of_addTerms {c : ℕ → Expr} {args : List Var} {j : ℕ} {p q : Expr}
    (h : addTerms c j p args = some q) :
  ∀ x ∈ args, x.sort = .int
  := by
  induction args generalizing j p with
  | nil => simp
  | cons x args ih =>
      rw [addTerms] at h
      split_ifs at h with hx
      exact List.forall_mem_cons.mpr ⟨hx, ih h⟩

end Values

section Nodes

variable {n : ℕ} {equation isBool : Bool} {v : ℕ → ℤ} {flag : ℕ → Bool} {i : ℕ}

theorem nodeValue_of_leaf (hi : ¬i < (n - 1) / 2) :
  nodeValue n equation isBool v flag i
    = if isBool then .bool (meets equation (v i) (flag i)) else .int (v i)
  := by
  rw [nodeValue, walk_of_leaf hi]

theorem nodeValue_of_inner (hi : i < (n - 1) / 2) :
  nodeValue n equation isBool v flag i
    = if meets equation (v i) (flag i) then nodeValue n equation isBool v flag (2 * i + 1)
      else nodeValue n equation isBool v flag (2 * i + 2)
  := by
  simp only [nodeValue]
  cases h : meets equation (v i) (flag i) with
  | true => rw [walk_left hi h, if_pos rfl]
  | false => rw [walk_right hi h, if_neg Bool.false_ne_true]

end Nodes

/-- The expression has the value of a node in every model, for the values of the polynomials and
the flags in it. -/
structure IsNode (n : ℕ) (equation isBool : Bool) (v : Model → ℕ → ℤ) (flag : Model → ℕ → Bool)
    (i : ℕ) (e : Expr) : Prop where
  sort : e.sort = some (if isBool then .bool else .int)
  eval : ∀ N : Model, e.eval N = nodeValue n equation isBool (v N) (flag N) i

namespace IsNode

variable {n : ℕ} {equation isBool : Bool} {v : Model → ℕ → ℤ} {flag : Model → ℕ → Bool} {i : ℕ}
  {cond p a b : Expr}

theorem inner (hi : i < (n - 1) / 2) (hsort : cond.sort = some .bool)
    (hcond : ∀ N : Model, cond.Holds N ↔ meets equation (v N i) (flag N i) = true)
    (ha : IsNode n equation isBool v flag (2 * i + 1) a)
    (hb : IsNode n equation isBool v flag (2 * i + 2) b) :
  IsNode n equation isBool v flag i (.ite cond a b)
  where
  sort := by
    rw [sort_ite]
    exact ⟨hsort, ha.sort, hb.sort⟩
  eval N := by
    rw [eval_ite, nodeValue_of_inner hi, ha.eval, hb.eval]
    simp only [hcond N]

theorem leafBool (hi : ¬i < (n - 1) / 2) (hsort : cond.sort = some .bool)
    (hcond : ∀ N : Model, cond.Holds N ↔ meets equation (v N i) (flag N i) = true) :
  IsNode n equation true v flag i (.ite cond .tru .fls)
  where
  sort := by
    rw [sort_ite]
    exact ⟨hsort, sort_tru.mpr rfl, sort_fls.mpr rfl⟩
  eval N := by
    rw [eval_ite, nodeValue_of_leaf hi, if_pos rfl]
    cases h : meets equation (v N i) (flag N i) with
    | true =>
        rw [if_pos ((hcond N).mpr h)]
        rfl
    | false =>
        rw [if_neg (by rw [hcond N, h]; exact Bool.false_ne_true)]
        rfl

theorem leafInt (hi : ¬i < (n - 1) / 2) (hsort : p.sort = some .int)
    (hp : ∀ N : Model, p.intVal N = v N i) :
  IsNode n equation false v flag i p
  where
  sort := hsort
  eval N := by
    rw [eval_of_int hsort, nodeValue_of_leaf hi, hp N]
    rfl

end IsNode

section Conditions

variable {N : Model} {p : Expr} {n : ℕ} {equationBound : ℤ}

theorem holds_eq_zero (hp : p.sort = some .int) :
  (Expr.eq p (.num 0)).Holds N ↔ p.intVal N = 0
  := by
  rw [holds_eq_of_int hp (sort_num 0), intVal_num]

/-- The condition of the template. -/
theorem holds_condition (hp : p.sort = some .int) (flag : Var) :
  (if n ≤ equationBound then
      Expr.or [.and [.gt p (.num 0), .var flag], .eq p (.num 0)]
    else .ge p (.num 0)).Holds N
    ↔ meets (decide (n ≤ equationBound)) (p.intVal N) (N.value flag).toBool = true
  := by
  by_cases h : n ≤ equationBound
  · have hflag : (Expr.var flag).Holds N ↔ (N.value flag).toBool = true := Iff.rfl
    rw [if_pos h, holds_or_pair, holds_and_pair, holds_gt, holds_eq_zero hp, hflag]
    simp [meets, h]
  · rw [if_neg h, holds_ge]
    simp [meets, h]

/-- The condition of the decoded function. -/
theorem holds_decodedCondition (hp : p.sort = some .int) (b : Bool) :
  (decodedCondition n equationBound p (if b then .tru else .fls)).Holds N
    ↔ meets (decide (n ≤ equationBound)) (p.intVal N) b = true
  := by
  have hne : Expr.fls ≠ Expr.tru := by decide
  by_cases h : n ≤ equationBound
  · cases b with
    | true =>
        have hle : 0 ≤ p.intVal N ↔ 0 < p.intVal N ∨ p.intVal N = 0 := by omega
        simpa [decodedCondition, meets, h] using hle
    | false => simp [decodedCondition, meets, h, hne, holds_eq_zero hp]
  · simp [decodedCondition, meets, h]

theorem sort_condition (hp : p.sort = some .int) {flag : Var} (hflag : flag.sort = .bool) :
  (if n ≤ equationBound then
      Expr.or [.and [.gt p (.num 0), .var flag], .eq p (.num 0)]
    else .ge p (.num 0)).sort = some .bool
  := by
  split
  · simp [hp, hflag]
  · simp [hp]

theorem sort_decodedCondition (hp : p.sort = some .int) (b : Bool) :
  (decodedCondition n equationBound p (if b then .tru else .fls)).sort = some .bool
  := by
  by_cases h : n ≤ equationBound
  · cases b with
    | true => simp [decodedCondition, h, hp]
    | false => simp [decodedCondition, h, hp]
  · simp [decodedCondition, h, hp]

end Conditions

/-- The values of the arguments. -/
def argVals (args : List Var) (N : Model) : List ℤ := args.map fun x => (Expr.var x).intVal N

/-- The value of the polynomial of a node, with the coefficients of `M`. -/
def coefVal (M : Model) (k : ℕ) (args : List Var) (N : Model) (i : ℕ) : ℤ :=
  polyVal (fun j => (M.value (Expand.coefficient k i j)).toInt) (argVals args N)

def flagVal (M : Model) (k i : ℕ) : Bool := (M.value (Expand.equationFlag k i)).toBool

section Template

variable {x : Expand} {k : ℕ} {name : String}

/-- The template reads the coefficients and the flags in the model it is evaluated in. -/
theorem Expand.generateEval_spec (hname : x.problem.names[k]? = some name)
    (hargs : ∀ y ∈ x.problem.requestUsedArgs name, y.sort = .int) {i : ℕ} (hi : i < x.bound) :
  ∃ t, x.generateEval k i = some t
    ∧ IsNode x.bound (decide (x.bound ≤ x.equationBound)) (x.isBool name)
        (fun N => coefVal N k (x.problem.requestUsedArgs name) N) (fun N => flagVal N k) i t
  := by
  induction hm : x.bound - i using Nat.strong_induction_on generalizing i with
  | _ m ih =>
      subst hm
      obtain ⟨p, hp, hsort, hval⟩ := polynomial_spec
        (c := fun j => .var (coefficient k i j)) (fun _ => rfl) hargs
      rw [generateEval, hname]
      simp only [if_pos hi, hp]
      generalize hc : (if (x.bound : ℤ) ≤ x.equationBound then
          Expr.or [.and [.gt p (.num 0), .var (equationFlag k i)], .eq p (.num 0)]
        else .ge p (.num 0)) = condition
      have hcond : ∀ N : Model, condition.Holds N
          ↔ meets (decide (x.bound ≤ x.equationBound))
            (coefVal N k (x.problem.requestUsedArgs name) N i) (flagVal N k i) = true := by
        intro N
        rw [← hc]
        apply (holds_condition hsort (equationFlag k i)).trans (by rw [hval]; rfl)
      have hcsort : condition.sort = some .bool := hc ▸ sort_condition hsort rfl
      by_cases hinner : i < (x.bound - 1) / 2
      · obtain ⟨a, ha, haNode⟩ := ih (x.bound - (2 * i + 1)) (by omega) (by omega) rfl
        obtain ⟨b, hb, hbNode⟩ := ih (x.bound - (2 * i + 2)) (by omega) (by omega) rfl
        rw [if_pos hinner, ha, hb]
        exact ⟨_, rfl, .inner hinner hcsort hcond haNode hbNode⟩
      · rw [if_neg hinner]
        cases hbool : x.isBool name with
        | true =>
            rw [if_pos rfl]
            exact ⟨_, rfl, .leafBool hinner hcsort hcond⟩
        | false =>
            rw [if_neg Bool.false_ne_true]
            exact ⟨_, rfl, .leafInt hinner hsort hval⟩

/-- There is a template only if there are nodes and the arguments are integers. -/
theorem Expand.of_generateEval {t : Expr} (hname : x.problem.names[k]? = some name)
    (h : x.generateEval k 0 = some t) :
  0 < x.bound ∧ ∀ y ∈ x.problem.requestUsedArgs name, y.sort = .int
  := by
  rw [generateEval, hname] at h
  by_cases hbound : 0 < x.bound
  · cases hp : polynomial (fun j => .var (coefficient k 0 j)) (x.problem.requestUsedArgs name) with
    | none =>
        simp only [if_pos hbound, hp] at h
        cases h
    | some p => exact ⟨hbound, sort_of_addTerms hp⟩
  · simp only [if_neg hbound] at h
    cases h

end Template

section Decode

/-- Every node from `m` on is filled. -/
def FilledFrom (n : ℕ) (good : ℕ → Expr → Prop) (f : ℕ → Option Expr) (m : ℕ) : Prop :=
  ∀ j, m ≤ j → j < n → ∃ e, f j = some e ∧ good j e

theorem fillNodes_spec {n : ℕ} {good : ℕ → Expr → Prop}
    {node : (ℕ → Option Expr) → ℕ → Option Expr}
    (hnode : ∀ f i, i < n → FilledFrom n good f (i + 1) → ∃ e, node f i = some e ∧ good i e)
    {m : ℕ} (hm : m ≤ n) {f : ℕ → Option Expr} (hf : FilledFrom n good f m) :
  ∃ f', fillNodes node m f = some f' ∧ FilledFrom n good f' 0
  := by
  induction m generalizing f with
  | zero => exact ⟨f, rfl, hf⟩
  | succ m ih =>
      obtain ⟨e, he, hgood⟩ := hnode f m hm hf
      rw [fillNodes, he]
      refine ih (Nat.le_of_succ_le hm) fun j hmj hjn => ?_
      rcases Nat.eq_or_lt_of_le hmj with rfl | hlt
      · exact ⟨e, Function.update_self m (some e) f, hgood⟩
      · rw [Function.update_of_ne (Nat.ne_of_gt hlt)]
        apply hf j hlt hjn

variable {M : Model} {x : Expand} {eqBound : ℤ} {k : ℕ} {name : String}

/-- The expression has the value of a node, with the coefficients and the flags of the model. -/
abbrev IsDecoded (M : Model) (x : Expand) (eqBound : ℤ) (k : ℕ) (name : String) (i : ℕ)
    (e : Expr) : Prop :=
  IsNode x.bound (decide (x.bound ≤ intPow2 eqBound - 1)) (x.isBool name)
    (fun N => coefVal M k (x.problem.requestUsedArgs name) N) (fun _ => flagVal M k) i e

/-- The decoder has put the coefficients and the flags of the model in. -/
theorem decode_spec (hbound : 0 < x.bound)
    (hargs : ∀ y ∈ x.problem.requestUsedArgs name, y.sort = .int) :
  ∃ t, decode M x eqBound k name = some t ∧ IsDecoded M x eqBound k name 0 t
  := by
  have hpoly := fun i => polynomial_spec (c := evaluteCoefficient M k i) (fun _ => rfl) hargs
  choose q hq hsort hval using hpoly
  have hmap : ((List.range x.bound).mapM fun i =>
      polynomial (evaluteCoefficient M k i) (x.problem.requestUsedArgs name))
        = some ((List.range x.bound).map q) :=
    Lists.mapM_eq_map fun i _ => hq i
  have hget : ∀ i < x.bound, ((List.range x.bound).map q).getD i .tru = q i := by
    intro i hi
    simp [List.getD, hi]
  have hrange : (decide ((x.problem.rdcdRequests name).range = .bool) : Bool) = x.isBool name := by
    rw [Expand.isBool, x.problem.range_rdcd]
  have hnode : ∀ f i, i < x.bound →
      FilledFrom x.bound (IsDecoded M x eqBound k name) f (i + 1) →
      ∃ e, decodedNode x.bound (x.isBool name)
          (fun i => decodedCondition x.bound (intPow2 eqBound - 1)
            (((List.range x.bound).map q).getD i .tru) (evaluteEquationFlag M k i))
          (fun i => ((List.range x.bound).map q).getD i .tru) f i = some e
        ∧ IsDecoded M x eqBound k name i e := by
    intro f i hi hf
    have hcsort : (decodedCondition x.bound (intPow2 eqBound - 1) (q i)
        (evaluteEquationFlag M k i)).sort = some .bool :=
      sort_decodedCondition (hsort i) (flagVal M k i)
    have hcond : ∀ N : Model, (decodedCondition x.bound (intPow2 eqBound - 1) (q i)
        (evaluteEquationFlag M k i)).Holds N
          ↔ meets (decide (x.bound ≤ intPow2 eqBound - 1))
            (coefVal M k (x.problem.requestUsedArgs name) N i) (flagVal M k i) = true := by
      intro N
      apply (holds_decodedCondition (hsort i) (flagVal M k i)).trans (by rw [hval i]; rfl)
    rw [decodedNode, hget i hi]
    by_cases hinner : i < (x.bound - 1) / 2
    · obtain ⟨a, ha, haNode⟩ := hf (2 * i + 1) (by omega) (by omega)
      obtain ⟨b, hb, hbNode⟩ := hf (2 * i + 2) (by omega) (by omega)
      rw [if_pos hinner, ha, hb]
      exact ⟨_, rfl, .inner hinner hcsort hcond haNode hbNode⟩
    · simp only [if_neg hinner, IsDecoded]
      cases hbool : x.isBool name with
      | true =>
          rw [if_pos rfl]
          exact ⟨_, rfl, .leafBool hinner hcsort hcond⟩
      | false =>
          rw [if_neg Bool.false_ne_true]
          exact ⟨_, rfl, .leafInt hinner (hsort i) (hval i)⟩
  have hempty : FilledFrom x.bound (IsDecoded M x eqBound k name) (fun _ => none) x.bound :=
    fun j hj hj' => absurd hj' (Nat.not_lt.mpr hj)
  obtain ⟨f, hf, hfilled⟩ := fillNodes_spec hnode le_rfl hempty
  rw [decode, hmap]
  simp only [hrange, hf]
  apply hfilled 0 le_rfl hbound

end Decode

/-! ### Agreement -/

section Names

open Expand

theorem notMem_toString (c : Char) (hc : c.isDigit = false) (m : ℕ) :
  c ∉ (toString m).toList
  := by
  intro h
  rw [Nat.toString_eq_ofList_toDigits, String.toList_ofList] at h
  have hd := Nat.isDigit_of_mem_toDigits (by decide) (by decide) h
  rw [hc] at hd
  cases hd

/-- The coefficients of a function have different names. -/
theorem coefficient_injective (k : ℕ) :
  Function.Injective fun p : ℕ × ℕ => coefficient k p.1 p.2
  := by
  rintro ⟨j, i⟩ ⟨j', i'⟩ h
  have hname := congrArg (fun x : Var => x.name.toList) h
  simp only [coefficient, String.toList_append, List.append_assoc, List.append_cancel_left_eq]
    at hname
  have hunder : ("_" : String).toList = ['_'] := rfl
  rw [hunder, List.singleton_append, List.singleton_append,
    List.append_cons_inj_of_notMem (notMem_toString '_' rfl j) (notMem_toString '_' rfl i)] at hname
  obtain ⟨hj, -, hi⟩ := hname
  rw [Nat.repr_injective (String.toList_inj.mp hj), Nat.repr_injective (String.toList_inj.mp hi)]

end Names

section Congruence

variable {n : ℕ} {equation isBool : Bool} {v v' : ℕ → ℤ} {flag flag' : ℕ → Bool}

theorem polyVal_congr {c c' : ℕ → ℤ} {xs : List ℤ} (h : ∀ j ≤ xs.length, c j = c' j) :
  polyVal c xs = polyVal c' xs
  := by
  have hfold : ∀ (xs : List ℤ) (s : ℕ), (∀ j < s + xs.length, c j = c' j) →
      (xs.zipIdx s).foldr (fun p v => c p.2 * p.1 + v) 0
        = (xs.zipIdx s).foldr (fun p v => c' p.2 * p.1 + v) 0 := by
    intro xs
    induction xs with
    | nil => simp
    | cons y xs ih =>
        intro s hs
        rw [List.zipIdx_cons, List.foldr_cons, List.foldr_cons,
          ih (s + 1) fun j hj => hs j (by rw [List.length_cons]; omega)]
        rw [hs s (by rw [List.length_cons]; omega)]
  rw [polyVal, polyVal, h 0 (Nat.zero_le _), hfold xs 1 fun j hj => h j (by omega)]

/-- A node depends on the nodes that walks reach. -/
theorem nodeValue_congr (h : ∀ j ≤ 2 * ((n - 1) / 2), v j = v' j ∧ flag j = flag' j) {i : ℕ}
    (hi : i ≤ 2 * ((n - 1) / 2)) :
  nodeValue n equation isBool v flag i = nodeValue n equation isBool v' flag' i
  := by
  induction hm : n - i using Nat.strong_induction_on generalizing i with
  | _ m ih =>
      subst hm
      obtain ⟨hv, hflag⟩ := h i hi
      by_cases hinner : i < (n - 1) / 2
      · rw [nodeValue_of_inner hinner, nodeValue_of_inner hinner, hv, hflag,
          ih (n - (2 * i + 1)) (by omega) (by omega) rfl,
          ih (n - (2 * i + 2)) (by omega) (by omega) rfl]
      · rw [nodeValue_of_leaf hinner, nodeValue_of_leaf hinner, hv, hflag]

end Congruence

section Bind

variable {M M' : Model} {xs : List Var} {vs : List Value} {x : Var}

/-- A bound variable has a value whatever the model was before. -/
theorem var_bind_congr (hlength : xs.length = vs.length) (hx : x ∈ xs) :
  (M.bind xs vs).var x = (M'.bind xs vs).var x
  := by
  have hsome : ((xs.zip vs).reverse.lookup x).isSome := by
    rw [← List.map_fst_zip hlength.le, List.mem_map] at hx
    obtain ⟨p, hp, rfl⟩ := hx
    apply List.lookup_isSome_iff.mpr ⟨p, List.mem_reverse.mpr hp, beq_self_eq_true p.1⟩
  obtain ⟨v, hv⟩ := Option.isSome_iff_exists.mp hsome
  simp only [Model.bind, hv, Option.getD_some]

theorem argVals_bind (hlength : xs.length = vs.length) :
  argVals xs (M.bind xs vs) = argVals xs (M'.bind xs vs)
  := by
  refine List.map_congr_left fun x hx => ?_
  rw [Expr.intVal, Expr.intVal, eval_var, eval_var, var_bind_congr hlength hx]

/-- All variables have the same value. -/
theorem var_bind_const (v : Value) (hx : x ∈ xs) :
  (M.bind xs (xs.map fun _ => v)).var x = v
  := by
  let constant : Model := ⟨fun _ => v, M.func⟩
  have hlength : xs.length = (xs.map fun _ => v).length := by rw [List.length_map]
  have hcongr : (M.bind xs (xs.map fun _ => v)).var x
      = (constant.bind xs (xs.map fun _ => v)).var x := var_bind_congr hlength hx
  rw [hcongr]
  simp only [Model.bind]
  cases h : (xs.zip (xs.map fun _ => v)).reverse.lookup x with
  | none => rfl
  | some w =>
      have hmem := List.mem_reverse.mp (mem_of_lookup h)
      have hw := (List.of_mem_zip hmem).2
      rw [List.mem_map] at hw
      obtain ⟨-, -, rfl⟩ := hw
      rfl

end Bind

section Agreement

variable (simplify : Expr → Expr) (P : TemplateProblem) (heightBound : ℕ) (eqBound : ℤ)

/-- The state of `Expand` in which the templates are built, and the decoder works. -/
def expand : Expand := ((Expand.new P).setEquationBound eqBound).setHeightBound heightBound

/-- In every model, template and decoded function have the same value for all arguments. -/
def Agrees (k : ℕ) : Prop :=
  ∀ name ∈ P.names[k]?, ∀ (M : Model) (vs : List Value), Fits (P.requestUsedArgs name) vs →
    ∃ t fs f, (expand P heightBound eqBound).generateEval k 0 = some t
      ∧ generateFunction M simplify (expand P heightBound eqBound) eqBound = some fs
      ∧ fs[k]? = some (name, f)
      ∧ (Definition.mk (P.requestUsedArgs name) f).eval default vs
        = (Definition.mk (P.requestUsedArgs name) t).eval M vs

/-- No argument has the name of a coefficient of a node of the tree. -/
def NoCapture (k : ℕ) : Prop :=
  ∀ name ∈ P.names[k]?, ∀ j ≤ 2 * (((expand P heightBound eqBound).bound - 1) / 2),
    ∀ i ≤ (P.requestUsedArgs name).length,
      Expand.coefficient k j i ∉ P.requestUsedArgs name

variable {simplify P heightBound eqBound} {k : ℕ} {name : String}

/-- All functions are decoded when there are nodes and the arguments are integers. -/
theorem generateFunction_spec {M : Model} {x : Expand} (hsimplify : ∀ e, Preserves e (simplify e))
    (hbound : 0 < x.bound)
    (hargs : ∀ name ∈ x.problem.names, ∀ y ∈ x.problem.requestUsedArgs name, y.sort = .int)
    (hname : x.problem.names[k]? = some name) :
  ∃ fs f, generateFunction M simplify x eqBound = some fs ∧ fs[k]? = some (name, f)
    ∧ IsDecoded M x eqBound k name 0 f
  := by
  have hdecode : ∀ p ∈ x.problem.names.zipIdx,
      ∃ t, decode M x eqBound p.2 p.1 = some t ∧ IsDecoded M x eqBound p.2 p.1 0 t := by
    intro p hp
    have hmem := List.getElem?_eq_some_iff.mp (List.mem_zipIdx_iff_getElem?.mp hp)
    exact decode_spec hbound (hargs p.1 (hmem.choose_spec ▸ List.getElem_mem hmem.choose))
  have : Nonempty Expr := ⟨.tru⟩
  choose! t ht hnode using hdecode
  have hrun : generateFunction M simplify x eqBound
      = some (x.problem.names.zipIdx.map fun p => (p.1, simplify (t p))) := by
    refine Lists.mapM_eq_map fun p hp => ?_
    rw [ht p hp]
  have hk : (name, k) ∈ x.problem.names.zipIdx := List.mem_zipIdx_iff_getElem?.mpr hname
  have hnode' := hnode (name, k) hk
  refine ⟨_, simplify (t (name, k)), hrun, ?_, ?_, fun N => ?_⟩
  · simp [hname]
  · apply (hsimplify _ _ hnode'.sort).1
  · rw [(hsimplify _ _ hnode'.sort).2 N, hnode'.eval]

theorem toBool_flag (N M : Model) (k i : ℕ)
    (h : N.var (Expand.equationFlag k i) = M.var (Expand.equationFlag k i)) :
  flagVal N k i = flagVal M k i
  := by
  rw [flagVal, flagVal, Model.value, Model.value, h]

/-- Without capture the arguments leave the coefficients and the flags alone. -/
theorem eval_eq_of_noCapture {x : Expand} {t f : Expr} {M : Model} {vs : List Value}
    (hfits : Fits (x.problem.requestUsedArgs name) vs)
    (hargs : ∀ y ∈ x.problem.requestUsedArgs name, y.sort = .int)
    (heq : x.equationBound = intPow2 eqBound - 1)
    (hcapture : ∀ j ≤ 2 * ((x.bound - 1) / 2), ∀ i ≤ (x.problem.requestUsedArgs name).length,
      Expand.coefficient k j i ∉ x.problem.requestUsedArgs name)
    (ht : IsNode x.bound (decide (x.bound ≤ x.equationBound)) (x.isBool name)
      (fun N => coefVal N k (x.problem.requestUsedArgs name) N) (fun N => flagVal N k) 0 t)
    (hf : IsDecoded M x eqBound k name 0 f) :
  (Definition.mk (x.problem.requestUsedArgs name) f).eval default vs
    = (Definition.mk (x.problem.requestUsedArgs name) t).eval M vs
  := by
  have hlength := hfits.length
  rw [Definition.eval, Definition.eval, hf.eval, ht.eval, heq]
  refine nodeValue_congr (fun j hj => ⟨?_, ?_⟩) (Nat.zero_le _)
  · rw [coefVal, coefVal, argVals_bind hlength.symm]
    refine polyVal_congr fun i hi => ?_
    rw [argVals, List.length_map] at hi
    simp only [Model.value, var_bind_of_not_mem (hcapture j hj i hi)]
  · refine (toBool_flag _ _ k j (var_bind_of_not_mem fun hmem => ?_)).symm
    cases hargs _ hmem

/-! ### Captured coefficients -/

/-- The value of a polynomial at which the condition has the given truth value, whether or not
equations count. -/
def labelValue (b : Bool) : ℤ := if b then 0 else -1

theorem meets_labelValue (equation b flag : Bool) :
  meets equation (labelValue b) flag = b
  := by
  cases equation with
  | true => cases b <;> simp [meets, labelValue]
  | false => cases b <;> simp [meets, labelValue]

/-- The only coefficient of a node that is not zero: the captured one at the node `j`, and the
constant at the others. -/
def position (j i j' : ℕ) : ℕ := if j' = j then i else 0

/-- Coefficients that lead to the node `j`, where the one with the number `i` decides. -/
noncomputable def steeringCoef (j i : ℕ) (b : Bool) (p : ℕ × ℕ) : ℤ :=
  if p.2 = position j i p.1 then labelValue (steer j b p.1) else 0

noncomputable def steeringModel (k j i : ℕ) (b : Bool) : Model :=
  ⟨Function.extend (fun p : ℕ × ℕ => Expand.coefficient k p.1 p.2)
    (fun p => .int (steeringCoef j i b p)) fun _ => .int 0, fun _ _ => .int 0⟩

theorem var_steeringModel_coefficient (k j i : ℕ) (b : Bool) (j' i' : ℕ) :
  (steeringModel k j i b).var (Expand.coefficient k j' i') = .int (steeringCoef j i b (j', i'))
  := (coefficient_injective k).extend_apply (fun p => Value.int (steeringCoef j i b p))
    (fun _ => .int 0) (j', i')

theorem value_steeringModel (k j i : ℕ) (b : Bool) (j' i' : ℕ) :
  (steeringModel k j i b).value (Expand.coefficient k j' i') = .int (steeringCoef j i b (j', i'))
  := by
  rw [Model.value, var_steeringModel_coefficient]
  rfl

/-- The two models differ in the captured coefficient only. -/
theorem var_steeringModel {k j i : ℕ} {x : Var} (hx : x ≠ Expand.coefficient k j i) :
  (steeringModel k j i true).var x = (steeringModel k j i false).var x
  := by
  by_cases hcoef : ∃ p : ℕ × ℕ, Expand.coefficient k p.1 p.2 = x
  · obtain ⟨⟨j', i'⟩, rfl⟩ := hcoef
    rw [var_steeringModel_coefficient, var_steeringModel_coefficient, steeringCoef, steeringCoef]
    by_cases hj : j' = j
    · subst hj
      have hi : i' ≠ i := by
        rintro rfl
        apply hx rfl
      have hpos : i' ≠ position j' i j' := by
        rwa [position, if_pos rfl]
      rw [if_neg hpos, if_neg hpos]
    · rw [steer_of_ne true false hj]
  · simp only [steeringModel, Function.extend_apply' _ _ _ hcoef]

/-- A polynomial with one coefficient, of arguments that are all `1`. -/
theorem polyVal_single {m n : ℕ} (hm : m ≤ n) (a : ℤ) :
  polyVal (fun j => if j = m then a else 0) (List.replicate n 1) = a
  := by
  have hfold : ∀ n s : ℕ, ((List.replicate n (1 : ℤ)).zipIdx s).foldr
      (fun p v => (if p.2 = m then a else 0) * p.1 + v) 0
        = if s ≤ m ∧ m < s + n then a else 0 := by
    intro n
    induction n with
    | zero =>
        intro s
        rw [if_neg (by omega)]
        rfl
    | succ n ih =>
        intro s
        rw [List.replicate_succ, List.zipIdx_cons, List.foldr_cons, ih]
        by_cases hs : s = m
        · rw [if_pos hs, if_neg (by omega), if_pos (by omega)]
          ring
        · rw [if_neg hs]
          by_cases hlt : s + 1 ≤ m ∧ m < s + 1 + n
          · rw [if_pos hlt, if_pos (by omega)]
            ring
          · rw [if_neg hlt, if_neg (by omega)]
            ring
  rw [polyVal, hfold]
  by_cases h0 : 0 = m
  · rw [if_pos h0, if_neg (by omega)]
    ring
  · rw [if_neg h0, if_pos (by omega)]
    ring

theorem argVals_const {args : List Var} (hargs : ∀ y ∈ args, y.sort = .int) (N : Model) :
  argVals args (N.bind args (args.map fun _ => .int 1)) = List.replicate args.length 1
  := by
  refine List.eq_replicate_iff.mpr ⟨by rw [argVals, List.length_map], fun v hv => ?_⟩
  obtain ⟨x, hx, rfl⟩ := List.mem_map.mp hv
  rw [Expr.intVal, eval_var, var_bind_const _ hx, hargs x hx]
  rfl

/-- With the coefficients that lead to a node, the decoded function depends on the one there. -/
theorem eval_decoded_steering {x : Expand} {f : Expr} {j i : ℕ} {b : Bool}
    (hargs : ∀ y ∈ x.problem.requestUsedArgs name, y.sort = .int)
    (hj : j ≤ 2 * ((x.bound - 1) / 2)) (hi : i ≤ (x.problem.requestUsedArgs name).length)
    (hf : IsDecoded (steeringModel k j i b) x eqBound k name 0 f) :
  (Definition.mk (x.problem.requestUsedArgs name) f).eval default
      ((x.problem.requestUsedArgs name).map fun _ => .int 1)
    = if x.isBool name then .bool b else .int (labelValue b)
  := by
  have hcoef : ∀ N j', argVals (x.problem.requestUsedArgs name) N
      = List.replicate (x.problem.requestUsedArgs name).length 1 →
      coefVal (steeringModel k j i b) k (x.problem.requestUsedArgs name) N j'
        = labelValue (steer j b j') := by
    intro N j' hN
    have hpos : position j i j' ≤ (x.problem.requestUsedArgs name).length := by
      rw [position]
      split
      · apply hi
      · apply Nat.zero_le _
    rw [coefVal, hN]
    simp only [value_steeringModel, Value.toInt]
    apply polyVal_single hpos _
  rw [Definition.eval, hf.eval, nodeValue]
  simp only [hcoef _ _ (argVals_const hargs default), meets_labelValue]
  rw [steer_walk b hj]

/-- A captured coefficient is read in the template at its argument, and in the decoded function in
the model. -/
theorem not_agrees_of_captured {x : Expand} {t : Expr} {f : Bool → Expr} {j i : ℕ}
    (hargs : ∀ y ∈ x.problem.requestUsedArgs name, y.sort = .int)
    (hj : j ≤ 2 * ((x.bound - 1) / 2)) (hi : i ≤ (x.problem.requestUsedArgs name).length)
    (hmem : Expand.coefficient k j i ∈ x.problem.requestUsedArgs name)
    (hf : ∀ b, IsDecoded (steeringModel k j i b) x eqBound k name 0 (f b))
    (heval : ∀ b, (Definition.mk (x.problem.requestUsedArgs name) (f b)).eval default
        ((x.problem.requestUsedArgs name).map fun _ => .int 1)
      = (Definition.mk (x.problem.requestUsedArgs name) t).eval (steeringModel k j i b)
        ((x.problem.requestUsedArgs name).map fun _ => .int 1)) :
  False
  := by
  have hbind : (steeringModel k j i true).bind (x.problem.requestUsedArgs name)
        ((x.problem.requestUsedArgs name).map fun _ => .int 1)
      = (steeringModel k j i false).bind (x.problem.requestUsedArgs name)
        ((x.problem.requestUsedArgs name).map fun _ => .int 1) := by
    refine Model.mk.injEq .. ▸ ⟨funext fun y => ?_, rfl⟩
    by_cases hy : y ∈ x.problem.requestUsedArgs name
    · apply var_bind_congr (by simp) hy
    · have hne : y ≠ Expand.coefficient k j i := fun h => hy (h ▸ hmem)
      have hvar := var_steeringModel hne
      rw [← var_bind_of_not_mem hy (M := steeringModel k j i true),
        ← var_bind_of_not_mem hy (M := steeringModel k j i false)] at hvar
      apply hvar
  have htrue := heval true
  have hfalse := heval false
  rw [eval_decoded_steering hargs hj hi (hf true)] at htrue
  rw [eval_decoded_steering hargs hj hi (hf false)] at hfalse
  rw [Definition.eval, hbind] at htrue
  have h := htrue.trans hfalse.symm
  cases hbool : x.isBool name with
  | true => simp [hbool] at h
  | false => simp [hbool, labelValue] at h

/-- The templates are built for all functions before a model is decoded. -/
def TemplatesBuilt (P : TemplateProblem) (heightBound : ℕ) (eqBound : ℤ) : Prop :=
  ∀ k < P.names.length, ((expand P heightBound eqBound).generateEval k 0).isSome

theorem TemplatesBuilt.spec (h : TemplatesBuilt P heightBound eqBound) (hname : name ∈ P.names) :
  0 < (expand P heightBound eqBound).bound ∧ ∀ y ∈ P.requestUsedArgs name, y.sort = .int
  := by
  obtain ⟨l, hl, rfl⟩ := List.mem_iff_getElem.mp hname
  obtain ⟨t, ht⟩ := Option.isSome_iff_exists.mp (h l hl)
  apply Expand.of_generateEval (List.getElem?_eq_getElem hl) ht

theorem noCapture_of_agrees (hsimplify : ∀ e, Preserves e (simplify e))
    (htemplates : TemplatesBuilt P heightBound eqBound)
    (hagrees : Agrees simplify P heightBound eqBound k) :
  NoCapture P heightBound eqBound k
  := by
  intro name hname j hj i hi hmem
  rw [Option.mem_def] at hname
  have hnames := List.mem_of_getElem? hname
  obtain ⟨hbound, hargs⟩ := htemplates.spec hnames
  obtain ⟨t, ht, -⟩ := Expand.generateEval_spec (x := expand P heightBound eqBound) hname hargs
    hbound
  have hfits : Fits (P.requestUsedArgs name) ((P.requestUsedArgs name).map fun _ => .int 1) := by
    rw [Fits, List.map_map]
    exact List.map_congr_left fun y hy => (hargs y hy).symm
  have hdecoded : ∀ b, ∃ f, IsDecoded (steeringModel k j i b) (expand P heightBound eqBound)
      eqBound k name 0 f ∧ (Definition.mk (P.requestUsedArgs name) f).eval default
          ((P.requestUsedArgs name).map fun _ => .int 1)
        = (Definition.mk (P.requestUsedArgs name) t).eval (steeringModel k j i b)
          ((P.requestUsedArgs name).map fun _ => .int 1) := by
    intro b
    obtain ⟨fs, f, hfs, hf, hnode⟩ := generateFunction_spec (M := steeringModel k j i b)
      (x := expand P heightBound eqBound) hsimplify hbound
      (fun _ hmem => (htemplates.spec hmem).2) hname
    obtain ⟨t', fs', f', ht', hfs', hf', heval⟩ :=
      hagrees name hname (steeringModel k j i b) _ hfits
    rw [ht, Option.some.injEq] at ht'
    rw [hfs, Option.some.injEq] at hfs'
    subst ht' hfs'
    rw [hf, Option.some.injEq, Prod.mk.injEq] at hf'
    obtain ⟨-, rfl⟩ := hf'
    exact ⟨f, hnode, heval⟩
  choose f hf heval using hdecoded
  apply not_agrees_of_captured (x := expand P heightBound eqBound) hargs hj hi hmem hf heval

theorem agrees_of_noCapture (hsimplify : ∀ e, Preserves e (simplify e))
    (htemplates : TemplatesBuilt P heightBound eqBound)
    (hcapture : NoCapture P heightBound eqBound k) :
  Agrees simplify P heightBound eqBound k
  := by
  intro name hname M vs hfits
  have hname' := hname
  rw [Option.mem_def] at hname'
  obtain ⟨hbound, hargs⟩ := htemplates.spec (List.mem_of_getElem? hname')
  obtain ⟨t, ht, htnode⟩ := Expand.generateEval_spec (x := expand P heightBound eqBound) hname'
    hargs hbound
  obtain ⟨fs, f, hfs, hf, hfnode⟩ := generateFunction_spec (M := M)
    (x := expand P heightBound eqBound) hsimplify hbound
    (fun _ hmem => (htemplates.spec hmem).2) hname'
  exact ⟨t, fs, f, ht, hfs, hf,
    eval_eq_of_noCapture hfits hargs rfl (hcapture name hname) htnode hfnode⟩

/-- Template and decoded function agree unless an argument has the name of a coefficient. -/
theorem agrees_iff (simplify : Expr → Expr) (hsimplify : ∀ e, Preserves e (simplify e))
    (P : TemplateProblem) (heightBound : ℕ) (eqBound : ℤ)
    (htemplates : TemplatesBuilt P heightBound eqBound) (k : ℕ) :
  Agrees simplify P heightBound eqBound k ↔ NoCapture P heightBound eqBound k
  := ⟨noCapture_of_agrees hsimplify htemplates, agrees_of_noCapture hsimplify htemplates⟩

/-- A function of two integers and a predicate on one. -/
def twoFunctions : TemplateProblem where
  names := ["f", "p"]
  requests name :=
    if name = "f" then ⟨"f", [.int, .int], .int⟩ else ⟨name, [.int], .bool⟩
  rdcdRequests name :=
    if name = "f" then ⟨"f", [.int, .int], .int⟩ else ⟨name, [.int], .bool⟩
  requestUsedArgs name := if name = "f" then [⟨"x", .int⟩, ⟨"y", .int⟩] else [⟨"x", .int⟩]
  range_rdcd _ := rfl

theorem TemplatesBuilt.of_int (hbound : 0 < (expand P heightBound eqBound).bound)
    (hargs : ∀ name ∈ P.names, ∀ y ∈ P.requestUsedArgs name, y.sort = .int) :
  TemplatesBuilt P heightBound eqBound
  := by
  intro k hk
  obtain ⟨t, ht, -⟩ := Expand.generateEval_spec (x := expand P heightBound eqBound)
    (List.getElem?_eq_getElem hk) (hargs _ (List.getElem_mem hk)) hbound
  apply Option.isSome_iff_exists.mpr ⟨t, ht⟩

/-- The names of coefficients begin with the letter of functions. -/
theorem coefficient_ne {k j i : ℕ} {x : Var} (hx : x.name.toList.head? ≠ some 'f') :
  Expand.coefficient k j i ≠ x
  := by
  rintro rfl
  apply hx (by simp [Expand.coefficient, String.toList_append])

theorem agrees_iff_twoFunctions :
  TemplatesBuilt twoFunctions 3 2 ∧ NoCapture twoFunctions 3 2 0
    ∧ (Agrees id twoFunctions 3 2 0 ↔ NoCapture twoFunctions 3 2 0)
  := by
  have hbuilt : TemplatesBuilt twoFunctions 3 2 := .of_int (by decide) (by decide)
  refine ⟨hbuilt, ?_, agrees_iff id .refl twoFunctions 3 2 hbuilt 0⟩
  intro name hname j _ i _ hmem
  obtain rfl := Option.some.inj hname
  rcases List.mem_cons.mp hmem with h | h
  · apply coefficient_ne (by decide) h
  · apply coefficient_ne (by decide) (List.mem_singleton.mp h)

/-- The argument has the name of the constant of the first node. -/
def capturedProblem : TemplateProblem where
  names := ["f"]
  requests _ := ⟨"f", [.int], .int⟩
  rdcdRequests _ := ⟨"f", [.int], .int⟩
  requestUsedArgs _ := [⟨"f0_c0_0", .int⟩]
  range_rdcd _ := rfl

theorem not_agrees_capturedProblem :
  ¬Agrees id capturedProblem 1 0 0
  := by
  intro h
  have hbuilt : TemplatesBuilt capturedProblem 1 0 := .of_int (by decide) (by decide)
  apply noCapture_of_agrees .refl hbuilt h "f" rfl 0 (Nat.zero_le _) 0 (Nat.zero_le _) (by decide)

end Agreement

end Sygus.Cegis
