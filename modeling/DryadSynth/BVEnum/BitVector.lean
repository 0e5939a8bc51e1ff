import DryadSynth.Library.Substitution

/-!
# The fast evaluator of bit-vector expressions

The operators of `BitVector.java` on 64-bit `long` values, and the two readings of an operator
name in `OpDispatcher.java`: `dispatch` builds the term of the solver, and `pbeDispatch`
computes its value, with `applyThenCompute` for the bodies of defined functions.

The solver computes in `QF_BV`, where shifts and divisions are total.  A `long` is shifted by
the amount modulo 64, and a division by zero is an exception.  The two agree on every call
whose evaluation meets neither.
-/

namespace DryadSynth

open QFBV (Term Value Interpretation Valuation denote denoteAll meaning bools bindParams
  theorySymbols)

/-- The exceptions that end an evaluation. -/
inductive JavaFault where
  | arithmetic
  | indexOutOfBounds
  | unknownOperator (name : String)
  | argumentCount
  | constError
  | stackOverflow
  | nullPointer
  | negativeArraySize
  deriving DecidableEq, Repr

/-! ### The operators on `long` -/

namespace BitVector

def bvand (operand1 operand2 : BitVec 64) : BitVec 64 := operand1 &&& operand2

def bvor (operand1 operand2 : BitVec 64) : BitVec 64 := operand1 ||| operand2

def bvxor (operand1 operand2 : BitVec 64) : BitVec 64 := operand1 ^^^ operand2

def bvnot (operand1 : BitVec 64) : BitVec 64 := ~~~operand1

def bvnand (operand1 operand2 : BitVec 64) : BitVec 64 := ~~~(operand1 &&& operand2)

def bvxnor (operand1 operand2 : BitVec 64) : BitVec 64 := ~~~(operand1 ^^^ operand2)

def bvnor (operand1 operand2 : BitVec 64) : BitVec 64 := ~~~(operand1 ||| operand2)

def bvadd (operand1 operand2 : BitVec 64) : BitVec 64 := operand1 + operand2

def bvsub (operand1 operand2 : BitVec 64) : BitVec 64 := operand1 - operand2

/-- The distance of a shift of a `long` is the low six bits of the amount. -/
def bvshl (operand1 numbits : BitVec 64) : BitVec 64 := operand1 <<< (numbits.toNat % 64)

def bvlshr (operand1 numbits : BitVec 64) : BitVec 64 := operand1 >>> (numbits.toNat % 64)

def bveq (operand1 operand2 : BitVec 64) : BitVec 64 := if operand1 = operand2 then 1 else 0

/-- The division of `long` truncates, and divides the least value by minus one to itself. -/
def bvsdiv (operand1 operand2 : BitVec 64) : Except JavaFault (BitVec 64) :=
  if operand2 = 0 then .error .arithmetic else .ok (operand1.sdiv operand2)

def bvmul (operand1 operand2 : BitVec 64) : BitVec 64 := operand1 * operand2

def bvurem (operand1 operand2 : BitVec 64) : Except JavaFault (BitVec 64) :=
  if operand2 = 0 then .error .arithmetic else .ok (operand1 % operand2)

def bvneg (operand1 : BitVec 64) : BitVec 64 := -operand1

def bvudiv (operand1 operand2 : BitVec 64) : Except JavaFault (BitVec 64) :=
  if operand2 = 0 then .error .arithmetic else .ok (operand1 / operand2)

def bvashr (operand1 operand2 : BitVec 64) : BitVec 64 :=
  operand1.sshiftRight (operand2.toNat % 64)

def bvsrem (operand1 operand2 : BitVec 64) : Except JavaFault (BitVec 64) :=
  if operand2 = 0 then .error .arithmetic else .ok (operand1.srem operand2)

end BitVector

/-! ### `OpDispatcher` -/

/-- `DefinedFunc`: its parameters and its definition. -/
structure DefinedFunc where
  args : List String
  definition : Term 64

/-- `OpDispatcher`: the functions that are declared, and those that are defined. -/
structure OpDispatcher where
  requests : List String
  funcs : String → Option DefinedFunc

/-- `args[i]`. -/
def argAt {α : Type} (args : List α) (i : ℕ) : Except JavaFault α :=
  match args[i]? with
  | some a => .ok a
  | none => .error .indexOutOfBounds

/-- `DefinedFunc::apply`. -/
def DefinedFunc.apply (df : DefinedFunc) (args : List (Term 64)) : Except JavaFault (Term 64) :=
  if df.args.length = args.length then
    .ok (df.definition.substitute fun s =>
      ((df.args.zip args).find? fun p => p.1 = s).map Prod.snd)
  else .error .argumentCount

namespace OpDispatcher

/-- The names of `dispatch` that take all their arguments. -/
def naryNames : List String := ["+", "-", "*", "and", "or"]

/-- The names of `dispatch` that take one argument. -/
def unaryNames : List String := ["not", "bvneg", "bvnot"]

/-- The names of `dispatch` that take two arguments. -/
def binaryNames : List String :=
  ["/", ">", ">=", "<", "<=", "=", "=>", "div", "mod", "bvadd", "bvsub", "bvmul", "bvurem",
    "bvudiv", "bvsdiv", "bvsrem", "bvsmod", "bvshl", "bvlshr", "bvashr", "bvor", "bvand",
    "bvnand", "bvxor", "bvnor", "bvxnor", "bvuge", "bvugt", "bvule", "bvult", "bvsge", "bvsgt",
    "bvsle", "bvslt", "xor"]

/-- The names of `dispatch` that take three arguments and build an `ite`. -/
def iteNames : List String := ["ite", "if"]

/-- The names that `dispatch` takes for operators. -/
def operatorNames : List String := naryNames ++ unaryNames ++ binaryNames ++ iteNames

/-- The term of an operator name.  An argument past those that an operator takes is left
out. -/
def operatorTerm (name : String) (args : List (Term 64)) : Except JavaFault (Term 64) :=
  if name ∈ naryNames then .ok (.app name args)
  else if name ∈ unaryNames then do
    let a ← argAt args 0
    .ok (.app name [a])
  else if name ∈ binaryNames then do
    let a ← argAt args 0
    let b ← argAt args 1
    .ok (.app name [a, b])
  else do
    let a ← argAt args 0
    let b ← argAt args 1
    let c ← argAt args 2
    .ok (.app "ite" [a, b, c])

/-- `OpDispatcher::dispatch`. -/
def dispatch (d : OpDispatcher) (name : String) (args : List (Term 64))
    (definedOnly doNotInterp : Bool) : Except JavaFault (Term 64) :=
  if name ∈ operatorNames then operatorTerm name args
  else
    match d.funcs name with
    | some df => if doNotInterp then .ok (.app name args) else df.apply args
    | none =>
        if definedOnly then .error (.unknownOperator name)
        else if name ∈ d.requests then .ok (.app name args)
        else .error (.unknownOperator name)

/-- An operator of one argument in `pbeDispatch`. -/
def unary (f : BitVec 64 → BitVec 64) (args : List (BitVec 64)) :
    Except JavaFault (BitVec 64) := do
  let a ← argAt args 0
  .ok (f a)

/-- An operator of two arguments in `pbeDispatch`. -/
def binary (f : BitVec 64 → BitVec 64 → Except JavaFault (BitVec 64)) (args : List (BitVec 64)) :
    Except JavaFault (BitVec 64) := do
  let a ← argAt args 0
  let b ← argAt args 1
  f a b

/-- The conditional of `pbeDispatch`, which reads only the branch it takes. -/
def conditional (args : List (BitVec 64)) : Except JavaFault (BitVec 64) := do
  let a ← argAt args 0
  if a ≠ 0 then argAt args 1 else argAt args 2

/-- The conjunction of `pbeDispatch`, of the first two arguments. -/
def conjunction (args : List (BitVec 64)) : Except JavaFault (BitVec 64) := do
  let a ← argAt args 0
  if a ≠ 0 then do
    let b ← argAt args 1
    .ok (if b ≠ 0 then 1 else 0)
  else .ok 0

/-- The disjunction of `pbeDispatch`, of the first two arguments. -/
def disjunction (args : List (BitVec 64)) : Except JavaFault (BitVec 64) := do
  let a ← argAt args 0
  if a ≠ 0 then .ok 1
  else do
    let b ← argAt args 1
    .ok (if b ≠ 0 then 1 else 0)

open BitVector in
/-- The operators of `pbeDispatch`. -/
def pbeOperator : String → Option (List (BitVec 64) → Except JavaFault (BitVec 64))
  | "bvadd" => some (binary fun a b => .ok (bvadd a b))
  | "bvsub" => some (binary fun a b => .ok (bvsub a b))
  | "bvshl" => some (binary fun a b => .ok (bvshl a b))
  | "bvlshr" => some (binary fun a b => .ok (bvlshr a b))
  | "bvor" => some (binary fun a b => .ok (bvor a b))
  | "bvand" => some (binary fun a b => .ok (bvand a b))
  | "xor" => some (binary fun a b => .ok (bvxor a b))
  | "bvnot" => some (unary bvnot)
  | "bvnand" => some (binary fun a b => .ok (bvnand a b))
  | "bvxor" => some (binary fun a b => .ok (bvxor a b))
  | "bvnor" => some (binary fun a b => .ok (bvnor a b))
  | "bvxnor" => some (binary fun a b => .ok (bvxnor a b))
  | "=" => some (binary fun a b => .ok (bveq a b))
  | "bvsdiv" => some (binary bvsdiv)
  | "bvmul" => some (binary fun a b => .ok (bvmul a b))
  | "bvurem" => some (binary bvurem)
  | "bvneg" => some (unary bvneg)
  | "bvudiv" => some (binary bvudiv)
  | "bvashr" => some (binary fun a b => .ok (bvashr a b))
  | "bvsrem" => some (binary bvsrem)
  | "ite" => some conditional
  | "not" => some (unary fun a => if a ≠ 0 then 0 else 1)
  | "and" => some conjunction
  | "or" => some disjunction
  | "if" => some conditional
  | _ => none

/-- A constant of a body is a parameter. -/
def constant (args : List String) (params : List (BitVec 64)) (s : String) :
    Except JavaFault (Option (BitVec 64)) :=
  match (args.zip params).find? fun p => p.1 = s with
  | some p => .ok (some p.2)
  | none => .error .constError

/-- The name of the declaration of an application: the solver calls an `ite` an `if`. -/
def declName (f : String) : String := if f = "ite" then "if" else f

mutual

/-- `OpDispatcher::applyThenCompute`, with `pbeDispatch` for the applications in the
expression.  An application to no argument is a constant. -/
def applyThenCompute
    (call : String → List (Option (BitVec 64)) → Except JavaFault (Option (BitVec 64)))
    (args : List String) (params : List (BitVec 64)) :
    Term 64 → Except JavaFault (Option (BitVec 64))
  | .literal x =>
      if args.length ≠ params.length then .error .argumentCount else .ok (some x)
  | .symbol s =>
      if args.length ≠ params.length then .error .argumentCount else constant args params s
  | .app f ts =>
      if args.length ≠ params.length then .error .argumentCount
      else if ts.isEmpty then constant args params f
      else do
        let computedArgs ← computeAll call args params ts
        call (declName f) computedArgs

/-- `OpDispatcher::applyThenCompute` on the arguments of an application. -/
def computeAll
    (call : String → List (Option (BitVec 64)) → Except JavaFault (Option (BitVec 64)))
    (args : List String) (params : List (BitVec 64)) :
    List (Term 64) → Except JavaFault (List (Option (BitVec 64)))
  | [] => .ok []
  | t :: ts => do
      let a ← applyThenCompute call args params t
      let as ← computeAll call args params ts
      .ok (a :: as)

end

/-- `OpDispatcher::pbeDispatch`, with the evaluation of the bodies of defined functions.  A
null argument makes the result null. -/
def pbeDispatchWith (d : OpDispatcher)
    (apply : DefinedFunc → List (BitVec 64) → Except JavaFault (Option (BitVec 64)))
    (name : String) (argsLong : List (Option (BitVec 64))) (doNotInterp : Bool) :
    Except JavaFault (Option (BitVec 64)) :=
  match argsLong.mapM id with
  | none => .ok none
  | some args =>
      match pbeOperator name with
      | some f => do
          let a ← f args
          .ok (some a)
      | none =>
          match d.funcs name with
          | some df =>
              if doNotInterp then .error (.unknownOperator name) else apply df args
          | none => .error (.unknownOperator name)

/-- `OpDispatcher::pbeDispatch`, where the stack admits this many nested calls of defined
functions. -/
def pbeDispatch (d : OpDispatcher) :
    ℕ → String → List (Option (BitVec 64)) → Bool → Except JavaFault (Option (BitVec 64))
  | 0 => d.pbeDispatchWith fun _ _ => .error .stackOverflow
  | n + 1 => d.pbeDispatchWith fun df args =>
      applyThenCompute (fun name as => d.pbeDispatch n name as false) df.args args df.definition

end OpDispatcher

/-! ### Values of the solver as `long` values -/

/-- The `long` value of a value: true is one and false is zero. -/
def longValue : Value 64 → BitVec 64
  | .bits x => x
  | .bool true => 1
  | .bool false => 0

/-- The term of a value. -/
def valueTerm : Value 64 → Term 64
  | .bits x => .literal x
  | .bool true => .app "true" []
  | .bool false => .app "false" []

/-! ### Where the two agree -/

/-- Where an operator of two bit-vectors computes what it means: a shift is by less than 64, or
the number has no bits that the amount modulo 64 leaves, and a divisor is not zero. -/
def ExactBits : String → BitVec 64 → BitVec 64 → Prop
  | "bvshl", x, y => y.toNat < 64 ∨ 2 ^ (64 - y.toNat % 64) ∣ x.toNat
  | "bvlshr", x, y => y.toNat < 64 ∨ x.toNat < 2 ^ (y.toNat % 64)
  | "bvashr", x, y =>
      y.toNat < 64 ∨ -2 ^ (y.toNat % 64) ≤ x.toInt ∧ x.toInt < 2 ^ (y.toNat % 64)
  | "bvudiv", _, y | "bvurem", _, y | "bvsdiv", _, y | "bvsrem", _, y => y ≠ 0
  | _, _, _ => True

/-- Where a connective with this unit gives its value from the first two arguments: they decide
it, or the others are the unit. -/
def ExactConnective (unit : Bool) : List Bool → Prop
  | [] => False
  | [a] => a ≠ unit
  | a :: b :: bs => a = unit → b = unit → ∀ c ∈ bs, c = unit

/-- Where an operator computes what it means. -/
def Exact (name : String) (vs : List (Value 64)) : Prop :=
  (∀ x y r, vs = .bits x :: .bits y :: r → ExactBits name x y) ∧
    (name = "and" → ∀ bs, bools vs = some bs → ExactConnective true bs) ∧
    (name = "or" → ∀ bs, bools vs = some bs → ExactConnective false bs)

variable {U : Interpretation 64} {ρ : Valuation 64}

theorem longValue_bool (b : Bool) :
  longValue (.bool b) = if b then 1 else 0
  := by
  cases b <;> rfl

theorem denote_valueTerm (v : Value 64) :
  denote U ρ (valueTerm v) = some v
  := by
  rcases v with (_ | _) | x <;> rfl

namespace OpDispatcher

/-- On these values the operator computes the value of its term. -/
def ComputesTerm (U : Interpretation 64) (name : String)
    (f : List (BitVec 64) → Except JavaFault (BitVec 64)) (vs : List (Value 64)) : Prop :=
  ∀ t v, operatorTerm name (vs.map valueTerm) = .ok t → denote U (fun _ => none) t = some v →
    f (vs.map longValue) = .ok (longValue v)

/-- The application of a name to its first two arguments. -/
def binaryTerm (name : String) (args : List (Term 64)) : Except JavaFault (Term 64) := do
  let a ← argAt args 0
  let b ← argAt args 1
  .ok (.app name [a, b])

theorem computesTerm_binary {name : String}
    (hterm : ∀ args, operatorTerm name args = binaryTerm name args)
    {g : BitVec 64 → BitVec 64 → Except JavaFault (BitVec 64)} {vs : List (Value 64)} :
  ComputesTerm U name (binary g) vs ↔ ∀ u w r v, vs = u :: w :: r →
    meaning U name [u, w] = some v → g (longValue u) (longValue w) = .ok (longValue v)
  := by
  constructor
  · rintro h u w r v rfl hv
    apply h (.app name [valueTerm u, valueTerm w])
    · rw [hterm]
      rfl
    · rw [QFBV.denote_app₂ (denote_valueTerm u) (denote_valueTerm w)]
      apply hv
  · intro h t v ht hv
    rw [hterm] at ht
    rcases vs with _ | ⟨u, _ | ⟨w, r⟩⟩
    · cases ht
    · cases ht
    · cases ht
      rw [QFBV.denote_app₂ (denote_valueTerm u) (denote_valueTerm w)] at hv
      apply h u w r v rfl hv

/-- An operator of two bit-vectors. -/
theorem computesTerm_bits {name : String}
    (hterm : ∀ args, operatorTerm name args = binaryTerm name args)
    {g : BitVec 64 → BitVec 64 → Except JavaFault (BitVec 64)}
    {h : BitVec 64 → BitVec 64 → BitVec 64}
    (hbits : ∀ x y, meaning U name [.bits x, .bits y] = some (.bits (h x y)))
    (hsort : ∀ u w v, meaning U name [u, w] = some v → ∃ x y, u = .bits x ∧ w = .bits y)
    (hg : ∀ x y, g x y = .ok (h x y) ↔ ExactBits name x y) (hand : name ≠ "and")
    (hor : name ≠ "or") (vs : List (Value 64)) :
  ComputesTerm U name (binary g) vs ↔ Exact name vs
  := by
  rw [computesTerm_binary hterm]
  constructor
  · intro hall
    refine ⟨?_, fun heq => absurd heq hand, fun heq => absurd heq hor⟩
    intro x y r hvs
    apply (hg x y).mp
    apply hall _ _ r _ hvs (hbits x y)
  · rintro ⟨hexact, -, -⟩ u w r v rfl hv
    obtain ⟨x, y, rfl, rfl⟩ := hsort u w v hv
    rw [hbits] at hv
    cases hv
    apply (hg x y).mpr
    apply hexact x y r rfl

/-- The operators of two bit-vectors take no other values. -/
theorem sort_of_meaning {name : String}
    (h : name ∈ ["bvadd", "bvsub", "bvmul", "bvurem", "bvudiv", "bvsdiv", "bvsrem", "bvshl",
      "bvlshr", "bvashr", "bvor", "bvand", "bvnand", "bvxor", "bvnor", "bvxnor"])
    (u w v : Value 64) (hv : meaning U name [u, w] = some v) :
  ∃ x y, u = .bits x ∧ w = .bits y
  := by
  rcases u with a | x <;> rcases w with b | y
  · fin_cases h <;> cases hv
  · fin_cases h <;> cases hv
  · fin_cases h <;> cases hv
  · exact ⟨x, y, rfl, rfl⟩

theorem shl_eq_zero_iff {k : ℕ} (hk : k < 64) (x : BitVec 64) :
  x <<< k = 0 ↔ 2 ^ (64 - k) ∣ x.toNat
  := by
  have hpow : 2 ^ 64 = 2 ^ (64 - k) * 2 ^ k := by
    rw [← pow_add]
    congr 1
    omega
  rw [← BitVec.toNat_inj, BitVec.toNat_shiftLeft, Nat.shiftLeft_eq, BitVec.ofNat_eq_ofNat,
    BitVec.toNat_zero, ← Nat.dvd_iff_mod_eq_zero, hpow]
  apply Nat.mul_dvd_mul_iff_right (Nat.two_pow_pos k)

theorem lshr_eq_zero_iff {k : ℕ} (x : BitVec 64) :
  x >>> k = 0 ↔ x.toNat < 2 ^ k
  := by
  rw [← BitVec.toNat_inj, BitVec.toNat_ushiftRight, Nat.shiftRight_eq_div_pow,
    BitVec.ofNat_eq_ofNat, BitVec.toNat_zero]
  apply Nat.div_eq_zero_iff_lt (Nat.two_pow_pos k)

/-- Shifting right leaves the sign alone just where the number fits below the amount. -/
theorem sshiftRight_eq_iff {k : ℕ} (x : BitVec 64) :
  x.sshiftRight k = x.sshiftRight 64 ↔ -2 ^ k ≤ x.toInt ∧ x.toInt < 2 ^ k
  := by
  have hpos : (0 : ℤ) < 2 ^ k := by positivity
  have hlow := BitVec.le_toInt x
  have hhigh := BitVec.toInt_lt (x := x)
  rw [← BitVec.toInt_inj, BitVec.toInt_sshiftRight, BitVec.toInt_sshiftRight,
    Int.shiftRight_eq_div_pow, Int.shiftRight_eq_div_pow, Nat.cast_pow, Nat.cast_pow,
    Nat.cast_ofNat]
  by_cases hx : 0 ≤ x.toInt
  · have hsign : x.toInt / 2 ^ 64 = 0 := Int.ediv_eq_zero_of_lt hx (by omega)
    rw [hsign]
    constructor
    · intro h
      refine ⟨by omega, ?_⟩
      have hlt := Int.lt_mul_ediv_self_add (x := x.toInt) hpos
      rw [h] at hlt
      omega
    · intro h
      exact Int.ediv_eq_zero_of_lt hx h.2
  · have hsign : x.toInt / 2 ^ 64 = -1 := by omega
    rw [hsign]
    constructor
    · intro h
      refine ⟨?_, by omega⟩
      have hle := Int.mul_ediv_self_le (x := x.toInt) (k := 2 ^ k) hpos.ne'
      rw [h] at hle
      omega
    · intro h
      rw [Int.ediv_eq_iff_of_pos hpos]
      omega

theorem shl_eq_iff (x y : BitVec 64) :
  x <<< (y.toNat % 64) = x <<< y.toNat ↔ y.toNat < 64 ∨ 2 ^ (64 - y.toNat % 64) ∣ x.toNat
  := by
  by_cases hy : y.toNat < 64
  · simp [hy, Nat.mod_eq_of_lt hy]
  · have hzero : x <<< y.toNat = 0 := BitVec.shiftLeft_eq_zero (by omega)
    rw [hzero, shl_eq_zero_iff (Nat.mod_lt _ (by decide)), or_iff_right hy]

theorem lshr_eq_iff (x y : BitVec 64) :
  x >>> (y.toNat % 64) = x >>> y.toNat ↔ y.toNat < 64 ∨ x.toNat < 2 ^ (y.toNat % 64)
  := by
  by_cases hy : y.toNat < 64
  · simp [hy, Nat.mod_eq_of_lt hy]
  · have hzero : x >>> y.toNat = 0 := BitVec.ushiftRight_eq_zero (by omega)
    rw [hzero, lshr_eq_zero_iff, or_iff_right hy]

theorem ashr_eq_iff (x y : BitVec 64) :
  x.sshiftRight (y.toNat % 64) = x.sshiftRight y.toNat
    ↔ y.toNat < 64 ∨ -2 ^ (y.toNat % 64) ≤ x.toInt ∧ x.toInt < 2 ^ (y.toNat % 64)
  := by
  by_cases hy : y.toNat < 64
  · simp [hy, Nat.mod_eq_of_lt hy]
  · have hall : x.sshiftRight y.toNat = x.sshiftRight 64 := by
      ext i hi
      rw [BitVec.getElem_sshiftRight, BitVec.getElem_sshiftRight, dif_neg (by omega),
        dif_neg (by omega)]
    rw [hall, sshiftRight_eq_iff, or_iff_right hy]

/-- A division that fails on zero. -/
theorem division_eq_iff (y q q' : BitVec 64) (h : y ≠ 0 → q = q') :
  (if y = 0 then .error .arithmetic else .ok q : Except JavaFault (BitVec 64)) = .ok q' ↔ y ≠ 0
  := by
  by_cases hy : y = 0
  · simp [hy]
  · simp [h hy]

/-- The operators of two bit-vectors that are exact everywhere. -/
theorem computesTerm_total {name : String}
    (hname : name ∈ ["bvadd", "bvsub", "bvmul", "bvor", "bvand", "bvnand", "bvxor", "bvnor",
      "bvxnor"])
    (hterm : ∀ args, operatorTerm name args = binaryTerm name args)
    {h : BitVec 64 → BitVec 64 → BitVec 64}
    (hbits : ∀ x y, meaning U name [.bits x, .bits y] = some (.bits (h x y)))
    (vs : List (Value 64)) :
  ComputesTerm U name (binary fun a b => .ok (h a b)) vs ↔ Exact name vs
  := by
  apply computesTerm_bits hterm hbits
  · apply sort_of_meaning
    fin_cases hname <;> decide
  · intro x y
    apply iff_of_true rfl
    fin_cases hname <;> trivial
  · rintro rfl
    apply absurd hname (by decide)
  · rintro rfl
    apply absurd hname (by decide)

/-- The other operators, apart from the connectives, are exact everywhere. -/
theorem exact_of_mem {name : String}
    (h : name ∈ ["bvnot", "bvneg", "not", "xor", "=", "ite", "if"]) (vs : List (Value 64)) :
  Exact name vs
  := by
  refine ⟨?_, ?_, ?_⟩
  · intro x y r _
    fin_cases h <;> trivial
  · rintro rfl
    apply absurd h (by decide)
  · rintro rfl
    apply absurd h (by decide)

theorem computesTerm_unary {name : String} {k : BitVec 64 → BitVec 64}
    (hterm : ∀ args, operatorTerm name args = do
      let a ← argAt args 0
      .ok (.app name [a]))
    (hk : ∀ u v, meaning U name [u] = some v → k (longValue u) = longValue v)
    (vs : List (Value 64)) :
  ComputesTerm U name (unary k) vs
  := by
  intro t v ht hv
  rw [hterm] at ht
  rcases vs with _ | ⟨u, r⟩
  · cases ht
  · cases ht
    rw [QFBV.denote_app₁ (denote_valueTerm u)] at hv
    rw [← hk u v hv]
    rfl

/-- The conditional under its two names. -/
theorem computesTerm_conditional {name : String}
    (hterm : ∀ args, operatorTerm name args = do
      let a ← argAt args 0
      let b ← argAt args 1
      let c ← argAt args 2
      .ok (.app "ite" [a, b, c]))
    (vs : List (Value 64)) :
  ComputesTerm U name conditional vs
  := by
  intro t v ht hv
  rw [hterm] at ht
  rcases vs with _ | ⟨u, _ | ⟨w, _ | ⟨z, r⟩⟩⟩
  · cases ht
  · cases ht
  · cases ht
  · cases ht
    rw [QFBV.denote_app₃ (denote_valueTerm u) (denote_valueTerm w) (denote_valueTerm z)] at hv
    rcases u with (_ | _) | x
    · rcases w with b | y <;> rcases z with c | z <;> cases hv <;> rfl
    · rcases w with b | y <;> rcases z with c | z <;> cases hv <;> rfl
    · cases hv

theorem eq_map_of_bools {vs : List (Value 64)} {bs : List Bool} (h : bools vs = some bs) :
  vs = bs.map .bool
  := by
  induction vs generalizing bs with
  | nil =>
      cases h
      rfl
  | cons v vs ih =>
      cases v with
      | bool b =>
          obtain ⟨bs', hbs', rfl⟩ := Option.map_eq_some_iff.mp h
          rw [ih hbs', List.map_cons]
      | bits x => cases h

/-- A connective of all its arguments. -/
theorem computesTerm_connective {name : String} {unit : Bool} {k : List Bool → Bool}
    {f : List (BitVec 64) → Except JavaFault (BitVec 64)}
    (hterm : ∀ args, operatorTerm name args = .ok (.app name args))
    (hmeaning : ∀ vs, meaning U name vs = (bools vs).map fun bs => .bool (k bs))
    (hf : ∀ bs : List Bool, f ((bs.map .bool).map longValue) = .ok (longValue (.bool (k bs)))
      ↔ ExactConnective unit bs) (vs : List (Value 64)) :
  ComputesTerm U name f vs ↔ ∀ bs, bools vs = some bs → ExactConnective unit bs
  := by
  have hdenote : denote U (fun _ => none) (.app name (vs.map valueTerm))
      = (bools vs).map fun bs => .bool (k bs) := by
    have hall := QFBV.denoteAll_map (U := U) (ρ := fun _ => none) denote_valueTerm vs
    rw [List.map_id'] at hall
    rw [denote, hall, Option.bind_some, hmeaning]
  constructor
  · intro h bs hbs
    rw [← hf]
    rw [← eq_map_of_bools hbs]
    apply h _ _ (hterm _)
    rw [hdenote, hbs]
    rfl
  · intro h t v ht hv
    rw [hterm] at ht
    cases ht
    rw [hdenote] at hv
    obtain ⟨bs, hbs, rfl⟩ := Option.map_eq_some_iff.mp hv
    rw [eq_map_of_bools hbs]
    apply (hf bs).mpr (h bs hbs)

theorem conjunction_eq_iff (bs : List Bool) :
  conjunction ((bs.map .bool).map longValue) = .ok (longValue (.bool (bs.all id)))
    ↔ ExactConnective true bs
  := by
  rcases bs with _ | ⟨a, _ | ⟨b, bs⟩⟩
  · simp [conjunction, argAt, ExactConnective, bind, Except.bind]
  · cases a <;>
      simp [conjunction, argAt, ExactConnective, longValue_bool, bind, Except.bind]
  · cases a <;> cases b <;> cases hall : bs.all id <;>
      simp_all [conjunction, argAt, ExactConnective, longValue_bool, bind, Except.bind]

theorem disjunction_eq_iff (bs : List Bool) :
  disjunction ((bs.map .bool).map longValue) = .ok (longValue (.bool (bs.any id)))
    ↔ ExactConnective false bs
  := by
  rcases bs with _ | ⟨a, _ | ⟨b, bs⟩⟩
  · simp [disjunction, argAt, ExactConnective, bind, Except.bind]
  · cases a <;>
      simp [disjunction, argAt, ExactConnective, longValue_bool, bind, Except.bind]
  · cases a <;> cases b <;> cases hany : bs.any id <;>
      simp_all [disjunction, argAt, ExactConnective, longValue_bool, bind, Except.bind]

/-- An operator of the fast evaluator computes the value of the term that `dispatch` builds
exactly where it is exact. -/
theorem computesTerm_iff {name : String}
    {f : List (BitVec 64) → Except JavaFault (BitVec 64)} (h : pbeOperator name = some f)
    (vs : List (Value 64)) :
  ComputesTerm U name f vs ↔ Exact name vs
  := by
  unfold pbeOperator at h
  split at h
  next => -- bvadd
    cases h
    apply computesTerm_total (by decide) (fun _ => rfl) (fun _ _ => rfl)
  next => -- bvsub
    cases h
    apply computesTerm_total (by decide) (fun _ => rfl) (fun _ _ => rfl)
  next => -- bvshl
    cases h
    apply computesTerm_bits (fun _ => rfl) (h := fun x y => x <<< y.toNat) (fun _ _ => rfl)
      (sort_of_meaning (by decide)) _ (by decide) (by decide)
    intro x y
    rw [Except.ok.injEq]
    apply shl_eq_iff
  next => -- bvlshr
    cases h
    apply computesTerm_bits (fun _ => rfl) (h := fun x y => x >>> y.toNat) (fun _ _ => rfl)
      (sort_of_meaning (by decide)) _ (by decide) (by decide)
    intro x y
    rw [Except.ok.injEq]
    apply lshr_eq_iff
  next => -- bvor
    cases h
    apply computesTerm_total (by decide) (fun _ => rfl) (fun _ _ => rfl)
  next => -- bvand
    cases h
    apply computesTerm_total (by decide) (fun _ => rfl) (fun _ _ => rfl)
  next => -- xor
    cases h
    apply iff_of_true _ (exact_of_mem (by decide) vs)
    rw [computesTerm_binary fun _ => rfl]
    rintro ((_ | _) | x) ((_ | _) | y) r v - hv <;> cases hv <;> rfl
  next => -- bvnot
    cases h
    apply iff_of_true _ (exact_of_mem (by decide) vs)
    apply computesTerm_unary (fun _ => rfl)
    rintro (a | x) v hv
    · cases hv
    · cases hv
      rfl
  next => -- bvnand
    cases h
    apply computesTerm_total (by decide) (fun _ => rfl) (fun _ _ => rfl)
  next => -- bvxor
    cases h
    apply computesTerm_total (by decide) (fun _ => rfl) (fun _ _ => rfl)
  next => -- bvnor
    cases h
    apply computesTerm_total (by decide) (fun _ => rfl) (fun _ _ => rfl)
  next => -- bvxnor
    cases h
    apply computesTerm_total (by decide) (fun _ => rfl) (fun _ _ => rfl)
  next => -- =
    cases h
    apply iff_of_true _ (exact_of_mem (by decide) vs)
    rw [computesTerm_binary fun _ => rfl]
    rintro ((_ | _) | x) ((_ | _) | y) r v - hv <;> cases hv
    · rfl
    · rfl
    · rfl
    · rfl
    · rw [longValue_bool]
      by_cases hxy : x = y <;> simp [longValue, BitVector.bveq, hxy]
  next => -- bvsdiv
    cases h
    apply computesTerm_bits (fun _ => rfl) (h := BitVec.smtSDiv) (fun _ _ => rfl)
      (sort_of_meaning (by decide)) _ (by decide) (by decide)
    intro x y
    apply division_eq_iff
    intro hy
    rw [QFBV.smtSDiv_of_ne_zero x hy]
  next => -- bvmul
    cases h
    apply computesTerm_total (by decide) (fun _ => rfl) (fun _ _ => rfl)
  next => -- bvurem
    cases h
    apply computesTerm_bits (fun _ => rfl) (h := fun x y => x % y) (fun _ _ => rfl)
      (sort_of_meaning (by decide)) _ (by decide) (by decide)
    intro x y
    apply division_eq_iff
    intro _
    rfl
  next => -- bvneg
    cases h
    apply iff_of_true _ (exact_of_mem (by decide) vs)
    apply computesTerm_unary (fun _ => rfl)
    rintro (a | x) v hv
    · cases hv
    · cases hv
      rfl
  next => -- bvudiv
    cases h
    apply computesTerm_bits (fun _ => rfl) (h := BitVec.smtUDiv) (fun _ _ => rfl)
      (sort_of_meaning (by decide)) _ (by decide) (by decide)
    intro x y
    apply division_eq_iff
    intro hy
    rw [QFBV.smtUDiv_of_ne_zero x hy]
  next => -- bvashr
    cases h
    apply computesTerm_bits (fun _ => rfl) (h := fun x y => x.sshiftRight y.toNat) (fun _ _ => rfl)
      (sort_of_meaning (by decide)) _ (by decide) (by decide)
    intro x y
    rw [Except.ok.injEq]
    apply ashr_eq_iff
  next => -- bvsrem
    cases h
    apply computesTerm_bits (fun _ => rfl) (h := BitVec.srem) (fun _ _ => rfl)
      (sort_of_meaning (by decide)) _ (by decide) (by decide)
    intro x y
    apply division_eq_iff
    intro _
    rfl
  next => -- ite
    cases h
    apply iff_of_true _ (exact_of_mem (by decide) vs)
    apply computesTerm_conditional fun _ => rfl
  next => -- not
    cases h
    apply iff_of_true _ (exact_of_mem (by decide) vs)
    apply computesTerm_unary (fun _ => rfl)
    rintro ((_ | _) | x) v hv
    · cases hv
      rfl
    · cases hv
      rfl
    · cases hv
  next => -- and
    cases h
    rw [computesTerm_connective (fun _ => rfl) (fun _ => rfl) conjunction_eq_iff]
    simp [Exact, ExactBits]
  next => -- or
    cases h
    rw [computesTerm_connective (fun _ => rfl) (fun _ => rfl) disjunction_eq_iff]
    simp [Exact, ExactBits]
  next => -- if
    cases h
    apply iff_of_true _ (exact_of_mem (by decide) vs)
    apply computesTerm_conditional fun _ => rfl
  next => cases h

end OpDispatcher

end DryadSynth
