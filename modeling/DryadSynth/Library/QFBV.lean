import Mathlib

/-!
# Bit-vector terms of SMT-LIB

The values of ground SMT-LIB terms over the Booleans and the bit-vectors of one width `w`.
A term is interpreted by the theory symbols of `QF_BV`, by an interpretation of the
symbols a script defines itself, and by a valuation of its constants.  A term that is not
well sorted, or that uses a symbol with no meaning, has no value.
-/

namespace QFBV

variable {w : ℕ}

/-- A value of sort `Bool` or of sort `(_ BitVec w)`. -/
inductive Value (w : ℕ) where
  | bool (b : Bool)
  | bits (x : BitVec w)
  deriving DecidableEq, Repr

/-- A ground term: a constant, a literal, or a function symbol applied to terms. -/
inductive Term (w : ℕ) where
  | symbol (name : String)
  | literal (x : BitVec w)
  | app (f : String) (ts : List (Term w))

/-- The names of the theory symbols. -/
def theorySymbols : List String :=
  ["true", "false", "not", "and", "or", "xor", "=>", "=", "distinct", "ite",
    "bvnot", "bvneg", "bvand", "bvor", "bvxor", "bvnand", "bvnor", "bvxnor", "bvadd", "bvsub",
    "bvmul", "bvudiv", "bvurem", "bvsdiv", "bvsrem", "bvsmod", "bvshl", "bvlshr", "bvashr",
    "bvult", "bvule", "bvugt", "bvuge", "bvslt", "bvsle", "bvsgt", "bvsge"]

/-- The Booleans a list of values consists of. -/
def bools : List (Value w) → Option (List Bool)
  | [] => some []
  | .bool b :: vs => (bools vs).map (b :: ·)
  | .bits _ :: _ => none

/-- The meaning of the theory symbols.  Division by zero and shifts by at least the width
are total, as `QF_BV` has them. -/
def theory : String → List (Value w) → Option (Value w)
  | "true", [] => some (.bool true)
  | "false", [] => some (.bool false)
  | "not", [.bool a] => some (.bool !a)
  | "and", vs => (bools vs).map fun bs => .bool (bs.all id)
  | "or", vs => (bools vs).map fun bs => .bool (bs.any id)
  | "xor", [.bool a, .bool b] => some (.bool (a != b))
  | "=>", [.bool a, .bool b] => some (.bool (!a || b))
  | "=", [.bool a, .bool b] => some (.bool (a == b))
  | "=", [.bits x, .bits y] => some (.bool (x == y))
  | "distinct", [.bool a, .bool b] => some (.bool (a != b))
  | "distinct", [.bits x, .bits y] => some (.bool (x != y))
  | "ite", [.bool c, .bool a, .bool b] => some (.bool (if c then a else b))
  | "ite", [.bool c, .bits x, .bits y] => some (.bits (if c then x else y))
  | "bvnot", [.bits x] => some (.bits (~~~x))
  | "bvneg", [.bits x] => some (.bits (-x))
  | "bvand", [.bits x, .bits y] => some (.bits (x &&& y))
  | "bvor", [.bits x, .bits y] => some (.bits (x ||| y))
  | "bvxor", [.bits x, .bits y] => some (.bits (x ^^^ y))
  | "bvnand", [.bits x, .bits y] => some (.bits (~~~(x &&& y)))
  | "bvnor", [.bits x, .bits y] => some (.bits (~~~(x ||| y)))
  | "bvxnor", [.bits x, .bits y] => some (.bits (~~~(x ^^^ y)))
  | "bvadd", [.bits x, .bits y] => some (.bits (x + y))
  | "bvsub", [.bits x, .bits y] => some (.bits (x - y))
  | "bvmul", [.bits x, .bits y] => some (.bits (x * y))
  | "bvudiv", [.bits x, .bits y] => some (.bits (x.smtUDiv y))
  | "bvurem", [.bits x, .bits y] => some (.bits (x % y))
  | "bvsdiv", [.bits x, .bits y] => some (.bits (x.smtSDiv y))
  | "bvsrem", [.bits x, .bits y] => some (.bits (x.srem y))
  | "bvsmod", [.bits x, .bits y] => some (.bits (x.smod y))
  | "bvshl", [.bits x, .bits y] => some (.bits (x <<< y.toNat))
  | "bvlshr", [.bits x, .bits y] => some (.bits (x >>> y.toNat))
  | "bvashr", [.bits x, .bits y] => some (.bits (x.sshiftRight y.toNat))
  | "bvult", [.bits x, .bits y] => some (.bool (x.ult y))
  | "bvule", [.bits x, .bits y] => some (.bool (x.ule y))
  | "bvugt", [.bits x, .bits y] => some (.bool (y.ult x))
  | "bvuge", [.bits x, .bits y] => some (.bool (y.ule x))
  | "bvslt", [.bits x, .bits y] => some (.bool (x.slt y))
  | "bvsle", [.bits x, .bits y] => some (.bool (x.sle y))
  | "bvsgt", [.bits x, .bits y] => some (.bool (y.slt x))
  | "bvsge", [.bits x, .bits y] => some (.bool (y.sle x))
  | _, _ => none

/-- An interpretation of the function symbols a script declares or defines. -/
abbrev Interpretation (w : ℕ) : Type := String → List (Value w) → Option (Value w)

/-- A valuation of the constants of a script. -/
abbrev Valuation (w : ℕ) : Type := String → Option (Value w)

/-- The interpretation of a script that defines no function symbol. -/
def noSymbols : Interpretation w := fun _ _ => none

/-- The meaning of a function symbol.  A script cannot give a theory symbol another
meaning. -/
def meaning (U : Interpretation w) (f : String) (vs : List (Value w)) : Option (Value w) :=
  if f ∈ theorySymbols then theory f vs else U f vs

mutual

/-- The value of a term. -/
def denote (U : Interpretation w) (ρ : Valuation w) : Term w → Option (Value w)
  | .symbol name => ρ name
  | .literal x => some (.bits x)
  | .app f ts => (denoteAll U ρ ts).bind (meaning U f)

/-- The values of a list of terms. -/
def denoteAll (U : Interpretation w) (ρ : Valuation w) : List (Term w) → Option (List (Value w))
  | [] => some []
  | t :: ts => (denote U ρ t).bind fun v => (denoteAll U ρ ts).map (v :: ·)

end

/-- A function definition of a script: `(define-fun name (params) … body)`. -/
structure Definition (w : ℕ) where
  name : String
  params : List String
  body : Term w

/-- The valuation that gives the parameters of a definition their arguments. -/
def bindParams (params : List String) (vs : List (Value w)) : Valuation w :=
  fun s => ((params.zip vs).find? fun p => p.1 = s).map Prod.snd

/-- The interpretation `U` satisfies the definitions of a script: no definition is of a
theory symbol, and every defined symbol is the function its body computes.  A script that
defines a symbol twice has such an interpretation only if both definitions compute the same
function. -/
def Interprets (U : Interpretation w) (defs : List (Definition w)) : Prop :=
  ∀ d ∈ defs, d.name ∉ theorySymbols ∧
    ∀ vs : List (Value w), vs.length = d.params.length →
      U d.name vs = denote U (bindParams d.params vs) d.body

section Denote

variable {U : Interpretation w} {ρ : Valuation w}

@[simp]
theorem denoteAll_nil :
  denoteAll U ρ [] = some []
  := rfl

@[simp]
theorem denoteAll_cons (t : Term w) (ts : List (Term w)) :
  denoteAll U ρ (t :: ts) = (denote U ρ t).bind fun v => (denoteAll U ρ ts).map (v :: ·)
  := rfl

/-- The value of a unary application from the value of its operand. -/
theorem denote_app₁ {f : String} {t : Term w} {v : Value w} (h : denote U ρ t = some v) :
  denote U ρ (.app f [t]) = meaning U f [v]
  := by
  simp [denote, h]

/-- The value of a binary application from the values of its operands. -/
theorem denote_app₂
    {f : String} {s t : Term w} {u v : Value w}
    (hs : denote U ρ s = some u) (ht : denote U ρ t = some v) :
  denote U ρ (.app f [s, t]) = meaning U f [u, v]
  := by
  simp [denote, hs, ht]

/-- The value of a ternary application from the values of its operands. -/
theorem denote_app₃
    {f : String} {r s t : Term w} {u v x : Value w}
    (hr : denote U ρ r = some u) (hs : denote U ρ s = some v) (ht : denote U ρ t = some x) :
  denote U ρ (.app f [r, s, t]) = meaning U f [u, v, x]
  := by
  simp [denote, hr, hs, ht]

@[simp]
theorem bools_map (bs : List Bool) :
  bools (bs.map (.bool : Bool → Value w)) = some bs
  := by
  induction bs with
  | nil => rfl
  | cons b bs ih => simp [bools, ih]

/-- A conjunction of Boolean values. -/
theorem meaning_and (bs : List Bool) :
  meaning U "and" (bs.map .bool) = some (.bool (bs.all id))
  := by
  have hand : meaning U "and" (bs.map .bool)
      = (bools (bs.map (.bool : Bool → Value w))).map fun bs => .bool (bs.all id) := rfl
  rw [hand, bools_map, Option.map_some]

/-- A defined symbol means what its body computes. -/
theorem Interprets.meaning_eq
    {defs : List (Definition w)} (hU : Interprets U defs) {d : Definition w} (hd : d ∈ defs)
    {vs : List (Value w)} (hvs : vs.length = d.params.length) :
  meaning U d.name vs = denote U (bindParams d.params vs) d.body
  := by
  obtain ⟨hname, hbody⟩ := hU d hd
  rw [meaning, if_neg hname]
  apply hbody vs hvs

end Denote

/-! ### Total and partial division -/

theorem smtUDiv_of_ne_zero (x : BitVec w) {y : BitVec w} (h : y ≠ 0#w) :
  x.smtUDiv y = x / y
  := by
  rw [BitVec.smtUDiv_eq, if_neg h]

/-- Away from a zero divisor the signed division of `QF_BV` is the truncated division. -/
theorem smtSDiv_of_ne_zero (x : BitVec w) {y : BitVec w} (h : y ≠ 0#w) :
  x.smtSDiv y = x.sdiv y
  := by
  have hneg : -y ≠ 0#w := by
    simpa using h
  rw [BitVec.smtSDiv_eq, BitVec.sdiv_eq]
  cases x.msb <;> cases y.msb <;>
    simp only [smtUDiv_of_ne_zero _ h, smtUDiv_of_ne_zero _ hneg, BitVec.udiv_eq]

/-! ### Parameters -/

/-- A parameter of a definition has the value of the argument in its place. -/
theorem bindParams_of_getElem
    {params : List String} (hnodup : params.Nodup) {vs : List (Value w)} {i : ℕ} {s : String}
    {v : Value w} (hs : params[i]? = some s) (hv : vs[i]? = some v) :
  bindParams params vs s = some v
  := by
  induction params generalizing vs i with
  | nil => simp at hs
  | cons p params ih =>
      cases vs with
      | nil => simp at hv
      | cons v' vs =>
          obtain ⟨hp, hnodup⟩ := List.nodup_cons.mp hnodup
          cases i with
          | zero =>
              simp only [List.getElem?_cons_zero, Option.some.injEq] at hs hv
              simp [bindParams, hs, hv]
          | succ i =>
              simp only [List.getElem?_cons_succ] at hs hv
              have hne : ¬ p = s := by
                rintro rfl
                apply hp (List.mem_of_getElem? hs)
              have h := ih hnodup hs hv
              simp only [bindParams] at h ⊢
              simp [hne, h]

end QFBV
