import DryadSynth.Library.LIA.Every

/-!
# Formatting a definition for its grammar

`formatFullCLIA` prints an expression with binary operators, sums for numerals and products, and
no constants but zero and one, and keeps the texts of the sub-expressions in a cache.
-/

namespace Sygus.Format

open LIA

/-- How a problem with a grammar was converted. -/
inductive ConvertMethod where
  | FULLCLIA
  | ADDSUB
  | ITEWOSUB
  | ITEWOADDSUB
  | CONSTONLY
  | TENSONLY
  | NONE
  deriving DecidableEq, Repr

/-! ### Texts -/

/-- A printed expression.  A text that the cache does not have is printed as `null`. -/
inductive Text where
  | null
  | atom (e : Expr)
  | list (f : String) (args : List Text)

/-- The expression that a text with operator `f` is read as. -/
def readApp : String → List Expr → Option Expr
  | "and", l => some (.and l)
  | "or", l => some (.or l)
  | "+", l => some (.add l)
  | "-", l => some (.sub l)
  | "not", [a] => some (.not a)
  | "ite", [c, a, b] => some (.ite c a b)
  | ">=", [a, b] => some (.ge a b)
  | "<=", [a, b] => some (.le a b)
  | ">", [a, b] => some (.gt a b)
  | "<", [a, b] => some (.lt a b)
  | "=", [a, b] => some (.eq a b)
  | _, _ => none

namespace Text

mutual

/-- The expression that a text is read as. -/
def read : Text → Option Expr
  | null => none
  | atom e => some e
  | list f args => (readAll args).bind (readApp f)

def readAll : List Text → Option (List Expr)
  | [] => some []
  | t :: l => do
      let e ← t.read
      let es ← readAll l
      some (e :: es)

end

/-- `(f acc t)` for one text after the other. -/
def nest (f : String) (acc : Text) (l : List Text) : Text :=
  l.foldl (fun acc t => list f [acc, t]) acc

end Text

/-! ### The cache -/

/-- The texts of the expressions that have been formatted. -/
abbrev Cache : Type := Expr → Option Text

namespace Cache

def put (cache : Cache) (e : Expr) (t : Text) : Cache := Function.update cache e (some t)

/-- The text of an expression, which may be `null`, as it is printed. -/
def get (cache : Cache) : Option Expr → Text
  | some e => (cache e).getD .null
  | none => .null

end Cache

/-! ### Formatting -/

/-- A Java `int`. -/
def InRange (n : ℤ) : Prop := -2 ^ 31 ≤ n ∧ n < 2 ^ 31

instance (n : ℤ) : Decidable (InRange n) := inferInstanceAs (Decidable (_ ∧ _))

/-- `Integer.parseInt` -/
def parseInt (n : ℤ) : Option ℤ := if InRange n then some n else none

/-- How often a loop `j < 0 - num` runs.  The least `int` is its own negative. -/
def timesBelow (num : ℤ) : ℕ := ((-num).bmod (2 ^ 32)).toNat

/-- Variables and constants. -/
def isConst : Expr → Bool
  | .var _ => true
  | .tru => true
  | .fls => true
  | .func f [] => f.domain = []
  | _ => false

/-- The text for zero. -/
def zeroText (converted : ConvertMethod) (arg0 : Expr) : Text :=
  if converted = .ADDSUB then .list "-" [.atom arg0, .atom arg0] else .atom (.num 0)

/-- The text of a numeral. -/
def numeralText (converted : ConvertMethod) (arg0 : Expr) (n : ℤ) : Option Text :=
  if converted = .TENSONLY ∨ converted = .ITEWOADDSUB then some (.atom (.num n))
  else do
    let num ← parseInt n
    if 2 ≤ num then
      some (.nest "+" (.atom (.num 1)) (.replicate (num.toNat - 1) (.atom (.num 1))))
    else if num < 0 then
      some (.nest "-" (zeroText converted arg0)
        (.replicate (timesBelow num) (.atom (.num 1))))
    else if num = 0 then some (zeroText converted arg0)
    else some (.atom (.num num))

/-- A binary operator on expressions, which must not be `null`. -/
def mkBinary (o : Op) (acc e : Option Expr) : Option (Option Expr) := do
  let a ← acc
  let b ← e
  some (some (.app o [a, b]))

/-- The loops that connect the formatted arguments by a binary operator.  There has to be an
argument. -/
def formatNest (f : String) (o : Op) (args : List Expr) (newArgs : List (Option Expr))
    (cache : Cache) : Option (Option Expr × Cache) :=
  match args.map fun e => cache.get (some e), newArgs with
  | t :: texts, new :: rest => do
      let e ← rest.foldlM (mkBinary o) new
      some (e, cache.put (.app o args) (.nest f t texts))
  | _, _ => none

/-- An operator on a fixed number of formatted arguments, which must not be `null`. -/
def formatFixed (f : String) (o : Op) (args : List Expr) (newArgs : List (Option Expr))
    (cache : Cache) : Option (Option Expr × Cache) := do
  let es ← newArgs.mapM id
  some (some (.app o es),
    cache.put (.app o args) (.list f (args.map fun e => cache.get (some e))))

/-- The number and the formatted other argument of a product: one of the first two arguments is a
numeral, and further ones are not looked at. -/
def factors : List Expr → List (Option Expr) → Option (ℤ × Option Expr)
  | .num n :: _, _ :: arg :: _ => (parseInt n).map fun num => (num, arg)
  | _ :: .num n :: _, arg :: _ => (parseInt n).map fun num => (num, arg)
  | _, _ => none

/-- A product, as a sum or as a difference.  The text of the other argument is looked up by what
formatting returned for it. -/
def formatMul (converted : ConvertMethod) (arg0 : Expr) (args : List Expr)
    (newArgs : List (Option Expr)) (cache : Cache) : Option (Option Expr × Cache) := do
  let (num, arg) ← factors args newArgs
  let text := cache.get arg
  if num = 0 then
    some (some (.num 0), cache.put (.mul args) (zeroText converted arg0))
  else if 0 < num then do
    let e ← (List.replicate (num.toNat - 1) arg).foldlM (mkBinary .add) arg
    some (e, cache.put (.mul args) (.nest "+" text (.replicate (num.toNat - 1) text)))
  else do
    let e ← (List.replicate (timesBelow num) arg).foldlM (mkBinary .sub) (some (.num 0))
    some (e, cache.put (.mul args)
      (.nest "-" (zeroText converted arg0) (.replicate (timesBelow num) text)))

/-- An application, from its formatted arguments.  The result is `null` for other operators. -/
def formatApp (converted : ConvertMethod) (arg0 : Expr) (o : Op) (args : List Expr)
    (newArgs : List (Option Expr)) (cache : Cache) : Option (Option Expr × Cache) :=
  match o, args with
  | .and, _ => formatNest "and" .and args newArgs cache
  | .or, _ => formatNest "or" .or args newArgs cache
  | .not, [_] => formatFixed "not" .not args newArgs cache
  | .mul, _ => formatMul converted arg0 args newArgs cache
  | .add, _ => formatNest "+" .add args newArgs cache
  -- with one argument it is the unary minus
  | .sub, [_] => some (none, cache)
  | .sub, _ => formatNest "-" .sub args newArgs cache
  | .ite, [_, _, _] => formatFixed "ite" .ite args newArgs cache
  | .ge, [_, _] => formatFixed ">=" .ge args newArgs cache
  | .le, [_, _] => formatFixed "<=" .le args newArgs cache
  | .gt, [_, _] => formatFixed ">" .gt args newArgs cache
  | .lt, [_, _] => formatFixed "<" .lt args newArgs cache
  | .eq, [_, _] => formatFixed "=" .eq args newArgs cache
  | _, _ => some (none, cache)

mutual

/-- `formatFullCLIA`: the formatted expression, which may be `null`, and the cache, if there is no
exception. -/
def formatFullCLIA (converted : ConvertMethod) (arg0 : Expr) :
    Expr → Cache → Option (Option Expr × Cache)
  | .num n, cache => do
      let t ← numeralText converted arg0 n
      some (some (.num n), cache.put (.num n) t)
  | .var x, cache => some (some (.var x), cache.put (.var x) (.atom (.var x)))
  | .app o args, cache =>
      if isConst (.app o args) then
        some (some (.app o args), cache.put (.app o args) (.atom (.app o args)))
      else do
        let (newArgs, cache) ← formatAll converted arg0 args cache
        formatApp converted arg0 o args newArgs cache

def formatAll (converted : ConvertMethod) (arg0 : Expr) :
    List Expr → Cache → Option (List (Option Expr) × Cache)
  | [], cache => some ([], cache)
  | e :: l, cache => do
      let (new, cache) ← formatFullCLIA converted arg0 e cache
      let (news, cache) ← formatAll converted arg0 l cache
      some (new :: news, cache)

end

end Sygus.Format
