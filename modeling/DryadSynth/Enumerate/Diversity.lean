import DryadSynth.Enumerate.Bounded
import DryadSynth.Enumerate.Subsets

/-!
# The enumerators that go by the number of atoms

`enumerate/algo3.rs` and `enumerate/algo4.rs`.  They visit the sizes with the sets of atoms along
the diagonals of size and number of atoms, and give each operand a part of the atoms.  The two
differ in the diagonals, in which rows are stored and read, and in the sizes that shifts and
divisions leave for their operands.
-/

namespace DryadSynth

variable {N : ℕ}

/-- `Point`: a size and a number of atoms. -/
structure Point where
  n : ℕ
  k : ℕ
  deriving DecidableEq, Repr

/-- What the two enumerators do differently: the diagonal of a point and whether it has one, the
rows that `run_size` reads and `run_fill` stores under a memory limit at the current point, the
size that a shift leaves its operand and whether this may be a shift, and the sizes from which a
division has operands and has an operand of its own sub-expressions. -/
structure Diversity where
  fcond : Point → Bool
  f : Point → ℕ
  fromf : ℕ → ℕ → Point
  reads : ℕ → Point → Point → Bool
  stores : ℕ → Point → Bool
  shiftSize : ℕ
  shiftTwice : Bool
  divisionSize : ℕ
  divisionDagSize : ℕ

/-- `Point::flt`, for a diagonal. -/
def Point.flt (f : Point → ℕ) (p q : Point) : Bool := f p < f q || f p == f q && p.k < q.k

/-- `Point::fle`, for a diagonal. -/
def Point.fle (f : Point → ℕ) (p q : Point) : Bool := f p < f q || f p == f q && p.k ≤ q.k

namespace Diversity

/-- `algo3.rs`. -/
def algo3 : Diversity where
  fcond p := p.n + 1 ≥ 2 * p.k && p.n > 0 && p.k > 0
  f p := p.n + 1 - 2 * p.k
  fromf f k := ⟨f + 2 * k - 1, k⟩
  reads limit cur p :=
    !decide (cur.n + 1 - 2 * cur.k ≥ limit)
      && (p.n + 1 ≥ 2 * p.k && p.n > 0 && p.k > 0 && p.flt (fun p => p.n + 1 - 2 * p.k) cur)
  stores limit cur := cur.n + cur.k < limit
  shiftSize := 2
  shiftTwice := true
  divisionSize := 2
  divisionDagSize := 3

/-- `algo4.rs`. -/
def algo4 : Diversity where
  fcond p := p.n ≥ p.k && p.n > 0 && p.k > 0
  f p := p.n - p.k
  fromf f k := ⟨f + k, k⟩
  reads limit cur p := p ≠ cur && p.n - p.k < limit
  stores limit cur := !decide (cur.n - cur.k ≥ limit)
  shiftSize := 1
  shiftTwice := false
  divisionSize := 3
  divisionDagSize := 4

variable (d : Diversity)

/-- `Point::frangeeq`. -/
def frangeeq (p q : Point) : Bool := d.fcond p && p.fle d.f q

/-- `Point::iter`. -/
def iter (f maxk : ℕ) : List Point := (List.range' 1 maxk).map (d.fromf f)

end Diversity

/-- `Algo` of `algo3.rs` and `algo4.rs`, without its bank. -/
structure DiversityAlgo (N : ℕ) where
  atomRules : Config
  rules : Config
  args : List (Bv N)
  dagSize : Bool
  memSizeLimit : ℕ
  vars : BitVec 64
  atomShift : Bool

/-- `Rule::is_atom`. -/
def Rule.isAtom : Rule → Bool
  | .var _ | .const _ => true
  | _ => false

/-- `Expr::is_shift`. -/
def ExprIn.isShift : Expr → Bool
  | .bin .lshr _ _ | .bin .ashr _ _ | .bin .shl _ _ => true
  | _ => false

/-- The places of a bank: a size and a set of atoms. -/
abbrev Place : Type := ℕ × BitVec 64

namespace DiversityAlgo

/-- `BitSetU64Ext::from_bits` on the atoms that are variables. -/
def fromBits (atomRules : Config) : Except Fault (BitVec 64) :=
  atomRules.zipIdx.foldlM
    (fun result p =>
      match p.1 with
      | .var _ => do
          let one ← U64.shlOne p.2
          .ok (result ||| one)
      | _ => .ok result)
    0

/-- `Algo::new`: the enumerator. -/
def new (config : Config) (args : List (Bv N)) (dagSize : Bool) (memSizeLimit : ℕ) :
    Except Fault (DiversityAlgo N) := do
  let atomRules := config.filter Rule.isAtom
  let vars ← fromBits atomRules
  .ok ⟨atomRules, config.filter fun r => !r.isAtom, args, dagSize, memSizeLimit, vars, true⟩

/-- `Algo::new`: the bank, with no row. -/
def bank (output : Bv N) : Bank Place N := ⟨[], [(output, none)]⟩

/-! ### The rules -/

/-- The elements of an iterator of `utils.rs`. -/
def elements {σ α : Type} (fuel : ℕ) (next : σ → Except Fault (Option α × σ)) (s : σ) :
    Except Fault (List α) :=
  Iteration.loop .panic (fun a l => .ok (.yield (l ++ [a]))) next fuel s []

/-- A `for` loop over the elements of an iterator. -/
def eachElement {α : Type} (l : Except Fault (List α)) (g : α → List (Item N)) : List (Item N) :=
  match l with
  | .ok l => l.flatMap g
  | .error fault => [.error fault]

section Generate

variable (env : Environ) (d : Diversity) (fuel : ℕ) (algo : DiversityAlgo N)

/-- The calls of the filter by `run_size`. -/
abbrev RunSize (N : ℕ) : Type := ℕ → BitVec 64 → List (Item N)

variable (run : RunSize N) (size : ℕ) (subset : BitVec 64)

/-- `Algo::op1`. -/
def op1 (o : UnOp) : List (Item N) :=
  eachCall (run (size - 1) subset) fun p₁ => [apply₁ env o p₁]

/-- `Algo::op1_constant`. -/
def op1Constant (o : BinOp) (c : BitVec 64) : List (Item N) :=
  eachCall (run (size - 1) subset) fun p₁ => [apply₂ env o p₁ (.const c, Bv.splat c)]

/-- `Algo::op2_atom`. -/
def op2Atom (o : BinOp) : List (Item N) :=
  if size ≤ d.shiftSize then []
  else
    eachElement (elements fuel OneIter.next subset) fun s₂ =>
    [subset &&& ~~~s₂, subset].flatMap fun s₁ =>
    eachCall (run 1 s₂) fun p₂ =>
    eachCall (run (size - d.shiftSize) s₁) fun p₁ =>
    if p₁.1.isShift && !d.shiftTwice then [] else [apply₂ env o p₁ p₂]

/-- `split_iter` of the set of atoms. -/
def splits : Except Fault (List (BitVec 64 × BitVec 64)) :=
  elements fuel (SplitIter.next fuel subset) (splitIter subset)

/-- `Algo::op2_sym`. -/
def op2Sym (o : BinOp) : List (Item N) :=
  (eachElement (splits fuel subset) fun s =>
    if s.1 > s.2 then []
    else
      (List.range' 1 (size - 1 - 1)).flatMap fun i =>
      eachCall (run (size - 1 - i) s.1) fun p₁ =>
      eachCall (run i s.2) fun p₂ => [apply₂ env o p₁ p₂])
    ++ if size > 3 && algo.dagSize then
      eachCall (run (size - 2) subset) fun p₁ =>
      walkCalls env algo.args p₁.1 (fun p₂ => [apply₂ env o p₁ p₂]) ++ [apply₂ env o p₁ p₁]
    else []

/-- `Algo::op2`. -/
def op2 (o : BinOp) : List (Item N) :=
  (eachElement (splits fuel subset) fun s =>
    (List.range' 1 (size - 1 - 1)).flatMap fun i =>
    eachCall (run (size - 1 - i) s.1) fun p₁ =>
    eachCall (run i s.2) fun p₂ => [apply₂ env o p₁ p₂])
    ++ if size > 3 && algo.dagSize then
      eachCall (run (size - 2) subset) fun p₁ =>
      walkCalls env algo.args p₁.1 (fun p₂ => [apply₂ env o p₁ p₂, apply₂ env o p₂ p₁])
        ++ [apply₂ env o p₁ p₁]
    else []

/-- `Algo::op2_nonzero`. -/
def op2Nonzero (o : BinOp) : List (Item N) :=
  (if size > d.divisionSize then
    eachElement (splits fuel subset) fun s =>
    (List.range' 1 (size - d.divisionSize - 1)).flatMap fun i =>
    eachCall (run i s.1) fun p₁ =>
    eachCall (run (size - 1 - i) s.2) fun p₂ =>
    if p₂.2.anyEq Bv.zeros then [] else [apply₂ env o p₁ p₂]
  else [])
    ++ if size > d.divisionDagSize && algo.dagSize then
      eachCall (run (size - d.divisionDagSize) subset) fun p₁ =>
      walkCalls env algo.args p₁.1
          (fun p₂ => if p₂.2.anyEq Bv.zeros then [] else [apply₂ env o p₁ p₂])
        ++ if p₁.2.anyEq Bv.zeros then [] else [apply₂ env o p₁ p₁]
    else []

/-- `generate_op!(var, ..)`. -/
def var (id : ℕ) : List (Item N) :=
  if size = 1 then
    match algo.args[id]? with
    | some v => [.ok (.var id, v)]
    | none => [.error .panic]
  else []

/-- `generate_op!(const, ..)`. -/
def const (v : BitVec 64) : List (Item N) :=
  if size = 1 then [.ok (.const v, Bv.splat v)] else []

/-- `generate_op!(chatgpt, ..)`. -/
def chatgpt (e : OwnedExpr) (v : ℕ) : List (Item N) :=
  if size = v then
    let expr : Expr := e.convert
    [(expr.evalBv env algo.args).map fun w => (expr, w)]
  else []

/-- The body of the loop over the rules. -/
def generate (rule : Rule) : List (Item N) :=
  match rule.generate with
  | .op1 o => op1 env run size subset o
  | .op1Constant o c => op1Constant env run size subset o c
  | .op2Sym o => op2Sym env fuel algo run size subset o
  | .op2 o =>
      if rule.isShift && algo.atomShift then op2Atom env d fuel run size subset o
      else op2 env fuel algo run size subset o
  | .op2Nonzero o => op2Nonzero env d fuel algo run size subset o
  | .var id => var algo size id
  | .chatgpt e v => chatgpt env algo size e v
  | .const v => const size v
  | .ite => []
  | .panic => [.error .panic]

/-- The atoms of the set. -/
def enabledAtomRules : Except Fault (List Rule) :=
  (elements fuel BitIter.next subset).map fun bits =>
    ((algo.atomRules.zip bits).filter Prod.snd).map Prod.fst

/-- The calls of `try_insert` by `run_size`. -/
def offers : List (Item N) :=
  algo.rules.flatMap (generate env d fuel algo run size subset)
    ++ eachElement (enabledAtomRules fuel algo subset) (generate env d fuel algo run size subset)

/-- `run_size` has nothing to do. -/
def skips (cur : Point) : Bool :=
  !d.frangeeq ⟨size, subset.cpop.toNat⟩ cur || size > 1 && subset &&& algo.vars == 0 || size == 0

/-- The calls of the filter by `run_size` for a place before the current point: the row that is
stored, or what `try_insert` lets pass. -/
def calls (b : Bank Place N) (cur : Point) : List (Item N) :=
  if algo.skips d size subset cur then []
  else if d.reads algo.memSizeLimit cur ⟨size, subset.cpop.toNat⟩ then
    (b.row (size, subset)).map .ok
  else b.passed (offers env d fuel algo run size subset)

/-- `run_size` at the current point, for sizes up to a bound. -/
def runSize (b : Bank Place N) (cur : Point) : ℕ → RunSize N
  | 0 => fun _ _ => []
  | bound + 1 => fun size subset =>
      calls env d fuel algo (runSize b cur bound) size subset b cur

end Generate

/-! ### The run -/

section Run

variable (env : Environ) (d : Diversity) (fuel : ℕ) (algo : DiversityAlgo N)

/-- `Algo::run_fill` at a place, whose point is the current one. -/
def enumerator : Enumerator Place N where
  offers b p :=
    let cur : Point := ⟨p.1, p.2.cpop.toNat⟩
    if algo.skips d p.1 p.2 cur then []
    else offers env d fuel algo (runSize env d fuel algo b cur p.1) p.1 p.2
  remembers _ p := !decide (d.f ⟨p.1, p.2.cpop.toNat⟩ ≥ algo.memSizeLimit)
  stores p := d.stores algo.memSizeLimit ⟨p.1, p.2.cpop.toNat⟩

/-- The places of a point: its size, with the sets of as many atoms. -/
def places (p : Point) : Except Fault (List Place) := do
  let it ← combIter (BitVec.ofNat 64 algo.atomRules.length) (BitVec.ofNat 64 p.k)
  let sets ← elements fuel CombIter.next it
  .ok (sets.map fun s => (p.n, s))

/-- The places that `Algo::run_until` visits on the first `k` diagonals. -/
def placesBelow (k : ℕ) : Except Fault (List Place) := do
  let l ← ((List.range k).flatMap fun f => d.iter f algo.atomRules.length).mapM (places fuel algo)
  .ok l.flatten

end Run

end DiversityAlgo

end DryadSynth
