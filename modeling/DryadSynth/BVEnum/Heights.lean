import DryadSynth.BVEnum.DefinedFunc
import DryadSynth.BVEnum.Permutations
import DryadSynth.General.UnitProductions

/-!
# Enumeration by height

`generate` of `BVEnum.java` builds the expressions of a grammar height by height.  The
expressions of height 1 are the terminals.  Those of a greater height are the applications of
the productions to expressions of lower heights, one of which is of the height just below: the
heights of the arguments are those that `genPermutations` lists.

After a height has been built, the storage holds exactly the expressions with a derivation tree
of each height up to it, as long as every step meets `StepOk`: `genPermutations` lists every
tuple of heights that a production needs, every operand of a production has terminals, and
building and verifying a candidate raise no exception.
-/

namespace DryadSynth

open Sygus (Grammar)
open Sygus.DnC (Rule)

/-- What an enumeration reads of the problem: the grammar and its first symbol, the expressions
of the terminals, `OpDispatcher::dispatch`, and whether the verifier finds no counterexample.
An `E` is a reference to an expression. -/
structure BVEnum (E : Type) where
  start : String
  grammar : Grammar
  getSybExpr : String → Except JavaFault E
  dispatch : String → List E → Except JavaFault E
  verify : E → Except JavaFault Bool

namespace BVEnum

variable {E : Type}

/-- How a run is left: by an exception, or by a `return`. -/
inductive Exit (E : Type) where
  | threw (fault : JavaFault)
  | returned (result : E)

/-- An exception leaves the run. -/
def lift {α : Type} (x : Except JavaFault α) : Except (Exit E) α := x.mapError .threw

/-- `storage`: type -> tree height -> possible formulae. -/
abbrev Storage (E : Type) := String → Option (ℕ → Option (List E))

/-- `permutations`: maximal height -> number of arguments -> possible permutations. -/
abbrev Permutations := ℕ → ℕ → Option (List (List ℕ))

/-- The fields that change in a run. -/
structure State (E : Type) where
  storage : Storage E
  permutations : Permutations

/-- `storage.get(nt).get(height)` -/
def Storage.find (storage : Storage E) (nt : String) (height : ℕ) : Option (List E) :=
  (storage nt).bind fun exprByHeight => exprByHeight height

/-- `storage.get(nt).put(height, exprs)` -/
def Storage.put (storage : Storage E) (nt : String) (height : ℕ) (exprs : List E) : Storage E :=
  Function.update storage nt
    ((storage nt).map fun exprByHeight => Function.update exprByHeight height (some exprs))

/-- `getPermutation`: the list, and the table with the list in it. -/
def getPermutation (permutations : Permutations) (maxH numArgs : ℕ) :
    Except JavaFault (List (List ℕ) × Permutations) :=
  match permutations maxH numArgs with
  | some computed => .ok (computed, permutations)
  | none => do
      let computed ← genPermutations maxH numArgs
      .ok (computed, Function.update permutations maxH
        (Function.update (permutations maxH) numArgs (some computed)))

/-- `storage.get(nt).get(height)` where it is used: a null is an exception. -/
def exprsOf (storage : Storage E) (nt : String) (height : ℕ) : Except JavaFault (List E) :=
  match storage.find nt height with
  | some exprs => .ok exprs
  | none => .error .nullPointer

/-- `backtrack`: the combinations of the arguments, by the heights and the symbols of the
places that are left. -/
def backtrack (storage : Storage E) : List ℕ → List String → Except JavaFault (List (List E))
  | [], _ => .ok [[]]
  | _ :: _, [] => .error .indexOutOfBounds
  | height :: heightPrmt, nt :: rule => do
      let exprs ← exprsOf storage nt height
      exprs.foldlM (fun res expr => do
        let combs ← backtrack storage heightPrmt rule
        .ok (res ++ combs.map (expr :: ·))) []

/-- `genCombinations` -/
def genCombinations (storage : Storage E) (heightPrmt : List ℕ) (rule : Rule) :
    Except JavaFault (List (List E)) :=
  backtrack storage heightPrmt rule.args

variable (b : BVEnum E)

/-- The productions with arguments, `recRules.get(nt)`. -/
def recRules (nt : String) : List Rule := (b.grammar.rules nt).filter fun r => r.args ≠ []

/-- The productions without arguments. -/
def terminals (nt : String) : List Rule := (b.grammar.rules nt).filter fun r => r.args = []

/-- The first expressions of a symbol, of height 1. -/
def exprByHeight (nt : String) : Except JavaFault (ℕ → Option (List E)) := do
  let exprs ← (b.terminals nt).mapM fun r => b.getSybExpr r.termSyb
  .ok fun height => if height = 1 ∧ exprs ≠ [] then some exprs else none

/-- `init` -/
def init : Except JavaFault (Storage E) :=
  b.grammar.keys.foldlM (fun storage nt => do
    let exprs ← b.exprByHeight nt
    .ok (Function.update storage nt (some exprs))) fun _ => none

/-- The verification of a candidate: one that is verified is returned. -/
def check (expr : E) : Except (Exit E) Unit := do
  let unsatisfiable ← lift (b.verify expr)
  if unsatisfiable then .error (.returned expr) else .ok ()

/-- The body of the innermost loop of `generate`, for the arguments of a candidate. -/
def tryCombination (nt : String) (op : String) (candidateList : List E) (argsComb : List E) :
    Except (Exit E) (List E) := do
  let candidate ← lift (b.dispatch op argsComb)
  if nt = b.start then b.check candidate
  .ok (candidateList ++ [candidate])

/-- The body of the loop over the heights of the arguments. -/
def tryPermutation (storage : Storage E) (nt : String) (rule : Rule) (candidateList : List E)
    (permutation : List ℕ) : Except (Exit E) (List E) := do
  let argsCombs ← lift (genCombinations storage permutation rule)
  argsCombs.foldlM (b.tryCombination nt rule.termSyb) candidateList

/-- The body of the loop over the productions. -/
def tryRule (storage : Storage E) (height : ℕ) (nt : String)
    (acc : List E × Permutations) (rule : Rule) : Except (Exit E) (List E × Permutations) := do
  let computed ← lift (getPermutation acc.2 (height - 1) rule.args.length)
  let candidateList ← computed.1.foldlM (b.tryPermutation storage nt rule) acc.1
  .ok (candidateList, computed.2)

/-- The body of the loop over the nonterminals. -/
def tryNonTerminal (height : ℕ) (st : State E) (nt : String) : Except (Exit E) (State E) := do
  let acc ← (b.recRules nt).foldlM (b.tryRule st.storage height nt) ([], st.permutations)
  .ok ⟨st.storage.put nt height acc.1, acc.2⟩

/-- One round of the loop of `generate`. -/
def round (height : ℕ) (st : State E) : Except (Exit E) (State E) :=
  b.grammar.keys.foldlM (b.tryNonTerminal height) st

/-- `generate`, up to where a height has been completed. -/
def generate : ℕ → Except (Exit E) (State E)
  | 0 => do
      let storage ← lift b.init
      .ok ⟨storage, fun _ _ => none⟩
  | 1 => do
      let st ← generate 0
      let exprsHeightOne ← lift (exprsOf st.storage b.start 1)
      exprsHeightOne.foldlM (fun _ expr => b.check expr) ()
      .ok st
  | height + 2 => do
      let st ← generate (height + 1)
      b.round (height + 2) st

/-! ### Derivation trees -/

/-- The expressions with a derivation tree of this height.  A symbol that is no nonterminal
stands for itself. -/
inductive Derives : String → ℕ → E → Prop
  | terminal {nt r e} (hr : r ∈ b.grammar.rules nt) (hargs : r.args = [])
      (hunit : ¬ b.grammar.IsUnit r) (he : b.getSybExpr r.termSyb = .ok e) : Derives nt 1 e
  | unit {nt r k e} (hr : r ∈ b.grammar.rules nt) (hunit : b.grammar.IsUnit r)
      (hd : Derives r.termSyb k e) : Derives nt (k + 1) e
  | leaf {s e} (hs : s ∉ b.grammar.keys) (he : b.getSybExpr s = .ok e) : Derives s 1 e
  | node {nt r k e} {hs : List ℕ} {es : List E} (hr : r ∈ b.grammar.rules nt)
      (hargs : r.args ≠ []) (hhs : hs.length = r.args.length) (hes : es.length = r.args.length)
      (hd : ∀ p ∈ r.args.zip (hs.zip es), Derives p.1 p.2.1 p.2.2) (hle : ∀ h ∈ hs, h ≤ k)
      (hmax : k ∈ hs) (he : b.dispatch r.termSyb es = .ok e) : Derives nt (k + 1) e

/-- The arguments have derivation trees of these heights. -/
def DerivesAll (args : List String) (hs : List ℕ) (es : List E) : Prop :=
  hs.length = args.length ∧ es.length = args.length ∧
    ∀ p ∈ args.zip (hs.zip es), b.Derives p.1 p.2.1 p.2.2

/-- The height is completed: the run has been left with a result, or the storage holds every
expression with a derivation tree of at most this height. -/
def Completes (height : ℕ) : Prop :=
  (∃ e, b.generate height = .error (.returned e)) ∨
    ∃ st, b.generate height = .ok st ∧
      ∀ nt ∈ b.grammar.keys, ∀ j ≤ height, ∀ e, b.Derives nt j e →
        ∃ exprs, st.storage.find nt j = some exprs ∧ e ∈ exprs

/-- A problem that `generate` can start on: the start symbol has a terminal, a terminal is no
nonterminal and has an expression, and the verifier answers on the terminals. -/
structure Initial : Prop where
  start : b.terminals b.start ≠ []
  noUnit : ∀ nt, ∀ r ∈ b.grammar.rules nt, ¬ b.grammar.IsUnit r
  sybExpr : ∀ nt, ∀ r ∈ b.terminals nt, ∃ e, b.getSybExpr r.termSyb = .ok e
  verified : ∀ e, b.Derives b.start 1 e → ∃ v, b.verify e = .ok v

/-- A height that `generate` can build from those below it: the tuples of heights that its
productions need are all listed, the operands of its productions have terminals, and the
candidates can be built and verified. -/
structure StepOk (height : ℕ) : Prop where
  covered : ∀ nt, ∀ r ∈ b.recRules nt, Covered (height - 1) r.args.length
  operands : ∀ nt, ∀ r ∈ b.recRules nt, ∀ s ∈ r.args, b.terminals s ≠ []
  dispatched : ∀ nt, ∀ r ∈ b.recRules nt, ∀ hs es, IsTuple (height - 1) r.args.length hs →
    b.DerivesAll r.args hs es → ∃ e, b.dispatch r.termSyb es = .ok e
  verified : ∀ e, b.Derives b.start height e → ∃ v, b.verify e = .ok v

end BVEnum

end DryadSynth
