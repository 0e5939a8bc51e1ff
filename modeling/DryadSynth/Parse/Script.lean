import DryadSynth.Enumerate.Width
import DryadSynth.Parse.Panics

/-!
# What a file asks for

The commands of a file as a script of `QF_BV` at the width that `synth-fun` declares: its
definitions, its constraints, and what it is for a function to satisfy them.  Beside this stands
what the front end extracts from the same commands: the input-output examples, or the body of a
definition as a reference.
-/

namespace DryadSynth

open QFBV (Value)

/-! ### Terms of one width -/

namespace SExpr

/-- The number of a literal as a value of width `w`. -/
def literalAt (w : ℕ) (s : String) : Option (BitVec w) :=
  match constant s.toList with
  | some ([], a) => if a.toNat < 2 ^ w then some (a.setWidth w) else none
  | _ => none

mutual

/-- The term of width `w` that an s-expression writes down. -/
def termAt (w : ℕ) : SExpr → Option (QFBV.Term w)
  | .id s => some (.symbol s)
  | .const s => (literalAt w s).map .literal
  | .list [] => none
  | .list (.id f :: ts) => (termsAt w ts).map (.app f)
  | .list (_ :: _) => none

/-- The terms of width `w` that a list of s-expressions writes down. -/
def termsAt (w : ℕ) : List SExpr → Option (List (QFBV.Term w))
  | [] => some []
  | s :: ss => (termAt w s).bind fun t => (termsAt w ss).map (t :: ·)

end

variable {w : ℕ}

theorem termAt_call_eq_some {f : String} {ts : List SExpr} {t : QFBV.Term w} :
  termAt w (.list (.id f :: ts)) = some t ↔ ∃ us, termsAt w ts = some us ∧ .app f us = t
  := by
  rw [termAt, Option.map_eq_some_iff]

theorem termsAt_cons_eq_some {s : SExpr} {ss : List SExpr} {us : List (QFBV.Term w)} :
  termsAt w (s :: ss) = some us
    ↔ ∃ t us', termAt w s = some t ∧ termsAt w ss = some us' ∧ t :: us' = us
  := by
  simp only [termsAt, Option.bind_eq_some_iff, Option.map_eq_some_iff]
  constructor
  · rintro ⟨t, ht, us', hus, rfl⟩
    exact ⟨t, us', ht, hus, rfl⟩
  · rintro ⟨t, us', ht, hus, rfl⟩
    exact ⟨t, ht, us', hus, rfl⟩

/-- The constraint of a command. -/
def asConstraint : SExpr → Option SExpr
  | .list [.id "constraint", v] => some v
  | _ => none

/-- A command that `RefImplConstraint::parse` reads. -/
def isDefinition : SExpr → Bool
  | .list [.id "define-fun", _, _, _, _] => true
  | _ => false

/-- The definition of a command. -/
def asDefinition (w : ℕ) : SExpr → Option (QFBV.Definition w)
  | .list [.id "define-fun", .id d, .list params, _, body] =>
      (termAt w body).map fun t => ⟨d, params.map head, t⟩
  | _ => none

end SExpr

/-- The s-expression writes down a term with this value. -/
def Denotes {w : ℕ} (U : QFBV.Interpretation w) (ρ : QFBV.Valuation w) (s : SExpr) (v : Value w) :
    Prop :=
  ∃ t, s.termAt w = some t ∧ QFBV.denote U ρ t = some v

/-! ### Files -/

/-- A file on which the readers of the front end return. -/
structure File where
  commands : List SExpr
  env : Environ
  problem : SynthProblem
  examples : PbeConstraint
  env_eq : (Environ.new 0).parse (.list commands) = .ok env
  problem_eq : SynthProblem.parse (.list commands) = .ok problem
  examples_eq :
    PbeConstraint.parse problem.name problem.args.length (.list commands) = .ok examples

namespace File

variable (file : File)

/-- The declared width. -/
abbrev width : ℕ := file.problem.bits

/-- A function of the declared width. -/
abbrev Candidate : Type := List (BitVec file.width) → BitVec file.width

/-- The `constraint` commands. -/
def constraints : List SExpr := file.commands.filterMap SExpr.asConstraint

/-- The `define-fun` commands. -/
def definitions : List (QFBV.Definition file.width) :=
  file.commands.filterMap (SExpr.asDefinition file.width)

/-- The numbers a list of values consists of. -/
def bits {w : ℕ} : List (Value w) → Option (List (BitVec w))
  | [] => some []
  | .bits y :: vs => (bits vs).map (y :: ·)
  | .bool _ :: _ => none

/-- The function symbols mean what the file defines, and the symbol to synthesize means the
candidate. -/
structure Interprets (g : file.Candidate) (U : QFBV.Interpretation file.width) : Prop where
  definitions : QFBV.Interprets U file.definitions
  name : file.problem.name ∉ QFBV.theorySymbols
  call : ∀ vs, U file.problem.name vs = (bits vs).bind fun ys =>
    if ys.length = file.problem.args.length then some (.bits (g ys)) else none

/-- The meaning of the names, from the values of the declared variables. -/
def names {w : ℕ} (U : QFBV.Interpretation w) (σ : QFBV.Valuation w) : QFBV.Valuation w :=
  fun s => (QFBV.meaning U s []).or (σ s)

/-- The constraint is a term that is true for all values of the declared variables. -/
def Holds {w : ℕ} (U : QFBV.Interpretation w) (v : SExpr) : Prop :=
  (v.termAt w).isSome ∧ ∀ σ r, Denotes U (names U σ) v r → r = .bool true

/-- The candidate satisfies every `constraint` command of the file. -/
def Satisfies (g : file.Candidate) : Prop :=
  ∀ U, file.Interprets g U → ∀ v ∈ file.constraints, Holds U v

/-- The candidate meets the examples that are extracted. -/
def MeetsExamples (g : file.Candidate) : Prop :=
  ∀ i as out, file.examples.args i = .ok as → file.examples.output[i]? = some out →
    g (as.map (BitVec.setWidth file.width)) = out.setWidth file.width

/-- The candidate is equal to the reference on all inputs. -/
def EqualTo (ref : RefImplConstraint) (g : file.Candidate) : Prop :=
  ∀ ys : List (BitVec file.width), ys.length = ref.args → ref.refImpl.value ys = some (g ys)

/-- A candidate that the extracted specification admits satisfies every constraint of the file. -/
structure DropsNothing : Prop where
  examples : 0 < file.examples.len → ∀ g, file.MeetsExamples g → file.Satisfies g
  reference : file.examples.len = 0 → ∀ ref,
    RefImplConstraint.parse (.list file.commands) = .ok (some ref) →
      ∀ g, file.EqualTo ref g → file.Satisfies g

end File

end DryadSynth
