import DryadSynth.Library.LIA.Sort
import DryadSynth.Library.Lists

/-!
# Negation, disjunctive and conjunctive normal form

Implications, equalities of formulas and conditionals are eliminated, negations are pushed to the
atoms, and then one of the connectives is distributed over the other.
-/

namespace Sygus.Invariant

open LIA Lists

/-- An expression without a connective above its atoms, except for negation. -/
def isAtom : Expr → Bool
  | .not e => isAtom e
  | .app .and _ | .app .or _ | .app .implies _ | .app .ite _ => false
  | _ => true

/-- A cast to a formula, which fails on expressions of sort `Int`. -/
def toBoolExpr (e : Expr) : Option Expr :=
  if e.sort = some .bool then some e else none

mutual

/-- Eliminate implications, equalities of formulas and conditionals. -/
def eliminateImpEq : Expr → Option Expr
  | .implies a b => do
      let a' ← eliminateImpEq a
      let b' ← eliminateImpEq b
      some (.or [.not a', b'])
  | .eq a b =>
      -- equality between arithmetic expressions is preserved
      if a.sort = some .bool ∧ b.sort = some .bool then do
        let e₁ ← eliminateImpEq a
        let e₂ ← eliminateImpEq b
        some (.or [.and [e₁, e₂], .and [.not e₁, .not e₂]])
      else some (.eq a b)
  | .ite c a b => do
      let e₁ ← eliminateImpEq c
      let e₂ ← (← eliminateImpEq a) |> toBoolExpr
      let e₃ ← (← eliminateImpEq b) |> toBoolExpr
      some (.or [.and [.not e₁, e₃], .and [e₁, e₂]])
  | .not a => (eliminateImpEq a).map .not
  | .and l => (eliminateImpEqAll l).map .and
  | .or l => (eliminateImpEqAll l).map .or
  | e => if isAtom e then some e else none

def eliminateImpEqAll : List Expr → Option (List Expr)
  | [] => some []
  | e :: l => do
      let e' ← eliminateImpEq e
      let l' ← eliminateImpEqAll l
      some (e' :: l')

end

/-- The negation of an expression, or the expression itself. -/
def negateIf (neg : Bool) (e : Expr) : Expr :=
  if neg then .not e else e

mutual

/-- Push the negations in an expression, or in its negation, to the atoms. -/
def pushNeg (neg : Bool) : Expr → Option Expr
  | .not e => pushNeg (!neg) e
  | .and l => (pushNegAll neg l).map (if neg then .or else .and)
  | .or l => (pushNegAll neg l).map (if neg then .and else .or)
  | .ite c a b => do
      let c' ← pushNeg false c
      let a' ← pushNeg false a
      let b' ← pushNeg false b
      some (negateIf neg (.ite c' a' b'))
  | e => if isAtom e then some (negateIf neg e) else none

def pushNegAll (neg : Bool) : List Expr → Option (List Expr)
  | [] => some []
  | e :: l => do
      let e' ← pushNeg neg e
      let l' ← pushNegAll neg l
      some (e' :: l')

end

/-- Push negations in, with De Morgan's laws. -/
def pushNegIn (e : Expr) : Option Expr := pushNeg false e

def convertToNNF (e : Expr) : Option Expr := (eliminateImpEq e).bind pushNegIn

/-! ### Distribution of a connective -/

/-- The expression is an application of the operator. -/
def isApp (o : Op) : Expr → Bool
  | .app o' _ => o = o'
  | _ => false

mutual

/-- The arguments that are connected by an operator. -/
def getArgsList (o : Op) : Expr → List Expr
  | .app o' args => if o = o' then getArgsLists o args else [.app o' args]
  | e => [e]

def getArgsLists (o : Op) : List Expr → List Expr
  | [] => []
  | e :: l => getArgsList o e ++ getArgsLists o l

end

def getArgsListForOr (e : Expr) : List Expr := getArgsList .or e

def getArgsListForAnd (e : Expr) : List Expr := getArgsList .and e

/-- Connect a formula to the result by `outer`, which is `unit` in the first iteration. -/
def connect (outer : Op) (unit ret e : Expr) : Expr :=
  if ret = unit then e else .app outer [ret, e]

/-- Distribute the connective `inner` over `outer`: the two expressions are connected by `inner`,
together with the remainder, if there is one.  The first expression is `unit` in the first
iteration. -/
def distribute (outer inner : Op) (unit e₁ e₂ : Expr) (rest : Option Expr) : Expr :=
  let args₁ := getArgsList outer e₁
  let args₂ := getArgsList outer e₂
  if e₁ = unit then
    .app outer (args₂.map fun e =>
      match rest with
      | none => e
      | some r => .app inner [e, r])
  else
    (args₁.product args₂).foldl
      (fun ret p => connect outer unit ret (.app inner (p.1 :: p.2 :: rest.toList)))
      unit

def distributeAnd (or1 or2 : Expr) (and : Option Expr) : Expr :=
  distribute .or .and .fls or1 or2 and

def distributeOr (and1 and2 : Expr) (or : Option Expr) : Expr :=
  distribute .and .or .tru and1 and2 or

/-- The expressions without the connective `outer`, combined. -/
def combineOthers (inner : Op) : List Expr → Option Expr
  | [] => none
  | [e] => some e
  | l => some (.app inner l)

/-- Distribute `inner` over all the arguments. -/
def distributeAll (outer inner : Op) (unit : Expr) (args : List Expr) : Option Expr :=
  let outerList := args.filter (isApp outer)
  let rest := combineOthers inner (args.filter fun e => !isApp outer e)
  if outerList = [] then rest
  else some (outerList.foldl (fun result e => distribute outer inner unit result e rest) unit)

mutual

/-- Convert a negation normal form so that `outer` stands above `inner`. -/
def convertNNF (outer inner : Op) (unit : Expr) : Expr → Option Expr
  | .app o args =>
      if isAtom (.app o args) then some (.app o args)
      else if o = outer then (convertNNFAll outer inner unit args).map (.app outer)
      else if o = inner then
        (convertNNFAll outer inner unit args).bind (distributeAll outer inner unit)
      else none
  | e => some e

def convertNNFAll (outer inner : Op) (unit : Expr) : List Expr → Option (List Expr)
  | [] => some []
  | e :: l => do
      let e' ← convertNNF outer inner unit e
      let l' ← convertNNFAll outer inner unit l
      some (e' :: l')

end

def convertNNFToDNF : Expr → Option Expr := convertNNF .or .and .fls

def convertNNFToCNF : Expr → Option Expr := convertNNF .and .or .tru

def convertToDNF (e : Expr) : Option Expr := (convertToNNF e).bind convertNNFToDNF

def convertToCNF (e : Expr) : Option Expr := (convertToNNF e).bind convertNNFToCNF

/-! ### Formulas and their normal forms -/

/-- No connective stands at the top of the expression, and no equality of formulas. -/
def isLeaf : Expr → Bool
  | .app .not _ | .app .and _ | .app .or _ | .app .implies _ | .app .ite _ => false
  | .app .eq args => args.map Expr.sort ≠ [some .bool, some .bool]
  | _ => true

/-- An arithmetic comparison, a constant, a variable or an application, of sort `Bool`. -/
structure Atom (e : Expr) : Prop where
  sort : e.sort = some .bool
  leaf : isLeaf e = true

/-- The formulas: conjunctions and disjunctions are not empty. -/
inductive Formula : Expr → Prop where
  | atom {e : Expr} : Atom e → Formula e
  | not {a : Expr} : Formula a → Formula (.not a)
  | and {l : List Expr} : l ≠ [] → (∀ e ∈ l, Formula e) → Formula (.and l)
  | or {l : List Expr} : l ≠ [] → (∀ e ∈ l, Formula e) → Formula (.or l)
  | implies {a b : Expr} : Formula a → Formula b → Formula (.implies a b)
  | iff {a b : Expr} : Formula a → Formula b → Formula (.eq a b)
  | ite {c a b : Expr} : Formula c → Formula a → Formula b → Formula (.ite c a b)

/-- The formulas without implications, equalities of formulas and conditionals. -/
inductive Basic : Expr → Prop where
  | atom {e : Expr} : Atom e → Basic e
  | not {a : Expr} : Basic a → Basic (.not a)
  | and {l : List Expr} : l ≠ [] → (∀ e ∈ l, Basic e) → Basic (.and l)
  | or {l : List Expr} : l ≠ [] → (∀ e ∈ l, Basic e) → Basic (.or l)

/-- An atom or the negation of an atom. -/
inductive Literal : Expr → Prop where
  | pos {e : Expr} : Atom e → Literal e
  | neg {e : Expr} : Atom e → Literal (.not e)

/-- The formulas whose negations stand at atoms. -/
inductive NNF : Expr → Prop where
  | literal {e : Expr} : Literal e → NNF e
  | and {l : List Expr} : l ≠ [] → (∀ e ∈ l, NNF e) → NNF (.and l)
  | or {l : List Expr} : l ≠ [] → (∀ e ∈ l, NNF e) → NNF (.or l)

/-- Flattening the connective `inner` leaves only literals. -/
def Clause (inner : Op) (e : Expr) : Prop :=
  ∀ q ∈ getArgsList inner e, Literal q

/-- Flattening `outer` and then `inner` leaves only literals. -/
def Normal (outer inner : Op) (e : Expr) : Prop :=
  ∀ p ∈ getArgsList outer e, Clause inner p

/-! ### Elimination of implications, equalities and conditionals -/

theorem Atom.isAtom {e : Expr} (h : Atom e) :
  isAtom e = true
  := by
  have hleaf := h.leaf
  revert hleaf
  unfold isLeaf Invariant.isAtom
  split <;> simp_all

theorem eliminateImpEqAll_eq (l : List Expr) :
  eliminateImpEqAll l = l.mapM eliminateImpEq
  := by
  induction l with
  | nil => rfl
  | cons e l ih =>
      rw [eliminateImpEqAll, ih, List.mapM_cons]
      rfl

theorem eliminateImpEq_atom {e : Expr} (h : Atom e) :
  eliminateImpEq e = some e
  := by
  have hleaf := h.leaf
  have hatom := h.isAtom
  unfold eliminateImpEq
  split
  · cases hleaf
  · next a b =>
      apply if_neg
      rintro ⟨ha, hb⟩
      simp [isLeaf, ha, hb] at hleaf
  · cases hleaf
  · cases hleaf
  · cases hleaf
  · cases hleaf
  · apply if_pos hatom

theorem Formula.sort {e : Expr} (h : Formula e) :
  e.sort = some .bool
  := by
  induction h with
  | atom h => exact h.sort
  | not _ ih => simp [ih]
  | and _ _ ih => exact sort_and.mpr ⟨rfl, ih⟩
  | or _ _ ih => exact sort_or.mpr ⟨rfl, ih⟩
  | implies _ _ iha ihb => simp [iha, ihb]
  | iff _ _ iha ihb => simp [iha, ihb]
  | ite _ _ _ ihc iha ihb => simp [ihc, iha, ihb]

theorem Basic.sort {e : Expr} (h : Basic e) :
  e.sort = some .bool
  := by
  induction h with
  | atom h => exact h.sort
  | not _ ih => simp [ih]
  | and _ _ ih => exact sort_and.mpr ⟨rfl, ih⟩
  | or _ _ ih => exact sort_or.mpr ⟨rfl, ih⟩

/-- The first formula has the meaning of the second one. -/
def Equivalent (e' e : Expr) : Prop := ∀ M, e'.Holds M ↔ e.Holds M

theorem toBoolExpr_of_sort {e : Expr} (h : e.sort = some .bool) :
  toBoolExpr e = some e
  := if_pos h

/-- The elimination is defined on formulas, and keeps their meaning. -/
theorem eliminateImpEq_spec {e : Expr} (h : Formula e) :
  ∃ e', eliminateImpEq e = some e' ∧ Basic e' ∧ Equivalent e' e
  := by
  induction h with
  | @atom e h => exact ⟨e, eliminateImpEq_atom h, .atom h, fun M => Iff.rfl⟩
  | @not a _ ih =>
      obtain ⟨a', ha, hbasic, heq⟩ := ih
      use .not a'
      constructor
      · rw [eliminateImpEq, ha]
        rfl
      · exact ⟨.not hbasic, fun M => by rw [holds_not, holds_not, heq M]⟩
  | @and l hl _ ih =>
      obtain ⟨l', hl', hall⟩ := exists_mapM ih
      use .and l'
      constructor
      · rw [eliminateImpEq, eliminateImpEqAll_eq, hl']
        rfl
      · constructor
        · exact .and (ne_nil_of_forall₂ hall hl) (forall_of_forall₂ hall fun _ _ h => h.1)
        · intro M
          rw [holds_and, holds_and]
          exact forall_iff_of_forall₂ hall fun _ _ h => h.2 M
  | @or l hl _ ih =>
      obtain ⟨l', hl', hall⟩ := exists_mapM ih
      use .or l'
      constructor
      · rw [eliminateImpEq, eliminateImpEqAll_eq, hl']
        rfl
      · constructor
        · exact .or (ne_nil_of_forall₂ hall hl) (forall_of_forall₂ hall fun _ _ h => h.1)
        · intro M
          rw [holds_or, holds_or]
          exact exists_iff_of_forall₂ hall fun _ _ h => h.2 M
  | @implies a b _ _ iha ihb =>
      obtain ⟨a', ha, hbasic, heqa⟩ := iha
      obtain ⟨b', hb, hbasicb, heqb⟩ := ihb
      use .or [.not a', b']
      constructor
      · rw [eliminateImpEq, ha, hb]
        rfl
      · constructor
        · exact .or (by simp) (by simp [Basic.not hbasic, hbasicb])
        · intro M
          rw [holds_or_pair, holds_not, holds_implies, heqa M, heqb M, imp_iff_not_or]
  | @iff a b hfa hfb iha ihb =>
      obtain ⟨a', ha, hbasic, heqa⟩ := iha
      obtain ⟨b', hb, hbasicb, heqb⟩ := ihb
      use .or [.and [a', b'], .and [.not a', .not b']]
      constructor
      · rw [eliminateImpEq, if_pos ⟨hfa.sort, hfb.sort⟩, ha, hb]
        rfl
      · constructor
        · have hpos : Basic (.and [a', b']) := .and (by simp) (by simp [hbasic, hbasicb])
          have hneg : Basic (.and [.not a', .not b']) :=
            .and (by simp) (by simp [Basic.not hbasic, Basic.not hbasicb])
          exact .or (by simp) (by simp [hpos, hneg])
        · intro M
          rw [holds_or_pair, holds_and_pair, holds_and_pair, holds_not, holds_not,
            holds_eq_of_bool hfa.sort hfb.sort, heqa M, heqb M, ← iff_iff_and_or_not_and_not]
  | @ite c a b _ _ _ ihc iha ihb =>
      obtain ⟨c', hc, hbasicc, heqc⟩ := ihc
      obtain ⟨a', ha, hbasic, heqa⟩ := iha
      obtain ⟨b', hb, hbasicb, heqb⟩ := ihb
      use .or [.and [.not c', b'], .and [c', a']]
      constructor
      · simp [eliminateImpEq, hc, ha, hb, toBoolExpr_of_sort, hbasic.sort, hbasicb.sort]
      · constructor
        · have hneg : Basic (.and [.not c', b']) :=
            .and (by simp) (by simp [Basic.not hbasicc, hbasicb])
          have hpos : Basic (.and [c', a']) := .and (by simp) (by simp [hbasicc, hbasic])
          exact .or (by simp) (by simp [hneg, hpos])
        · intro M
          rw [holds_or_pair, holds_and_pair, holds_and_pair, holds_not, holds_ite, heqa M, heqb M,
            heqc M]
          by_cases hM : c.Holds M
          · simp [hM]
          · simp [hM]

/-! ### Negation normal form -/

section PushNeg

variable {neg : Bool} {e e' : Expr}

theorem pushNegAll_eq (neg : Bool) (l : List Expr) :
  pushNegAll neg l = l.mapM (pushNeg neg)
  := by
  induction l with
  | nil => rfl
  | cons e l ih =>
      rw [pushNegAll, ih, List.mapM_cons]
      rfl

/-- The formula has the meaning of the other one, or of its negation. -/
def Negated (neg : Bool) (e' e : Expr) : Prop :=
  ∀ M, e'.Holds M ↔ (negateIf neg e).Holds M

theorem negateIf_true (e : Expr) :
  negateIf true e = .not e
  := rfl

theorem negateIf_false (e : Expr) :
  negateIf false e = e
  := rfl

theorem literal_negateIf (neg : Bool) (h : Atom e) :
  Literal (negateIf neg e)
  := by
  cases neg with
  | true => exact .neg h
  | false => exact .pos h

theorem pushNeg_atom (neg : Bool) (h : Atom e) :
  pushNeg neg e = some (negateIf neg e)
  := by
  have hleaf := h.leaf
  have hatom := h.isAtom
  unfold pushNeg
  split
  · cases hleaf
  · cases hleaf
  · cases hleaf
  · cases hleaf
  · apply if_pos hatom

/-- Negations are pushed to the atoms, and the meaning is kept. -/
theorem pushNeg_spec (h : Basic e) (neg : Bool) :
  ∃ e', pushNeg neg e = some e' ∧ NNF e' ∧ Negated neg e' e
  := by
  induction h generalizing neg with
  | @atom e h =>
      use negateIf neg e, pushNeg_atom neg h
      exact ⟨.literal (literal_negateIf neg h), fun M => Iff.rfl⟩
  | @not a _ ih =>
      obtain ⟨a', ha, hnnf, hneg⟩ := ih (!neg)
      use a'
      refine ⟨by rw [pushNeg, ha], hnnf, fun M => ?_⟩
      rw [hneg M]
      cases neg with
      | true => simp [negateIf]
      | false => simp [negateIf]
  | @and l hl _ ih =>
      obtain ⟨l', hl', hall⟩ := exists_mapM fun e he => ih e he neg
      have hne := ne_nil_of_forall₂ hall hl
      have hnnf := forall_of_forall₂ hall fun _ _ h => h.1
      cases neg with
      | true =>
          use .or l'
          refine ⟨by rw [pushNeg, pushNegAll_eq, hl']; rfl, .or hne hnnf, fun M => ?_⟩
          rw [holds_or, negateIf_true, holds_not, holds_and,
            exists_iff_of_forall₂ hall fun _ _ h => h.2 M]
          simp [negateIf]
      | false =>
          use .and l'
          refine ⟨by rw [pushNeg, pushNegAll_eq, hl']; rfl, .and hne hnnf, fun M => ?_⟩
          rw [holds_and, negateIf_false, holds_and,
            forall_iff_of_forall₂ hall fun _ _ h => h.2 M]
          rfl
  | @or l hl _ ih =>
      obtain ⟨l', hl', hall⟩ := exists_mapM fun e he => ih e he neg
      have hne := ne_nil_of_forall₂ hall hl
      have hnnf := forall_of_forall₂ hall fun _ _ h => h.1
      cases neg with
      | true =>
          use .and l'
          refine ⟨by rw [pushNeg, pushNegAll_eq, hl']; rfl, .and hne hnnf, fun M => ?_⟩
          rw [holds_and, negateIf_true, holds_not, holds_or,
            forall_iff_of_forall₂ hall fun _ _ h => h.2 M]
          simp [negateIf]
      | false =>
          use .or l'
          refine ⟨by rw [pushNeg, pushNegAll_eq, hl']; rfl, .or hne hnnf, fun M => ?_⟩
          rw [holds_or, negateIf_false, holds_or,
            exists_iff_of_forall₂ hall fun _ _ h => h.2 M]
          rfl

/-- The negation normal form exists, and has the meaning of the formula. -/
theorem convertToNNF_spec (h : Formula e) :
  ∃ e', convertToNNF e = some e' ∧ NNF e' ∧ Equivalent e' e
  := by
  obtain ⟨e₁, he₁, hbasic, heq₁⟩ := eliminateImpEq_spec h
  obtain ⟨e₂, he₂, hnnf, heq₂⟩ := pushNeg_spec hbasic false
  use e₂
  refine ⟨?_, hnnf, fun M => (heq₂ M).trans (heq₁ M)⟩
  rw [convertToNNF, he₁]
  apply he₂

end PushNeg

/-! ### Distribution -/

/-- The two connectives are a disjunction and a conjunction, in one order or the other. -/
inductive Connectives : Op → Op → Expr → Prop where
  | dnf : Connectives .or .and .fls
  | cnf : Connectives .and .or .tru

/-- A property for which one connective is a disjunction, and the other one a conjunction. -/
structure Dual (outer inner : Op) (Q : Expr → Prop) : Prop where
  outer : ∀ l, Q (.app outer l) ↔ ∃ e ∈ l, Q e
  inner : ∀ l, Q (.app inner l) ↔ ∀ e ∈ l, Q e

/-- The first formula has a dual property where the second one has. -/
def Agree (outer inner : Op) (e' e : Expr) : Prop :=
  ∀ Q, Dual outer inner Q → (Q e' ↔ Q e)

theorem dual_holds (M : Model) :
  Dual .or .and (Expr.Holds M)
  := ⟨fun _ => holds_or _, fun _ => holds_and _⟩

theorem dual_not_holds (M : Model) :
  Dual .and .or fun e => ¬ e.Holds M
  := by
  constructor
  · intro l
    rw [holds_and]
    push Not
    rfl
  · intro l
    rw [holds_or]
    push Not
    rfl

section Flatten

variable {o outer inner : Op} {unit e p : Expr} {l : List Expr} {Q : Expr → Prop}

theorem getArgsLists_eq (o : Op) (l : List Expr) :
  getArgsLists o l = l.flatMap (getArgsList o)
  := by
  induction l with
  | nil => rfl
  | cons e l ih => rw [getArgsLists, ih, List.flatMap_cons]

theorem getArgsList_self (o : Op) (l : List Expr) :
  getArgsList o (.app o l) = l.flatMap (getArgsList o)
  := by rw [getArgsList, if_pos rfl, getArgsLists_eq]

theorem getArgsList_of_not_isApp (h : isApp o e = false) :
  getArgsList o e = [e]
  := by
  cases e with
  | num n => rfl
  | var x => rfl
  | app o' args => exact if_neg (of_decide_eq_false h)

theorem isApp_of_ne {o' : Op} (h : o ≠ o') :
  isApp o (.app o' l) = false
  := decide_eq_false h

/-- An expression that is an application of the operator, or another one. -/
theorem isApp_cases (o : Op) (e : Expr) :
  (∃ l, e = .app o l) ∨ isApp o e = false
  := by
  cases e with
  | num n => exact Or.inr rfl
  | var x => exact Or.inr rfl
  | app o' args =>
      by_cases ho : o = o'
      · apply Or.inl ⟨args, by rw [ho]⟩
      · apply Or.inr (isApp_of_ne ho)

/-- The flattened arguments are not applications of the operator. -/
theorem isApp_of_mem_getArgsList (h : p ∈ getArgsList o e) :
  isApp o p = false
  := by
  induction e with
  | num n =>
      rw [List.mem_singleton.mp h]
      rfl
  | var x =>
      rw [List.mem_singleton.mp h]
      rfl
  | app o' args ih =>
      by_cases ho : o = o'
      · rw [← ho, getArgsList_self] at h
        obtain ⟨e, he, hp⟩ := List.mem_flatMap.mp h
        apply ih e he hp
      · have happ : isApp o (.app o' args) = false := isApp_of_ne ho
        rw [getArgsList_of_not_isApp happ] at h
        rw [List.mem_singleton.mp h, happ]

/-- Flattening keeps the disjunction. -/
theorem exists_getArgsList (hQ : Dual outer inner Q) (e : Expr) :
  (∃ p ∈ getArgsList outer e, Q p) ↔ Q e
  := by
  induction e with
  | num n => simp [getArgsList]
  | var x => simp [getArgsList]
  | app o args ih =>
      by_cases ho : outer = o
      · rw [← ho, getArgsList_self, hQ.outer]
        constructor
        · rintro ⟨p, hp, hQp⟩
          obtain ⟨e, he, hpe⟩ := List.mem_flatMap.mp hp
          exact ⟨e, he, (ih e he).mp ⟨p, hpe, hQp⟩⟩
        · rintro ⟨e, he, hQe⟩
          obtain ⟨p, hp, hQp⟩ := (ih e he).mpr hQe
          exact ⟨p, List.mem_flatMap.mpr ⟨e, he, hp⟩, hQp⟩
      · rw [getArgsList_of_not_isApp (isApp_of_ne ho)]
        simp

end Flatten

section NNF

variable {outer inner o : Op} {unit e p : Expr} {l : List Expr}

theorem Literal.sort (h : Literal e) :
  e.sort = some .bool
  := by
  cases h with
  | pos h => exact h.sort
  | neg h => simp [h.sort]

theorem NNF.sort (h : NNF e) :
  e.sort = some .bool
  := by
  induction h with
  | literal h => exact h.sort
  | and _ _ ih => exact sort_and.mpr ⟨rfl, ih⟩
  | or _ _ ih => exact sort_or.mpr ⟨rfl, ih⟩

theorem Literal.isAtom (h : Literal e) :
  isAtom e = true
  := by
  cases h with
  | pos h => exact h.isAtom
  | neg h => exact h.isAtom

theorem Connectives.isAtom_outer (h : Connectives outer inner unit) (l : List Expr) :
  isAtom (.app outer l) = false
  := by
  cases h with
  | dnf => rfl
  | cnf => rfl

theorem Connectives.isAtom_inner (h : Connectives outer inner unit) (l : List Expr) :
  isAtom (.app inner l) = false
  := by
  cases h with
  | dnf => rfl
  | cnf => rfl

theorem Connectives.ne (h : Connectives outer inner unit) :
  outer ≠ inner
  := by
  cases h with
  | dnf => exact nofun
  | cnf => exact nofun

theorem Connectives.outer_ne_unit (h : Connectives outer inner unit) (l : List Expr) :
  Expr.app outer l ≠ unit
  := by
  cases h with
  | dnf => exact nofun
  | cnf => exact nofun

theorem Connectives.inner_ne_unit (h : Connectives outer inner unit) (l : List Expr) :
  Expr.app inner l ≠ unit
  := by
  cases h with
  | dnf => exact nofun
  | cnf => exact nofun

theorem Connectives.nnf_outer (h : Connectives outer inner unit) (hl : l ≠ [])
    (hall : ∀ e ∈ l, NNF e) :
  NNF (.app outer l)
  := by
  cases h with
  | dnf => exact .or hl hall
  | cnf => exact .and hl hall

theorem Connectives.nnf_inner (h : Connectives outer inner unit) (hl : l ≠ [])
    (hall : ∀ e ∈ l, NNF e) :
  NNF (.app inner l)
  := by
  cases h with
  | dnf => exact .and hl hall
  | cnf => exact .or hl hall

/-- A negation normal form is a literal or an application of one of the connectives. -/
theorem Connectives.cases (h : Connectives outer inner unit) {P : Expr → Prop}
    (literal : ∀ e, Literal e → P e)
    (outer' : ∀ l, l ≠ [] → (∀ e ∈ l, NNF e) → (∀ e ∈ l, P e) → P (.app outer l))
    (inner' : ∀ l, l ≠ [] → (∀ e ∈ l, NNF e) → (∀ e ∈ l, P e) → P (.app inner l))
    {e : Expr} (he : NNF e) :
  P e
  := by
  induction he with
  | literal he => exact literal _ he
  | and hl hall ih =>
      cases h with
      | dnf => exact inner' _ hl hall ih
      | cnf => exact outer' _ hl hall ih
  | or hl hall ih =>
      cases h with
      | dnf => exact outer' _ hl hall ih
      | cnf => exact inner' _ hl hall ih

theorem Literal.isApp (h : Connectives outer inner unit) (he : Literal e) :
  isApp outer e = false ∧ isApp inner e = false
  := by
  have hatom := he.isAtom
  constructor
  · rcases isApp_cases outer e with ⟨l, rfl⟩ | happ
    · rw [h.isAtom_outer] at hatom
      cases hatom
    · apply happ
  · rcases isApp_cases inner e with ⟨l, rfl⟩ | happ
    · rw [h.isAtom_inner] at hatom
      cases hatom
    · apply happ

/-- A flattened negation normal form is not empty, and consists of such forms. -/
theorem NNF.getArgsList (he : NNF e) (h : Connectives outer inner unit) :
  getArgsList outer e ≠ [] ∧ ∀ p ∈ getArgsList outer e, NNF p
  := by
  apply h.cases ?_ ?_ ?_ he
  · intro e he
    rw [getArgsList_of_not_isApp (he.isApp h).1]
    simp [NNF.literal he]
  · intro l hl _ ih
    rw [getArgsList_self]
    constructor
    · obtain ⟨e, l, rfl⟩ := List.exists_cons_of_ne_nil hl
      obtain ⟨p, hp⟩ := List.exists_mem_of_ne_nil _ (ih e List.mem_cons_self).1
      apply List.ne_nil_of_mem (List.mem_flatMap.mpr ⟨e, List.mem_cons_self, hp⟩)
    · intro p hp
      obtain ⟨e, he, hpe⟩ := List.mem_flatMap.mp hp
      apply (ih e he).2 p hpe
  · intro l hl hall _
    rw [getArgsList_of_not_isApp (isApp_of_ne h.ne)]
    simp [h.nnf_inner hl hall]

end NNF

/-- A negation normal form that is normal for the two connectives. -/
structure Good (outer inner : Op) (e : Expr) : Prop where
  nnf : NNF e
  normal : Normal outer inner e

/-- A remainder: a formula that flattens to literals, if there is one. -/
structure Remainder (inner : Op) (rest : Option Expr) : Prop where
  nnf : ∀ r ∈ rest, NNF r
  clause : ∀ r ∈ rest, Clause inner r

section Distribute

variable {outer inner : Op} {unit e e₁ e₂ ret : Expr} {rest : Option Expr} {l : List Expr}
variable {Q : Expr → Prop}

theorem clause_inner (h : ∀ e ∈ l, Clause inner e) :
  Clause inner (.app inner l)
  := by
  intro q hq
  rw [getArgsList_self] at hq
  obtain ⟨e, he, hqe⟩ := List.mem_flatMap.mp hq
  apply h e he q hqe

theorem normal_of_clause (happ : isApp outer e = false) (h : Clause inner e) :
  Normal outer inner e
  := by
  intro p hp
  rw [getArgsList_of_not_isApp happ] at hp
  rw [List.mem_singleton.mp hp]
  apply h

theorem clause_of_normal (happ : isApp outer e = false) (h : Normal outer inner e) :
  Clause inner e
  := by
  apply h
  rw [getArgsList_of_not_isApp happ]
  apply List.mem_singleton_self e

theorem Connectives.good_outer (h : Connectives outer inner unit) (hl : l ≠ [])
    (hall : ∀ e ∈ l, Good outer inner e) :
  Good outer inner (.app outer l)
  := by
  constructor
  · exact h.nnf_outer hl fun e he => (hall e he).nnf
  · intro p hp
    rw [getArgsList_self] at hp
    obtain ⟨e, he, hpe⟩ := List.mem_flatMap.mp hp
    apply (hall e he).normal p hpe

theorem Connectives.good_inner (h : Connectives outer inner unit) (hl : l ≠ [])
    (hnnf : ∀ e ∈ l, NNF e) (hclause : ∀ e ∈ l, Clause inner e) :
  Good outer inner (.app inner l)
  := by
  constructor
  · apply h.nnf_inner hl hnnf
  · apply normal_of_clause (isApp_of_ne h.ne) (clause_inner hclause)

/-- The flattened arguments of a normal form are negation normal forms and clauses. -/
theorem Good.of_mem (h : Connectives outer inner unit) (hgood : Good outer inner e) {p : Expr}
    (hp : p ∈ getArgsList outer e) :
  NNF p ∧ Clause inner p ∧ isApp outer p = false
  := ⟨(hgood.nnf.getArgsList h).2 p hp, hgood.normal p hp, isApp_of_mem_getArgsList hp⟩

/-- Connecting formulas to a result that has been started. -/
theorem foldl_connect (h : Connectives outer inner unit)
    (hret : Good outer inner ret) (hne : ret ≠ unit)
    (hall : ∀ e ∈ l, Good outer inner e) :
  Good outer inner (l.foldl (connect outer unit) ret) ∧
    l.foldl (connect outer unit) ret ≠ unit ∧
    ∀ Q, Dual outer inner Q → (Q (l.foldl (connect outer unit) ret) ↔ Q ret ∨ ∃ e ∈ l, Q e)
  := by
  induction l generalizing ret with
  | nil => exact ⟨hret, hne, fun Q _ => by simp⟩
  | cons e l ih =>
      have hconnect : connect outer unit ret e = .app outer [ret, e] := if_neg hne
      have hgood : Good outer inner (.app outer [ret, e]) := by
        apply h.good_outer (by simp)
        simp [hret, hall e List.mem_cons_self]
      obtain ⟨hg, hu, hQ⟩ := ih hgood (h.outer_ne_unit _)
        fun e' he' => hall e' (List.mem_cons_of_mem _ he')
      rw [List.foldl_cons, hconnect]
      refine ⟨hg, hu, fun Q hdual => ?_⟩
      rw [hQ Q hdual, hdual.outer]
      simp [or_assoc]

/-- Connecting formulas, when the result has not been started. -/
theorem foldl_connect_unit (h : Connectives outer inner unit) (hl : l ≠ [])
    (hne : ∀ e ∈ l, e ≠ unit) (hall : ∀ e ∈ l, Good outer inner e) :
  Good outer inner (l.foldl (connect outer unit) unit) ∧
    l.foldl (connect outer unit) unit ≠ unit ∧
    ∀ Q, Dual outer inner Q → (Q (l.foldl (connect outer unit) unit) ↔ ∃ e ∈ l, Q e)
  := by
  obtain ⟨e, l, rfl⟩ := List.exists_cons_of_ne_nil hl
  have hconnect : connect outer unit unit e = e := if_pos rfl
  obtain ⟨hg, hu, hQ⟩ := foldl_connect h (hall e List.mem_cons_self) (hne e List.mem_cons_self)
    fun e' he' => hall e' (List.mem_cons_of_mem _ he')
  rw [List.foldl_cons, hconnect]
  refine ⟨hg, hu, fun Q hdual => ?_⟩
  rw [hQ Q hdual]
  simp

/-- The first iteration: the remainder is joined to every argument. -/
theorem distribute_unit (h : Connectives outer inner unit) (he : Good outer inner e)
    (hrest : Remainder inner rest) :
  Good outer inner (distribute outer inner unit unit e rest) ∧
    distribute outer inner unit unit e rest ≠ unit ∧
    ∀ Q, Dual outer inner Q →
      (Q (distribute outer inner unit unit e rest) ↔ Q e ∧ ∀ r ∈ rest, Q r)
  := by
  have hne := (he.nnf.getArgsList h).1
  cases rest with
  | none =>
      have heq : distribute outer inner unit unit e none
          = .app outer (getArgsList outer e) := by simp [distribute]
      rw [heq]
      refine ⟨?_, h.outer_ne_unit _, fun Q hdual => ?_⟩
      · apply h.good_outer hne
        intro p hp
        obtain ⟨hnnf, hclause, happ⟩ := he.of_mem h hp
        exact ⟨hnnf, normal_of_clause happ hclause⟩
      · rw [hdual.outer, exists_getArgsList hdual]
        simp
  | some r =>
      have heq : distribute outer inner unit unit e (some r)
          = .app outer ((getArgsList outer e).map fun p => .app inner [p, r]) := by
        simp [distribute]
      rw [heq]
      refine ⟨?_, h.outer_ne_unit _, fun Q hdual => ?_⟩
      · apply h.good_outer (by simpa using hne)
        intro x hx
        obtain ⟨p, hp, rfl⟩ := List.mem_map.mp hx
        obtain ⟨hnnf, hclause, -⟩ := he.of_mem h hp
        apply h.good_inner (by simp)
        · simp [hnnf, hrest.nnf r rfl]
        · simp [hclause, hrest.clause r rfl]
      · rw [hdual.outer, ← exists_getArgsList hdual e]
        simp [hdual.inner, ← exists_and_right, and_assoc]

/-- The later iterations: the arguments of the two formulas are joined in pairs. -/
theorem distribute_spec (h : Connectives outer inner unit) (h₁ : Good outer inner e₁)
    (hne : e₁ ≠ unit) (h₂ : Good outer inner e₂) (hrest : Remainder inner rest) :
  Good outer inner (distribute outer inner unit e₁ e₂ rest) ∧
    distribute outer inner unit e₁ e₂ rest ≠ unit ∧
    ∀ Q, Dual outer inner Q →
      (Q (distribute outer inner unit e₁ e₂ rest) ↔ Q e₁ ∧ Q e₂ ∧ ∀ r ∈ rest, Q r)
  := by
  have hne₁ := (h₁.nnf.getArgsList h).1
  have hne₂ := (h₂.nnf.getArgsList h).1
  set joined := ((getArgsList outer e₁).product (getArgsList outer e₂)).map
    fun p => Expr.app inner (p.1 :: p.2 :: rest.toList) with hjoined
  have heq : distribute outer inner unit e₁ e₂ rest = joined.foldl (connect outer unit) unit := by
    rw [distribute, if_neg hne, hjoined, List.foldl_map]
  have hmem : ∀ x, x ∈ joined ↔ ∃ p ∈ getArgsList outer e₁, ∃ q ∈ getArgsList outer e₂,
      x = .app inner (p :: q :: rest.toList) := by
    intro x
    simp [hjoined, eq_comm, and_assoc]
  have hjoined_ne : joined ≠ [] := by
    obtain ⟨p, hp⟩ := List.exists_mem_of_ne_nil _ hne₁
    obtain ⟨q, hq⟩ := List.exists_mem_of_ne_nil _ hne₂
    apply List.ne_nil_of_mem ((hmem _).mpr ⟨p, hp, q, hq, rfl⟩)
  have hunit : ∀ x ∈ joined, x ≠ unit := by
    intro x hx
    obtain ⟨p, -, q, -, rfl⟩ := (hmem x).mp hx
    apply h.inner_ne_unit _
  have hgood : ∀ x ∈ joined, Good outer inner x := by
    intro x hx
    obtain ⟨p, hp, q, hq, rfl⟩ := (hmem x).mp hx
    obtain ⟨hnnf₁, hclause₁, -⟩ := h₁.of_mem h hp
    obtain ⟨hnnf₂, hclause₂, -⟩ := h₂.of_mem h hq
    apply h.good_inner (by simp)
    · simpa [hnnf₁, hnnf₂] using hrest.nnf
    · simpa [hclause₁, hclause₂] using hrest.clause
  obtain ⟨hg, hu, hQ⟩ := foldl_connect_unit h hjoined_ne hunit hgood
  rw [heq]
  refine ⟨hg, hu, fun Q hdual => ?_⟩
  rw [hQ Q hdual, ← exists_getArgsList hdual e₁, ← exists_getArgsList hdual e₂]
  constructor
  · rintro ⟨x, hx, hQx⟩
    obtain ⟨p, hp, q, hq, rfl⟩ := (hmem x).mp hx
    rw [hdual.inner] at hQx
    simp only [List.forall_mem_cons, Option.mem_toList] at hQx
    exact ⟨⟨p, hp, hQx.1⟩, ⟨q, hq, hQx.2.1⟩, hQx.2.2⟩
  · rintro ⟨⟨p, hp, hQp⟩, ⟨q, hq, hQq⟩, hQr⟩
    use .app inner (p :: q :: rest.toList), (hmem _).mpr ⟨p, hp, q, hq, rfl⟩
    rw [hdual.inner]
    simp only [List.forall_mem_cons, Option.mem_toList]
    exact ⟨hQp, hQq, hQr⟩

/-- All iterations of the distribution after the first one. -/
theorem foldl_distribute (h : Connectives outer inner unit) (hret : Good outer inner ret)
    (hne : ret ≠ unit) (hrest : Remainder inner rest) (hall : ∀ e ∈ l, Good outer inner e) :
  Good outer inner (l.foldl (fun ret e => distribute outer inner unit ret e rest) ret) ∧
    ∀ Q, Dual outer inner Q → (Q ret → ∀ r ∈ rest, Q r) →
      (Q (l.foldl (fun ret e => distribute outer inner unit ret e rest) ret) ↔
        Q ret ∧ ∀ e ∈ l, Q e)
  := by
  induction l generalizing ret with
  | nil => exact ⟨hret, fun Q _ _ => by simp⟩
  | cons e l ih =>
      obtain ⟨hgood, hunit, hQ⟩ := distribute_spec h hret hne (hall e List.mem_cons_self) hrest
      obtain ⟨hg, hQ'⟩ := ih hgood hunit fun e' he' => hall e' (List.mem_cons_of_mem _ he')
      rw [List.foldl_cons]
      refine ⟨hg, fun Q hdual hr => ?_⟩
      rw [hQ' Q hdual fun hd => ((hQ Q hdual).mp hd).2.2, hQ Q hdual, List.forall_mem_cons]
      constructor
      · rintro ⟨⟨hret, he, -⟩, hl⟩
        exact ⟨hret, he, hl⟩
      · rintro ⟨hret, he, hl⟩
        exact ⟨⟨hret, he, hr hret⟩, hl⟩

theorem combineOthers_eq_some (h : Connectives outer inner unit) (hl : l ≠ [])
    (hall : ∀ e ∈ l, NNF e ∧ Clause inner e ∧ isApp outer e = false) :
  ∃ r, combineOthers inner l = some r ∧ NNF r ∧ Clause inner r ∧ isApp outer r = false ∧
    ∀ Q, Dual outer inner Q → (Q r ↔ ∀ e ∈ l, Q e)
  := by
  match l with
  | [e] =>
      obtain ⟨hnnf, hclause, happ⟩ := hall e List.mem_cons_self
      exact ⟨e, rfl, hnnf, hclause, happ, fun Q _ => by simp⟩
  | e :: e' :: l =>
      use .app inner (e :: e' :: l), rfl, h.nnf_inner hl fun x hx => (hall x hx).1,
        clause_inner fun x hx => (hall x hx).2.1, isApp_of_ne h.ne
      exact fun Q hdual => hdual.inner _

/-- The remainder of the distribution stands for the other formulas. -/
theorem combineOthers_spec (h : Connectives outer inner unit)
    (hall : ∀ e ∈ l, NNF e ∧ Clause inner e ∧ isApp outer e = false) :
  Remainder inner (combineOthers inner l) ∧
    ∀ Q, Dual outer inner Q → ((∀ r ∈ combineOthers inner l, Q r) ↔ ∀ e ∈ l, Q e)
  := by
  by_cases hl : l = []
  · subst hl
    exact ⟨⟨nofun, nofun⟩, fun Q _ => by simp [combineOthers]⟩
  · obtain ⟨r, hr, hnnf, hclause, -, hQ⟩ := combineOthers_eq_some h hl hall
    rw [hr]
    constructor
    · constructor
      · rintro _ ⟨⟩
        apply hnnf
      · rintro _ ⟨⟩
        apply hclause
    · intro Q hdual
      rw [← hQ Q hdual]
      simp

/-- Distribution over the converted arguments of the connective `inner`. -/
theorem distributeAll_spec (h : Connectives outer inner unit) (hl : l ≠ [])
    (hall : ∀ e ∈ l, Good outer inner e) :
  ∃ e', distributeAll outer inner unit l = some e' ∧ Good outer inner e' ∧
    ∀ Q, Dual outer inner Q → (Q e' ↔ ∀ e ∈ l, Q e)
  := by
  have hothers : ∀ e ∈ l.filter fun e => !isApp outer e,
      NNF e ∧ Clause inner e ∧ isApp outer e = false := by
    intro e he
    obtain ⟨he, happ⟩ := List.mem_filter.mp he
    rw [Bool.not_eq_true'] at happ
    exact ⟨(hall e he).nnf, clause_of_normal happ (hall e he).normal, happ⟩
  have hsplit : ∀ Q : Expr → Prop, (∀ e ∈ l, Q e) ↔ (∀ e ∈ l.filter (isApp outer), Q e) ∧
      ∀ e ∈ l.filter fun e => !isApp outer e, Q e := by
    intro Q
    constructor
    · intro hQ
      exact ⟨fun e he => hQ e (List.mem_of_mem_filter he),
        fun e he => hQ e (List.mem_of_mem_filter he)⟩
    · rintro ⟨hQ, hQ'⟩ e he
      by_cases happ : isApp outer e = true
      · apply hQ e (List.mem_filter.mpr ⟨he, happ⟩)
      · apply hQ' e (List.mem_filter.mpr ⟨he, by simpa using happ⟩)
  unfold distributeAll
  by_cases hnone : l.filter (isApp outer) = []
  · have hne : l.filter (fun e => !isApp outer e) ≠ [] := by
      obtain ⟨e, he⟩ := List.exists_mem_of_ne_nil _ hl
      have happ : ¬ isApp outer e = true := List.filter_eq_nil_iff.mp hnone e he
      apply List.ne_nil_of_mem (List.mem_filter.mpr ⟨he, by simpa using happ⟩)
    obtain ⟨r, hr, hnnf, hclause, happ, hQ⟩ := combineOthers_eq_some h hne hothers
    use r
    refine ⟨by rw [if_pos hnone, hr], ⟨hnnf, normal_of_clause happ hclause⟩, fun Q hdual => ?_⟩
    rw [hQ Q hdual, hsplit Q, hnone]
    simp
  · obtain ⟨hrest, hrestQ⟩ := combineOthers_spec h hothers
    obtain ⟨e, outers, houters⟩ := List.exists_cons_of_ne_nil hnone
    have hgood : ∀ e' ∈ e :: outers, Good outer inner e' := by
      intro e' he'
      rw [← houters] at he'
      apply hall e' (List.mem_of_mem_filter he')
    obtain ⟨hfirst, hunit, hfirstQ⟩ := distribute_unit h (hgood e List.mem_cons_self) hrest
    obtain ⟨hg, hQ⟩ := foldl_distribute h hfirst hunit hrest
      fun e' he' => hgood e' (List.mem_cons_of_mem _ he')
    refine ⟨_, if_neg hnone, ?_, fun Q hdual => ?_⟩
    · rw [houters]
      apply hg
    · rw [hsplit Q, houters, List.foldl_cons, ← hrestQ Q hdual,
        hQ Q hdual fun hf => ((hfirstQ Q hdual).mp hf).2, hfirstQ Q hdual, List.forall_mem_cons]
      constructor
      · rintro ⟨⟨he, hr⟩, hl⟩
        exact ⟨⟨he, hl⟩, hr⟩
      · rintro ⟨⟨he, hl⟩, hr⟩
        exact ⟨⟨he, hr⟩, hl⟩

end Distribute

/-! ### The conversions -/

section Convert

variable {outer inner : Op} {unit e : Expr}

theorem convertNNFAll_eq (outer inner : Op) (unit : Expr) (l : List Expr) :
  convertNNFAll outer inner unit l = l.mapM (convertNNF outer inner unit)
  := by
  induction l with
  | nil => rfl
  | cons e l ih =>
      rw [convertNNFAll, ih, List.mapM_cons]
      rfl

theorem good_literal (h : Connectives outer inner unit) (he : Literal e) :
  Good outer inner e
  := by
  obtain ⟨houter, hinner⟩ := he.isApp h
  constructor
  · exact .literal he
  · apply normal_of_clause houter
    intro q hq
    rw [getArgsList_of_not_isApp hinner] at hq
    rw [List.mem_singleton.mp hq]
    apply he

/-- The conversion is defined on negation normal forms, and agrees with them. -/
theorem convertNNF_spec (h : Connectives outer inner unit) (he : NNF e) :
  ∃ e', convertNNF outer inner unit e = some e' ∧ Good outer inner e' ∧ Agree outer inner e' e
  := by
  apply h.cases ?_ ?_ ?_ he
  · intro e he
    have hatom := he.isAtom
    refine ⟨e, ?_, good_literal h he, fun Q _ => Iff.rfl⟩
    cases e with
    | num n => rfl
    | var x => rfl
    | app o args => rw [convertNNF, if_pos hatom]
  · intro l hl _ ih
    obtain ⟨l', hl', hall⟩ := exists_mapM ih
    use .app outer l'
    refine ⟨?_, ?_, fun Q hdual => ?_⟩
    · rw [convertNNF, h.isAtom_outer, if_neg Bool.false_ne_true, if_pos rfl, convertNNFAll_eq, hl']
      rfl
    · exact h.good_outer (ne_nil_of_forall₂ hall hl) (forall_of_forall₂ hall fun _ _ h => h.1)
    · rw [hdual.outer, hdual.outer]
      exact exists_iff_of_forall₂ hall fun _ _ h => h.2 Q hdual
  · intro l hl _ ih
    obtain ⟨l', hl', hall⟩ := exists_mapM ih
    obtain ⟨e', he', hgood, hQ⟩ := distributeAll_spec h (ne_nil_of_forall₂ hall hl)
      (forall_of_forall₂ hall fun _ _ h => h.1)
    use e'
    refine ⟨?_, hgood, fun Q hdual => ?_⟩
    · rw [convertNNF, h.isAtom_inner, if_neg Bool.false_ne_true, if_neg h.ne.symm, if_pos rfl,
        convertNNFAll_eq, hl']
      apply he'
    · rw [hQ Q hdual, hdual.inner]
      exact forall_iff_of_forall₂ hall fun _ _ h => h.2 Q hdual

theorem convertToDNF_spec (h : Formula e) :
  ∃ d, convertToDNF e = some d ∧ Good .or .and d ∧ Equivalent d e
  := by
  obtain ⟨e', he', hnnf, heq⟩ := convertToNNF_spec h
  obtain ⟨d, hd, hgood, hagree⟩ := convertNNF_spec .dnf hnnf
  use d
  refine ⟨?_, hgood, fun M => (hagree _ (dual_holds M)).trans (heq M)⟩
  rw [convertToDNF, he']
  apply hd

theorem convertToCNF_spec (h : Formula e) :
  ∃ c, convertToCNF e = some c ∧ Good .and .or c ∧ Equivalent c e
  := by
  obtain ⟨e', he', hnnf, heq⟩ := convertToNNF_spec h
  obtain ⟨c, hc, hgood, hagree⟩ := convertNNF_spec .cnf hnnf
  use c
  refine ⟨?_, hgood, fun M => (not_iff_not.mp (hagree _ (dual_not_holds M))).trans (heq M)⟩
  rw [convertToCNF, he']
  apply hc

end Convert

/-- The result is a formula equivalent to the given one, where flattening the connective `outer`
and then `inner` leaves only literals. -/
structure NormalForm (outer inner : Op) (e e' : Expr) : Prop where
  sort : e'.sort = some .bool
  equivalent : ∀ M, e'.Holds M ↔ e.Holds M
  normal : ∀ p ∈ getArgsList outer e', ∀ q ∈ getArgsList inner p, Literal q

/-- Both conversions are defined on every formula, and yield equivalent normal forms. -/
theorem exists_normalForms {e : Expr} (h : Formula e) :
  ∃ c d, convertToCNF e = some c ∧ NormalForm .and .or e c ∧
    convertToDNF e = some d ∧ NormalForm .or .and e d
  := by
  obtain ⟨c, hc, hgoodc, heqc⟩ := convertToCNF_spec h
  obtain ⟨d, hd, hgoodd, heqd⟩ := convertToDNF_spec h
  exact ⟨c, d, hc, ⟨hgoodc.nnf.sort, heqc, hgoodc.normal⟩, hd,
    hgoodd.nnf.sort, heqd, hgoodd.normal⟩

/-- The formula `¬ ((x ≥ 0 ∧ true) ↔ (p → x ≥ 0))`. -/
theorem exists_normalForms_iff :
  ∃ c d, convertToCNF (.not (.eq (.and [.ge (.var ⟨"x", .int⟩) (.num 0), .tru])
      (.implies (.var ⟨"p", .bool⟩) (.ge (.var ⟨"x", .int⟩) (.num 0))))) = some c ∧
    NormalForm .and .or (.not (.eq (.and [.ge (.var ⟨"x", .int⟩) (.num 0), .tru])
      (.implies (.var ⟨"p", .bool⟩) (.ge (.var ⟨"x", .int⟩) (.num 0))))) c ∧
    convertToDNF (.not (.eq (.and [.ge (.var ⟨"x", .int⟩) (.num 0), .tru])
      (.implies (.var ⟨"p", .bool⟩) (.ge (.var ⟨"x", .int⟩) (.num 0))))) = some d ∧
    NormalForm .or .and (.not (.eq (.and [.ge (.var ⟨"x", .int⟩) (.num 0), .tru])
      (.implies (.var ⟨"p", .bool⟩) (.ge (.var ⟨"x", .int⟩) (.num 0))))) d
  := by
  have hge : Formula (.ge (.var ⟨"x", .int⟩) (.num 0)) := .atom ⟨rfl, rfl⟩
  have htru : Formula .tru := .atom ⟨rfl, rfl⟩
  have hvar : Formula (.var ⟨"p", .bool⟩) := .atom ⟨rfl, rfl⟩
  apply exists_normalForms
  apply Formula.not
  apply Formula.iff
  · apply Formula.and (List.cons_ne_nil _ _)
    simp [hge, htru]
  · exact .implies hvar hge

end Sygus.Invariant
