import DryadSynth.Dispatch.ConvertITE

/-!
# Formatting the results

`postFormatting` for grammars with conditionals over comparisons: negations are pushed in, the
connectives in the conditions are eliminated, and the definition is printed.  The flag of the loop
that eliminates the connectives is a field that is true once: the loop ends when the flag is false,
and it stays false for the functions after the first one.
-/

namespace Sygus.Format

open LIA Invariant Lists

/-! ### The method -/

/-- A synthesised function: its name, its arguments and its range are those of the request. -/
structure Result (requests : String → Option (List Var × Srt)) where
  name : String
  args : List Var
  range : Srt
  getDef : Expr
  request : requests name = some (args, range)
  sort : getDef.sort = some range

/-- A printed `define-fun`. -/
structure DefineFun where
  name : String
  args : List Var
  range : Srt
  text : Text

section Model

variable (check : List Expr → Status) (converted : ConvertMethod)
variable (requests : String → Option (List Var × Srt)) (fuel : ℕ)

/-- `getResultStr` -/
def getResultStr (name : String) (defstr : Text) : Option DefineFun :=
  (requests name).map fun request => ⟨name, request.1, request.2, defstr⟩

/-- The iteration for one function, from the flag `iteConverted` to its next value. -/
def formatResult (iteConverted : Bool) (result : Result requests) : Option (DefineFun × Bool) := do
  let transdef ← pushNegIn result.getDef
  let (transdef, iteConverted) ← convertLoop check fuel iteConverted transdef
  let arg0 ← result.args.head?
  let (_, cache) ← formatFullCLIA converted (.var arg0) transdef fun _ => none
  let resultStr ← getResultStr requests result.name (cache.get (some transdef))
  some (resultStr, iteConverted)

/-- The loop over the functions. -/
def formatResults (iteConverted : Bool) : List (Result requests) → Option (List DefineFun)
  | [] => some []
  | result :: results => do
      let (resultStr, iteConverted) ←
        formatResult check converted requests fuel iteConverted result
      let resultStrs ← formatResults iteConverted results
      some (resultStr :: resultStrs)

/-- `postFormatting`, when the problem was converted by `ITEWOSUB` or `ITEWOADDSUB`; `fuel` bounds
the rounds of the conversion. -/
def postFormatting (results : List (Result requests)) : Option (List DefineFun) :=
  formatResults check converted requests fuel true results

end Model

/-! ### What is expected -/

/-- The printed function has the arguments and the meaning of the result, and no condition in it
has a conjunction, disjunction, negation or equality. -/
structure Emits {requests : String → Option (List Var × Srt)} (result : Result requests)
    (str : DefineFun) : Prop where
  name : str.name = result.name
  args : str.args = result.args
  range : str.range = result.range
  definition : ∃ e, str.text.read = some e ∧ e.sort = some result.range ∧
    (∀ M, e.eval M = result.getDef.eval M) ∧ PlainConditions e

/-- A comparison, an equality, an arithmetic expression or a constant. -/
def IsBase (e : Expr) : Prop := isAtom e = true ∧ ∀ a, e ≠ .not a

/-- A condition in which no connective is left when its negations are pushed in, `neg` saying
whether it is negated. -/
inductive Bare : Bool → Expr → Prop where
  | not {neg a} (h : Bare (!neg) a) : Bare neg (.not a)
  | and {neg a} (h : Bare neg a) : Bare neg (.and [a])
  | or {neg a} (h : Bare neg a) : Bare neg (.or [a])
  | ite {c a b} (hc : Bare false c) (ha : Bare false a) (hb : Bare false b) :
      Bare false (.ite c a b)
  | base {e} (he : IsBase e) (h : Unconnected e) : Bare false e

/-- The conditions of all conditionals are bare. -/
inductive Tidy : Expr → Prop where
  | not {a} (h : Tidy a) : Tidy (.not a)
  | and {l} (h : ∀ e ∈ l, Tidy e) : Tidy (.and l)
  | or {l} (h : ∀ e ∈ l, Tidy e) : Tidy (.or l)
  | ite {c a b} (hc : Bare false c) (ha : Tidy a) (hb : Tidy b) : Tidy (.ite c a b)
  | base {e} (he : IsBase e) (h : UnconnectedConditions e) : Tidy e

/-- The expressions that can be printed without the conversion. -/
inductive Spared (converted : ConvertMethod) : Expr → Prop where
  | not {a} (h : Spared converted a) : Spared converted (.not a)
  | and {l} (hl : l ≠ []) (h : ∀ e ∈ l, Spared converted e) : Spared converted (.and l)
  | or {l} (hl : l ≠ []) (h : ∀ e ∈ l, Spared converted e) : Spared converted (.or l)
  | ite {c a b} (hc : Spared converted c) (ha : Spared converted a) (hb : Spared converted b) :
      Spared converted (.ite c a b)
  | base {e} (he : IsBase e) (hprint : Printable converted e)
      (hproducts : UnconnectedProducts e) : Spared converted e

/-! ### Pushing negations in -/

section Push

variable {converted : ConvertMethod} {k : Level} {neg : Bool} {e e' : Expr} {l l' : List Expr}

/-- What pushing the negations into an expression makes of it. -/
structure Pushed (converted : ConvertMethod) (neg : Bool) (e e' : Expr) : Prop where
  printable : Printable converted e'
  products : UnconnectedProducts e'
  preserves : Preserves (negateIf neg e) e'
  bare : Unconnected e' ↔ Bare neg e
  tidy : UnconnectedConditions e' ↔ Tidy e

theorem pushNeg_base (h : IsBase e) :
  pushNeg neg e = some (negateIf neg e)
  := by
  obtain ⟨hatom, hnot⟩ := h
  rw [pushNeg.eq_def]
  split
  · next a => exact absurd rfl (hnot a)
  · cases hatom
  · cases hatom
  · cases hatom
  · rw [if_pos hatom]

theorem isBase_compare {o : Op} {a b : Expr} (ho : o ∈ comparisons) :
  IsBase (.app o [a, b])
  := by
  simp only [comparisons, List.mem_cons, List.not_mem_nil, or_false] at ho
  rcases ho with rfl | rfl | rfl | rfl
  all_goals exact ⟨rfl, by simp⟩

theorem isBase_const (h : isConst e = true) :
  IsBase e
  := by
  unfold isConst at h
  split at h
  · exact ⟨rfl, by simp⟩
  · exact ⟨rfl, by simp⟩
  · exact ⟨rfl, by simp⟩
  · exact ⟨rfl, by simp⟩
  · cases h

theorem isBase_arith (h : isArith e = true) :
  IsBase e
  := by
  unfold isArith at h
  split at h
  · exact ⟨rfl, by simp⟩
  · exact ⟨rfl, by simp⟩
  · exact ⟨rfl, by simp⟩
  · exact ⟨rfl, by simp⟩
  · cases h

theorem unconnected_compare {o : Op} {a b : Expr} (ho : o ∈ comparisons)
    (ha : Term converted a) (hb : Term converted b) :
  Unconnected (.app o [a, b])
  := by
  have hcompare : Ready converted false .simple (.app o [a, b]) := .compare ho ha hb
  apply hcompare.unconnected (rank_compare ho).1 (by simp) (rank_compare ho).2

theorem bare_connective {o : Op} (ho : o = .and ∨ o = .or) :
  Bare neg (.app o l) ↔ ∃ a, l = [a] ∧ Bare neg a
  := by
  constructor
  · intro h
    rcases ho with rfl | rfl
    · cases h with
      | and h => exact ⟨_, rfl, h⟩
      | base he => cases he.1
    · cases h with
      | or h => exact ⟨_, rfl, h⟩
      | base he => cases he.1
  · rintro ⟨a, rfl, h⟩
    rcases ho with rfl | rfl
    · exact .and h
    · exact .or h

theorem bare_not {a : Expr} :
  Bare neg (.not a) ↔ Bare (!neg) a
  := by
  constructor
  · intro h
    cases h with
    | not h => exact h
    | base he => exact absurd rfl (he.2 a)
  · exact .not

theorem bare_ite {c a b : Expr} :
  Bare neg (.ite c a b) ↔ neg = false ∧ Bare false c ∧ Bare false a ∧ Bare false b
  := by
  constructor
  · intro h
    cases h with
    | ite hc ha hb => exact ⟨rfl, hc, ha, hb⟩
    | base he => cases he.1
  · rintro ⟨rfl, hc, ha, hb⟩
    exact .ite hc ha hb

theorem bare_base (he : IsBase e) :
  Bare neg e ↔ neg = false ∧ Unconnected e
  := by
  constructor
  · intro h
    cases h with
    | not _ => exact absurd rfl (he.2 _)
    | base _ h => exact ⟨rfl, h⟩
    | _ => cases he.1
  · rintro ⟨rfl, h⟩
    exact .base he h

theorem tidy_connective {o : Op} (ho : o = .and ∨ o = .or) :
  Tidy (.app o l) ↔ ∀ e ∈ l, Tidy e
  := by
  constructor
  · intro h
    rcases ho with rfl | rfl
    · cases h with
      | and h => exact h
      | base he => cases he.1
    · cases h with
      | or h => exact h
      | base he => cases he.1
  · intro h
    rcases ho with rfl | rfl
    · exact .and h
    · exact .or h

theorem tidy_not {a : Expr} :
  Tidy (.not a) ↔ Tidy a
  := by
  constructor
  · intro h
    cases h with
    | not h => exact h
    | base he => exact absurd rfl (he.2 a)
  · exact .not

theorem tidy_ite {c a b : Expr} :
  Tidy (.ite c a b) ↔ Bare false c ∧ Tidy a ∧ Tidy b
  := by
  constructor
  · intro h
    cases h with
    | ite hc ha hb => exact ⟨hc, ha, hb⟩
    | base he => cases he.1
  · rintro ⟨hc, ha, hb⟩
    exact .ite hc ha hb

theorem tidy_base (he : IsBase e) :
  Tidy e ↔ UnconnectedConditions e
  := by
  constructor
  · intro h
    cases h with
    | not _ => exact absurd rfl (he.2 _)
    | base _ h => exact h
    | _ => cases he.1
  · exact .base he

/-- What is printed, and without connectives, of a negation. -/
theorem printable_negateIf (h : Printable converted e) :
  Printable converted (negateIf neg e)
  := by
  cases neg with
  | false => exact h
  | true =>
      apply Printable.fixed
      · simp [fixed]
      · simpa using h

theorem products_negateIf (h : UnconnectedProducts e) :
  UnconnectedProducts (negateIf neg e)
  := by
  cases neg with
  | false => exact h
  | true => exact unconnectedProducts_app.mpr ⟨by simp, by simpa using h⟩

theorem unconnected_negateIf :
  Unconnected (negateIf neg e) ↔ neg = false ∧ Unconnected e
  := by
  cases neg with
  | false => simp [negateIf_false]
  | true => simp [negateIf_true, unconnected_app, Connects]

theorem conditions_negateIf :
  UnconnectedConditions (negateIf neg e) ↔ UnconnectedConditions e
  := by
  cases neg with
  | false => rw [negateIf_false]
  | true => simp [negateIf_true, unconnectedConditions_app]

theorem preserves_negateIf (h : Preserves e e') :
  Preserves (negateIf neg e) (negateIf neg e')
  := by
  cases neg with
  | false => exact h
  | true => exact h.not

/-- A connective over expressions into which the negations are pushed. -/
theorem pushed_connective {o o' : Op} (ho : o = .and ∨ o = .or) (ho' : o' = .and ∨ o' = .or)
    (hl : l ≠ [])
    (hpres : Preserves (negateIf neg (.app o l)) (.app o' (l.map (negateIf neg))))
    (hall : List.Forall₂ (Pushed converted neg) l l') :
  Pushed converted neg (.app o l) (.app o' l')
  := by
  have hne := ne_nil_of_forall₂ hall hl
  constructor
  · apply Printable.nest _ hne
    · rcases ho' with rfl | rfl
      all_goals simp
    · exact forall_of_forall₂ hall fun _ _ h => h.printable
    · rcases ho' with rfl | rfl
      all_goals simp
  · apply unconnectedProducts_app.mpr
    refine ⟨?_, forall_of_forall₂ hall fun _ _ h => h.products⟩
    rintro rfl
    simp at ho'
  · apply hpres.trans
    apply Preserves.app
    rw [List.forall₂_map_left_iff]
    exact hall.imp fun _ _ h => h.preserves
  · rw [unconnected_app, bare_connective ho]
    constructor
    · rintro ⟨hconn, hunconn⟩
      have hlen : l'.length = 1 := by
        by_contra hlen
        apply hconn (.inr (.inr ⟨ho', hlen⟩))
      rw [← hall.length_eq] at hlen
      obtain ⟨a, rfl⟩ := List.length_eq_one_iff.mp hlen
      cases hall with
      | cons ha _ => exact ⟨a, rfl, ha.bare.mp (hunconn _ List.mem_cons_self)⟩
    · rintro ⟨a, rfl, hbare⟩
      cases hall with
      | cons ha hnil =>
          cases hnil
          constructor
          · rintro (rfl | rfl | ⟨-, hlen⟩)
            · simp at ho'
            · simp at ho'
            · apply hlen rfl
          · simpa using ha.bare.mpr hbare
  · rw [unconnectedConditions_app, tidy_connective ho,
      forall_iff_of_forall₂ hall fun _ _ h => h.tidy]
    apply and_iff_right
    rintro rfl
    simp at ho'

/-- The negations are pushed into an expression that can be printed. -/
theorem pushNeg_spared (h : Spared converted e) (neg : Bool) :
  ∃ e', pushNeg neg e = some e' ∧ Pushed converted neg e e'
  := by
  induction h generalizing neg with
  | @not a _ ih =>
      obtain ⟨a', ha, hpush⟩ := ih !neg
      refine ⟨a', by rw [pushNeg, ha], hpush.printable, hpush.products, ?_, ?_, ?_⟩
      · cases neg with
        | false => exact hpush.preserves
        | true => exact Preserves.not_not.trans hpush.preserves
      · rw [hpush.bare, bare_not]
      · rw [hpush.tidy, tidy_not]
  | @and l hl _ ih =>
      obtain ⟨l', hl', hall⟩ := exists_mapM fun e he => ih e he neg
      cases neg with
      | false =>
          refine ⟨.and l', by rw [pushNeg, pushNegAll_eq, hl']; rfl, ?_⟩
          apply pushed_connective (.inl rfl) (.inl rfl) hl _ hall
          rw [negateIf_false, show negateIf false = id from rfl, List.map_id]
          exact .refl _
      | true =>
          refine ⟨.or l', by rw [pushNeg, pushNegAll_eq, hl']; rfl, ?_⟩
          exact pushed_connective (.inl rfl) (.inr rfl) hl Preserves.not_and hall
  | @or l hl _ ih =>
      obtain ⟨l', hl', hall⟩ := exists_mapM fun e he => ih e he neg
      cases neg with
      | false =>
          refine ⟨.or l', by rw [pushNeg, pushNegAll_eq, hl']; rfl, ?_⟩
          apply pushed_connective (.inr rfl) (.inr rfl) hl _ hall
          rw [negateIf_false, show negateIf false = id from rfl, List.map_id]
          exact .refl _
      | true =>
          refine ⟨.and l', by rw [pushNeg, pushNegAll_eq, hl']; rfl, ?_⟩
          exact pushed_connective (.inr rfl) (.inl rfl) hl Preserves.not_or hall
  | @ite c a b _ _ _ ihc iha ihb =>
      obtain ⟨c', hc', hpushc⟩ := ihc false
      obtain ⟨a', ha', hpusha⟩ := iha false
      obtain ⟨b', hb', hpushb⟩ := ihb false
      refine ⟨negateIf neg (.ite c' a' b'), by simp [pushNeg, hc', ha', hb'], ?_, ?_, ?_, ?_, ?_⟩
      · apply printable_negateIf
        apply Printable.fixed
        · simp [fixed]
        · simp [hpushc.printable, hpusha.printable, hpushb.printable]
      · apply products_negateIf
        apply unconnectedProducts_app.mpr
        simp [hpushc.products, hpusha.products, hpushb.products]
      · apply preserves_negateIf
        exact .app .ite (.cons hpushc.preserves (.cons hpusha.preserves
          (.cons hpushb.preserves .nil)))
      · have hiff : Unconnected (.ite c' a' b')
            ↔ Unconnected c' ∧ Unconnected a' ∧ Unconnected b' := by
          rw [unconnected_app, and_iff_right (by simp [Connects])]
          simp
        rw [unconnected_negateIf, hiff, hpushc.bare, hpusha.bare, hpushb.bare, bare_ite]
      · have hiff : UnconnectedConditions (.ite c' a' b') ↔ Unconnected c' ∧
            UnconnectedConditions a' ∧ UnconnectedConditions b' := by
          rw [unconnectedConditions_app]
          constructor
          · rintro ⟨hhead, hall⟩
            exact ⟨hhead rfl c' rfl, hall a' (by simp), hall b' (by simp)⟩
          · rintro ⟨hc, ha, hb⟩
            constructor
            · rintro _ _ ⟨⟩
              apply hc
            · simp [hc.conditions, ha, hb]
        rw [conditions_negateIf, hiff, hpushc.bare, hpusha.tidy, hpushb.tidy, tidy_ite]
  | @base e he hprint hproducts =>
      refine ⟨negateIf neg e, pushNeg_base he, printable_negateIf hprint,
        products_negateIf hproducts, .refl _, ?_, ?_⟩
      · rw [unconnected_negateIf, bare_base he]
      · rw [conditions_negateIf, tidy_base he]

/-- The negations are pushed into an expression that can be converted. -/
theorem pushNeg_shape (h : Shape converted k neg e) :
  ∃ e', pushNeg neg e = some e' ∧ Ready converted true k e'
  := by
  induction h with
  | @not k neg a _ ih =>
      obtain ⟨a', ha, hready⟩ := ih
      exact ⟨a', by rw [pushNeg, ha], hready⟩
  | @and k neg l hk hl _ ih =>
      obtain ⟨l', hl', hall⟩ := exists_mapM ih
      have hne := ne_nil_of_forall₂ hall hl
      have hready : ∀ e ∈ l', Ready converted true k e := forall_of_forall₂ hall fun _ _ h => h
      cases neg with
      | false => exact ⟨.and l', by rw [pushNeg, pushNegAll_eq, hl']; rfl, .and hk hne hready⟩
      | true => exact ⟨.or l', by rw [pushNeg, pushNegAll_eq, hl']; rfl, .or hk hne hready⟩
  | @or k neg l hk hl _ ih =>
      obtain ⟨l', hl', hall⟩ := exists_mapM ih
      have hne := ne_nil_of_forall₂ hall hl
      have hready : ∀ e ∈ l', Ready converted true k e := forall_of_forall₂ hall fun _ _ h => h
      cases neg with
      | false => exact ⟨.or l', by rw [pushNeg, pushNegAll_eq, hl']; rfl, .or hk hne hready⟩
      | true => exact ⟨.and l', by rw [pushNeg, pushNegAll_eq, hl']; rfl, .and hk hne hready⟩
  | @ite k c a b hc ha hb ihc iha ihb =>
      obtain ⟨c', hc', hreadyc⟩ := ihc
      obtain ⟨a', ha', hreadya⟩ := iha
      obtain ⟨b', hb', hreadyb⟩ := ihb
      exact ⟨.ite c' a' b', by simp [pushNeg, hc', ha', hb', negateIf],
        .ite hreadyc hreadya hreadyb⟩
  | @compare k neg o a b ho ha hb =>
      refine ⟨_, pushNeg_base (isBase_compare ho), ?_⟩
      cases neg with
      | false => exact .compare ho ha hb
      | true => exact .not rfl ho ha hb
  | eq hk ha hb hs hs' => exact ⟨_, pushNeg_base ⟨rfl, by simp⟩, .eq rfl hk ha hb hs hs'⟩
  | const he => exact ⟨_, pushNeg_base (isBase_const he), .const he⟩
  | arith he h => exact ⟨_, pushNeg_base (isBase_arith he), .arith he h⟩

/-- What can be converted can be printed. -/
theorem spared_of_shape (h : Shape converted k neg e) :
  Spared converted e
  := by
  induction h with
  | not _ ih => exact .not ih
  | and _ hl _ ih => exact .and hl ih
  | or _ hl _ ih => exact .or hl ih
  | ite _ _ _ ihc iha ihb => exact .ite ihc iha ihb
  | compare ho ha hb =>
      exact .base (isBase_compare ho) (printable_compare ho ha hb) (products_compare ho ha hb)
  | @eq k a b hk ha hb hs hs' =>
      have hready : Ready converted true k (.eq a b) := .eq rfl hk ha hb hs hs'
      exact .base ⟨rfl, by simp⟩ hready.printable hready.products
  | @const k e he =>
      exact .base (isBase_const he) (.const he) (isConst_spec he).2.products
  | @arith e he h => exact .base (isBase_arith he) h.printable h.unconnected.products

end Push

/-! ### The functions -/

section Results

variable {check : List Expr → Status} {converted : ConvertMethod}
variable {requests : String → Option (List Var × Srt)} {fuel : ℕ} {nots : Bool}
variable {result : Result requests} {results : List (Result requests)} {e : Expr}

/-- The definitions that the conversion handles: there is an argument, and the definition has only
operators that are handled where it has them. -/
structure Convertible (converted : ConvertMethod) (result : Result requests) : Prop where
  args : result.args ≠ []
  shape : Shape converted .body false result.getDef

/-- The definitions that only need to be printed: there is an argument, and every part of the
definition has a text. -/
structure Printed (converted : ConvertMethod) (result : Result requests) : Prop where
  args : result.args ≠ []
  spared : Spared converted result.getDef

theorem Convertible.printed (h : Convertible converted result) :
  Printed converted result
  := ⟨h.args, spared_of_shape h.shape⟩

/-- All functions are printed, each as it is expected. -/
def Correct (check : List Expr → Status) (converted : ConvertMethod)
    (results : List (Result requests)) : Prop :=
  ∃ fuel strs, postFormatting check converted requests fuel results = some strs ∧
    List.Forall₂ Emits results strs

/-- The flag is false after the loop. -/
theorem convertLoop_flag {flag flag' : Bool} {e e' : Expr}
    (h : convertLoop check fuel flag e = some (e', flag')) :
  flag' = false
  := by
  induction fuel generalizing flag e with
  | zero =>
      cases flag with
      | false =>
          cases h
          rfl
      | true => cases h
  | succ fuel ih =>
      cases flag with
      | false =>
          cases h
          rfl
      | true =>
          rw [convertLoop, Option.bind_eq_bind, Option.bind_eq_some_iff] at h
          obtain ⟨⟨e₁, flag₁⟩, -, h⟩ := h
          apply ih h

theorem formatResult_flag {flag flag' : Bool} {str : DefineFun}
    (h : formatResult check converted requests fuel flag result = some (str, flag')) :
  flag' = false
  := by
  simp only [formatResult, Option.bind_eq_bind, Option.bind_eq_some_iff, Option.some.injEq,
    Prod.mk.injEq] at h
  obtain ⟨e, -, ⟨e', flag''⟩, hloop, -, -, -, -, -, -, -, rfl⟩ := h
  apply convertLoop_flag hloop

/-- A definition whose conversion has ended is printed, and as expected if there are no connectives
in its conditions. -/
theorem print_spec (hmode : converted = .ITEWOSUB ∨ converted = .ITEWOADDSUB)
    (hargs : result.args ≠ []) (hprint : Printable converted e) (hproducts : UnconnectedProducts e)
    (hpres : Preserves result.getDef e) :
  ∃ arg0 new cache str, result.args.head? = some arg0 ∧
    formatFullCLIA converted (.var arg0) e (fun _ => none) = some (some new, cache) ∧
    getResultStr requests result.name (cache.get (some e)) = some str ∧
    (Emits result str ↔ UnconnectedConditions e)
  := by
  obtain ⟨arg0, args, hhead⟩ := List.exists_cons_of_ne_nil hargs
  have harg : converted = .ADDSUB → ∃ x : Var, Expr.var arg0 = .var x ∧ x.sort = .int := by
    rintro rfl
    simp at hmode
  have hempty : Cached fun _ => none := by
    intro k t h
    cases h
  obtain ⟨new, cache, hformat, hspec⟩ := formatFullCLIA_spec harg hprint hempty
  obtain ⟨e', hread, hreads⟩ := hspec.cached.get hspec.text
  refine ⟨arg0, new, cache, ⟨result.name, result.args, result.range, cache.get (some e)⟩,
    by rw [hhead]; rfl, hformat, by rw [getResultStr, result.request]; rfl, ?_⟩
  obtain ⟨hsort, heval⟩ := (hpres.trans hreads.preserves) _ result.sort
  rw [← hreads.conditions hproducts]
  constructor
  · intro h
    obtain ⟨e'', hread', -, -, hplain⟩ := h.definition
    rw [hread] at hread'
    cases hread'
    apply hplain
  · intro hplain
    exact ⟨rfl, rfl, rfl, e', hread, hsort, heval, hplain⟩

/-- The first function is printed as expected. -/
theorem formatResult_true (hcheck : SoundCheck check)
    (hmode : converted = .ITEWOSUB ∨ converted = .ITEWOADDSUB)
    (h : Convertible converted result) :
  ∃ fuel str, formatResult check converted requests fuel true result = some (str, false) ∧
    Emits result str
  := by
  obtain ⟨e, hpush, hpushed⟩ := pushNeg_spared h.printed.spared false
  obtain ⟨_, hpush', hready⟩ := pushNeg_shape h.shape
  cases hpush.symm.trans hpush'
  obtain ⟨e', hloop, hready, hpres, hrank⟩ := convertLoop_spec hcheck hready le_rfl
  obtain ⟨arg0, new, cache, str, hhead, hformat, hstr, hiff⟩ :=
    print_spec hmode h.args hready.printable hready.products (hpushed.preserves.trans hpres)
  refine ⟨rank e + 1, str, ?_, hiff.mpr (hready.unconnectedConditions hrank)⟩
  simp [formatResult, pushNegIn, hpush, hloop, hhead, hformat, hstr]

/-- A later function is printed with the conditions it has when the negations are pushed in. -/
theorem formatResult_false (check : List Expr → Status)
    (hmode : converted = .ITEWOSUB ∨ converted = .ITEWOADDSUB) (h : Printed converted result)
    (fuel : ℕ) :
  ∃ str, formatResult check converted requests fuel false result = some (str, false) ∧
    (Emits result str ↔ Tidy result.getDef)
  := by
  obtain ⟨e, hpush, hpushed⟩ := pushNeg_spared h.spared false
  obtain ⟨arg0, new, cache, str, hhead, hformat, hstr, hiff⟩ :=
    print_spec hmode h.args hpushed.printable hpushed.products hpushed.preserves
  refine ⟨str, ?_, hiff.trans hpushed.tidy⟩
  simp [formatResult, pushNegIn, hpush, convertLoop_false, hhead, hformat, hstr]

/-- The later functions. -/
theorem formatResults_false (check : List Expr → Status)
    (hmode : converted = .ITEWOSUB ∨ converted = .ITEWOADDSUB)
    (h : ∀ result ∈ results, Printed converted result) (fuel : ℕ) :
  ∃ strs, formatResults check converted requests fuel false results = some strs ∧
    (List.Forall₂ Emits results strs ↔ ∀ result ∈ results, Tidy result.getDef)
  := by
  induction results with
  | nil => exact ⟨[], rfl, by simp⟩
  | cons result results ih =>
      obtain ⟨hhead, htail⟩ := List.forall_mem_cons.mp h
      obtain ⟨str, hstr, hiff⟩ := formatResult_false check hmode hhead fuel
      obtain ⟨strs, hstrs, hiffs⟩ := ih htail
      refine ⟨str :: strs, ?_, ?_⟩
      · simp [formatResults, hstr, hstrs]
      · rw [List.forall₂_cons, List.forall_mem_cons, hiff, hiffs]

/-- If all functions are printed as expected then the conditions in the later ones are bare. -/
theorem tidy_of_correct (hmode : converted = .ITEWOSUB ∨ converted = .ITEWOADDSUB)
    (h : ∀ result ∈ results, Printed converted result)
    (hcorrect : Correct check converted (result :: results)) :
  ∀ result ∈ results, Tidy result.getDef
  := by
  obtain ⟨fuel, strs, hpost, hemits⟩ := hcorrect
  obtain ⟨strs', hstrs', hiff⟩ := formatResults_false check hmode h fuel
  apply hiff.mp
  simp only [postFormatting, formatResults, Option.bind_eq_bind,
    Option.bind_eq_some_iff] at hpost
  obtain ⟨⟨str, flag⟩, hfirst, strs'', hrest, hpost⟩ := hpost
  cases formatResult_flag hfirst
  rw [hstrs'] at hrest
  cases hrest
  cases hpost
  cases hemits with
  | cons _ hemits => exact hemits

/-- If the first definition is convertible and the other ones can be printed then all functions are
printed as expected exactly when the conditions in the definitions after the first one are bare
already. -/
theorem postFormatting_correct_iff (hcheck : SoundCheck check)
    (hmode : converted = .ITEWOSUB ∨ converted = .ITEWOADDSUB)
    (h : ∀ result ∈ results.head?, Convertible converted result)
    (htail : ∀ result ∈ results.tail, Printed converted result) :
  Correct check converted results ↔ ∀ result ∈ results.tail, Tidy result.getDef
  := by
  cases results with
  | nil =>
      apply iff_of_true
      · exact ⟨0, [], rfl, .nil⟩
      · simp
  | cons result results =>
      have hhead : Convertible converted result := h result rfl
      rw [List.tail_cons] at htail ⊢
      constructor
      · apply tidy_of_correct hmode htail
      · intro htidy
        obtain ⟨fuel, str, hstr, hemits⟩ := formatResult_true hcheck hmode hhead
        obtain ⟨strs, hstrs, hiff⟩ := formatResults_false check hmode htail fuel
        refine ⟨fuel, str :: strs, ?_, .cons hemits (hiff.mpr htidy)⟩
        simp [postFormatting, formatResults, hstr, hstrs]

end Results

/-! ### Two functions -/

/-- The requests of functions of two integers. -/
def binaryRequests : String → Option (List Var × Srt) :=
  fun _ => some ([⟨"x", .int⟩, ⟨"y", .int⟩], .int)

/-- A function of two integers. -/
def binaryResult (name : String) (e : Expr) (h : e.sort = some .int) : Result binaryRequests :=
  ⟨name, [⟨"x", .int⟩, ⟨"y", .int⟩], .int, e, rfl, h⟩

def xVar : Expr := .var ⟨"x", .int⟩
def yVar : Expr := .var ⟨"y", .int⟩

/-- `(ite (and (>= x 0) (not (>= y 0))) x y)` -/
def signs : Expr :=
  .ite (.and [.ge xVar (.num 0), .not (.ge yVar (.num 0))]) xVar yVar

/-- `(ite (>= x y) x y)` -/
def larger : Expr := .ite (.ge xVar yVar) xVar yVar

theorem term_var (converted : ConvertMethod) (x : Var) :
  Term converted (.var x)
  := ⟨trivial, .const rfl⟩

theorem term_zero (converted : ConvertMethod) :
  Term converted (.num 0)
  := ⟨trivial, .num (by norm_num)⟩

theorem convertible_signs (converted : ConvertMethod) (name : String) :
  Convertible converted (binaryResult name signs rfl)
  := by
  constructor
  · simp [binaryResult]
  · apply Shape.ite
    · apply Shape.and (by simp) (by simp)
      intro e he
      simp only [List.mem_cons, List.not_mem_nil, or_false] at he
      rcases he with rfl | rfl
      · exact .compare (by simp [comparisons]) (term_var _ _) (term_zero _)
      · exact .not (.compare (by simp [comparisons]) (term_var _ _) (term_zero _))
    · exact .const rfl
    · exact .const rfl

theorem convertible_larger (converted : ConvertMethod) (name : String) :
  Convertible converted (binaryResult name larger rfl)
  := by
  constructor
  · simp [binaryResult]
  · apply Shape.ite
    · exact .compare (by simp [comparisons]) (term_var _ _) (term_var _ _)
    · exact .const rfl
    · exact .const rfl

/-- All conditions on the way are satisfiable here. -/
theorem soundCheck_satisfiable :
  SoundCheck fun _ => .SATISFIABLE
  := by
  intro l _ h
  cases h

theorem postFormatting_correct_signs_larger :
  Correct (fun _ => .SATISFIABLE) .ITEWOSUB
    [binaryResult "f" signs rfl, binaryResult "g" larger rfl]
  := by
  apply (postFormatting_correct_iff soundCheck_satisfiable (.inl rfl) _ _).mpr
  · simp only [List.tail_cons, List.forall_mem_cons]
    refine ⟨.ite (.base (isBase_compare (by simp [comparisons])) ?_) ?_ ?_, by simp⟩
    · exact unconnected_compare (by simp [comparisons]) (term_var .ITEWOSUB _) (term_var _ _)
    · exact .base (isBase_const rfl) trivial
    · exact .base (isBase_const rfl) trivial
  · rintro result ⟨⟩
    apply convertible_signs
  · simp only [List.tail_cons, List.forall_mem_cons]
    exact ⟨(convertible_larger _ _).printed, by simp⟩

/-- The second of two functions keeps the conjunction and the negation in its condition. -/
theorem not_correct_signs_signs :
  (postFormatting (fun _ => .SATISFIABLE) .ITEWOSUB binaryRequests 2
    [binaryResult "f" signs rfl, binaryResult "g" signs rfl]).map (List.map DefineFun.text)
    = some [
      .list "ite" [.list "<" [.atom yVar, .atom (.num 0)],
        .list "ite" [.list ">=" [.atom xVar, .atom (.num 0)], .atom xVar, .atom yVar],
        .atom yVar],
      .list "ite" [.list "and" [.list ">=" [.atom xVar, .atom (.num 0)],
        .list "not" [.list ">=" [.atom yVar, .atom (.num 0)]]], .atom xVar, .atom yVar]] ∧
    ¬ Correct (fun _ => .SATISFIABLE) .ITEWOSUB
      [binaryResult "f" signs rfl, binaryResult "g" signs rfl]
  := by
  constructor
  · rfl
  · intro hcorrect
    have hall : ∀ result ∈ [binaryResult "g" signs rfl], Printed .ITEWOSUB result := by
      simp only [List.forall_mem_cons]
      exact ⟨(convertible_signs _ _).printed, by simp⟩
    have htidy := tidy_of_correct (.inl rfl) hall hcorrect _ (List.mem_singleton_self _)
    obtain ⟨a, ha, -⟩ := (bare_connective (.inl rfl)).mp (tidy_ite.mp htidy).1
    cases ha

end Sygus.Format
