import DryadSynth.Dispatch.Printable
import DryadSynth.Library.Entries
import DryadSynth.Library.Lists

/-!
# Which texts mean what was formatted

The text of a product is put together from the text of what formatting made of the other factor,
and such a text is there only if that expression has been formatted as well.  Loops that subtract
do not run for the least `int`, which therefore counts as zero.  Everything else keeps the meaning.
-/

namespace Sygus.Format

open LIA Entries Lists

/-! ### What is made of an application -/

/-- How an application is formatted. -/
inductive Kind where
  | const
  | nest (f : String)
  | fixed (f : String)
  | mul
  | none
  deriving DecidableEq

/-- How an application of an operator is formatted, by the number of its arguments. -/
def kind : Op → ℕ → Kind
  | .tru, 0 => .const
  | .fls, 0 => .const
  | .func f, 0 => if f.domain = [] then .const else .none
  | .and, _ => .nest "and"
  | .or, _ => .nest "or"
  | .add, _ => .nest "+"
  | .sub, 1 => .none
  | .sub, _ => .nest "-"
  | .mul, _ => .mul
  | .not, 1 => .fixed "not"
  | .ite, 3 => .fixed "ite"
  | .ge, 2 => .fixed ">="
  | .le, 2 => .fixed "<="
  | .gt, 2 => .fixed ">"
  | .lt, 2 => .fixed "<"
  | .eq, 2 => .fixed "="
  | _, _ => .none

/-- The first formatted argument connected with the others. -/
def binaryNest (o : Op) : List (Option Expr) → Option Expr
  | [] => none
  | new :: rest => (rest.foldlM (mkBinary o) new).join

/-- The number `n` times an expression, as a sum or a difference. -/
def multiple (n : ℤ) (arg : Option Expr) : Option Expr :=
  if n = 0 then some (.num 0)
  else if 0 < n then binaryNest .add (.replicate n.toNat arg)
  else binaryNest .sub (some (.num 0) :: .replicate (timesBelow n) arg)

mutual

/-- The expression with binary operators, and with sums and differences for its products. -/
def binary : Expr → Option Expr
  | .num n => some (.num n)
  | .var x => some (.var x)
  | .app o l =>
      match kind o l.length with
      | .const => some (.app o l)
      | .nest _ => binaryNest o (binaryAll l)
      | .fixed _ => ((binaryAll l).mapM id).map (.app o)
      | .mul => (factors l (binaryAll l)).bind fun (n, arg) => multiple n arg
      | .none => none

def binaryAll : List Expr → List (Option Expr)
  | [] => []
  | e :: l => binary e :: binaryAll l

end

/-- How many copies of the other factor are printed for a product with the number `n`. -/
def copies (n : ℤ) : ℕ := if 0 < n then n.toNat else timesBelow n

/-- The expressions whose texts the text of an expression is put together from. -/
def lookups : Expr → Option (List Expr)
  | .app o l =>
      match kind o l.length with
      | .const => some []
      | .nest _ => some l
      | .fixed _ => some l
      | .mul => (factors l (binaryAll l)).bind fun (n, arg) =>
          if copies n = 0 then some [] else arg.map fun b => [b]
      | .none => none
  | _ => some []

mutual

/-- The expressions that get texts, in the order in which they are formatted. -/
def visits : Expr → List Expr
  | .app o l => visitsAll l ++ if kind o l.length = .none then [] else [.app o l]
  | e => [e]

def visitsAll : List Expr → List Expr
  | [] => []
  | e :: l => visits e ++ visitsAll l

end

/-- The texts that are looked up when the expression is formatted are there. -/
def Found (e : Expr) : Prop := Complete lookups (visits e) e

/-! ### The least `int` -/

/-- Zero for the least `int`. -/
def lowest (n : ℤ) : ℤ := if n = -2 ^ 31 then 0 else n

/-- The factors `es` with zero for the least `int`, where the number of the product `l` is. -/
def lowestFactor : List Expr → List Expr → List Expr
  | .num n :: _, _ :: es => .num (lowest n) :: es
  | _ :: .num n :: _, e :: _ :: es => e :: .num (lowest n) :: es
  | _, es => es

mutual

/-- The expression with zero for the least `int`.  Numerals that are printed as they are keep their
values, unless they are the number of a product. -/
def withoutLowest (converted : ConvertMethod) : Expr → Expr
  | .num n =>
      if converted = .TENSONLY ∨ converted = .ITEWOADDSUB then .num n else .num (lowest n)
  | .var x => .var x
  | .app o l =>
      .app o (if o = .mul then lowestFactor l (withoutLowestAll converted l)
        else withoutLowestAll converted l)

def withoutLowestAll (converted : ConvertMethod) : List Expr → List Expr
  | [] => []
  | e :: l => withoutLowest converted e :: withoutLowestAll converted l

end

/-- Products have two factors, one of them a numeral. -/
def Linear (e : Expr) : Prop :=
  e.every fun o l => o = .mul → ∃ n a, l = [.num n, a] ∨ l = [a, .num n]

section Kinds

variable {converted : ConvertMethod} {arg0 a b e : Expr} {o : Op} {f : String}
variable {l es : List Expr} {news : List (Option Expr)} {cache : Cache} {n : ℕ}

theorem binaryAll_eq (l : List Expr) :
  binaryAll l = l.map binary
  := by
  induction l with
  | nil => rfl
  | cons e l ih => rw [binaryAll, ih, List.map_cons]

theorem withoutLowestAll_eq (l : List Expr) :
  withoutLowestAll converted l = l.map (withoutLowest converted)
  := by
  induction l with
  | nil => rfl
  | cons e l ih => rw [withoutLowestAll, ih, List.map_cons]

theorem lowest_of_ne {m : ℤ} (h : m ≠ -2 ^ 31) :
  lowest m = m
  := if_neg h

/-- Without the least `int` among the factors, they are as they were. -/
theorem lowestFactor_eq (h : Expr.num (-2 ^ 31) ∉ l) :
  lowestFactor l l = l
  := by
  have hfactor : ∀ m, .num m ∈ l → lowest m = m := by
    intro m hm
    apply lowest_of_ne
    rintro rfl
    exact h hm
  unfold lowestFactor
  split
  · rw [hfactor _ (by simp)]
  · rw [hfactor _ (by simp)]
  · rfl

/-- Where no numeral is the least `int`, there is nothing to print as zero. -/
theorem withoutLowest_eq (hne : e ≠ .num (-2 ^ 31))
    (h : e.every fun _ l => Expr.num (-2 ^ 31) ∉ l) :
  withoutLowest converted e = e
  := by
  induction e with
  | num m =>
      have hlow : lowest m = m := lowest_of_ne fun hm => hne (by rw [hm])
      rw [withoutLowest, hlow, ite_self]
  | var x => rfl
  | app o l ih =>
      obtain ⟨hfactors, hargs⟩ := every_app.mp h
      have hl : withoutLowestAll converted l = l := by
        rw [withoutLowestAll_eq]
        refine (List.map_congr_left fun a ha => ih a ha ?_ (hargs a ha)).trans (List.map_id l)
        rintro rfl
        exact hfactors ha
      rw [withoutLowest, hl, lowestFactor_eq hfactors, ite_self]

theorem linear_app :
  Linear (.app o l)
    ↔ (o = .mul → ∃ n a, l = [.num n, a] ∨ l = [a, .num n]) ∧ ∀ e ∈ l, Linear e
  := every_app

theorem isConst_iff :
  isConst (.app o l) = true ↔ kind o l.length = .const
  := by
  unfold kind
  split
  all_goals simp_all [isConst]

theorem kind_sub (hl : l.length ≠ 1) :
  kind .sub l.length = .nest "-"
  := by
  unfold kind
  split
  all_goals simp_all

/-- An application by its kind. -/
theorem formatApp_eq :
  formatApp converted arg0 o l news cache =
    match kind o l.length with
    | .nest f => formatNest f o l news cache
    | .fixed f => formatFixed f o l news cache
    | .mul => formatMul converted arg0 l news cache
    | _ => some (none, cache)
  := by
  unfold formatApp
  split
  case h_7 hone =>
    rw [kind_sub]
    rw [Ne, List.length_eq_one_iff]
    rintro ⟨a, rfl⟩
    apply hone a rfl
  case h_14 =>
    have hkind : kind o l.length = .const ∨ kind o l.length = .none := by
      unfold kind
      split
      all_goals simp_all [em, List.length_eq_one_iff, List.length_eq_two, List.length_eq_three]
    rcases hkind with hkind | hkind
    · rw [hkind]
    · rw [hkind]
  all_goals simp_all [kind]

theorem kind_eq_mul :
  kind o n = .mul ↔ o = .mul
  := by
  unfold kind
  split
  case h_3 => split_ifs <;> simp
  all_goals simp_all

theorem const_spec (h : kind o n = .const) :
  o ≠ .mul ∧ n = 0
  := by
  unfold kind at h
  split at h
  all_goals first | exact ⟨by simp, rfl⟩ | cases h

/-- What a nested text of an application is read as. -/
theorem nest_spec (h : kind o n = .nest f) :
  o ≠ .mul ∧ (∀ x y, readApp f [x, y] = some (.app o [x, y])) ∧
    ∀ a es, es.length + 1 = n → Preserves (.app o (a :: es)) (LIA.nest o a es)
  := by
  unfold kind at h
  split at h
  case h_3 => split_ifs at h
  case h_8 hone =>
    cases h
    refine ⟨by simp, fun x y => rfl, fun a es hes => preserves_nest_sub ?_⟩
    rintro rfl
    apply hone hes.symm
  all_goals cases h
  · exact ⟨by simp, fun x y => rfl, fun a es _ => preserves_nest_and⟩
  · exact ⟨by simp, fun x y => rfl, fun a es _ => preserves_nest_or⟩
  · exact ⟨by simp, fun x y => rfl, fun a es _ => preserves_nest_add⟩

/-- What the text of an application to a fixed number of arguments is read as. -/
theorem fixed_spec (h : kind o n = .fixed f) :
  o ≠ .mul ∧ ∀ es : List Expr, es.length = n → readApp f es = some (.app o es)
  := by
  unfold kind at h
  split at h
  case h_3 => split_ifs at h
  case h_10 =>
    cases h
    refine ⟨by simp, fun es hes => ?_⟩
    obtain ⟨a, rfl⟩ := List.length_eq_one_iff.mp hes
    rfl
  case h_11 =>
    cases h
    refine ⟨by simp, fun es hes => ?_⟩
    obtain ⟨a, b, c, rfl⟩ := List.length_eq_three.mp hes
    rfl
  all_goals cases h
  all_goals
    refine ⟨by simp, fun es hes => ?_⟩
    obtain ⟨a, b, rfl⟩ := List.length_eq_two.mp hes
    rfl

end Kinds

/-! ### Reading texts -/

section Reading

variable {a b e z : Expr} {o : Op} {f : String} {es : List Expr} {t : Text} {ts : List Text}
variable {n : ℤ} {m : ℕ}

theorem readAll_eq_mapM (ts : List Text) :
  Text.readAll ts = ts.mapM Text.read
  := by
  induction ts with
  | nil => rfl
  | cons t ts ih =>
      rw [Text.readAll, ih, List.mapM_cons]
      rfl

theorem read_list_iff :
  (Text.list f ts).read = some e ↔ ∃ es, ts.mapM Text.read = some es ∧ readApp f es = some e
  := by rw [Text.read, readAll_eq_mapM, Option.bind_eq_some_iff]

theorem read_nest_iff (hf : ∀ x y, readApp f [x, y] = some (.app o [x, y])) :
  (Text.nest f t ts).read = some e
    ↔ ∃ a es, (t :: ts).mapM Text.read = some (a :: es) ∧ e = LIA.nest o a es
  := by
  simp only [mapM_eq_some_iff]
  constructor
  · intro h
    induction ts generalizing t with
    | nil => exact ⟨e, [], .cons h .nil, rfl⟩
    | cons t' ts ih =>
        obtain ⟨a, es, hes, rfl⟩ := ih h
        obtain ⟨ha, hrest⟩ := List.forall₂_cons.mp hes
        obtain ⟨pair, hpair, hread⟩ := read_list_iff.mp ha
        rw [mapM_eq_some_iff] at hpair
        obtain ⟨x, _, hx, htail, rfl⟩ := List.forall₂_cons_left_iff.mp hpair
        obtain ⟨y, _, hy, hnil, rfl⟩ := List.forall₂_cons_left_iff.mp htail
        cases hnil
        rw [hf] at hread
        cases hread
        exact ⟨_, _, .cons hx (.cons hy hrest), rfl⟩
  · rintro ⟨a, es, hes, rfl⟩
    obtain ⟨ha, hes⟩ := List.forall₂_cons.mp hes
    apply read_nest hf ha hes

end Reading

/-! ### Products -/

/-- The number `n` times `e` as a sum, or as a difference that begins with `z`. -/
def product (z : Expr) (n : ℤ) (e : Expr) : Expr :=
  if 0 < n then LIA.nest .add e (.replicate (n.toNat - 1) e)
  else LIA.nest .sub z (.replicate (timesBelow n) e)

/-- The text of a product with the number `n`, from that of the other factor. -/
def productText (converted : ConvertMethod) (arg0 : Expr) (n : ℤ) (text : Text) : Text :=
  if n = 0 then zeroText converted arg0
  else if 0 < n then .nest "+" text (.replicate (n.toNat - 1) text)
  else .nest "-" (zeroText converted arg0) (.replicate (timesBelow n) text)

section Products

variable {converted : ConvertMethod} {arg0 a b e z : Expr} {o : Op} {es l : List Expr}
variable {news : List (Option Expr)} {arg new : Option Expr} {cache cache' : Cache} {t text : Text}
variable {n : ℤ}

theorem formatMul_eq (h : formatMul converted arg0 l news cache = some (new, cache')) :
  ∃ n arg, factors l news = some (n, arg) ∧ new = multiple n arg ∧
    cache' = cache.put (.mul l) (productText converted arg0 n (cache.get arg))
  := by
  simp only [formatMul, Option.bind_eq_bind, Option.bind_eq_some_iff] at h
  obtain ⟨⟨n, arg⟩, hfactors, h⟩ := h
  refine ⟨n, arg, hfactors, ?_⟩
  unfold multiple productText
  split at h
  · next hn =>
      obtain rfl : n = 0 := hn
      cases h
      exact ⟨rfl, rfl⟩
  · next hn =>
      rw [if_neg hn, if_neg hn]
      split at h
      · next hpos =>
          obtain ⟨e, he, h⟩ := Option.bind_eq_some_iff.mp h
          cases h
          obtain ⟨k, hk⟩ : ∃ k, n.toNat = k + 1 := ⟨n.toNat - 1, by omega⟩
          rw [if_pos hpos, if_pos hpos, hk, List.replicate_succ, binaryNest]
          rw [hk, Nat.add_sub_cancel] at he
          rw [he]
          exact ⟨rfl, rfl⟩
      · next hpos =>
          obtain ⟨e, he, h⟩ := Option.bind_eq_some_iff.mp h
          cases h
          rw [if_neg hpos, if_neg hpos, binaryNest, he]
          exact ⟨rfl, rfl⟩

theorem timesBelow_zero :
  timesBelow 0 = 0
  := by decide

theorem copies_pos (hn : 0 < n) :
  copies n ≠ 0
  := by
  rw [copies, if_pos hn]
  omega

theorem copies_of_nonpos (hn : ¬ 0 < n) :
  copies n = timesBelow n
  := if_neg hn

/-- Numbers up to zero are subtracted as often as it takes, but the least `int`. -/
theorem timesBelow_lowest (hn : InRange n) (hpos : ¬ 0 < n) :
  (timesBelow n : ℤ) = -lowest n
  := by
  rw [lowest]
  split
  · next hlow =>
      rw [hlow]
      decide
  · next hlow =>
      rcases eq_or_ne n 0 with rfl | hne
      · rw [timesBelow_zero]
        rfl
      · apply timesBelow_of_lt
        · omega
        · apply lt_of_le_of_ne hn.1 (Ne.symm hlow)

theorem lowest_of_pos (hn : 0 < n) :
  lowest n = n
  := by
  rw [lowest, if_neg]
  omega

/-- Connecting the formatted arguments. -/
theorem binaryNest_spec :
  binaryNest o news = some e
    ↔ ∃ b bs, news.mapM id = some (b :: bs) ∧ e = LIA.nest o b bs
  := by
  cases news with
  | nil => simp [binaryNest]
  | cons new rest =>
      rw [binaryNest, List.mapM_cons]
      induction rest generalizing new with
      | nil => cases new <;> simp [eq_comm]
      | cons r rest ih =>
          rw [List.foldlM_cons]
          cases new with
          | none => simp [mkBinary]
          | some a =>
              cases r with
              | none => simp [mkBinary]
              | some c =>
                  have hpair : mkBinary o (some a) (some c) = some (some (.app o [a, c])) := rfl
                  rw [hpair]
                  refine (ih (some (.app o [a, c]))).trans ?_
                  simp only [List.mapM_cons, Option.bind_eq_bind, Option.pure_def,
                    Option.bind_eq_some_iff, Option.some.injEq, List.cons.injEq, id]
                  constructor
                  · rintro ⟨b, bs, ⟨_, rfl, bs', hbs, rfl, rfl⟩, rfl⟩
                    exact ⟨a, c :: bs', ⟨_, rfl, _, ⟨_, rfl, _, hbs, rfl⟩, rfl, rfl⟩, rfl⟩
                  · rintro ⟨b, bs, ⟨_, rfl, _, ⟨_, rfl, bs', hbs, rfl⟩, rfl, rfl⟩, rfl⟩
                    exact ⟨_, bs', ⟨_, rfl, _, hbs, rfl, rfl⟩, rfl⟩

/-- What formatting makes of a product. -/
theorem multiple_spec (h : multiple n arg = some e) :
  ∃ b, (copies n ≠ 0 → arg = some b) ∧ e = product (.num 0) n b
  := by
  rw [multiple] at h
  split at h
  · next hn =>
      cases h
      refine ⟨.num 0, ?_, ?_⟩
      · rw [hn, copies_of_nonpos (by simp), timesBelow_zero]
        simp
      · rw [hn]
        rfl
  · next hn =>
      split at h
      · next hpos =>
          obtain ⟨b, bs, hbs, rfl⟩ := binaryNest_spec.mp h
          obtain ⟨c, hc, hreplicate⟩ := (mapM_replicate (.num 0)).mp hbs
          obtain ⟨k, hk⟩ : ∃ k, n.toNat = k + 1 := ⟨n.toNat - 1, by omega⟩
          rw [hk, List.replicate_succ, List.cons.injEq] at hreplicate
          obtain ⟨rfl, rfl⟩ := hreplicate
          refine ⟨b, fun _ => hc (by omega), ?_⟩
          rw [product, if_pos hpos, hk, Nat.add_sub_cancel]
      · next hpos =>
          obtain ⟨b, bs, hbs, rfl⟩ := binaryNest_spec.mp h
          rw [List.mapM_cons] at hbs
          obtain ⟨_, ⟨⟩, hbs⟩ := Option.bind_eq_some_iff.mp hbs
          obtain ⟨bs', hbs', heq⟩ := Option.bind_eq_some_iff.mp hbs
          cases heq
          obtain ⟨c, hc, rfl⟩ := (mapM_replicate (.num 0)).mp hbs'
          refine ⟨c, ?_, ?_⟩
          · rw [copies_of_nonpos hpos]
            apply hc
          · rw [product, if_neg hpos]

theorem read_productText (hz : (zeroText converted arg0).read = some z) :
  (productText converted arg0 n text).read = some e
    ↔ ∃ b, (copies n ≠ 0 → text.read = some b) ∧ e = product z n b
  := by
  rw [productText]
  split
  · next hn =>
      rw [hz, Option.some.injEq]
      have hproduct : ∀ b, product z n b = z := by
        intro b
        rw [hn]
        rfl
      have hcopies : copies n = 0 := by
        rw [hn]
        decide
      constructor
      · rintro rfl
        exact ⟨z, absurd hcopies, (hproduct z).symm⟩
      · rintro ⟨b, -, rfl⟩
        apply (hproduct b).symm
  · next hn =>
      split
      · next hpos =>
          have hread : ∀ x y, readApp "+" [x, y] = some (.app .add [x, y]) := fun x y => rfl
          obtain ⟨k, hk⟩ : ∃ k, n.toNat = k + 1 := ⟨n.toNat - 1, by omega⟩
          simp only [read_nest_iff hread, product, if_pos hpos, hk, Nat.add_sub_cancel,
            ← List.replicate_succ, mapM_replicate z]
          constructor
          · rintro ⟨b, bs, ⟨c, hc, heq⟩, rfl⟩
            obtain ⟨rfl, rfl⟩ := List.cons.inj (heq.trans List.replicate_succ)
            exact ⟨b, fun _ => hc (Nat.succ_ne_zero k), rfl⟩
          · rintro ⟨b, hb, rfl⟩
            exact ⟨b, _, ⟨b, fun _ => hb (copies_pos hpos), rfl⟩, rfl⟩
      · next hpos =>
          have hread : ∀ x y, readApp "-" [x, y] = some (.app .sub [x, y]) := fun x y => rfl
          simp only [read_nest_iff hread, product, if_neg hpos, copies_of_nonpos hpos,
            List.mapM_cons, hz]
          constructor
          · rintro ⟨_, bs, heq, rfl⟩
            obtain ⟨_, ⟨⟩, heq⟩ := Option.bind_eq_some_iff.mp heq
            obtain ⟨es, hes, heq⟩ := Option.bind_eq_some_iff.mp heq
            cases heq
            obtain ⟨c, hc, rfl⟩ := (mapM_replicate z).mp hes
            exact ⟨c, hc, rfl⟩
          · rintro ⟨b, hb, rfl⟩
            refine ⟨z, _, ?_, rfl⟩
            rw [(mapM_replicate z).mpr ⟨b, hb, rfl⟩]
            rfl

/-- A sum or a difference for a product of two factors. -/
theorem preserves_product (hz : IsZero z) (hn : InRange n)
    (hes : es = [.num (lowest n), a] ∨ es = [a, .num (lowest n)])
    (he : copies n ≠ 0 → Preserves a e) :
  Preserves (.mul es) (product z n e)
  := by
  apply Preserves.of_intVal
  intro s hs
  obtain ⟨rfl, -⟩ := sort_mul.mp hs
  obtain ⟨ha, hprod⟩ := intVal_factors hes hs
  rw [product]
  split
  · next hpos =>
      have hpres := he (copies_pos hpos)
      obtain ⟨hsort, -⟩ := hpres _ ha
      refine ⟨rfl, sort_nest_replicate (.inl rfl) hsort hsort, fun M => ?_⟩
      have hsub : ((n.toNat - 1 : ℕ) : ℤ) = n - 1 := by omega
      rw [intVal_nest_add_replicate, hsub, hpres.intVal ha, hprod, lowest_of_pos hpos]
      ring
  · next hpos =>
      by_cases hzero : timesBelow n = 0
      · have hlow := timesBelow_lowest hn hpos
        rw [hzero] at hlow ⊢
        refine ⟨rfl, hz.sort, fun M => ?_⟩
        rw [List.replicate_zero, nest_nil, hz.intVal, hprod, neg_eq_zero.mp hlow.symm, zero_mul]
      · have hpres := he (by rwa [copies_of_nonpos hpos])
        obtain ⟨hsort, -⟩ := hpres _ ha
        refine ⟨rfl, sort_nest_replicate (.inr rfl) hz.sort hsort, fun M => ?_⟩
        rw [intVal_nest_sub_replicate, hz.intVal, timesBelow_lowest hn hpos, hpres.intVal ha,
          hprod]
        ring

end Products

/-! ### Zero for the least `int` -/

section Lowest

variable {converted : ConvertMethod} {arg0 a b e z : Expr} {o : Op} {es l : List Expr}
variable {arg : Option Expr} {t : Text} {m n : ℤ}

theorem withoutLowest_app (ho : o ≠ .mul) :
  withoutLowest converted (.app o l) = .app o (l.map (withoutLowest converted))
  := by rw [withoutLowest, if_neg ho, withoutLowestAll_eq]

/-- The factors of a product. -/
theorem withoutLowest_mul (hl : l = [.num n, a] ∨ (l = [a, .num n] ∧ ∀ m, a ≠ .num m)) :
  ∃ es, withoutLowest converted (.mul l) = .mul es ∧
    (es = [.num (lowest n), withoutLowest converted a] ∨
      es = [withoutLowest converted a, .num (lowest n)])
  := by
  refine ⟨_, rfl, ?_⟩
  rw [if_pos rfl, withoutLowestAll_eq]
  rcases hl with rfl | ⟨rfl, hne⟩
  · exact .inl rfl
  · right
    cases a with
    | num m => exact absurd rfl (hne m)
    | var x => rfl
    | app o l => rfl

theorem withoutLowest_nest (ho : o ≠ .mul) :
  withoutLowest converted (LIA.nest o a l)
    = LIA.nest o (withoutLowest converted a) (l.map (withoutLowest converted))
  := by
  induction l generalizing a with
  | nil => rfl
  | cons e l ih =>
      rw [nest_cons, ih, withoutLowest_app ho]
      rfl

theorem withoutLowest_zero :
  withoutLowest converted (.num 0) = .num 0
  := by
  rw [withoutLowest]
  split
  · rfl
  · rfl

theorem withoutLowest_product :
  withoutLowest converted (product (.num 0) n b)
    = product (.num 0) n (withoutLowest converted b)
  := by
  rw [product, product]
  split
  · rw [withoutLowest_nest (by simp), List.map_replicate]
  · rw [withoutLowest_nest (by simp), List.map_replicate, withoutLowest_zero]

theorem sorts_lowestFactor (h : es.map Expr.sort = l.map Expr.sort) :
  (lowestFactor l es).map Expr.sort = l.map Expr.sort
  := by
  unfold lowestFactor
  split
  all_goals simp_all

/-- The sort is kept. -/
theorem sort_withoutLowest (e : Expr) :
  (withoutLowest converted e).sort = e.sort
  := by
  induction e with
  | num n =>
      rw [withoutLowest]
      split
      · rfl
      · rfl
  | var x => rfl
  | app o l ih =>
      have hsorts : (l.map (withoutLowest converted)).map Expr.sort = l.map Expr.sort := by
        rw [List.map_map]
        apply List.map_congr_left ih
      rw [withoutLowest, sort_app, sort_app, withoutLowestAll_eq]
      split
      · rw [sorts_lowestFactor hsorts]
      · rw [hsorts]

/-- The number and the other factor of a product. -/
theorem factors_linear (hl : ∃ n a, l = [.num n, a] ∨ l = [a, .num n])
    (h : factors l (l.map binary) = some (m, arg)) :
  ∃ a ∈ l, InRange m ∧ arg = binary a ∧ (l = [.num m, a] ∨ (l = [a, .num m] ∧ ∀ i, a ≠ .num i))
  := by
  have hparse : ∀ {n : ℤ} {x : Option Expr},
      (parseInt n).map (fun num => (num, x)) = some (m, arg) → InRange n ∧ n = m ∧ x = arg := by
    intro n x hn
    rw [parseInt] at hn
    split at hn
    · next hrange =>
        cases hn
        exact ⟨hrange, rfl, rfl⟩
    · cases hn
  obtain ⟨n, a, rfl | rfl⟩ := hl
  · obtain ⟨hrange, rfl, rfl⟩ := hparse h
    exact ⟨a, by simp, hrange, rfl, .inl rfl⟩
  · cases a with
    | num i =>
        obtain ⟨hrange, rfl, rfl⟩ := hparse h
        exact ⟨.num n, by simp, hrange, rfl, .inl rfl⟩
    | var x =>
        obtain ⟨hrange, rfl, rfl⟩ := hparse h
        exact ⟨.var x, by simp, hrange, rfl, .inr ⟨rfl, nofun⟩⟩
    | app o l =>
        obtain ⟨hrange, rfl, rfl⟩ := hparse h
        exact ⟨.app o l, by simp, hrange, rfl, .inr ⟨rfl, nofun⟩⟩

/-- A sum or a difference for a product, from an expression for the other factor. -/
theorem preserves_mul (hz : IsZero z) (hn : InRange n)
    (hl : l = [.num n, a] ∨ (l = [a, .num n] ∧ ∀ m, a ≠ .num m))
    (he : copies n ≠ 0 → Preserves (withoutLowest converted a) e) :
  Preserves (withoutLowest converted (.mul l)) (product z n e)
  := by
  obtain ⟨es, heq, hes⟩ := withoutLowest_mul hl
  rw [heq]
  apply preserves_product hz hn hes he

theorem isZero_num :
  IsZero (.num 0)
  := ⟨rfl, fun _ => rfl, trivial⟩

theorem IsZero.preserves (hz : IsZero z) :
  Preserves (.num 0) z
  := by
  apply Preserves.of_intVal
  rintro s ⟨⟩
  exact ⟨rfl, hz.sort, hz.intVal⟩

/-- What formatting makes of arguments. -/
theorem binaryArgs (h : (binaryAll l).mapM id = some es)
    (ih : ∀ a ∈ l, ∀ b, binary a = some b →
      Preserves (withoutLowest converted a) (withoutLowest converted b)) :
  List.Forall₂ Preserves (l.map (withoutLowest converted)) (es.map (withoutLowest converted))
  := by
  rw [binaryAll_eq, List.mapM_map] at h
  rw [List.forall₂_map_left_iff, List.forall₂_map_right_iff]
  apply forall₂_of_mapM h ih

/-- What formatting returns means what the expression does. -/
theorem binary_preserves (hlin : Linear a) (h : binary a = some b) :
  Preserves (withoutLowest converted a) (withoutLowest converted b)
  := by
  induction a generalizing b with
  | num n =>
      cases h
      exact .refl _
  | var x =>
      cases h
      exact .refl _
  | app o l ih =>
      obtain ⟨hmul, hargs⟩ := linear_app.mp hlin
      have ih : ∀ a ∈ l, ∀ b, binary a = some b →
          Preserves (withoutLowest converted a) (withoutLowest converted b) :=
        fun a ha b hb => ih a ha (hargs a ha) hb
      rw [binary] at h
      split at h
      · cases h
        exact .refl _
      · next f hkind =>
          obtain ⟨ho, -, hpres⟩ := nest_spec hkind
          obtain ⟨c, es, hes, rfl⟩ := binaryNest_spec.mp h
          have hall := binaryArgs hes ih
          rw [withoutLowest_app ho, withoutLowest_nest ho]
          apply (Preserves.app o hall).trans
          apply hpres
          have hlength := hall.length_eq
          simp only [List.length_map, List.length_cons] at hlength
          rw [List.length_map, hlength]
      · next f hkind =>
          obtain ⟨ho, -⟩ := fixed_spec hkind
          obtain ⟨es, hes, rfl⟩ := Option.map_eq_some_iff.mp h
          rw [withoutLowest_app ho, withoutLowest_app ho]
          exact .app o (binaryArgs hes ih)
      · next hkind =>
          obtain rfl := kind_eq_mul.mp hkind
          obtain ⟨⟨n, arg⟩, hfactors, h⟩ := Option.bind_eq_some_iff.mp h
          rw [binaryAll_eq] at hfactors
          obtain ⟨a, ha, hn, rfl, hl⟩ := factors_linear (hmul rfl) hfactors
          obtain ⟨b, hb, rfl⟩ := multiple_spec h
          rw [withoutLowest_product]
          exact preserves_mul isZero_num hn hl fun hcopies => ih a ha b (hb hcopies)
      · cases h

/-- The text of a numeral. -/
theorem numeralText_lowest
    (harg : converted = .ADDSUB → ∃ x : Var, arg0 = .var x ∧ x.sort = .int)
    (h : numeralText converted arg0 n = some t) :
  ∃ e, t.read = some e ∧ Preserves (withoutLowest converted (.num n)) e
  := by
  by_cases hraw : converted = .TENSONLY ∨ converted = .ITEWOADDSUB
  · rw [numeralText, if_pos hraw] at h
    cases h
    rw [withoutLowest, if_pos hraw]
    exact ⟨.num n, rfl, .refl _⟩
  · have hrange : InRange n := by
      by_contra hrange
      rw [numeralText, if_neg hraw, parseInt, if_neg hrange] at h
      cases h
    rw [withoutLowest, if_neg hraw]
    by_cases hlow : n = -2 ^ 31
    · obtain ⟨z, hz, hzero⟩ := read_zeroText harg
      have htext : t = zeroText converted arg0 := by
        subst hlow
        rw [numeralText, if_neg hraw] at h
        apply (Option.some.inj h).symm
      rw [htext, lowest, if_pos hlow]
      exact ⟨z, hz, hzero.preserves⟩
    · have hlt : -2 ^ 31 < n := lt_of_le_of_ne hrange.1 (Ne.symm hlow)
      obtain ⟨t', ht', e, he, hreads⟩ := numeralText_spec harg (.inr (.inr ⟨hlt, hrange.2⟩))
      obtain rfl := Option.some.inj (ht'.symm.trans h)
      rw [lowest, if_neg hlow]
      exact ⟨e, he, hreads.preserves⟩

end Lowest

/-! ### The texts in the cache -/

/-- The cache after texts have been put for the expressions `h`: the complete texts can be read,
with zero for the least `int`, and the others cannot be read. -/
structure Records (converted : ConvertMethod) (h : List Expr) (cache : Cache) : Prop where
  readable (e : Expr) : (∃ r, (cache.get (some e)).read = some r) ↔ Complete lookups h e
  preserves {e r : Expr} : (cache.get (some e)).read = some r →
    Preserves (withoutLowest converted e) r

section Records

variable {converted : ConvertMethod} {arg0 a e : Expr} {o : Op} {f : String} {es l : List Expr}
variable {new : Option Expr} {news : List (Option Expr)} {cache cache' : Cache} {t : Text}
variable {h : List Expr}

theorem get_put_self :
  (cache.put e t).get (some e) = t
  := by
  rw [Cache.get, Cache.put, Function.update_self]
  rfl

theorem get_put_of_ne (hne : a ≠ e) :
  (cache.put e t).get (some a) = cache.get (some a)
  := by rw [Cache.get, Cache.get, Cache.put, Function.update_of_ne hne]

/-- At first there are no texts. -/
theorem Records.empty :
  Records converted [] fun _ => none
  := by
  constructor
  · intro e
    apply iff_of_false
    · rintro ⟨r, hr⟩
      cases hr
    · apply not_complete_nil
  · intro e r hr
    cases hr

/-- A text is put. -/
theorem Records.put (hrec : Records converted h cache)
    (hread : (∃ r, t.read = some r) ↔ ∃ l, lookups e = some l ∧ ∀ a ∈ l, Complete lookups h a)
    (hpres : ∀ r, t.read = some r → Preserves (withoutLowest converted e) r) :
  Records converted (h ++ [e]) (cache.put e t)
  := by
  constructor
  · intro a
    by_cases hae : a = e
    · rw [hae, get_put_self, complete_put, hread]
    · rw [get_put_of_ne hae, complete_put_of_ne hae, hrec.readable]
  · intro a r hr
    by_cases hae : a = e
    · rw [hae, get_put_self] at hr
      rw [hae]
      apply hpres r hr
    · rw [get_put_of_ne hae] at hr
      apply hrec.preserves hr

/-- The texts of a list of expressions. -/
theorem Records.texts (hrec : Records converted h cache) :
  (∃ es, (l.map fun a => cache.get (some a)).mapM Text.read = some es)
    ↔ ∀ a ∈ l, Complete lookups h a
  := by
  simp only [List.mapM_map, mapM_eq_some_iff, exists_forall₂]
  exact forall₂_congr fun a _ => hrec.readable a

theorem Records.preserves_texts (hrec : Records converted h cache)
    (hes : (l.map fun a => cache.get (some a)).mapM Text.read = some es) :
  List.Forall₂ Preserves (l.map (withoutLowest converted)) es
  := by
  rw [List.mapM_map] at hes
  rw [List.forall₂_map_left_iff]
  exact (mapM_eq_some_iff.mp hes).imp fun _ _ hr => hrec.preserves hr

/-- Connecting texts. -/
theorem formatNest_records (hkind : kind o l.length = .nest f) (hrec : Records converted h cache)
    (heq : formatNest f o l (l.map binary) cache = some (new, cache')) :
  new = binary (.app o l) ∧ Records converted (h ++ [.app o l]) cache'
  := by
  obtain ⟨ho, hf, hpres⟩ := nest_spec hkind
  have hlookups : lookups (.app o l) = some l := by
    rw [lookups, hkind]
  cases l with
  | nil => cases heq
  | cons a l =>
      obtain ⟨e, he, heq⟩ := Option.bind_eq_some_iff.mp heq
      cases heq
      constructor
      · simp only [binary, hkind, binaryAll_eq]
        apply (congrArg Option.join he).symm
      · apply hrec.put
        · simp only [hlookups, Option.some.injEq, exists_eq_left', ← hrec.texts, read_nest_iff hf]
          constructor
          · rintro ⟨r, b, es, hes, rfl⟩
            exact ⟨_, hes⟩
          · rintro ⟨es, hes⟩
            obtain ⟨b, bs, -, -, rfl⟩ := List.forall₂_cons_left_iff.mp (mapM_eq_some_iff.mp hes)
            exact ⟨_, b, bs, hes, rfl⟩
        · intro r hr
          obtain ⟨b, bs, hbs, rfl⟩ := (read_nest_iff hf).mp hr
          have hall := hrec.preserves_texts (l := a :: l) hbs
          rw [withoutLowest_app ho]
          apply (Preserves.app o hall).trans
          apply hpres
          simpa using hall.length_eq.symm

/-- The text of an application to a fixed number of arguments. -/
theorem formatFixed_records (hkind : kind o l.length = .fixed f)
    (hrec : Records converted h cache)
    (heq : formatFixed f o l (l.map binary) cache = some (new, cache')) :
  new = binary (.app o l) ∧ Records converted (h ++ [.app o l]) cache'
  := by
  obtain ⟨ho, hf⟩ := fixed_spec hkind
  have hlookups : lookups (.app o l) = some l := by
    rw [lookups, hkind]
  obtain ⟨es, hes, heq⟩ := Option.bind_eq_some_iff.mp heq
  cases heq
  constructor
  · simp only [binary, hkind, binaryAll_eq, hes]
    rfl
  · have hlength : ∀ {es : List Expr},
        (l.map fun a => cache.get (some a)).mapM Text.read = some es → es.length = l.length := by
      intro es hes
      simpa using (mapM_eq_some_iff.mp hes).length_eq.symm
    apply hrec.put
    · simp only [hlookups, Option.some.injEq, exists_eq_left', ← hrec.texts, read_list_iff]
      constructor
      · rintro ⟨r, es, hes, -⟩
        exact ⟨es, hes⟩
      · rintro ⟨es, hes⟩
        exact ⟨_, es, hes, hf es (hlength hes)⟩
    · intro r hr
      obtain ⟨es, hes, hread⟩ := read_list_iff.mp hr
      rw [hf es (hlength hes)] at hread
      cases hread
      rw [withoutLowest_app ho]
      exact .app o (hrec.preserves_texts hes)

/-- The text of a product. -/
theorem formatMul_records
    (harg : converted = .ADDSUB → ∃ x : Var, arg0 = .var x ∧ x.sort = .int)
    (hlin : Linear (.mul l)) (hrec : Records converted h cache)
    (heq : formatMul converted arg0 l (l.map binary) cache = some (new, cache')) :
  new = binary (.mul l) ∧ Records converted (h ++ [.mul l]) cache'
  := by
  obtain ⟨z, hz, hzero⟩ := read_zeroText harg
  obtain ⟨n, arg, hfactors, rfl, rfl⟩ := formatMul_eq heq
  obtain ⟨hmul, hargs⟩ := linear_app.mp hlin
  obtain ⟨a, ha, hn, rfl, hl⟩ := factors_linear (hmul rfl) hfactors
  have hkind : kind .mul l.length = .mul := kind_eq_mul.mpr rfl
  constructor
  · simp only [binary, hkind, binaryAll_eq, hfactors, Option.bind_some]
  · apply hrec.put
    · simp only [lookups, hkind, binaryAll_eq, hfactors, Option.bind_some, read_productText hz]
      by_cases hcopies : copies n = 0
      · rw [if_pos hcopies]
        apply iff_of_true ⟨_, z, absurd hcopies, rfl⟩ ⟨[], rfl, by simp⟩
      · rw [if_neg hcopies]
        cases hb : binary a with
        | none =>
            apply iff_of_false
            · rintro ⟨r, b, hr, -⟩
              cases hr hcopies
            · rintro ⟨l, hl, -⟩
              cases hl
        | some b =>
            have hreadable := hrec.readable b
            simpa [hcopies] using hreadable
    · intro r hr
      obtain ⟨b, hb, rfl⟩ := (read_productText hz).mp hr
      apply preserves_mul hzero hn hl
      intro hcopies
      have hread := hb hcopies
      cases hbinary : binary a with
      | none =>
          rw [hbinary] at hread
          cases hread
      | some c =>
          rw [hbinary] at hread
          apply (binary_preserves (hargs a ha) hbinary).trans (hrec.preserves hread)

/-- What formatting leaves behind: it returns the binary form of the expression, and it puts the
texts of the expressions in it. -/
structure Recorded (converted : ConvertMethod) (h : List Expr) (e : Expr) (new : Option Expr)
    (cache' : Cache) : Prop where
  new : new = binary e
  records : Records converted (h ++ visits e) cache'

/-- Formatting the arguments. -/
theorem formatAll_records
    (ih : ∀ e ∈ l, ∀ h cache new cache', Records converted h cache →
      formatFullCLIA converted arg0 e cache = some (new, cache') →
        Recorded converted h e new cache')
    (hrec : Records converted h cache)
    (heq : formatAll converted arg0 l cache = some (news, cache')) :
  news = l.map binary ∧ Records converted (h ++ visitsAll l) cache'
  := by
  induction l generalizing h cache news with
  | nil =>
      cases heq
      rw [visitsAll, List.append_nil]
      exact ⟨rfl, hrec⟩
  | cons e l ihl =>
      obtain ⟨he, hl⟩ := List.forall_mem_cons.mp ih
      simp only [formatAll, Option.bind_eq_bind, Option.bind_eq_some_iff] at heq
      obtain ⟨⟨new, cache₁⟩, hnew, ⟨news, cache₂⟩, hnews, heq⟩ := heq
      cases heq
      have hhead := he h cache new cache₁ hrec hnew
      obtain ⟨rfl, htail⟩ := ihl hl hhead.records hnews
      rw [visitsAll, ← List.append_assoc, List.map_cons, hhead.new]
      exact ⟨rfl, htail⟩

/-- A constant is printed as it is. -/
theorem recorded_const (hconst : isConst (.app o l) = true) (hrec : Records converted h cache) :
  Recorded converted h (.app o l) (some (.app o l)) (cache.put (.app o l) (.atom (.app o l)))
  := by
  have hkind := isConst_iff.mp hconst
  obtain ⟨ho, hnil⟩ := const_spec hkind
  obtain rfl := List.length_eq_zero_iff.mp hnil
  use by rw [binary, hkind]
  have hvisits : visits (.app o []) = [.app o []] := by
    rw [visits, hkind]
    rfl
  rw [hvisits]
  apply hrec.put
  · rw [lookups, hkind]
    apply iff_of_true ⟨_, rfl⟩ ⟨[], rfl, by simp⟩
  · rintro r ⟨⟩
    rw [withoutLowest_app ho]
    exact .refl _

/-- The text of an application from those of its arguments. -/
theorem formatApp_records
    (harg : converted = .ADDSUB → ∃ x : Var, arg0 = .var x ∧ x.sort = .int)
    (hlin : Linear (.app o l)) (hconst : kind o l.length ≠ .const)
    (hrec : Records converted (h ++ visitsAll l) cache)
    (heq : formatApp converted arg0 o l (l.map binary) cache = some (new, cache')) :
  Recorded converted h (.app o l) new cache'
  := by
  rw [formatApp_eq] at heq
  have hput : kind o l.length ≠ .none →
      new = binary (.app o l) ∧ Records converted (h ++ visitsAll l ++ [.app o l]) cache' →
      Recorded converted h (.app o l) new cache' := by
    rintro hnone ⟨hnew, hrec'⟩
    use hnew
    rw [visits, if_neg hnone, ← List.append_assoc]
    apply hrec'
  cases hkind : kind o l.length with
  | const => exact absurd hkind hconst
  | nest f =>
      rw [hkind] at heq
      apply hput (by simp [hkind]) (formatNest_records hkind hrec heq)
  | fixed f =>
      rw [hkind] at heq
      apply hput (by simp [hkind]) (formatFixed_records hkind hrec heq)
  | mul =>
      obtain rfl := kind_eq_mul.mp hkind
      rw [hkind] at heq
      apply hput (by simp [hkind]) (formatMul_records harg hlin hrec heq)
  | none =>
      rw [hkind] at heq
      cases heq
      use by rw [binary, hkind]
      rw [visits, if_pos hkind, List.append_nil]
      apply hrec

/-- Formatting an expression puts the texts of the expressions in it. -/
theorem formatFullCLIA_records
    (harg : converted = .ADDSUB → ∃ x : Var, arg0 = .var x ∧ x.sort = .int) (hlin : Linear e)
    (hrec : Records converted h cache)
    (heq : formatFullCLIA converted arg0 e cache = some (new, cache')) :
  Recorded converted h e new cache'
  := by
  induction e generalizing h cache new cache' with
  | num n =>
      obtain ⟨t, ht, heq⟩ := Option.bind_eq_some_iff.mp heq
      cases heq
      obtain ⟨e, he, hpres⟩ := numeralText_lowest harg ht
      use rfl
      apply hrec.put
      · simp [lookups, he]
      · intro r hr
        rw [he] at hr
        cases hr
        apply hpres
  | var x =>
      cases heq
      use rfl
      apply hrec.put
      · simp [lookups, Text.read]
      · rintro r ⟨⟩
        exact .refl _
  | app o l ih =>
      obtain ⟨hmul, hargs⟩ := linear_app.mp hlin
      rw [formatFullCLIA] at heq
      split at heq
      · next hconst =>
          cases heq
          apply recorded_const hconst hrec
      · next hconst =>
          simp only [Option.bind_eq_bind, Option.bind_eq_some_iff] at heq
          obtain ⟨⟨news, cache₁⟩, hnews, heq⟩ := heq
          obtain ⟨rfl, hrec₁⟩ := formatAll_records
            (fun e he h cache new cache' hrec heq => ih e he (hargs e he) hrec heq) hrec hnews
          apply formatApp_records harg hlin (mt isConst_iff.mpr hconst) hrec₁ heq

/-- The text in the cache is read as an expression with the same meaning. -/
def Parses (cache : Cache) (e : Expr) : Prop :=
  ∃ t r, cache e = some t ∧ t.read = some r ∧ Preserves e r

theorem parses_iff :
  Parses cache e ↔ ∃ r, (cache.get (some e)).read = some r ∧ Preserves e r
  := by
  constructor
  · rintro ⟨t, r, ht, hr, hpres⟩
    refine ⟨r, ?_, hpres⟩
    rw [Cache.get, ht]
    apply hr
  · rintro ⟨r, hr, hpres⟩
    cases ht : cache e with
    | none =>
        rw [Cache.get, ht] at hr
        cases hr
    | some t =>
        rw [Cache.get, ht] at hr
        exact ⟨t, r, ht, hr, hpres⟩

/-- The text means what the expression does if it is complete and if it makes no difference that
the least `int` is printed as zero. -/
theorem formatFullCLIA_parses
    (harg : converted = .ADDSUB → ∃ x : Var, arg0 = .var x ∧ x.sort = .int) (hlin : Linear e)
    (heq : formatFullCLIA converted arg0 e (fun _ => none) = some (new, cache)) :
  Parses cache e ↔ Found e ∧ Preserves e (withoutLowest converted e)
  := by
  have hrec := (formatFullCLIA_records harg hlin .empty heq).records
  rw [List.nil_append] at hrec
  rw [parses_iff, Found, ← hrec.readable]
  constructor
  · rintro ⟨r, hr, hpres⟩
    refine ⟨⟨r, hr⟩, hpres.of_trans (hrec.preserves hr) fun s hs => ?_⟩
    rw [sort_withoutLowest, hs]
  · rintro ⟨⟨r, hr⟩, hpres⟩
    exact ⟨r, hr, hpres.trans (hrec.preserves hr)⟩

end Records

/-! ### Printable expressions -/

section Printable

variable {converted : ConvertMethod} {e : Expr}

theorem Printable.linear (h : Printable converted e) :
  Linear e
  := by
  induction h with
  | num _ => exact trivial
  | @const e he =>
      cases e with
      | num n => cases he
      | var x => exact trivial
      | app o l =>
          obtain ⟨ho, hnil⟩ := const_spec (isConst_iff.mp he)
          obtain rfl := List.length_eq_zero_iff.mp hnil
          exact linear_app.mpr ⟨fun h => absurd h ho, by simp⟩
  | nest ho _ _ _ ih =>
      refine linear_app.mpr ⟨?_, ih⟩
      rintro rfl
      simp at ho
  | fixed ho _ ih =>
      refine linear_app.mpr ⟨?_, ih⟩
      rintro rfl
      simp [Format.fixed] at ho
  | mul hl _ _ _ _ ih =>
      refine linear_app.mpr ⟨fun _ => ⟨_, _, hl.imp_right And.left⟩, ?_⟩
      rcases hl with rfl | ⟨rfl, -⟩
      · simpa [Linear] using ih
      · simpa [Linear] using ih

/-- The texts that are looked up for a printable expression are there, and the least `int` makes no
difference. -/
theorem Printable.found (h : Printable converted e) :
  Found e ∧ Preserves e (withoutLowest converted e)
  := by
  have harg : converted = .ADDSUB → ∃ x : Var, Expr.var ⟨"x", .int⟩ = .var x ∧ x.sort = .int :=
    fun _ => ⟨_, rfl, rfl⟩
  have hempty : Cached fun _ => none := nofun
  obtain ⟨new, cache, heq, hformat⟩ := formatFullCLIA_spec harg h hempty
  apply (formatFullCLIA_parses harg h.linear heq).mp
  obtain ⟨r, hr, hreads⟩ := hformat.cached.get hformat.text
  apply parses_iff.mpr ⟨r, hr, hreads.preserves⟩

end Printable

end Sygus.Format
