import DryadSynth.Dispatch.Format

/-!
# What a formatted text means

The text of a printable expression is read as an expression with the same meaning.  Formatting adds
no connectives to conditions, and it drops none but those of a single formula.
-/

namespace Sygus.Format

open LIA

/-! ### Connectives -/

/-- The expression has no conjunction, disjunction, negation or equality. -/
def Plain (e : Expr) : Prop :=
  e.every fun o _ => o ≠ .and ∧ o ≠ .or ∧ o ≠ .not ∧ o ≠ .eq

/-- No condition of a conditional in the expression has a conjunction, disjunction, negation or
equality. -/
def PlainConditions (e : Expr) : Prop :=
  e.every fun o l => o = .ite → ∀ c ∈ l.head?, Plain c

/-- The operator is printed as a connective: a conjunction or disjunction of one formula is printed
as this formula. -/
def Connects (o : Op) (l : List Expr) : Prop :=
  o = .not ∨ o = .eq ∨ ((o = .and ∨ o = .or) ∧ l.length ≠ 1)

/-- The expression is printed without connectives. -/
def Unconnected (e : Expr) : Prop := e.every fun o l => ¬ Connects o l

/-- The conditions in the expression are printed without connectives. -/
def UnconnectedConditions (e : Expr) : Prop :=
  e.every fun o l => o = .ite → ∀ c ∈ l.head?, Unconnected c

/-- The products in the expression are printed without connectives. -/
def UnconnectedProducts (e : Expr) : Prop :=
  e.every fun o l => o = .mul → ∀ a ∈ l, Unconnected a

section Connectives

variable {o : Op} {e a : Expr} {l : List Expr}

theorem plain_app :
  Plain (.app o l) ↔ (o ≠ .and ∧ o ≠ .or ∧ o ≠ .not ∧ o ≠ .eq) ∧ ∀ e ∈ l, Plain e
  := every_app

theorem plainConditions_app :
  PlainConditions (.app o l)
    ↔ (o = .ite → ∀ c ∈ l.head?, Plain c) ∧ ∀ e ∈ l, PlainConditions e
  := every_app

theorem unconnected_app :
  Unconnected (.app o l) ↔ ¬ Connects o l ∧ ∀ e ∈ l, Unconnected e
  := every_app

theorem unconnectedConditions_app :
  UnconnectedConditions (.app o l)
    ↔ (o = .ite → ∀ c ∈ l.head?, Unconnected c) ∧ ∀ e ∈ l, UnconnectedConditions e
  := every_app

theorem unconnectedProducts_app :
  UnconnectedProducts (.app o l)
    ↔ (o = .mul → ∀ a ∈ l, Unconnected a) ∧ ∀ e ∈ l, UnconnectedProducts e
  := every_app

theorem Plain.conditions (h : Plain e) :
  PlainConditions e
  := every_mono (fun _ _ _ hl _ c hc => hl c (List.mem_of_mem_head? hc)) h

theorem Unconnected.conditions (h : Unconnected e) :
  UnconnectedConditions e
  := every_mono (fun _ _ _ hl _ c hc => hl c (List.mem_of_mem_head? hc)) h

theorem Unconnected.products (h : Unconnected e) :
  UnconnectedProducts e
  := every_mono (fun _ _ _ hl _ => hl) h

theorem UnconnectedProducts.of_mem (h : UnconnectedProducts (.app o l)) (ha : a ∈ l) :
  UnconnectedProducts a
  := (unconnectedProducts_app.mp h).2 a ha

end Connectives

/-! ### What a text means -/

/-- The expression `e` is what the text printed for `k` is read as. -/
structure Reads (k e : Expr) : Prop where
  preserves : Preserves k e
  plain : UnconnectedProducts k → (Plain e ↔ Unconnected k)
  conditions : UnconnectedProducts k → (PlainConditions e ↔ UnconnectedConditions k)

/-- The text is read as an expression for `k`. -/
def Means (t : Text) (k : Expr) : Prop := ∃ e, t.read = some e ∧ Reads k e

section Reads

variable {o : Op} {f : String} {a e k z : Expr} {l es : List Expr} {t : Text} {ts : List Text}

/-- A text without connectives of an expression without connectives. -/
theorem Reads.of_plain (h : Preserves k e) (hk : UnconnectedProducts k → Unconnected k ∧ Plain e) :
  Reads k e
  := by
  use h
  · intro hprod
    obtain ⟨hk, he⟩ := hk hprod
    apply iff_of_true he hk
  · intro hprod
    obtain ⟨hk, he⟩ := hk hprod
    apply iff_of_true he.conditions hk.conditions

/-- If the arguments are read with a property then all of them have it together. -/
theorem forall_iff_of_reads {P Q : Expr → Prop} (h : List.Forall₂ Reads l es)
    (hPQ : ∀ k ∈ l, ∀ e, Reads k e → (P e ↔ Q k)) :
  (∀ e ∈ es, P e) ↔ ∀ k ∈ l, Q k
  := by
  induction h with
  | nil => simp
  | cons hke _ ih =>
      rw [List.forall_mem_cons, List.forall_mem_cons, hPQ _ List.mem_cons_self _ hke,
        ih fun k hk => hPQ k (List.mem_cons_of_mem _ hk)]

theorem forall₂_preserves (h : List.Forall₂ Reads l es) :
  List.Forall₂ Preserves l es
  := h.imp fun _ _ h => h.preserves

/-- An operator on a fixed number of arguments. -/
theorem Reads.fixed (ho : o ≠ .and ∧ o ≠ .or) (h : List.Forall₂ Reads l es) :
  Reads (.app o l) (.app o es)
  := by
  have hconnects : ∀ l, Connects o l ↔ o = .not ∨ o = .eq := by
    intro l
    rw [Connects]
    simp [ho]
  use Preserves.app o (forall₂_preserves h)
  · intro hprod
    rw [plain_app, unconnected_app, hconnects,
      forall_iff_of_reads h fun k hk e hke => hke.plain (hprod.of_mem hk)]
    apply and_congr_left'
    simp [ho]
  · intro hprod
    rw [plainConditions_app, unconnectedConditions_app,
      forall_iff_of_reads h fun k hk e hke => hke.conditions (hprod.of_mem hk)]
    apply and_congr_left'
    apply imp_congr_right
    intro _
    cases h with
    | nil => simp
    | cons hke _ => simpa using hke.plain (hprod.of_mem List.mem_cons_self)

/-- A conjunction, a disjunction, a sum or a difference. -/
theorem Reads.nest (ho : o = .and ∨ o = .or ∨ o = .add ∨ o = .sub)
    (hpres : Preserves (.app o (a :: es)) (LIA.nest o a es))
    (h : List.Forall₂ Reads (k :: l) (a :: es)) :
  Reads (.app o (k :: l)) (LIA.nest o a es)
  := by
  use (Preserves.app o (forall₂_preserves h)).trans hpres
  · intro hprod
    have hargs := forall_iff_of_reads h fun k hk e hke => hke.plain (hprod.of_mem hk)
    rw [unconnected_app, ← hargs]
    cases h with
    | cons _ htail =>
        cases htail with
        | nil =>
            have hone : ¬ Connects o [k] := by
              rcases ho with rfl | rfl | rfl | rfl <;> simp [Connects]
            simp [hone]
        | cons _ _ =>
            rcases ho with rfl | rfl | ho
            · apply iff_of_false
              · intro hplain
                have hpair := plain_app.mp (every_of_nest hplain)
                simp at hpair
              · simp [Connects]
            · apply iff_of_false
              · intro hplain
                have hpair := plain_app.mp (every_of_nest hplain)
                simp at hpair
              · simp [Connects]
            · have hmany : ∀ l, ¬ Connects o l := by
                rcases ho with rfl | rfl <;> simp [Connects]
              rw [and_iff_right (hmany _), List.forall_mem_cons]
              apply every_nest
              rcases ho with rfl | rfl <;> simp
  · intro hprod
    have hite : o ≠ .ite := by
      rcases ho with rfl | rfl | rfl | rfl <;> simp
    rw [unconnectedConditions_app,
      ← forall_iff_of_reads h fun k hk e hke => hke.conditions (hprod.of_mem hk),
      List.forall_mem_cons, PlainConditions, every_nest]
    · rw [and_iff_right fun hite' => absurd hite' hite]
      rfl
    · intro x y hite'
      apply absurd hite' hite

/-! ### Reading texts -/

theorem readAll_eq (h : List.Forall₂ (fun t e => t.read = some e) ts es) :
  Text.readAll ts = some es
  := by
  induction h with
  | nil => rfl
  | cons ht _ ih =>
      rw [Text.readAll, ht, ih]
      rfl

theorem read_list (h : List.Forall₂ (fun t e => t.read = some e) ts es) :
  (Text.list f ts).read = readApp f es
  := by
  rw [Text.read, readAll_eq h]
  rfl

/-- A nested text is read as the nested expression. -/
theorem read_nest (hf : ∀ x y, readApp f [x, y] = some (.app o [x, y])) (ht : t.read = some a)
    (h : List.Forall₂ (fun t e => t.read = some e) ts es) :
  (Text.nest f t ts).read = some (LIA.nest o a es)
  := by
  induction h generalizing t a with
  | nil => exact ht
  | @cons t' e ts es ht' h ih =>
      apply ih
      rw [read_list (.cons ht (.cons ht' .nil)), hf]

/-- The arguments and what their texts are read as. -/
theorem exists_reads (h : List.Forall₂ Means ts l) :
  ∃ es, List.Forall₂ (fun t e => t.read = some e) ts es ∧ List.Forall₂ Reads l es
  := by
  induction h with
  | nil => exact ⟨[], .nil, .nil⟩
  | @cons t k ts l ht _ ih =>
      obtain ⟨e, he, hke⟩ := ht
      obtain ⟨es, hes, hreads⟩ := ih
      exact ⟨e :: es, .cons he hes, .cons hke hreads⟩

/-- A text for a fixed number of arguments. -/
theorem Means.fixed (ho : o ≠ .and ∧ o ≠ .or)
    (hf : ∀ es : List Expr, es.length = l.length → readApp f es = some (.app o es))
    (h : List.Forall₂ Means ts l) :
  Means (.list f ts) (.app o l)
  := by
  obtain ⟨es, hes, hreads⟩ := exists_reads h
  use .app o es
  constructor
  · rw [read_list hes, hf es hreads.length_eq.symm]
  · apply Reads.fixed ho hreads

/-- A nested text. -/
theorem Means.nest (ho : o = .and ∨ o = .or ∨ o = .add ∨ o = .sub)
    (hf : ∀ x y, readApp f [x, y] = some (.app o [x, y]))
    (hpres : ∀ a (es : List Expr), es.length = l.length →
      Preserves (.app o (a :: es)) (LIA.nest o a es))
    (ht : Means t k) (h : List.Forall₂ Means ts l) :
  Means (.nest f t ts) (.app o (k :: l))
  := by
  obtain ⟨es, hes, hreads⟩ := exists_reads h
  obtain ⟨a, ha, hka⟩ := ht
  use LIA.nest o a es
  constructor
  · apply read_nest hf ha hes
  · apply Reads.nest ho
    · apply hpres a es hreads.length_eq.symm
    · exact .cons hka hreads

end Reads

/-! ### Numbers -/

section Numbers

variable {converted : ConvertMethod} {arg0 a e z : Expr} {x : Var} {n : ℤ} {m : ℕ} {M : Model}

theorem timesBelow_of_lt (hn : n < 0) (hlow : -2 ^ 31 < n) :
  (timesBelow n : ℤ) = -n
  := by
  have hmod : (-n).bmod (2 ^ 32) = -n := by
    apply Int.bmod_eq_of_le_mul_two
    · push_cast
      omega
    · push_cast
      omega
  rw [timesBelow, hmod, Int.toNat_of_nonneg (by omega)]

theorem parseInt_eq (hlow : -2 ^ 31 < n) (hhigh : n < 2 ^ 31) :
  parseInt n = some n
  := if_pos ⟨hlow.le, hhigh⟩

theorem intVal_nest_add_replicate :
  (nest .add a (.replicate m e)).intVal M = a.intVal M + m * e.intVal M
  := by rw [intVal_nest_add, List.map_replicate, List.sum_replicate, nsmul_eq_mul]

theorem intVal_nest_sub_replicate :
  (nest .sub a (.replicate m e)).intVal M = a.intVal M - m * e.intVal M
  := by rw [intVal_nest_sub, List.map_replicate, List.sum_replicate, nsmul_eq_mul]

/-- A nested sum or difference of equal numbers. -/
theorem sort_nest_replicate {o : Op} (ho : o = .add ∨ o = .sub) (ha : a.sort = some .int)
    (he : e.sort = some .int) :
  (nest o a (.replicate m e)).sort = some .int
  := by
  apply sort_nest _ ha
  · intro e' he'
    rw [List.eq_of_mem_replicate he', he]
  · intro x y hx hy
    rcases ho with rfl | rfl
    · simp [hx, hy]
    · simp [hx, hy]

theorem plain_nest_replicate {o : Op} (ho : o = .add ∨ o = .sub) (ha : Plain a) (he : Plain e) :
  Plain (nest o a (.replicate m e))
  := by
  apply (every_nest _).mpr
  · use ha
    intro e' he'
    rw [List.eq_of_mem_replicate he']
    apply he
  · rcases ho with rfl | rfl
    · simp
    · simp

/-- A nested text with equal texts. -/
theorem read_nest_replicate {o : Op} {f : String} {t t' : Text}
    (hf : ∀ x y, readApp f [x, y] = some (.app o [x, y])) (ht : t.read = some a)
    (ht' : t'.read = some e) :
  (Text.nest f t (.replicate m t')).read = some (nest o a (.replicate m e))
  := by
  apply read_nest hf ht
  induction m with
  | zero => exact .nil
  | succ m ih => exact .cons ht' ih

/-- The text for zero is read as an expression for zero. -/
structure IsZero (z : Expr) : Prop where
  sort : z.sort = some .int
  intVal : ∀ M, z.intVal M = 0
  plain : Plain z

/-- The text for zero, where the first argument of the function is an integer variable if it is
printed. -/
theorem read_zeroText (harg : converted = .ADDSUB → ∃ x : Var, arg0 = .var x ∧ x.sort = .int) :
  ∃ z, (zeroText converted arg0).read = some z ∧ IsZero z
  := by
  rw [zeroText]
  split
  · next h =>
      obtain ⟨x, rfl, hx⟩ := harg h
      use .sub [.var x, .var x], rfl
      constructor
      · simp [hx]
      · intro M
        rw [intVal_sub, sub_self]
      · apply plain_app.mpr ⟨by simp, by simp [Plain]⟩
  · use .num 0, rfl
    exact ⟨rfl, fun M => rfl, trivial⟩

/-- The text of a numeral. -/
theorem numeralText_spec (harg : converted = .ADDSUB → ∃ x : Var, arg0 = .var x ∧ x.sort = .int)
    (hn : converted = .TENSONLY ∨ converted = .ITEWOADDSUB ∨ (-2 ^ 31 < n ∧ n < 2 ^ 31)) :
  ∃ t, numeralText converted arg0 n = some t ∧ Means t (.num n)
  := by
  obtain ⟨z, hz, hzero⟩ := read_zeroText harg
  have hself : Means (.atom (.num n)) (.num n) := by
    use .num n, rfl
    exact .of_plain (.refl _) fun _ => ⟨trivial, trivial⟩
  have hof : ∀ (t : Text) (e : Expr), t.read = some e → e.sort = some .int →
      (∀ M, e.intVal M = n) → Plain e → Means t (.num n) := by
    intro t e ht hs hval hplain
    use e, ht
    apply Reads.of_plain
    · apply Preserves.of_intVal
      rintro s ⟨⟩
      exact ⟨rfl, hs, hval⟩
    · exact fun _ => ⟨trivial, hplain⟩
  rw [numeralText]
  split
  · exact ⟨_, rfl, hself⟩
  · next hconv =>
      rw [not_or] at hconv
      obtain ⟨hlow, hhigh⟩ : -2 ^ 31 < n ∧ n < 2 ^ 31 := by
        rcases hn with hn | hn | hn
        · apply absurd hn hconv.1
        · apply absurd hn hconv.2
        · apply hn
      simp only [parseInt_eq hlow hhigh, Option.bind_eq_bind, Option.bind_some]
      split
      · next htwo =>
          refine ⟨_, rfl, ?_⟩
          apply hof _ (nest .add (.num 1) (.replicate (n.toNat - 1) (.num 1)))
          · exact read_nest_replicate (fun x y => rfl) rfl rfl
          · apply sort_nest_replicate (.inl rfl) rfl rfl
          · intro M
            rw [intVal_nest_add_replicate, intVal_num]
            omega
          · exact plain_nest_replicate (.inl rfl) trivial trivial
      · split
        · next hneg =>
            refine ⟨_, rfl, ?_⟩
            apply hof _ (nest .sub z (.replicate (timesBelow n) (.num 1)))
            · exact read_nest_replicate (fun x y => rfl) hz rfl
            · apply sort_nest_replicate (.inr rfl) hzero.sort rfl
            · intro M
              rw [intVal_nest_sub_replicate, hzero.intVal, timesBelow_of_lt hneg hlow, intVal_num]
              ring
            · exact plain_nest_replicate (.inr rfl) hzero.plain trivial
        · split
          · next hn₀ =>
              refine ⟨_, rfl, ?_⟩
              apply hof _ z hz hzero.sort _ hzero.plain
              intro M
              rw [hzero.intVal, hn₀]
          · exact ⟨_, rfl, hself⟩

end Numbers

/-! ### Formatting an application -/

/-- All texts in the cache are read as expressions for their keys. -/
def Cached (cache : Cache) : Prop := ∀ k t, cache k = some t → Means t k

/-- The second cache has a text for every expression that the first one has a text for. -/
def Grows (cache cache' : Cache) : Prop := ∀ k, (cache k).isSome = true → (cache' k).isSome = true

/-- Formatting returns the expression itself: no product, and connectives, sums and differences of
two arguments only. -/
def Kept (e : Expr) : Prop :=
  e.every fun o l => o ≠ .mul ∧
    (o = .and ∨ o = .or ∨ o = .add ∨ o = .sub → l.length = 2)

/-- The operators on a fixed number of arguments. -/
def fixed : List (Op × ℕ) :=
  [(.not, 1), (.ite, 3), (.ge, 2), (.le, 2), (.gt, 2), (.lt, 2), (.eq, 2)]

/-- The expressions whose text means what they do.  A numeral other than the least `int` is
printed where it is a Java `int`, or as it is.  A product has two factors, one of them a numeral,
and formatting keeps the other one, whose text is looked up under the formatted expression. -/
inductive Printable (converted : ConvertMethod) : Expr → Prop where
  | num {n : ℤ} (hn : converted = .TENSONLY ∨ converted = .ITEWOADDSUB ∨
      (-2 ^ 31 < n ∧ n < 2 ^ 31)) : Printable converted (.num n)
  | const {e : Expr} (he : isConst e = true) : Printable converted e
  | nest {o : Op} {l : List Expr} (ho : o = .and ∨ o = .or ∨ o = .add ∨ o = .sub) (hl : l ≠ [])
      (hsub : o = .sub → l.length ≠ 1) (h : ∀ e ∈ l, Printable converted e) :
      Printable converted (.app o l)
  | fixed {o : Op} {l : List Expr} (ho : (o, l.length) ∈ fixed)
      (h : ∀ e ∈ l, Printable converted e) : Printable converted (.app o l)
  | mul {n : ℤ} {a : Expr} {l : List Expr}
      (hl : l = [.num n, a] ∨ (l = [a, .num n] ∧ ∀ m, a ≠ .num m))
      (hlow : -2 ^ 31 < n) (hhigh : n < 2 ^ 31) (ha : Printable converted a)
      (hkept : n = 0 ∨ Kept a) : Printable converted (.mul l)

/-- The result of formatting an expression, from a cache. -/
structure Formatted (cache : Cache) (e e' : Expr) (cache' : Cache) : Prop where
  cached : Cached cache'
  grows : Grows cache cache'
  text : (cache' e).isSome = true
  kept : Kept e → e' = e

section Application

variable {converted : ConvertMethod} {arg0 e e' a k : Expr} {o : Op} {f : String}
variable {args news l : List Expr} {cache cache' cache'' : Cache} {t : Text} {n : ℤ}

theorem Grows.refl (cache : Cache) :
  Grows cache cache
  := fun _ h => h

theorem Grows.trans (h : Grows cache cache') (h' : Grows cache' cache'') :
  Grows cache cache''
  := fun k hk => h' k (h k hk)

theorem Cached.put (h : Cached cache) (ht : Means t k) :
  Cached (cache.put k t)
  := by
  intro k' t' hk'
  by_cases hk : k' = k
  · subst hk
    rw [Cache.put, Function.update_self] at hk'
    cases hk'
    apply ht
  · rw [Cache.put, Function.update_of_ne hk] at hk'
    apply h k' t' hk'

theorem Formatted.put (h : Cached cache) (ht : Means t e) (hkept : Kept e → e' = e) :
  Formatted cache e e' (cache.put e t)
  := by
  constructor
  · apply h.put ht
  · intro k hk
    by_cases hke : k = e
    · rw [hke, Cache.put, Function.update_self]
      rfl
    · rw [Cache.put, Function.update_of_ne hke, hk]
  · rw [Cache.put, Function.update_self]
    rfl
  · apply hkept

theorem Cached.get (h : Cached cache) (he : (cache e).isSome = true) :
  Means (cache.get (some e)) e
  := by
  obtain ⟨t, ht⟩ := Option.isSome_iff_exists.mp he
  rw [Cache.get, ht]
  apply h e t ht

theorem Cached.texts (h : Cached cache) (hargs : ∀ e ∈ args, (cache e).isSome = true) :
  List.Forall₂ Means (args.map fun e => cache.get (some e)) args
  := by
  rw [List.forall₂_map_left_iff, List.forall₂_same]
  intro e he
  apply h.get (hargs e he)

theorem foldlM_mkBinary (o : Op) (a : Expr) (l : List Expr) :
  (l.map some).foldlM (mkBinary o) (some a) = some (some (LIA.nest o a l))
  := by
  induction l generalizing a with
  | nil => rfl
  | cons e l ih => exact ih (.app o [a, e])

theorem kept_app :
  Kept (.app o l) ↔ (o ≠ .mul ∧ (o = .and ∨ o = .or ∨ o = .add ∨ o = .sub → l.length = 2)) ∧
    ∀ e ∈ l, Kept e
  := every_app

/-- Arguments that are kept. -/
theorem eq_of_kept (h : List.Forall₂ (fun e e' => Kept e → e' = e) args news)
    (hkept : ∀ e ∈ args, Kept e) :
  news = args
  := by
  induction h with
  | nil => rfl
  | cons hnew _ ih =>
      obtain ⟨ha, hl⟩ := List.forall_mem_cons.mp hkept
      rw [hnew ha, ih hl]

/-- Connecting formatted arguments. -/
theorem formatNest_spec (ho : o = .and ∨ o = .or ∨ o = .add ∨ o = .sub)
    (hf : ∀ x y, readApp f [x, y] = some (.app o [x, y]))
    (hpres : ∀ a (es : List Expr), (a :: es).length = args.length →
      Preserves (.app o (a :: es)) (LIA.nest o a es))
    (hne : args ≠ []) (hc : Cached cache) (hargs : ∀ e ∈ args, (cache e).isSome = true)
    (hnews : List.Forall₂ (fun e e' => Kept e → e' = e) args news) :
  ∃ e' cache', formatNest f o args (news.map some) cache = some (some e', cache') ∧
    Formatted cache (.app o args) e' cache'
  := by
  have htexts := hc.texts hargs
  cases hnews with
  | nil => exact absurd rfl hne
  | @cons a new args news hnew hnews =>
      cases htexts with
      | cons ht hts =>
          have heq : formatNest f o (a :: args) ((new :: news).map some) cache
              = some (some (LIA.nest o new news), cache.put (.app o (a :: args))
                (.nest f (cache.get (some a)) (args.map fun e => cache.get (some e)))) := by
            simp only [formatNest, List.map_cons, foldlM_mkBinary]
            rfl
          refine ⟨_, _, heq, .put hc ?_ ?_⟩
          · apply Means.nest ho hf _ ht hts
            intro a' es hes
            apply hpres
            simp [hes]
          · intro hkept
            obtain ⟨⟨-, htwo⟩, hall⟩ := kept_app.mp hkept
            obtain ⟨ha, hall⟩ := List.forall_mem_cons.mp hall
            obtain ⟨b, rfl⟩ := List.length_eq_one_iff.mp (Nat.succ.inj (htwo ho))
            rw [eq_of_kept hnews hall, hnew ha]
            rfl

/-- An operator on a fixed number of formatted arguments. -/
theorem formatFixed_spec (ho : o ≠ .and ∧ o ≠ .or)
    (hf : ∀ es : List Expr, es.length = args.length → readApp f es = some (.app o es))
    (hc : Cached cache) (hargs : ∀ e ∈ args, (cache e).isSome = true)
    (hnews : List.Forall₂ (fun e e' => Kept e → e' = e) args news) :
  ∃ e' cache', formatFixed f o args (news.map some) cache = some (some e', cache') ∧
    Formatted cache (.app o args) e' cache'
  := by
  have hall : (news.map some).mapM id = some news := by
    clear hnews
    induction news with
    | nil => rfl
    | cons new news ih =>
        rw [List.map_cons, List.mapM_cons, ih]
        rfl
  have heq : formatFixed f o args (news.map some) cache = some (some (.app o news),
      cache.put (.app o args) (.list f (args.map fun e => cache.get (some e)))) := by
    rw [formatFixed, hall]
    rfl
  refine ⟨_, _, heq, .put hc ?_ ?_⟩
  · apply Means.fixed ho hf (hc.texts hargs)
  · intro hkept
    rw [eq_of_kept hnews (kept_app.mp hkept).2]

/-- The number and the other argument of a product of two factors. -/
theorem factors_eq (hl : args = [.num n, a] ∨ (args = [a, .num n] ∧ ∀ m, a ≠ .num m))
    (hlow : -2 ^ 31 < n) (hhigh : n < 2 ^ 31)
    (hnews : List.Forall₂ (fun e e' => Kept e → e' = e) args news) :
  ∃ new, factors args (news.map some) = some (n, some new) ∧ (Kept a → new = a)
  := by
  rcases hl with rfl | ⟨rfl, hne⟩
  · cases hnews with
    | cons _ hnews =>
        cases hnews with
        | @cons _ new _ _ hnew hnews =>
            cases hnews
            refine ⟨new, ?_, hnew⟩
            simp [factors, parseInt_eq hlow hhigh]
  · cases hnews with
    | @cons _ new _ _ hnew hnews =>
        cases hnews with
        | cons _ hnews =>
            cases hnews
            refine ⟨new, ?_, hnew⟩
            cases a with
            | num m => exact absurd rfl (hne m)
            | var x => simp [factors, parseInt_eq hlow hhigh]
            | app o l => simp [factors, parseInt_eq hlow hhigh]

/-- A product of two factors. -/
theorem intVal_factors (hl : args = [.num n, a] ∨ args = [a, .num n])
    (hs : (Expr.mul args).sort = some .int) :
  a.sort = some .int ∧ ∀ M, (Expr.mul args).intVal M = n * a.intVal M
  := by
  have hsort := (sort_mul.mp hs).2
  rcases hl with rfl | rfl
  · constructor
    · apply hsort a (by simp)
    · simp
  · constructor
    · apply hsort a (by simp)
    · simp [mul_comm]

/-- The text of a product of a number and an expression that is kept. -/
theorem formatMul_spec (harg : converted = .ADDSUB → ∃ x : Var, arg0 = .var x ∧ x.sort = .int)
    (hl : args = [.num n, a] ∨ (args = [a, .num n] ∧ ∀ m, a ≠ .num m)) (hlow : -2 ^ 31 < n)
    (hhigh : n < 2 ^ 31) (hkept : n = 0 ∨ Kept a) (hc : Cached cache)
    (hargs : ∀ e ∈ args, (cache e).isSome = true)
    (hnews : List.Forall₂ (fun e e' => Kept e → e' = e) args news) :
  ∃ e' cache', formatMul converted arg0 args (news.map some) cache = some (some e', cache') ∧
    Formatted cache (.mul args) e' cache'
  := by
  obtain ⟨z, hz, hzero⟩ := read_zeroText harg
  obtain ⟨new, hfactors, hnew⟩ := factors_eq hl hlow hhigh hnews
  have hl' : args = [.num n, a] ∨ args = [a, .num n] := hl.imp_right And.left
  have hmem : a ∈ args := by
    rcases hl' with rfl | rfl
    · simp
    · simp
  have hmeans : ∀ (t : Text) (e : Expr), t.read = some e →
      (a.sort = some .int → e.sort = some .int ∧ ∀ M, e.intVal M = n * a.intVal M) →
      (UnconnectedProducts (.mul args) → Plain e) → Means t (.mul args) := by
    intro t e ht hval hplain
    use e, ht
    apply Reads.of_plain
    · apply Preserves.of_intVal
      intro s hs
      obtain ⟨rfl, -⟩ := sort_mul.mp hs
      obtain ⟨ha, hprod⟩ := intVal_factors hl' hs
      obtain ⟨he, hval⟩ := hval ha
      exact ⟨rfl, he, fun M => (hval M).trans (hprod M).symm⟩
    · intro hprod
      constructor
      · apply unconnected_app.mpr
        constructor
        · simp [Connects]
        · apply (unconnectedProducts_app.mp hprod).1 rfl
      · apply hplain hprod
  have hnot : ∀ e' : Expr, Kept (.mul args) → e' = Expr.mul args :=
    fun e' h => absurd rfl (kept_app.mp h).1.1
  by_cases hn₀ : n = 0
  · have heq : formatMul converted arg0 args (news.map some) cache
        = some (some (.num 0), cache.put (.mul args) (zeroText converted arg0)) := by
      simp [formatMul, hfactors, hn₀]
    refine ⟨_, _, heq, .put hc ?_ (hnot _)⟩
    apply hmeans _ z hz
    · intro _
      exact ⟨hzero.sort, fun M => by rw [hzero.intVal, hn₀, zero_mul]⟩
    · exact fun _ => hzero.plain
  · obtain rfl : new = a := hnew (hkept.resolve_left hn₀)
    obtain ⟨e, he, hreads⟩ := hc.get (hargs new hmem)
    have hplain : UnconnectedProducts (.mul args) → Plain e := by
      intro hprod
      apply (hreads.plain (hprod.of_mem hmem)).mpr
      apply (unconnectedProducts_app.mp hprod).1 rfl new hmem
    rcases lt_or_gt_of_ne hn₀ with hneg | hpos
    · have heq : formatMul converted arg0 args (news.map some) cache
          = some (some (LIA.nest .sub (.num 0) (.replicate (timesBelow n) new)),
            cache.put (.mul args) (.nest "-" (zeroText converted arg0)
              (.replicate (timesBelow n) (cache.get (some new))))) := by
        have hfold := foldlM_mkBinary .sub (.num 0) (.replicate (timesBelow n) new)
        rw [List.map_replicate] at hfold
        simp [formatMul, hfactors, hn₀, not_lt_of_gt hneg, hfold]
      refine ⟨_, _, heq, .put hc ?_ (hnot _)⟩
      apply hmeans _ (LIA.nest .sub z (.replicate (timesBelow n) e))
      · exact read_nest_replicate (fun x y => rfl) hz he
      · intro ha
        obtain ⟨hes, -⟩ := hreads.preserves _ ha
        constructor
        · apply sort_nest_replicate (.inr rfl) hzero.sort hes
        · intro M
          rw [intVal_nest_sub_replicate, hzero.intVal, timesBelow_of_lt hneg hlow,
            hreads.preserves.intVal ha]
          ring
      · exact fun hprod => plain_nest_replicate (.inr rfl) hzero.plain (hplain hprod)
    · have heq : formatMul converted arg0 args (news.map some) cache
          = some (some (LIA.nest .add new (.replicate (n.toNat - 1) new)),
            cache.put (.mul args) (.nest "+" (cache.get (some new))
              (.replicate (n.toNat - 1) (cache.get (some new))))) := by
        have hfold := foldlM_mkBinary .add new (.replicate (n.toNat - 1) new)
        rw [List.map_replicate] at hfold
        simp [formatMul, hfactors, hn₀, hpos, hfold]
      refine ⟨_, _, heq, .put hc ?_ (hnot _)⟩
      apply hmeans _ (LIA.nest .add e (.replicate (n.toNat - 1) e))
      · exact read_nest_replicate (fun x y => rfl) he he
      · intro ha
        obtain ⟨hes, -⟩ := hreads.preserves _ ha
        constructor
        · apply sort_nest_replicate (.inl rfl) hes hes
        · intro M
          have hsub : ((n.toNat - 1 : ℕ) : ℤ) = n - 1 := by omega
          rw [intVal_nest_add_replicate, hsub, hreads.preserves.intVal ha]
          ring
      · exact fun hprod => plain_nest_replicate (.inl rfl) (hplain hprod) (hplain hprod)

/-- Formatting a list of expressions that can be formatted. -/
theorem formatAll_spec
    (h : ∀ e ∈ args, ∀ cache, Cached cache → ∃ e' cache',
      formatFullCLIA converted arg0 e cache = some (some e', cache') ∧ Formatted cache e e' cache')
    (hc : Cached cache) :
  ∃ news cache', formatAll converted arg0 args cache = some (news.map some, cache') ∧
    Cached cache' ∧ Grows cache cache' ∧ (∀ e ∈ args, (cache' e).isSome = true) ∧
    List.Forall₂ (fun e e' => Kept e → e' = e) args news
  := by
  induction args generalizing cache with
  | nil => exact ⟨[], cache, rfl, hc, .refl _, by simp, .nil⟩
  | cons e args ih =>
      obtain ⟨he, hargs⟩ := List.forall_mem_cons.mp h
      obtain ⟨e', cache₁, heq, hformat⟩ := he cache hc
      obtain ⟨news, cache₂, heqs, hcached, hgrows, htexts, hkept⟩ := ih hargs hformat.cached
      refine ⟨e' :: news, cache₂, ?_, hcached, hformat.grows.trans hgrows, ?_, ?_⟩
      · rw [formatAll, heq]
        simp [heqs]
      · exact List.forall_mem_cons.mpr ⟨hgrows e hformat.text, htexts⟩
      · exact .cons hformat.kept hkept

/-- The constants are printed without connectives. -/
theorem isConst_spec (h : isConst e = true) :
  Plain e ∧ Unconnected e
  := by
  unfold isConst at h
  split at h
  · exact ⟨trivial, trivial⟩
  · exact ⟨plain_app.mpr (by simp), unconnected_app.mpr (by simp [Connects])⟩
  · exact ⟨plain_app.mpr (by simp), unconnected_app.mpr (by simp [Connects])⟩
  · exact ⟨plain_app.mpr (by simp), unconnected_app.mpr (by simp [Connects])⟩
  · cases h

theorem isConst_eq_false (ho : o = .and ∨ o = .or ∨ o = .add ∨ o = .sub ∨ o = .mul ∨
    (o, l.length) ∈ fixed) :
  isConst (.app o l) = false
  := by
  unfold isConst
  split
  · next h => cases h
  · next h =>
      cases h
      simp [fixed] at ho
  · next h =>
      cases h
      simp [fixed] at ho
  · next h =>
      cases h
      simp [fixed] at ho
  · rfl

/-- Formatting an application whose arguments can be formatted. -/
theorem formatFullCLIA_app (hconst : isConst (.app o args) = false)
    (h : ∀ e ∈ args, ∀ cache, Cached cache → ∃ e' cache',
      formatFullCLIA converted arg0 e cache = some (some e', cache') ∧ Formatted cache e e' cache')
    (happ : ∀ news cache, Cached cache → (∀ e ∈ args, (cache e).isSome = true) →
      List.Forall₂ (fun e e' => Kept e → e' = e) args news →
      ∃ e' cache', formatApp converted arg0 o args (news.map some) cache = some (some e', cache') ∧
        Formatted cache (.app o args) e' cache')
    (hc : Cached cache) :
  ∃ e' cache', formatFullCLIA converted arg0 (.app o args) cache = some (some e', cache') ∧
    Formatted cache (.app o args) e' cache'
  := by
  obtain ⟨news, cache₁, heq, hc₁, hgrows, htexts, hnews⟩ := formatAll_spec h hc
  obtain ⟨e', cache₂, happ, hformat⟩ := happ news cache₁ hc₁ htexts hnews
  refine ⟨e', cache₂, ?_, hformat.cached, hgrows.trans hformat.grows, hformat.text, hformat.kept⟩
  simp [formatFullCLIA, hconst, heq, happ]

theorem formatFullCLIA_num
    (harg : converted = .ADDSUB → ∃ x : Var, arg0 = .var x ∧ x.sort = .int)
    (hn : converted = .TENSONLY ∨ converted = .ITEWOADDSUB ∨ (-2 ^ 31 < n ∧ n < 2 ^ 31))
    (hc : Cached cache) :
  ∃ e' cache', formatFullCLIA converted arg0 (.num n) cache = some (some e', cache') ∧
    Formatted cache (.num n) e' cache'
  := by
  obtain ⟨t, ht, hmeans⟩ := numeralText_spec harg hn
  refine ⟨.num n, _, ?_, .put hc hmeans fun _ => rfl⟩
  rw [formatFullCLIA, ht]
  rfl

/-- The names of the operators on a fixed number of arguments. -/
def fixedName : Op → String
  | .not => "not"
  | .ite => "ite"
  | .ge => ">="
  | .le => "<="
  | .gt => ">"
  | .lt => "<"
  | _ => "="

theorem readApp_fixed (h : (o, l.length) ∈ fixed) :
  readApp (fixedName o) l = some (.app o l)
  := by
  simp only [fixed, List.mem_cons, Prod.mk.injEq, List.not_mem_nil, or_false] at h
  rcases h with ⟨rfl, h⟩ | ⟨rfl, h⟩ | ⟨rfl, h⟩ | ⟨rfl, h⟩ | ⟨rfl, h⟩ | ⟨rfl, h⟩ | ⟨rfl, h⟩
  · obtain ⟨a, rfl⟩ := List.length_eq_one_iff.mp h
    rfl
  · obtain ⟨a, b, c, rfl⟩ := List.length_eq_three.mp h
    rfl
  all_goals
    obtain ⟨a, b, rfl⟩ := List.length_eq_two.mp h
    rfl

theorem formatApp_fixed (h : (o, l.length) ∈ fixed) (news : List (Option Expr)) :
  formatApp converted arg0 o l news cache = formatFixed (fixedName o) o l news cache
  := by
  simp only [fixed, List.mem_cons, Prod.mk.injEq, List.not_mem_nil, or_false] at h
  rcases h with ⟨rfl, h⟩ | ⟨rfl, h⟩ | ⟨rfl, h⟩ | ⟨rfl, h⟩ | ⟨rfl, h⟩ | ⟨rfl, h⟩ | ⟨rfl, h⟩
  · obtain ⟨a, rfl⟩ := List.length_eq_one_iff.mp h
    rfl
  · obtain ⟨a, b, c, rfl⟩ := List.length_eq_three.mp h
    rfl
  all_goals
    obtain ⟨a, b, rfl⟩ := List.length_eq_two.mp h
    rfl

/-- A printable expression is formatted, and its text is read as it. -/
theorem formatFullCLIA_spec
    (harg : converted = .ADDSUB → ∃ x : Var, arg0 = .var x ∧ x.sort = .int)
    (h : Printable converted e) (hc : Cached cache) :
  ∃ e' cache', formatFullCLIA converted arg0 e cache = some (some e', cache') ∧
    Formatted cache e e' cache'
  := by
  induction h generalizing cache with
  | @num n hn => exact formatFullCLIA_num harg hn hc
  | @const e he =>
      obtain ⟨hplain, hunconn⟩ := isConst_spec he
      have hmeans : Means (.atom e) e := by
        use e, rfl
        exact .of_plain (.refl _) fun _ => ⟨hunconn, hplain⟩
      refine ⟨e, _, ?_, .put hc hmeans fun _ => rfl⟩
      cases e with
      | num n => cases he
      | var x => rfl
      | app o l => rw [formatFullCLIA, if_pos he]
  | @nest o l ho hl hsub _ ih =>
      apply formatFullCLIA_app (isConst_eq_false (by tauto)) (fun e he cache hc => ih e he hc) _ hc
      intro news cache hc htexts hnews
      rcases ho with rfl | rfl | rfl | rfl
      · exact formatNest_spec (.inl rfl) (fun x y => rfl) (fun a es _ => preserves_nest_and) hl hc
          htexts hnews
      · exact formatNest_spec (.inr (.inl rfl)) (fun x y => rfl) (fun a es _ => preserves_nest_or)
          hl hc htexts hnews
      · exact formatNest_spec (.inr (.inr (.inl rfl))) (fun x y => rfl)
          (fun a es _ => preserves_nest_add) hl hc htexts hnews
      · have happ : formatApp converted arg0 .sub l (news.map some) cache
            = formatNest "-" .sub l (news.map some) cache := by
          unfold formatApp
          split
          all_goals simp_all
        rw [happ]
        apply formatNest_spec (.inr (.inr (.inr rfl))) (fun x y => rfl) _ hl hc htexts hnews
        intro a es hes
        apply preserves_nest_sub
        rintro rfl
        apply hsub rfl hes.symm
  | @fixed o l ho _ ih =>
      apply formatFullCLIA_app (isConst_eq_false (by tauto)) (fun e he cache hc => ih e he hc) _ hc
      intro news cache hc htexts hnews
      rw [formatApp_fixed ho]
      apply formatFixed_spec _ _ hc htexts hnews
      · constructor
        · rintro rfl
          simp [fixed] at ho
        · rintro rfl
          simp [fixed] at ho
      · intro es hes
        apply readApp_fixed
        rw [hes]
        apply ho
  | @mul n a l hl hlow hhigh ha hkept ih =>
      apply formatFullCLIA_app (isConst_eq_false (by tauto)) _ _ hc
      · intro e he cache hc
        have hmem : e = .num n ∨ e = a := by
          rcases hl with rfl | ⟨rfl, -⟩
          · simpa using he
          · simpa [or_comm] using he
        rcases hmem with rfl | rfl
        · apply formatFullCLIA_num harg (.inr (.inr ⟨hlow, hhigh⟩)) hc
        · apply ih hc
      · intro news cache hc htexts hnews
        apply formatMul_spec harg hl hlow hhigh hkept hc htexts hnews

end Application

end Sygus.Format
