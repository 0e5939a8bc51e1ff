import DryadSynth.Library.LIA.Eval

/-!
# Well-sorted expressions

The sort of an expression is defined only when it is well sorted, and then its values have that
sort.  An expression preserves the meaning of another one if it has its sort and its values.
Preservation is a congruence, and the laws of the connectives and of the comparisons are
instances of it.
-/

namespace LIA

/-- The sort of a comparison. -/
def compareSort (l : List (Option Srt)) : Option Srt :=
  if l = [some .int, some .int] then some .bool else none

/-- The sort of a binary operation on integers. -/
def combineSort (l : List (Option Srt)) : Option Srt :=
  if l = [some .int, some .int] then some .int else none

/-- The sort of a binary connective. -/
def connectSort (l : List (Option Srt)) : Option Srt :=
  if l = [some .bool, some .bool] then some .bool else none

/-- The sort of an operator on any number of arguments of sort `s`. -/
def listSort (s : Srt) (l : List (Option Srt)) : Option Srt :=
  if ∀ t ∈ l, t = some s then some s else none

/-- The sort of an equality. -/
def equalSort : List (Option Srt) → Option Srt
  | [some s, some t] => if s = t then some .bool else none
  | _ => none

/-- The sort of a conditional. -/
def chooseSort : List (Option Srt) → Option Srt
  | [some .bool, some s, some t] => if s = t then some s else none
  | _ => none

/-- The sort of an operator applied to arguments of given sorts. -/
def Op.sort (o : Op) (l : List (Option Srt)) : Option Srt :=
  match o with
  | add | sub | mul => listSort .int l
  | idiv | mod => combineSort l
  | ge | gt | le | lt => compareSort l
  | eq => equalSort l
  | not => if l = [some .bool] then some .bool else none
  | and | or => listSort .bool l
  | xor | implies => connectSort l
  | ite => chooseSort l
  | tru | fls => if l = [] then some .bool else none
  | func f => if l = f.domain.map some then some f.range else none

mutual

/-- The sort of a well-sorted expression. -/
def Expr.sort : Expr → Option Srt
  | .num _ => some .int
  | .var x => some x.sort
  | .app o args => o.sort (Expr.sorts args)

/-- The sorts of a list of expressions. -/
def Expr.sorts : List Expr → List (Option Srt)
  | [] => []
  | e :: l => e.sort :: Expr.sorts l

end

theorem Expr.sorts_eq (l : List Expr) :
  Expr.sorts l = l.map Expr.sort
  := by
  induction l with
  | nil => rfl
  | cons e l ih => rw [Expr.sorts, ih, List.map_cons]

theorem sort_app (o : Op) (args : List Expr) :
  (Expr.app o args).sort = o.sort (args.map Expr.sort)
  := by rw [Expr.sort, Expr.sorts_eq]

@[simp]
theorem sort_num (n : ℤ) :
  (Expr.num n).sort = some .int
  := rfl

@[simp]
theorem sort_var (x : Var) :
  (Expr.var x).sort = some x.sort
  := rfl

theorem listSort_eq_some {s t : Srt} {l : List Expr} :
  listSort s (l.map Expr.sort) = some t ↔ t = s ∧ ∀ e ∈ l, e.sort = some s
  := by
  unfold listSort
  simp only [List.forall_mem_map]
  split
  · next h =>
      rw [Option.some.injEq, eq_comm]
      apply (and_iff_left h).symm
  · next h => exact ⟨nofun, fun hl => absurd hl.2 h⟩

theorem compareSort_eq_some {t : Srt} {l : List (Option Srt)} :
  compareSort l = some t ↔ t = .bool ∧ l = [some .int, some .int]
  := by
  unfold compareSort
  split
  · next h => simp [h, eq_comm]
  · next h => simp [h]

theorem combineSort_eq_some {t : Srt} {l : List (Option Srt)} :
  combineSort l = some t ↔ t = .int ∧ l = [some .int, some .int]
  := by
  unfold combineSort
  split
  · next h => simp [h, eq_comm]
  · next h => simp [h]

theorem connectSort_eq_some {t : Srt} {l : List (Option Srt)} :
  connectSort l = some t ↔ t = .bool ∧ l = [some .bool, some .bool]
  := by
  unfold connectSort
  split
  · next h => simp [h, eq_comm]
  · next h => simp [h]

theorem equalSort_eq_some {t : Srt} {l : List (Option Srt)} :
  equalSort l = some t ↔ t = .bool ∧ ∃ s, l = [some s, some s]
  := by
  unfold equalSort
  split
  · next s s' =>
      split
      · next h => simp [h, eq_comm]
      · next h =>
          constructor
          · nofun
          · rintro ⟨-, r, hr⟩
            simp only [List.cons.injEq, Option.some.injEq] at hr
            apply absurd (hr.1.trans hr.2.1.symm) h
  · next h =>
      constructor
      · nofun
      · rintro ⟨-, s, rfl⟩
        apply absurd rfl (h s s)

theorem chooseSort_eq_some {t : Srt} {l : List (Option Srt)} :
  chooseSort l = some t ↔ l = [some .bool, some t, some t]
  := by
  unfold chooseSort
  split
  · next s s' =>
      split
      · next h => simp [h]
      · next h =>
          constructor
          · nofun
          · intro hl
            simp only [List.cons.injEq, Option.some.injEq, true_and] at hl
            apply absurd (hl.1.trans hl.2.1.symm) h
  · next h =>
      constructor
      · nofun
      · rintro rfl
        apply absurd rfl (h t t)

section Laws

variable {s : Srt} {a b c : Expr} {l : List Expr}

@[simp]
theorem sort_add :
  (Expr.add l).sort = some s ↔ s = .int ∧ ∀ e ∈ l, e.sort = some .int
  := by
  rw [sort_app, Op.sort, listSort_eq_some]

@[simp]
theorem sort_sub :
  (Expr.sub l).sort = some s ↔ s = .int ∧ ∀ e ∈ l, e.sort = some .int
  := by
  rw [sort_app, Op.sort, listSort_eq_some]

@[simp]
theorem sort_mul :
  (Expr.mul l).sort = some s ↔ s = .int ∧ ∀ e ∈ l, e.sort = some .int
  := by
  rw [sort_app, Op.sort, listSort_eq_some]

@[simp]
theorem sort_ge :
  (Expr.ge a b).sort = some s ↔ s = .bool ∧ a.sort = some .int ∧ b.sort = some .int
  := by
  rw [sort_app, Op.sort, compareSort_eq_some]
  simp

@[simp]
theorem sort_gt :
  (Expr.gt a b).sort = some s ↔ s = .bool ∧ a.sort = some .int ∧ b.sort = some .int
  := by
  rw [sort_app, Op.sort, compareSort_eq_some]
  simp

@[simp]
theorem sort_le :
  (Expr.le a b).sort = some s ↔ s = .bool ∧ a.sort = some .int ∧ b.sort = some .int
  := by
  rw [sort_app, Op.sort, compareSort_eq_some]
  simp

@[simp]
theorem sort_lt :
  (Expr.lt a b).sort = some s ↔ s = .bool ∧ a.sort = some .int ∧ b.sort = some .int
  := by
  rw [sort_app, Op.sort, compareSort_eq_some]
  simp

@[simp]
theorem sort_eq :
  (Expr.eq a b).sort = some s ↔ s = .bool ∧ ∃ t, a.sort = some t ∧ b.sort = some t
  := by
  rw [sort_app, Op.sort, equalSort_eq_some]
  simp

@[simp]
theorem sort_not :
  (Expr.not a).sort = some s ↔ s = .bool ∧ a.sort = some .bool
  := by
  rw [sort_app, Op.sort]
  split
  · next h =>
      have ha : a.sort = some .bool := by simpa using h
      simp [ha, eq_comm]
  · next h =>
      have ha : a.sort ≠ some .bool := by simpa using h
      simp [ha]

@[simp]
theorem sort_and :
  (Expr.and l).sort = some s ↔ s = .bool ∧ ∀ e ∈ l, e.sort = some .bool
  := by
  rw [sort_app, Op.sort, listSort_eq_some]

@[simp]
theorem sort_or :
  (Expr.or l).sort = some s ↔ s = .bool ∧ ∀ e ∈ l, e.sort = some .bool
  := by
  rw [sort_app, Op.sort, listSort_eq_some]

@[simp]
theorem sort_implies :
  (Expr.implies a b).sort = some s ↔ s = .bool ∧ a.sort = some .bool ∧ b.sort = some .bool
  := by
  rw [sort_app, Op.sort, connectSort_eq_some]
  simp

@[simp]
theorem sort_ite :
  (Expr.ite c a b).sort = some s ↔ c.sort = some .bool ∧ a.sort = some s ∧ b.sort = some s
  := by
  rw [sort_app, Op.sort, chooseSort_eq_some]
  simp

@[simp]
theorem sort_tru :
  Expr.tru.sort = some s ↔ s = .bool
  := by
  rw [sort_app]
  simp [Op.sort, eq_comm]

@[simp]
theorem sort_fls :
  Expr.fls.sort = some s ↔ s = .bool
  := by
  rw [sort_app]
  simp [Op.sort, eq_comm]

@[simp]
theorem sort_func {f : FuncDecl} :
  (Expr.func f l).sort = some s ↔ s = f.range ∧ l.map Expr.sort = f.domain.map some
  := by
  rw [sort_app, Op.sort]
  split
  · next h => simp [h, eq_comm]
  · next h => simp [h]

end Laws

/-- The arguments of a well-sorted application are well sorted. -/
theorem exists_sort_of_app {o : Op} {args : List Expr} {s : Srt}
    (h : (Expr.app o args).sort = some s) {e : Expr} (he : e ∈ args) :
  ∃ t, e.sort = some t
  := by
  have hmem : e.sort ∈ args.map Expr.sort := List.mem_map_of_mem he
  rw [sort_app] at h
  cases o with
  | add | sub | mul => exact ⟨_, (listSort_eq_some.mp h).2 e he⟩
  | and | or => exact ⟨_, (listSort_eq_some.mp h).2 e he⟩
  | ge | gt | le | lt =>
      rw [(compareSort_eq_some.mp h).2] at hmem
      use .int
      simpa using hmem
  | idiv | mod =>
      rw [(combineSort_eq_some.mp h).2] at hmem
      use .int
      simpa using hmem
  | xor | implies =>
      rw [(connectSort_eq_some.mp h).2] at hmem
      use .bool
      simpa using hmem
  | eq =>
      obtain ⟨-, t, ht⟩ := equalSort_eq_some.mp h
      rw [ht] at hmem
      use t
      simpa using hmem
  | ite =>
      rw [chooseSort_eq_some.mp h] at hmem
      simp only [List.mem_cons, List.not_mem_nil, or_false] at hmem
      rcases hmem with hmem | hmem | hmem
      · exact ⟨_, hmem⟩
      · exact ⟨_, hmem⟩
      · exact ⟨_, hmem⟩
  | not =>
      simp only [Op.sort] at h
      split at h
      · next hl =>
          rw [hl] at hmem
          use .bool
          simpa using hmem
      · cases h
  | tru | fls =>
      simp only [Op.sort] at h
      split at h
      · next hl => simp [hl] at hmem
      · cases h
  | func f =>
      simp only [Op.sort] at h
      split at h
      · next hl =>
          rw [hl] at hmem
          obtain ⟨t, -, ht⟩ := List.mem_map.mp hmem
          exact ⟨t, ht.symm⟩
      · cases h

theorem sort_compare (p : ℤ → ℤ → Bool) (l : List Value) :
  (compare p l).sort = .bool
  := by
  unfold compare
  split
  · rfl
  · rfl

theorem sort_combine (f : ℤ → ℤ → ℤ) (l : List Value) :
  (combine f l).sort = .int
  := by
  unfold combine
  split
  · rfl
  · rfl

theorem sort_connect (p : Bool → Bool → Bool) (l : List Value) :
  (connect p l).sort = .bool
  := by
  unfold connect
  split
  · rfl
  · rfl

theorem sort_equal (l : List Value) :
  (equal l).sort = .bool
  := by
  unfold equal
  split
  · rfl
  · rfl

theorem sort_negate (l : List Value) :
  (negate l).sort = .bool
  := by
  unfold negate
  split
  · rfl
  · rfl

theorem sort_subtract (l : List Value) :
  (subtract l).sort = .int
  := by
  unfold subtract
  split
  · rfl
  · rfl
  · rfl

/-- The values of a well-sorted expression have its sort. -/
theorem sort_eval {e : Expr} {s : Srt} (h : e.sort = some s) (M : Model) :
  (e.eval M).sort = s
  := by
  induction e generalizing s with
  | num n => simpa [Value.sort] using h
  | var x => simpa using h
  | app o args ih =>
      rw [sort_app] at h
      rw [eval_app]
      cases o with
      | add | mul => exact (listSort_eq_some.mp h).1.symm
      | sub => exact (sort_subtract _).trans (listSort_eq_some.mp h).1.symm
      | ge | gt | le | lt =>
          rw [(compareSort_eq_some.mp h).1, Op.apply]
          apply sort_compare
      | idiv | mod =>
          rw [(combineSort_eq_some.mp h).1, Op.apply]
          apply sort_combine
      | xor | implies =>
          rw [(connectSort_eq_some.mp h).1, Op.apply]
          apply sort_connect
      | eq => exact (sort_equal _).trans (equalSort_eq_some.mp h).1.symm
      | not =>
          simp only [Op.sort] at h
          split at h
          · apply (sort_negate _).trans (Option.some.inj h)
          · cases h
      | and | or => exact (listSort_eq_some.mp h).1.symm
      | ite =>
          have hl := chooseSort_eq_some.mp h
          have hlength : args.length = 3 := by simpa using congrArg List.length hl
          obtain ⟨c, a, b, rfl⟩ := List.length_eq_three.mp hlength
          simp only [List.map_cons, List.map_nil, List.cons.injEq, and_true] at hl
          change (if (c.eval M).toBool then a.eval M else b.eval M).sort = s
          split
          · apply ih a (by simp) hl.2.1
          · apply ih b (by simp) hl.2.2
      | tru | fls =>
          simp only [Op.sort] at h
          split at h
          · apply Option.some.inj h
          · cases h
      | func f =>
          simp only [Op.sort] at h
          split at h
          · apply (Value.sort_cast _ _).trans (Option.some.inj h)
          · cases h

section Values

variable {M M' : Model} {a b : Expr}

/-- A well-sorted expression of sort `Int` has the integer it denotes as its value. -/
theorem eval_of_int (h : a.sort = some .int) :
  a.eval M = .int (a.intVal M)
  := Value.eq_int (sort_eval h M)

theorem eval_eq_of_int (ha : a.sort = some .int) (hb : b.sort = some .int) :
  a.eval M = b.eval M' ↔ a.intVal M = b.intVal M'
  := by
  rw [eval_of_int ha, eval_of_int hb, Value.int.injEq]

theorem eval_eq_of_bool (ha : a.sort = some .bool) (hb : b.sort = some .bool) :
  a.eval M = b.eval M' ↔ (a.Holds M ↔ b.Holds M')
  := by
  rw [Value.eq_bool (sort_eval ha M), Value.eq_bool (sort_eval hb M'), Value.bool.injEq,
    Bool.eq_iff_iff]
  rfl

theorem holds_eq_of_int (ha : a.sort = some .int) (hb : b.sort = some .int) :
  (Expr.eq a b).Holds M ↔ a.intVal M = b.intVal M
  := by
  rw [holds_eq, eval_eq_of_int ha hb]

theorem holds_eq_of_bool (ha : a.sort = some .bool) (hb : b.sort = some .bool) :
  (Expr.eq a b).Holds M ↔ (a.Holds M ↔ b.Holds M)
  := by
  rw [holds_eq, eval_eq_of_bool ha hb]

end Values

/-! ### Preservation of meaning -/

/-- The expression `e'` preserves the meaning of `e`. -/
def Preserves (e e' : Expr) : Prop :=
  ∀ s, e.sort = some s → e'.sort = some s ∧ ∀ M, e'.eval M = e.eval M

namespace Preserves

variable {e e' e'' a b c a' b' : Expr} {l l' : List Expr}

theorem refl (e : Expr) :
  Preserves e e
  := fun _ hs => ⟨hs, fun _ => rfl⟩

theorem trans (h : Preserves e e') (h' : Preserves e' e'') :
  Preserves e e''
  := by
  intro s hs
  obtain ⟨hs', heval⟩ := h s hs
  obtain ⟨hs'', heval'⟩ := h' s hs'
  exact ⟨hs'', fun M => (heval' M).trans (heval M)⟩

/-- Two expressions of one sort, the second one of which means the same as what preserves the
first one. -/
theorem of_trans (h : Preserves e e'') (h' : Preserves e' e'')
    (hsort : ∀ s, e.sort = some s → e'.sort = some s) :
  Preserves e e'
  := by
  intro s hs
  obtain ⟨-, heval⟩ := h s hs
  obtain ⟨-, heval'⟩ := h' s (hsort s hs)
  exact ⟨hsort s hs, fun M => (heval' M).symm.trans (heval M)⟩

theorem holds (h : Preserves e e') (hs : e.sort = some .bool) (M : Model) :
  e'.Holds M ↔ e.Holds M
  := by
  rw [Expr.Holds, (h _ hs).2 M]
  rfl

theorem intVal (h : Preserves e e') (hs : e.sort = some .int) (M : Model) :
  e'.intVal M = e.intVal M
  := by
  rw [Expr.intVal, (h _ hs).2 M]
  rfl

theorem valid (h : Preserves e e') (hs : e.sort = some .bool) :
  e'.Valid ↔ e.Valid
  := forall_congr' (h.holds hs)

/-- For an expression that can only be a formula, it is enough to preserve its truth. -/
theorem of_holds
    (hbool : ∀ s, e.sort = some s → s = .bool ∧ e'.sort = some .bool ∧
      ∀ M, (e'.Holds M ↔ e.Holds M)) :
  Preserves e e'
  := by
  intro s hs
  obtain ⟨rfl, hs', hholds⟩ := hbool s hs
  exact ⟨hs', fun M => (eval_eq_of_bool hs' hs).mpr (hholds M)⟩

/-- An application to arguments that preserve the meaning of others. -/
theorem app (o : Op) (h : List.Forall₂ Preserves l l') :
  Preserves (.app o l) (.app o l')
  := by
  intro s hs
  have hargs : l'.map Expr.sort = l.map Expr.sort ∧
      ∀ M, l'.map (Expr.eval M) = l.map (Expr.eval M) := by
    have hsort := fun e he => exists_sort_of_app (e := e) hs he
    clear hs
    induction h with
    | nil => exact ⟨rfl, fun _ => rfl⟩
    | cons hhead htail ih =>
        obtain ⟨t, ht⟩ := hsort _ List.mem_cons_self
        obtain ⟨ht', heval⟩ := hhead t ht
        obtain ⟨hsorts, hevals⟩ := ih fun e he => hsort e (List.mem_cons_of_mem _ he)
        constructor
        · rw [List.map_cons, List.map_cons, hsorts, ht', ht]
        · intro M
          rw [List.map_cons, List.map_cons, hevals, heval]
  rw [sort_app, hargs.1, ← sort_app]
  use hs
  intro M
  rw [eval_app, eval_app, hargs.2]

theorem map {f : Expr → Expr} (o : Op) (h : ∀ e ∈ l, Preserves e (f e)) :
  Preserves (.app o l) (.app o (l.map f))
  := by
  apply app
  rw [List.forall₂_map_right_iff, List.forall₂_same]
  apply h

theorem not (h : Preserves a a') :
  Preserves (.not a) (.not a')
  := app .not (.cons h .nil)

theorem not_not :
  Preserves (.not (.not a)) a
  := by
  apply of_holds
  simp

theorem not_and :
  Preserves (.not (.and l)) (.or (l.map .not))
  := by
  apply of_holds
  simp

theorem not_or :
  Preserves (.not (.or l)) (.and (l.map .not))
  := by
  apply of_holds
  simp

theorem not_ge :
  Preserves (.not (.ge a b)) (.lt a b)
  := by
  apply of_holds
  simp

theorem not_gt :
  Preserves (.not (.gt a b)) (.le a b)
  := by
  apply of_holds
  simp

theorem not_lt :
  Preserves (.not (.lt a b)) (.ge a b)
  := by
  apply of_holds
  simp

theorem not_le :
  Preserves (.not (.le a b)) (.gt a b)
  := by
  apply of_holds
  simp

/-- Two integers are different if one is smaller. -/
theorem not_eq (ha : a.sort = some .int) :
  Preserves (.not (.eq a b)) (.or [.lt a b, .gt a b])
  := by
  apply of_holds
  intro s hs
  obtain ⟨rfl, -, t, hat, hbt⟩ : s = .bool ∧ Srt.bool = .bool ∧
      ∃ t, a.sort = some t ∧ b.sort = some t := by simpa using hs
  obtain rfl : t = .int := Option.some.inj (hat.symm.trans ha)
  refine ⟨rfl, by simp [hat, hbt], fun M => ?_⟩
  rw [holds_not, holds_eq_of_int hat hbt]
  simp [lt_or_lt_iff_ne]

theorem implies :
  Preserves (.implies a b) (.or [.not a, b])
  := by
  apply of_holds
  intro s hs
  obtain ⟨rfl, ha, hb⟩ := sort_implies.mp hs
  refine ⟨rfl, by simp [ha, hb], fun M => ?_⟩
  simp [imp_iff_not_or]

/-- A conditional between formulas. -/
theorem ite (ha : a.sort = some .bool) :
  Preserves (.ite c a b) (.and [.or [.not c, a], .or [c, b]])
  := by
  apply of_holds
  intro s hs
  obtain ⟨hc, has, hb⟩ := sort_ite.mp hs
  obtain rfl : s = .bool := Option.some.inj (has.symm.trans ha)
  refine ⟨rfl, by simp [hc, has, hb], fun M => ?_⟩
  rw [holds_ite]
  split
  · next h => simp [h]
  · next h => simp [h]

end Preserves

end LIA
