import DryadSynth.Enumerate.Algo

/-!
# Enumerators with a bounded memory

What `enumerate/algo2.rs`, `algo3.rs` and `algo4.rs` have in common.  Such an enumerator visits
points one after the other: sizes, or sizes with sets of atoms.  At a point its rules call
`try_insert`, whose calls of a filter are either stored for later points or generated again when
a later point needs them.  While a point is visited the rules read finished rows only, so their
calls of `try_insert` are a list computed from the bank at the beginning of the visit.
-/

namespace DryadSynth

variable {κ σ : Type} {N : ℕ}

/-! ### Calls of a filter -/

/-- A call of a filter with an expression and its vector, or what ends the run. -/
abbrev Item (N : ℕ) : Type := Except Fault (Expr × Bv N)

/-- What the closure of a loop does at each call; the end of the run is the end of the loop. -/
def eachCall (l : List (Item N)) (f : Expr × Bv N → List (Item N)) : List (Item N) :=
  l.flatMap fun item =>
    match item with
    | .ok p => f p
    | .error fault => [.error fault]

section Apply

variable (env : Environ)

/-- An operator of arity one and its vector operator. -/
def apply₁ (o : UnOp) (p₁ : Expr × Bv N) : Item N :=
  (env.evalUn o p₁.2).map fun v => (.un o p₁.1, v)

/-- An operator of arity two and its vector operator. -/
def apply₂ (o : BinOp) (p₁ p₂ : Expr × Bv N) : Item N :=
  (env.evalBin o p₁.2 p₂.2).map fun v => (.bin o p₁.1 p₂.1, v)

/-- The closure `f` of `for_each_subexpr`, and the end of the run when the walk fails. -/
def walkCalls (args : List (Bv N)) (e₁ : Expr) (f : Expr × Bv N → List (Item N)) :
    List (Item N) :=
  (e₁.forEachSubexpr env args).calls.flatMap f
    ++ match (e₁.forEachSubexpr env args).result with
      | .ok _ => []
      | .error fault => [.error fault]

end Apply

section Apply

variable {env : Environ} {l : List (Item N)} {g : Expr × Bv N → List (Item N)}
variable {p₁ p₂ : Expr × Bv N} {v : Bv N}

theorem mem_eachCall (h₁ : .ok p₁ ∈ l) {item : Item N} (h : item ∈ g p₁) :
  item ∈ eachCall l g
  := List.mem_flatMap.mpr ⟨.ok p₁, h₁, h⟩

theorem apply₁_eq {o : UnOp} (h : env.evalUn o p₁.2 = .ok v) :
  apply₁ env o p₁ = .ok (.un o p₁.1, v)
  := by
  rw [apply₁, h]
  rfl

theorem apply₂_eq {o : BinOp} (h : env.evalBin o p₁.2 p₂.2 = .ok v) :
  apply₂ env o p₁ p₂ = .ok (.bin o p₁.1 p₂.1, v)
  := by
  rw [apply₂, h]
  rfl

end Apply

/-! ### The bank -/

/-- The fields `exprs` and `map`: the rows that are stored, and the vectors that are known. -/
structure Bank (κ : Type) (N : ℕ) where
  exprs : List (κ × List (Expr × Bv N))
  map : List (Bv N × Option Expr)

namespace Bank

/-- The row of a point. -/
def row [DecidableEq κ] (b : Bank κ N) (p : κ) : List (Expr × Bv N) := (b.exprs.lookup p).getD []

/-- The test of `try_insert`: the vector is vacant, or it is the output. -/
def admits (b : Bank κ N) (v : Bv N) : Bool :=
  match b.map.lookup v with
  | none => true
  | some none => true
  | some (some _) => false

/-- The calls of a filter by `try_insert`, when nothing is remembered. -/
def passed (b : Bank κ N) (l : List (Item N)) : List (Item N) :=
  l.filter fun item =>
    match item with
    | .ok p => b.admits p.2
    | .error _ => true

end Bank

/-- An enumerator: the calls of `try_insert` at a point, whether `try_insert` remembers a vacant
vector there, and whether the calls of the filter are stored. -/
structure Enumerator (κ : Type) (N : ℕ) where
  offers : Bank κ N → κ → List (Item N)
  remembers : Bank κ N → κ → Bool
  stores : κ → Bool

/-! ### The run -/

/-- The closure that `run_until` calls, with a state of its own. -/
abbrev Filter (κ σ : Type) (N : ℕ) : Type :=
  Bank κ N → Expr → Bv N → ExceptT Unit (StateM σ) Unit

/-- A state of `run_until`: the bank, the row `cur` under construction, the state of the closure,
and the calls of the closure so far, the last one first. -/
structure Visit (κ σ : Type) (N : ℕ) where
  bank : Bank κ N
  cur : List (Expr × Bv N)
  user : σ
  calls : List (Expr × Bv N)

namespace Visit

variable (E : Enumerator κ N) (f : Filter κ σ N)

/-- The state after the closure is called with `e` and `v` and leaves the state `u`. -/
def log (s : Visit κ σ N) (e : Expr) (v : Bv N) (u : σ) : Visit κ σ N :=
  { s with user := u, calls := (e, v) :: s.calls }

/-- The call `f(algo, e, v)?`, after which the pair is pushed to a row that is stored. -/
def call (p : κ) (s : Visit κ σ N) (e : Expr) (v : Bv N) :
    Except (Halt × Visit κ σ N) (Visit κ σ N) :=
  match f s.bank e v s.user with
  | (.ok (), u) =>
      .ok { s.log e v u with cur := if E.stores p then s.cur ++ [(e, v)] else s.cur }
  | (.error (), u) => .error (.stopped, s.log e v u)

/-- The entry of a vacant vector. -/
def put (s : Visit κ σ N) (e : Expr) (v : Bv N) : Visit κ σ N :=
  { s with bank := { s.bank with map := (v, some e) :: s.bank.map } }

/-- `Algo::try_insert`, or the end of the run. -/
def tryInsert (p : κ) (s : Visit κ σ N) :
    Item N → Except (Halt × Visit κ σ N) (Visit κ σ N)
  | .error fault => .error (.fault fault, s)
  | .ok (e, v) =>
      match s.bank.map.lookup v with
      | none => call E f p (if E.remembers s.bank p then s.put e v else s) e v
      | some none => call E f p s e v
      | some (some _) => .ok s

/-- The row under construction is stored. -/
def finish (p : κ) (s : Visit κ σ N) : Visit κ σ N :=
  if E.stores p then
    { s with bank := { s.bank with exprs := s.bank.exprs ++ [(p, s.cur)] }, cur := [] }
  else { s with cur := [] }

/-- The visit of a point. -/
def visit (s : Visit κ σ N) (p : κ) : Except (Halt × Visit κ σ N) (Visit κ σ N) := do
  let s' ← Machine.run (tryInsert E f p) s (E.offers s.bank p)
  .ok (finish E p s')

/-- The visit of a list of points. -/
def visitAll (s : Visit κ σ N) (ps : List κ) : Except (Halt × Visit κ σ N) (Visit κ σ N) :=
  Machine.run (visit E f) s ps

/-- The state in which `run_until` begins. -/
def start (bank : Bank κ N) (u : σ) : Visit κ σ N := ⟨bank, [], u, []⟩

/-! ### What one call does -/

section Steps

variable {E f} {p : κ} {s s' : Visit κ σ N} {e : Expr} {v : Bv N} {item : Item N}

/-- The closure was called with the vector. -/
def Called (s : Visit κ σ N) (v : Bv N) : Prop := ∃ c ∈ s.calls, c.2 = v

/-- The state `s'` comes after `s`: the rows, the known vectors and the calls are still there. -/
structure Later (s s' : Visit κ σ N) : Prop where
  rows : s.bank.exprs <+: s'.bank.exprs
  map : ∀ v o, s.bank.map.lookup v = some o → s'.bank.map.lookup v = some o
  calls : s.calls ⊆ s'.calls

theorem Later.refl (s : Visit κ σ N) :
  Later s s
  := ⟨List.prefix_rfl, fun _ _ h => h, List.Subset.refl _⟩

theorem Later.trans {s₁ s₂ s₃ : Visit κ σ N} (h₁ : Later s₁ s₂) (h₂ : Later s₂ s₃) :
  Later s₁ s₃
  where
    rows := h₁.rows.trans h₂.rows
    map := fun v o h => h₂.map v o (h₁.map v o h)
    calls := List.Subset.trans h₁.calls h₂.calls

theorem Called.later (h : s.Called v) (hlater : Later s s') :
  s'.Called v
  := by
  obtain ⟨c, hc, hv⟩ := h
  use c, hlater.calls hc

/-- The state after a call of the closure that returns no error. -/
theorem call_eq_ok (h : call E f p s e v = .ok s') :
  ∃ u, s' = { s.log e v u with cur := if E.stores p then s.cur ++ [(e, v)] else s.cur }
  := by
  unfold call at h
  split at h
  · next u _ => exact ⟨u, (Except.ok.inj h).symm⟩
  · cases h

theorem lookup_cons_of_ne {α β : Type} [DecidableEq α] {a b : α} (h : a ≠ b) (c : β)
    (l : List (α × β)) :
  List.lookup a ((b, c) :: l) = l.lookup a
  := by
  rw [List.lookup_cons, beq_false_of_ne h]

/-- What `try_insert` does when it does not end the run: the vector is known, or the closure is
called with it, and it is remembered if it was vacant. -/
theorem tryInsert_eq_ok (h : tryInsert E f p s (.ok (e, v)) = .ok s') :
  (∃ e', s.bank.map.lookup v = some (some e') ∧ s' = s) ∨
    (∀ e', s.bank.map.lookup v ≠ some (some e')) ∧
      s'.bank.exprs = s.bank.exprs ∧ s'.calls = (e, v) :: s.calls ∧
      s'.cur = (if E.stores p then s.cur ++ [(e, v)] else s.cur) ∧
      (s'.bank.map = s.bank.map ∧ (E.remembers s.bank p = true → s.bank.map.lookup v = some none)
        ∨ E.remembers s.bank p = true ∧ s.bank.map.lookup v = none ∧
          s'.bank.map = (v, some e) :: s.bank.map)
  := by
  simp only [tryInsert] at h
  cases hv : s.bank.map.lookup v with
  | none =>
      rw [hv] at h
      right
      refine ⟨by simp, ?_⟩
      by_cases hr : E.remembers s.bank p = true
      · rw [if_pos hr] at h
        obtain ⟨u, rfl⟩ := call_eq_ok h
        exact ⟨rfl, rfl, rfl, Or.inr ⟨hr, rfl, rfl⟩⟩
      · rw [if_neg hr] at h
        obtain ⟨u, rfl⟩ := call_eq_ok h
        exact ⟨rfl, rfl, rfl, Or.inl ⟨rfl, fun hr' => absurd hr' hr⟩⟩
  | some o =>
      rw [hv] at h
      cases o with
      | none =>
          right
          refine ⟨by simp, ?_⟩
          obtain ⟨u, rfl⟩ := call_eq_ok h
          exact ⟨rfl, rfl, rfl, Or.inl ⟨rfl, fun _ => rfl⟩⟩
      | some e' => exact Or.inl ⟨e', rfl, (Except.ok.inj h).symm⟩

theorem later_tryInsert (h : tryInsert E f p s item = .ok s') :
  Later s s' ∧ s'.bank.exprs = s.bank.exprs
  := by
  cases item with
  | error fault => cases h
  | ok c =>
      rcases tryInsert_eq_ok h with ⟨-, -, rfl⟩ | ⟨-, hexprs, hcalls, -, hmap⟩
      · exact ⟨Later.refl s', rfl⟩
      · refine ⟨⟨hexprs ▸ List.prefix_rfl, ?_, ?_⟩, hexprs⟩
        · intro w o hw
          rcases hmap with ⟨hmap, -⟩ | ⟨-, hnone, hmap⟩
          · rw [hmap, hw]
          · have hne : w ≠ c.2 := by
              rintro rfl
              rw [hnone] at hw
              cases hw
            rw [hmap, lookup_cons_of_ne hne]
            apply hw
        · rw [hcalls]
          apply List.subset_cons_self _ _

end Steps

/-! ### What a visit does -/

section Visits

variable {E : Enumerator κ N} {f : Filter κ σ N} {p : κ} {ps : List κ}
variable {s s' : Visit κ σ N} {e : Expr} {v : Bv N} {item : Item N}

theorem later_run {l : List (Item N)} (h : Machine.run (Visit.tryInsert E f p) s l = .ok s') :
  Later s s' ∧ s'.bank.exprs = s.bank.exprs
  := by
  apply Machine.run_rel (R := fun s s' => Later s s' ∧ s'.bank.exprs = s.bank.exprs) _ _ _ h
  · intro s
    use Later.refl s
  · rintro s₁ s₂ s₃ ⟨h₁, hexprs₁⟩ ⟨h₂, hexprs₂⟩
    use h₁.trans h₂
    rw [hexprs₂, hexprs₁]
  · apply fun _ _ _ => later_tryInsert

/-- A visit executes the calls of `try_insert`, and then stores the row. -/
theorem visit_eq_ok (h : visit E f s p = .ok s') :
  ∃ s₁, Machine.run (Visit.tryInsert E f p) s (E.offers s.bank p) = .ok s₁ ∧ s' = finish E p s₁
  := by
  rw [visit] at h
  obtain ⟨s₁, h₁, h⟩ := bind_eq_ok.mp h
  exact ⟨s₁, h₁, (Except.ok.inj h).symm⟩

theorem calls_finish :
  (finish E p s).calls = s.calls
  := by
  rw [finish]
  split
  · rfl
  · rfl

theorem map_finish :
  (finish E p s).bank.map = s.bank.map
  := by
  rw [finish]
  split
  · rfl
  · rfl

theorem exprs_finish :
  (finish E p s).bank.exprs = s.bank.exprs ++ if E.stores p then [(p, s.cur)] else []
  := by
  rw [finish]
  split
  · rfl
  · rw [List.append_nil]

theorem cur_finish :
  (finish E p s).cur = []
  := by
  rw [finish]
  split
  · rfl
  · rfl

theorem later_finish (E : Enumerator κ N) (p : κ) (s : Visit κ σ N) :
  Later s (finish E p s)
  := by
  constructor
  · rw [exprs_finish]
    apply List.prefix_append
  · intro v o h
    rw [map_finish]
    apply h
  · rw [calls_finish]
    apply List.Subset.refl

theorem later_visit (h : visit E f s p = .ok s') :
  Later s s'
  := by
  obtain ⟨s₁, h₁, rfl⟩ := visit_eq_ok h
  apply (later_run h₁).1.trans (later_finish E p s₁)

/-- No offer of a visit that does not end the run is a fault. -/
theorem error_not_mem_of_visit (h : visit E f s p = .ok s') (fault : Fault) :
  .error fault ∉ E.offers s.bank p
  := by
  intro hmem
  obtain ⟨s₁, h₁, rfl⟩ := visit_eq_ok h
  obtain ⟨s₂, s₃, hstep⟩ := Machine.exists_of_run_eq_ok hmem h₁
  cases hstep

/-- The points of the rows. -/
def keys (s : Visit κ σ N) : List κ := s.bank.exprs.map Prod.fst

theorem keys_visit (h : visit E f s p = .ok s') :
  s'.keys = s.keys ++ if E.stores p then [p] else []
  := by
  obtain ⟨s₁, h₁, rfl⟩ := visit_eq_ok h
  rw [keys, exprs_finish, (later_run h₁).2, List.map_append, keys]
  split
  · rfl
  · rfl

/-- Nothing is pushed at a point that is not stored. -/
theorem cur_run {l : List (Item N)} (hstores : E.stores p = false)
    (h : Machine.run (Visit.tryInsert E f p) s l = .ok s') :
  s'.cur = s.cur
  := by
  apply Machine.run_rel (R := fun s s' => s'.cur = s.cur) (fun _ => rfl) _ _ h
  · intro s₁ s₂ s₃ h₁ h₂
    apply h₂.trans h₁
  · intro s₁ s₂ item h₁
    cases item with
    | error fault => cases h₁
    | ok c =>
        rcases tryInsert_eq_ok h₁ with ⟨-, -, rfl⟩ | ⟨-, -, -, hcur, -⟩
        · rfl
        · rw [hcur, hstores, if_neg Bool.false_ne_true]

/-- A point at which nothing is remembered or stored leaves the bank as it is. -/
theorem bank_visit (hstores : E.stores p = false)
    (hremembers : ∀ b : Bank κ N, b.exprs = s.bank.exprs → E.remembers b p = false)
    (h : Visit.visit E f s p = .ok s') :
  s'.bank = s.bank
  := by
  obtain ⟨s₁, h₁, rfl⟩ := visit_eq_ok h
  have hbank : s₁.bank = s.bank := by
    apply Machine.run_rel (R := fun s₁ s₂ : Visit κ σ N => s₁.bank = s.bank → s₂.bank = s.bank)
      (fun _ h => h) (fun _ _ _ h₁ h₂ h => h₂ (h₁ h)) _ h₁ rfl
    intro s₁ s₂ item h₁ hb
    cases item with
    | error fault => cases h₁
    | ok c =>
        rcases tryInsert_eq_ok h₁ with ⟨-, -, rfl⟩ | ⟨-, hexprs, -, -, ⟨hmap, -⟩ | ⟨hr, -⟩⟩
        · apply hb
        · rw [← hb]
          cases hs₁ : s₁.bank
          cases hs₂ : s₂.bank
          simp_all
        · rw [hremembers _ (by rw [hb])] at hr
          cases hr
  rw [finish, hstores]
  apply hbank

end Visits

/-! ### What is stored -/

section Rows

variable [DecidableEq κ] {E : Enumerator κ N} {f : Filter κ σ N} {p : κ} {ps : List κ}
variable {s s' : Visit κ σ N} {e : Expr} {v : Bv N} {item : Item N}

/-- The known vectors and the stored ones are vectors the closure was called with. -/
structure Sound (s : Visit κ σ N) : Prop where
  known : ∀ v e, s.bank.map.lookup v = some (some e) → s.Called v
  rows : ∀ p, ∀ x ∈ s.bank.row p, s.Called x.2
  cur : ∀ x ∈ s.cur, s.Called x.2

theorem Sound.tryInsert (hs : s.Sound) (h : tryInsert E f p s item = .ok s') :
  s'.Sound
  := by
  have hlater := (later_tryInsert h).1
  cases item with
  | error fault => cases h
  | ok c =>
      rcases tryInsert_eq_ok h with ⟨-, -, rfl⟩ | ⟨-, hexprs, hcalls, hcur, hmap⟩
      · apply hs
      · have hcalled : s'.Called c.2 := ⟨c, hcalls ▸ List.mem_cons_self, rfl⟩
        constructor
        · intro w e' hw
          rcases hmap with ⟨hmap, -⟩ | ⟨-, -, hmap⟩
          · rw [hmap] at hw
            apply (hs.known w e' hw).later hlater
          · by_cases hwc : w = c.2
            · rw [hwc]
              apply hcalled
            · rw [hmap, lookup_cons_of_ne hwc] at hw
              apply (hs.known w e' hw).later hlater
        · intro q x hx
          rw [Bank.row, hexprs] at hx
          apply (hs.rows q x hx).later hlater
        · intro x hx
          rw [hcur] at hx
          split at hx
          · rcases List.mem_append.mp hx with hx | hx
            · apply (hs.cur x hx).later hlater
            · rw [List.mem_singleton.mp hx]
              apply hcalled
          · apply (hs.cur x hx).later hlater

/-- After `try_insert` the closure was called with the vector. -/
theorem Sound.called_tryInsert (hs : s.Sound) (h : Visit.tryInsert E f p s (.ok (e, v)) = .ok s') :
  s'.Called v
  := by
  rcases tryInsert_eq_ok h with ⟨e', hv, rfl⟩ | ⟨-, -, hcalls, -⟩
  · apply hs.known v e' hv
  · exact ⟨(e, v), hcalls ▸ List.mem_cons_self, rfl⟩

theorem Sound.run {l : List (Item N)} (hs : s.Sound)
    (h : Machine.run (Visit.tryInsert E f p) s l = .ok s') :
  s'.Sound
  := by
  apply Machine.run_rel (R := fun s s' => s.Sound → s'.Sound) _ _ _ h hs
  · intro s h
    apply h
  · intro s₁ s₂ s₃ h₁ h₂ h
    apply h₂ (h₁ h)
  · intro s₁ s₂ item h₁ h
    apply h.tryInsert h₁

/-- The rows after the end of a visit. -/
theorem mem_row_finish {q : κ} {x : Expr × Bv N} (hx : x ∈ (finish E p s).bank.row q) :
  x ∈ s.bank.row q ∨ x ∈ s.cur
  := by
  rw [Bank.row, exprs_finish] at hx
  split at hx
  · rw [List.lookup_append] at hx
    cases hq : s.bank.exprs.lookup q with
    | some row =>
        left
        simpa [Bank.row, hq] using hx
    | none =>
        right
        rw [hq, Option.none_or, List.lookup_cons] at hx
        split at hx
        · apply hx
        · cases hx
  · left
    rwa [List.append_nil] at hx

theorem Sound.finish (hs : s.Sound) (E : Enumerator κ N) (p : κ) :
  (Visit.finish E p s).Sound
  := by
  have hlater := later_finish E p s
  constructor
  · intro v e h
    rw [map_finish] at h
    apply (hs.known v e h).later hlater
  · intro q x hx
    rcases mem_row_finish hx with hx | hx
    · apply (hs.rows q x hx).later hlater
    · apply (hs.cur x hx).later hlater
  · intro x hx
    rw [cur_finish] at hx
    cases hx

theorem Sound.visit (hs : s.Sound) (h : Visit.visit E f s p = .ok s') :
  s'.Sound
  := by
  obtain ⟨s₁, h₁, rfl⟩ := visit_eq_ok h
  apply (hs.run h₁).finish E p

theorem Sound.visitAll (hs : s.Sound) (h : Visit.visitAll E f s ps = .ok s') :
  s'.Sound
  := by
  apply Machine.run_rel (R := fun s s' => s.Sound → s'.Sound) _ _ _ h hs
  · intro s h
    apply h
  · intro s₁ s₂ s₃ h₁ h₂ h
    apply h₂ (h₁ h)
  · intro s₁ s₂ p h₁ h
    apply h.visit h₁

/-- The closure is called with every vector that is offered at a point. -/
theorem Sound.called_visit (hs : s.Sound) (h : Visit.visit E f s p = .ok s')
    (hmem : .ok (e, v) ∈ E.offers s.bank p) :
  s'.Called v
  := by
  obtain ⟨s₁, h₁, rfl⟩ := visit_eq_ok h
  have hcalled : s₁.Called v := by
    apply Machine.run_establishes (Q := Sound) _ _ _ hmem hs h₁
    · intro s₁ s₂ item h₁ h₂
      apply h₁.tryInsert h₂
    · intro s₁ s₂ h₁ h₂
      apply h₁.called_tryInsert h₂
    · intro s₁ s₂ item h₁ h₂
      apply h₁.later (later_tryInsert h₂).1
  apply hcalled.later (later_finish E p s₁)

theorem lookup_isSome_of_mem_keys (hp : p ∈ s.keys) :
  (s.bank.exprs.lookup p).isSome
  := by
  obtain ⟨x, hx, rfl⟩ := List.mem_map.mp hp
  rw [List.lookup_isSome_iff]
  exact ⟨x, hx, beq_self_eq_true _⟩

/-- The row of a point that is stored already stays as it is. -/
theorem Later.row (h : Later s s') (hp : p ∈ s.keys) :
  s'.bank.row p = s.bank.row p
  := by
  obtain ⟨l, hl⟩ := h.rows
  rw [Bank.row, Bank.row, ← hl, List.lookup_append,
    Option.or_of_isSome (lookup_isSome_of_mem_keys hp)]

/-- A vector is in some row. -/
def Stored (s : Visit κ σ N) (v : Bv N) : Prop := ∃ q, ∃ x ∈ s.bank.row q, x.2 = v

/-- A vector is known when it is stored, or in the row under construction. -/
def Kept (s : Visit κ σ N) : Prop :=
  ∀ v e, s.bank.map.lookup v = some (some e) → s.Stored v ∨ ∃ x ∈ s.cur, x.2 = v

theorem Kept.tryInsert (hs : s.Kept) (hstores : E.remembers s.bank p = true → E.stores p = true)
    (h : Visit.tryInsert E f p s item = .ok s') :
  s'.Kept
  := by
  cases item with
  | error fault => cases h
  | ok c =>
      rcases tryInsert_eq_ok h with ⟨-, -, rfl⟩ | ⟨-, hexprs, -, hcur, hmap⟩
      · apply hs
      · have hsub : ∀ x ∈ s.cur, x ∈ s'.cur := by
          intro x hx
          rw [hcur]
          split
          · apply List.mem_append_left _ hx
          · apply hx
        have hold : ∀ w e', s.bank.map.lookup w = some (some e') →
            s'.Stored w ∨ ∃ x ∈ s'.cur, x.2 = w := by
          intro w e' hw
          rcases hs w e' hw with ⟨q, x, hx, hxw⟩ | ⟨x, hx, hxw⟩
          · left
            use q, x
            rw [Bank.row, hexprs]
            exact ⟨hx, hxw⟩
          · apply Or.inr ⟨x, hsub x hx, hxw⟩
        intro w e' hw
        rcases hmap with ⟨hmap, -⟩ | ⟨hr, -, hmap⟩
        · rw [hmap] at hw
          apply hold w e' hw
        · by_cases hwc : w = c.2
          · right
            use c
            rw [hcur, if_pos (hstores hr)]
            exact ⟨List.mem_append_right _ (List.mem_singleton_self c), hwc.symm⟩
          · rw [hmap, lookup_cons_of_ne hwc] at hw
            apply hold w e' hw

theorem mem_keys_of_mem_row {x : Expr × Bv N} (hx : x ∈ s.bank.row p) :
  p ∈ s.keys
  := by
  rw [Bank.row] at hx
  cases hp : s.bank.exprs.lookup p with
  | none =>
      rw [hp] at hx
      cases hx
  | some row =>
      obtain ⟨l, l', hl, -⟩ := List.lookup_eq_some_iff.mp hp
      rw [keys, hl]
      simp

/-- What is stored stays stored. -/
theorem Later.mem_row (h : Later s s') {x : Expr × Bv N} (hx : x ∈ s.bank.row p) :
  x ∈ s'.bank.row p
  := by rwa [h.row (mem_keys_of_mem_row hx)]

theorem Stored.later (hv : s.Stored v) (h : Later s s') :
  s'.Stored v
  := by
  obtain ⟨q, x, hx, hxv⟩ := hv
  use q, x, h.mem_row hx

/-- The row of the point that has been visited. -/
theorem row_finish (hp : p ∉ s.keys) (hstores : E.stores p = true) :
  (finish E p s).bank.row p = s.cur
  := by
  have hnone : s.bank.exprs.lookup p = none := by
    rw [List.lookup_eq_none_iff]
    intro x hx
    rw [bne_iff_ne]
    rintro rfl
    apply hp (List.mem_map_of_mem hx)
  rw [Bank.row, exprs_finish, if_pos hstores, List.lookup_append, hnone, Option.none_or,
    List.lookup_cons, beq_self_eq_true]
  rfl

/-- A point at which what is remembered is stored keeps the known vectors stored. -/
theorem Kept.visit (hs : s.Kept) (hcur : s.cur = []) (hp : p ∉ s.keys)
    (hstores : ∀ b : Bank κ N, b.exprs = s.bank.exprs → E.remembers b p = true →
      E.stores p = true)
    (h : Visit.visit E f s p = .ok s') :
  s'.Kept
  := by
  obtain ⟨s₁, h₁, rfl⟩ := visit_eq_ok h
  have hkept : s₁.Kept := by
    have hrel := Machine.run_rel
      (R := fun s₁ s₂ : Visit κ σ N => s₁.bank.exprs = s.bank.exprs ∧ s₁.Kept →
        s₂.bank.exprs = s.bank.exprs ∧ s₂.Kept) (fun _ h => h)
      (fun _ _ _ h₁ h₂ h => h₂ (h₁ h)) ?_ h₁ ⟨rfl, hs⟩
    · apply hrel.2
    · rintro s₁ s₂ item h₁ ⟨hexprs, hk⟩
      exact ⟨(later_tryInsert h₁).2.trans hexprs, hk.tryInsert (hstores _ hexprs) h₁⟩
  have hkeys : s₁.keys = s.keys := by rw [keys, keys, (later_run h₁).2]
  intro v e hv
  left
  rw [map_finish] at hv
  rcases hkept v e hv with hv | ⟨x, hx, hxv⟩
  · apply hv.later (later_finish E p s₁)
  · cases hstore : E.stores p with
    | true =>
        use p, x
        rw [row_finish (hkeys ▸ hp) hstore]
        exact ⟨hx, hxv⟩
    | false =>
        rw [cur_run hstore h₁, hcur] at hx
        cases hx

/-- At a point that is stored, a vector that is offered is in the new row, or it is known. -/
theorem mem_row_or_known_of_visit (hp : p ∉ s.keys) (hstores : E.stores p = true)
    (h : Visit.visit E f s p = .ok s') (hmem : .ok (e, v) ∈ E.offers s.bank p) :
  (∃ x ∈ s'.bank.row p, x.2 = v) ∨ ∃ e', s'.bank.map.lookup v = some (some e')
  := by
  obtain ⟨s₁, h₁, rfl⟩ := visit_eq_ok h
  have hkeys : s₁.keys = s.keys := by rw [keys, keys, (later_run h₁).2]
  rw [row_finish (hkeys ▸ hp) hstores, map_finish]
  apply Machine.run_establishes (P := fun s : Visit κ σ N =>
    (∃ x ∈ s.cur, x.2 = v) ∨ ∃ e', s.bank.map.lookup v = some (some e')) (Q := fun _ => True)
    (fun _ _ _ _ _ => trivial) _ _ hmem trivial h₁
  · rintro s₁ s₂ - h₁
    rcases tryInsert_eq_ok h₁ with ⟨e', hv, rfl⟩ | ⟨-, -, -, hcur, -⟩
    · apply Or.inr ⟨e', hv⟩
    · left
      use (e, v)
      rw [hcur, if_pos hstores]
      exact ⟨List.mem_append_right _ (List.mem_singleton_self _), rfl⟩
  · rintro s₁ s₂ item (⟨x, hx, hxv⟩ | ⟨e', hv⟩) h₁
    · left
      use x
      cases item with
      | error fault => cases h₁
      | ok c =>
          rcases tryInsert_eq_ok h₁ with ⟨-, -, rfl⟩ | ⟨-, -, -, hcur, -⟩
          · exact ⟨hx, hxv⟩
          · rw [hcur, if_pos hstores]
            exact ⟨List.mem_append_left _ hx, hxv⟩
    · apply Or.inr ⟨e', (later_tryInsert h₁).1.map v _ hv⟩

end Rows

end Visit

end DryadSynth
