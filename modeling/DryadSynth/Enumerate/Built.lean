import DryadSynth.Enumerate.Algo2
import DryadSynth.Enumerate.Bank
import DryadSynth.Enumerate.Diversity

/-!
# What the enumerators build

A property of expressions that the rules of a configuration preserve holds of all expressions that
an enumerator stores, keeps in its map or calls the closure with, whatever the closure does.  Where
`dag_size` is on, the operands may be sub-expressions of stored expressions, so the property must
pass to these.
-/

namespace DryadSynth

/-- A rule is for an operator of arity two. -/
def Config.HasBinary (config : Config) : Prop :=
  ∃ rule ∈ config, ∃ o, rule.generate = .op2Sym o ∨ rule.generate = .op2 o ∨
    rule.generate = .op2Nonzero o

/-- A property of expressions that the rules preserve. -/
structure Config.Preserves (config : Config) (dag : Bool) (P : Expr → Prop) : Prop where
  var : ∀ rule ∈ config, ∀ i, rule.generate = .var i → P (.var i)
  const : ∀ rule ∈ config, ∀ c, rule.generate = .const c → P (.const c)
  chatgpt : ∀ rule ∈ config, ∀ e v, rule.generate = .chatgpt e v → P e.convert
  un : ∀ rule ∈ config, ∀ o, rule.generate = .op1 o → ∀ e₁, P e₁ → P (.un o e₁)
  constant : ∀ rule ∈ config, ∀ o c, rule.generate = .op1Constant o c → ∀ e₁, P e₁ →
    P (.bin o e₁ (.const c))
  bin : ∀ rule ∈ config, ∀ o, rule.generate = .op2Sym o ∨ rule.generate = .op2 o ∨
    rule.generate = .op2Nonzero o → ∀ e₁ e₂, P e₁ → P e₂ → P (.bin o e₁ e₂)
  proper : dag = true → config.HasBinary → ∀ e, P e → ∀ e' ∈ e.proper, P e'

/-- The expressions of a map have a property. -/
def Entries {N : ℕ} (P : Expr → Prop) (map : List (Bv N × Option Expr)) : Prop :=
  ∀ p ∈ map, ∀ e, p.2 = some e → P e

section Entries

variable {N : ℕ} {P : Expr → Prop} {map : List (Bv N × Option Expr)} {e : Expr} {v : Bv N}

theorem Entries.cons (h : Entries P map) (he : P e) :
  Entries P ((v, some e) :: map)
  := by
  intro p hp e' he'
  rcases List.mem_cons.mp hp with rfl | hp
  · cases he'
    apply he
  · apply h p hp e' he'

theorem Entries.of_lookup (h : Entries P map) (hv : map.lookup v = some (some e)) :
  P e
  := by
  obtain ⟨l₁, l₂, rfl, -⟩ := List.lookup_eq_some_iff.mp hv
  apply h (v, some e) (by simp) e rfl

theorem entries_output (P : Expr → Prop) (output : Bv N) :
  Entries P [(output, none)]
  := by
  intro p hp e he
  obtain rfl := List.mem_singleton.mp hp
  cases he

end Entries

section Proper

variable {s t : Storage} {e e' e'' e₁ e₂ e₃ : ExprIn s}

namespace ExprIn

@[simp]
theorem mem_proper_un {o : UnOp} :
  e ∈ (ExprIn.un o e₁).proper ↔ e ∈ e₁.proper ∨ e = e₁
  := by simp [proper]

@[simp]
theorem mem_proper_bin {o : BinOp} :
  e ∈ (ExprIn.bin o e₁ e₂).proper ↔ (e ∈ e₁.proper ∨ e = e₁) ∨ e ∈ e₂.proper ∨ e = e₂
  := by simp [proper, or_assoc]

@[simp]
theorem mem_proper_ite :
  e ∈ (ExprIn.ite e₁ e₂ e₃).proper ↔
    (e ∈ e₁.proper ∨ e = e₁) ∨ (e ∈ e₂.proper ∨ e = e₂) ∨ e ∈ e₃.proper ∨ e = e₃
  := by simp [proper, or_assoc]

theorem mem_proper_trans (h : e ∈ e'.proper) (h' : e' ∈ e''.proper) :
  e ∈ e''.proper
  := by
  have hstep : ∀ {e₁ : ExprIn s}, (e' ∈ e₁.proper → e ∈ e₁.proper) →
      e' ∈ e₁.proper ∨ e' = e₁ → e ∈ e₁.proper ∨ e = e₁ := by
    rintro e₁ ih (h₁ | rfl)
    · exact .inl (ih h₁)
    · exact .inl h
  induction e'' with
  | un o e₁ ih =>
      rw [mem_proper_un] at h' ⊢
      apply hstep ih h'
  | bin o e₁ e₂ ih₁ ih₂ =>
      rw [mem_proper_bin] at h' ⊢
      apply h'.imp (hstep ih₁) (hstep ih₂)
  | ite e₁ e₂ e₃ ih₁ ih₂ ih₃ =>
      rw [mem_proper_ite] at h' ⊢
      apply h'.imp (hstep ih₁) (Or.imp (hstep ih₂) (hstep ih₃))
  | var i => cases h'
  | const c => cases h'

theorem proper_convert (e : ExprIn s) :
  (e.convert : ExprIn t).proper = e.proper.map convert
  := by
  induction e with
  | un o e₁ ih => simp [convert, proper, ih]
  | bin o e₁ e₂ ih₁ ih₂ => simp [convert, proper, ih₁, ih₂]
  | ite e₁ e₂ e₃ ih₁ ih₂ ih₃ => simp [convert, proper, ih₁, ih₂, ih₃]
  | var i => rfl
  | const c => rfl

end ExprIn

end Proper

/-- The walk over an expression calls its closure with proper sub-expressions. -/
theorem ExprIn.mem_proper_of_mem_forEachSubexpr {N : ℕ} {env : Environ} {args : List (Bv N)}
    {e : Expr} {p : Expr × Bv N} (h : p ∈ (e.forEachSubexpr env args).calls) :
  p.1 ∈ e.proper
  := by
  induction e with
  | un o e₁ ih =>
      rcases Walk.mem_visit_calls h with h | ⟨v₁, -, rfl | h⟩
      · simp [ih h]
      · simp
      · cases h
  | bin o e₁ e₂ ih₁ ih₂ =>
      rcases Walk.mem_visit_calls h with h | ⟨v₁, -, rfl | h⟩
      · simp [ih₁ h]
      · simp
      · rcases Walk.mem_visit_calls h with h | ⟨v₂, -, rfl | h⟩
        · simp [ih₂ h]
        · simp
        · cases h
  | ite e₁ e₂ e₃ => cases h
  | var i => cases harg : args[i]? <;> simp [forEachSubexpr, harg] at h
  | const c => cases h

/-! ### The enumerator that stores everything -/

section Algo

variable {N : ℕ} {σ : Type} {env : Environ} {config : Config} {dag : Bool} {P : Expr → Prop}
variable {algo : Algo N} {rule : Rule}

/-- An offer brings an expression that has the property. -/
def Offer.Has (P : Expr → Prop) (offer : Offer N) : Prop :=
  ∀ counted e v, offer = .insert counted e v → P e

theorem Offer.has_of {counted : Bool} {e : Expr} (he : P e) (r : Except Fault (Bv N)) :
  Offer.Has P (.of counted e r)
  := by
  intro counted' e' v hoffer
  cases r with
  | error fault => cases hoffer
  | ok w =>
      cases hoffer
      apply he

theorem Offer.has_insert₂ {counted : Bool} {o : BinOp} {p₁ p₂ : Expr × Bv N}
    (h : P (.bin o p₁.1 p₂.1)) :
  Offer.Has P (Algo.insert₂ env counted o p₁ p₂)
  := Offer.has_of h _

theorem Offer.has_fault (P : Expr → Prop) (fault : Fault) :
  Offer.Has P (.fault fault : Offer N)
  := nofun

namespace Algo

/-- All offers of a list bring expressions that have the property. -/
def AllHave (P : Expr → Prop) (l : List (Offer N)) : Prop := ∀ offer ∈ l, Offer.Has P offer

/-- The expressions of the finished rows have the property. -/
def RowsHave (P : Expr → Prop) (algo : Algo N) : Prop := ∀ i, ∀ p ∈ algo.row i, P p.1

theorem AllHave.append {l l' : List (Offer N)} (h : AllHave P l) (h' : AllHave P l') :
  AllHave P (l ++ l')
  := by
  intro offer hoffer
  rcases List.mem_append.mp hoffer with hoffer | hoffer
  · apply h offer hoffer
  · apply h' offer hoffer

theorem allHave_flatMap {α : Type} {l : List α} {f : α → List (Offer N)}
    (h : ∀ a ∈ l, AllHave P (f a)) :
  AllHave P (l.flatMap f)
  := by
  intro offer hoffer
  obtain ⟨a, ha, hoffer⟩ := List.mem_flatMap.mp hoffer
  apply h a ha offer hoffer

theorem allHave_map {α : Type} {l : List α} {f : α → Offer N} (h : ∀ a ∈ l, Offer.Has P (f a)) :
  AllHave P (l.map f)
  := by
  intro offer hoffer
  obtain ⟨a, ha, rfl⟩ := List.mem_map.mp hoffer
  apply h a ha

theorem allHave_nil (P : Expr → Prop) :
  AllHave P ([] : List (Offer N))
  := nofun

theorem allHave_singleton {offer : Offer N} (h : Offer.Has P offer) :
  AllHave P [offer]
  := by
  intro offer' hoffer
  obtain rfl := List.mem_singleton.mp hoffer
  apply h

/-- The operands of a walk are proper sub-expressions. -/
theorem allHave_offersOfWalk {e₁ : Expr} {f : Expr × Bv N → List (Offer N)}
    (h : ∀ p₂ : Expr × Bv N, p₂.1 ∈ e₁.proper → AllHave P (f p₂)) :
  AllHave P (algo.offersOfWalk env e₁ f)
  := by
  intro offer hoffer
  rcases mem_offersOfWalk hoffer with ⟨p₂, hp₂, hoffer⟩ | ⟨fault, -, rfl⟩
  · apply h p₂ (ExprIn.mem_proper_of_mem_forEachSubexpr hp₂) offer hoffer
  · apply Offer.has_fault

section Rules

variable (hP : config.Preserves dag P) (hdag : algo.dagSize = true → dag = true)
  (hrows : algo.RowsHave P)

include hP hdag hrows

theorem allHave_op2Sym (hbinary : config.HasBinary) {o : BinOp}
    (hbin : ∀ e₁ e₂, P e₁ → P e₂ → P (.bin o e₁ e₂)) :
  AllHave P (algo.op2Sym env o)
  := by
  apply AllHave.append
  · apply AllHave.append
    · apply allHave_flatMap
      intro i _
      apply allHave_flatMap
      intro p₁ hp₁
      apply allHave_map
      intro p₂ hp₂
      apply Offer.has_insert₂ (hbin _ _ (hrows _ p₁ hp₁) (hrows _ p₂ hp₂))
    · rw [op2SymMiddle]
      split_ifs
      · apply AllHave.append
        · apply allHave_map
          intro p hp
          obtain ⟨hp₁, hp₂⟩ := mem_of_mem_combinations hp
          apply Offer.has_insert₂ (hbin _ _ (hrows _ _ hp₁) (hrows _ _ hp₂))
        · apply allHave_map
          intro p₁ hp₁
          apply Offer.has_insert₂ (hbin _ _ (hrows _ p₁ hp₁) (hrows _ p₁ hp₁))
      · apply allHave_nil
  · rw [op2SymDag]
    split_ifs with hsize
    · have hdag := hdag (Bool.and_eq_true_iff.mp hsize).2
      apply allHave_flatMap
      intro p₁ hp₁
      have h₁ := hrows _ p₁ hp₁
      apply AllHave.append
      · apply allHave_offersOfWalk
        intro p₂ hp₂
        apply allHave_singleton
        apply Offer.has_insert₂ (hbin _ _ h₁ (hP.proper hdag hbinary _ h₁ _ hp₂))
      · apply allHave_singleton
        apply Offer.has_insert₂ (hbin _ _ h₁ h₁)
    · apply allHave_nil

theorem allHave_op2 (hbinary : config.HasBinary) {o : BinOp}
    (hbin : ∀ e₁ e₂, P e₁ → P e₂ → P (.bin o e₁ e₂)) :
  AllHave P (algo.op2 env rule o)
  := by
  rw [Algo.op2]
  split_ifs with hshift
  · rw [op2Shift]
    split_ifs
    · apply allHave_flatMap
      intro p₂ hp₂
      split_ifs
      · apply allHave_map
        intro p₁ hp₁
        apply Offer.has_insert₂ (hbin _ _ (hrows _ p₁ hp₁) (hrows _ p₂ hp₂))
      · apply allHave_nil
    · apply allHave_nil
  · apply AllHave.append
    · rw [op2Rows]
      split_ifs
      · apply allHave_flatMap
        intro i _
        apply allHave_flatMap
        intro p₂ hp₂
        apply allHave_map
        intro p₁ hp₁
        apply Offer.has_insert₂ (hbin _ _ (hrows _ p₁ hp₁) (hrows _ p₂ hp₂))
      · apply allHave_nil
    · rw [op2Dag]
      split_ifs with hsize
      · have hdag := hdag (Bool.and_eq_true_iff.mp hsize).2
        apply allHave_flatMap
        intro p₁ hp₁
        have h₁ := hrows _ p₁ hp₁
        apply AllHave.append
        · apply allHave_offersOfWalk
          intro p₂ hp₂
          have h₂ := hP.proper hdag hbinary _ h₁ _ hp₂
          intro offer hoffer
          rcases List.mem_pair.mp hoffer with rfl | rfl
          · apply Offer.has_insert₂ (hbin _ _ h₁ h₂)
          · apply Offer.has_insert₂ (hbin _ _ h₂ h₁)
        · apply allHave_singleton
          apply Offer.has_insert₂ (hbin _ _ h₁ h₁)
      · apply allHave_nil

theorem allHave_op2Nonzero (hbinary : config.HasBinary) {o : BinOp}
    (hbin : ∀ e₁ e₂, P e₁ → P e₂ → P (.bin o e₁ e₂)) :
  AllHave P (algo.op2Nonzero env rule o)
  := by
  have hguard : ∀ {counted : Bool} {p₁ p₂ : Expr × Bv N}, P p₁.1 → P p₂.1 →
      AllHave P (if p₂.2.anyEq Bv.zeros then [] else [insert₂ env counted o p₁ p₂]) := by
    intro counted p₁ p₂ h₁ h₂
    split_ifs
    · apply allHave_nil
    · apply allHave_singleton
      apply Offer.has_insert₂ (hbin _ _ h₁ h₂)
  apply AllHave.append
  · rw [op2NonzeroRows]
    split_ifs
    · apply allHave_flatMap
      intro i _
      apply allHave_flatMap
      intro p₁ hp₁
      apply allHave_flatMap
      intro p₂ hp₂
      apply hguard (hrows _ p₁ hp₁) (hrows _ p₂ hp₂)
    · apply allHave_nil
  · rw [op2NonzeroDag]
    split_ifs with hsize
    · have hdag := hdag (Bool.and_eq_true_iff.mp hsize).2
      apply allHave_flatMap
      intro p₁ hp₁
      have h₁ := hrows _ p₁ hp₁
      apply AllHave.append
      · apply allHave_offersOfWalk
        intro p₂ hp₂
        apply hguard h₁ (hP.proper hdag hbinary _ h₁ _ hp₂)
      · apply hguard h₁ h₁
    · apply allHave_nil

/-- Every rule of the configuration offers expressions that have the property. -/
theorem allHave_generate (hrule : rule ∈ config) :
  AllHave P (algo.generate env rule)
  := by
  rw [generate]
  split
  · next o ho =>
      apply allHave_map
      intro p₁ hp₁
      apply Offer.has_of (hP.un rule hrule o ho _ (hrows _ p₁ hp₁))
  · next o c ho =>
      apply allHave_map
      intro p₁ hp₁
      apply Offer.has_of
      apply hP.constant rule hrule o c ho _ (hrows _ p₁ hp₁)
  · next o ho =>
      have hbinary : config.HasBinary := ⟨rule, hrule, o, .inl ho⟩
      apply allHave_op2Sym hP hdag hrows hbinary (hP.bin rule hrule o (.inl ho))
  · next o ho =>
      have hbinary : config.HasBinary := ⟨rule, hrule, o, .inr (.inl ho)⟩
      apply allHave_op2 hP hdag hrows hbinary (hP.bin rule hrule o (.inr (.inl ho)))
  · next o ho =>
      have hbinary : config.HasBinary := ⟨rule, hrule, o, .inr (.inr ho)⟩
      apply allHave_op2Nonzero hP hdag hrows hbinary (hP.bin rule hrule o (.inr (.inr ho)))
  · next id hid =>
      rw [Algo.var]
      split_ifs
      · split
        · apply allHave_singleton
          rintro _ _ _ ⟨⟩
          apply hP.var rule hrule id hid
        · apply allHave_singleton
          apply Offer.has_fault
      · apply allHave_nil
  · next e v he =>
      rw [Algo.chatgpt]
      split_ifs
      · apply allHave_singleton
        apply Offer.has_of (hP.chatgpt rule hrule e v he)
      · apply allHave_nil
  · next c hc =>
      rw [Algo.const]
      split_ifs
      · apply allHave_singleton
        rintro _ _ _ ⟨⟩
        apply hP.const rule hrule c hc
      · apply allHave_nil
  · apply allHave_nil
  · apply allHave_singleton
    apply Offer.has_fault

end Rules

end Algo

/-- A closure that keeps its state as it should be, where it is called with expressions that have
the property. -/
def Callback.Keeps (P : Expr → Prop) (Q : σ → Prop) (f : Callback σ N) : Prop :=
  ∀ algo e v u, Entries P algo.map → P e → Q u → Q (f algo e v u).2

namespace Run

variable {Q : σ → Prop} {f : Callback σ N} {s : Run σ N} {e : Expr} {v : Bv N}

/-- What holds of a state of `run_until`: the stored expressions and those of the map have the
property, and the state of the closure is as it should be. -/
structure Built (config : Config) (dag : Bool) (P : Expr → Prop) (Q : σ → Prop) (s : Run σ N) :
    Prop where
  config_eq : s.algo.config = config
  dagSize : s.algo.dagSize = true → dag = true
  bank : ∀ p ∈ s.bank, P p.1
  map : Entries P s.algo.map
  user : Q s.user

theorem Built.tick (h : Built config dag P Q s) (counted : Bool) :
  Built config dag P Q (s.tick counted)
  := by
  cases counted with
  | false => apply h
  | true => exact ⟨h.config_eq, h.dagSize, h.bank, h.map, h.user⟩

theorem Built.finish (h : Built config dag P Q s) :
  Built config dag P Q s.finish
  where
    config_eq := h.config_eq
    dagSize := h.dagSize
    bank := by simpa using h.bank
    map := h.map
    user := h.user

theorem Built.put (h : Built config dag P Q s) (he : P e) :
  Built config dag P Q (s.put e v)
  := ⟨h.config_eq, h.dagSize, h.bank, h.map.cons he, h.user⟩

theorem Built.push (h : Built config dag P Q s) (he : P e) :
  Built config dag P Q (s.push e v)
  where
    config_eq := h.config_eq
    dagSize := h.dagSize
    bank := by
      intro p hp
      rw [bank_push] at hp
      rcases List.mem_append.mp hp with hp | hp
      · apply h.bank p hp
      · obtain rfl := List.mem_singleton.mp hp
        apply he
    map := h.map
    user := h.user

theorem Built.call
    (hf : f.Keeps P Q) (h : Built config dag P Q s) (he : P e) :
  Built config dag P Q (Machine.final (s.call f e v))
  := by
  have huser := hf s.algo e v s.user h.map he h.user
  unfold Run.call
  split
  · next u hu =>
      rw [hu] at huser
      exact ⟨h.config_eq, h.dagSize, h.bank, h.map, huser⟩
  · next u hu =>
      rw [hu] at huser
      exact ⟨h.config_eq, h.dagSize, h.bank, h.map, huser⟩

/-- An expansion of `insert!` with an expression that has the property. -/
theorem Built.insert
    (hf : f.Keeps P Q) (h : Built config dag P Q s) {offer : Offer N} (hoffer : Offer.Has P offer) :
  Built config dag P Q (Machine.final (s.insert f offer))
  := by
  cases offer with
  | fault fault => apply h
  | insert counted e v =>
      have he := hoffer counted e v rfl
      have htick := h.tick counted
      simp only [Run.insert]
      split
      · have hcall := (htick.put (v := v) he).call hf (v := v) he
        cases hs : ((s.tick counted).put e v).call f e v with
        | error r =>
            rw [hs] at hcall
            apply hcall
        | ok s₁ =>
            rw [hs] at hcall
            apply Built.push hcall he
      · apply htick.call hf he
      · apply htick

theorem Built.rowsHave (h : Built config dag P Q s) :
  s.algo.RowsHave P
  := by
  intro i p hp
  apply h.bank p (List.mem_append_left _ (Algo.stored_of_mem_row hp))

/-- In every state of `run_until` all expressions have the property. -/
theorem Reachable.built {env : Environ} {args : List (Bv N)} {output : Bv N} {dagSize : Bool}
    {u : σ} (hP : config.Preserves dag P) (hdag : dagSize = true → dag = true) (hf : f.Keeps P Q)
    (hu : Q u) (h : Reachable env f (Algo.new config args output dagSize) u s) :
  Built config dag P Q s
  := by
  apply Machine.Reachable.invariant (G := Offer.Has P) _ _ _ _ h
  · exact ⟨rfl, hdag, nofun, entries_output P output, hu⟩
  · intro s₀ hs₀ offer hoffer
    obtain ⟨rule, hrule, hoffer⟩ := List.mem_flatMap.mp hoffer
    rw [hs₀.config_eq] at hrule
    apply Algo.allHave_generate hP hs₀.dagSize hs₀.rowsHave hrule offer hoffer
  · intro s₀ offer hs₀ hoffer
    apply hs₀.insert hf hoffer
  · intro s₀ hs₀
    apply hs₀.finish

end Run

end Algo

/-! ### The enumerators with a bounded memory -/

section Items

variable {N : ℕ} {env : Environ} {args : List (Bv N)} {P : Expr → Prop} {l l' : List (Item N)}

/-- The expressions of the calls of a filter have the property. -/
def ItemsHave (P : Expr → Prop) (l : List (Item N)) : Prop := ∀ p, .ok p ∈ l → P p.1

theorem itemsHave_nil (P : Expr → Prop) :
  ItemsHave P ([] : List (Item N))
  := nofun

theorem itemsHave_error (P : Expr → Prop) (fault : Fault) :
  ItemsHave P ([.error fault] : List (Item N))
  := by
  intro p hp
  cases List.mem_singleton.mp hp

theorem itemsHave_singleton {e : Expr} {v : Bv N} (h : P e) :
  ItemsHave P [.ok (e, v)]
  := by
  intro p hp
  cases List.mem_singleton.mp hp
  apply h

theorem ItemsHave.append (h : ItemsHave P l) (h' : ItemsHave P l') :
  ItemsHave P (l ++ l')
  := by
  intro p hp
  rcases List.mem_append.mp hp with hp | hp
  · apply h p hp
  · apply h' p hp

theorem ItemsHave.cons {item : Item N} (h : ItemsHave P [item]) (h' : ItemsHave P l) :
  ItemsHave P (item :: l)
  := h.append h'

theorem itemsHave_flatMap {α : Type} {l : List α} {g : α → List (Item N)}
    (h : ∀ a ∈ l, ItemsHave P (g a)) :
  ItemsHave P (l.flatMap g)
  := by
  intro p hp
  obtain ⟨a, ha, hp⟩ := List.mem_flatMap.mp hp
  apply h a ha p hp

theorem itemsHave_rows {row : List (Expr × Bv N)} (h : ∀ p ∈ row, P p.1) :
  ItemsHave P (row.map .ok)
  := by
  intro p hp
  obtain ⟨q, hq, hqp⟩ := List.mem_map.mp hp
  cases hqp
  apply h p hq

theorem itemsHave_map {r : Except Fault (Bv N)} {e : Expr} (h : P e) :
  ItemsHave P [r.map fun v => (e, v)]
  := by
  intro p hp
  cases r with
  | error fault => cases List.mem_singleton.mp hp
  | ok v =>
      cases List.mem_singleton.mp hp
      apply h

theorem ItemsHave.eachCall {g : Expr × Bv N → List (Item N)} (h : ItemsHave P l)
    (hg : ∀ p : Expr × Bv N, P p.1 → ItemsHave P (g p)) :
  ItemsHave P (eachCall l g)
  := by
  apply itemsHave_flatMap
  intro item hitem
  cases item with
  | error fault => apply itemsHave_error
  | ok p => apply hg p (h p hitem)

/-- The operands of a walk are proper sub-expressions. -/
theorem itemsHave_walkCalls {e₁ : Expr} {g : Expr × Bv N → List (Item N)}
    (h : ∀ p₂ : Expr × Bv N, p₂.1 ∈ e₁.proper → ItemsHave P (g p₂)) :
  ItemsHave P (walkCalls env args e₁ g)
  := by
  apply ItemsHave.append
  · apply itemsHave_flatMap
    intro p₂ hp₂
    apply h p₂ (ExprIn.mem_proper_of_mem_forEachSubexpr hp₂)
  · split
    · apply itemsHave_nil
    · apply itemsHave_error

theorem ItemsHave.passed {κ : Type} (h : ItemsHave P l) (b : Bank κ N) :
  ItemsHave P (b.passed l)
  := by
  intro p hp
  apply h p (List.mem_filter.mp hp).1

/-- The combinations of an operand with another one that the rules for divisions offer. -/
theorem itemsHave_nonzero {o : BinOp} {p₁ p₂ : Expr × Bv N} (h : P (.bin o p₁.1 p₂.1)) :
  ItemsHave P (if p₂.2.anyEq Bv.zeros then [] else [apply₂ env o p₁ p₂])
  := by
  split_ifs
  · apply itemsHave_nil
  · apply itemsHave_map h

end Items

namespace Algo2

variable {N : ℕ} {env : Environ} {algo : Algo2 N} {dag : Bool} {P : Expr → Prop} {rows : Rows N}
variable {rule : Rule}

section Rules

variable (hP : algo.config.Preserves dag P) (hdag : algo.dagSize = true → dag = true)
  (hrows : ∀ i, ItemsHave P (runSize rows i))

include hP hdag hrows

theorem itemsHave_op2Sym (hbinary : algo.config.HasBinary) {o : BinOp}
    (hbin : ∀ e₁ e₂, P e₁ → P e₂ → P (.bin o e₁ e₂)) :
  ItemsHave P (algo.op2Sym env rows o)
  := by
  apply ItemsHave.append
  · apply itemsHave_flatMap
    intro i _
    apply (hrows i).eachCall
    intro p₁ h₁
    apply (hrows _).eachCall
    intro p₂ h₂
    apply itemsHave_map (hbin _ _ h₁ h₂)
  · rw [op2SymDag]
    split_ifs with hsize
    · have hdag := hdag (Bool.and_eq_true_iff.mp hsize).2
      apply (hrows _).eachCall
      intro p₁ h₁
      apply ItemsHave.append
      · apply itemsHave_walkCalls
        intro p₂ hp₂
        apply itemsHave_map (hbin _ _ h₁ (hP.proper hdag hbinary _ h₁ _ hp₂))
      · apply itemsHave_map (hbin _ _ h₁ h₁)
    · apply itemsHave_nil

theorem itemsHave_op2 (hbinary : algo.config.HasBinary) {o : BinOp}
    (hbin : ∀ e₁ e₂, P e₁ → P e₂ → P (.bin o e₁ e₂)) :
  ItemsHave P (algo.op2 env rows rule o)
  := by
  rw [Algo2.op2]
  split_ifs
  · rw [op2Shift]
    split_ifs
    · apply (hrows _).eachCall
      intro p₁ h₁
      apply (hrows 1).eachCall
      intro p₂ h₂
      apply itemsHave_map (hbin _ _ h₁ h₂)
    · apply itemsHave_nil
  · apply ItemsHave.append
    · rw [op2Rows]
      split_ifs
      · apply itemsHave_flatMap
        intro i _
        apply (hrows _).eachCall
        intro p₁ h₁
        apply (hrows i).eachCall
        intro p₂ h₂
        apply itemsHave_map (hbin _ _ h₁ h₂)
      · apply itemsHave_nil
    · rw [op2Dag]
      split_ifs with hsize
      · have hdag := hdag (Bool.and_eq_true_iff.mp hsize).2
        apply (hrows _).eachCall
        intro p₁ h₁
        apply ItemsHave.append
        · apply itemsHave_walkCalls
          intro p₂ hp₂
          have h₂ := hP.proper hdag hbinary _ h₁ _ hp₂
          apply ItemsHave.cons
          · apply itemsHave_map (hbin _ _ h₁ h₂)
          · apply itemsHave_map (hbin _ _ h₂ h₁)
        · apply itemsHave_map (hbin _ _ h₁ h₁)
      · apply itemsHave_nil

theorem itemsHave_op2Nonzero (hbinary : algo.config.HasBinary) {o : BinOp}
    (hbin : ∀ e₁ e₂, P e₁ → P e₂ → P (.bin o e₁ e₂)) :
  ItemsHave P (algo.op2Nonzero env rows o)
  := by
  apply ItemsHave.append
  · rw [op2NonzeroRows]
    split_ifs
    · apply itemsHave_flatMap
      intro i _
      apply (hrows i).eachCall
      intro p₁ h₁
      apply (hrows _).eachCall
      intro p₂ h₂
      apply itemsHave_nonzero (hbin _ _ h₁ h₂)
    · apply itemsHave_nil
  · rw [op2NonzeroDag]
    split_ifs with hsize
    · have hdag := hdag (Bool.and_eq_true_iff.mp hsize).2
      apply (hrows _).eachCall
      intro p₁ h₁
      apply ItemsHave.append
      · apply itemsHave_walkCalls
        intro p₂ hp₂
        apply itemsHave_nonzero (hbin _ _ h₁ (hP.proper hdag hbinary _ h₁ _ hp₂))
      · apply itemsHave_nonzero (hbin _ _ h₁ h₁)
    · apply itemsHave_nil

/-- Every rule of the configuration offers expressions that have the property. -/
theorem itemsHave_generate (hrule : rule ∈ algo.config) :
  ItemsHave P (algo.generate env rows rule)
  := by
  rw [generate]
  split
  · next o ho =>
      apply (hrows _).eachCall
      intro p₁ h₁
      apply itemsHave_map (hP.un rule hrule o ho _ h₁)
  · next o c ho =>
      apply (hrows _).eachCall
      intro p₁ h₁
      apply itemsHave_map
      apply hP.constant rule hrule o c ho _ h₁
  · next o ho =>
      have hbinary : algo.config.HasBinary := ⟨rule, hrule, o, .inl ho⟩
      apply itemsHave_op2Sym hP hdag hrows hbinary (hP.bin rule hrule o (.inl ho))
  · next o ho =>
      have hbinary : algo.config.HasBinary := ⟨rule, hrule, o, .inr (.inl ho)⟩
      apply itemsHave_op2 hP hdag hrows hbinary (hP.bin rule hrule o (.inr (.inl ho)))
  · next o ho =>
      have hbinary : algo.config.HasBinary := ⟨rule, hrule, o, .inr (.inr ho)⟩
      apply itemsHave_op2Nonzero hP hdag hrows hbinary (hP.bin rule hrule o (.inr (.inr ho)))
  · next id hid =>
      rw [Algo2.var]
      split_ifs
      · split
        · apply itemsHave_singleton (hP.var rule hrule id hid)
        · apply itemsHave_error
      · apply itemsHave_nil
  · next e v he =>
      rw [Algo2.chatgpt]
      split_ifs
      · apply itemsHave_map (hP.chatgpt rule hrule e v he)
      · apply itemsHave_nil
  · next c hc =>
      rw [Algo2.const]
      split_ifs
      · apply itemsHave_singleton (hP.const rule hrule c hc)
      · apply itemsHave_nil
  · apply itemsHave_nil
  · apply itemsHave_error

end Rules

/-- Whatever the bank, the calls for smaller sizes have the property when its rows do. -/
theorem itemsHave_offers (hP : algo.config.Preserves dag P)
    (hdag : algo.dagSize = true → dag = true) {b : Bank ℕ N}
    (hb : ∀ i, ∀ p ∈ b.row i, P p.1) (n : ℕ) :
  ItemsHave P (algo.offers env (algo.rowsBelow env b n))
  := by
  have hoffers : ∀ {rows : Rows N}, (∀ i, ItemsHave P (runSize rows i)) →
      ItemsHave P (algo.offers env rows) := by
    intro rows hrows
    apply itemsHave_flatMap
    intro rule hrule
    apply itemsHave_generate hP hdag hrows hrule
  apply hoffers
  intro i
  rcases Nat.lt_or_ge i n with hi | hi
  · rw [runSize_rowsBelow hi]
    induction i using Nat.strong_induction_on with
    | h i ih =>
        rcases Nat.lt_or_ge i b.exprs.length with hlt | hge
        · rw [callsAt_of_lt hlt]
          apply itemsHave_rows (hb i)
        · rw [callsAt_of_le hge]
          apply ItemsHave.passed
          apply hoffers
          intro j
          rcases Nat.lt_or_ge j i with hj | hj
          · rw [runSize_rowsBelow hj]
            apply ih j hj (by omega)
          · rw [runSize, List.getD_eq_default _ _ (by rwa [length_rowsBelow])]
            apply itemsHave_nil
  · rw [runSize, List.getD_eq_default _ _ (by rwa [length_rowsBelow])]
    apply itemsHave_nil

end Algo2

namespace DiversityAlgo

variable {N : ℕ} {env : Environ} {d : Diversity} {fuel : ℕ} {algo : DiversityAlgo N} {dag : Bool}
variable {P : Expr → Prop} {run : RunSize N} {size : ℕ} {subset : BitVec 64} {rule : Rule}

theorem itemsHave_eachElement {α : Type} {l : Except Fault (List α)} {g : α → List (Item N)}
    (h : ∀ l', l = .ok l' → ∀ a ∈ l', ItemsHave P (g a)) :
  ItemsHave P (eachElement l g)
  := by
  cases l with
  | error fault => apply itemsHave_error
  | ok l' => apply itemsHave_flatMap (h l' rfl)

section Rules

variable {config : Config} (hP : config.Preserves dag P)
  (hdag : algo.dagSize = true → dag = true) (hrun : ∀ size subset, ItemsHave P (run size subset))

include hrun

theorem itemsHave_op2Atom {o : BinOp} (hbin : ∀ e₁ e₂, P e₁ → P e₂ → P (.bin o e₁ e₂)) :
  ItemsHave P (op2Atom env d fuel run size subset o)
  := by
  rw [op2Atom]
  split_ifs
  · apply itemsHave_nil
  · apply itemsHave_eachElement
    intro l _ s₂ _
    apply itemsHave_flatMap
    intro s₁ _
    apply (hrun 1 s₂).eachCall
    intro p₂ h₂
    apply (hrun _ s₁).eachCall
    intro p₁ h₁
    split_ifs
    · apply itemsHave_nil
    · apply itemsHave_map (hbin _ _ h₁ h₂)

/-- Two operands whose sizes add up. -/
theorem itemsHave_sizes {o : BinOp} (hbin : ∀ e₁ e₂, P e₁ → P e₂ → P (.bin o e₁ e₂))
    (is : List ℕ) (j : ℕ → ℕ) (s₁ s₂ : BitVec 64) :
  ItemsHave P (is.flatMap fun i =>
    eachCall (run (j i) s₁) fun p₁ => eachCall (run i s₂) fun p₂ => [apply₂ env o p₁ p₂])
  := by
  apply itemsHave_flatMap
  intro i _
  apply (hrun _ s₁).eachCall
  intro p₁ h₁
  apply (hrun i s₂).eachCall
  intro p₂ h₂
  apply itemsHave_map (hbin _ _ h₁ h₂)

include hP hdag

theorem itemsHave_op2Sym (hbinary : config.HasBinary) {o : BinOp}
    (hbin : ∀ e₁ e₂, P e₁ → P e₂ → P (.bin o e₁ e₂)) :
  ItemsHave P (op2Sym env fuel algo run size subset o)
  := by
  apply ItemsHave.append
  · apply itemsHave_eachElement
    intro l _ s _
    split_ifs
    · apply itemsHave_nil
    · apply itemsHave_sizes hrun hbin
  · split_ifs with hsize
    · have hdag := hdag (Bool.and_eq_true_iff.mp hsize).2
      apply (hrun _ subset).eachCall
      intro p₁ h₁
      apply ItemsHave.append
      · apply itemsHave_walkCalls
        intro p₂ hp₂
        apply itemsHave_map (hbin _ _ h₁ (hP.proper hdag hbinary _ h₁ _ hp₂))
      · apply itemsHave_map (hbin _ _ h₁ h₁)
    · apply itemsHave_nil

theorem itemsHave_op2 (hbinary : config.HasBinary) {o : BinOp}
    (hbin : ∀ e₁ e₂, P e₁ → P e₂ → P (.bin o e₁ e₂)) :
  ItemsHave P (op2 env fuel algo run size subset o)
  := by
  apply ItemsHave.append
  · apply itemsHave_eachElement
    intro l _ s _
    apply itemsHave_sizes hrun hbin
  · split_ifs with hsize
    · have hdag := hdag (Bool.and_eq_true_iff.mp hsize).2
      apply (hrun _ subset).eachCall
      intro p₁ h₁
      apply ItemsHave.append
      · apply itemsHave_walkCalls
        intro p₂ hp₂
        have h₂ := hP.proper hdag hbinary _ h₁ _ hp₂
        apply ItemsHave.cons
        · apply itemsHave_map (hbin _ _ h₁ h₂)
        · apply itemsHave_map (hbin _ _ h₂ h₁)
      · apply itemsHave_map (hbin _ _ h₁ h₁)
    · apply itemsHave_nil

theorem itemsHave_op2Nonzero (hbinary : config.HasBinary) {o : BinOp}
    (hbin : ∀ e₁ e₂, P e₁ → P e₂ → P (.bin o e₁ e₂)) :
  ItemsHave P (op2Nonzero env d fuel algo run size subset o)
  := by
  apply ItemsHave.append
  · split_ifs
    · apply itemsHave_eachElement
      intro l _ s _
      apply itemsHave_flatMap
      intro i _
      apply (hrun i s.1).eachCall
      intro p₁ h₁
      apply (hrun _ s.2).eachCall
      intro p₂ h₂
      apply itemsHave_nonzero (hbin _ _ h₁ h₂)
    · apply itemsHave_nil
  · split_ifs with hsize
    · have hdag := hdag (Bool.and_eq_true_iff.mp hsize).2
      apply (hrun _ subset).eachCall
      intro p₁ h₁
      apply ItemsHave.append
      · apply itemsHave_walkCalls
        intro p₂ hp₂
        apply itemsHave_nonzero (hbin _ _ h₁ (hP.proper hdag hbinary _ h₁ _ hp₂))
      · apply itemsHave_nonzero (hbin _ _ h₁ h₁)
    · apply itemsHave_nil

/-- Every rule of the configuration offers expressions that have the property. -/
theorem itemsHave_generate (hrule : rule ∈ config) :
  ItemsHave P (generate env d fuel algo run size subset rule)
  := by
  rw [generate]
  split
  · next o ho =>
      apply (hrun _ subset).eachCall
      intro p₁ h₁
      apply itemsHave_map (hP.un rule hrule o ho _ h₁)
  · next o c ho =>
      apply (hrun _ subset).eachCall
      intro p₁ h₁
      apply itemsHave_map
      apply hP.constant rule hrule o c ho _ h₁
  · next o ho =>
      have hbinary : config.HasBinary := ⟨rule, hrule, o, .inl ho⟩
      apply itemsHave_op2Sym hP hdag hrun hbinary (hP.bin rule hrule o (.inl ho))
  · next o ho =>
      have hbinary : config.HasBinary := ⟨rule, hrule, o, .inr (.inl ho)⟩
      split_ifs
      · apply itemsHave_op2Atom hrun (hP.bin rule hrule o (.inr (.inl ho)))
      · apply itemsHave_op2 hP hdag hrun hbinary (hP.bin rule hrule o (.inr (.inl ho)))
  · next o ho =>
      have hbinary : config.HasBinary := ⟨rule, hrule, o, .inr (.inr ho)⟩
      apply itemsHave_op2Nonzero hP hdag hrun hbinary (hP.bin rule hrule o (.inr (.inr ho)))
  · next id hid =>
      rw [DiversityAlgo.var]
      split_ifs
      · split
        · apply itemsHave_singleton (hP.var rule hrule id hid)
        · apply itemsHave_error
      · apply itemsHave_nil
  · next e v he =>
      rw [DiversityAlgo.chatgpt]
      split_ifs
      · apply itemsHave_map (hP.chatgpt rule hrule e v he)
      · apply itemsHave_nil
  · next c hc =>
      rw [DiversityAlgo.const]
      split_ifs
      · apply itemsHave_singleton (hP.const rule hrule c hc)
      · apply itemsHave_nil
  · apply itemsHave_nil
  · apply itemsHave_error

/-- The rules and the atoms come from the configuration. -/
theorem itemsHave_offers (hrules : ∀ rule ∈ algo.rules, rule ∈ config)
    (hatoms : ∀ rule ∈ algo.atomRules, rule ∈ config) :
  ItemsHave P (offers env d fuel algo run size subset)
  := by
  apply ItemsHave.append
  · apply itemsHave_flatMap
    intro rule hrule
    apply itemsHave_generate hP hdag hrun (hrules rule hrule)
  · apply itemsHave_eachElement
    intro l hl rule hrule
    cases hbits : elements fuel BitIter.next subset with
    | error fault =>
        rw [enabledAtomRules, hbits] at hl
        cases hl
    | ok bits =>
        rw [enabledAtomRules, hbits] at hl
        obtain rfl := Except.ok.inj hl
        obtain ⟨q, hq, rfl⟩ := List.mem_map.mp hrule
        apply itemsHave_generate hP hdag hrun
        apply hatoms
        apply (List.of_mem_zip (List.mem_filter.mp hq).1).1

end Rules

/-- Whatever the bank, the calls for smaller sizes have the property when its rows do. -/
theorem itemsHave_runSize {config : Config} (hP : config.Preserves dag P)
    (hdag : algo.dagSize = true → dag = true) (hrules : ∀ rule ∈ algo.rules, rule ∈ config)
    (hatoms : ∀ rule ∈ algo.atomRules, rule ∈ config) {b : Bank Place N}
    (hb : ∀ i, ∀ p ∈ b.row i, P p.1) (cur : Point) (bound size : ℕ) (subset : BitVec 64) :
  ItemsHave P (runSize env d fuel algo b cur bound size subset)
  := by
  induction bound generalizing size subset with
  | zero => apply itemsHave_nil
  | succ bound ih =>
      simp only [runSize, calls]
      split_ifs
      · apply itemsHave_nil
      · apply itemsHave_rows (hb _)
      · apply ItemsHave.passed
        apply itemsHave_offers hP hdag ih hrules hatoms

end DiversityAlgo

/-! ### Runs with a bounded memory -/

section Visits

variable {κ σ : Type} {N : ℕ} {P : Expr → Prop} {Q : σ → Prop}

/-- A filter that keeps its state as it should be, where it is called with expressions that have
the property. -/
def Filter.Keeps (P : Expr → Prop) (Q : σ → Prop) (f : Filter κ σ N) : Prop :=
  ∀ b e v u, Entries P b.map → P e → Q u → Q (f b e v u).2

namespace Visit

variable {E : Enumerator κ N} {f : Filter κ σ N} {s s' : Visit κ σ N} {p : κ} {ps : List κ}
variable {e : Expr} {v : Bv N}

/-- A state between two calls of `try_insert`, when the points are visited one after the other. -/
def Reaches (E : Enumerator κ N) (f : Filter κ σ N) (s : Visit κ σ N) (ps : List κ)
    (s' : Visit κ σ N) : Prop :=
  ∃ pre p s₀, pre ++ [p] <+: ps ∧ visitAll E f s pre = .ok s₀ ∧
    Machine.Reaches (tryInsert E f p) s₀ (E.offers s₀.bank p) s'

/-- What holds of a state: the stored expressions and those of the map have the property, and the
state of the filter is as it should be. -/
structure Built (P : Expr → Prop) (Q : σ → Prop) (s : Visit κ σ N) : Prop where
  rows : ∀ q ∈ s.bank.exprs, ∀ x ∈ q.2, P x.1
  map : Entries P s.bank.map
  cur : ∀ x ∈ s.cur, P x.1
  user : Q s.user

theorem Built.start {b : Bank κ N} {u : σ} (hrows : ∀ q ∈ b.exprs, q.2 = [])
    (hmap : Entries P b.map) (hu : Q u) :
  Built P Q (start b u)
  where
    rows := by
      intro q hq x hx
      rw [hrows q hq] at hx
      cases hx
    map := hmap
    cur := by
      intro x hx
      cases hx
    user := hu

theorem Built.row [DecidableEq κ] (h : Built P Q s) (i : κ) :
  ∀ x ∈ s.bank.row i, P x.1
  := by
  intro x hx
  rw [Bank.row] at hx
  cases hi : s.bank.exprs.lookup i with
  | none => simp [hi] at hx
  | some l =>
      obtain ⟨l₁, l₂, hl, -⟩ := List.lookup_eq_some_iff.mp hi
      apply h.rows (i, l)
      · rw [hl]
        simp
      · simpa [hi] using hx

theorem Built.call (hf : f.Keeps P Q) (h : Built P Q s) (he : P e) :
  Built P Q (Machine.final (call E f p s e v))
  := by
  have huser := hf s.bank e v s.user h.map he h.user
  unfold Visit.call
  split
  · next u hu =>
      rw [hu] at huser
      refine ⟨h.rows, h.map, ?_, huser⟩
      intro x hx
      simp only [Machine.final] at hx
      split at hx
      · rcases List.mem_append.mp hx with hx | hx
        · apply h.cur x hx
        · obtain rfl := List.mem_singleton.mp hx
          apply he
      · apply h.cur x hx
  · next u hu =>
      rw [hu] at huser
      exact ⟨h.rows, h.map, h.cur, huser⟩

/-- A call of `try_insert` with an expression that has the property. -/
theorem Built.tryInsert (hf : f.Keeps P Q) (h : Built P Q s) {item : Item N}
    (hitem : ∀ x, item = .ok x → P x.1) :
  Built P Q (Machine.final (tryInsert E f p s item))
  := by
  cases item with
  | error fault => apply h
  | ok x =>
      have hx := hitem x rfl
      simp only [Visit.tryInsert]
      split
      · split_ifs
        · have hput : Built P Q (s.put x.1 x.2) := ⟨h.rows, h.map.cons hx, h.cur, h.user⟩
          apply hput.call hf hx
        · apply h.call hf hx
      · apply h.call hf hx
      · apply h

/-- A visit that offers expressions with the property. -/
theorem Built.run (hf : f.Keeps P Q) (h : Built P Q s) {l : List (Item N)}
    (hl : ItemsHave P l) :
  Built P Q (Machine.final (Machine.run (Visit.tryInsert E f p) s l))
  := by
  apply Machine.final_run _ h
  intro s₁ hs₁ item hitem
  apply hs₁.tryInsert hf
  rintro x rfl
  apply hl x hitem

theorem Built.visit (hf : f.Keeps P Q) (h : Built P Q s)
    (hoffers : ItemsHave P (E.offers s.bank p)) (hvisit : visit E f s p = .ok s') :
  Built P Q s'
  := by
  obtain ⟨s₁, hrun, rfl⟩ := visit_eq_ok hvisit
  have h₁ := h.run (E := E) (p := p) hf hoffers
  rw [hrun] at h₁
  unfold finish
  split_ifs
  · refine ⟨?_, h₁.map, nofun, h₁.user⟩
    intro q hq
    rcases List.mem_append.mp hq with hq | hq
    · apply h₁.rows q hq
    · obtain rfl := List.mem_singleton.mp hq
      apply h₁.cur
  · exact ⟨h₁.rows, h₁.map, nofun, h₁.user⟩

theorem Built.visitAll [DecidableEq κ] (hf : f.Keeps P Q) (h : Built P Q s)
    (hoffers : ∀ b : Bank κ N, (∀ i, ∀ x ∈ b.row i, P x.1) → ∀ p, ItemsHave P (E.offers b p))
    (hvisit : visitAll E f s ps = .ok s') :
  Built P Q s'
  := by
  induction ps generalizing s with
  | nil =>
      cases hvisit
      apply h
  | cons p ps ih =>
      obtain ⟨s₁, h₁, hvisit⟩ := Machine.run_cons_eq_ok.mp hvisit
      apply ih _ hvisit
      apply h.visit hf (hoffers s.bank h.row p) h₁

/-- In every state all expressions have the property. -/
theorem Reaches.built [DecidableEq κ] (hf : f.Keeps P Q) (h : Built P Q s)
    (hoffers : ∀ b : Bank κ N, (∀ i, ∀ x ∈ b.row i, P x.1) → ∀ p, ItemsHave P (E.offers b p))
    (hreach : Reaches E f s ps s') :
  Built P Q s'
  := by
  obtain ⟨pre, p, s₀, -, hpre, items, hitems, rfl⟩ := hreach
  have h₀ := h.visitAll hf hoffers hpre
  apply h₀.run hf
  intro x hx
  apply hoffers s₀.bank h₀.row p x (hitems.subset hx)

end Visit

theorem Algo2.built_of_reaches {env : Environ} {algo : Algo2 N} {dag : Bool} {f : Filter ℕ σ N}
    {output : Bv N} {u : σ} {ps : List ℕ} {s : Visit ℕ σ N} (hP : algo.config.Preserves dag P)
    (hdag : algo.dagSize = true → dag = true) (hf : f.Keeps P Q) (hu : Q u)
    (h : Visit.Reaches (algo.enumerator env) f (Visit.start (Algo2.bank output) u) ps s) :
  s.Built P Q
  := by
  refine Visit.Reaches.built hf (Visit.Built.start ?_ (entries_output P output) hu) ?_ h
  · intro q hq
    rw [List.mem_singleton.mp hq]
  · intro b hb p
    apply itemsHave_offers hP hdag hb

theorem DiversityAlgo.built_of_reaches {env : Environ} {d : Diversity} {fuel : ℕ} {config : Config}
    {args : List (Bv N)} {dagSize dag : Bool} {limit : ℕ} {algo : DiversityAlgo N}
    {f : Filter Place σ N} {output : Bv N} {u : σ} {ps : List Place} {s : Visit Place σ N}
    (halgo : DiversityAlgo.new config args dagSize limit = .ok algo)
    (hP : config.Preserves dag P) (hdag : dagSize = true → dag = true) (hf : f.Keeps P Q)
    (hu : Q u)
    (h : Visit.Reaches (algo.enumerator env d fuel) f
      (Visit.start (DiversityAlgo.bank output) u) ps s) :
  s.Built P Q
  := by
  obtain ⟨vars, -, halgo⟩ := bind_eq_ok.mp halgo
  obtain rfl := Except.ok.inj halgo
  have hrows : ∀ q ∈ (DiversityAlgo.bank output).exprs, q.2 = [] := by
    intro q hq
    cases hq
  refine Visit.Reaches.built hf (Visit.Built.start hrows (entries_output P output) hu) ?_ h
  intro b hb p
  simp only [enumerator]
  split_ifs
  · apply itemsHave_nil
  · have hrules : ∀ rule ∈ config.filter fun r => !r.isAtom, rule ∈ config :=
      fun rule hrule => (List.mem_filter.mp hrule).1
    have hatoms : ∀ rule ∈ config.filter Rule.isAtom, rule ∈ config :=
      fun rule hrule => (List.mem_filter.mp hrule).1
    apply itemsHave_offers hP hdag _ hrules hatoms
    apply itemsHave_runSize hP hdag hrules hatoms hb

end Visits

end DryadSynth
