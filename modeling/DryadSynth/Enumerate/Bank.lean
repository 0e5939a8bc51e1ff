import DryadSynth.Deductive.Reverse

/-!
# The bank of the enumerator

`Offered` lists what the rules bring to `insert!`.  From it, every state `run_until` reaches
has a sound bank: each stored expression has its vector as value, and no vector is stored
twice or is the output.
-/

namespace DryadSynth

variable {N : ℕ}

/-! ### What the rules offer -/

namespace Algo

section Offered

variable (env : Environ) (algo : Algo N)

/-- The pairs of the finished rows. -/
def Stored (p : Expr × Bv N) : Prop := p ∈ algo.exprs.flatten

/-- The operands of the rules: stored pairs, and the sub-expressions of stored expressions
with the vectors the walk finds for them. -/
def Operand (p : Expr × Bv N) : Prop :=
  algo.Stored p ∨ ∃ p₁, algo.Stored p₁ ∧ p ∈ (p₁.1.forEachSubexpr env algo.args).calls

/-- The operands of `generate_op!(op2_nonzero, ..)`: stored pairs whose sizes add up, or a
stored pair with itself or with one of its sub-expressions. -/
def NonzeroOperands (rule : Rule) (p₁ p₂ : Expr × Bv N) : Prop :=
  (∃ i j, 1 ≤ i ∧ 1 ≤ j ∧ algo.size = divisionSize rule + i + j
      ∧ p₁ ∈ algo.row i ∧ p₂ ∈ algo.row j)
    ∨ 5 < algo.size ∧ algo.dagSize = true ∧ p₁ ∈ algo.row (algo.size - 4)
      ∧ (p₂ = p₁ ∨ p₂ ∈ (p₁.1.forEachSubexpr env algo.args).calls)

/-- What a rule offers. -/
inductive Offered (rule : Rule) : Offer N → Prop
  | op1 {o p₁} (h : rule.generate = .op1 o) (hp₁ : p₁ ∈ algo.row (algo.size - 1)) :
      Offered rule (.of true (.un o p₁.1) (env.evalUn o p₁.2))
  | op1Constant {o c p₁} (h : rule.generate = .op1Constant o c) (hp₁ : algo.Stored p₁) :
      Offered rule (insert₂ env true o p₁ (.const c, Bv.splat c))
  | op2Sym {o counted p₁ p₂} (h : rule.generate = .op2Sym o) (hp₁ : algo.Operand env p₁)
      (hp₂ : algo.Operand env p₂) :
      Offered rule (insert₂ env counted o p₁ p₂)
  | op2Shift {o p₁ p₂} (h : rule.generate = .op2 o) (hrule : rule.isShift = true)
      (hp₁ : algo.Stored p₁) (hp₂ : algo.Stored p₂) (hatom : isAtom p₂.1 = true) :
      Offered rule (insert₂ env true o p₁ p₂)
  | op2 {o counted p₁ p₂} (h : rule.generate = .op2 o) (hrule : rule.isShift = false)
      (hp₁ : algo.Operand env p₁) (hp₂ : algo.Operand env p₂) :
      Offered rule (insert₂ env counted o p₁ p₂)
  | op2Nonzero {o counted p₁ p₂} (h : rule.generate = .op2Nonzero o)
      (hp : algo.NonzeroOperands env rule p₁ p₂) (hzero : p₂.2.anyEq Bv.zeros = false) :
      Offered rule (insert₂ env counted o p₁ p₂)
  | var {id v} (h : rule.generate = .var id) (hv : algo.args[id]? = some v) :
      Offered rule (.insert true (.var id) v)
  | varPanic {id} (h : rule.generate = .var id) (hv : algo.args[id]? = none) :
      Offered rule (.fault .panic)
  | chatgpt {e v} (h : rule.generate = .chatgpt e v) (hv : algo.size = v) :
      Offered rule (.of true e.convert ((e.convert : Expr).evalBv env algo.args))
  | const {v} (h : rule.generate = .const v) :
      Offered rule (.insert true (.const v) (Bv.splat v))
  | panic (h : rule.generate = .panic) : Offered rule (.fault .panic)
  | walk {p₁ fault} (hp₁ : algo.Stored p₁)
      (h : (p₁.1.forEachSubexpr env algo.args).result = .error fault) :
      Offered rule (.fault fault)

variable {env algo} {rule : Rule} {offer : Offer N}

theorem stored_of_mem_row {p : Expr × Bv N} {i : ℕ} (h : p ∈ algo.row i) :
  algo.Stored p
  := by
  rw [row, List.getD_eq_getElem?_getD] at h
  cases hi : algo.exprs[i]? with
  | none => simp [hi] at h
  | some l =>
      rw [hi] at h
      apply List.mem_flatten.mpr
      use l, List.mem_of_getElem? hi, h

theorem Stored.operand {p : Expr × Bv N} (h : algo.Stored p) :
  algo.Operand env p
  := Or.inl h

theorem NonzeroOperands.operands {p₁ p₂ : Expr × Bv N}
    (h : algo.NonzeroOperands env rule p₁ p₂) :
  algo.Stored p₁ ∧ algo.Operand env p₂
  := by
  rcases h with ⟨i, j, -, -, -, hp₁, hp₂⟩ | ⟨-, -, hp₁, rfl | hp₂⟩
  · use stored_of_mem_row hp₁, (stored_of_mem_row hp₂).operand
  · use stored_of_mem_row hp₁, (stored_of_mem_row hp₁).operand
  · use stored_of_mem_row hp₁, Or.inr ⟨p₁, stored_of_mem_row hp₁, hp₂⟩

theorem mem_of_mem_combinations {α : Type} {l : List α} {p : α × α} (h : p ∈ combinations l) :
  p.1 ∈ l ∧ p.2 ∈ l
  := by
  induction l with
  | nil => cases h
  | cons a l ih =>
      rcases List.mem_append.mp h with h | h
      · obtain ⟨b, hb, rfl⟩ := List.mem_map.mp h
        use List.mem_cons_self, List.mem_cons_of_mem a hb
      · use List.mem_cons_of_mem a (ih h).1, List.mem_cons_of_mem a (ih h).2

/-- The offers of a walk: those of its closure, and its fault. -/
theorem mem_offersOfWalk {e₁ : Expr} {f : Expr × Bv N → List (Offer N)}
    (h : offer ∈ algo.offersOfWalk env e₁ f) :
  (∃ p ∈ (e₁.forEachSubexpr env algo.args).calls, offer ∈ f p)
    ∨ ∃ fault, (e₁.forEachSubexpr env algo.args).result = .error fault ∧ offer = .fault fault
  := by
  rcases List.mem_append.mp h with h | h
  · left
    apply List.mem_flatMap.mp h
  · right
    split at h
    next => cases h
    next fault hfault => use fault, hfault, List.mem_singleton.mp h

theorem Offered.of_mem_op1 {o : UnOp} (hrule : rule.generate = .op1 o)
    (h : offer ∈ algo.op1 env o) :
  algo.Offered env rule offer
  := by
  obtain ⟨p₁, hp₁, rfl⟩ := List.mem_map.mp h
  apply Offered.op1 hrule hp₁

theorem Offered.of_mem_op1Constant {o : BinOp} {c : BitVec 64}
    (hrule : rule.generate = .op1Constant o c) (h : offer ∈ algo.op1Constant env o c) :
  algo.Offered env rule offer
  := by
  obtain ⟨p₁, hp₁, rfl⟩ := List.mem_map.mp h
  apply Offered.op1Constant hrule (stored_of_mem_row hp₁)

theorem Offered.of_mem_op2Sym {o : BinOp} (hrule : rule.generate = .op2Sym o)
    (h : offer ∈ algo.op2Sym env o) :
  algo.Offered env rule offer
  := by
  rcases List.mem_append.mp h with h | h
  · rcases List.mem_append.mp h with h | h
    · simp only [op2SymRows, List.mem_flatMap, List.mem_map] at h
      obtain ⟨i, -, p₁, hp₁, p₂, hp₂, rfl⟩ := h
      apply Offered.op2Sym hrule (stored_of_mem_row hp₁).operand (stored_of_mem_row hp₂).operand
    · rw [op2SymMiddle] at h
      split_ifs at h
      · rcases List.mem_append.mp h with h | h
        · obtain ⟨p, hp, rfl⟩ := List.mem_map.mp h
          obtain ⟨hp₁, hp₂⟩ := mem_of_mem_combinations hp
          apply Offered.op2Sym hrule (stored_of_mem_row hp₁).operand (stored_of_mem_row hp₂).operand
        · obtain ⟨p₁, hp₁, rfl⟩ := List.mem_map.mp h
          apply Offered.op2Sym hrule (stored_of_mem_row hp₁).operand (stored_of_mem_row hp₁).operand
      · cases h
  · rw [op2SymDag] at h
    split_ifs at h
    · obtain ⟨p₁, hp₁, h⟩ := List.mem_flatMap.mp h
      have hp₁ := stored_of_mem_row hp₁
      rcases List.mem_append.mp h with h | h
      · rcases mem_offersOfWalk h with ⟨p₂, hp₂, h⟩ | ⟨fault, hfault, rfl⟩
        · obtain rfl := List.mem_singleton.mp h
          apply Offered.op2Sym hrule hp₁.operand (Or.inr ⟨p₁, hp₁, hp₂⟩)
        · apply Offered.walk hp₁ hfault
      · obtain rfl := List.mem_singleton.mp h
        apply Offered.op2Sym hrule hp₁.operand hp₁.operand
    · cases h

theorem Offered.of_mem_op2 {o : BinOp} (hrule : rule.generate = .op2 o)
    (h : offer ∈ algo.op2 env rule o) :
  algo.Offered env rule offer
  := by
  cases hshift : rule.isShift with
  | true =>
      simp only [Algo.op2, hshift, if_true, Algo.op2Shift] at h
      split_ifs at h
      · obtain ⟨p₂, hp₂, h⟩ := List.mem_flatMap.mp h
        split_ifs at h with hatom
        · obtain ⟨p₁, hp₁, rfl⟩ := List.mem_map.mp h
          apply Offered.op2Shift hrule hshift (stored_of_mem_row hp₁) (stored_of_mem_row hp₂) hatom
        · cases h
      · cases h
  | false =>
      simp only [Algo.op2, hshift, Bool.false_eq_true, if_false] at h
      rcases List.mem_append.mp h with h | h
      · rw [op2Rows] at h
        split_ifs at h
        · simp only [List.mem_flatMap, List.mem_map] at h
          obtain ⟨i, -, p₂, hp₂, p₁, hp₁, rfl⟩ := h
          apply Offered.op2 hrule hshift (stored_of_mem_row hp₁).operand
            (stored_of_mem_row hp₂).operand
        · cases h
      · rw [op2Dag] at h
        split_ifs at h
        · obtain ⟨p₁, hp₁, h⟩ := List.mem_flatMap.mp h
          have hp₁ := stored_of_mem_row hp₁
          rcases List.mem_append.mp h with h | h
          · rcases mem_offersOfWalk h with ⟨p₂, hp₂, h⟩ | ⟨fault, hfault, rfl⟩
            · have hp₂ : algo.Operand env p₂ := Or.inr ⟨p₁, hp₁, hp₂⟩
              rcases List.mem_pair.mp h with rfl | rfl
              · apply Offered.op2 hrule hshift hp₁.operand hp₂
              · apply Offered.op2 hrule hshift hp₂ hp₁.operand
            · apply Offered.walk hp₁ hfault
          · obtain rfl := List.mem_singleton.mp h
            apply Offered.op2 hrule hshift hp₁.operand hp₁.operand
        · cases h

theorem Offered.of_mem_op2Nonzero {o : BinOp} (hrule : rule.generate = .op2Nonzero o)
    (h : offer ∈ algo.op2Nonzero env rule o) :
  algo.Offered env rule offer
  := by
  have hguard : ∀ {counted : Bool} {p₁ p₂ : Expr × Bv N},
      algo.NonzeroOperands env rule p₁ p₂ →
      (offer ∈ if p₂.2.anyEq Bv.zeros then [] else [insert₂ env counted o p₁ p₂]) →
      algo.Offered env rule offer := by
    intro counted p₁ p₂ hp h
    split_ifs at h with hzero
    · cases h
    · obtain rfl := List.mem_singleton.mp h
      apply Offered.op2Nonzero hrule hp (Bool.eq_false_iff.mpr hzero)
  rcases List.mem_append.mp h with h | h
  · rw [op2NonzeroRows] at h
    split_ifs at h
    · simp only [List.mem_flatMap, List.mem_range'_1] at h
      obtain ⟨i, hi, p₁, hp₁, p₂, hp₂, h⟩ := h
      apply hguard _ h
      left
      use i, algo.size - divisionSize rule - i, by omega, by omega, by omega
    · cases h
  · rw [op2NonzeroDag] at h
    split_ifs at h with hsize
    · obtain ⟨hsize, hdag⟩ : 5 < algo.size ∧ algo.dagSize = true := by simpa using hsize
      obtain ⟨p₁, hp₁, h⟩ := List.mem_flatMap.mp h
      rcases List.mem_append.mp h with h | h
      · rcases mem_offersOfWalk h with ⟨p₂, hp₂, h⟩ | ⟨fault, hfault, rfl⟩
        · apply hguard (Or.inr ⟨hsize, hdag, hp₁, Or.inr hp₂⟩) h
        · apply Offered.walk (stored_of_mem_row hp₁) hfault
      · apply hguard (Or.inr ⟨hsize, hdag, hp₁, Or.inl rfl⟩) h
    · cases h

/-- The expansions of `insert!` of a rule are among those of `Offered`. -/
theorem Offered.of_mem_generate (h : offer ∈ algo.generate env rule) :
  algo.Offered env rule offer
  := by
  rw [generate] at h
  split at h
  next o hrule => apply Offered.of_mem_op1 hrule h
  next o c hrule => apply Offered.of_mem_op1Constant hrule h
  next o hrule => apply Offered.of_mem_op2Sym hrule h
  next o hrule => apply Offered.of_mem_op2 hrule h
  next o hrule => apply Offered.of_mem_op2Nonzero hrule h
  next id hrule =>
    rw [Algo.var] at h
    split_ifs at h
    · split at h
      next v hv =>
        obtain rfl := List.mem_singleton.mp h
        apply Offered.var hrule hv
      next hv =>
        obtain rfl := List.mem_singleton.mp h
        apply Offered.varPanic hrule hv
    · cases h
  next e v hrule =>
    rw [Algo.chatgpt] at h
    split_ifs at h with hv
    · obtain rfl := List.mem_singleton.mp h
      apply Offered.chatgpt hrule hv
    · cases h
  next v hrule =>
    rw [Algo.const] at h
    split_ifs at h
    · obtain rfl := List.mem_singleton.mp h
      apply Offered.const hrule
    · cases h
  next => cases h
  next hrule =>
    obtain rfl := List.mem_singleton.mp h
    apply Offered.panic hrule

/-- The expansions of `insert!` of an iteration come from the rules. -/
theorem exists_rule_of_mem_offers (h : offer ∈ algo.offers env) :
  ∃ rule ∈ algo.config, algo.Offered env rule offer
  := by
  obtain ⟨rule, hrule, h⟩ := List.mem_flatMap.mp h
  use rule, hrule, Offered.of_mem_generate h

end Offered

end Algo

/-! ### Soundness of the bank -/

namespace Run

section Sound

variable {σ : Type} (env : Environ) (args : List (Bv N)) (output : Bv N)

/-- The entries of the map have their keys as values. -/
def MapSound (algo : Algo N) : Prop :=
  ∀ v e, algo.map.lookup v = some (some e) → e.evalBv env args = .ok v

/-- The invariant of `run_until`. -/
structure Sound (s : Run σ N) : Prop where
  args_eq : s.algo.args = args
  bank : ∀ p ∈ s.bank, p.1.evalBv env args = .ok p.2
  map : MapSound env args s.algo
  calls : ∀ c ∈ s.calls, c.expr.evalBv env args = .ok c.value ∧ MapSound env args c.algo
  known : ∀ p ∈ s.bank, ∃ e, s.algo.map.lookup p.2 = some (some e)
  output : s.algo.map.lookup output = some none
  nodup : (s.bank.map Prod.snd).Nodup

variable {env args output} {s : Run σ N} {e : Expr} {v : Bv N}

theorem Sound.start (config : Config) (dagSize : Bool) (u : σ) :
  Sound env args output (start (Algo.new config args output dagSize) u)
  where
    args_eq := rfl
    bank := by simp [Run.start, Run.bank, Algo.new]
    map := by
      intro v e h
      simp only [Run.start, Algo.new, List.lookup] at h
      split at h <;> simp at h
    calls := by simp [Run.start]
    known := by simp [Run.start, Run.bank, Algo.new]
    output := by simp [Run.start, Algo.new]
    nodup := by simp [Run.start, Run.bank, Algo.new]

theorem Sound.tick (h : Sound env args output s) (counted : Bool) :
  Sound env args output (s.tick counted)
  := by
  cases counted with
  | false => exact h
  | true => exact ⟨h.args_eq, h.bank, h.map, h.calls, h.known, h.output, h.nodup⟩

theorem Sound.finish (h : Sound env args output s) :
  Sound env args output s.finish
  where
    args_eq := h.args_eq
    bank := by simpa using h.bank
    map := h.map
    calls := h.calls
    known := by
      intro p hp
      rw [finish_bank] at hp
      apply h.known p hp
    output := h.output
    nodup := by simpa using h.nodup

theorem Sound.log (h : Sound env args output s) (he : e.evalBv env args = .ok v) (u : σ) :
  Sound env args output (s.log e v u)
  where
    args_eq := h.args_eq
    bank := h.bank
    map := h.map
    calls := by
      intro c hc
      rcases List.mem_cons.mp hc with rfl | hc
      · use he, h.map
      · apply h.calls c hc
    known := h.known
    output := h.output
    nodup := h.nodup

/-- A lookup after `try_insert` on a vacant key. -/
theorem lookup_put (w : Bv N) :
  (s.put e v).algo.map.lookup w = if w = v then some (some e) else s.algo.map.lookup w
  := by
  rw [put, List.lookup]
  by_cases hw : w = v
  · simp [hw]
  · simp [hw, beq_false_of_ne hw]

theorem Sound.put (h : Sound env args output s) (he : e.evalBv env args = .ok v)
    (hv : s.algo.map.lookup v = none) :
  Sound env args output (s.put e v)
  where
    args_eq := h.args_eq
    bank := h.bank
    map := by
      intro w e' hw
      rw [lookup_put] at hw
      split_ifs at hw with hwv
      · cases hw
        rw [hwv]
        apply he
      · apply h.map w e' hw
    calls := h.calls
    known := by
      intro p hp
      obtain ⟨e', he'⟩ := h.known p hp
      have hpv : p.2 ≠ v := by
        rintro rfl
        simp [hv] at he'
      use e'
      rw [lookup_put, if_neg hpv, he']
    output := by
      have hvo : output ≠ v := by
        rintro rfl
        simp [h.output] at hv
      rw [lookup_put, if_neg hvo, h.output]
    nodup := h.nodup

theorem bank_push : (s.push e v).bank = s.bank ++ [(e, v)] := by
  simp [bank, push]

theorem Sound.push (h : Sound env args output s) (he : e.evalBv env args = .ok v)
    (hv : s.algo.map.lookup v = some (some e)) (hnew : v ∉ s.bank.map Prod.snd) :
  Sound env args output (s.push e v)
  where
    args_eq := h.args_eq
    bank := by
      intro p hp
      rw [bank_push] at hp
      rcases List.mem_append.mp hp with hp | hp
      · apply h.bank p hp
      · obtain rfl := List.mem_singleton.mp hp
        apply he
    map := h.map
    calls := h.calls
    known := by
      intro p hp
      rw [bank_push] at hp
      rcases List.mem_append.mp hp with hp | hp
      · apply h.known p hp
      · obtain rfl := List.mem_singleton.mp hp
        use e, hv
    output := h.output
    nodup := by
      rw [bank_push, List.map_append, List.nodup_append]
      use h.nodup, List.nodup_singleton _
      rintro w hw w' hw' rfl
      obtain rfl := List.mem_singleton.mp hw'
      apply hnew hw

/-- A vector that is not in the map is not stored. -/
theorem Sound.not_mem_bank (h : Sound env args output s) (hv : s.algo.map.lookup v = none) :
  v ∉ s.bank.map Prod.snd
  := by
  intro hmem
  obtain ⟨p, hp, rfl⟩ := List.mem_map.mp hmem
  obtain ⟨e', he'⟩ := h.known p hp
  simp [hv] at he'

/-- Soundness of an offer: an expression comes with its value. -/
def OfferSound (env : Environ) (args : List (Bv N)) (offer : Offer N) : Prop :=
  ∀ counted e v, offer = .insert counted e v → e.evalBv env args = .ok v

/-- Every expansion of `insert!` on an expression and its value preserves the invariant, also
when it ends the run. -/
theorem Sound.insert (f : Callback σ N) (h : Sound env args output s) (offer : Offer N)
    (hoffer : OfferSound env args offer) :
  Sound env args output (Machine.final (s.insert f offer))
  := by
  cases offer with
  | fault fault => exact h
  | insert counted e v =>
      have he := hoffer counted e v rfl
      have htick := h.tick counted
      rcases final_insert f s counted e v with ⟨hv, u, hs⟩ | ⟨hv, u, hs⟩ | ⟨e', -, hs⟩
      · have hv' : (s.tick counted).algo.map.lookup v = none := by simpa using hv
        have hlog := (htick.put he hv').log he u
        rcases hs with hs | hs
        · rw [hs]
          apply hlog
        · rw [hs]
          apply hlog.push he
          · show ((s.tick counted).put e v).algo.map.lookup v = some (some e)
            rw [lookup_put, if_pos rfl]
          · apply htick.not_mem_bank hv'
      · rw [hs]
        apply htick.log he
      · rw [hs]
        apply htick

theorem OfferSound.of {counted : Bool} {r : Except Fault (Bv N)}
    (h : ∀ v, r = .ok v → e.evalBv env args = .ok v) :
  OfferSound env args (.of counted e r)
  := by
  rintro counted' e' v hoffer
  cases r with
  | error f => cases hoffer
  | ok w =>
      cases hoffer
      apply h _ rfl

theorem OfferSound.insert₂ {counted : Bool} {o : BinOp} {p₁ p₂ : Expr × Bv N}
    (h₁ : p₁.1.evalBv env args = .ok p₁.2) (h₂ : p₂.1.evalBv env args = .ok p₂.2) :
  OfferSound env args (Algo.insert₂ env counted o p₁ p₂)
  := by
  apply OfferSound.of
  intro v hv
  apply ExprIn.evalBv_bin.mpr
  use p₁.2, h₁, p₂.2, h₂

/-- The operands of the rules come with their values. -/
theorem Sound.operand (h : Sound env args output s) {p : Expr × Bv N}
    (hp : s.algo.Operand env p) :
  p.1.evalBv env args = .ok p.2
  := by
  rcases hp with hp | ⟨p₁, -, hp⟩
  · apply h.bank p (List.mem_append_left _ hp)
  · rw [h.args_eq] at hp
    apply ExprIn.evalBv_of_mem_forEachSubexpr hp

/-- Every rule offers expressions with their values. -/
theorem Sound.offers (h : Sound env args output s) (offer : Offer N)
    (hoffer : offer ∈ s.algo.offers env) :
  OfferSound env args offer
  := by
  obtain ⟨rule, -, hoffer⟩ := Algo.exists_rule_of_mem_offers hoffer
  cases hoffer with
  | op1 hrule hp₁ =>
      have h₁ := h.operand (Algo.stored_of_mem_row hp₁).operand
      apply OfferSound.of
      intro v hv
      apply ExprIn.evalBv_un.mpr ⟨_, h₁, hv⟩
  | op1Constant hrule hp₁ => apply OfferSound.insert₂ (h.operand hp₁.operand) ExprIn.evalBv_const
  | op2Sym hrule hp₁ hp₂ => apply OfferSound.insert₂ (h.operand hp₁) (h.operand hp₂)
  | op2Shift hrule hshift hp₁ hp₂ hatom =>
      apply OfferSound.insert₂ (h.operand hp₁.operand) (h.operand hp₂.operand)
  | op2 hrule hshift hp₁ hp₂ => apply OfferSound.insert₂ (h.operand hp₁) (h.operand hp₂)
  | op2Nonzero hrule hp hzero =>
      apply OfferSound.insert₂ (h.operand hp.operands.1.operand) (h.operand hp.operands.2)
  | var hrule hv =>
      rintro counted e v' heq
      cases heq
      rw [h.args_eq] at hv
      apply ExprIn.evalBv_var.mpr hv
  | varPanic hrule hv => rintro counted e v ⟨⟩
  | chatgpt hrule hv =>
      apply OfferSound.of
      intro v hv
      rw [h.args_eq] at hv
      apply hv
  | const hrule =>
      rintro counted e v' heq
      cases heq
      apply ExprIn.evalBv_const
  | panic hrule => rintro counted e v ⟨⟩
  | walk hp₁ hfault => rintro counted e v ⟨⟩

/-- Every reachable state is sound. -/
theorem Reachable.sound {config : Config} {dagSize : Bool} {f : Callback σ N} {u : σ}
    (h : Reachable env f (Algo.new config args output dagSize) u s) :
  Sound env args output s
  := by
  apply Machine.Reachable.invariant (P := Sound env args output) (G := OfferSound env args)
    (Sound.start config dagSize u) _ _ _ h
  · intro s₀ hs₀
    apply hs₀.offers
  · intro s₀ offer hs₀ hoffer
    apply hs₀.insert f offer hoffer
  · intro s₀ hs₀
    apply hs₀.finish

theorem reachable_final (env : Environ) (f : Callback σ N) (algo : Algo N) (u : σ) (k : ℕ) :
  Reachable env f algo u (Machine.final (runUntil env f algo u k))
  := Machine.reachable_final_loop _ k

end Sound

/-- In every state that `run_until` reaches, stored pairs, entries of the map and calls of the
closure have the vector of the expression, the stored vectors are distinct and differ from
the output, and every expression that `reverse` builds from a lookup, in that state or during
a call of the closure, has the output as its vector. -/
theorem bank_invariant {σ : Type} (env : Environ) (config : Config) (args : List (Bv N))
    (output : Bv N) (dagSize : Bool) (f : Callback σ N) (u : σ) {s : Run σ N}
    (h : Reachable env f (Algo.new config args output dagSize) u s) :
  (∀ p ∈ s.bank, p.1.evalBv env args = .ok p.2)
    ∧ (∀ v e, s.algo.map.lookup v = some (some e) → e.evalBv env args = .ok v)
    ∧ (∀ c ∈ s.calls, c.expr.evalBv env args = .ok c.value)
    ∧ (s.bank.map Prod.snd).Nodup
    ∧ output ∉ s.bank.map Prod.snd
    ∧ (∀ (r : ReverseRule) e v e', e.evalBv env args = .ok v →
        r.reverse s.algo e v output = some e' → e'.evalBv env args = .ok output)
    ∧ ∀ c ∈ s.calls, ∀ (r : ReverseRule) e',
        r.reverse c.algo c.expr c.value output = some e' → e'.evalBv env args = .ok output
  := by
  have hs := h.sound
  have houtput : output ∉ s.bank.map Prod.snd := by
    intro hmem
    obtain ⟨p, hp, hpo⟩ := List.mem_map.mp hmem
    obtain ⟨e, he⟩ := hs.known p hp
    rw [hpo, hs.output] at he
    cases he
  use hs.bank, hs.map, fun c hc => (hs.calls c hc).1, hs.nodup, houtput
  constructor
  · intro r e v e' he hrev
    apply ReverseRule.evalBv_of_reverse hs.map he hrev
  · intro c hc r e' hrev
    apply ReverseRule.evalBv_of_reverse (hs.calls c hc).2 (hs.calls c hc).1 hrev

/-- The state of a run with an argument, a constant and a sum after four sizes. -/
def sums : Run Unit 1 :=
  Machine.final <| runUntil (Environ.new 0) (fun _ _ _ => pure ())
    (Algo.new [.var 0, .const 1, .add] [Bv.splat 5] (Bv.splat 6) true) () 4

/-- The run stores four pairs, and the closure is called with the sum that is the output. -/
theorem bank_invariant_sums :
  sums.bank.length = 4 ∧ (∃ c ∈ sums.calls, c.value = Bv.splat 6)
    ∧ (∀ p ∈ sums.bank, p.1.evalBv (Environ.new 0) [Bv.splat 5] = .ok p.2)
    ∧ Bv.splat 6 ∉ sums.bank.map Prod.snd
  := by
  obtain ⟨hbank, -, -, -, houtput, -⟩ := bank_invariant (Environ.new 0) [.var 0, .const 1, .add]
    [Bv.splat 5] (Bv.splat 6) true (fun _ _ _ => pure ()) () (reachable_final _ _ _ _ 4)
  exact ⟨by decide, by decide, hbank, houtput⟩

end Run

end DryadSynth
