import DryadSynth.Library.Exits
import DryadSynth.Parse.Script

/-!
# Constraints that are passed over

`PbeConstraint::parse` passes over an equality whose left side calls another function, and
`RefImplConstraint::parse` reads no constraint at all.  Nothing is lost where every constraint is
an example, and where every constraint compares the first definition of the file with the function
to synthesize on the same arguments (`dropsNothing`).
-/

namespace DryadSynth

open QFBV (Value)

/-! ### The examples -/

namespace PbeConstraint

/-- There is a column for each argument, with an entry for each example. -/
structure Regular (n : ℕ) (c : PbeConstraint) : Prop where
  columns : c.input.length = n
  entries : ∀ x ∈ c.input, x.length = c.output.length

/-- One of the examples. -/
def Has (c : PbeConstraint) (as : List (BitVec 64)) (out : BitVec 64) : Prop :=
  ∃ i, c.args i = .ok as ∧ c.output[i]? = some out

section Examples

variable {c : PbeConstraint} {as : List (BitVec 64)} {out : BitVec 64} {func : String} {arity : ℕ}

theorem regular_new (n : ℕ) :
  (new n).Regular n
  := by
  constructor
  · apply List.length_replicate
  · intro x hx
    rw [List.eq_of_mem_replicate hx]
    rfl

theorem input_addExample (out : BitVec 64) (hlen : c.input.length = as.length) :
  (c.addExample as out).input = List.zipWith (fun x p => x ++ [p]) c.input as
  := by
  rw [addExample, ← hlen, List.drop_length, List.append_nil]

theorem Regular.addExample {n : ℕ} (h : c.Regular n) (hlen : as.length = n) :
  (c.addExample as out).Regular n
  := by
  have hinput := input_addExample out (h.columns.trans hlen.symm)
  constructor
  · rw [hinput, List.length_zipWith, h.columns, hlen, Nat.min_self]
  · rw [hinput]
    intro x hx
    rw [← List.map_uncurry_zip_eq_zipWith] at hx
    obtain ⟨⟨y, p⟩, hy, rfl⟩ := List.mem_map.mp hx
    simp [PbeConstraint.addExample, h.entries y (List.of_mem_zip hy).1]

theorem index_append (x y : List (BitVec 64)) {i : ℕ} {v : BitVec 64} (h : index x i = .ok v) :
  index (x ++ y) i = .ok v
  := by
  unfold index at h ⊢
  split at h
  · next hx =>
      obtain ⟨hi, -⟩ := List.getElem?_eq_some_iff.mp hx
      rw [List.getElem?_append_left hi, hx]
      exact h
  · cases h

theorem mapM_index_zipWith {cols : List (List (BitVec 64))} {i : ℕ} {as' : List (BitVec 64)}
    (hlen : cols.length = as.length) (h : cols.mapM (fun x => index x i) = .ok as') :
  (List.zipWith (fun x p => x ++ [p]) cols as).mapM (fun x => index x i) = .ok as'
  := by
  induction cols generalizing as as' with
  | nil => exact h
  | cons x cols ih =>
      obtain ⟨a, as, rfl⟩ := List.exists_cons_of_length_eq_add_one hlen.symm
      simp only [List.mapM_cons, bind_eq_ok] at h
      obtain ⟨v, hv, vs, hvs, heq⟩ := h
      simp only [List.zipWith_cons_cons, List.mapM_cons, bind_eq_ok]
      exact ⟨v, index_append x _ hv, vs, ih (Nat.add_right_cancel hlen) hvs, heq⟩

theorem mapM_index_last {cols : List (List (BitVec 64))} {k : ℕ}
    (hlen : cols.length = as.length) (hcols : ∀ x ∈ cols, x.length = k) :
  (List.zipWith (fun x p => x ++ [p]) cols as).mapM (fun x => index x k) = .ok as
  := by
  induction cols generalizing as with
  | nil =>
      rw [List.length_nil, eq_comm, List.length_eq_zero_iff] at hlen
      rw [hlen]
      rfl
  | cons x cols ih =>
      obtain ⟨a, as, rfl⟩ := List.exists_cons_of_length_eq_add_one hlen.symm
      obtain ⟨hx, hcols⟩ := List.forall_mem_cons.mp hcols
      have hlast : index (x ++ [a]) k = .ok a := by simp [index, ← hx]
      simp only [List.zipWith_cons_cons, List.mapM_cons, bind_eq_ok]
      exact ⟨a, hlast, as, ih (Nat.add_right_cancel hlen) hcols, rfl⟩

theorem Has.addExample {as' : List (BitVec 64)} {out' : BitVec 64} (h : c.Has as' out')
    (hlen : c.input.length = as.length) :
  (c.addExample as out).Has as' out'
  := by
  obtain ⟨i, has, hout⟩ := h
  obtain ⟨hi, -⟩ := List.getElem?_eq_some_iff.mp hout
  refine ⟨i, ?_, ?_⟩
  · rw [args, input_addExample out hlen]
    apply mapM_index_zipWith hlen has
  · rw [PbeConstraint.addExample, List.getElem?_append_left hi, hout]

theorem has_addExample {n : ℕ} (out : BitVec 64) (h : c.Regular n) (hlen : as.length = n) :
  (c.addExample as out).Has as out
  := by
  have hcols : c.input.length = as.length := h.columns.trans hlen.symm
  refine ⟨c.output.length, ?_, ?_⟩
  · rw [args, input_addExample out hcols]
    apply mapM_index_last hcols h.entries
  · simp [PbeConstraint.addExample]

/-- A command leaves the examples as they are, or adds one. -/
theorem parseCommand_cases {c' : PbeConstraint} {e : SExpr}
    (h : parseCommand func arity c e = .ok c') :
  c' = c ∨ ∃ as out, as.length = arity ∧ c' = c.addExample as out
  := by
  simp only [parseCommand, bind_eq_ok] at h
  obtain ⟨r, -, h⟩ := h
  split at h
  · obtain ⟨r, -, h⟩ := bind_eq_ok.mp h
    split at h
    · obtain ⟨r, -, h⟩ := bind_eq_ok.mp h
      split at h
      · split_ifs at h with hcall
        · simp only [bind_eq_ok] at h
          obtain ⟨as, has, out, -, h⟩ := h
          cases h
          right
          refine ⟨as, out, ?_, rfl⟩
          rw [← (Exits.mapM_eq_ok.mp has).length_eq, hcall.2]
        · cases h
          left
          rfl
      · cases h
    · cases h
  · cases h
    left
    rfl

theorem Regular.parseCommand {c' : PbeConstraint} {e : SExpr} (hc : c.Regular arity)
    (h : parseCommand func arity c e = .ok c') :
  c'.Regular arity
  := by
  rcases parseCommand_cases h with rfl | ⟨as, out, hlen, rfl⟩
  · exact hc
  · apply hc.addExample hlen

theorem Has.parseCommand {c' : PbeConstraint} {e : SExpr} (hhas : c.Has as out)
    (hc : c.Regular arity) (h : PbeConstraint.parseCommand func arity c e = .ok c') :
  c'.Has as out
  := by
  rcases parseCommand_cases h with rfl | ⟨as', out', hlen, rfl⟩
  · exact hhas
  · apply hhas.addExample (hc.columns.trans hlen.symm)

/-- The example of a constraint on the function itself is there in the end. -/
theorem exists_example {l : List SExpr} {c' : PbeConstraint} (hc : c.Regular arity)
    (h : l.foldlM (PbeConstraint.parseCommand func arity) c = .ok c') {args : List SExpr}
    {r : SExpr} (hlen : args.length = arity)
    (hmem : .list [.id "constraint", .list [.id "=", .list (.id func :: args), r]] ∈ l) :
  ∃ as out, c'.Has as out ∧ List.Forall₂ (fun a v => parseInput r a = .ok v) args as ∧
    parseOutput r = .ok out
  := by
  induction l generalizing c with
  | nil => cases hmem
  | cons e l ih =>
      rw [List.foldlM_cons] at h
      obtain ⟨c₁, h₁, h⟩ := bind_eq_ok.mp h
      have hc₁ := hc.parseCommand h₁
      rcases List.mem_cons.mp hmem with rfl | hmem
      · simp only [PbeConstraint.parseCommand, SExpr.call_list_id, ok_bind, hlen, and_self,
          if_true, bind_eq_ok] at h₁
        obtain ⟨as, has, out, hout, h₁⟩ := h₁
        cases h₁
        have hinputs := Exits.mapM_eq_ok.mp has
        have hhas := has_addExample out hc (hinputs.length_eq.symm.trans hlen)
        refine ⟨as, out, ?_, hinputs, hout⟩
        have hrun := Exits.foldlM_eq_ok (I := fun c => c.Regular arity ∧ c.Has as out)
          ⟨hc₁, hhas⟩ ?_ h
        · exact hrun.2
        · rintro e - c c' ⟨hc, hhas⟩ h
          exact ⟨hc.parseCommand h, hhas.parseCommand hc h⟩
      · apply ih hc₁ h hmem

end Examples

end PbeConstraint

/-! ### Calls and literals -/

section Terms

variable {w : ℕ} {U : QFBV.Interpretation w} {ρ : QFBV.Valuation w}

theorem denoteAll_eq_some {ss : List SExpr} {us : List (QFBV.Term w)} {vs : List (Value w)}
    (hus : SExpr.termsAt w ss = some us) (hvs : QFBV.denoteAll U ρ us = some vs) :
  List.Forall₂ (Denotes U ρ) ss vs
  := by
  induction ss generalizing us vs with
  | nil =>
      cases hus
      cases hvs
      exact .nil
  | cons s ss ih =>
      obtain ⟨t, us', ht, hus', rfl⟩ := SExpr.termsAt_cons_eq_some.mp hus
      rw [QFBV.denoteAll_cons] at hvs
      obtain ⟨v, hv, hvs⟩ := Option.bind_eq_some_iff.mp hvs
      obtain ⟨vs', hvs', rfl⟩ := Option.map_eq_some_iff.mp hvs
      exact .cons ⟨t, ht, hv⟩ (ih hus' hvs')

theorem denotes_unique :
  Relator.RightUnique (Denotes U ρ)
  := by
  rintro s v v' ⟨t, ht, hv⟩ ⟨t', ht', hv'⟩
  obtain rfl := Option.some.inj (ht.symm.trans ht')
  apply Option.some.inj (hv.symm.trans hv')

/-- A call has the value of the function at the values of its arguments. -/
theorem Denotes.call {f : String} {ss : List SExpr} {v : Value w}
    (h : Denotes U ρ (.list (.id f :: ss)) v) :
  ∃ vs, List.Forall₂ (Denotes U ρ) ss vs ∧ QFBV.meaning U f vs = some v
  := by
  obtain ⟨t, ht, hv⟩ := h
  obtain ⟨us, hus, rfl⟩ := SExpr.termAt_call_eq_some.mp ht
  obtain ⟨vs, hvs, hv⟩ := Option.bind_eq_some_iff.mp hv
  exact ⟨vs, denoteAll_eq_some hus hvs, hv⟩

theorem Denotes.call₁ {f : String} {s₁ : SExpr} {v : Value w}
    (h : Denotes U ρ (.list [.id f, s₁]) v) :
  ∃ v₁, Denotes U ρ s₁ v₁ ∧ QFBV.meaning U f [v₁] = some v
  := by
  obtain ⟨vs, hvs, hm⟩ := h.call
  simp only [List.forall₂_cons_left_iff, List.forall₂_nil_left_iff] at hvs
  obtain ⟨v₁, _, hv₁, rfl, rfl⟩ := hvs
  exact ⟨v₁, hv₁, hm⟩

theorem Denotes.call₂ {f : String} {s₁ s₂ : SExpr} {v : Value w}
    (h : Denotes U ρ (.list [.id f, s₁, s₂]) v) :
  ∃ v₁ v₂, Denotes U ρ s₁ v₁ ∧ Denotes U ρ s₂ v₂ ∧ QFBV.meaning U f [v₁, v₂] = some v
  := by
  obtain ⟨vs, hvs, hm⟩ := h.call
  simp only [List.forall₂_cons_left_iff, List.forall₂_nil_left_iff] at hvs
  obtain ⟨v₁, _, hv₁, ⟨v₂, _, hv₂, rfl, rfl⟩, rfl⟩ := hvs
  exact ⟨v₁, v₂, hv₁, hv₂, hm⟩

theorem Denotes.call₃ {f : String} {s₁ s₂ s₃ : SExpr} {v : Value w}
    (h : Denotes U ρ (.list [.id f, s₁, s₂, s₃]) v) :
  ∃ v₁ v₂ v₃, Denotes U ρ s₁ v₁ ∧ Denotes U ρ s₂ v₂ ∧ Denotes U ρ s₃ v₃ ∧
    QFBV.meaning U f [v₁, v₂, v₃] = some v
  := by
  obtain ⟨vs, hvs, hm⟩ := h.call
  simp only [List.forall₂_cons_left_iff, List.forall₂_nil_left_iff] at hvs
  obtain ⟨v₁, _, hv₁, ⟨v₂, _, hv₂, ⟨v₃, _, hv₃, rfl, rfl⟩, rfl⟩, rfl⟩ := hvs
  exact ⟨v₁, v₂, v₃, hv₁, hv₂, hv₃, hm⟩

/-- A literal means the number that is read. -/
theorem literalAt_of_u64Constant {s : String} {span : SExpr} {a : BitVec 64} {y : BitVec w}
    (h : u64Constant s span = .ok a) (hy : SExpr.literalAt w s = some y) :
  a.toNat < 2 ^ w ∧ y = a.setWidth w
  := by
  unfold u64Constant at h
  unfold SExpr.literalAt at hy
  split at h
  · next hs =>
      cases h
      rw [hs] at hy
      dsimp only at hy
      split_ifs at hy with hlt
      cases hy
      exact ⟨hlt, rfl⟩
  · cases h
  · cases h

theorem parseInput_eq_ok {r arg : SExpr} {a : BitVec 64}
    (h : PbeConstraint.parseInput r arg = .ok a) :
  ∃ s, arg = .const s ∧ u64Constant s arg = .ok a
  := by
  cases arg with
  | const s => exact ⟨s, rfl, h⟩
  | _ => cases h

theorem parseOutput_eq_ok {r : SExpr} {a : BitVec 64} (h : PbeConstraint.parseOutput r = .ok a) :
  ∃ s, r = .const s ∧ u64Constant s r = .ok a
  := by
  cases r with
  | const s => exact ⟨s, rfl, h⟩
  | _ => cases h

theorem Denotes.const {s : String} {span : SExpr} {a : BitVec 64} {v : Value w}
    (hv : Denotes U ρ (.const s) v) (h : u64Constant s span = .ok a) :
  a.toNat < 2 ^ w ∧ v = .bits (a.setWidth w)
  := by
  obtain ⟨t, ht, hv⟩ := hv
  obtain ⟨y, hy, rfl⟩ := Option.map_eq_some_iff.mp ht
  obtain ⟨hlt, rfl⟩ := literalAt_of_u64Constant h hy
  cases hv
  exact ⟨hlt, rfl⟩

/-- The inputs of an example have the values that are read. -/
theorem values_of_inputs {r : SExpr} {args : List SExpr} {as : List (BitVec 64)}
    (h : List.Forall₂ (fun a v => PbeConstraint.parseInput r a = .ok v) args as)
    {vs : List (Value w)} (hvs : List.Forall₂ (Denotes U ρ) args vs) :
  vs = (as.map (BitVec.setWidth w)).map .bits
  := by
  induction h generalizing vs with
  | nil =>
      cases hvs
      rfl
  | cons ha _ ih =>
      cases hvs with
      | cons hv hvs =>
          obtain ⟨s, rfl, hs⟩ := parseInput_eq_ok ha
          rw [(hv.const hs).2, ih hvs]
          rfl

end Terms

/-! ### The reference -/

namespace OwnedExpr

/-- The lists that are read as an expression. -/
inductive Read (names : List String) : List SExpr → OwnedExpr → Prop
  | un {o : UnOp} {s₁ : SExpr} {e₁ : OwnedExpr} (h₁ : fromSExpr names s₁ = .ok e₁) :
      Read names [.id o.smtName, s₁] (.un o e₁)
  | bin {o : BinOp} {s₁ s₂ : SExpr} {e₁ e₂ : OwnedExpr} (h₁ : fromSExpr names s₁ = .ok e₁)
      (h₂ : fromSExpr names s₂ = .ok e₂) : Read names [.id o.smtName, s₁, s₂] (.bin o e₁ e₂)
  | eq {s₁ s₂ : SExpr} {e₁ e₂ : OwnedExpr} (h₁ : fromSExpr names s₁ = .ok e₁)
      (h₂ : fromSExpr names s₂ = .ok e₂) : Read names [.id "=", s₁, s₂] (.bin .xor e₁ e₂)
  | ite {s₁ s₂ s₃ : SExpr} {e₁ e₂ e₃ : OwnedExpr} (h₁ : fromSExpr names s₁ = .ok e₁)
      (h₂ : fromSExpr names s₂ = .ok e₂) (h₃ : fromSExpr names s₃ = .ok e₃) :
      Read names [.id "ite", s₁, s₂, s₃] (.ite e₁ e₂ e₃)

theorem read_of_fromSExpr {names : List String} {l : List SExpr} {e : OwnedExpr}
    (h : fromSExpr names (.list l) = .ok e) :
  Read names l e
  := by
  rw [fromSExpr, fromSExprs_eq_map] at h
  rcases (SExpr.list l).call_cases with hl | ⟨n, ops, hl⟩ | ⟨hcall, -⟩
  · cases hl
    cases h
  · cases hl
    rcases ops with _ | ⟨s, _ | ⟨t, _ | ⟨u, _ | ⟨v, ops⟩⟩⟩⟩
    · cases h
    · simp only [fromCall, SExpr.call_list_id, List.map_cons, List.map_nil, ok_bind] at h
      split at h
      · next o ho =>
          obtain ⟨e₁, h₁, h⟩ := bind_eq_ok.mp h
          cases h
          obtain rfl : o.smtName = n := by simpa using List.find?_some ho
          exact .un h₁
      · cases h
    · simp only [fromCall, SExpr.call_list_id, List.map_cons, List.map_nil, ok_bind] at h
      split at h
      · next o ho =>
          obtain ⟨e₁, h₁, h⟩ := bind_eq_ok.mp h
          obtain ⟨e₂, h₂, h⟩ := bind_eq_ok.mp h
          cases h
          obtain rfl : o.smtName = n := by simpa using List.find?_some ho
          exact .bin h₁ h₂
      · split_ifs at h with hn
        · obtain ⟨e₁, h₁, h⟩ := bind_eq_ok.mp h
          obtain ⟨e₂, h₂, h⟩ := bind_eq_ok.mp h
          cases h
          rw [hn]
          exact .eq h₁ h₂
        · cases h
    · simp only [fromCall, SExpr.call_list_id, List.map_cons, List.map_nil, ok_bind] at h
      split_ifs at h with hn
      · obtain ⟨e₁, h₁, h⟩ := bind_eq_ok.mp h
        obtain ⟨e₂, h₂, h⟩ := bind_eq_ok.mp h
        obtain ⟨e₃, h₃, h⟩ := bind_eq_ok.mp h
        cases h
        rw [hn]
        exact .ite h₁ h₂ h₃
      · cases h
    · cases h
  · rw [fromCall, hcall] at h
    cases h

end OwnedExpr

namespace SExpr

/-- The s-expression has a Boolean value, if it has one. -/
inductive IsBool : SExpr → Prop
  | eq {a b : SExpr} : IsBool (.list [.id "=", a, b])
  | ite {c a b : SExpr} (h : IsBool a) : IsBool (.list [.id "ite", c, a, b])

/-- No equality in the s-expression compares Booleans. -/
inductive Plain : SExpr → Prop
  | id {s : String} : Plain (.id s)
  | const {s : String} : Plain (.const s)
  | list {l : List SExpr} (h : ∀ s ∈ l, Plain s)
      (heq : ∀ a b, l = [.id "=", a, b] → ¬ IsBool a) : Plain (.list l)

end SExpr

section Reference

variable {w : ℕ} {U : QFBV.Interpretation w} {names : List String} {ys : List (BitVec w)}

/-- The value of a term, for the number that is read: a condition is zero where it is true. -/
def Stands (s : SExpr) (z : BitVec w) : Value w → Prop
  | .bits y => y = z
  | .bool b => s.IsBool ∧ (b = true ↔ z = 0)

/-- An operator with a value is a theory symbol on numbers. -/
theorem UnOp.meaning_of_value {o : UnOp} {a z : BitVec w}
    (h : asBits (QFBV.theory o.smtName [.bits a]) = some z) :
  QFBV.meaning U o.smtName [.bits a] = some (.bits z) ∧
    ∀ b, QFBV.meaning U o.smtName [.bool b] = none
  := by
  rw [asBits_eq_some] at h
  cases o with
  | not => exact ⟨h, fun _ => rfl⟩
  | neg => exact ⟨h, fun _ => rfl⟩
  | fop1 i =>
      have hnone : QFBV.theory (w := w) (UnOp.smtName (.fop1 i)) [.bits a] = none := by
        fin_cases i <;> rfl
      rw [hnone] at h
      cases h

/-- An operator with a value is a theory symbol on numbers. -/
theorem BinOp.meaning_of_value {o : BinOp} {a b z : BitVec w}
    (h : asBits (QFBV.theory o.smtName [.bits a, .bits b]) = some z) :
  QFBV.meaning U o.smtName [.bits a, .bits b] = some (.bits z) ∧
    ∀ v₁ v₂ r, QFBV.meaning U o.smtName [v₁, v₂] = some r → ∃ x y, v₁ = .bits x ∧ v₂ = .bits y
  := by
  rw [asBits_eq_some] at h
  by_cases hfop : ∃ i, o = .fop2 i
  · obtain ⟨i, rfl⟩ := hfop
    have hnone : QFBV.theory (w := w) (BinOp.smtName (.fop2 i)) [.bits a, .bits b] = none := by
      fin_cases i <;> rfl
    rw [hnone] at h
    cases h
  · have hmem : o.smtName ∈ QFBV.theorySymbols := by
      cases o with
      | fop2 i => exact absurd ⟨i, rfl⟩ hfop
      | _ => decide
    constructor
    · rw [QFBV.meaning, if_pos hmem, h]
    · intro v₁ v₂ r hr
      rw [QFBV.meaning, if_pos hmem] at hr
      cases v₁ with
      | bits x =>
          cases v₂ with
          | bits y => exact ⟨x, y, rfl, rfl⟩
          | bool c => cases o <;> cases hr
      | bool c => cases o <;> cases v₂ <;> cases hr

theorem stands_ite {s₁ s₂ s₃ : SExpr} {p : Bool} {b c : BitVec w} {v₂ v₃ v : Value w}
    (h₂ : Stands s₂ b v₂) (h₃ : Stands s₃ c v₃)
    (hm : QFBV.meaning U "ite" [.bool p, v₂, v₃] = some v) :
  Stands (.list [.id "ite", s₁, s₂, s₃]) (if p = true then b else c) v
  := by
  cases v₂ with
  | bits y =>
      cases v₃ with
      | bool q => cases hm
      | bits y' =>
          obtain rfl : y = b := h₂
          obtain rfl : y' = c := h₃
          cases hm
          rfl
  | bool q =>
      cases v₃ with
      | bits y' => cases hm
      | bool q' =>
          obtain ⟨hbool, hq⟩ := h₂
          obtain ⟨-, hq'⟩ := h₃
          cases hm
          refine ⟨.ite hbool, ?_⟩
          cases p with
          | true => exact hq
          | false => exact hq'

/-- A variable has the value of its argument. -/
theorem bindParams_findIdx {v : String} {i : ℕ} {y : BitVec w}
    (h : names.findIdx? (fun x => x = v) = some i) (hy : ys[i]? = some y) :
  QFBV.bindParams names (ys.map .bits) v = some (.bits y)
  := by
  induction names generalizing ys i with
  | nil => cases h
  | cons n names ih =>
      rw [List.findIdx?_cons] at h
      split_ifs at h with hn
      · cases h
        obtain ⟨y', ys, rfl⟩ := List.exists_cons_of_ne_nil (show ys ≠ [] by rintro rfl; cases hy)
        cases hy
        simp [QFBV.bindParams, of_decide_eq_true hn]
      · obtain ⟨k, hk, rfl⟩ := Option.map_eq_some_iff.mp h
        obtain ⟨y', ys, rfl⟩ := List.exists_cons_of_ne_nil (show ys ≠ [] by rintro rfl; cases hy)
        have hne : ¬ n = v := by simpa using hn
        have hrest := ih hk hy
        simpa [QFBV.bindParams, hne] using hrest

/-- The expression that is read has the value of the term. -/
theorem stands_of_fromSExpr {s : SExpr} {e : OwnedExpr} (hs : s.Plain)
    (he : OwnedExpr.fromSExpr names s = .ok e) {v : Value w}
    (hv : Denotes U (QFBV.bindParams names (ys.map .bits)) s v) {z : BitVec w}
    (hz : e.value ys = some z) :
  Stands s z v
  := by
  induction s using SExpr.ind generalizing e v z with
  | id n =>
      rw [OwnedExpr.fromSExpr] at he
      split at he
      · next i hi =>
          cases he
          obtain ⟨t, ht, hv⟩ := hv
          cases ht
          rw [QFBV.denote, bindParams_findIdx hi hz] at hv
          cases hv
          rfl
      · cases he
  | const c =>
      rw [OwnedExpr.fromSExpr] at he
      obtain ⟨a, ha, he⟩ := bind_eq_ok.mp he
      cases he
      obtain ⟨hlt, rfl⟩ := hv.const ha
      rw [ExprIn.value, if_pos hlt, BitVec.ofNat_toNat] at hz
      apply Option.some.inj hz
  | list l ih =>
      cases hs with
      | list hplain hequal =>
          cases OwnedExpr.read_of_fromSExpr he with
          | @un o s₁ e₁ h₁ =>
              obtain ⟨a, ha, hz⟩ := ExprIn.value_un.mp hz
              obtain ⟨v₁, hv₁, hm⟩ := hv.call₁
              have h := ih s₁ (by simp) (hplain s₁ (by simp)) h₁ hv₁ ha
              obtain ⟨hbits, hbool⟩ := UnOp.meaning_of_value (U := U) hz
              cases v₁ with
              | bits x =>
                  obtain rfl : x = a := h
                  cases hbits.symm.trans hm
                  rfl
              | bool p => cases (hbool p).symm.trans hm
          | @bin o s₁ s₂ e₁ e₂ h₁ h₂ =>
              obtain ⟨a, ha, b, hb, hz⟩ := ExprIn.value_bin.mp hz
              obtain ⟨v₁, v₂, hv₁, hv₂, hm⟩ := hv.call₂
              obtain ⟨hbits, hboth⟩ := BinOp.meaning_of_value (U := U) hz
              obtain ⟨x, y, rfl, rfl⟩ := hboth v₁ v₂ v hm
              obtain rfl : x = a := ih s₁ (by simp) (hplain s₁ (by simp)) h₁ hv₁ ha
              obtain rfl : y = b := ih s₂ (by simp) (hplain s₂ (by simp)) h₂ hv₂ hb
              cases hbits.symm.trans hm
              rfl
          | @eq s₁ s₂ e₁ e₂ h₁ h₂ =>
              obtain ⟨a, ha, b, hb, hz⟩ := ExprIn.value_bin.mp hz
              obtain ⟨v₁, v₂, hv₁, hv₂, hm⟩ := hv.call₂
              have hl := ih s₁ (by simp) (hplain s₁ (by simp)) h₁ hv₁ ha
              have hr := ih s₂ (by simp) (hplain s₂ (by simp)) h₂ hv₂ hb
              cases v₁ with
              | bool p => exact absurd hl.1 (hequal s₁ s₂ rfl)
              | bits x =>
                  cases v₂ with
                  | bool p => cases hm
                  | bits y =>
                      obtain rfl : x = a := hl
                      obtain rfl : y = b := hr
                      obtain rfl : x ^^^ y = z := Option.some.inj hz
                      cases hm
                      exact ⟨.eq, by simp⟩
          | @ite s₁ s₂ s₃ e₁ e₂ e₃ h₁ h₂ h₃ =>
              obtain ⟨a, ha, b, hb, c, hc, rfl⟩ := ExprIn.value_ite.mp hz
              obtain ⟨v₁, v₂, v₃, hv₁, hv₂, hv₃, hm⟩ := hv.call₃
              have hcond := ih s₁ (by simp) (hplain s₁ (by simp)) h₁ hv₁ ha
              have hthen := ih s₂ (by simp) (hplain s₂ (by simp)) h₂ hv₂ hb
              have helse := ih s₃ (by simp) (hplain s₃ (by simp)) h₃ hv₃ hc
              cases v₁ with
              | bits x => cases hm
              | bool p =>
                  have hp : p = (a == 0) := by
                    rw [Bool.eq_iff_iff, hcond.2, beq_iff_eq]
                  rw [← hp]
                  apply stands_ite hthen helse hm

end Reference

/-! ### Files of which everything is read -/

namespace RefImplConstraint

theorem eq_map_head {args : SExpr} {l : List SExpr} {names : List String}
    (h : l.mapM (parseArg args) = .ok names) :
  names = l.map SExpr.head
  := by
  have hall := Exits.mapM_eq_ok.mp h
  clear h
  induction hall with
  | nil => rfl
  | @cons s x l xs hx _ ih =>
      obtain ⟨y, ty, rfl⟩ := (outcome_parseArg args s).ok.mp ⟨x, hx⟩
      cases hx
      rw [List.map_cons, ← ih, SExpr.head]

/-- The first definition of the file is read. -/
theorem exists_of_parse {l : List SExpr} {ref : RefImplConstraint}
    (h : parse (.list l) = .ok (some ref)) :
  ∃ x params ty body, l.find? SExpr.isDefinition
      = some (.list [.id "define-fun", x, .list params, ty, body]) ∧
    ref.args = params.length ∧
    OwnedExpr.fromSExpr (params.map SExpr.head) body = .ok ref.refImpl
  := by
  rw [parse] at h
  induction l with
  | nil => cases h
  | cons e l ih =>
      rw [parseCommands] at h
      obtain ⟨r, hr, h⟩ := bind_eq_ok.mp h
      split at h
      · next x args ty body =>
          rw [SExpr.call_eq_some hr]
          cases args with
          | list params =>
              obtain ⟨names, hnames, h⟩ := bind_eq_ok.mp h
              obtain ⟨body', hbody, h⟩ := bind_eq_ok.mp h
              cases h
              rw [eq_map_head hnames] at hbody ⊢
              exact ⟨x, params, ty, body, rfl, List.length_map _, hbody⟩
          | _ => cases h
      · next hne =>
          have hdef : SExpr.isDefinition e = false := by
            unfold SExpr.isDefinition
            split
            · cases hr
              exact absurd rfl (hne _ _ _ _)
            · rfl
          rw [List.find?_cons_of_neg (by simp [hdef])]
          apply ih h

end RefImplConstraint

namespace File

variable (file : File)

/-- The constraint is an equality with a call of the function itself on the left. -/
def IsExample (v : SExpr) : Prop :=
  ∃ args r, v = .list [.id "=", .list (.id file.problem.name :: args), r] ∧
    args.length = file.problem.args.length

/-- The constraint compares a definition of `n` arguments with the function itself on the same
arguments. -/
def Compares (d : String) (n : ℕ) (v : SExpr) : Prop :=
  ∃ ts, v = .list [.id "=", .list (.id d :: ts), .list (.id file.problem.name :: ts)] ∧
    ts.length = n

/-- The definition that is read as the reference. -/
def referenceDefinition : Option SExpr := file.commands.find? SExpr.isDefinition

/-- The constraints are terms of the declared width.  Where there are examples, every constraint is
one; where there are none, every constraint compares the first definition of the file, of which the
body compares no Booleans. -/
structure ReadsAll : Prop where
  written : ∀ v ∈ file.constraints, (v.termAt file.width).isSome
  examples : 0 < file.examples.len → ∀ v ∈ file.constraints, file.IsExample v
  reference : file.examples.len = 0 → ∀ e, file.referenceDefinition = some e →
    ∃ d params ty body, e = .list [.id "define-fun", .id d, .list params, ty, body] ∧
      (body.termAt file.width).isSome ∧ body.Plain ∧
      ∀ v ∈ file.constraints, file.Compares d params.length v

variable {file}

theorem mem_constraints {v : SExpr} :
  v ∈ file.constraints ↔ .list [.id "constraint", v] ∈ file.commands
  := by
  rw [constraints, List.mem_filterMap]
  constructor
  · rintro ⟨e, he, hv⟩
    unfold SExpr.asConstraint at hv
    split at hv
    · cases hv
      exact he
    · cases hv
  · intro hv
    exact ⟨_, hv, rfl⟩

theorem bits_eq_some {w : ℕ} {vs : List (Value w)} {ys : List (BitVec w)} :
  bits vs = some ys ↔ vs = ys.map .bits
  := by
  induction vs generalizing ys with
  | nil => cases ys <;> simp [bits]
  | cons v vs ih =>
      cases v with
      | bits y => cases ys <;> simp [bits, ih, and_comm]
      | bool b => cases ys <;> simp [bits]

/-- The function to synthesize has a value on as many numbers as it has arguments. -/
theorem Interprets.eq_bits {g : file.Candidate} {U : QFBV.Interpretation file.width}
    (hU : file.Interprets g U) {vs : List (Value file.width)} {v : Value file.width}
    (h : QFBV.meaning U file.problem.name vs = some v) :
  ∃ ys, vs = ys.map .bits ∧ v = .bits (g ys)
  := by
  rw [QFBV.meaning, if_neg hU.name, hU.call] at h
  obtain ⟨ys, hys, h⟩ := Option.bind_eq_some_iff.mp h
  split_ifs at h
  cases h
  exact ⟨ys, bits_eq_some.mp hys, rfl⟩

theorem satisfies_of_examples (h : file.ReadsAll) (hlen : 0 < file.examples.len)
    {g : file.Candidate} (hg : file.MeetsExamples g) :
  file.Satisfies g
  := by
  intro U hU v hv
  refine ⟨h.written v hv, ?_⟩
  intro σ r hr
  obtain ⟨args, out, rfl, hargs⟩ := h.examples hlen v hv
  obtain ⟨as, a, ⟨i, has, ha⟩, hinputs, houtput⟩ :=
    PbeConstraint.exists_example (PbeConstraint.regular_new _) file.examples_eq hargs
      (mem_constraints.mp hv)
  obtain ⟨v₁, v₂, hv₁, hv₂, hm⟩ := hr.call₂
  obtain ⟨vs, hvs, hv₁⟩ := hv₁.call
  obtain ⟨ys, hys, rfl⟩ := hU.eq_bits hv₁
  obtain ⟨s, rfl, hs⟩ := parseOutput_eq_ok houtput
  obtain ⟨-, rfl⟩ := hv₂.const hs
  have hread := bits_eq_some.mpr (values_of_inputs hinputs hvs)
  obtain rfl := Option.some.inj (hread.symm.trans (bits_eq_some.mpr hys))
  rw [hg i as a has ha] at hm
  cases hm
  simp

theorem satisfies_of_reference (h : file.ReadsAll) (hlen : file.examples.len = 0)
    {ref : RefImplConstraint}
    (href : RefImplConstraint.parse (.list file.commands) = .ok (some ref)) {g : file.Candidate}
    (hg : file.EqualTo ref g) :
  file.Satisfies g
  := by
  intro U hU v hv
  refine ⟨h.written v hv, ?_⟩
  intro σ r hr
  obtain ⟨x, params, ty, body, hfind, hcount, hbody⟩ := RefImplConstraint.exists_of_parse href
  obtain ⟨d, params', ty', body', heq, hterm, hplain, hcompares⟩ := h.reference hlen _ hfind
  cases heq
  obtain ⟨t, ht⟩ := Option.isSome_iff_exists.mp hterm
  obtain ⟨ts, rfl, hts⟩ := hcompares v hv
  obtain ⟨v₁, v₂, hv₁, hv₂, hm⟩ := hr.call₂
  obtain ⟨vs, hvs, hv₁⟩ := hv₁.call
  obtain ⟨vs', hvs', hv₂⟩ := hv₂.call
  obtain rfl := denotes_unique.forall₂ hvs hvs'
  obtain ⟨ys, rfl, rfl⟩ := hU.eq_bits hv₂
  have hlength : ys.length = params.length := by
    rw [← hts, hvs.length_eq, List.length_map]
  have hdef : (⟨d, params.map SExpr.head, t⟩ : QFBV.Definition file.width) ∈ file.definitions := by
    apply List.mem_filterMap.mpr ⟨_, List.mem_of_find?_eq_some hfind, _⟩
    simp [SExpr.asDefinition, ht]
  rw [hU.definitions.meaning_eq hdef (by simp [hlength])] at hv₁
  have hstands := stands_of_fromSExpr hplain hbody ⟨t, ht, hv₁⟩ (hg ys (hlength.trans hcount.symm))
  cases v₁ with
  | bool b => cases hm
  | bits y =>
      obtain rfl : y = g ys := hstands
      cases hm
      simp

/-- What is extracted from a file of which everything is read admits no function that violates a
constraint. -/
theorem dropsNothing (h : file.ReadsAll) :
  file.DropsNothing
  := ⟨fun hlen _ => satisfies_of_examples h hlen, fun hlen _ href _ =>
    satisfies_of_reference h hlen href⟩

/-! ### A reference, and an example beside another constraint -/

/-- The command `(synth-fun f ((x (BitVec 8))) (BitVec 8) ((Start (BitVec 8) (x))))`. -/
def synthFun : SExpr :=
  .list [.id "synth-fun", .id "f", .list [.list [.id "x", .list [.id "BitVec", .id "8"]]],
    .list [.id "BitVec", .id "8"],
    .list [.list [.id "Start", .list [.id "BitVec", .id "8"], .list [.id "x"]]]]

/-- The function of this command. -/
def identityProblem : SynthProblem :=
  ⟨"f", ["x"], [⟨"Start", [.id "x"]⟩], .id "f", [], 8⟩

/-- The definition `(define-fun spec ((x (BitVec 8))) (BitVec 8) (bvnot x))` and the constraint
`(constraint (= (spec x) (f x)))`. -/
def complementFile : File where
  commands := [synthFun,
    .list [.id "define-fun", .id "spec", .list [.list [.id "x", .list [.id "BitVec", .id "8"]]],
      .list [.id "BitVec", .id "8"], .list [.id "bvnot", .id "x"]],
    .list [.id "constraint",
      .list [.id "=", .list [.id "spec", .id "x"], .list [.id "f", .id "x"]]]]
  env := (Environ.new 0).push 1 ⟨"spec", ["x"], .un .not (.var 0)⟩
  problem := identityProblem
  examples := .new 1
  env_eq := rfl
  problem_eq := rfl
  examples_eq := rfl

theorem dropsNothing_complement :
  complementFile.DropsNothing
  := by
  apply dropsNothing
  constructor
  · intro v hv
    obtain rfl := List.mem_singleton.mp hv
    rfl
  · rintro ⟨⟩
  · rintro - e ⟨⟩
    refine ⟨_, _, _, _, rfl, rfl, ?_, ?_⟩
    · constructor
      · simp [SExpr.Plain.id]
      · intro a b hab
        simp at hab
    · intro v hv
      obtain rfl := List.mem_singleton.mp hv
      exact ⟨_, rfl, rfl⟩

/-- The constraints `(constraint (= (f #x01) #x01))` and
`(constraint (= (bvnot (f #x01)) #x01))`. -/
def mixedFile : File where
  commands := [synthFun,
    .list [.id "constraint", .list [.id "=", .list [.id "f", .const "#x01"], .const "#x01"]],
    .list [.id "constraint",
      .list [.id "=", .list [.id "bvnot", .list [.id "f", .const "#x01"]], .const "#x01"]]]
  env := .new 0
  problem := identityProblem
  examples := ⟨[[1]], [1]⟩
  env_eq := rfl
  problem_eq := rfl
  examples_eq := rfl

/-- The function with the value 1. -/
def one : mixedFile.Candidate := fun _ => 1

/-- The meaning of this function. -/
def oneSymbols : QFBV.Interpretation mixedFile.width :=
  fun f vs => if f = "f" then (bits vs).bind fun ys =>
    if ys.length = 1 then some (.bits 1) else none
  else none

theorem interprets_one :
  mixedFile.Interprets one oneSymbols
  := by
  constructor
  · rintro d ⟨⟩
  · decide
  · intro vs
    exact if_pos rfl

/-- The second constraint is passed over, and a function with the value 1 violates it. -/
theorem not_dropsNothing_mixed :
  ¬ mixedFile.DropsNothing
  := by
  intro h
  have hmeets : mixedFile.MeetsExamples one := by
    rintro (_ | i) as out - hout
    · cases hout
      rfl
    · cases hout
  obtain ⟨-, htrue⟩ := h.examples (by decide) one hmeets oneSymbols interprets_one
    (.list [.id "=", .list [.id "bvnot", .list [.id "f", .const "#x01"]], .const "#x01"])
    (by simp [mem_constraints, mixedFile])
  have hfalse := htrue (fun _ => none) (.bool false) ⟨_, rfl, rfl⟩
  cases hfalse

end File

end DryadSynth
