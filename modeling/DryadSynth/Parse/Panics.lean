import DryadSynth.Library.Outcomes
import DryadSynth.Parse.Text
import DryadSynth.Enumerate.Config

/-!
# The panics of the front end

The parsers of the front end read their input through `SExpr::call`, which unwraps the first
element of a list.  A parser therefore panics when it looks for a call in an empty list, and
it does so exactly when nothing before this list in the order of reading is an error.  For
each parser the accepted inputs and those it panics on are stated by their shape.
-/

namespace DryadSynth

open Outcomes

/-- A parser succeeds exactly under `good`, and panics exactly under `bad`. -/
abbrev PanicsWhen {α : Type} (r : Parse α) (good bad : Prop) : Prop :=
  Outcome ParseFault.panic r good bad

theorem PanicsWhen.newCustomErrorSpan {α : Type} (msg : String) (span : SExpr) :
  PanicsWhen (newCustomErrorSpan msg span : Parse α) False False
  := by
  apply Outcome.throw ParseFault.noConfusion

theorem ok_bind {ε α β : Type} (a : α) (f : α → Except ε β) :
  (Except.ok a >>= f) = f a
  := rfl

/-! ### Calls, literals and names -/

namespace SExpr

@[elab_as_elim]
theorem ind {P : SExpr → Prop} (id : ∀ v, P (.id v)) (const : ∀ c, P (.const c))
    (list : ∀ l, (∀ s ∈ l, P s) → P (.list l)) (s : SExpr) :
  P s
  := by
  refine @SExpr.rec P (fun l => ∀ s ∈ l, P s) id const list ?_ ?_ s
  · intro s hs
    cases hs
  · intro s l hs hl s' hs'
    rcases List.mem_cons.mp hs' with rfl | hs'
    · apply hs
    · apply hl s' hs'

/-- A list headed by a name. -/
def IsCall (s : SExpr) : Prop := ∃ n r, s = .list (.id n :: r)

/-- The empty list. -/
def IsNil (s : SExpr) : Prop := s = .list []

/-- The shapes of an s-expression that `call` tells apart. -/
theorem call_cases (s : SExpr) :
  s = .list [] ∨ (∃ n r, s = .list (.id n :: r)) ∨ (s.call = .ok none ∧ ¬ s.IsCall ∧ ¬ s.IsNil)
  := by
  cases s with
  | id v =>
      right; right
      simp [call, IsCall, IsNil]
  | const c =>
      right; right
      simp [call, IsCall, IsNil]
  | list l =>
      cases l with
      | nil =>
          left
          rfl
      | cons s l =>
          right
          cases s with
          | id n =>
              left
              use n, l
          | const c =>
              right
              simp [call, IsCall, IsNil]
          | list l' =>
              right
              simp [call, IsCall, IsNil]

/-- The name that heads a list. -/
def head : SExpr → String
  | .list (.id n :: _) => n
  | _ => ""

theorem elements_eq_some {s : SExpr} {l : List SExpr} :
  s.elements = some l ↔ s = .list l
  := by
  cases s <;> simp [elements]

/-- A literal that the parsers accept. -/
def IsLiteral (c : String) : Prop := ∃ a, constant c.toList = some ([], a)

end SExpr

open SExpr

theorem outcome_u64Constant (c : String) (span : SExpr) :
  PanicsWhen (u64Constant c span) (IsLiteral c) False
  := by
  rw [u64Constant, IsLiteral]
  split
  next a h => apply (Outcome.pure _ a).congr <;> simp [h]
  next h => apply (PanicsWhen.newCustomErrorSpan _ _).congr <;> simp [h]
  next h => apply (PanicsWhen.newCustomErrorSpan _ _).congr <;> simp [h]

theorem outcome_argNames (msg : String) (l : List SExpr) :
  PanicsWhen (argNames msg l) (∀ s ∈ l, s.IsCall) (Meets IsCall IsNil l)
  := by
  induction l with
  | nil => apply (Outcome.pure _ []).congr <;> simp [not_meets_nil]
  | cons x l ih =>
      rw [argNames, meets_cons]
      rcases x.call_cases with rfl | ⟨n, r, rfl⟩ | ⟨hcall, hnot, hne⟩
      · apply (Outcome.fail _).congr <;> simp [IsCall, IsNil]
      · apply (ih.map (n :: ·)).congr <;> simp [IsCall, IsNil]
      · rw [hcall]
        apply (PanicsWhen.newCustomErrorSpan _ _).congr <;> simp [hnot, hne]

theorem eq_map_head_of_argNames {msg : String} {l : List SExpr} {names : List String}
    (h : argNames msg l = .ok names) :
  names = l.map head
  := by
  induction l generalizing names with
  | nil =>
      cases h
      rfl
  | cons x l ih =>
      rw [argNames] at h
      obtain ⟨r, hr, h⟩ := bind_eq_ok.mp h
      rcases x.call_cases with rfl | ⟨n, r, rfl⟩ | ⟨hcall, -⟩
      · cases hr
      · cases hr
        obtain ⟨ns, hns, h⟩ := bind_eq_ok.mp h
        cases h
        rw [List.map_cons, ih hns, head]
      · rw [hcall] at hr
        cases hr
        cases h

/-! ### `from_sexpr` -/

namespace OwnedExpr

/-- The name of an operator of this many operands. -/
def IsOperator (n : String) : ℕ → Prop
  | 1 => ∃ o : UnOp, o.smtName = n
  | 2 => (∃ o : BinOp, o.smtName = n) ∨ n = "="
  | 3 => n = "ite"
  | _ => False

/-- The expressions over the names. -/
inductive Readable (names : List String) : SExpr → Prop
  | const {c} (h : IsLiteral c) : Readable names (.const c)
  | id {v} (h : v ∈ names) : Readable names (.id v)
  | call {n ops} (hn : IsOperator n ops.length) (h : ∀ s ∈ ops, Readable names s) :
      Readable names (.list (.id n :: ops))

/-- An empty list stands for an expression, and only expressions over the names and operators
of the right number of operands are read before it. -/
inductive EmptyReached (names : List String) : SExpr → Prop
  | empty : EmptyReached names (.list [])
  | operand {n pre s post} (hn : IsOperator n (pre ++ s :: post).length)
      (hpre : ∀ t ∈ pre, Readable names t) (hs : EmptyReached names s) :
      EmptyReached names (.list (.id n :: (pre ++ s :: post)))

theorem fromSExprs_eq_map (names : List String) (l : List SExpr) :
  fromSExprs names l = l.map (fromSExpr names)
  := by
  induction l with
  | nil => rfl
  | cons s l ih => rw [fromSExprs, ih, List.map_cons]

theorem find?_unOp (n : String) :
  (UnOp.all.find? fun o => o.smtName = n).isSome = true ↔ ∃ o : UnOp, o.smtName = n
  := by
  have hall : ∀ o : UnOp, o ∈ UnOp.all := by
    intro o
    cases o <;> simp [UnOp.all]
  rw [List.find?_isSome]
  simp [hall]

theorem find?_binOp (n : String) :
  (BinOp.all.find? fun o => o.smtName = n).isSome = true ↔ ∃ o : BinOp, o.smtName = n
  := by
  have hall : ∀ o : BinOp, o ∈ BinOp.all := by
    intro o
    cases o <;> simp [BinOp.all]
  rw [List.find?_isSome]
  simp [hall]

/-- A call of an operator reads its operands in their order, any other call is an error. -/
theorem outcome_fromCall {n : String} {ops : List SExpr} {f : SExpr → Parse OwnedExpr}
    {good bad : SExpr → Prop} (r : Parse OwnedExpr)
    (h : ∀ s ∈ ops, PanicsWhen (f s) (good s) (bad s)) :
  PanicsWhen (fromCall (.list (.id n :: ops)) (r :: ops.map f))
    (IsOperator n ops.length ∧ ∀ s ∈ ops, good s)
    (IsOperator n ops.length ∧ Meets good bad ops)
  := by
  rcases ops with _ | ⟨s, _ | ⟨t, _ | ⟨u, _ | ⟨v, ops⟩⟩⟩⟩
  · apply (PanicsWhen.newCustomErrorSpan _ _).congr <;> simp [IsOperator]
  · have hs := h s (by simp)
    have hfind := find?_unOp n
    simp only [fromCall, call_list_id, List.map_cons, List.map_nil, ok_bind]
    cases ho : UnOp.all.find? fun o => o.smtName = n with
    | none =>
        apply (PanicsWhen.newCustomErrorSpan _ _).congr <;> simp [IsOperator, ← hfind, ho]
    | some o =>
        dsimp only
        have hop : IsOperator n 1 := hfind.mp (by rw [ho]; rfl)
        apply (hs.map (ExprIn.un o)).congr <;> simp [hop, meets_cons, not_meets_nil]
  · have hs := h s (by simp)
    have ht := h t (by simp)
    have hfind := find?_binOp n
    simp only [fromCall, call_list_id, List.map_cons, List.map_nil, ok_bind]
    cases ho : BinOp.all.find? fun o => o.smtName = n with
    | none =>
        dsimp only
        split_ifs with heq
        · have hop : IsOperator n 2 := .inr heq
          apply (hs.bind fun e₁ _ => ht.map (ExprIn.bin .xor e₁)).congr <;>
            simp [hop, meets_cons, not_meets_nil]
        · apply (PanicsWhen.newCustomErrorSpan _ _).congr <;>
            simp [IsOperator, ← hfind, ho, heq]
    | some o =>
        dsimp only
        have hop : IsOperator n 2 := .inl (hfind.mp (by rw [ho]; rfl))
        apply (hs.bind fun e₁ _ => ht.map (ExprIn.bin o e₁)).congr <;>
          simp [hop, meets_cons, not_meets_nil]
  · have hs := h s (by simp)
    have ht := h t (by simp)
    have hu := h u (by simp)
    simp only [fromCall, call_list_id, List.map_cons, List.map_nil, ok_bind]
    split_ifs with heq
    · have hop : IsOperator n 3 := heq
      apply (hs.bind fun e₁ _ => ht.bind fun e₂ _ => hu.map (ExprIn.ite e₁ e₂)).congr <;>
        simp [hop, meets_cons, not_meets_nil]
    · apply (PanicsWhen.newCustomErrorSpan _ _).congr <;> simp [IsOperator, heq]
  · apply (PanicsWhen.newCustomErrorSpan _ _).congr <;> simp [IsOperator]

theorem readable_call {names : List String} {n : String} {ops : List SExpr} :
  Readable names (.list (.id n :: ops))
    ↔ IsOperator n ops.length ∧ ∀ s ∈ ops, Readable names s
  := by
  constructor
  · rintro (_ | _ | ⟨hn, h⟩)
    use hn, h
  · rintro ⟨hn, h⟩
    apply Readable.call hn h

theorem emptyReached_call {names : List String} {n : String} {ops : List SExpr} :
  EmptyReached names (.list (.id n :: ops))
    ↔ IsOperator n ops.length ∧ Meets (Readable names) (EmptyReached names) ops
  := by
  constructor
  · intro h
    generalize hops : SExpr.list (.id n :: ops) = s at h
    cases h with
    | empty => cases hops
    | @operand n pre s post hn hpre hs =>
        cases hops
        use hn, pre, s, post, rfl, hpre
  · rintro ⟨hn, pre, s, post, rfl, hpre, hs⟩
    apply EmptyReached.operand hn hpre hs

/-- `from_sexpr` accepts the expressions over the names, and panics when it reaches an empty
list. -/
theorem outcome_fromSExpr (names : List String) (s : SExpr) :
  PanicsWhen (fromSExpr names s) (Readable names s) (EmptyReached names s)
  := by
  induction s using SExpr.ind with
  | id v =>
      have hfind : (names.findIdx? fun x => x = v).isSome = true ↔ v ∈ names := by
        simp [List.findIdx?_isSome]
      have hread : Readable names (.id v) ↔ v ∈ names := by
        constructor
        · rintro (_ | h)
          apply h
        · apply Readable.id
      have hreach : ¬ EmptyReached names (.id v) := by
        rintro (_ | _)
      rw [fromSExpr]
      cases hi : names.findIdx? fun x => x = v with
      | none =>
          apply (PanicsWhen.newCustomErrorSpan _ _).congr <;> simp [hread, hreach, ← hfind, hi]
      | some i => apply (Outcome.pure _ _).congr <;> simp [hread, hreach, ← hfind, hi]
  | const c =>
      have hread : Readable names (.const c) ↔ IsLiteral c := by
        constructor
        · rintro (h | _)
          apply h
        · apply Readable.const
      have hreach : ¬ EmptyReached names (.const c) := by
        rintro (_ | _)
      rw [fromSExpr]
      apply ((outcome_u64Constant c (.const c)).map ExprIn.const).congr <;> simp [hread, hreach]
  | list l ih =>
      rcases (SExpr.list l).call_cases with h | ⟨n, ops, h⟩ | ⟨hcall, hnot, hne⟩
      · cases h
        have hread : ¬ Readable names (.list []) := by
          rintro (_ | _)
        apply (Outcome.fail _).congr <;> simp [hread, EmptyReached.empty]
      · cases h
        rw [fromSExpr, fromSExprs_eq_map, List.map_cons, readable_call, emptyReached_call]
        apply outcome_fromCall _ fun s hs => ih s (List.mem_cons_of_mem _ hs)
      · have hread : ¬ Readable names (.list l) := by
          rintro (_ | _ | _)
          apply hnot ⟨_, _, rfl⟩
        have hreach : ¬ EmptyReached names (.list l) := by
          rintro (_ | _)
          · apply hne rfl
          · apply hnot ⟨_, _, rfl⟩
        rw [fromSExpr, fromCall, hcall]
        apply (PanicsWhen.newCustomErrorSpan _ _).congr <;> simp [hread, hreach]

end OwnedExpr

/-! ### Defined functions -/

namespace Environ

open OwnedExpr

/-- The definitions that `Environ::parse` passes over. -/
def Skipped (name : String) : Prop := name = "if0" ∨ name = "im"

/-- The commands that `Environ::parse` accepts. -/
def Accepts (e : SExpr) : Prop :=
  e ≠ .list [] ∧ ∀ name args ty body, e = .list [.id "define-fun", .id name, args, ty, body] →
    ∃ l, args = .list l ∧
      (Skipped name
        ∨ (∀ s ∈ l, s.IsCall) ∧ l.length ≤ 2 ∧ Readable (l.map head) body)

/-- An empty list stands for a command, or for an argument or in the body of a definition. -/
def PanicsOn (e : SExpr) : Prop :=
  e = .list [] ∨ ∃ name l ty body,
    e = .list [.id "define-fun", .id name, .list l, ty, body] ∧ ¬ Skipped name ∧
    (Meets IsCall IsNil l
      ∨ (∀ s ∈ l, s.IsCall) ∧ l.length ≤ 2 ∧ EmptyReached (l.map head) body)

theorem parseCommand_of_ne {env : Environ} {e : SExpr} (hne : e ≠ .list [])
    (h : ∀ name args ty body, e ≠ .list [.id "define-fun", .id name, args, ty, body]) :
  env.parseCommand e = .ok env
  := by
  rcases e.call_cases with he | ⟨n, r, rfl⟩ | ⟨hcall, -⟩
  · apply absurd he hne
  · rw [parseCommand, call_list_id, ok_bind]
    split
    next heq =>
      cases heq
      apply absurd rfl (h _ _ _ _)
    next => rfl
  · rw [parseCommand, hcall]
    rfl

theorem accepts_define {name : String} {args ty body : SExpr} :
  Accepts (.list [.id "define-fun", .id name, args, ty, body])
    ↔ ∃ l, args = .list l ∧
      (Skipped name
        ∨ (∀ s ∈ l, s.IsCall) ∧ l.length ≤ 2 ∧ Readable (l.map head) body)
  := by
  constructor
  · intro h
    apply h.2 name args ty body rfl
  · intro h
    constructor
    · simp
    · intro name args ty body heq
      cases heq
      apply h

theorem panicsOn_define {name : String} {args ty body : SExpr} :
  PanicsOn (.list [.id "define-fun", .id name, args, ty, body])
    ↔ ∃ l, args = .list l ∧ ¬ Skipped name ∧
      (Meets IsCall IsNil l
        ∨ (∀ s ∈ l, s.IsCall) ∧ l.length ≤ 2 ∧ EmptyReached (l.map head) body)
  := by
  constructor
  · rintro (heq | ⟨name, l, ty, body, heq, h⟩)
    · cases heq
    · cases heq
      use l, rfl
  · rintro ⟨l, rfl, h⟩
    right
    use name, l, ty, body, rfl

theorem outcome_parseCommand (env : Environ) (e : SExpr) :
  PanicsWhen (env.parseCommand e) (Accepts e) (PanicsOn e)
  := by
  by_cases hd : ∃ name args ty body, e = .list [.id "define-fun", .id name, args, ty, body]
  · obtain ⟨name, args, ty, body, rfl⟩ := hd
    simp only [parseCommand, call_list_id, ok_bind, accepts_define, panicsOn_define]
    cases args with
    | id v => apply (PanicsWhen.newCustomErrorSpan _ _).congr <;> simp
    | const c => apply (PanicsWhen.newCustomErrorSpan _ _).congr <;> simp
    | list l =>
        dsimp only [elements]
        split_ifs with hs
        · apply (Outcome.pure _ env).congr <;> simp [Skipped, hs]
        · have hargs := outcome_argNames "DefineFun: Expecting (<argname> <type>)." l
          have hbody : ∀ names, argNames "DefineFun: Expecting (<argname> <type>)." l = .ok names →
              PanicsWhen (if h : names.length < 3 then do
                  let body ← OwnedExpr.fromSExpr names body
                  .ok (env.push ⟨names.length, h⟩ ⟨name, names, body⟩)
                else newCustomErrorSpan "DefineFun: Number of args must be <= 2" (.id name))
                (l.length ≤ 2 ∧ Readable (l.map head) body)
                (l.length ≤ 2 ∧ EmptyReached (l.map head) body) := by
            intro names hnames
            rw [eq_map_head_of_argNames hnames]
            split_ifs with hlen
            · apply ((outcome_fromSExpr (l.map head) body).map _).congr <;>
                simp at hlen ⊢ <;> omega
            · apply (PanicsWhen.newCustomErrorSpan _ _).congr <;> simp at hlen ⊢ <;> omega
          apply (hargs.bind hbody).congr <;> simp [Skipped, hs]
  · push Not at hd
    by_cases hne : e = .list []
    · subst hne
      apply (Outcome.fail _).congr <;> simp [Accepts, PanicsOn]
    · rw [parseCommand_of_ne hne hd]
      apply (Outcome.pure _ env).congr
      · simp [Accepts, hne, hd]
      · simp [PanicsOn, hne, hd]

/-- `Environ::parse` panics when it reaches an empty list. -/
theorem parse_eq_panic {env : Environ} {l : List SExpr} :
  env.parse (.list l) = .error .panic ↔ Meets Accepts PanicsOn l
  := by
  rw [parse]
  apply (Outcome.foldlM env fun env e _ => outcome_parseCommand env e).error

end Environ

/-! ### The function to synthesize -/

/-- A non-terminal, its type and its productions. -/
def NonTerminal.Accepts (s : SExpr) : Prop := ∃ n ty l, s = .list [.id n, ty, .list l]

theorem NonTerminal.outcome_parse (s : SExpr) :
  PanicsWhen (NonTerminal.parse s) (NonTerminal.Accepts s) s.IsNil
  := by
  rw [NonTerminal.parse]
  rcases s.call_cases with rfl | ⟨n, r, rfl⟩ | ⟨hcall, hnot, hne⟩
  · apply (Outcome.fail _).congr <;> simp [NonTerminal.Accepts, IsNil]
  · rw [call_list_id, ok_bind]
    split
    next n ty options heq =>
      cases heq
      cases options with
      | id v =>
          apply (PanicsWhen.newCustomErrorSpan _ _).congr <;> simp [NonTerminal.Accepts, IsNil]
      | const c =>
          apply (PanicsWhen.newCustomErrorSpan _ _).congr <;> simp [NonTerminal.Accepts, IsNil]
      | list l => apply (Outcome.pure _ _).congr <;> simp [NonTerminal.Accepts, IsNil]
    next hshape =>
      have hnot : ¬ NonTerminal.Accepts (.list (.id n :: r)) := by
        rintro ⟨n, ty, l, heq⟩
        cases heq
        apply hshape _ _ _ rfl
      apply (PanicsWhen.newCustomErrorSpan _ _).congr <;> simp [hnot, IsNil]
  · have hnot : ¬ NonTerminal.Accepts s := by
      rintro ⟨n, ty, l, rfl⟩
      apply hnot ⟨_, _, rfl⟩
    rw [hcall]
    apply (PanicsWhen.newCustomErrorSpan _ _).congr <;> simp [hnot, hne]

namespace SynthProblem

/-- A return type with a width. -/
def HasBits (ret : SExpr) : Prop :=
  ∃ v, ((∃ a b, ret = .list [a, b, .id v]) ∨ ∃ a, ret = .list [a, .id v]) ∧
    (parseUsize v).isSome

/-- A `synth-fun` command. -/
inductive Synthesizes (name : String) (args ret cfg : SExpr) : SExpr → Prop
  | declared {nts} :
      Synthesizes name args ret cfg (.list [.id "synth-fun", .id name, args, ret, nts, cfg])
  | plain : Synthesizes name args ret cfg (.list [.id "synth-fun", .id name, args, ret, cfg])

/-- The commands that `SynthProblem::parse` passes over. -/
def Passes (e : SExpr) : Prop :=
  e ≠ .list [] ∧ ∀ name args ret cfg, ¬ Synthesizes name args ret cfg e

/-- An empty list stands for a command, or for an argument or a non-terminal of a `synth-fun`
command. -/
def PanicsOn (e : SExpr) : Prop :=
  e = .list [] ∨ ∃ name l ret cfg, Synthesizes name (.list l) ret cfg e ∧ HasBits ret ∧
    (Meets IsCall IsNil l
      ∨ (∀ s ∈ l, s.IsCall) ∧ ∃ nts, cfg = .list nts ∧ Meets NonTerminal.Accepts IsNil nts)

theorem outcome_parseBits (ret : SExpr) :
  PanicsWhen (parseBits ret) (HasBits ret) False
  := by
  rw [parseBits]
  split
  next a b v heq =>
    have hv : HasBits ret ↔ (parseUsize v).isSome = true := by
      simp [HasBits, elements_eq_some.mp heq]
    cases hbits : parseUsize v with
    | none => apply (PanicsWhen.newCustomErrorSpan _ _).congr <;> simp [hv, hbits]
    | some bits => apply (Outcome.pure _ bits).congr <;> simp [hv, hbits]
  next a v heq =>
    have hv : HasBits ret ↔ (parseUsize v).isSome = true := by
      simp [HasBits, elements_eq_some.mp heq]
    cases hbits : parseUsize v with
    | none => apply (PanicsWhen.newCustomErrorSpan _ _).congr <;> simp [hv, hbits]
    | some bits => apply (Outcome.pure _ bits).congr <;> simp [hv, hbits]
  next h₁ h₂ =>
    apply (PanicsWhen.newCustomErrorSpan _ _).congr
    · simp only [false_iff, HasBits, not_exists, not_and]
      rintro v (⟨a, b, rfl⟩ | ⟨a, rfl⟩)
      · apply absurd rfl (h₁ a b v)
      · apply absurd rfl (h₂ a v)
    · rfl

/-- `Cfg::parse` panics when it reaches an empty list. -/
theorem parseCfg_eq_panic {cfg : SExpr} :
  Cfg.parse cfg = .error .panic
    ↔ ∃ nts, cfg = .list nts ∧ Meets NonTerminal.Accepts IsNil nts
  := by
  cases cfg with
  | id v => simp [Cfg.parse, elements, newCustomErrorSpan]
  | const c => simp [Cfg.parse, elements, newCustomErrorSpan]
  | list nts =>
      simp only [Cfg.parse, elements]
      rw [(Outcome.mapM fun s _ => NonTerminal.outcome_parse s).error]
      simp

theorem parseSynthFun_eq_panic {name : String} {args ret cfg : SExpr} :
  parseSynthFun name args ret cfg = .error .panic
    ↔ HasBits ret ∧ ∃ l, args = .list l ∧
      (Meets IsCall IsNil l
        ∨ (∀ s ∈ l, s.IsCall) ∧ ∃ nts, cfg = .list nts ∧ Meets NonTerminal.Accepts IsNil nts)
  := by
  have hbits := outcome_parseBits ret
  rw [parseSynthFun, bind_eq_error, hbits.error, false_or, ← hbits.ok, exists_and_right.symm]
  apply exists_congr
  intro bits
  apply and_congr_right
  intro _
  cases args with
  | id v => simp [elements, newCustomErrorSpan]
  | const c => simp [elements, newCustomErrorSpan]
  | list l =>
      have hargs := outcome_argNames "SynthProblem: Expecting (<argname> <type>)." l
      simp only [elements, SExpr.list.injEq, exists_eq_left']
      rw [bind_eq_error, hargs.error, ← hargs.ok, exists_and_right.symm]
      apply or_congr_right
      apply exists_congr
      intro names
      rw [bind_eq_error, parseCfg_eq_panic]
      simp

/-- The search ends at the first `synth-fun` command. -/
theorem parseCommands_eq_panic {sexpr : SExpr} {l : List SExpr} :
  parseCommands sexpr l = .error .panic ↔ Meets Passes PanicsOn l
  := by
  induction l with
  | nil => simp [parseCommands, newCustomErrorSpan, not_meets_nil]
  | cons e l ih =>
      rw [parseCommands, meets_cons]
      by_cases hs : ∃ name args ret cfg, Synthesizes name args ret cfg e
      · obtain ⟨name, args, ret, cfg, h⟩ := hs
        have hpass : ¬ Passes e := by
          intro hpass
          apply hpass.2 _ _ _ _ h
        have hpanics : PanicsOn e ↔ HasBits ret ∧ ∃ l, args = .list l ∧
            (Meets IsCall IsNil l ∨ (∀ s ∈ l, s.IsCall) ∧
              ∃ nts, cfg = .list nts ∧ Meets NonTerminal.Accepts IsNil nts) := by
          constructor
          · rintro (rfl | ⟨name', l', ret', cfg', h', hbits, hmeets⟩)
            · cases h
            · cases h <;> cases h' <;> use hbits, l', rfl
          · rintro ⟨hbits, l, rfl, hmeets⟩
            right
            use name, l, ret, cfg, h, hbits
        rw [hpanics, ← @parseSynthFun_eq_panic name, or_iff_left (by simp [hpass])]
        cases h <;> rfl
      · push Not at hs
        rcases e.call_cases with rfl | ⟨n, r, rfl⟩ | ⟨hcall, hnot, hne⟩
        · simp [PanicsOn, call, bind, Except.bind]
        · have hpass : Passes (.list (.id n :: r)) := ⟨by simp, hs⟩
          have hpanics : ¬ PanicsOn (.list (.id n :: r)) := by
            rintro (heq | ⟨name, l, ret, cfg, h, -⟩)
            · cases heq
            · apply hs _ _ _ _ h
          rw [call_list_id, ok_bind, ← ih]
          split
          next heq =>
            cases heq
            apply absurd .declared (hs _ _ _ _)
          next heq =>
            cases heq
            apply absurd .plain (hs _ _ _ _)
          next => simp [hpass, hpanics]
        · have hpass : Passes e := ⟨hne, hs⟩
          have hpanics : ¬ PanicsOn e := by
            rintro (heq | ⟨name, l, ret, cfg, h, -⟩)
            · apply hne heq
            · apply hs _ _ _ _ h
          rw [hcall, ok_bind, ← ih]
          simp [hpass, hpanics]

/-- `SynthProblem::parse` panics when it reaches an empty list. -/
theorem parse_eq_panic {l : List SExpr} :
  parse (.list l) = .error .panic ↔ Meets Passes PanicsOn l
  := by
  rw [parse, elements]
  apply parseCommands_eq_panic

end SynthProblem

/-! ### Productions -/

namespace Config

variable (env : Environ) (problem : SynthProblem) (name : String)

/-- The productions of the start symbol that are accepted, with the shapes in the order in
which they are tried. -/
def Accepts : SExpr → Prop
  | .id v => (problem.arg v).isSome
  | .const c => IsLiteral c
  | .list [] => False
  | .list [.id n, .id nt] =>
      nt = name ∧ ((Rule.ofUnary n).isSome ∨ (env.lookup n 1).isSome)
  | .list [.id n, .id nt₁, .id nt₂] =>
      nt₁ = name ∧ nt₂ = name ∧ ((Rule.ofBinary n).isSome ∨ (env.lookup n 2).isSome)
  | .list [.id "bvlshr", .id nt, .const c] => nt = name ∧ IsLiteral c
  | .list [.id "bvshl", .id nt, .const c] => nt = name ∧ IsLiteral c
  | .list [.id "smol", .id nt, .const _] => nt = name
  | .list _ => True

variable {env problem name}

theorem outcome_checkStart (nt : String) :
  PanicsWhen (checkStart name nt) (nt = name) False
  := by
  rw [checkStart]
  split_ifs with h
  · apply (Outcome.pure _ ()).congr <;> simp [h]
  · apply (PanicsWhen.newCustomErrorSpan _ _).congr <;> simp [h]

/-- A rule that is found or that a defined function provides. -/
theorem outcome_rule (rule : Option Rule) (found : Option ℕ) (f : ℕ → Rule) (span : SExpr) :
  PanicsWhen
    (match rule with
      | some rule => .ok [rule]
      | none =>
          match found with
          | some a => .ok [f a]
          | none => newCustomErrorSpan "Unknown Symbol." span)
    (rule.isSome ∨ found.isSome) False
  := by
  cases rule with
  | some rule => apply (Outcome.pure _ _).congr <;> simp
  | none =>
      cases found with
      | some a => apply (Outcome.pure _ _).congr <;> simp
      | none => apply (PanicsWhen.newCustomErrorSpan _ _).congr <;> simp

theorem outcome_ofProduction (e : SExpr) :
  PanicsWhen (ofProduction env problem name e) (Accepts env problem name e) e.IsNil
  := by
  cases e with
  | id v =>
      rw [ofProduction, Accepts]
      cases problem.arg v with
      | none => apply (PanicsWhen.newCustomErrorSpan _ _).congr <;> simp [IsNil]
      | some id => apply (Outcome.pure _ _).congr <;> simp [IsNil]
  | const c =>
      rw [ofProduction, Accepts]
      apply ((outcome_u64Constant c (.const c)).map _).congr <;> simp [IsNil]
  | list l =>
      rcases (SExpr.list l).call_cases with h | ⟨n, r, h⟩ | ⟨hcall, hnot, hne⟩
      · cases h
        apply (Outcome.fail _).congr <;> simp [Accepts, IsNil]
      · cases h
        rw [ofProduction, call_list_id, ok_bind]
        split
        next n nt heq =>
          cases heq
          apply ((outcome_checkStart nt).bind fun _ _ => outcome_rule _ _ _ _).congr <;>
            simp [Accepts, IsNil]
        next n nt₁ nt₂ heq =>
          cases heq
          apply ((outcome_checkStart nt₁).bind fun _ _ => (outcome_checkStart nt₂).bind
            fun _ _ => outcome_rule _ _ _ _).congr <;> simp [Accepts, IsNil]
        next nt c heq =>
          cases heq
          apply ((outcome_checkStart nt).bind fun _ _ =>
            (outcome_u64Constant c (.const c)).map _).congr <;> simp [Accepts, IsNil]
        next nt c heq =>
          cases heq
          apply ((outcome_checkStart nt).bind fun _ _ =>
            (outcome_u64Constant c (.const c)).map _).congr <;> simp [Accepts, IsNil]
        next nt c heq =>
          cases heq
          apply ((outcome_checkStart nt).map _).congr <;> simp [Accepts, IsNil]
        next h₁ h₂ heq =>
          cases heq
          have hacc : Accepts env problem name (.list (.id "ite" :: r)) := by
            unfold Accepts
            split <;> simp_all
          apply (Outcome.pure _ _).congr <;> simp [hacc, IsNil]
        next h₁ h₂ h₃ h₄ h₅ h₆ =>
          have hacc : Accepts env problem name (.list (.id n :: r)) := by
            unfold Accepts
            split <;> simp_all
          apply (Outcome.pure _ _).congr <;> simp [hacc, IsNil]
      · have hacc : Accepts env problem name (.list l) := by
          unfold Accepts
          split <;> simp_all [IsCall, IsNil]
        rw [ofProduction, hcall, ok_bind]
        apply (Outcome.pure _ _).congr <;> simp [hacc, hne]

/-- `from_problem` panics when it reaches an empty list among the productions of the start
symbol. -/
theorem fromProblem_eq_panic :
  fromProblem env problem = .error .panic
    ↔ ∃ nt, problem.cfg.head? = some nt ∧ Meets (Accepts env problem nt.name) IsNil nt.rules
  := by
  rw [fromProblem]
  cases problem.cfg.head? with
  | none => simp [newCustomErrorSpan]
  | some nt =>
      dsimp only
      rw [bind_eq_error, (Outcome.mapM fun e _ => outcome_ofProduction e).error]
      simp

end Config

/-! ### Constraints -/

namespace PbeConstraint

variable (func : String) (arity : ℕ)

/-- A literal that stands for a value. -/
def IsValue (s : SExpr) : Prop := ∃ c, s = .const c ∧ IsLiteral c

/-- The commands that `PbeConstraint::parse` accepts. -/
def Accepts (e : SExpr) : Prop :=
  e ≠ .list [] ∧ ∀ value, e = .list [.id "constraint", value] →
    ∃ name args r, value = .list [.id "=", .list (.id name :: args), r] ∧
      (name = func ∧ args.length = arity → (∀ a ∈ args, IsValue a) ∧ IsValue r)

/-- An empty list stands for a command, for a constraint or for the left of an equality. -/
inductive PanicsOn : SExpr → Prop
  | command : PanicsOn (.list [])
  | constraint : PanicsOn (.list [.id "constraint", .list []])
  | left {r} : PanicsOn (.list [.id "constraint", .list [.id "=", .list [], r]])

variable {func arity}

theorem outcome_parseInput (r arg : SExpr) :
  PanicsWhen (parseInput r arg) (IsValue arg) False
  := by
  cases arg with
  | id v => apply (PanicsWhen.newCustomErrorSpan _ _).congr <;> simp [IsValue]
  | const c => apply (outcome_u64Constant c _).congr <;> simp [IsValue]
  | list l => apply (PanicsWhen.newCustomErrorSpan _ _).congr <;> simp [IsValue]

theorem outcome_parseOutput (r : SExpr) :
  PanicsWhen (parseOutput r) (IsValue r) False
  := by
  cases r with
  | id v => apply (PanicsWhen.newCustomErrorSpan _ _).congr <;> simp [IsValue]
  | const c => apply (outcome_u64Constant c _).congr <;> simp [IsValue]
  | list l => apply (PanicsWhen.newCustomErrorSpan _ _).congr <;> simp [IsValue]

/-- A constraint is an equality of a call and a value. -/
theorem accepts_constraint {value : SExpr} :
  Accepts func arity (.list [.id "constraint", value])
    ↔ ∃ name args r, value = .list [.id "=", .list (.id name :: args), r] ∧
      (name = func ∧ args.length = arity → (∀ a ∈ args, IsValue a) ∧ IsValue r)
  := by
  simp [Accepts]

/-- A constraint that is no equality of two sides is an error, apart from the empty list. -/
theorem outcome_parseCommand (c : PbeConstraint) (e : SExpr) :
  PanicsWhen (parseCommand func arity c e) (Accepts func arity e) (PanicsOn e)
  := by
  by_cases hc : ∃ value, e = .list [.id "constraint", value]
  · obtain ⟨value, rfl⟩ := hc
    simp only [parseCommand, call_list_id, ok_bind, accepts_constraint]
    rcases value.call_cases with rfl | ⟨n, ops, rfl⟩ | ⟨hcall, hnot, hne⟩
    · apply (Outcome.fail _).congr <;> simp [PanicsOn.constraint]
    · rw [call_list_id, ok_bind]
      split
      next l r heq =>
        cases heq
        rcases l.call_cases with rfl | ⟨name, args, rfl⟩ | ⟨hcall, hnot, hne⟩
        · apply (Outcome.fail _).congr <;> simp [PanicsOn.left]
        · have hpanics : ¬ PanicsOn
              (.list [.id "constraint", .list [.id "=", .list (.id name :: args), r]]) := by
            rintro (_ | _)
          rw [call_list_id, ok_bind]
          dsimp only
          split_ifs with hname
          · apply ((Outcome.mapM fun a _ => outcome_parseInput r a).bind fun input _ =>
              (outcome_parseOutput r).map _).congr
            · simp [hname]
            · simp [hpanics, Meets]
          · apply (Outcome.pure _ c).congr
            · simp
              intro h₁ h₂
              apply absurd ⟨h₁, h₂⟩ hname
            · simp [hpanics]
        · have hpanics : ¬ PanicsOn (.list [.id "constraint", .list [.id "=", l, r]]) := by
            rintro (_ | _ | _)
            apply hne rfl
          rw [hcall, ok_bind]
          apply (PanicsWhen.newCustomErrorSpan _ _).congr
          · simp only [false_iff]
            rintro ⟨name, args, r, heq, -⟩
            cases heq
            apply hnot ⟨_, _, rfl⟩
          · simp [hpanics]
      next hshape =>
        have hpanics : ¬ PanicsOn (.list [.id "constraint", .list (.id n :: ops)]) := by
          rintro (_ | _ | _)
          apply hshape _ _ rfl
        apply (PanicsWhen.newCustomErrorSpan _ _).congr
        · simp only [false_iff]
          rintro ⟨name, args, r, heq, -⟩
          cases heq
          apply hshape _ _ rfl
        · simp [hpanics]
    · have hpanics : ¬ PanicsOn (.list [.id "constraint", value]) := by
        rintro (_ | _ | _)
        · apply hne rfl
        · apply hnot ⟨_, _, rfl⟩
      rw [hcall, ok_bind]
      apply (PanicsWhen.newCustomErrorSpan _ _).congr
      · simp only [false_iff]
        rintro ⟨name, args, r, rfl, -⟩
        apply hnot ⟨_, _, rfl⟩
      · simp [hpanics]
  · push Not at hc
    rcases e.call_cases with rfl | ⟨n, r, rfl⟩ | ⟨hcall, hnot, hne⟩
    · apply (Outcome.fail _).congr <;> simp [Accepts, PanicsOn.command]
    · have hpanics : ¬ PanicsOn (.list (.id n :: r)) := by
        rintro (_ | _ | _) <;> apply hc _ rfl
      have hacc : Accepts func arity (.list (.id n :: r)) :=
        ⟨by simp, fun value h => absurd h (hc value)⟩
      rw [parseCommand, call_list_id, ok_bind]
      split
      next value heq =>
        cases heq
        apply absurd rfl (hc value)
      next => apply (Outcome.pure _ c).congr <;> simp [hacc, hpanics]
    · have hpanics : ¬ PanicsOn e := by
        rintro (_ | _ | _)
        · apply hne rfl
        · apply hc _ rfl
        · apply hc _ rfl
      have hacc : Accepts func arity e := ⟨hne, fun value h => absurd h (hc value)⟩
      rw [parseCommand, hcall, ok_bind]
      apply (Outcome.pure _ c).congr <;> simp [hacc, hpanics]

/-- `PbeConstraint::parse` panics when it reaches an empty list. -/
theorem parse_eq_panic {l : List SExpr} :
  parse func arity (.list l) = .error .panic ↔ Meets (Accepts func arity) PanicsOn l
  := by
  rw [parse]
  apply (Outcome.foldlM _ fun c e _ => outcome_parseCommand c e).error

end PbeConstraint

namespace RefImplConstraint

open OwnedExpr

/-- An argument of a definition. -/
def IsArg (s : SExpr) : Prop := ∃ x ty, s = .list [.id x, ty]

/-- The commands that `RefImplConstraint::parse` passes over. -/
def Passes (e : SExpr) : Prop :=
  e ≠ .list [] ∧ ∀ x args ty body, e ≠ .list [.id "define-fun", x, args, ty, body]

/-- The name of an argument. -/
def argName : SExpr → String
  | .list [.id x, _] => x
  | _ => ""

/-- An empty list stands for a command or in the body of a definition. -/
def PanicsOn (e : SExpr) : Prop :=
  e = .list [] ∨ ∃ x l ty body, e = .list [.id "define-fun", x, .list l, ty, body] ∧
    (∀ s ∈ l, IsArg s) ∧ EmptyReached (l.map argName) body

theorem outcome_parseArg (args s : SExpr) :
  PanicsWhen (parseArg args s) (IsArg s) False
  := by
  unfold parseArg
  split
  next x ty => apply (Outcome.pure _ x).congr <;> simp [IsArg]
  next h =>
    apply (PanicsWhen.newCustomErrorSpan _ _).congr
    · simp only [false_iff, IsArg, not_exists]
      rintro x ty rfl
      apply absurd rfl (h x ty)
    · rfl

theorem eq_map_argName {args : SExpr} {l : List SExpr} {names : List String}
    (h : l.mapM (parseArg args) = .ok names) :
  names = l.map argName
  := by
  induction l generalizing names with
  | nil =>
      cases h
      rfl
  | cons s l ih =>
      simp only [List.mapM_cons, bind_eq_ok] at h
      obtain ⟨x, hx, xs, hxs, h⟩ := h
      cases h
      obtain ⟨y, ty, rfl⟩ := (outcome_parseArg args s).ok.mp ⟨x, hx⟩
      cases hx
      rw [List.map_cons, ih hxs, argName]

/-- The search ends at the first definition. -/
theorem parse_eq_panic {l : List SExpr} :
  parse (.list l) = .error .panic ↔ Meets Passes PanicsOn l
  := by
  rw [parse]
  induction l with
  | nil => simp [parseCommands, not_meets_nil]
  | cons e l ih =>
      rw [parseCommands, meets_cons]
      by_cases hd : ∃ x args ty body, e = .list [.id "define-fun", x, args, ty, body]
      · obtain ⟨x, args, ty, body, rfl⟩ := hd
        have hpass : ¬ Passes (.list [.id "define-fun", x, args, ty, body]) := by
          intro hpass
          apply hpass.2 _ _ _ _ rfl
        rw [or_iff_left (by simp [hpass]), call_list_id, ok_bind]
        cases args with
        | id v => simp [elements, newCustomErrorSpan, PanicsOn]
        | const c => simp [elements, newCustomErrorSpan, PanicsOn]
        | list l =>
            have hargs := Outcome.mapM fun s (_ : s ∈ l) => outcome_parseArg (.list l) s
            simp only [elements]
            rw [bind_eq_error, hargs.error]
            constructor
            · rintro (⟨_, _, _, _, _, h⟩ | ⟨names, hnames, h⟩)
              · apply h.elim
              · rw [bind_eq_error, (outcome_fromSExpr names body).error] at h
                rcases h with h | ⟨_, _, h⟩
                · right
                  rw [eq_map_argName hnames] at h
                  use x, l, ty, body, rfl, hargs.ok.mp ⟨names, hnames⟩
                · cases h
            · rintro (heq | ⟨x, l, ty, body, heq, hall, h⟩)
              · cases heq
              · cases heq
                obtain ⟨names, hnames⟩ := hargs.ok.mpr hall
                right
                use names, hnames
                rw [← eq_map_argName hnames] at h
                rw [bind_eq_error, (outcome_fromSExpr names body).error]
                left
                apply h
      · push Not at hd
        rcases e.call_cases with rfl | ⟨n, r, rfl⟩ | ⟨hcall, hnot, hne⟩
        · simp [PanicsOn, call, bind, Except.bind]
        · have hpass : Passes (.list (.id n :: r)) := ⟨by simp, hd⟩
          have hpanics : ¬ PanicsOn (.list (.id n :: r)) := by
            rintro (heq | ⟨x, l, ty, body, heq, -⟩)
            · cases heq
            · apply hd _ _ _ _ heq
          rw [call_list_id, ok_bind, ← ih]
          split
          next heq =>
            cases heq
            apply absurd rfl (hd _ _ _ _)
          next => simp [hpass, hpanics]
        · have hpass : Passes e := ⟨hne, hd⟩
          have hpanics : ¬ PanicsOn e := by
            rintro (heq | ⟨x, l, ty, body, heq, -⟩)
            · apply hne heq
            · apply hd _ _ _ _ heq
          rw [hcall, ok_bind, ← ih]
          simp [hpass, hpanics]

end RefImplConstraint

/-! ### The front end -/

/-- None of the parsers panics on the text: not `SExpr::parse`, not the four that read the
s-expression of the file, and not `from_problem` on the function to synthesize. -/
def NoPanic (func : String) (arity : ℕ) (env env' : Environ) (text : String) : Prop :=
  SExpr.parse text ≠ .error .panic ∧ ∀ s, SExpr.parse text = .ok s →
    env.parse s ≠ .error .panic ∧ SynthProblem.parse s ≠ .error .panic ∧
    (∀ problem, SynthProblem.parse s = .ok problem →
      Config.fromProblem env' problem ≠ .error .panic) ∧
    PbeConstraint.parse func arity s ≠ .error .panic ∧
    RefImplConstraint.parse s ≠ .error .panic

/-- The parsers do not panic exactly when none of them reaches an empty list where it looks
for a call. -/
theorem noPanic_iff (func : String) (arity : ℕ) (env env' : Environ) (text : String) :
  NoPanic func arity env env' text ↔ ∀ l, SExpr.parse text = .ok (.list l) →
    ¬ Meets Environ.Accepts Environ.PanicsOn l ∧
    ¬ Meets SynthProblem.Passes SynthProblem.PanicsOn l ∧
    (∀ problem nt, SynthProblem.parse (.list l) = .ok problem → problem.cfg.head? = some nt →
      ¬ Meets (Config.Accepts env' problem nt.name) IsNil nt.rules) ∧
    ¬ Meets (PbeConstraint.Accepts func arity) PbeConstraint.PanicsOn l ∧
    ¬ Meets RefImplConstraint.Passes RefImplConstraint.PanicsOn l
  := by
  rw [NoPanic]
  rcases SExpr.parse_cases text with ⟨l, hl⟩ | ⟨e, he, hne⟩
  · simp only [hl, ne_eq, reduceCtorEq, not_false_eq_true, true_and, Except.ok.injEq,
      SExpr.list.injEq, forall_eq', Environ.parse_eq_panic, SynthProblem.parse_eq_panic,
      Config.fromProblem_eq_panic, PbeConstraint.parse_eq_panic,
      RefImplConstraint.parse_eq_panic, not_exists, not_and]
    tauto
  · simp [he, hne]

/-- The text of an empty list is accepted by the grammar, and the four parsers of a file panic
on it. -/
theorem noPanic_fails :
  SExpr.parse "()" = .ok (.list [.list []]) ∧
    ¬ NoPanic "f" 1 (Environ.new 0) (Environ.new 0) "()"
  := by
  have hparse : SExpr.parse "()" = .ok (.list [.list []]) := by
    decide
  use hparse
  rintro ⟨-, h⟩
  apply (h _ hparse).2.1
  rfl

end DryadSynth
