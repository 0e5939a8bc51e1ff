import DryadSynth.Enumerate.Display
import DryadSynth.Enumerate.Lanes
import DryadSynth.Parse.Text

/-!
# Printing and reading expressions

The text that `Display` prints of an expression, read by `SExpr::parse` and by `from_sexpr`
in the environment of its variables.  The condition of an `ite` is printed as a comparison
with zero and read back as an exclusive or with zero, which has the value of the condition.
-/

namespace DryadSynth

/-! ### The printed text -/

/-- The text of `Display` of an expression, as its format strings have it. -/
def ExprIn.text {s : Storage} (env : Environ) : ExprIn s → Option String
  | .un o e₁ => do
      let n ← o.displayName env
      let t₁ ← e₁.text env
      some ("(" ++ n ++ " " ++ t₁ ++ ")")
  | .bin o e₁ e₂ => do
      let n ← o.displayName env
      let t₁ ← e₁.text env
      let t₂ ← e₂.text env
      some ("(" ++ n ++ " " ++ t₁ ++ " " ++ t₂ ++ ")")
  | .ite e₁ e₂ e₃ => do
      let t₁ ← e₁.text env
      let t₂ ← e₂.text env
      let t₃ ← e₃.text env
      some ("(ite (= " ++ t₁ ++ " #x0000000000000000) " ++ t₂ ++ " " ++ t₃ ++ ")")
  | .var i => some (varName i)
  | .const c => some (hexLiteral c)

/-- No defined function can be called. -/
def Callable.none : Callable := ⟨fun _ => False, fun _ => False⟩

/-- The printed text is the text of the printed s-expression. -/
theorem ExprIn.text_eq_display {s : Storage} (env : Environ) (e : ExprIn s) :
  e.text env = (e.display env).map SExpr.display
  := by
  induction e with
  | un o e₁ ih =>
      simp only [text, display, ih]
      cases o.displayName env <;> cases e₁.display env <;> rfl
  | bin o e₁ e₂ ih₁ ih₂ =>
      simp only [text, display, ih₁, ih₂]
      cases o.displayName env <;> cases e₁.display env <;> cases e₂.display env <;> rfl
  | ite e₁ e₂ e₃ ih₁ ih₂ ih₃ =>
      simp only [text, display, ih₁, ih₂, ih₃]
      rcases e₁.display env with _ | s₁
      · rfl
      rcases e₂.display env with _ | s₂
      · rfl
      rcases e₃.display env with _ | s₃
      · rfl
      apply congrArg some
      apply String.toList_inj.mp
      simp [SExpr.display, SExpr.displayAll, String.intercalate_cons_cons]
  | var i => rfl
  | const c => rfl

/-! ### The printed s-expression is printable -/

/-- The printed operators are names of the grammar. -/
theorem UnOp.displayName_spec (env : Environ) {o : UnOp} (h : ∀ i, o ≠ .fop1 i) :
  ∃ n, o.displayName env = some n ∧ (SExpr.id n).Printable
    ∧ (UnOp.all.find? fun o => o.smtName = n) = some o
  := by
  cases o with
  | fop1 i => cases h i rfl
  | not | neg => exact ⟨_, rfl, .id (by decide) (List.all_eq_true.mp (by decide)), by decide⟩

theorem BinOp.displayName_spec (env : Environ) {o : BinOp} (h : ∀ i, o ≠ .fop2 i) :
  ∃ n, o.displayName env = some n ∧ (SExpr.id n).Printable
    ∧ (BinOp.all.find? fun o => o.smtName = n) = some o
  := by
  cases o with
  | fop2 i => cases h i rfl
  | _ => exact ⟨_, rfl, .id (by decide) (List.all_eq_true.mp (by decide)), by decide⟩

theorem printable_varName (i : ℕ) :
  (SExpr.id (varName i)).Printable
  := by
  have hdigit : ∀ c, c.isDigit = true → SExprParser.isIdChar c = true := by
    intro c hc
    have hbounds : '0' ≤ c ∧ c ≤ '9' := by
      simpa [Char.isDigit, Char.le_def] using hc
    simp [SExprParser.isIdChar, hbounds.1, hbounds.2]
  have hchars : (varName i).toList = 'v' :: (toString i).toList := by
    rw [varName, String.toList_append]
    rfl
  apply SExpr.Printable.id
  · rw [hchars]
    apply List.cons_ne_nil
  · rw [hchars]
    intro c hc
    rcases List.mem_cons.mp hc with rfl | hc
    · decide
    · have hrepr : (toString i).toList = Nat.toDigits 10 i := Nat.toList_repr
      rw [hrepr] at hc
      apply hdigit c (Nat.isDigit_of_mem_toDigits (by decide) (by decide) hc)

theorem printable_hexLiteral (c : BitVec 64) :
  (SExpr.const (hexLiteral c)).Printable
  := by
  have hhex : ∀ n, n < 16 → SExprParser.isIdChar (hexChar n) = true := by decide
  have hdigits : ∀ k n, ∀ c ∈ hexDigits k n, SExprParser.isIdChar c = true := by
    intro k
    induction k with
    | zero => simp [hexDigits]
    | succ k ih =>
        intro n c hc
        rcases List.mem_append.mp hc with hc | hc
        · apply ih _ c hc
        · rw [List.mem_singleton.mp hc]
          apply hhex _ (Nat.mod_lt n (by decide))
  have hs : (hexLiteral c).toList = '#' :: 'x' :: hexDigits 16 c.toNat := by
    rw [hexLiteral, String.toList_ofList]
  apply SExpr.Printable.const hs
  · apply List.cons_ne_nil
  · intro d hd
    rcases List.mem_cons.mp hd with rfl | hd
    · decide
    · apply hdigits _ _ d hd

/-! ### Reading back -/

/-- The expression that is read back: the condition of an `ite` comes back as an exclusive or
with zero. -/
def ExprIn.readBack {s : Storage} : ExprIn s → ExprIn s
  | .un o e₁ => .un o e₁.readBack
  | .bin o e₁ e₂ => .bin o e₁.readBack e₂.readBack
  | .ite e₁ e₂ e₃ => .ite (.bin .xor e₁.readBack (.const 0)) e₂.readBack e₃.readBack
  | .var i => .var i
  | .const c => .const c

/-- The expression that is read back evaluates to the same result. -/
theorem ExprIn.evalWith_readBack {s : Storage} (F : Funs) (args : List (BitVec 64))
    (e : ExprIn s) :
  e.readBack.evalWith F args = e.evalWith F args
  := by
  induction e with
  | un o e₁ ih => simp only [readBack, evalWith, ih]
  | bin o e₁ e₂ ih₁ ih₂ => simp only [readBack, evalWith, ih₁, ih₂]
  | ite e₁ e₂ e₃ ih₁ ih₂ ih₃ =>
      have hcond : (ExprIn.bin .xor e₁.readBack (.const 0)).evalWith F args
          = e₁.evalWith F args := by
        rw [evalWith, ih₁]
        cases e₁.evalWith F args with
        | error a => rfl
        | ok v => exact congrArg Except.ok BitVec.xor_zero
      have hite : ∀ c : ExprIn s, (ExprIn.ite c e₂.readBack e₃.readBack).evalWith F args
          = c.evalWith F args >>= fun v₁ => e₂.evalWith F args >>= fun v₂ =>
            e₃.evalWith F args >>= fun v₃ => .ok (op.ite v₁ v₂ v₃) := by
        intro c
        rw [evalWith, ih₂, ih₃]
      rw [readBack, hite, hcond, evalWith]
  | var i => rfl
  | const c => rfl

theorem findIdx?_paramNames {i n : ℕ} (h : i < n) :
  (paramNames n).findIdx? (fun x => x = varName i) = some i
  := by
  rw [List.findIdx?_eq_some_iff_getElem]
  have hlen : i < (paramNames n).length := by simpa [paramNames] using h
  refine ⟨hlen, by simp [paramNames], ?_⟩
  intro j hj
  have hne : varName j ≠ varName i := varName_injective.ne hj.ne
  simpa [paramNames] using hne

/-- The printed s-expression is read back. -/
theorem ExprIn.exists_display (env : Environ) {n : ℕ} {e : OwnedExpr}
    (h : e.Defined .none n) :
  ∃ s, e.display env = some s ∧ s.Printable ∧
    OwnedExpr.fromSExpr (paramNames n) s = .ok e.readBack
  := by
  induction e with
  | un o e₁ ih =>
      obtain ⟨h₁, ho⟩ := h
      obtain ⟨s₁, hs₁, hp₁, hr₁⟩ := ih h₁
      obtain ⟨m, hm, hpm, hfind⟩ := UnOp.displayName_spec env ho
      refine ⟨.list [.id m, s₁], by simp [display, hm, hs₁], ?_, ?_⟩
      · apply SExpr.Printable.list
        simp [hpm, hp₁]
      · simp [OwnedExpr.fromSExpr, OwnedExpr.fromSExprs, OwnedExpr.fromCall, hr₁, hfind, readBack,
          bind, Except.bind]
  | bin o e₁ e₂ ih₁ ih₂ =>
      obtain ⟨h₁, h₂, ho⟩ := h
      obtain ⟨s₁, hs₁, hp₁, hr₁⟩ := ih₁ h₁
      obtain ⟨s₂, hs₂, hp₂, hr₂⟩ := ih₂ h₂
      obtain ⟨m, hm, hpm, hfind⟩ := BinOp.displayName_spec env ho
      refine ⟨.list [.id m, s₁, s₂], by simp [display, hm, hs₁, hs₂], ?_, ?_⟩
      · apply SExpr.Printable.list
        simp [hpm, hp₁, hp₂]
      · simp [OwnedExpr.fromSExpr, OwnedExpr.fromSExprs, OwnedExpr.fromCall, hr₁, hr₂, hfind,
          readBack, bind, Except.bind]
  | ite e₁ e₂ e₃ ih₁ ih₂ ih₃ =>
      obtain ⟨h₁, h₂, h₃⟩ := h
      obtain ⟨s₁, hs₁, hp₁, hr₁⟩ := ih₁ h₁
      obtain ⟨s₂, hs₂, hp₂, hr₂⟩ := ih₂ h₂
      obtain ⟨s₃, hs₃, hp₃, hr₃⟩ := ih₃ h₃
      have hname : ∀ m : String, m = "ite" ∨ m = "=" → (SExpr.id m).Printable := by
        rintro m (rfl | rfl)
        · exact .id (by decide) (List.all_eq_true.mp (by decide))
        · exact .id (by decide) (List.all_eq_true.mp (by decide))
      have heq : (BinOp.all.find? fun o => o.smtName = "=") = none := by decide
      have hzero := u64Constant_hexLiteral 0 (.const "#x0000000000000000")
      have hlit : hexLiteral 0 = "#x0000000000000000" := by decide
      rw [hlit] at hzero
      refine ⟨.list [.id "ite", .list [.id "=", s₁, .const "#x0000000000000000"], s₂, s₃],
        by simp [display, hs₁, hs₂, hs₃], ?_, ?_⟩
      · have hp₀ := printable_hexLiteral 0
        rw [hlit] at hp₀
        have hcond : (SExpr.list [.id "=", s₁, .const "#x0000000000000000"]).Printable := by
          apply SExpr.Printable.list
          simp [hname "=" (.inr rfl), hp₁, hp₀]
        apply SExpr.Printable.list
        simp [hname "ite" (.inl rfl), hcond, hp₂, hp₃]
      · simp [OwnedExpr.fromSExpr, OwnedExpr.fromSExprs, OwnedExpr.fromCall, hr₁, hr₂, hr₃, heq,
          hzero, readBack, bind, Except.bind]
  | var i =>
      refine ⟨.id (varName i), rfl, printable_varName i, ?_⟩
      rw [OwnedExpr.fromSExpr, findIdx?_paramNames h]
      rfl
  | const c =>
      refine ⟨.const (hexLiteral c), rfl, printable_hexLiteral c, ?_⟩
      rw [OwnedExpr.fromSExpr, u64Constant_hexLiteral]
      rfl

/-- The text printed of an expression without defined functions, over the variables below
`n`, is parsed as one s-expression, which is read in the environment of these variables as an
expression that evaluates to the same result on all arguments. -/
theorem roundTrip (env : Environ) {n : ℕ} {e : OwnedExpr} (h : e.Defined .none n) :
  ∃ text sexpr e', e.text env = some text ∧ SExpr.parse text = .ok (.list [sexpr]) ∧
    OwnedExpr.fromSExpr (paramNames n) sexpr = .ok e' ∧
    ∀ args, e'.eval env args = e.eval env args
  := by
  obtain ⟨s, hs, hprintable, hread⟩ := ExprIn.exists_display env h
  refine ⟨s.display, s, e.readBack, ?_, SExpr.parse_display hprintable, hread, ?_⟩
  · rw [ExprIn.text_eq_display, hs, Option.map_some]
  · intro args
    apply ExprIn.evalWith_readBack

/-- The expression `(ite (= (bvudiv v0 v1) #x0000000000000000) v1 #x0000000000000007)`. -/
theorem roundTrip_ite :
  ∃ text sexpr e',
    (ExprIn.ite (.bin .udiv (.var 0) (.var 1)) (.var 1) (.const 7) : OwnedExpr).text
      (Environ.new 0) = some text ∧ SExpr.parse text = .ok (.list [sexpr]) ∧
    OwnedExpr.fromSExpr (paramNames 2) sexpr = .ok e' ∧
    ∀ args, e'.eval (Environ.new 0) args
      = (ExprIn.ite (.bin .udiv (.var 0) (.var 1)) (.var 1) (.const 7) : OwnedExpr).eval
        (Environ.new 0) args
  := by
  apply roundTrip
  refine ⟨⟨Nat.two_pos, Nat.one_lt_two, ?_⟩, Nat.one_lt_two, trivial⟩
  rintro i ⟨⟩

end DryadSynth
