import DryadSynth.Parse.Problem

/-!
# Input-output examples

`PbeConstraint` of `parse/constraint/pbe.rs`: the examples as a column for each argument and a
column of outputs.
-/

namespace DryadSynth

/-- `Result::unwrap_or` on the result of `eval`: an error has a default, a panic has not. -/
def unwrapOr {α : Type} (default : α) : Except Fault α → Except Fault α
  | .ok a => .ok a
  | .error .divideByZero => .ok default
  | .error .panic => .error .panic
  | .error .stackOverflow => .error .stackOverflow

/-- `PbeConstraint`. -/
structure PbeConstraint where
  input : List (List (BitVec 64))
  output : List (BitVec 64)

namespace PbeConstraint

/-- `PbeConstraint::new`. -/
def new (args : ℕ) : PbeConstraint := ⟨List.replicate args [], []⟩

/-- `PbeConstraint::len`. -/
def len (c : PbeConstraint) : ℕ := c.output.length

/-- `PbeConstraint::args_count`. -/
def argsCount (c : PbeConstraint) : ℕ := c.input.length

/-- An index into a column; out of range it is a panic. -/
def index (x : List (BitVec 64)) (i : ℕ) : Except Fault (BitVec 64) :=
  match x[i]? with
  | some v => .ok v
  | none => .error .panic

/-- `PbeConstraint::args`. -/
def args (c : PbeConstraint) (i : ℕ) : Except Fault (List (BitVec 64)) :=
  c.input.mapM fun x => index x i

section Test

variable (env : Environ) (c : PbeConstraint) {s : Storage} (expr : ExprIn s)

/-- The check of one example by `p`, from the value of the expression and the output. -/
def check (p : BitVec 64 → BitVec 64 → Bool) (i : ℕ) : Except Fault Bool := do
  let args ← c.args i
  let out ← index c.output i
  unwrapOr false ((expr.eval env args).map fun x => p x out)

/-- `PbeConstraint::test` and `PbeConstraint::test_owned`: the examples that the expression
solves, in increasing order. -/
def test : Except Fault (List ℕ) :=
  (List.range c.len).filterM (c.check env expr fun x out => decide (x = out))

/-- `PbeConstraint::test_and`. -/
def testAnd : Except Fault Bool :=
  (List.range c.len).allM (c.check env expr fun x out => decide (out &&& ~~~x = 0))

/-- `PbeConstraint::test_or`. -/
def testOr : Except Fault Bool :=
  (List.range c.len).allM (c.check env expr fun x out => decide (~~~out &&& x = 0))

end Test

/-- `PbeConstraint::set_output`. -/
def setOutput (c : PbeConstraint) (value : BitVec 64) : PbeConstraint :=
  { c with output := c.output.map fun _ => value }

/-- `PbeConstraint::add_example`: the inputs are zipped with the columns. -/
def addExample (c : PbeConstraint) (input : List (BitVec 64)) (output : BitVec 64) :
    PbeConstraint :=
  ⟨List.zipWith (fun x p => x ++ [p]) c.input input ++ c.input.drop input.length,
    c.output ++ [output]⟩

/-! ### The examples an expression solves -/

/-- A test returns and accepts. -/
def accepts : Except Fault Bool → Bool
  | .ok b => b
  | .error _ => false

theorem accepts_eq_true {r : Except Fault Bool} :
  accepts r = true ↔ r = .ok true
  := by
  cases r <;> simp [accepts]

/-- A filter that returns keeps what its test accepts. -/
theorem filterM_eq_ok {α : Type} {f : α → Except Fault Bool} {l r : List α}
    (h : l.filterM f = .ok r) :
  r = l.filter (fun x => accepts (f x)) ∧ ∀ x ∈ l, ∃ b, f x = .ok b
  := by
  have haux : ∀ acc r, l.filterAuxM f acc = .ok r →
      r = (l.filter fun x => accepts (f x)).reverse ++ acc ∧ ∀ x ∈ l, ∃ b, f x = .ok b := by
    clear h r
    induction l with
    | nil =>
        rintro acc r ⟨⟩
        simp
    | cons x l ih =>
        intro acc r h
        obtain ⟨b, hb, h⟩ := bind_eq_ok.mp h
        obtain ⟨rfl, hl⟩ := ih _ _ h
        constructor
        · cases b with
          | true => simp [hb, accepts]
          | false => simp [hb, accepts]
        · intro y hy
          rcases List.mem_cons.mp hy with rfl | hy
          · use b
          · apply hl y hy
  obtain ⟨r', hr', h⟩ := bind_eq_ok.mp h
  obtain ⟨rfl, hl⟩ := haux [] r' hr'
  cases h
  constructor
  · simp
  · apply hl

variable {env : Environ} {c : PbeConstraint} {s : Storage} {e : ExprIn s}

@[simp]
theorem test_convert {t : Storage} (e : ExprIn s) :
  c.test env (e.convert (t := t)) = c.test env e
  := by
  have hcheck : c.check env (e.convert (t := t)) (fun x out => decide (x = out))
      = c.check env e (fun x out => decide (x = out)) := by
    funext i
    simp only [check, ExprIn.eval_convert]
  rw [test, hcheck, test]

theorem args_eq_ok {i : ℕ} {as : List (BitVec 64)} (h : c.args i = .ok as) (j : ℕ) :
  as[j]? = (c.input[j]?).bind fun x => x[i]?
  := by
  obtain ⟨input, output⟩ := c
  simp only [args] at h ⊢
  induction input generalizing as j with
  | nil =>
      cases h
      rfl
  | cons x input ih =>
      simp only [List.mapM_cons, bind_eq_ok] at h
      obtain ⟨a, ha, as', has', h⟩ := h
      cases h
      cases j with
      | zero =>
          unfold index at ha
          split at ha
          · next v hv =>
              cases ha
              simp [hv]
          · cases ha
      | succ j => simpa using ih j has'

/-- The check of an example accepts an expression that has its output as value. -/
theorem check_eq_ok_true {i : ℕ}
    (h : c.check env e (fun x out => decide (x = out)) i = .ok true) :
  ∃ as out, c.args i = .ok as ∧ c.output[i]? = some out ∧ e.eval env as = .ok out
  := by
  simp only [check, bind_eq_ok] at h
  obtain ⟨as, has, out, hout, h⟩ := h
  use as, out, has
  constructor
  · unfold index at hout
    split at hout
    · next v hv => rw [hv, Except.ok.inj hout]
    · cases hout
  · cases hv : e.eval env as with
    | ok v => simpa [hv, Except.map, unwrapOr] using h
    | error f => cases f <;> simp [hv, Except.map, unwrapOr] at h

/-- `test` returns examples that the expression solves. -/
theorem mem_test {l : List ℕ} (h : c.test env e = .ok l) {i : ℕ} (hi : i ∈ l) :
  ∃ as out, c.args i = .ok as ∧ c.output[i]? = some out ∧ e.eval env as = .ok out
  := by
  rw [(filterM_eq_ok h).1, List.mem_filter, accepts_eq_true] at hi
  apply check_eq_ok_true hi.2

theorem lt_of_mem_test {l : List ℕ} (h : c.test env e = .ok l) {i : ℕ} (hi : i ∈ l) :
  i < c.len
  := by
  rw [(filterM_eq_ok h).1, List.mem_filter] at hi
  apply List.mem_range.mp hi.1

/-- Where `test` returns, every example has its arguments and its output. -/
theorem exists_args_of_test {l : List ℕ} (h : c.test env e = .ok l) {i : ℕ} (hi : i < c.len) :
  ∃ as out, c.args i = .ok as ∧ c.output[i]? = some out
  := by
  obtain ⟨b, hb⟩ := (filterM_eq_ok h).2 i (List.mem_range.mpr hi)
  simp only [check, bind_eq_ok] at hb
  obtain ⟨as, has, out, hout, -⟩ := hb
  use as, out, has
  unfold index at hout
  split at hout
  · next v hv => rw [hv, Except.ok.inj hout]
  · cases hout

/-- `test` returns every example that the expression solves. -/
theorem mem_test_iff {l : List ℕ} (h : c.test env e = .ok l) {i : ℕ} {as : List (BitVec 64)}
    {out : BitVec 64} (has : c.args i = .ok as) (hout : c.output[i]? = some out) :
  i ∈ l ↔ e.eval env as = .ok out
  := by
  constructor
  · intro hi
    obtain ⟨as', out', has', hout', hv⟩ := mem_test h hi
    rw [has] at has'
    rw [hout] at hout'
    cases has'
    cases hout'
    apply hv
  · intro hv
    have hi : i < c.len := (List.getElem?_eq_some_iff.mp hout).1
    rw [(filterM_eq_ok h).1, List.mem_filter, List.mem_range, accepts_eq_true]
    use hi
    simp [check, has, index, hout, hv, bind, Except.bind, Except.map, unwrapOr]

/-- An expression that solves as many examples as there are solves each. -/
theorem mem_test_of_length {l : List ℕ} (h : c.test env e = .ok l) (hlen : l.length = c.len)
    {i : ℕ} (hi : i < c.len) :
  i ∈ l
  := by
  have hsub : l.Sublist (List.range c.len) := by
    rw [(filterM_eq_ok h).1]
    apply List.filter_sublist
  rw [hsub.eq_of_length (by simpa using hlen)]
  apply List.mem_range.mpr hi

/-- An expression that does not solve an example does not solve as many as there are. -/
theorem length_test_lt {l : List ℕ} (h : c.test env e = .ok l) {i : ℕ} (hi : i < c.len)
    (hne : i ∉ l) :
  l.length < c.len
  := by
  have hl := (filterM_eq_ok h).1
  have hsub : l.Sublist (List.range c.len) := by
    rw [hl]
    apply List.filter_sublist
  apply lt_of_le_of_ne
  · simpa using hsub.length_le
  · intro hlen
    apply hne (mem_test_of_length h hlen hi)

@[simp]
theorem len_setOutput (value : BitVec 64) :
  (c.setOutput value).len = c.len
  := List.length_map ..

theorem args_setOutput {value : BitVec 64} {i : ℕ} :
  (c.setOutput value).args i = c.args i
  := rfl

theorem output_setOutput {value : BitVec 64} {i : ℕ} (hi : i < c.len) :
  (c.setOutput value).output[i]? = some value
  := by
  have hlt : i < c.output.length := hi
  simp [setOutput, List.getElem?_replicate_of_lt hlt]

theorem getElem?_addExample (c : PbeConstraint) (as : List (BitVec 64)) (out : BitVec 64)
    (j : ℕ) :
  (c.addExample as out).input[j]? = (c.input[j]?).map fun x => x ++ as[j]?.toList
  := by
  obtain ⟨input, output⟩ := c
  simp only [addExample]
  induction input generalizing as j with
  | nil => simp
  | cons x input ih =>
      cases as with
      | nil => cases h : (x :: input)[j]? <;> simp [h]
      | cons a as =>
          cases j with
          | zero => simp
          | succ j => simpa using ih as j

end PbeConstraint

end DryadSynth
