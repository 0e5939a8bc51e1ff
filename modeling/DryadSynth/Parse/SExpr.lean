import DryadSynth.Library.QFBV

/-!
# S-expressions and literals

The s-expressions of `parse/sexpr.rs`, the accessors `call` and `list` through which every
parser of the front end reads them, and the literals of `parse/literals.rs`.  An
s-expression keeps no span: an error names the s-expression whose span it cites.
-/

namespace DryadSynth

/-- An s-expression: an identifier, a `#` literal, or a list. -/
inductive SExpr where
  | id (s : String)
  | const (s : String)
  | list (l : List SExpr)
  deriving Repr

mutual

/-- Equality of s-expressions is decidable. -/
def SExpr.decEq : (s t : SExpr) → Decidable (s = t)
  | .id a, .id b => decidable_of_iff (a = b) (by simp)
  | .const a, .const b => decidable_of_iff (a = b) (by simp)
  | .list l, .list l' =>
      match SExpr.decEqs l l' with
      | isTrue h => isTrue (by rw [h])
      | isFalse h => isFalse (by simpa using h)
  | .id _, .const _ | .id _, .list _ | .const _, .id _ | .const _, .list _ | .list _, .id _
  | .list _, .const _ => isFalse (by simp)

/-- Equality of lists of s-expressions is decidable. -/
def SExpr.decEqs : (l l' : List SExpr) → Decidable (l = l')
  | [], [] => isTrue rfl
  | [], _ :: _ | _ :: _, [] => isFalse (by simp)
  | s :: l, t :: l' =>
      match SExpr.decEq s t, SExpr.decEqs l l' with
      | isTrue h, isTrue h' => isTrue (by rw [h, h'])
      | isFalse h, _ => isFalse fun heq => h (List.cons.inj heq).1
      | _, isFalse h' => isFalse fun heq => h' (List.cons.inj heq).2

end

instance : DecidableEq SExpr := SExpr.decEq

/-- A custom error of the parsers: its message and the s-expression it is located at. -/
structure ParseError where
  msg : String
  span : SExpr
  deriving Repr

/-- What ends a parser other than a result. -/
inductive ParseFault where
  | error (e : ParseError)
  | panic
  deriving Repr

/-- The result of a parser of the front end. -/
abbrev Parse (α : Type) : Type := Except ParseFault α

/-- `new_custom_error_span`. -/
def newCustomErrorSpan {α : Type} (msg : String) (span : SExpr) : Parse α :=
  .error (.error ⟨msg, span⟩)

namespace SExpr

/-- `SExpr::call`: the head and the operands of a list whose head is an identifier.  The
empty list has no first element to unwrap. -/
def call : SExpr → Parse (Option (String × List SExpr))
  | .list [] => .error .panic
  | .list (.id n :: r) => .ok (some (n, r))
  | .list (_ :: _) => .ok none
  | .id _ => .ok none
  | .const _ => .ok none

/-- `SExpr::list`: the elements of a list. -/
def elements : SExpr → Option (List SExpr)
  | .list l => some l
  | .id _ => none
  | .const _ => none

@[simp]
theorem call_list_id (n : String) (r : List SExpr) :
  call (.list (.id n :: r)) = .ok (some (n, r))
  := rfl

/-- A call is a list headed by its name. -/
theorem call_eq_some {s : SExpr} {n : String} {r : List SExpr} (h : s.call = .ok (some (n, r))) :
  s = .list (.id n :: r)
  := by
  cases s with
  | id s => cases h
  | const s => cases h
  | list l =>
      match l, h with
      | .id _ :: _, h =>
          cases h
          rfl

end SExpr

/-! ### Digits -/

/-- `char::is_digit` and `char::to_digit`: the value of a character as a digit. -/
def digit (radix : ℕ) (c : Char) : Option ℕ :=
  let d :=
    if '0' ≤ c ∧ c ≤ '9' then some (c.toNat - '0'.toNat)
    else if 'a' ≤ c ∧ c ≤ 'f' then some (c.toNat - 'a'.toNat + 10)
    else if 'A' ≤ c ∧ c ≤ 'F' then some (c.toNat - 'A'.toNat + 10)
    else none
  d.filter (· < radix)

/-- The number a list of digits denotes. -/
def ofDigits (radix : ℕ) (cs : List Char) : ℕ :=
  cs.foldl (fun n c => n * radix + (digit radix c).getD 0) 0

theorem ofDigits_append_singleton (radix : ℕ) (cs : List Char) (c : Char) :
  ofDigits radix (cs ++ [c]) = ofDigits radix cs * radix + (digit radix c).getD 0
  := by
  simp [ofDigits]

/-- The character of a hexadecimal digit, as `{:x}` prints it. -/
def hexChar (n : ℕ) : Char :=
  if n < 10 then Char.ofNat ('0'.toNat + n) else Char.ofNat ('a'.toNat + (n - 10))

theorem digit_hexChar {n : ℕ} (h : n < 16) :
  digit 16 (hexChar n) = some n
  := by
  revert n
  decide

/-- The last `k` hexadecimal digits of `n`. -/
def hexDigits : ℕ → ℕ → List Char
  | 0, _ => []
  | k + 1, n => hexDigits k (n / 16) ++ [hexChar (n % 16)]

@[simp]
theorem length_hexDigits (k n : ℕ) :
  (hexDigits k n).length = k
  := by
  induction k generalizing n with
  | zero => rfl
  | succ k ih => simp [hexDigits, ih]

theorem ofDigits_hexDigits (k n : ℕ) :
  ofDigits 16 (hexDigits k n) = n % 16 ^ k
  := by
  induction k generalizing n with
  | zero => simp [hexDigits, ofDigits, Nat.mod_one]
  | succ k ih =>
      rw [hexDigits, ofDigits_append_singleton, ih, digit_hexChar (Nat.mod_lt _ (by decide)),
        Nat.pow_succ, Nat.mul_comm (16 ^ k), Nat.mod_mul, Option.getD_some]
      omega

/-- Every printed digit is a hexadecimal digit. -/
theorem isSome_digit_of_mem_hexDigits {k n : ℕ} {c : Char} (h : c ∈ hexDigits k n) :
  (digit 16 c).isSome
  := by
  induction k generalizing n with
  | zero => simp [hexDigits] at h
  | succ k ih =>
      rw [hexDigits, List.mem_append, List.mem_singleton] at h
      rcases h with h | rfl
      · apply ih h
      · rw [digit_hexChar (Nat.mod_lt _ (by decide))]
        rfl

/-- The literal `#x{:016x}` of a 64-bit value. -/
def hexLiteral (x : BitVec 64) : String :=
  String.ofList ('#' :: 'x' :: hexDigits 16 x.toNat)

/-! ### Literals -/

/-- `u64::from_str_radix`, which fails on the values that do not fit. -/
def fromStrRadix (radix : ℕ) (cs : List Char) : Option (BitVec 64) :=
  if ofDigits radix cs < 2 ^ 64 then some (BitVec.ofNat 64 (ofDigits radix cs)) else none

/-- `preceded(tag(pre), map_res(take_while1(is_digit), from_str_radix))`: the value, and
the input that is left. -/
def radixConstant (pre : List Char) (radix : ℕ) (cs : List Char) :
    Option (List Char × BitVec 64) :=
  if pre <+: cs then
    let (digits, rest) := (cs.drop pre.length).span fun c => (digit radix c).isSome
    if digits = [] then none else (fromStrRadix radix digits).map (rest, ·)
  else none

/-- The three alternatives `#x`, `#d` and `#b` of a constant. -/
def constant (cs : List Char) : Option (List Char × BitVec 64) :=
  (radixConstant ['#', 'x'] 16 cs).or
    ((radixConstant ['#', 'd'] 10 cs).or (radixConstant ['#', 'b'] 2 cs))

/-- `u64_constant`: a constant that is the whole input. -/
def u64Constant (input : String) (span : SExpr) : Parse (BitVec 64) :=
  match constant input.toList with
  | some ([], a) => .ok a
  | some (_ :: _, _) => newCustomErrorSpan "Unrecongnized Constant." span
  | none => newCustomErrorSpan "Unrecongnized Constant." span

/-- `u64_constant_no_error`: the constant the input starts with; there is none to expect
when it starts with no constant. -/
def u64ConstantNoError (input : String) : Parse (BitVec 64) :=
  match constant input.toList with
  | some (_, a) => .ok a
  | none => .error .panic

/-- The constant a printed literal denotes. -/
theorem constant_hexLiteral (x : BitVec 64) :
  constant (hexLiteral x).toList = some ([], x)
  := by
  have htake : (hexDigits 16 x.toNat).takeWhile (fun c => (digit 16 c).isSome)
      = hexDigits 16 x.toNat := by
    apply List.takeWhile_eq_self_iff.mpr
    intro c hc
    apply isSome_digit_of_mem_hexDigits hc
  have hdrop : (hexDigits 16 x.toNat).dropWhile (fun c => (digit 16 c).isSome) = [] := by
    apply List.dropWhile_eq_nil_iff.mpr
    intro c hc
    apply isSome_digit_of_mem_hexDigits hc
  have hne : hexDigits 16 x.toNat ≠ [] := by
    apply List.ne_nil_of_length_pos
    simp
  have hval : ofDigits 16 (hexDigits 16 x.toNat) = x.toNat := by
    rw [ofDigits_hexDigits]
    apply Nat.mod_eq_of_lt x.isLt
  simp [constant, radixConstant, hexLiteral, htake, hdrop, hne, fromStrRadix, hval, x.isLt]

/-- Reading back a printed literal. -/
theorem u64Constant_hexLiteral (x : BitVec 64) (span : SExpr) :
  u64Constant (hexLiteral x) span = .ok x
  := by
  rw [u64Constant, constant_hexLiteral]

/-! ### S-expressions as SMT-LIB terms -/

/-- The 64-bit value an SMT-LIB literal denotes: `#x` with sixteen or `#b` with sixty-four
digits. -/
def smtLiteral (s : String) : Option (BitVec 64) :=
  match s.toList with
  | '#' :: 'x' :: cs =>
      if cs.length = 16 ∧ cs.all fun c => (digit 16 c).isSome then
        some (BitVec.ofNat 64 (ofDigits 16 cs)) else none
  | '#' :: 'b' :: cs =>
      if cs.length = 64 ∧ cs.all fun c => (digit 2 c).isSome then
        some (BitVec.ofNat 64 (ofDigits 2 cs)) else none
  | _ => none

theorem smtLiteral_hexLiteral (x : BitVec 64) :
  smtLiteral (hexLiteral x) = some x
  := by
  have hval : ofDigits 16 (hexDigits 16 x.toNat) = x.toNat := by
    rw [ofDigits_hexDigits]
    apply Nat.mod_eq_of_lt x.isLt
  have hall : ∀ c ∈ hexDigits 16 x.toNat, (digit 16 c).isSome = true :=
    fun c hc => isSome_digit_of_mem_hexDigits hc
  have hlist : (hexDigits 16 x.toNat).all (fun c => (digit 16 c).isSome) = true :=
    List.all_eq_true.mpr hall
  simp only [smtLiteral, hexLiteral, String.toList_ofList, hval, hlist, length_hexDigits,
    and_self, if_true, BitVec.ofNat_toNat, BitVec.setWidth_eq]

/-- A number is below the power of the radix for its number of digits. -/
theorem ofDigits_lt {radix : ℕ} {cs : List Char} (h : ∀ c ∈ cs, (digit radix c).isSome) :
  ofDigits radix cs < radix ^ cs.length
  := by
  induction cs using List.reverseRec with
  | nil => simp [ofDigits]
  | append_singleton cs c ih =>
      obtain ⟨d, hd⟩ := Option.isSome_iff_exists.mp (h c (by simp))
      have hlt : d < radix := by
        simpa using (Option.filter_eq_some_iff.mp hd).2
      have hcs := ih fun c' hc' => h c' (List.mem_append_left _ hc')
      rw [ofDigits_append_singleton, hd, Option.getD_some, List.length_append,
        List.length_singleton, Nat.pow_succ]
      calc ofDigits radix cs * radix + d
          < ofDigits radix cs * radix + radix := Nat.add_lt_add_left hlt _
        _ = (ofDigits radix cs + 1) * radix := (Nat.succ_mul _ _).symm
        _ ≤ radix ^ cs.length * radix := Nat.mul_le_mul_right _ hcs

/-- A prefix and the digits after it are a constant. -/
theorem radixConstant_digits (pre : List Char) {cs : List Char} {radix : ℕ} (hne : cs ≠ [])
    (h : ∀ c ∈ cs, (digit radix c).isSome) (hlt : radix ^ cs.length ≤ 2 ^ 64) :
  radixConstant pre radix (pre ++ cs) = some ([], BitVec.ofNat 64 (ofDigits radix cs))
  := by
  have htake : cs.takeWhile (fun c => (digit radix c).isSome) = cs :=
    List.takeWhile_eq_self_iff.mpr h
  have hdrop : cs.dropWhile (fun c => (digit radix c).isSome) = [] :=
    List.dropWhile_eq_nil_iff.mpr h
  have hval : ofDigits radix cs < 2 ^ 64 := (ofDigits_lt h).trans_le hlt
  have hval' : ofDigits radix cs < 18446744073709551616 := hval
  simp [radixConstant, htake, hdrop, hne, fromStrRadix, hval']

/-- `u64_constant_no_error` reads the literals of SMT-LIB. -/
theorem u64ConstantNoError_of_smtLiteral {s : String} {x : BitVec 64}
    (h : smtLiteral s = some x) :
  u64ConstantNoError s = .ok x
  := by
  suffices hconst : constant s.toList = some ([], x) by
    rw [u64ConstantNoError, hconst]
  rw [smtLiteral] at h
  split at h
  · next cs hs =>
      split_ifs at h with hcs
      obtain ⟨hlen, hall⟩ := hcs
      have hhex : radixConstant ['#', 'x'] 16 ('#' :: 'x' :: cs)
          = some ([], BitVec.ofNat 64 (ofDigits 16 cs)) := by
        apply radixConstant_digits ['#', 'x']
        · rintro rfl
          cases hlen
        · apply List.all_eq_true.mp hall
        · simp [hlen]
      rw [hs, constant, hhex, Option.or, Option.some.inj h]
  · next cs hs =>
      split_ifs at h with hcs
      obtain ⟨hlen, hall⟩ := hcs
      have hbin : radixConstant ['#', 'b'] 2 ('#' :: 'b' :: cs)
          = some ([], BitVec.ofNat 64 (ofDigits 2 cs)) := by
        apply radixConstant_digits ['#', 'b']
        · rintro rfl
          cases hlen
        · apply List.all_eq_true.mp hall
        · simp [hlen]
      rw [hs, constant, hbin, Option.some.inj h]
      simp [radixConstant]
  · cases h

namespace SExpr

mutual

/-- The SMT-LIB term an s-expression writes down. -/
def toTerm : SExpr → Option (QFBV.Term 64)
  | .id s => some (.symbol s)
  | .const s => (smtLiteral s).map .literal
  | .list [] => none
  | .list (.id f :: ts) => (toTerms ts).map (.app f)
  | .list (_ :: _) => none

/-- The SMT-LIB terms a list of s-expressions writes down. -/
def toTerms : List SExpr → Option (List (QFBV.Term 64))
  | [] => some []
  | s :: ss => (toTerm s).bind fun t => (toTerms ss).map (t :: ·)

end

@[simp]
theorem toTerms_nil :
  toTerms [] = some []
  := rfl

@[simp]
theorem toTerms_cons (s : SExpr) (ss : List SExpr) :
  toTerms (s :: ss) = s.toTerm.bind fun t => (toTerms ss).map (t :: ·)
  := rfl

@[simp]
theorem toTerm_call (f : String) (ts : List SExpr) :
  toTerm (.list (.id f :: ts)) = (toTerms ts).map (.app f)
  := rfl

end SExpr

end DryadSynth
