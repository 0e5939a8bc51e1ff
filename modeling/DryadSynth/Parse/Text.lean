import DryadSynth.Parse.Constraint

/-!
# The text of s-expressions

The grammar of `parse/sexpr.pest` and `SExpr::parse`, which constructs an s-expression from
the tree of the rules that match a text.  Between the tokens of a rule white space and
comments are skipped.  A position in the text is given by what is left of it.

The construction meets only the trees it expects, and the text of a list of s-expressions is
read back as this list.
-/

namespace DryadSynth

namespace SExprParser

/-! ### White space and comments -/

/-- `newline`. -/
def newline : List Char → Option (List Char)
  | '\n' :: cs => some cs
  | '\r' :: '\n' :: cs => some cs
  | _ => none

/-- `WHITESPACE`. -/
def whitespace : List Char → Option (List Char)
  | ' ' :: cs => some cs
  | '\t' :: cs => some cs
  | cs => newline cs

/-- `(!newline ~ ANY)*`. -/
def restOfLine : List Char → List Char
  | [] => []
  | c :: cs =>
      match newline (c :: cs) with
      | some _ => c :: cs
      | none => restOfLine cs

/-- `line_comment`. -/
def lineComment : List Char → Option (List Char)
  | ';' :: cs => some (restOfLine cs)
  | _ => none

mutual

/-- `block_comment`, in at most as many steps. -/
def blockComment : ℕ → List Char → Option (List Char)
  | 0, _ => none
  | n + 1, '/' :: '*' :: cs =>
      match blockBody n cs with
      | '*' :: '/' :: rest => some rest
      | _ => none
  | _ + 1, _ => none

/-- `(block_comment | !"*/" ~ ANY)*`, in at most as many steps. -/
def blockBody : ℕ → List Char → List Char
  | 0, cs => cs
  | n + 1, cs =>
      match blockComment n cs with
      | some rest => blockBody n rest
      | none =>
          match cs with
          | '*' :: '/' :: _ => cs
          | _ :: rest => blockBody n rest
          | [] => []

end

/-- `COMMENT`.  Every second step consumes a character. -/
def comment (cs : List Char) : Option (List Char) :=
  (blockComment (2 * cs.length + 2) cs).or (lineComment cs)

/-- White space and comments, at most as many. -/
def skipUpTo : ℕ → List Char → List Char
  | 0, cs => cs
  | n + 1, cs =>
      match (whitespace cs).or (comment cs) with
      | some rest => skipUpTo n rest
      | none => cs

/-- What is skipped between two tokens. -/
def skip (cs : List Char) : List Char := skipUpTo cs.length cs

/-! ### Rules -/

/-- A pair of a rule and the pairs inside. -/
inductive Pair where
  | id (s : String)
  | iliteral (s : String)
  | expr (inner : List Pair)
  | exprs (inner : List Pair)

/-- A character of an `id`. -/
def isIdChar (c : Char) : Bool :=
  ('a' ≤ c && c ≤ 'z') || ('A' ≤ c && c ≤ 'Z') || c == '=' || c == '_'
    || ('0' ≤ c && c ≤ '9') || c == '-' || c == '+'

/-- `id`. -/
def id (cs : List Char) : Option (String × List Char) :=
  if cs.takeWhile isIdChar = [] then none
  else some (String.ofList (cs.takeWhile isIdChar), cs.dropWhile isIdChar)

/-- `iliteral`. -/
def iliteral : List Char → Option (String × List Char)
  | '#' :: cs => (id cs).map fun p => ("#" ++ p.1, p.2)
  | _ => none

mutual

/-- `expr`, in at most as many steps. -/
def expr : ℕ → List Char → Option (Pair × List Char)
  | 0, _ => none
  | n + 1, cs =>
      match id cs with
      | some (s, rest) => some (.expr [.id s], rest)
      | none =>
          match iliteral cs with
          | some (s, rest) => some (.expr [.iliteral s], rest)
          | none =>
              match cs with
              | '(' :: cs =>
                  let (ps, rest) := many n (skip cs)
                  match skip rest with
                  | ')' :: rest => some (.expr ps, rest)
                  | _ => none
              | _ => none

/-- `expr*`, in at most as many steps. -/
def many : ℕ → List Char → List Pair × List Char
  | 0, cs => ([], cs)
  | n + 1, cs =>
      match expr n cs with
      | some (p, rest) =>
          let (ps, rest) := more n rest
          (p :: ps, rest)
      | none => ([], cs)

/-- The repetition of `expr` after the first, in at most as many steps. -/
def more : ℕ → List Char → List Pair × List Char
  | 0, cs => ([], cs)
  | n + 1, cs =>
      match expr n (skip cs) with
      | some (p, rest) =>
          let (ps, rest) := more n rest
          (p :: ps, rest)
      | none => ([], cs)

end

/-- `exprs`.  Every second step consumes a character. -/
def exprs (cs : List Char) : Option (Pair × List Char) :=
  let n := 2 * cs.length + 2
  match expr n (skip cs) with
  | some (p, rest) =>
      let (ps, rest) := more n rest
      some (.exprs (p :: ps), skip rest)
  | none => none

end SExprParser

/-! ### `SExpr::parse` -/

/-- What ends `SExpr::parse` other than a result. -/
inductive TextFault where
  | grammar
  | remaining (rest : List Char)
  | panic
  deriving DecidableEq, Repr

namespace SExpr

open SExprParser (Pair)

mutual

/-- `SExpr::construct`.  Every pair inside, other than a token, has to be an `expr`. -/
def construct : Pair → Except TextFault SExpr
  | .id _ => .ok (.list [])
  | .iliteral _ => .ok (.list [])
  | .expr (.id s :: _) => .ok (.id s)
  | .expr (.iliteral s :: _) => .ok (.const s)
  | .expr inner => do
      let vec ← constructAll inner
      .ok (.list vec)
  | .exprs (.id s :: _) => .ok (.id s)
  | .exprs (.iliteral s :: _) => .ok (.const s)
  | .exprs inner => do
      let vec ← constructAll inner
      .ok (.list vec)

/-- `SExpr::construct` on the pairs inside. -/
def constructAll : List Pair → Except TextFault (List SExpr)
  | [] => .ok []
  | .expr inner :: ps => do
      let x ← construct (.expr inner)
      let xs ← constructAll ps
      .ok (x :: xs)
  | .id _ :: _ => .error .panic
  | .iliteral _ :: _ => .error .panic
  | .exprs _ :: _ => .error .panic

end

/-- `SExpr::parse`. -/
def parse (input : String) : Except TextFault SExpr :=
  match SExprParser.exprs input.toList with
  | some (x, []) => construct x
  | some (_, c :: cs) => .error (.remaining (c :: cs))
  | none => .error .grammar

end SExpr

/-! ### The construction -/

namespace SExprParser

/-- The pairs of the rule `expr`: a token, or pairs of `expr`. -/
inductive Pair.Built : Pair → Prop
  | id (s) : Built (.expr [.id s])
  | iliteral (s) : Built (.expr [.iliteral s])
  | list {ps} (h : ∀ p ∈ ps, Built p) : Built (.expr ps)

/-- The rules match only pairs of `expr`. -/
theorem built_of_rules (n : ℕ) (cs : List Char) :
  (∀ p rest, expr n cs = some (p, rest) → p.Built) ∧
    (∀ p ∈ (many n cs).1, p.Built) ∧ (∀ p ∈ (more n cs).1, p.Built)
  := by
  induction n generalizing cs with
  | zero => simp [expr, many, more]
  | succ n ih =>
      refine ⟨?_, ?_, ?_⟩
      · intro p rest h
        unfold expr at h
        split at h
        · cases h
          apply Pair.Built.id
        · split at h
          · cases h
            apply Pair.Built.iliteral
          · split at h
            · dsimp only at h
              split at h
              · cases h
                apply Pair.Built.list (ih _).2.1
              · cases h
            · cases h
      · rw [many]
        cases h : expr n cs with
        | none => simp
        | some r =>
            intro p hp
            rcases List.mem_cons.mp hp with rfl | hp
            · apply (ih cs).1 _ _ h
            · apply (ih _).2.2 p hp
      · rw [more]
        cases h : expr n (skip cs) with
        | none => simp
        | some r =>
            intro p hp
            rcases List.mem_cons.mp hp with rfl | hp
            · apply (ih _).1 _ _ h
            · apply (ih _).2.2 p hp

end SExprParser

namespace SExpr

open SExprParser (Pair)

/-- The construction of a list of pairs of `expr` succeeds when it does on each. -/
theorem exists_constructAll {ps : List Pair} (hps : ∀ p ∈ ps, p.Built)
    (h : ∀ p ∈ ps, ∃ s, construct p = .ok s) :
  ∃ l, constructAll ps = .ok l
  := by
  induction ps with
  | nil => exact ⟨[], rfl⟩
  | cons p ps ih =>
      obtain ⟨s, hs⟩ := h p List.mem_cons_self
      obtain ⟨l, hl⟩ := ih (fun q hq => hps q (List.mem_cons_of_mem p hq))
        (fun q hq => h q (List.mem_cons_of_mem p hq))
      use s :: l
      cases hps p List.mem_cons_self <;> simp [constructAll, hs, hl, bind, Except.bind]

/-- A list of pairs of `expr` is constructed as a list. -/
theorem construct_eq_list {ps : List Pair} (hps : ∀ p ∈ ps, p.Built) {l : List SExpr}
    (hl : constructAll ps = .ok l) :
  construct (.expr ps) = .ok (.list l) ∧ construct (.exprs ps) = .ok (.list l)
  := by
  cases ps with
  | nil =>
      cases hl
      exact ⟨rfl, rfl⟩
  | cons p ps => cases hps p List.mem_cons_self <;> simp [construct, hl, bind, Except.bind]

/-- The construction meets no pair that it does not expect. -/
theorem exists_construct {p : Pair} (h : p.Built) :
  ∃ s, construct p = .ok s
  := by
  induction h with
  | id s => exact ⟨.id s, rfl⟩
  | iliteral s => exact ⟨.const s, rfl⟩
  | list h ih =>
      obtain ⟨l, hl⟩ := exists_constructAll h ih
      exact ⟨.list l, (construct_eq_list h hl).1⟩

/-- `SExpr::parse` does not panic, and its results are lists. -/
theorem parse_cases (input : String) :
  (∃ l, parse input = .ok (.list l)) ∨ ∃ e, parse input = .error e ∧ e ≠ .panic
  := by
  rw [parse, SExprParser.exprs]
  set n := 2 * input.toList.length + 2
  cases h : SExprParser.expr n (SExprParser.skip input.toList) with
  | none => exact .inr ⟨.grammar, rfl, TextFault.noConfusion⟩
  | some r =>
      have hbuilt : ∀ q ∈ r.1 :: (SExprParser.more n r.2).1, q.Built := by
        intro q hq
        rcases List.mem_cons.mp hq with rfl | hq
        · apply (SExprParser.built_of_rules _ _).1 _ _ h
        · apply (SExprParser.built_of_rules _ _).2.2 q hq
      obtain ⟨l, hl⟩ := exists_constructAll hbuilt fun q hq => exists_construct (hbuilt q hq)
      dsimp only
      cases hrest : SExprParser.skip (SExprParser.more n r.2).2 with
      | nil =>
          left
          use l, (construct_eq_list hbuilt hl).2
      | cons c cs => exact .inr ⟨_, rfl, TextFault.noConfusion⟩

end SExpr

/-! ### Printed s-expressions -/

namespace SExpr

open SExprParser

/-- The s-expressions whose tokens are tokens of the grammar. -/
inductive Printable : SExpr → Prop
  | id {s} (hne : s.toList ≠ []) (h : ∀ c ∈ s.toList, isIdChar c = true) : Printable (.id s)
  | const {s tok} (hs : s.toList = '#' :: tok) (hne : tok ≠ [])
      (h : ∀ c ∈ tok, isIdChar c = true) : Printable (.const s)
  | list {l} (h : ∀ s ∈ l, Printable s) : Printable (.list l)

/-- The pair of an s-expression. -/
def pair : SExpr → Pair
  | .id s => .expr [.id s]
  | .const s => .expr [.iliteral s]
  | .list l => .expr (l.map pair)

/-- The text of the elements of a list after the first. -/
def tail (l : List SExpr) : List Char := l.flatMap fun s => ' ' :: s.display.toList

/-- The text of the elements of a list. -/
def body : List SExpr → List Char
  | [] => []
  | s :: ss => s.display.toList ++ tail ss

theorem displayAll_eq_map (l : List SExpr) :
  displayAll l = l.map display
  := by
  induction l with
  | nil => rfl
  | cons s l ih => rw [displayAll, ih, List.map_cons]

theorem toList_display_list (l : List SExpr) :
  (display (.list l)).toList = '(' :: (body l ++ [')'])
  := by
  have hbody : (" ".intercalate (displayAll l)).toList = body l := by
    rw [String.toList_intercalate, displayAll_eq_map, List.map_map]
    cases l with
    | nil => rfl
    | cons s l =>
        rw [body]
        induction l generalizing s with
        | nil => simp [tail]
        | cons t l ih =>
            rw [List.map_cons, List.map_cons, List.intercalate_cons_cons, ← List.map_cons, ih]
            simp [tail]
  rw [display, String.toList_append, String.toList_append, hbody]
  simp

end SExpr

namespace SExprParser

open SExpr (Printable tail body)

/-- The rest does not continue a token. -/
def Stops (rest : List Char) : Prop := ∀ c ∈ rest.head?, isIdChar c = false

/-- A token is matched up to its end. -/
theorem id_append {tok rest : List Char} (hne : tok ≠ []) (htok : ∀ c ∈ tok, isIdChar c = true)
    (hrest : Stops rest) :
  id (tok ++ rest) = some (String.ofList tok, rest)
  := by
  have htake : rest.takeWhile isIdChar = [] := by
    cases rest with
    | nil => rfl
    | cons c rest => simp [hrest c rfl]
  have hdrop : rest.dropWhile isIdChar = rest := by
    cases rest with
    | nil => rfl
    | cons c rest => simp [hrest c rfl]
  rw [id, List.takeWhile_append_of_pos htok, List.dropWhile_append_of_pos htok, htake, hdrop,
    List.append_nil, if_neg hne]

/-- Nothing is skipped before a character that starts neither white space nor a comment. -/
theorem skip_eq_self {cs : List Char} (h : ∀ c ∈ cs.head?, c ∉ [' ', '\t', '\n', '\r', '/', ';']) :
  skip cs = cs
  := by
  have hnone : (whitespace cs).or (comment cs) = none := by
    cases cs with
    | nil => rfl
    | cons c cs =>
        have hc := h c rfl
        simp only [List.mem_cons, List.not_mem_nil, or_false, not_or] at hc
        obtain ⟨h₁, h₂, h₃, h₄, h₅, h₆⟩ := hc
        have hblock : ∀ n, blockComment (n + 1) (c :: cs) = none := by
          intro n
          rw [blockComment]
          rintro cs' ⟨rfl, -⟩
          apply h₅ rfl
        simp [whitespace, newline, comment, lineComment, hblock, h₁, h₂, h₃, h₄, h₆]
  rw [skip]
  cases hn : cs.length with
  | zero => rfl
  | succ n => rw [skipUpTo, hnone]

/-- The blank between two elements is skipped. -/
theorem skip_blank (cs : List Char) :
  skip (' ' :: cs) = skip cs
  := rfl

/-- The text of a printable s-expression starts a token or a list. -/
theorem skip_display {s : SExpr} (h : Printable s) (rest : List Char) :
  skip (s.display.toList ++ rest) = s.display.toList ++ rest
  := by
  have hid : ∀ c, isIdChar c = true → c ∉ [' ', '\t', '\n', '\r', '/', ';'] := by
    intro c hc hmem
    simp only [List.mem_cons, List.not_mem_nil, or_false] at hmem
    rcases hmem with rfl | rfl | rfl | rfl | rfl | rfl <;> revert hc <;> decide
  apply skip_eq_self
  cases h with
  | id hne h =>
      rw [SExpr.display]
      obtain ⟨c, cs, hs⟩ := List.exists_cons_of_ne_nil hne
      rw [hs] at h ⊢
      rintro _ ⟨⟩
      apply hid c (h c List.mem_cons_self)
  | const hs hne h =>
      rw [SExpr.display, hs]
      rintro _ ⟨⟩
      decide
  | list h =>
      rw [SExpr.toList_display_list]
      rintro _ ⟨⟩
      decide

theorem skip_close (rest : List Char) :
  skip (')' :: rest) = ')' :: rest
  := by
  apply skip_eq_self
  rintro _ ⟨⟩
  decide

/-- No `expr` starts at the end of a list. -/
theorem expr_close (n : ℕ) (rest : List Char) :
  expr n (')' :: rest) = none
  := by
  cases n with
  | zero => rfl
  | succ n =>
      have hid : id (')' :: rest) = none := rfl
      simp [expr, hid, iliteral]

/-- The elements after the first are matched up to the end of the list. -/
theorem more_tail {l : List SExpr} (hl : ∀ s ∈ l, Printable s)
    (hexpr : ∀ s ∈ l, ∀ n rest, 2 * s.display.toList.length ≤ n → Stops rest →
      expr n (s.display.toList ++ rest) = some (s.pair, rest))
    (n : ℕ) (rest : List Char) (hn : 2 * (tail l).length + 1 ≤ n) :
  more n (tail l ++ ')' :: rest) = (l.map SExpr.pair, ')' :: rest)
  := by
  induction l generalizing n with
  | nil =>
      cases n with
      | zero => rfl
      | succ n => simp [tail, more, skip_close, expr_close]
  | cons s l ih =>
      cases n with
      | zero => omega
      | succ n =>
          have hlen : (tail (s :: l)).length = s.display.toList.length + (tail l).length + 1 := by
            simp [tail]
          have htext : tail (s :: l) ++ ')' :: rest
              = ' ' :: (s.display.toList ++ (tail l ++ ')' :: rest)) := by
            simp [tail]
          have hstops : Stops (tail l ++ ')' :: rest) := by
            cases l <;> simp [Stops, tail] <;> decide
          have hs := hexpr s List.mem_cons_self n (tail l ++ ')' :: rest) (by omega) hstops
          have hmore := ih (fun t ht => hl t (List.mem_cons_of_mem s ht))
            (fun t ht => hexpr t (List.mem_cons_of_mem s ht)) n (by omega)
          rw [htext, more, skip_blank, skip_display (hl s List.mem_cons_self), hs]
          simp only [hmore, List.map_cons]

/-- A printed s-expression is matched up to its end. -/
theorem expr_display {s : SExpr} (h : Printable s) (n : ℕ) (rest : List Char)
    (hn : 2 * s.display.toList.length ≤ n) (hrest : Stops rest) :
  expr n (s.display.toList ++ rest) = some (s.pair, rest)
  := by
  induction h generalizing n rest with
  | @id s hne h =>
      cases n with
      | zero =>
          rw [SExpr.display] at hn
          have hlen := List.length_pos_of_ne_nil hne
          omega
      | succ n =>
          unfold expr
          simp only [SExpr.display, id_append hne h hrest, String.ofList_toList, SExpr.pair]
  | @const s tok hs hne h =>
      cases n with
      | zero =>
          rw [SExpr.display, hs, List.length_cons] at hn
          omega
      | succ n =>
          have hid : id ('#' :: (tok ++ rest)) = none := rfl
          have htok : "#" ++ String.ofList tok = s := by
            apply String.toList_inj.mp
            rw [hs, String.toList_append, String.toList_ofList]
            simp
          unfold expr
          simp only [SExpr.display, hs, List.cons_append, hid, iliteral, id_append hne h hrest,
            Option.map_some, htok, SExpr.pair]
  | @list l h ih =>
      have hlen : (SExpr.display (.list l)).toList.length = (body l).length + 2 := by
        rw [SExpr.toList_display_list]
        simp
      have htext : (SExpr.display (.list l)).toList ++ rest = '(' :: (body l ++ ')' :: rest) := by
        rw [SExpr.toList_display_list]
        simp
      obtain ⟨n, rfl⟩ : ∃ m, n = m + 2 := ⟨n - 2, by omega⟩
      have hid : id ('(' :: (body l ++ ')' :: rest)) = none := rfl
      have hmany : many (n + 1) (skip (body l ++ ')' :: rest))
          = (l.map SExpr.pair, ')' :: rest) := by
        cases l with
        | nil => simp [body, skip_close, many, expr_close]
        | cons s l =>
            have hbody : (body (s :: l)).length = s.display.toList.length + (tail l).length := by
              simp [body]
            have hstops : Stops (tail l ++ ')' :: rest) := by
              cases l <;> simp [Stops, tail] <;> decide
            have hs := ih s List.mem_cons_self n (tail l ++ ')' :: rest) (by omega) hstops
            have hmore := more_tail (fun t ht => h t (List.mem_cons_of_mem s ht))
              (fun t ht => ih t (List.mem_cons_of_mem s ht)) n rest (by omega)
            rw [body, List.append_assoc, skip_display (h s List.mem_cons_self), many, hs]
            simp only [hmore, List.map_cons]
      have hiliteral : iliteral ('(' :: (body l ++ ')' :: rest)) = none := rfl
      unfold expr
      simp only [htext, hid, hiliteral, hmany, skip_close, SExpr.pair]

end SExprParser

namespace SExpr

open SExprParser

mutual

/-- The pair of an s-expression is constructed as this s-expression. -/
theorem construct_pair : (s : SExpr) →
  construct s.pair = .ok s
  | .id s => by simp only [pair, construct]
  | .const s => by simp only [pair, construct]
  | .list l => by
      have hl := constructAll_map_pair l
      cases l with
      | nil => simp [pair, construct, constructAll, bind, Except.bind]
      | cons s l =>
          rw [pair]
          cases s <;>
            simp only [List.map_cons, pair] at hl ⊢ <;>
            simp only [construct, hl, bind, Except.bind]

/-- The pairs of s-expressions are constructed as these s-expressions. -/
theorem constructAll_map_pair : (l : List SExpr) →
  constructAll (l.map pair) = .ok l
  | [] => by simp only [List.map_nil, constructAll]
  | s :: l => by
      have hs := construct_pair s
      have hl := constructAll_map_pair l
      rw [List.map_cons]
      cases s <;>
        simp only [pair] at hs ⊢ <;>
        simp only [constructAll, hs, hl, bind, Except.bind]

end

/-- The text of an s-expression is read as the list of this s-expression. -/
theorem parse_display {s : SExpr} (h : Printable s) :
  parse s.display = .ok (.list [s])
  := by
  have hexpr := expr_display h (2 * s.display.toList.length + 2) [] (by omega) (by simp [Stops])
  rw [List.append_nil] at hexpr
  have hskip := skip_display h []
  rw [List.append_nil] at hskip
  have hnil : expr (2 * s.display.toList.length + 1) (skip []) = none := rfl
  have hexprs : exprs s.display.toList = some (.exprs [s.pair], []) := by
    simp only [exprs, hskip, hexpr, more, hnil]
    rfl
  have hbuilt : ∀ p ∈ [s.pair], p.Built := by
    intro p hp
    rw [List.mem_singleton.mp hp]
    apply (built_of_rules _ _).1 _ _ hexpr
  simp only [parse, hexprs]
  apply (construct_eq_list hbuilt _).2
  apply constructAll_map_pair [s]

end SExpr

end DryadSynth
