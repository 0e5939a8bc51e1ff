import DryadSynth.General.Encoding
import DryadSynth.Library.LIA.Quantified

/-!
# Vectors and derivations

A vector encodes a derivation of the grammar, and with it a tree and an expression.  The readers
read exactly the vector of a derivation off the beginning of a list, so no such vector goes on after
another one, and every derivation has a vector.
-/

namespace Sygus.Encoding

open LIA DnC Divisions

namespace Expand

variable (x : Expand)

/-! ### Derivations -/

/-- The production with this number belongs to the nonterminal. -/
structure RuleOf (N : String) (i : ℕ) (r : Rule) : Prop where
  mem : i ∈ x.rules N
  rule : x.problem.ruleTbl[i]? = some r

theorem subrules_le {G : List (String × List Rule)} {N : String} {ruleS len : ℕ}
    (h : subrules G N = some (ruleS, len)) :
  ruleS + len ≤ (G.flatMap Prod.snd).length
  := by
  induction G generalizing ruleS len with
  | nil => cases h
  | cons g G ih =>
      rw [List.flatMap_cons, List.length_append]
      rw [subrules] at h
      split at h
      · cases h
        omega
      · obtain ⟨q, hq, heq⟩ := Option.map_eq_some_iff.mp h
        cases heq
        have hle := ih hq
        omega

/-- The numbers of a nonterminal's productions are numbers of productions. -/
theorem exists_rule {N : String} {i : ℕ} (hi : i ∈ x.rules N) :
  ∃ r, x.RuleOf N i r
  := by
  have hmem := hi
  unfold rules at hi
  split at hi
  · cases hi
  · next ruleS len hsub =>
      have hle := subrules_le hsub
      rw [List.mem_range'_1] at hi
      have hlt : i < x.problem.ruleTbl.length := by
        unfold SygusProblem.ruleTbl
        omega
      exact ⟨_, hmem, List.getElem?_eq_getElem hlt⟩

theorem getElem?_sorts {G : List (String × List Rule)} {N : String} {ruleS len : ℕ}
    (h : subrules G N = some (ruleS, len)) (sort : String → Srt) {j : ℕ} (hj : j < len) :
  (G.flatMap fun g => g.2.map fun _ => sort g.1)[ruleS + j]? = some (sort N)
  := by
  induction G generalizing ruleS len with
  | nil => cases h
  | cons g G ih =>
      rw [List.flatMap_cons]
      rw [subrules] at h
      split at h
      · next hN =>
          cases h
          rw [List.getElem?_append_left (by simpa using hj)]
          simp [hN, hj]
      · obtain ⟨q, hq, heq⟩ := Option.map_eq_some_iff.mp h
        cases heq
        rw [List.getElem?_append_right (by simp; omega), ← ih hq hj]
        congr 1
        simp
        omega

/-- The table of sorts is right about the productions of a nonterminal. -/
theorem ruleTypeLookup_eq {N : String} {i : ℕ} (hi : i ∈ x.rules N) :
  x.ruleTypeLookup[i]? = some (x.grammarSybSort N)
  := by
  unfold rules at hi
  split at hi
  · cases hi
  · next ruleS len hsub =>
      obtain ⟨j, hj, rfl⟩ := List.mem_range'.mp hi
      rw [Nat.one_mul]
      apply getElem?_sorts hsub _ hj

/-- The leaf of a production without arguments, where a constant has one more entry. -/
def leaf (r : Rule) (extra : List ℤ) : Option (ASTGeneral × Expr) :=
  match x.problem.resolveSyb r.termSyb, extra with
  | some .literal, [] | some .numeral, [] =>
      (parseInt r.termSyb).map fun n => (.leaf r.termSyb, .num n)
  | some .glbvar, [] => (x.vars r.termSyb).map fun v => (.leaf r.termSyb, .var v)
  | some .lclarg, [] => (x.localArgs r.termSyb).map fun v => (.leaf r.termSyb, .var v)
  | some .cstint, [c] => some (.leaf (toString c), .num c)
  | some .cstbol, [c] =>
      if c = 0 then some (.leaf "false", .fls)
      else if c = 1 then some (.leaf "true", .tru)
      else none
  | _, _ => none

end Expand

/-- A vector for a nonterminal, with its tree and its expression. -/
structure Code where
  syb : String
  word : List ℤ
  tree : ASTGeneral
  expr : Expr

namespace Expand

/-- The vector encodes a derivation of the tree and the expression from the nonterminal. -/
inductive Coded (x : Expand) : Code → Prop
  | leaf {N : String} {i : ℕ} {r : Rule} {extra : List ℤ} {tree : ASTGeneral} {e : Expr} :
      x.RuleOf N i r → r.args = [] → x.leaf r extra = some (tree, e) →
      Coded x ⟨N, i :: extra, tree, e⟩
  | node {N : String} {i : ℕ} {r : Rule} {subs : List Code} {e : Expr} :
      x.RuleOf N i r → x.problem.resolveSyb r.termSyb = some .func → subs.map Code.syb = r.args →
      (∀ s ∈ subs, Coded x s) → x.dispatch r.termSyb (subs.map Code.expr) = some e →
      Coded x ⟨N, i :: (subs.map Code.word).flatten, .mk r.termSyb (subs.map Code.tree), e⟩

/-- The trees of the grammar, with the numbers of the productions and the constants in preorder. -/
inductive Derives (x : Expand) : String → ASTGeneral → List ℤ → Prop
  | leaf {N : String} {i : ℕ} {r : Rule} {extra : List ℤ} {tree : ASTGeneral} {e : Expr} :
      x.RuleOf N i r → r.args = [] → x.leaf r extra = some (tree, e) →
      Derives x N tree (i :: extra)
  | node {N : String} {i : ℕ} {r : Rule} {subs : List (String × ASTGeneral × List ℤ)} :
      x.RuleOf N i r → x.problem.resolveSyb r.termSyb = some .func → subs.map Prod.fst = r.args →
      (∀ s ∈ subs, Derives x s.1 s.2.1 s.2.2) →
      Derives x N (.mk r.termSyb (subs.map fun s => s.2.1))
        (i :: (subs.map fun s => s.2.2).flatten)

/-! ### Grammars -/

/-- The operator, or the defined function, is for arguments of these sorts. -/
def Typed (x : Expand) (f : String) (ss : List Srt) (s : Srt) : Prop :=
  match internalOps.lookup f with
  | some (o, n) => (∀ k ∈ n, k = ss.length) ∧ o.sort (ss.map some) = some s
  | none => ∃ d, x.funcs f = some d ∧ d.params.map Var.sort = ss ∧ d.body.sort = some s ∧
      ∀ v ∈ d.body.vars, v ∉ x.it

/-- A production of one of the kinds that are supported. -/
inductive WellFormedRule (x : Expand) (N : String) : Rule → Prop
  | number {s : String} {n : ℤ} :
      x.problem.resolveSyb s = some .literal ∨ x.problem.resolveSyb s = some .numeral →
      s ≠ "ConstantInt" → s ≠ "ConstantBool" → parseInt s = some n →
      x.grammarSybSort N = .int → WellFormedRule x N ⟨s, []⟩
  | glbvar {s : String} {v : Var} :
      x.problem.resolveSyb s = some .glbvar → s ≠ "ConstantInt" → s ≠ "ConstantBool" →
      x.vars s = some v → v.sort = x.grammarSybSort N → v ∉ x.it → WellFormedRule x N ⟨s, []⟩
  | lclarg {s : String} {v : Var} :
      x.problem.resolveSyb s = some .lclarg → s ≠ "ConstantInt" → s ≠ "ConstantBool" →
      x.localArgs s = some v → v.sort = x.grammarSybSort N → v ∉ x.it → WellFormedRule x N ⟨s, []⟩
  | cstint : x.problem.resolveSyb "ConstantInt" = some .cstint →
      x.grammarSybSort N = .int → WellFormedRule x N ⟨"ConstantInt", []⟩
  | cstbol : x.problem.resolveSyb "ConstantBool" = some .cstbol →
      x.grammarSybSort N = .bool → WellFormedRule x N ⟨"ConstantBool", []⟩
  | func {s : String} {args : List String} :
      x.problem.resolveSyb s = some .func → s ≠ "ConstantInt" → s ≠ "ConstantBool" → args ≠ [] →
      (∀ a ∈ args, a ∈ x.problem.cfg.grammarRules.map Prod.fst) →
      (∀ a, args = [a] → x.problem.cfg.sybTypeTbl a = some .symbol) →
      x.Typed s (args.map x.grammarSybSort) (x.grammarSybSort N) → WellFormedRule x N ⟨s, args⟩
  | unknown {s : String} {args : List String} :
      x.problem.resolveSyb s = none → WellFormedRule x N ⟨s, args⟩

/-- The production is a constant, by its name or by its kind. -/
def IsConstant (x : Expand) (r : Rule) : Prop :=
  r.termSyb = "ConstantInt" ∨ r.termSyb = "ConstantBool" ∨
    x.problem.resolveSyb r.termSyb = some .cstint ∨ x.problem.resolveSyb r.termSyb = some .cstbol

/-- The production is considered for vectors of this length. -/
def Considers (x : Expand) (r : Rule) (d : ℕ) : Prop :=
  x.IsConstant r ∧ d ≤ 2 ∨ r.args = [] ∧ d = 1 ∨ r.args ≠ [] ∧ r.args.length < d

/-- The nonterminals that are considered, with the lengths of the vectors.  The only argument of a
call has all that follows the number of the production, and several arguments divide it. -/
inductive Asked (x : Expand) : String → ℕ → Prop
  | start : Asked x "Start" x.t.length
  | arg {N a : String} {d k i : ℕ} {r : Rule} :
      Asked x N d → x.RuleOf N i r → x.problem.resolveSyb r.termSyb = some .func → a ∈ r.args →
      0 < k → k + r.args.length ≤ d → (r.args.length = 1 → k + 1 = d) → Asked x a k

/-- The productions that are considered are of these kinds, the variables of vectors are integers,
the internal ones are different and not used otherwise, and simplification preserves meaning. -/
structure WellFormed (x : Expand) : Prop where
  rules : ∀ N d i r, x.Asked N d → x.RuleOf N i r → x.Considers r d → x.WellFormedRule N r
  nodup_it : x.it.Nodup
  it : ∀ v ∈ x.it, v.sort = .int
  t : ∀ v ∈ x.t, v.sort = .int
  length : x.t.length ≤ x.it.length
  simplify : ∀ e, Preserves e (x.simplify e)
  simplify_fls : x.simplify .fls = .fls

/-! ### Calls -/

section Dispatch

variable {x : Expand} {f : String} {ss : List Srt} {s : Srt} {args : List Expr}

theorem Typed.exists_dispatch (h : x.Typed f ss s) (hargs : args.map Expr.sort = ss.map some) :
  ∃ e, x.dispatch f args = some e ∧ e.sort = some s
  := by
  have hlen : args.length = ss.length := by
    rw [← List.length_map Expr.sort, hargs, List.length_map]
  unfold Typed at h
  unfold dispatch
  split at h
  · next o n hop =>
      obtain ⟨hn, hs⟩ := h
      rw [hop]
      have hsort : (Expr.app o args).sort = some s := by rw [sort_app, hargs, hs]
      cases n with
      | none => exact ⟨_, rfl, hsort⟩
      | some k =>
          obtain rfl : k = ss.length := hn k rfl
          refine ⟨_, if_pos hlen.ge, ?_⟩
          rw [← hlen, List.take_length]
          exact hsort
  · next hop =>
      obtain ⟨d, hd, hparams, hbody, -⟩ := h
      rw [hop, hd]
      refine ⟨_, rfl, ?_⟩
      apply sort_substitute _ hbody
      rw [hargs, ← hparams, List.map_map]
      rfl

theorem Typed.vars (h : x.Typed f ss s) {e : Expr} (he : x.dispatch f args = some e)
    (hargs : ∀ a ∈ args, ∀ v ∈ a.vars, v ∉ x.it) :
  ∀ v ∈ e.vars, v ∉ x.it
  := by
  intro v hv
  unfold Typed at h
  unfold dispatch at he
  split at h
  · next o n hop =>
      rw [hop] at he
      cases n with
      | none =>
          cases he
          obtain ⟨a, ha, hv⟩ := mem_vars_app.mp hv
          apply hargs a ha v hv
      | some k =>
          dsimp only at he
          split at he
          · cases he
            obtain ⟨a, ha, hv⟩ := mem_vars_app.mp hv
            apply hargs a (List.mem_of_mem_take ha) v hv
          · cases he
  · next hop =>
      obtain ⟨d, hd, -, -, hbody⟩ := h
      rw [hop, hd] at he
      cases he
      rcases mem_vars_apply hv with hv | ⟨a, ha, hv⟩
      · apply hbody v hv
      · apply hargs a ha v hv

/-- The value of a call depends on the values of its arguments. -/
theorem Typed.eval_eq (h : x.Typed f ss s) {args' : List Expr} {e e' : Expr} {M : Model}
    (he : x.dispatch f args = some e) (he' : x.dispatch f args' = some e')
    (hargs : args.map Expr.sort = ss.map some) (hargs' : args'.map Expr.sort = ss.map some)
    (heval : args'.map (Expr.eval M) = args.map (Expr.eval M)) :
  e'.eval M = e.eval M
  := by
  unfold Typed at h
  unfold dispatch at he he'
  split at h
  · next o n hop =>
      rw [hop] at he he'
      cases n with
      | none =>
          cases he
          cases he'
          rw [eval_app, eval_app, heval]
      | some k =>
          dsimp only at he he'
          split at he
          · split at he'
            · cases he
              cases he'
              rw [eval_app, eval_app, List.map_take, List.map_take, heval]
            · cases he'
          · cases he
  · next hop =>
      obtain ⟨d, hd, hparams, -, -⟩ := h
      rw [hop, hd] at he he'
      cases he
      cases he'
      have hsome : d.params.map (fun y => some y.sort) = ss.map some := by
        rw [← hparams, List.map_map]
        rfl
      unfold Definition.apply
      rw [eval_substitute (hargs.trans hsome.symm), eval_substitute (hargs'.trans hsome.symm),
        heval]

end Dispatch

/-! ### Derivations are read -/

section Reading

variable {x : Expand} {c : Code}

theorem ruleAt_of_ruleTbl {i : ℕ} {r : Rule} (h : x.problem.ruleTbl[i]? = some r) :
  x.problem.ruleAt (i : ℤ) = some r
  := h

theorem readArgs_append {α : Type} (read : List ℤ → Option (α × List ℤ)) (value : Code → α)
    {subs : List Code} (hread : ∀ s ∈ subs, ∀ rest, read (s.word ++ rest) = some (value s, rest))
    (rest : List ℤ) :
  readArgs read subs.length ((subs.map Code.word).flatten ++ rest) = some (subs.map value, rest)
  := by
  induction subs with
  | nil => rfl
  | cons s subs ih =>
      obtain ⟨hs, hsubs⟩ := List.forall_mem_cons.mp hread
      rw [List.length_cons, readArgs, List.map_cons, List.flatten_cons, List.append_assoc, hs]
      simp only [Option.bind_eq_bind, Option.bind_some, ih hsubs]
      rfl

/-- The vectors of the arguments are shorter. -/
theorem length_word_le {subs : List Code} {s : Code} (hs : s ∈ subs) :
  s.word.length ≤ (subs.map Code.word).flatten.length
  := by
  rw [List.length_flatten]
  apply List.le_sum_of_mem
  apply List.mem_map.mpr ⟨s.word, List.mem_map.mpr ⟨s, hs, rfl⟩, rfl⟩

/-- Both readers read the vector of a derivation, and no more. -/
theorem Coded.reads (h : x.Coded c) {d : ℕ} (hd : c.word.length ≤ d) (rest : List ℤ) :
  x.interpretConcrete d (c.word ++ rest) = some (c.expr, rest) ∧
    buildAST x.problem d (c.word ++ rest) = some (c.tree, rest)
  := by
  induction h generalizing d rest with
  | @leaf N i r extra tree e hrule hargs hleaf =>
      cases d with
      | zero => cases hd
      | succ d =>
          rw [List.cons_append, interpretConcrete, buildAST, ruleAt_of_ruleTbl hrule.rule]
          unfold Expand.leaf at hleaf
          split at hleaf
          · next hsyb =>
              obtain ⟨n, hn, heq⟩ := Option.map_eq_some_iff.mp hleaf
              cases heq
              simp [hsyb, hn, hargs, readArgs]
          · next hsyb =>
              obtain ⟨n, hn, heq⟩ := Option.map_eq_some_iff.mp hleaf
              cases heq
              simp [hsyb, hn]
          · next hsyb =>
              obtain ⟨v, hv, heq⟩ := Option.map_eq_some_iff.mp hleaf
              cases heq
              simp [hsyb, hv]
          · next hsyb =>
              obtain ⟨v, hv, heq⟩ := Option.map_eq_some_iff.mp hleaf
              cases heq
              simp [hsyb, hv]
          · next k hsyb =>
              cases hleaf
              simp [hsyb]
          · next k hsyb =>
              split at hleaf
              · next hk =>
                  cases hleaf
                  simp [hsyb, hk]
              · split at hleaf
                · next hk =>
                    cases hleaf
                    simp [hsyb, hk]
                · cases hleaf
          · cases hleaf
  | @node N i r subs e hrule hfunc hsubs _ hdispatch ih =>
      cases d with
      | zero => cases hd
      | succ d =>
          rw [List.length_cons, Nat.add_le_add_iff_right] at hd
          rw [List.cons_append, interpretConcrete, buildAST, ruleAt_of_ruleTbl hrule.rule]
          have hlength : r.args.length = subs.length := by rw [← hsubs, List.length_map]
          have hread := readArgs_append (x.interpretConcrete d) Code.expr
            (fun s hs rest => (ih s hs ((length_word_le hs).trans hd) rest).1) rest
          have hbuild := readArgs_append (buildAST x.problem d) Code.tree
            (fun s hs rest => (ih s hs ((length_word_le hs).trans hd) rest).2) rest
          simp [hfunc, hlength, hread, hbuild, hdispatch]

/-- The beginning of a list is the vector of one derivation. -/
theorem Coded.unique {c' : Code} {u v : List ℤ} (h : x.Coded c) (h' : x.Coded c')
    (heq : c.word ++ u = c'.word ++ v) :
  c.word = c'.word ∧ c.tree = c'.tree ∧ c.expr = c'.expr
  := by
  obtain ⟨hexpr, htree⟩ := h.reads (le_max_left c.word.length c'.word.length) u
  obtain ⟨hexpr', htree'⟩ := h'.reads (le_max_right c.word.length c'.word.length) v
  rw [heq, hexpr'] at hexpr
  rw [heq, htree'] at htree
  obtain ⟨he, rfl⟩ := Prod.mk.inj (Option.some.inj hexpr)
  obtain ⟨ht, -⟩ := Prod.mk.inj (Option.some.inj htree)
  exact ⟨List.append_cancel_right heq, ht.symm, he.symm⟩

/-- A derivation that begins with the number of a production begins with the production. -/
theorem Coded.inv (h : x.Coded c) {N : String} {i : ℕ} {r : Rule} (hrule : x.RuleOf N i r)
    (hhead : c.word.head? = some (i : ℤ)) :
  (r.args = [] ∧ ∃ extra, c.word = (i : ℤ) :: extra ∧ x.leaf r extra = some (c.tree, c.expr)) ∨
    (x.problem.resolveSyb r.termSyb = some .func ∧ ∃ subs : List Code,
      subs.map Code.syb = r.args ∧ (∀ s ∈ subs, x.Coded s) ∧
      c.word = (i : ℤ) :: (subs.map Code.word).flatten ∧
      x.dispatch r.termSyb (subs.map Code.expr) = some c.expr)
  := by
  cases h with
  | leaf hrule' hargs hleaf =>
      cases Nat.cast_injective (Option.some.inj hhead)
      cases hrule.rule.symm.trans hrule'.rule
      exact .inl ⟨hargs, _, rfl, hleaf⟩
  | node hrule' hfunc hargs hsubs hdispatch =>
      cases Nat.cast_injective (Option.some.inj hhead)
      cases hrule.rule.symm.trans hrule'.rule
      exact .inr ⟨hfunc, _, hargs, hsubs, rfl, hdispatch⟩

/-- The vector encodes a derivation from the nonterminal. -/
def Encodes (x : Expand) (N : String) (w : List ℤ) : Prop :=
  ∃ c, x.Coded c ∧ c.syb = N ∧ c.word = w

theorem prefixFree_encodes :
  PrefixFree fun w => ∃ N, x.Encodes N w
  := by
  rintro w w' u v ⟨N, c, hc, -, rfl⟩ ⟨N', c', hc', -, rfl⟩ heq
  apply (hc.unique hc' heq).1

/-- A derivation is one of its tree. -/
theorem Coded.derives (h : x.Coded c) :
  x.Derives c.syb c.tree c.word
  := by
  induction h with
  | leaf hrule hargs hleaf => exact .leaf hrule hargs hleaf
  | @node N i r subs e hrule hfunc hsubs _ _ ih =>
      have htrees : subs.map Code.tree
          = (subs.map fun s => (s.syb, s.tree, s.word)).map fun s => s.2.1 := by
        rw [List.map_map]
        rfl
      have hwords : subs.map Code.word
          = (subs.map fun s => (s.syb, s.tree, s.word)).map fun s => s.2.2 := by
        rw [List.map_map]
        rfl
      rw [htrees, hwords]
      apply Derives.node hrule hfunc
      · rw [← hsubs, List.map_map]
        rfl
      · intro p hp
        obtain ⟨s, hs, rfl⟩ := List.mem_map.mp hp
        apply ih s hs

/-- The number of the production comes first. -/
theorem Coded.head (h : x.Coded c) :
  ∃ i ∈ x.rules c.syb, c.word.head? = some (i : ℤ)
  := by
  cases h with
  | leaf hrule _ _ => exact ⟨_, hrule.mem, rfl⟩
  | node hrule _ _ _ _ => exact ⟨_, hrule.mem, rfl⟩

theorem Encodes.ne_nil {N : String} {w : List ℤ} (h : x.Encodes N w) :
  w ≠ []
  := by
  obtain ⟨c, hc, -, rfl⟩ := h
  obtain ⟨i, -, hhead⟩ := hc.head
  intro hnil
  rw [hnil] at hhead
  cases hhead

theorem Derives.ne_nil {N : String} {tree : ASTGeneral} {w : List ℤ} (h : x.Derives N tree w) :
  w ≠ []
  := by
  cases h with
  | leaf => apply List.cons_ne_nil
  | node => apply List.cons_ne_nil

theorem words_ne_nil {subs : List Code} (h : ∀ s ∈ subs, x.Coded s) :
  ∀ w ∈ subs.map Code.word, w ≠ []
  := by
  intro w hw
  obtain ⟨s, hs, rfl⟩ := List.mem_map.mp hw
  apply Encodes.ne_nil ⟨s, h s hs, rfl, rfl⟩

end Reading

/-! ### Expressions of derivations -/

section WellFormed

variable {x : Expand} {c : Code} {r : Rule} {N : String} {d i : ℕ}

/-- A leaf has no entries after the number of its production, or one if it is a constant. -/
theorem considers_of_leaf (hargs : r.args = []) {extra : List ℤ} {t : ASTGeneral × Expr}
    (h : x.leaf r extra = some t) :
  x.Considers r (extra.length + 1)
  := by
  unfold Expand.leaf at h
  split at h
  · exact .inr (.inl ⟨hargs, rfl⟩)
  · exact .inr (.inl ⟨hargs, rfl⟩)
  · exact .inr (.inl ⟨hargs, rfl⟩)
  · exact .inr (.inl ⟨hargs, rfl⟩)
  · next hsyb => exact .inl ⟨.inr (.inr (.inl hsyb)), le_rfl⟩
  · next hsyb => exact .inl ⟨.inr (.inr (.inr hsyb)), le_rfl⟩
  · cases h

/-- Parts that are not empty leave room for the number of the production. -/
theorem considers_of_parts {ps : List (List ℤ)} (hlength : ps.length = r.args.length)
    (hne : ∀ p ∈ ps, p ≠ []) :
  x.Considers r (ps.flatten.length + 1)
  := by
  by_cases hargs : r.args = []
  · rw [hargs, List.length_nil, List.length_eq_zero_iff] at hlength
    rw [hlength]
    exact .inr (.inl ⟨hargs, rfl⟩)
  · have hle := length_le_flatten hne
    refine .inr (.inr ⟨hargs, ?_⟩)
    omega

theorem leaf_spec (hr : x.WellFormedRule N r) {extra : List ℤ} {tree : ASTGeneral} {e : Expr}
    (h : x.leaf r extra = some (tree, e)) :
  e.sort = some (x.grammarSybSort N) ∧ ∀ v ∈ e.vars, v ∉ x.it
  := by
  unfold Expand.leaf at h
  split at h
  · next hsyb =>
      obtain ⟨n, -, heq⟩ := Option.map_eq_some_iff.mp h
      cases heq
      cases hr with
      | number _ _ _ _ hsort => exact ⟨by rw [hsort]; rfl, by simp⟩
      | _ => simp_all
  · next hsyb =>
      obtain ⟨n, -, heq⟩ := Option.map_eq_some_iff.mp h
      cases heq
      cases hr with
      | number _ _ _ _ hsort => exact ⟨by rw [hsort]; rfl, by simp⟩
      | _ => simp_all
  · next hsyb =>
      obtain ⟨v, hv, heq⟩ := Option.map_eq_some_iff.mp h
      cases heq
      cases hr with
      | glbvar _ _ _ hv' hsort hit =>
          cases hv.symm.trans hv'
          exact ⟨by rw [sort_var, hsort], by simpa using hit⟩
      | _ => simp_all
  · next hsyb =>
      obtain ⟨v, hv, heq⟩ := Option.map_eq_some_iff.mp h
      cases heq
      cases hr with
      | lclarg _ _ _ hv' hsort hit =>
          cases hv.symm.trans hv'
          exact ⟨by rw [sort_var, hsort], by simpa using hit⟩
      | _ => simp_all
  · next k hsyb =>
      cases h
      cases hr with
      | cstint _ hsort => exact ⟨by rw [hsort]; rfl, by simp⟩
      | _ => simp_all
  · next k hsyb =>
      split at h
      · cases h
        cases hr with
        | cstbol _ hsort => exact ⟨by rw [hsort]; rfl, by simp⟩
        | _ => simp_all
      · split at h
        · cases h
          cases hr with
          | cstbol _ hsort => exact ⟨by rw [hsort]; rfl, by simp⟩
          | _ => simp_all
        · cases h
  · cases h

theorem considers_of_subs {subs : List Code} (hsyb : subs.map Code.syb = r.args)
    (hcoded : ∀ s ∈ subs, x.Coded s) :
  x.Considers r ((subs.map Code.word).flatten.length + 1)
  := by
  apply considers_of_parts _ (words_ne_nil hcoded)
  rw [List.length_map, ← hsyb, List.length_map]

/-- What is known of a production that is a call. -/
theorem WellFormed.func_rule (hx : x.WellFormed) (hasked : x.Asked N d) (hrule : x.RuleOf N i r)
    (hcons : x.Considers r d) (hfunc : x.problem.resolveSyb r.termSyb = some .func) :
  r.termSyb ≠ "ConstantInt" ∧ r.termSyb ≠ "ConstantBool" ∧ r.args ≠ [] ∧
    (∀ a, r.args = [a] → x.problem.cfg.sybTypeTbl a = some .symbol) ∧
    x.Typed r.termSyb (r.args.map x.grammarSybSort) (x.grammarSybSort N)
  := by
  cases hx.rules N d i r hasked hrule hcons with
  | func _ hint hbool hne _ hargs htyped => exact ⟨hint, hbool, hne, hargs, htyped⟩
  | _ => simp_all

/-- The arguments of a call are considered at the lengths of their parts. -/
theorem Asked.parts (hasked : x.Asked N d) (hrule : x.RuleOf N i r)
    (hfunc : x.problem.resolveSyb r.termSyb = some .func) {α : Type*} {ps : List (List α)}
    (hlength : ps.length = r.args.length) (hne : ∀ p ∈ ps, p ≠ [])
    (hd : ps.flatten.length + 1 = d) :
  ∀ a ∈ r.args.zip ps, x.Asked a.1 a.2.length
  := by
  rintro ⟨a, p⟩ ha
  obtain ⟨harg, hp⟩ := List.of_mem_zip ha
  have hle := length_add_length_le_flatten hne hp
  apply Asked.arg hasked hrule hfunc harg (List.length_pos_iff.mpr (hne p hp)) (by omega)
  intro hone
  obtain ⟨q, rfl⟩ := List.length_eq_one_iff.mp (hlength.trans hone)
  rw [← hd, List.mem_singleton.mp hp, List.flatten_singleton]

theorem Asked.subs (hasked : x.Asked N d) (hrule : x.RuleOf N i r)
    (hfunc : x.problem.resolveSyb r.termSyb = some .func) {subs : List Code}
    (hsyb : subs.map Code.syb = r.args) (hsubs : ∀ s ∈ subs, x.Coded s)
    (hd : (subs.map Code.word).flatten.length + 1 = d) :
  ∀ s ∈ subs, x.Asked s.syb s.word.length
  := by
  intro s hs
  have hlength : (subs.map Code.word).length = r.args.length := by
    rw [List.length_map, ← hsyb, List.length_map]
  apply hasked.parts hrule hfunc hlength (words_ne_nil hsubs) hd (s.syb, s.word)
  rw [← hsyb, List.zip_map']
  apply List.mem_map.mpr ⟨s, hs, rfl⟩

theorem sorts_of_coded {subs : List Code} {args : List String} (hsubs : subs.map Code.syb = args)
    (hsort : ∀ s ∈ subs, s.expr.sort = some (x.grammarSybSort s.syb)) :
  (subs.map Code.expr).map Expr.sort = (args.map x.grammarSybSort).map some
  := by
  rw [← hsubs, List.map_map, List.map_map, List.map_map]
  apply List.map_congr_left hsort

/-- The expression of a derivation has the sort of the nonterminal, and none of the internal
variables. -/
theorem Coded.expr_spec (hx : x.WellFormed) (h : x.Coded c)
    (hasked : x.Asked c.syb c.word.length) :
  c.expr.sort = some (x.grammarSybSort c.syb) ∧ ∀ v ∈ c.expr.vars, v ∉ x.it
  := by
  induction h with
  | leaf hrule hargs hleaf =>
      exact leaf_spec (hx.rules _ _ _ _ hasked hrule (considers_of_leaf hargs hleaf)) hleaf
  | @node N i r subs e hrule hfunc hsubs hcoded hdispatch ih =>
      have hparts := hasked.subs hrule hfunc hsubs hcoded rfl
      obtain ⟨-, -, -, -, htyped⟩ :=
        hx.func_rule hasked hrule (considers_of_subs hsubs hcoded) hfunc
      have hsorts := sorts_of_coded hsubs fun s hs => (ih s hs (hparts s hs)).1
      obtain ⟨e', he', hsort⟩ := htyped.exists_dispatch hsorts
      obtain rfl : e' = e := Option.some.inj (he'.symm.trans hdispatch)
      refine ⟨hsort, htyped.vars hdispatch ?_⟩
      intro a ha
      obtain ⟨s, hs, rfl⟩ := List.mem_map.mp ha
      apply (ih s hs (hparts s hs)).2

/-- A call has a value where its arguments have their sorts. -/
theorem exists_node (hx : x.WellFormed) (hasked : x.Asked N d) (hrule : x.RuleOf N i r)
    (hfunc : x.problem.resolveSyb r.termSyb = some .func) {subs : List Code}
    (hsyb : subs.map Code.syb = r.args) (hcoded : ∀ s ∈ subs, x.Coded s)
    (hd : (subs.map Code.word).flatten.length + 1 = d) :
  ∃ e, x.Coded ⟨N, i :: (subs.map Code.word).flatten, .mk r.termSyb (subs.map Code.tree), e⟩
  := by
  have hparts := hasked.subs hrule hfunc hsyb hcoded hd
  obtain ⟨-, -, -, -, htyped⟩ :=
    hx.func_rule hasked hrule (hd ▸ considers_of_subs hsyb hcoded) hfunc
  have hsorts := sorts_of_coded hsyb fun s hs => ((hcoded s hs).expr_spec hx (hparts s hs)).1
  obtain ⟨e, he, -⟩ := htyped.exists_dispatch hsorts
  exact ⟨e, .node hrule hfunc hsyb hcoded he⟩

/-- Every derivation is encoded by its numbers. -/
theorem Derives.exists_coded (hx : x.WellFormed) {tree : ASTGeneral} {w : List ℤ}
    (h : x.Derives N tree w) (hasked : x.Asked N w.length) :
  ∃ c, x.Coded c ∧ c.syb = N ∧ c.tree = tree ∧ c.word = w
  := by
  induction h with
  | leaf hrule hargs hleaf => exact ⟨_, .leaf hrule hargs hleaf, rfl, rfl, rfl⟩
  | @node N i r subs hrule hfunc hsubs hderives ih =>
      have hnonempty : Nonempty Code := ⟨⟨"", [], .leaf "", .tru⟩⟩
      have hparts : ∀ s ∈ subs, x.Asked s.1 s.2.2.length := by
        intro s hs
        have hlength : (subs.map fun s => s.2.2).length = r.args.length := by
          rw [List.length_map, ← hsubs, List.length_map]
        have hne : ∀ w ∈ subs.map fun s => s.2.2, w ≠ [] := by
          intro w hw
          obtain ⟨s, hs, rfl⟩ := List.mem_map.mp hw
          apply (hderives s hs).ne_nil
        apply hasked.parts hrule hfunc hlength hne rfl (s.1, s.2.2)
        rw [← hsubs, List.zip_map']
        apply List.mem_map.mpr ⟨s, hs, rfl⟩
      have ih := fun s hs => ih s hs (hparts s hs)
      choose! code hcoded hsyb htree hword using ih
      have hsyb' : (subs.map code).map Code.syb = r.args := by
        rw [← hsubs, List.map_map]
        apply List.map_congr_left hsyb
      have hall : ∀ s ∈ subs.map code, x.Coded s := by
        intro s hs
        obtain ⟨p, hp, rfl⟩ := List.mem_map.mp hs
        apply hcoded p hp
      have htrees : (subs.map code).map Code.tree = subs.map fun s => s.2.1 := by
        rw [List.map_map]
        apply List.map_congr_left htree
      have hwords : (subs.map code).map Code.word = subs.map fun s => s.2.2 := by
        rw [List.map_map]
        apply List.map_congr_left hword
      obtain ⟨e, he⟩ := exists_node hx hasked hrule hfunc hsyb' hall (by rw [hwords]; rfl)
      refine ⟨_, he, rfl, ?_, ?_⟩
      · rw [htrees]
      · rw [hwords]

/-! ### What follows the number of a production -/

/-- The entries after the number of the production. -/
def Follows (x : Expand) (r : Rule) (ws : List ℤ) : Prop :=
  (r.args = [] ∧ ∃ t, x.leaf r ws = some t) ∨
    x.problem.resolveSyb r.termSyb = some .func ∧
      ∃ ps, List.Forall₂ x.Encodes r.args ps ∧ ps.flatten = ws

theorem exists_codes {args : List String} {ps : List (List ℤ)}
    (h : List.Forall₂ x.Encodes args ps) :
  ∃ subs : List Code, (∀ s ∈ subs, x.Coded s) ∧ subs.map Code.syb = args ∧ subs.map Code.word = ps
  := by
  induction h with
  | nil => exact ⟨[], by simp, rfl, rfl⟩
  | cons hp _ ih =>
      obtain ⟨c, hc, rfl, rfl⟩ := hp
      obtain ⟨subs, hsubs, rfl, rfl⟩ := ih
      exact ⟨c :: subs, List.forall_mem_cons.mpr ⟨hc, hsubs⟩, rfl, rfl⟩

theorem encodes_subs {subs : List Code} (h : ∀ s ∈ subs, x.Coded s) :
  List.Forall₂ x.Encodes (subs.map Code.syb) (subs.map Code.word)
  := by
  rw [List.forall₂_map_left_iff, List.forall₂_map_right_iff, List.forall₂_same]
  intro s hs
  exact ⟨s, h s hs, rfl, rfl⟩

/-- A vector for a nonterminal is the number of a production, and what may follow it. -/
theorem encodes_iff (hx : x.WellFormed) {w : List ℤ} (hasked : x.Asked N w.length) :
  x.Encodes N w ↔ ∃ i r ws, x.RuleOf N i r ∧ w = (i : ℤ) :: ws ∧ x.Follows r ws
  := by
  constructor
  · rintro ⟨c, hc, rfl, rfl⟩
    cases hc with
    | leaf hrule hargs hleaf => exact ⟨_, _, _, hrule, rfl, .inl ⟨hargs, _, hleaf⟩⟩
    | node hrule hfunc hargs hsubs hdispatch =>
        refine ⟨_, _, _, hrule, rfl, .inr ⟨hfunc, _, ?_, rfl⟩⟩
        rw [← hargs]
        apply encodes_subs hsubs
  · rintro ⟨i, r, ws, hrule, rfl, ⟨hargs, ⟨tree, e⟩, hleaf⟩ | ⟨hfunc, ps, hps, rfl⟩⟩
    · exact ⟨_, .leaf hrule hargs hleaf, rfl, rfl⟩
    · obtain ⟨subs, hsubs, hsyb, rfl⟩ := exists_codes hps
      obtain ⟨e, he⟩ := exists_node hx hasked hrule hfunc hsyb hsubs rfl
      exact ⟨_, he, rfl, rfl⟩

theorem ne_nil_of_encodes {args : List String} {ps : List (List ℤ)}
    (h : List.Forall₂ x.Encodes args ps) :
  ∀ p ∈ ps, p ≠ []
  := by
  obtain ⟨subs, hsubs, -, rfl⟩ := exists_codes h
  apply words_ne_nil hsubs

theorem Follows.considers {ws : List ℤ} (h : x.Follows r ws) :
  x.Considers r (ws.length + 1)
  := by
  rcases h with ⟨hargs, t, hleaf⟩ | ⟨-, ps, hps, rfl⟩
  · apply considers_of_leaf hargs hleaf
  · apply considers_of_parts hps.length_eq.symm (ne_nil_of_encodes hps)

theorem Follows.length_le (hargs : r.args ≠ []) {ws : List ℤ} (h : x.Follows r ws) :
  r.args.length ≤ ws.length
  := by
  rcases h with ⟨hnil, -⟩ | ⟨-, ps, hps, rfl⟩
  · apply absurd hnil hargs
  · rw [hps.length_eq]
    apply length_le_flatten (ne_nil_of_encodes hps)

theorem follows_iff (hargs : r.args ≠ []) (hfunc : x.problem.resolveSyb r.termSyb = some .func)
    {ws : List ℤ} :
  x.Follows r ws ↔ ∃ ps, List.Forall₂ x.Encodes r.args ps ∧ ps.flatten = ws
  := by
  constructor
  · rintro (⟨hnil, -⟩ | ⟨-, h⟩)
    · apply absurd hnil hargs
    · exact h
  · intro h
    exact .inr ⟨hfunc, h⟩

theorem follows_leaf (hargs : r.args = []) (hfunc : x.problem.resolveSyb r.termSyb ≠ some .func)
    {ws : List ℤ} :
  x.Follows r ws ↔ ∃ t, x.leaf r ws = some t
  := by
  constructor
  · rintro (⟨-, h⟩ | ⟨h, -⟩)
    · exact h
    · apply absurd h hfunc
  · intro h
    exact .inl ⟨hargs, h⟩

end WellFormed

end Expand

end Sygus.Encoding
