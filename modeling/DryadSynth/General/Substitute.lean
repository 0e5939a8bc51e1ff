import DryadSynth.General.Ast
import DryadSynth.Library.Worklist

/-!
# Substitution in trees with a stack and a cache

The loops of `ASTGeneral.substitute` and `DefinedFunc.rewrite`.  Both end, with the tree that the
recursion on the tree gives.  The cache of the one holds the replacements from the start, but the
root of the tree is taken from the stack without a look into it; the other copies every leaf.

Against them stand the simultaneous substitution for leaves, `replaceLeaves`, and the calls filled
in from the inside out, `inline`.
-/

namespace Sygus

open Worklist Lists

namespace ASTGeneral

/-! ### The loop of `substitute` -/

/-- An iteration of `substitute`, for the tree on top of the stack. -/
def substituting : Fold ASTGeneral ASTGeneral where
  children := children
  combine tree newChildren := some (mk tree.node newChildren)

/-- `substitute(from, to)` in at most `n` iterations. -/
def substituteLoop (n : ℕ) (src dst : List ASTGeneral) (t : ASTGeneral) :
    Option (Option ASTGeneral) :=
  if src.length ≠ dst.length then some none else substituting.run n (lookup src dst) t

theorem sizeOf_lt_of_mem_children {t u : ASTGeneral} (h : u ∈ t.children) :
  sizeOf u < sizeOf t
  := by
  cases t with
  | mk n l =>
      have hlt : sizeOf u < sizeOf l := List.sizeOf_lt_of_mem h
      rw [mk.sizeOf_spec]
      omega

theorem solves_substituting (src dst : List ASTGeneral) :
  Solves substituting (lookup src dst) fun t => some (cached src dst t)
  := by
  constructor
  · intro t b h
    cases t with
    | mk n l => rw [cached_mk, h, Option.getD_some]
  · intro t h
    cases t with
    | mk n l =>
        have hmapM : l.mapM (fun t => some (cached src dst t)) = some (l.map (cached src dst)) :=
          mapM_eq_map fun _ _ => rfl
        change _ = (l.mapM fun t => some (cached src dst t)).bind _
        rw [cached_mk, h, Option.getD_none, hmapM]
        rfl

/-- The loop ends, with the result of the recursion. -/
theorem substituteLoop_eq (src dst : List ASTGeneral) (t : ASTGeneral) :
  ∃ n, ∀ m ≥ n, substituteLoop m src dst t = some (t.substitute src dst)
  := by
  by_cases hlen : src.length = dst.length
  · obtain ⟨n, hn⟩ := (solves_substituting src dst).run sizeOf
      (fun _ _ => sizeOf_lt_of_mem_children) t
    use n
    intro m hm
    have hmapM : t.children.mapM (fun t => some (cached src dst t))
        = some (t.children.map (cached src dst)) :=
      mapM_eq_map fun _ _ => rfl
    rw [substituteLoop, if_neg (not_not.mpr hlen), hn m hm, substitute, if_pos hlen, cachedAll_eq,
      Fold.result, substituting, hmapM]
    rfl
  · use 0
    intro m _
    rw [substituteLoop, if_pos hlen, substitute, if_neg hlen]

/-! ### Simultaneous substitution for leaves -/

mutual

/-- Replace the leaves that have a replacement. -/
def replaceLeaves (σ : String → Option ASTGeneral) : ASTGeneral → ASTGeneral
  | mk n [] => (σ n).getD (leaf n)
  | mk n (c :: l) => mk n (replaceLeaves σ c :: replaceLeavesAll σ l)

def replaceLeavesAll (σ : String → Option ASTGeneral) : List ASTGeneral → List ASTGeneral
  | [] => []
  | c :: l => replaceLeaves σ c :: replaceLeavesAll σ l

end

/-- What stands at the place of a name.  Of equal names the last one counts. -/
def assign {α : Type} (ns : List String) (us : List α) (n : String) : Option α :=
  (ns.zip us).reverse.lookup n

section ReplaceLeaves

variable {σ : String → Option ASTGeneral} {ns : List String} {us : List ASTGeneral}

theorem replaceLeavesAll_eq (l : List ASTGeneral) :
  replaceLeavesAll σ l = l.map (replaceLeaves σ)
  := by
  induction l with
  | nil => rfl
  | cons c l ih => rw [replaceLeavesAll, ih, List.map_cons]

theorem replaceLeaves_leaf (n : String) :
  replaceLeaves σ (leaf n) = (σ n).getD (leaf n)
  := by rw [replaceLeaves]

/-- Where no leaf has a replacement nothing changes. -/
theorem replaceLeaves_none (t : ASTGeneral) :
  replaceLeaves (fun _ => none) t = t
  := by
  induction t with
  | mk n l ih =>
      cases l with
      | nil => rw [replaceLeaves_leaf, Option.getD_none]
      | cons c l =>
          rw [replaceLeaves, replaceLeavesAll_eq, ← List.map_cons, List.map_congr_left ih,
            List.map_id']

theorem replaceLeaves_node {n : String} {l : List ASTGeneral} (h : l ≠ []) :
  replaceLeaves σ (mk n l) = mk n (l.map (replaceLeaves σ))
  := by
  cases l with
  | nil => exact absurd rfl h
  | cons c l => rw [replaceLeaves, replaceLeavesAll_eq, List.map_cons]

theorem assign_cons {α : Type} (n : String) (u : α) (ns : List String) (us : List α) (m : String) :
  assign (n :: ns) (u :: us) m = (assign ns us m).or (if n = m then some u else none)
  := by
  rw [assign, List.zip_cons_cons, List.reverse_cons, List.lookup_append, ← assign]
  congr 1
  by_cases h : n = m
  · simp [h]
  · have hbeq : (m == n) = false := beq_false_of_ne (Ne.symm h)
    rw [if_neg h, List.lookup_cons, hbeq, List.lookup_nil]

theorem assign_of_not_mem {α : Type} {n : String} {ns : List String} (h : n ∉ ns) (us : List α) :
  assign ns us n = none
  := by
  induction ns generalizing us with
  | nil => rfl
  | cons m ns ih =>
      cases us with
      | nil => rfl
      | cons u us =>
          obtain ⟨hne, h⟩ := not_or.mp (List.mem_cons.not.mp h)
          rw [assign_cons, ih h, if_neg (Ne.symm hne), Option.or_none]

theorem assign_of_mem {α : Type} {n : String} {ns : List String} (h : n ∈ ns) {us : List α}
    (hlen : us.length = ns.length) :
  ∃ u ∈ us, assign ns us n = some u
  := by
  induction ns generalizing us with
  | nil => cases h
  | cons m ns ih =>
      cases us with
      | nil => cases hlen
      | cons u us =>
          rw [assign_cons]
          by_cases hn : n ∈ ns
          · obtain ⟨v, hv, hassign⟩ := ih hn (Nat.succ.inj hlen)
            rw [hassign]
            exact ⟨v, List.mem_cons_of_mem u hv, rfl⟩
          · obtain rfl := (List.mem_cons.mp h).resolve_right hn
            rw [assign_of_not_mem hn, if_pos rfl]
            exact ⟨u, List.mem_cons_self, rfl⟩

theorem assign_map {α β : Type} (f : α → β) (ns : List String) (us : List α) (n : String) :
  assign ns (us.map f) n = (assign ns us n).map f
  := by
  induction ns generalizing us with
  | nil => rfl
  | cons m ns ih =>
      cases us with
      | nil => rfl
      | cons u us =>
          rw [List.map_cons, assign_cons, assign_cons, ih]
          cases assign ns us n with
          | some v => rfl
          | none =>
              by_cases h : m = n
              · simp [h]
              · simp [h]

/-- A pattern that is a leaf is found in the cache at the leaves of its name only. -/
theorem lookup_leaf (n : String) :
  lookup (ns.map leaf) us (leaf n) = assign ns us n
  := by
  induction ns generalizing us with
  | nil => cases us <;> rfl
  | cons m ns ih =>
      cases us with
      | nil => rfl
      | cons u us =>
          rw [List.map_cons, lookup, ih, assign_cons]
          cases assign ns us n with
          | some v => rfl
          | none => simp

theorem lookup_node {n : String} {l : List ASTGeneral} (h : l ≠ []) :
  lookup (ns.map leaf) us (mk n l) = none
  := by
  induction ns generalizing us with
  | nil => cases us <;> rfl
  | cons m ns ih =>
      cases us with
      | nil => rfl
      | cons u us =>
          rw [List.map_cons, lookup, ih]
          simp [Ne.symm h]

/-- Below the root the loop substitutes simultaneously. -/
theorem cached_eq_replaceLeaves (t : ASTGeneral) :
  cached (ns.map leaf) us t = replaceLeaves (assign ns us) t
  := by
  induction t with
  | mk n l ih =>
      rw [cached_mk]
      by_cases hl : l = []
      · subst hl
        rw [lookup_leaf, replaceLeaves_leaf, List.map_nil]
      · rw [lookup_node hl, Option.getD_none, replaceLeaves_node hl, List.map_congr_left ih]

/-- A tree that is no leaf is substituted in simultaneously. -/
theorem substitute_node (hlen : ns.length = us.length) {n : String} {l : List ASTGeneral}
    (h : l ≠ []) :
  (mk n l).substitute (ns.map leaf) us = some (replaceLeaves (assign ns us) (mk n l))
  := by
  rw [substitute, if_pos (by rwa [List.length_map]), cachedAll_eq, replaceLeaves_node h]
  simp only [node_mk, children_mk, List.map_congr_left fun t _ => cached_eq_replaceLeaves t]

/-- A tree that is a leaf is left as it is. -/
theorem substitute_leaf (hlen : ns.length = us.length) (n : String) :
  (leaf n).substitute (ns.map leaf) us = some (leaf n)
  := by
  rw [substitute, if_pos (by rwa [List.length_map]), cachedAll_eq]
  rfl

theorem substitute_eq_iff (hlen : ns.length = us.length) (t : ASTGeneral) :
  t.substitute (ns.map leaf) us = some (replaceLeaves (assign ns us) t)
    ↔ ∀ n u, t = leaf n → assign ns us n = some u → u = leaf n
  := by
  cases t with
  | mk n l =>
      by_cases hl : l = []
      · subst hl
        rw [substitute_leaf hlen, replaceLeaves_leaf, Option.some.injEq]
        constructor
        · intro h m u ht hu
          obtain rfl : n = m := congrArg node ht
          rw [h, hu, Option.getD_some]
        · intro h
          cases hu : assign ns us n with
          | none => rfl
          | some u => exact (h n u rfl hu).symm
      · rw [substitute_node hlen hl]
        simp [hl]

end ReplaceLeaves

end ASTGeneral

/-! ### The loop of `rewrite` -/

namespace DefinedFunc

open ASTGeneral

/-- An iteration of `rewrite(orig, func)`, for the tree on top of the stack.  There is no result
where `apply` gives `null`, which the next use of the tree runs into. -/
def rewriting (df : DefinedFunc) (func : String) : Fold ASTGeneral ASTGeneral where
  children := children
  combine tree newChildren :=
    if tree.isLeaf then some tree
    else if tree.node = func then df.apply newChildren
    else some (.mk tree.node newChildren)

/-- `rewrite(orig, func)` in at most `n` iterations. -/
def rewriteLoop (df : DefinedFunc) (func : String) (n : ℕ) (orig : ASTGeneral) :
    Option (Option ASTGeneral) :=
  (df.rewriting func).run n (fun _ => none) orig

/-- The definition under another name. -/
def rename (df : DefinedFunc) (func : String) : DefinedFunc := { df with name := func }

theorem rewriteAll_eq (df : DefinedFunc) (l : List ASTGeneral) :
  df.rewriteAll l = l.mapM df.rewrite
  := by
  induction l with
  | nil => rw [rewriteAll]; rfl
  | cons c l ih => rw [rewriteAll, ih, List.mapM_cons]; rfl

theorem rewrite_node (df : DefinedFunc) (n : String) {l : List ASTGeneral} (h : l ≠ []) :
  df.rewrite (.mk n l)
    = (l.mapM df.rewrite).bind fun l' => if n = df.name then df.apply l' else some (.mk n l')
  := by
  cases l with
  | nil => exact absurd rfl h
  | cons c l =>
      rw [rewrite, rewriteAll_eq, List.mapM_cons]
      cases df.rewrite c with
      | none => rfl
      | some c' =>
          cases l.mapM df.rewrite with
          | none => rfl
          | some l' => rfl

theorem solves_rewriting (df : DefinedFunc) (func : String) :
  Solves (df.rewriting func) (fun _ => none) (df.rename func).rewrite
  := by
  constructor
  · intro t b h
    cases h
  · intro t _
    cases t with
    | mk n l =>
        by_cases hl : l = []
        · subst hl
          rw [rewrite]
          rfl
        · have hleaf : (ASTGeneral.mk n l).isLeaf = false := by
            cases l with
            | nil => exact absurd rfl hl
            | cons c l => rfl
          rw [rewrite_node _ _ hl, Fold.result]
          simp only [rewriting, hleaf, children_mk, node_mk]
          rfl

/-- The loop ends, with the result of the recursion. -/
theorem rewriteLoop_eq (df : DefinedFunc) (func : String) (t : ASTGeneral) :
  ∃ n, ∀ m ≥ n, df.rewriteLoop func m t = some ((df.rename func).rewrite t)
  := by
  obtain ⟨n, hn⟩ := (df.solves_rewriting func).run sizeOf (fun _ _ => sizeOf_lt_of_mem_children) t
  use n
  intro m hm
  rw [rewriteLoop, hn m hm, ← (df.solves_rewriting func).result rfl]

/-! ### Calls filled in from the inside out -/

mutual

/-- Every call, a node of the name with as many children as the function has formals, is replaced
by the body, with the calls in its arguments replaced, for the formals. -/
def inline (df : DefinedFunc) (func : String) : ASTGeneral → ASTGeneral
  | .mk n l =>
      if n = func ∧ l.length = df.strArgs.length then
        replaceLeaves (assign df.strArgs (inlineAll df func l)) df.ASTDef
      else .mk n (inlineAll df func l)

def inlineAll (df : DefinedFunc) (func : String) : List ASTGeneral → List ASTGeneral
  | [] => []
  | c :: l => inline df func c :: inlineAll df func l

end

/-- Where the name stands at a node that is no leaf, the node has `k` children. -/
inductive Applied (func : String) (k : ℕ) : ASTGeneral → Prop
  | node {n : String} {l : List ASTGeneral} (hn : n = func → l ≠ [] → l.length = k)
      (hl : ∀ c ∈ l, Applied func k c) : Applied func k (.mk n l)

/-- The tree is the formal `a`, or a call whose argument for `a` is such a tree. -/
inductive Chain (df : DefinedFunc) (func a : String) : ASTGeneral → Prop
  | formal : Chain df func a (leaf a)
  | call {l : List ASTGeneral} {c : ASTGeneral} (hc : assign df.strArgs l a = some c)
      (h : Chain df func a c) : Chain df func a (.mk func l)

/-- The outermost calls of the tree are chains to the formal `a`. -/
inductive Chains (df : DefinedFunc) (func a : String) : ASTGeneral → Prop
  | call {l : List ASTGeneral} (hl : l ≠ []) (h : Chain df func a (.mk func l)) :
      Chains df func a (.mk func l)
  | other {n : String} {l : List ASTGeneral} (hn : n = func → l = [])
      (h : ∀ c ∈ l, Chains df func a c) : Chains df func a (.mk n l)

/-- The trees whose calls the loop replaces by the body with the arguments for the formals. -/
structure Inlines (df : DefinedFunc) (func : String) (t : ASTGeneral) : Prop where
  applied : Applied func df.strArgs.length t
  /-- A function without formals is not called, or its body is its name. -/
  constant : df.strArgs = [] → func ∈ t.names → df.ASTDef = leaf func
  /-- If the body is a formal, the calls come down to this formal itself. -/
  projection : ∀ a ∈ df.strArgs, df.ASTDef = leaf a → Chains df func a t

section Inline

variable {df : DefinedFunc} {func : String} {t : ASTGeneral}

theorem inlineAll_eq (l : List ASTGeneral) :
  inlineAll df func l = l.map (inline df func)
  := by
  induction l with
  | nil => rfl
  | cons c l ih => rw [inlineAll, ih, List.map_cons]

theorem inline_call {l : List ASTGeneral} (h : l.length = df.strArgs.length) :
  inline df func (.mk func l)
    = replaceLeaves (assign df.strArgs (l.map (inline df func))) df.ASTDef
  := by rw [inline, if_pos ⟨rfl, h⟩, inlineAll_eq]

theorem inline_other {n : String} {l : List ASTGeneral}
    (h : n = func → l.length ≠ df.strArgs.length) :
  inline df func (.mk n l) = .mk n (l.map (inline df func))
  := by rw [inline, if_neg fun hn => h hn.1 hn.2, inlineAll_eq]

theorem Applied.child {k : ℕ} {n : String} {l : List ASTGeneral} (h : Applied func k (.mk n l)) :
  ∀ c ∈ l, Applied func k c
  := by
  cases h with
  | node _ hl => exact hl

theorem Applied.length {k : ℕ} {l : List ASTGeneral} (h : Applied func k (.mk func l))
    (hl : l ≠ []) :
  l.length = k
  := by
  cases h with
  | node hn _ => exact hn rfl hl

theorem length_astArgs (df : DefinedFunc) :
  df.astArgs.length = df.strArgs.length
  := by rw [astArgs, List.length_map]

/-- A function is applied to as many arguments as it has formals. -/
theorem apply_of_length {l : List ASTGeneral} (h : l.length ≠ df.strArgs.length) :
  df.apply l = none
  := by
  rw [apply, substitute, if_neg]
  rw [length_astArgs]
  apply Ne.symm h

theorem rewrite_leaf (n : String) :
  (df.rename func).rewrite (leaf n) = some (leaf n)
  := by rw [rewrite]

theorem rewrite_call {l : List ASTGeneral} (h : l ≠ []) :
  (df.rename func).rewrite (.mk func l) = (l.mapM (df.rename func).rewrite).bind df.apply
  := by
  rw [rewrite_node _ _ h]
  congr 1
  funext l'
  apply if_pos rfl

theorem rewrite_other {n : String} (hn : n ≠ func) {l : List ASTGeneral} (h : l ≠ []) :
  (df.rename func).rewrite (.mk n l) = (l.mapM (df.rename func).rewrite).map (.mk n)
  := by
  rw [rewrite_node _ _ h, Option.map_eq_bind]
  congr 1
  funext l'
  apply if_neg hn

/-- The rewritten tree exists just if all calls have the right number of arguments. -/
theorem exists_rewrite_iff :
  (∃ t', (df.rename func).rewrite t = some t') ↔ Applied func df.strArgs.length t
  := by
  induction t with
  | mk n l ih =>
      by_cases hl : l = []
      · subst hl
        constructor
        · intro _
          exact .node (fun _ h => absurd rfl h) (by simp)
        · intro _
          exact ⟨_, rewrite_leaf n⟩
      · constructor
        · rintro ⟨t', ht'⟩
          by_cases hn : n = func
          · subst hn
            rw [rewrite_call hl] at ht'
            obtain ⟨l', hl', happly⟩ := Option.bind_eq_some_iff.mp ht'
            constructor
            · intro _ _
              by_contra hlen
              rw [mapM_eq_some_iff] at hl'
              rw [apply_of_length (hl'.length_eq ▸ hlen)] at happly
              cases happly
            · intro c hc
              apply (ih c hc).mp (exists_of_mapM hl' hc)
          · rw [rewrite_other hn hl] at ht'
            obtain ⟨l', hl', -⟩ := Option.map_eq_some_iff.mp ht'
            constructor
            · intro h
              apply absurd h hn
            · intro c hc
              apply (ih c hc).mp (exists_of_mapM hl' hc)
        · intro h
          obtain ⟨l', hl', hall⟩ := exists_mapM fun c hc => by
            obtain ⟨c', hc'⟩ := (ih c hc).mpr (h.child c hc)
            exact ⟨c', hc', trivial⟩
          by_cases hn : n = func
          · subst hn
            have hlen : df.astArgs.length = l'.length := by
              rw [length_astArgs, ← h.length hl, hall.length_eq]
            rw [rewrite_call hl, hl', Option.bind_some, apply, substitute, if_pos hlen]
            exact ⟨_, rfl⟩
          · rw [rewrite_other hn hl, hl']
            exact ⟨_, rfl⟩

/-- If the body is no formal, and is not put for a name without arguments, the calls are filled
in. -/
theorem rewrite_of_applied (h : Applied func df.strArgs.length t)
    (hbody : ∀ a ∈ df.strArgs, df.ASTDef ≠ leaf a)
    (hconstant : df.strArgs = [] → func ∈ t.names → df.ASTDef = leaf func) :
  (df.rename func).rewrite t = some (inline df func t)
  := by
  induction t with
  | mk n l ih =>
      have hargs : ∀ c ∈ l, (df.rename func).rewrite c = some (inline df func c) := by
        intro c hc
        apply ih c hc (h.child c hc)
        intro hnil hf
        apply hconstant hnil (mem_names_mk.mpr (.inr ⟨c, hc, hf⟩))
      by_cases hl : l = []
      · subst hl
        rw [rewrite_leaf]
        by_cases hcall : n = func ∧ ([] : List ASTGeneral).length = df.strArgs.length
        · obtain ⟨rfl, hlen⟩ := hcall
          have hnil : df.strArgs = [] := List.length_eq_zero_iff.mp hlen.symm
          rw [inline_call hlen, hconstant hnil (by simp), replaceLeaves_leaf, hnil]
          rfl
        · rw [inline_other fun hn hlen => hcall ⟨hn, hlen⟩]
          rfl
      · by_cases hn : n = func
        · subst hn
          have hlen := h.length hl
          have hlen' : df.strArgs.length = (l.map (inline df n)).length := by
            rw [List.length_map, hlen]
          rw [rewrite_call hl, mapM_eq_map hargs, Option.bind_some, inline_call hlen, apply,
            astArgs]
          cases hdef : df.ASTDef with
          | mk m k =>
              by_cases hk : k = []
              · subst hk
                have hm : m ∉ df.strArgs := fun hm => hbody m hm hdef
                rw [substitute_leaf hlen', replaceLeaves_leaf, assign_of_not_mem hm,
                  Option.getD_none]
              · apply substitute_node hlen' hk
        · rw [rewrite_other hn hl, mapM_eq_map hargs, Option.map_some,
            inline_other fun h => absurd h hn]

/-- A function without formals is not filled in, and so is its name. -/
theorem constant_of_rewrite (hnil : df.strArgs = [])
    (h : (df.rename func).rewrite t = some (inline df func t)) (hf : func ∈ t.names) :
  df.ASTDef = leaf func
  := by
  have happlied := exists_rewrite_iff.mp ⟨_, h⟩
  induction t with
  | mk n l ih =>
      by_cases hl : l = []
      · subst hl
        obtain rfl : func = n := by simpa using hf
        have hempty : assign df.strArgs ([] : List ASTGeneral) = fun _ => none := by
          rw [hnil]
          rfl
        rw [rewrite_leaf, inline_call (by rw [hnil]; rfl), List.map_nil, hempty,
          replaceLeaves_none] at h
        apply (Option.some.inj h).symm
      · have hn : n ≠ func := by
          rintro rfl
          have hlen := happlied.length hl
          rw [hnil] at hlen
          apply hl (List.length_eq_zero_iff.mp hlen)
        rw [rewrite_other hn hl, inline_other fun h => absurd h hn] at h
        obtain ⟨l', hl', heq⟩ := Option.map_eq_some_iff.mp h
        cases heq
        rw [mapM_eq_map_iff] at hl'
        rcases mem_names_mk.mp hf with hfn | ⟨c, hc, hf⟩
        · apply absurd hfn.symm hn
        · apply ih c hc (hl' c hc) hf (happlied.child c hc)

section Projection

variable {a : String}

/-- With a formal for the body, a tree becomes this formal just if it is a chain to it. -/
theorem inline_eq_leaf_iff (ha : a ∈ df.strArgs) (hbody : df.ASTDef = leaf a)
    (h : Applied func df.strArgs.length t) :
  inline df func t = leaf a ↔ Chain df func a t
  := by
  have hpos : df.strArgs.length ≠ 0 := by
    rw [Ne, List.length_eq_zero_iff]
    rintro hnil
    rw [hnil] at ha
    cases ha
  induction t with
  | mk n l ih =>
      by_cases hl : l = []
      · subst hl
        rw [inline_other fun _ hlen => hpos hlen.symm, List.map_nil]
        constructor
        · rintro ⟨⟩
          exact .formal
        · intro hchain
          cases hchain with
          | formal => rfl
          | call hc _ =>
              rw [assign, List.zip_nil_right] at hc
              cases hc
      · by_cases hn : n = func
        · subst hn
          have hlen := h.length hl
          obtain ⟨c, hc, hassign⟩ := assign_of_mem ha hlen
          rw [inline_call hlen, hbody, replaceLeaves_leaf, assign_map, hassign, Option.map_some,
            Option.getD_some]
          refine (ih c hc (h.child c hc)).trans ⟨.call hassign, ?_⟩
          intro hchain
          cases hchain with
          | formal => exact absurd rfl hl
          | call hc' hchain =>
              obtain rfl := Option.some.inj (hassign.symm.trans hc')
              apply hchain
        · rw [inline_other fun h => absurd h hn]
          constructor
          · intro heq
            have hnil : l.map (inline df func) = [] := congrArg children heq
            apply absurd (List.map_eq_nil_iff.mp hnil) hl
          · intro hchain
            cases hchain with
            | formal => exact absurd rfl hl
            | call _ _ => exact absurd rfl hn

theorem rewrite_projection_iff (ha : a ∈ df.strArgs) (hbody : df.ASTDef = leaf a)
    (h : Applied func df.strArgs.length t) :
  (df.rename func).rewrite t = some (inline df func t) ↔ Chains df func a t
  := by
  induction t with
  | mk n l ih =>
      have hpos : df.strArgs.length ≠ 0 := by
        rw [Ne, List.length_eq_zero_iff]
        rintro hnil
        rw [hnil] at ha
        cases ha
      by_cases hl : l = []
      · subst hl
        rw [rewrite_leaf, inline_other fun _ hlen => hpos hlen.symm]
        exact ⟨fun _ => .other (fun _ => rfl) (by simp), fun _ => rfl⟩
      · by_cases hn : n = func
        · subst hn
          -- a call becomes the formal, whatever its arguments are
          have hrewrite : (df.rename n).rewrite (.mk n l) = some (leaf a) := by
            obtain ⟨l', hl', hall⟩ := exists_mapM fun c hc => by
              obtain ⟨c', hc'⟩ := exists_rewrite_iff.mpr (h.child c hc)
              exact ⟨c', hc', trivial⟩
            have hlen : df.strArgs.length = l'.length := by
              rw [← h.length hl, hall.length_eq]
            rw [rewrite_call hl, hl', Option.bind_some, apply, hbody]
            apply substitute_leaf hlen a
          rw [hrewrite, Option.some.injEq, eq_comm, inline_eq_leaf_iff ha hbody h]
          constructor
          · exact .call hl
          · intro hchains
            cases hchains with
            | call _ hchain => exact hchain
            | other hn _ => exact absurd (hn rfl) hl
        · rw [rewrite_other hn hl, inline_other fun h => absurd h hn]
          have hmap : (l.mapM (df.rename func).rewrite).map (ASTGeneral.mk n)
                = some (.mk n (l.map (inline df func)))
              ↔ l.mapM (df.rename func).rewrite = some (l.map (inline df func)) := by
            rw [Option.map_eq_some_iff]
            constructor
            · rintro ⟨l', hl', heq⟩
              cases heq
              apply hl'
            · intro hl'
              exact ⟨_, hl', rfl⟩
          rw [hmap, mapM_eq_map_iff]
          constructor
          · intro hargs
            exact .other (fun h => absurd h hn)
              fun c hc => (ih c hc (h.child c hc)).mp (hargs c hc)
          · intro hchains c hc
            cases hchains with
            | call _ _ => exact absurd rfl hn
            | other _ hl' => exact (ih c hc (h.child c hc)).mpr (hl' c hc)

end Projection

theorem rewrite_eq_iff (df : DefinedFunc) (func : String) (t : ASTGeneral) :
  (df.rename func).rewrite t = some (inline df func t) ↔ Inlines df func t
  := by
  constructor
  · intro h
    have happlied := exists_rewrite_iff.mp ⟨_, h⟩
    refine ⟨happlied, fun hnil hf => constant_of_rewrite hnil h hf, ?_⟩
    intro a ha hbody
    apply (rewrite_projection_iff ha hbody happlied).mp h
  · intro h
    by_cases hbody : ∃ a ∈ df.strArgs, df.ASTDef = leaf a
    · obtain ⟨a, ha, hbody⟩ := hbody
      apply (rewrite_projection_iff ha hbody h.applied).mpr (h.projection a ha hbody)
    · apply rewrite_of_applied h.applied _ h.constant
      intro a ha hdef
      apply hbody ⟨a, ha, hdef⟩

end Inline

/-- Substitution is the simultaneous one just where the tree is no leaf with another replacement,
and rewriting fills in the calls just for the trees of `Inlines`; both always end. -/
theorem substitute_rewrite_iff (t : ASTGeneral) {ns : List String} {us : List ASTGeneral}
    (hlen : ns.length = us.length) (df : DefinedFunc) (func : String) (tree : ASTGeneral) :
  (∃ r, (∃ n, ∀ m ≥ n, substituteLoop m (ns.map leaf) us t = some r)
      ∧ (r = some (replaceLeaves (assign ns us) t)
        ↔ ∀ n u, t = leaf n → assign ns us n = some u → u = leaf n))
    ∧ ∃ r, (∃ n, ∀ m ≥ n, df.rewriteLoop func m tree = some r)
      ∧ (r = some (inline df func tree) ↔ Inlines df func tree)
  := by
  constructor
  · exact ⟨_, substituteLoop_eq (ns.map leaf) us t, substitute_eq_iff hlen t⟩
  · exact ⟨_, rewriteLoop_eq df func tree, rewrite_eq_iff df func tree⟩

/-- The identity. -/
def identity : DefinedFunc := ⟨"id", ["x"], leaf "x"⟩

/-- The identity of the identity of `x`. -/
def identityTwice : ASTGeneral := .mk "id" [.mk "id" [leaf "x"]]

theorem substitute_rewrite_iff_identity :
  (∃ r, (∃ n, ∀ m ≥ n, substituteLoop m (["x"].map leaf) [leaf "y"] identityTwice = some r)
      ∧ (r = some (replaceLeaves (assign ["x"] [leaf "y"]) identityTwice)
        ↔ ∀ n u, identityTwice = leaf n → assign ["x"] [leaf "y"] n = some u → u = leaf n))
    ∧ ∃ r, (∃ n, ∀ m ≥ n, identity.rewriteLoop "id" m identityTwice = some r)
      ∧ (r = some (inline identity "id" identityTwice) ↔ Inlines identity "id" identityTwice)
  := substitute_rewrite_iff identityTwice rfl identity "id" identityTwice

/-- The loop does not replace a leaf that it starts with, and so not the call of the identity. -/
theorem rewriteLoop_identity :
  (∃ n, ∀ m ≥ n, substituteLoop m (["x"].map leaf) [leaf "y"] (leaf "x") = some (some (leaf "x")))
    ∧ replaceLeaves (assign ["x"] [leaf "y"]) (leaf "x") = leaf "y"
    ∧ (∃ n, ∀ m ≥ n, identity.rewriteLoop "id" m (.mk "id" [leaf "c"]) = some (some (leaf "x")))
    ∧ inline identity "id" (.mk "id" [leaf "c"]) = leaf "c"
  := by
  refine ⟨substituteLoop_eq [leaf "x"] [leaf "y"] (leaf "x"), by decide, ?_, by decide⟩
  have hrewrite : (identity.rename "id").rewrite (.mk "id" [leaf "c"]) = some (leaf "x") := by
    decide
  rw [← hrewrite]
  apply rewriteLoop_eq identity "id" (.mk "id" [leaf "c"])

end DefinedFunc

end Sygus
