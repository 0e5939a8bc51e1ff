import Mathlib

/-!
# Abstract syntax trees of synthesised functions

`ASTGeneral` is the tree `Expand.expandGeneral` builds for a candidate, `ASTGeneral.substitute`
and `DefinedFunc.rewrite` are what fills a synthesised function in where a tree calls it.  Both
walk the tree with a stack and a cache; what the cache holds for a tree at the end is given here
by recursion on the tree.

A tree is `WellCalled` for a set of names and a number of arguments when each of the names stands
only at nodes with that number of children.  Filling in keeps this, and `rewrite_spec` says which
names it leaves.  With at least one argument no call stands at a leaf, and then the filled in
name is gone; a leaf is never rewritten, `rewrite_of_leaf_calls`.
-/

namespace Sygus

/-- A node with its name and its children. -/
inductive ASTGeneral where
  | mk (node : String) (children : List ASTGeneral)
  deriving Repr

namespace ASTGeneral

/-- Induction on trees: a tree from its children. -/
@[elab_as_elim, induction_eliminator]
theorem ind {P : ASTGeneral → Prop}
    (mk : ∀ node children, (∀ c ∈ children, P c) → P (.mk node children)) (t : ASTGeneral) :
  P t
  := by
  refine @ASTGeneral.rec P (fun l => ∀ c ∈ l, P c) mk ?_ ?_ t
  · intro c hc
    cases hc
  · intro c l hc hl c' hc'
    rcases List.mem_cons.mp hc' with rfl | hc'
    · apply hc
    · apply hl c' hc'

mutual

/-- `equals` -/
def decEq : (t t' : ASTGeneral) → Decidable (t = t')
  | mk n l, mk n' l' =>
      have := decEqAll l l'
      decidable_of_iff (n = n' ∧ l = l') (by simp)

/-- `equals`, for lists of trees. -/
def decEqAll : (l l' : List ASTGeneral) → Decidable (l = l')
  | [], [] => .isTrue rfl
  | t :: l, t' :: l' =>
      have := decEq t t'
      have := decEqAll l l'
      decidable_of_iff (t = t' ∧ l = l') (by simp)
  | [], _ :: _ => .isFalse nofun
  | _ :: _, [] => .isFalse nofun

end

instance : DecidableEq ASTGeneral := decEq

/-- A tree without children. -/
abbrev leaf (node : String) : ASTGeneral := mk node []

def node : ASTGeneral → String
  | mk n _ => n

def children : ASTGeneral → List ASTGeneral
  | mk _ l => l

def isLeaf (t : ASTGeneral) : Bool := t.children.isEmpty

@[simp]
theorem node_mk (n : String) (l : List ASTGeneral) :
  (mk n l).node = n
  := rfl

@[simp]
theorem children_mk (n : String) (l : List ASTGeneral) :
  (mk n l).children = l
  := rfl

mutual

/-- The names at the nodes of a tree, from the root down and from the left to the right. -/
def names : ASTGeneral → List String
  | mk n l => n :: namesAll l

/-- The names at the nodes of trees. -/
def namesAll : List ASTGeneral → List String
  | [] => []
  | t :: l => t.names ++ namesAll l

end

theorem mem_namesAll {f : String} {l : List ASTGeneral} :
  f ∈ namesAll l ↔ ∃ c ∈ l, f ∈ c.names
  := by
  induction l with
  | nil => simp [namesAll]
  | cons t l ih => simp [namesAll, ih]

@[simp]
theorem mem_names_mk {f n : String} {l : List ASTGeneral} :
  f ∈ (mk n l).names ↔ f = n ∨ ∃ c ∈ l, f ∈ c.names
  := by rw [names, List.mem_cons, mem_namesAll]

/-! ### Substitution -/

/-- What the cache of `substitute` holds for a pattern: of equal patterns the last one counts. -/
def lookup : List ASTGeneral → List ASTGeneral → ASTGeneral → Option ASTGeneral
  | p :: ps, u :: us, t =>
      match lookup ps us t with
      | some v => some v
      | none => if p = t then some u else none
  | _, _, _ => none

mutual

/-- What `substitute` puts for a tree below the root. -/
def cached (ps us : List ASTGeneral) : ASTGeneral → ASTGeneral
  | mk n l => (lookup ps us (mk n l)).getD (mk n (cachedAll ps us l))

/-- What `substitute` puts for the children of a node. -/
def cachedAll (ps us : List ASTGeneral) : List ASTGeneral → List ASTGeneral
  | [] => []
  | t :: l => cached ps us t :: cachedAll ps us l

end

/-- `substitute`, of the trees `us` for the patterns `ps`.  The root is never looked up: a leaf is
copied, a node gets the new children. -/
def substitute (ps us : List ASTGeneral) (t : ASTGeneral) : Option ASTGeneral :=
  if ps.length = us.length then some (mk t.node (cachedAll ps us t.children)) else none

theorem cachedAll_eq (ps us l : List ASTGeneral) :
  cachedAll ps us l = l.map (cached ps us)
  := by
  induction l with
  | nil => rfl
  | cons t l ih => rw [cachedAll, ih, List.map_cons]

theorem cached_mk (ps us l : List ASTGeneral) (n : String) :
  cached ps us (mk n l) = (lookup ps us (mk n l)).getD (mk n (l.map (cached ps us)))
  := by rw [cached, cachedAll_eq]

theorem lookup_mem {ps us : List ASTGeneral} {t u : ASTGeneral} (h : lookup ps us t = some u) :
  u ∈ us
  := by
  induction ps generalizing us with
  | nil => cases h
  | cons p ps ih =>
      cases us with
      | nil => cases h
      | cons v us =>
          rw [lookup] at h
          cases hl : lookup ps us t with
          | some w =>
              rw [hl] at h
              cases h
              apply List.mem_cons_of_mem _ (ih hl)
          | none =>
              rw [hl] at h
              dsimp only at h
              split at h
              · cases h
                apply List.mem_cons_self
              · cases h

end ASTGeneral

open ASTGeneral

/-- The part of a `DefinedFunc` its trees are used with. -/
structure DefinedFunc where
  name : String
  strArgs : List String
  ASTDef : ASTGeneral
  deriving DecidableEq, Repr

namespace DefinedFunc

/-- `astArgs` -/
def astArgs (df : DefinedFunc) : List ASTGeneral := df.strArgs.map leaf

/-- `apply`, to trees.  The result is `null` for another number of arguments. -/
def apply (df : DefinedFunc) (l : List ASTGeneral) : Option ASTGeneral :=
  df.ASTDef.substitute df.astArgs l

mutual

/-- `rewrite(orig)`: the calls of the function, replaced by its tree from the leaves to the root.
A leaf is copied, whatever its name.  The result is `none` where `apply` gives `null`, which the
next use of the tree runs into. -/
def rewrite (df : DefinedFunc) : ASTGeneral → Option ASTGeneral
  | .mk n [] => some (.mk n [])
  | .mk n (c :: l) => do
      let c' ← rewrite df c
      let l' ← rewriteAll df l
      if n = df.name then df.apply (c' :: l') else some (.mk n (c' :: l'))

/-- `rewrite`, of the children of a node. -/
def rewriteAll (df : DefinedFunc) : List ASTGeneral → Option (List ASTGeneral)
  | [] => some []
  | c :: l => do
      let c' ← rewrite df c
      let l' ← rewriteAll df l
      some (c' :: l')

end

end DefinedFunc

/-! ### Calls -/

/-- Every name of the set stands at nodes with `k` children only. -/
inductive ASTGeneral.WellCalled (N : Set String) (k : ℕ) : ASTGeneral → Prop
  | node {n : String} {l : List ASTGeneral} (hn : n ∈ N → l.length = k)
      (hl : ∀ c ∈ l, WellCalled N k c) : WellCalled N k (.mk n l)

namespace ASTGeneral

variable {N : Set String} {k : ℕ}

theorem WellCalled.length {n : String} {l : List ASTGeneral} (h : WellCalled N k (mk n l))
    (hn : n ∈ N) :
  l.length = k
  := by
  cases h with
  | node h _ => exact h hn

theorem WellCalled.child {n : String} {l : List ASTGeneral} (h : WellCalled N k (mk n l))
    {c : ASTGeneral} (hc : c ∈ l) :
  WellCalled N k c
  := by
  cases h with
  | node _ h => exact h c hc

theorem WellCalled.cached {ps us : List ASTGeneral} (hus : ∀ u ∈ us, WellCalled N k u)
    {t : ASTGeneral} (h : WellCalled N k t) :
  WellCalled N k (cached ps us t)
  := by
  induction t with
  | mk n l ih =>
      rw [cached_mk]
      cases hl : lookup ps us (mk n l) with
      | some u => exact hus u (lookup_mem hl)
      | none =>
          constructor
          · intro hn
            rw [List.length_map]
            apply h.length hn
          · intro c hc
            obtain ⟨c', hc', rfl⟩ := List.mem_map.mp hc
            apply ih c' hc' (h.child hc')

theorem mem_names_cached {ps us : List ASTGeneral} {f : String} {t : ASTGeneral}
    (h : f ∈ (cached ps us t).names) :
  f ∈ t.names ∨ ∃ u ∈ us, f ∈ u.names
  := by
  induction t with
  | mk n l ih =>
      rw [cached_mk] at h
      cases hl : lookup ps us (mk n l) with
      | some u =>
          rw [hl] at h
          exact .inr ⟨u, lookup_mem hl, h⟩
      | none =>
          rw [hl] at h
          rcases mem_names_mk.mp h with rfl | ⟨c, hc, hf⟩
          · exact .inl (mem_names_mk.mpr (.inl rfl))
          · obtain ⟨c', hc', rfl⟩ := List.mem_map.mp hc
            rcases ih c' hc' hf with hf | hf
            · exact .inl (mem_names_mk.mpr (.inr ⟨c', hc', hf⟩))
            · exact .inr hf

/-- Substitution for as many patterns as trees keeps the numbers of children of the calls. -/
theorem exists_substitute {ps us : List ASTGeneral} (hlen : ps.length = us.length)
    (hus : ∀ u ∈ us, WellCalled N k u) {t : ASTGeneral} (h : WellCalled N k t) :
  ∃ t', substitute ps us t = some t' ∧ WellCalled N k t' ∧
    ∀ f ∈ t'.names, f ∈ t.names ∨ ∃ u ∈ us, f ∈ u.names
  := by
  cases t with
  | mk n l =>
      refine ⟨_, if_pos hlen, ?_, ?_⟩
      · rw [children_mk, cachedAll_eq]
        constructor
        · intro hn
          rw [List.length_map]
          apply h.length hn
        · intro c hc
          obtain ⟨c', hc', rfl⟩ := List.mem_map.mp hc
          apply (h.child hc').cached hus
      · intro f hf
        rw [children_mk, cachedAll_eq] at hf
        rcases mem_names_mk.mp hf with rfl | ⟨c, hc, hf⟩
        · exact .inl (mem_names_mk.mpr (.inl rfl))
        · obtain ⟨c', hc', rfl⟩ := List.mem_map.mp hc
          rcases mem_names_cached hf with hf | hf
          · exact .inl (mem_names_mk.mpr (.inr ⟨c', hc', hf⟩))
          · exact .inr hf

end ASTGeneral

namespace DefinedFunc

variable {N : Set String} {k : ℕ} {df : DefinedFunc}

/-- A name after filling in: one that was there, but not the filled in one, or a name of the
filled in tree. -/
def Leaves (df : DefinedFunc) (t t' : ASTGeneral) : Prop :=
  ∀ f ∈ t'.names, (f ∈ t.names ∧ f ≠ df.name) ∨ (f ∈ df.ASTDef.names ∧ df.name ∈ t.names)

theorem exists_rewriteAll {l : List ASTGeneral}
    (h : ∀ c ∈ l, ∃ c', df.rewrite c = some c' ∧ c'.WellCalled N k ∧ df.Leaves c c') :
  ∃ l', df.rewriteAll l = some l' ∧ l'.length = l.length ∧ (∀ c ∈ l', c.WellCalled N k) ∧
    ∀ c' ∈ l', ∃ c ∈ l, df.Leaves c c'
  := by
  induction l with
  | nil => exact ⟨[], rfl, rfl, by simp, by simp⟩
  | cons c l ih =>
      obtain ⟨c', hc', hw, hf⟩ := h c List.mem_cons_self
      obtain ⟨l', hl', hlen, hws, hfs⟩ := ih fun c hc => h c (List.mem_cons_of_mem _ hc)
      refine ⟨c' :: l', ?_, ?_, ?_, ?_⟩
      · rw [rewriteAll, hc', hl']
        rfl
      · rw [List.length_cons, hlen, List.length_cons]
      · intro d hd
        rcases List.mem_cons.mp hd with rfl | hd
        · apply hw
        · apply hws d hd
      · intro d hd
        rcases List.mem_cons.mp hd with rfl | hd
        · exact ⟨c, List.mem_cons_self, hf⟩
        · obtain ⟨e, he, hef⟩ := hfs d hd
          exact ⟨e, List.mem_cons_of_mem _ he, hef⟩

/-- A node with children, from what its children are rewritten to. -/
theorem rewrite_mk {n : String} {c : ASTGeneral} {l l' : List ASTGeneral}
    (h : df.rewriteAll (c :: l) = some l') :
  df.rewrite (.mk n (c :: l)) = if n = df.name then df.apply l' else some (.mk n l')
  := by
  rw [rewriteAll] at h
  rw [rewrite]
  cases hc : df.rewrite c with
  | none =>
      rw [hc] at h
      cases h
  | some c' =>
      cases hr : df.rewriteAll l with
      | none =>
          rw [hc, hr] at h
          cases h
      | some r =>
          rw [hc, hr] at h
          cases h
          rfl

/-- Filling in a function that takes an argument: it succeeds, keeps the numbers of children of
the calls, and leaves no call of the function that its tree does not have. -/
theorem rewrite_spec (hk : 0 < k) (hname : df.name ∈ N) (hargs : df.strArgs.length = k)
    (hdef : df.ASTDef.WellCalled N k) {t : ASTGeneral} (ht : t.WellCalled N k) :
  ∃ t', df.rewrite t = some t' ∧ t'.WellCalled N k ∧ df.Leaves t t'
  := by
  induction t with
  | mk n l ih =>
      cases l with
      | nil =>
          refine ⟨.mk n [], by rw [rewrite], ht, ?_⟩
          intro f hf
          have hfn : f = n := by simpa using hf
          refine .inl ⟨hf, ?_⟩
          rintro rfl
          have hlen := ht.length (hfn ▸ hname)
          rw [List.length_nil] at hlen
          omega
      | cons c l =>
          obtain ⟨l', hl', hlen, hws, hfs⟩ := exists_rewriteAll fun c hc => ih c hc (ht.child hc)
          -- the names that come from the children
          have hchild : ∀ f, ∀ c' ∈ l', f ∈ c'.names →
              (f ∈ (ASTGeneral.mk n (c :: l)).names ∧ f ≠ df.name) ∨
                (f ∈ df.ASTDef.names ∧ df.name ∈ (ASTGeneral.mk n (c :: l)).names) := by
            intro f c' hc' hf
            obtain ⟨d, hd, hdf⟩ := hfs c' hc'
            rcases hdf f hf with ⟨hfd, hne⟩ | ⟨hfd, hin⟩
            · exact .inl ⟨mem_names_mk.mpr (.inr ⟨d, hd, hfd⟩), hne⟩
            · exact .inr ⟨hfd, mem_names_mk.mpr (.inr ⟨d, hd, hin⟩)⟩
          rw [rewrite_mk hl']
          split
          · rename_i hn
            subst hn
            have hlen' : df.astArgs.length = l'.length := by
              rw [astArgs, List.length_map, hargs, hlen, ht.length hname]
            obtain ⟨t', ht', hw, hf⟩ := exists_substitute hlen' hws hdef
            refine ⟨t', ht', hw, ?_⟩
            intro f hft
            rcases hf f hft with hfd | ⟨u, hu, hfu⟩
            · exact .inr ⟨hfd, mem_names_mk.mpr (.inl rfl)⟩
            · apply hchild f u hu hfu
          · rename_i hn
            refine ⟨_, rfl, ?_, ?_⟩
            · constructor
              · intro hnN
                rw [hlen]
                apply ht.length hnN
              · apply hws
            · intro f hf
              rcases mem_names_mk.mp hf with rfl | ⟨c', hc', hf⟩
              · exact .inl ⟨mem_names_mk.mpr (.inl rfl), hn⟩
              · apply hchild f c' hc' hf

theorem rewriteAll_eq_self {l : List ASTGeneral} (h : ∀ c ∈ l, df.rewrite c = some c) :
  df.rewriteAll l = some l
  := by
  induction l with
  | nil => rw [rewriteAll]
  | cons c l ih =>
      rw [rewriteAll, h c List.mem_cons_self, ih fun d hd => h d (List.mem_cons_of_mem _ hd)]
      rfl

/-- A function all of whose calls are leaves is not filled in at all. -/
theorem rewrite_of_leaf_calls (hname : df.name ∈ N) {t : ASTGeneral} (ht : t.WellCalled N 0) :
  df.rewrite t = some t
  := by
  induction t with
  | mk n l ih =>
      cases l with
      | nil => rw [rewrite]
      | cons c l =>
          have hne : n ≠ df.name := by
            rintro rfl
            have hlen := ht.length hname
            simp at hlen
          rw [rewrite_mk (rewriteAll_eq_self fun d hd => ih d hd (ht.child hd))]
          apply if_neg hne

end DefinedFunc

end Sygus
