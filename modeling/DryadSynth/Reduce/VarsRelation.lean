import DryadSynth.Library.Merge
import DryadSynth.Reduce.Extractor
import DryadSynth.SSI.Candidates

/-!
# Classes of variables

The variables of an invariant problem fall into classes: two of them are in one class if an atomic
comparison of one of the three conditions mentions both.  A primed variable counts as the variable
it is the copy of.
-/

namespace Sygus.Reduce

open LIA Merge
open SSI (isComparison)

/-- How a constant is printed.  The built-in ones have fixed names, none of which ends in the mark
of primed variables. -/
def constName : Expr → String
  | .var x => x.name
  | .app (.func f) _ => f.name
  | _ => ""

/-- The name ends in the mark of primed variables. -/
def isPrimed (name : String) : Bool := name.toList.getLast? = some '!'

/-- The arguments are looked into: those of an equation between formulas, and those of everything
that is no comparison. -/
def descends (o : Op) (args : List Expr) : Bool :=
  if o = .eq ∧ args.map Expr.sort = [some .bool, some .bool] then true else !isComparison o

section Relation

variable (vars : List Var)

/-- The variable that a constant counts as.  For a primed one it is looked up by the name without
the mark, and `null` if there is none. -/
def unprimed (e : Expr) : Option Expr :=
  if isPrimed (constName e) then (vars.find? fun x => x.name ++ "!" = constName e).map .var
  else some e

/-- The set a comparison adds. -/
def used (expr : Expr) : Finset (Option Expr) := ((scanForVars expr).map (unprimed vars)).toFinset

/-- The loop of `getVarsRelation` over its queue, in at most `n` iterations.  Nothing is done with
constants and numerals. -/
def relationLoop : ℕ → List Expr → Finset (Finset (Option Expr)) →
    Option (Finset (Finset (Option Expr)))
  | 0, _, _ => none
  | _ + 1, [], relation => some relation
  | n + 1, expr :: todo, relation =>
      match expr with
      | .app o (arg :: args) =>
          if descends o (arg :: args) then relationLoop n (todo ++ arg :: args) relation
          else relationLoop n todo (merge relation (used vars expr))
      | _ => relationLoop n todo relation

def getVarsRelation (n : ℕ) (orig : Expr) (relation : Finset (Finset (Option Expr))) :
    Option (Finset (Finset (Option Expr))) :=
  relationLoop vars n [orig] relation

/-- `invVarRelation`, for the conditions of a problem. -/
def invVarRelation (n : ℕ) (pre trans post : Expr) : Option (Finset (Finset (Option Expr))) := do
  let relation ← getVarsRelation vars n pre ∅
  let relation ← getVarsRelation vars n trans relation
  getVarsRelation vars n post relation

end Relation

mutual

/-- The atomic comparisons of a formula: below connectives and equations between formulas. -/
def atoms : Expr → List Expr
  | .app o (e :: args) =>
      if descends o (e :: args) then atoms e ++ atomsAll args else [.app o (e :: args)]
  | _ => []

def atomsAll : List Expr → List Expr
  | [] => []
  | e :: l => atoms e ++ atomsAll l

end

/-- A variable that is not primed. -/
def IsUnprimed (v : Option Expr) : Prop := ∃ x : Var, v = some (.var x) ∧ isPrimed x.name = false

/-- The sets are the classes of unprimed variables that the comparisons ask for, in whatever order
these are visited. -/
structure IsPartition (vars : List Var) (comparisons : List Expr)
    (relation : Finset (Finset (Option Expr))) : Prop where
  disjoint : ∀ s ∈ relation, ∀ t ∈ relation, s ≠ t → Disjoint s t
  nonempty : ∀ s ∈ relation, s.Nonempty
  unprimed : ∀ s ∈ relation, ∀ v ∈ s, IsUnprimed v
  covers : ∀ a ∈ comparisons, ∃ s ∈ relation, used vars a ⊆ s
  order : ∀ l : List Expr, (∀ a, a ∈ l ↔ a ∈ comparisons) →
    (l.map (used vars)).foldl merge ∅ = relation

/-! ### What the loop visits -/

section Loop

variable {vars : List Var} {relation : Finset (Finset (Option Expr))} {a e : Expr}
  {args todo : List Expr} {o : Op}

theorem mem_atomsAll {l : List Expr} :
  a ∈ atomsAll l ↔ ∃ e ∈ l, a ∈ atoms e
  := by
  induction l with
  | nil => simp [atomsAll]
  | cons e l ih => simp [atomsAll, ih]

theorem sizeOf_append (l l' : List Expr) :
  sizeOf (l ++ l') + 1 = sizeOf l + sizeOf l'
  := by
  induction l with
  | nil => rw [List.nil_append, List.nil.sizeOf_spec, Nat.add_comm]
  | cons e l ih =>
      rw [List.cons_append, List.cons.sizeOf_spec, List.cons.sizeOf_spec]
      omega

/-- What the loop merges below a queue, and that it ends. -/
def Merges (vars : List Var) (todo : List Expr) : Prop :=
  ∃ l : List Expr, (∀ a, a ∈ l ↔ a ∈ atomsAll todo) ∧ ∀ relation, ∃ n, ∀ m ≥ n,
    relationLoop vars m todo relation = some ((l.map (used vars)).foldl merge relation)

/-- An iteration that goes on with another queue, of the same comparisons. -/
theorem Merges.skip {todo' : List Expr} (h : Merges vars todo)
    (hloop : ∀ n relation,
      relationLoop vars (n + 1) todo' relation = relationLoop vars n todo relation)
    (hmem : ∀ a, a ∈ atomsAll todo ↔ a ∈ atomsAll todo') :
  Merges vars todo'
  := by
  obtain ⟨l, hl, hends⟩ := h
  refine ⟨l, fun a => (hl a).trans (hmem a), fun relation => ?_⟩
  obtain ⟨n, hn⟩ := hends relation
  use n + 1
  intro m hm
  obtain ⟨k, rfl⟩ := Nat.exists_eq_add_of_le' (Nat.one_le_of_lt hm)
  rw [hloop]
  apply hn k (by omega)

/-- The loop ends, after it has merged the sets of all atomic comparisons below the queue. -/
theorem merges (vars : List Var) (todo : List Expr) :
  Merges vars todo
  := by
  induction hn : sizeOf todo using Nat.strong_induction_on generalizing todo with
  | _ k ih =>
      cases todo with
      | nil =>
          refine ⟨[], fun a => Iff.rfl, fun relation => ⟨1, fun m hm => ?_⟩⟩
          obtain ⟨k, rfl⟩ := Nat.exists_eq_add_of_le' hm
          rfl
      | cons e todo =>
          have htail : Merges vars todo := by
            apply ih (sizeOf todo) _ todo rfl
            rw [← hn, List.cons.sizeOf_spec]
            omega
          match e with
          | .num n => exact htail.skip (fun _ _ => rfl) fun a => by simp [atomsAll, atoms]
          | .var x => exact htail.skip (fun _ _ => rfl) fun a => by simp [atomsAll, atoms]
          | .app o [] => exact htail.skip (fun _ _ => rfl) fun a => by simp [atomsAll, atoms]
          | .app o (arg :: args) =>
              by_cases hdescends : descends o (arg :: args) = true
              · have hargs : Merges vars (todo ++ arg :: args) := by
                  apply ih (sizeOf (todo ++ arg :: args)) _ _ rfl
                  have happend := sizeOf_append todo (arg :: args)
                  rw [← hn, List.cons.sizeOf_spec, Expr.app.sizeOf_spec]
                  omega
                apply hargs.skip
                · intro n relation
                  rw [relationLoop]
                  apply if_pos hdescends
                · intro a
                  rw [atomsAll, atoms, if_pos hdescends, ← atomsAll]
                  simp only [List.mem_append, mem_atomsAll, or_and_right, exists_or]
                  apply or_comm
              · obtain ⟨l, hl, hends⟩ := htail
                refine ⟨.app o (arg :: args) :: l, ?_, fun relation => ?_⟩
                · intro a
                  rw [atomsAll, atoms, if_neg hdescends, List.mem_cons, List.mem_append,
                    List.mem_singleton, hl]
                · obtain ⟨n, hn⟩ := hends (merge relation (used vars (.app o (arg :: args))))
                  use n + 1
                  intro m hm
                  obtain ⟨k, rfl⟩ := Nat.exists_eq_add_of_le' (Nat.one_le_of_lt hm)
                  rw [relationLoop, if_neg hdescends, hn k (by omega)]
                  rfl

/-- `invVarRelation` ends, after it has merged the sets of the comparisons of all conditions. -/
theorem exists_invVarRelation (vars : List Var) (pre trans post : Expr) :
  ∃ l : List Expr, (∀ a, a ∈ l ↔ a ∈ atomsAll [pre, trans, post]) ∧ ∃ n, ∀ m ≥ n,
    invVarRelation vars m pre trans post = some ((l.map (used vars)).foldl merge ∅)
  := by
  obtain ⟨l₁, hl₁, h₁⟩ := merges vars [pre]
  obtain ⟨l₂, hl₂, h₂⟩ := merges vars [trans]
  obtain ⟨l₃, hl₃, h₃⟩ := merges vars [post]
  refine ⟨l₁ ++ l₂ ++ l₃, ?_, ?_⟩
  · intro a
    rw [List.mem_append, List.mem_append, hl₁, hl₂, hl₃]
    simp only [mem_atomsAll, List.mem_cons, List.not_mem_nil, or_false, exists_eq_left,
      exists_eq_or_imp, or_assoc]
  · obtain ⟨n₁, hn₁⟩ := h₁ ∅
    obtain ⟨n₂, hn₂⟩ := h₂ ((l₁.map (used vars)).foldl merge ∅)
    obtain ⟨n₃, hn₃⟩ := h₃ (((l₁ ++ l₂).map (used vars)).foldl merge ∅)
    use max n₁ (max n₂ n₃)
    intro m hm
    have h₁' := hn₁ m (le_trans (le_max_left _ _) hm)
    have h₂' := hn₂ m (le_trans ((le_max_left _ _).trans (le_max_right _ _)) hm)
    have h₃' := hn₃ m (le_trans ((le_max_right _ _).trans (le_max_right _ _)) hm)
    rw [invVarRelation, getVarsRelation, h₁', Option.bind_eq_bind, Option.bind_some,
      getVarsRelation, h₂', Option.bind_some, ← List.foldl_append, ← List.map_append,
      getVarsRelation, h₃', ← List.foldl_append, ← List.map_append]

end Loop

/-! ### The partition -/

section Partition

variable {vars : List Var} {l comparisons : List Expr} {relation : Finset (Finset (Option Expr))}

theorem mem_used {v : Option Expr} {a : Expr} :
  v ∈ used vars a ↔ ∃ e ∈ scanForVars a, Reduce.unprimed vars e = v
  := by rw [used, List.mem_toFinset, List.mem_map]

theorem used_eq_empty {a : Expr} :
  used vars a = ∅ ↔ scanForVars a = []
  := by rw [used, List.toFinset_eq_empty_iff, List.map_eq_nil_iff]

/-- The classes are a partition of unprimed variables just if every comparison mentions constants
and all of these count as unprimed variables. -/
theorem isPartition_iff (hrelation : (l.map (used vars)).foldl merge ∅ = relation)
    (hl : ∀ a, a ∈ l ↔ a ∈ comparisons) :
  IsPartition vars comparisons relation
    ↔ ∀ a ∈ comparisons, scanForVars a ≠ [] ∧
      ∀ e ∈ scanForVars a, IsUnprimed (Reduce.unprimed vars e)
  := by
  have hclasses := classes_foldl (l.map (used vars))
  rw [hrelation] at hclasses
  constructor
  · intro h a ha
    obtain ⟨s, hs, hsub⟩ := h.covers a ha
    constructor
    · intro hnil
      have hempty : ∅ ∈ relation := by
        rw [hclasses.empty, List.mem_map]
        exact ⟨a, (hl a).mpr ha, used_eq_empty.mpr hnil⟩
      apply Finset.not_nonempty_empty (h.nonempty ∅ hempty)
    · intro e he
      apply h.unprimed s hs _ (hsub (mem_used.mpr ⟨e, he, rfl⟩))
  · intro h
    refine ⟨hclasses.disjoint, ?_, ?_, ?_, ?_⟩
    · intro s hs
      rw [Finset.nonempty_iff_ne_empty]
      rintro rfl
      obtain ⟨a, ha, hempty⟩ := List.mem_map.mp (hclasses.empty.mp hs)
      apply (h a ((hl a).mp ha)).1 (used_eq_empty.mp hempty)
    · intro s hs v hv
      obtain ⟨u, hu, hvu⟩ := hclasses.exists_mem hs hv
      obtain ⟨a, ha, rfl⟩ := List.mem_map.mp hu
      obtain ⟨e, he, rfl⟩ := mem_used.mp hvu
      apply (h a ((hl a).mp ha)).2 e he
    · intro a ha
      apply hclasses.covers _ (List.mem_map_of_mem ((hl a).mpr ha))
    · intro l' hl'
      apply (classes_foldl (l'.map (used vars))).eq hclasses
      intro u
      simp only [List.mem_map, hl', hl]

/-- `invVarRelation` ends, for every order of the three conditions with the same disjoint sets, one
of which has the variables of each comparison.  They are a partition of unprimed variables just
if every comparison mentions constants and all of these count as unprimed variables. -/
theorem invVarRelation_partition_iff (vars : List Var) (pre trans post : Expr) :
  ∃ relation,
    (∀ p q r, [p, q, r].Perm [pre, trans, post] →
      ∃ n, ∀ m ≥ n, invVarRelation vars m p q r = some relation)
    ∧ (∀ s ∈ relation, ∀ t ∈ relation, s ≠ t → Disjoint s t)
    ∧ (∀ a ∈ atomsAll [pre, trans, post], ∃ s ∈ relation, used vars a ⊆ s)
    ∧ (IsPartition vars (atomsAll [pre, trans, post]) relation
      ↔ ∀ a ∈ atomsAll [pre, trans, post], scanForVars a ≠ [] ∧
        ∀ e ∈ scanForVars a, IsUnprimed (Reduce.unprimed vars e))
  := by
  obtain ⟨l, hl, n, hn⟩ := exists_invVarRelation vars pre trans post
  have hclasses := classes_foldl (l.map (used vars))
  refine ⟨_, ?_, hclasses.disjoint, ?_, isPartition_iff rfl hl⟩
  · intro p q r hperm
    obtain ⟨l', hl', n', hn'⟩ := exists_invVarRelation vars p q r
    use n'
    intro m hm
    rw [hn' m hm]
    congr 1
    apply (classes_foldl (l'.map (used vars))).eq hclasses
    intro u
    simp only [List.mem_map, hl', hl, mem_atomsAll, hperm.mem_iff]
  · intro a ha
    apply hclasses.covers _ (List.mem_map_of_mem ((hl a).mpr ha))

end Partition

/-! ### Two problems -/

/-- The variables of two counters. -/
def counterVars : List Var := [⟨"x", .int⟩, ⟨"y", .int⟩, ⟨"x!", .int⟩, ⟨"y!", .int⟩]

/-- A counter goes up, or both have the same value. -/
def counterTrans : Expr :=
  .or [.gt (.var ⟨"x!", .int⟩) (.var ⟨"x", .int⟩), .eq (.var ⟨"x", .int⟩) (.var ⟨"y", .int⟩)]

/-- A comparison of two numbers. -/
def trivialPre : Expr := .ge (.num 1) (.num 0)

theorem invVarRelation_partition_iff_counters :
  ∃ relation,
    (∃ n, ∀ m ≥ n, invVarRelation counterVars m .tru .tru counterTrans = some relation)
    ∧ (∀ s ∈ relation, ∀ t ∈ relation, s ≠ t → Disjoint s t)
    ∧ (∀ a ∈ atomsAll [.tru, counterTrans, .tru], ∃ s ∈ relation, used counterVars a ⊆ s)
    ∧ (IsPartition counterVars (atomsAll [.tru, counterTrans, .tru]) relation
      ↔ ∀ a ∈ atomsAll [.tru, counterTrans, .tru], scanForVars a ≠ [] ∧
        ∀ e ∈ scanForVars a, IsUnprimed (unprimed counterVars e))
  := by
  obtain ⟨relation, hends, h⟩ := invVarRelation_partition_iff counterVars .tru counterTrans .tru
  exact ⟨relation, hends .tru .tru counterTrans (by decide), h⟩

example :
  invVarRelation counterVars 6 .tru counterTrans .tru
    = some {{some (.var ⟨"x", .int⟩), some (.var ⟨"y", .int⟩)}}
  := by decide

/-- A comparison without variables adds an empty set. -/
theorem invVarRelation_trivialPre :
  ∃ relation, (∃ n, ∀ m ≥ n, invVarRelation counterVars m trivialPre .tru .tru = some relation)
    ∧ ∅ ∈ relation
    ∧ ¬IsPartition counterVars (atomsAll [trivialPre, .tru, .tru]) relation
  := by
  obtain ⟨l, hl, hends⟩ := exists_invVarRelation counterVars trivialPre .tru .tru
  have hempty : ∅ ∈ (l.map (used counterVars)).foldl merge ∅ := by
    rw [(classes_foldl _).empty, List.mem_map]
    exact ⟨trivialPre, (hl trivialPre).mpr (by decide), by decide⟩
  exact ⟨_, hends, hempty, fun h => Finset.not_nonempty_empty (h.nonempty ∅ hempty)⟩

end Sygus.Reduce
