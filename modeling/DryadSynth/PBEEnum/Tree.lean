import DryadSynth.PBEEnum.Solver

/-!
# The tree of conditionals

`generateResult` puts the expressions of the covered classes together to a tree.  At each node the
classes are parted by the next condition, until one is left.  Two covered classes answer some
condition differently that both were asked, so the tree tells them apart, and an example reaches
the expression of its own class, whose value the solver gives to the tree (`result_spec`).
-/

namespace DryadSynth

open QFBV (Term Interpretation denote)
open Splitting (Part Splits Apart Follows)
open Exits (Ends)

open TermEquality

namespace PBEEnumSize

variable (p : PBEEnumSize) (selected : List (Fin p.input.length))

/-- The solver gives a term the expected output of an example. -/
def Solves (U : Interpretation 64) (t : Term 64) (i : ℕ) : Prop :=
  ∃ args z, (p.sampleInput selected)[i]? = some args ∧ denote U (p.inputs args) t = some z ∧
    (p.sampleOutput selected)[i]? = some (toUnsignedString (longValue z))

/-- The example has been asked the conditions of a path, and has answered so. -/
structure Reaches (conditions : List (Term 64)) (i : ℕ) (path : List ℕ) : Prop where
  follows : Follows (p.answer selected conditions) i path
  evaluated : ∀ j < path.length, ∃ cond,
    conditions[2 * j]? = some cond ∧ p.Evaluated selected cond i

/-- Paths that are told apart by their answers from the `k`-th one on. -/
structure Family (conditions : List (Term 64)) (k : ℕ) (l : List (List ℕ × Term 64)) : Prop where
  apart : l.Pairwise fun e e' => Apart e.1 e'.1
  common : ∃ path, path.length = k ∧ ∀ e ∈ l, path <+: e.1
  indexed : ∀ e ∈ l, ∀ j x, e.1[j]? = some x → x = 2 * j ∨ x = 2 * j + 1
  short : ∀ e ∈ l, 2 * e.1.length ≤ conditions.length

variable {p selected} {U : Interpretation 64} {rank : String → ℕ}

/-! ### One node -/

theorem dispatch_branchCombinator (cond e e' : Term 64) :
  ∃ t, p.opDis.dispatch p.branchCombinator.termSyb [cond, e, e'] true true = .ok t
  := by
  have hmem := List.mem_of_mem_head? p.branchCombinator_eq
  rw [List.mem_filter, decide_eq_true_iff] at hmem
  have hbranch := hmem.2.2
  rw [OpDispatcher.dispatch]
  split
  next =>
      rw [OpDispatcher.operatorTerm]
      split
      · exact ⟨_, rfl⟩
      · split
        · exact ⟨_, rfl⟩
        · split
          · exact ⟨_, rfl⟩
          · exact ⟨_, rfl⟩
  next hname =>
      cases hfuncs : p.opDis.funcs p.branchCombinator.termSyb with
      | some df => exact ⟨_, rfl⟩
      | none =>
          rw [OpDispatcher.isBranchCombinator, hfuncs] at hbranch
          obtain ⟨hite, -⟩ := of_decide_eq_true hbranch
          rw [hite] at hname
          exact absurd (by decide) hname

section Node

variable {conditions : List (Term 64)} {k : ℕ} {l : List (List ℕ × Term 64)}

theorem mem_selectConds {index : ℕ} {e : List ℕ × Term 64} :
  e ∈ selectConds index l ↔ e ∈ l ∧ index ∈ e.1
  := by
  rw [selectConds, List.mem_filter, decide_eq_true_iff]

/-- An index is in a path at its own place only. -/
theorem Family.mem_path_iff (h : Family conditions k l) {e : List ℕ × Term 64}
    (he : e ∈ l) {b : ℕ} (hb : b < 2) (j : ℕ) :
  j * 2 + b ∈ e.1 ↔ e.1[j]? = some (2 * j + b)
  := by
  constructor
  · intro hmem
    obtain ⟨j', hj'⟩ := List.mem_iff_getElem?.mp hmem
    have := h.indexed e he j' _ hj'
    obtain rfl : j' = j := by omega
    rw [hj']
    congr 1
    omega
  · intro hget
    have := List.mem_of_getElem? hget
    rwa [Nat.mul_comm]

/-- The paths that take one branch at the next condition. -/
theorem Family.select (h : Family conditions k l) {b : ℕ} (hb : b < 2) :
  Family conditions (k + 1) (selectConds (k * 2 + b) l)
  where
  apart := h.apart.filter _
  common := by
    obtain ⟨path, rfl, hpre⟩ := h.common
    refine ⟨path ++ [2 * path.length + b], by simp, ?_⟩
    intro e he
    obtain ⟨he, hmem⟩ := mem_selectConds.mp he
    obtain ⟨rest, hrest⟩ := hpre e he
    rw [h.mem_path_iff he hb, ← hrest, List.getElem?_append_right (le_refl _), Nat.sub_self] at hmem
    cases rest with
    | nil => cases hmem
    | cons x rest =>
        cases hmem
        refine ⟨rest, ?_⟩
        rw [← hrest, List.append_assoc]
        rfl
  indexed e he := h.indexed e (mem_selectConds.mp he).1
  short e he := h.short e (mem_selectConds.mp he).1

/-- A path among others goes on. -/
theorem Family.lt_length (h : Family conditions k l) (hl : 2 ≤ l.length)
    {e : List ℕ × Term 64} (he : e ∈ l) :
  k < e.1.length
  := by
  obtain ⟨path, rfl, hpre⟩ := h.common
  obtain ⟨e', he', hapart⟩ : ∃ e' ∈ l, Apart e.1 e'.1 := by
    rcases l with _ | ⟨a, _ | ⟨b, l⟩⟩
    · cases he
    · simp at hl
    · have hall := (List.pairwise_cons.mp h.apart).1
      rcases List.mem_cons.mp he with rfl | he
      · exact ⟨b, List.mem_cons_of_mem _ List.mem_cons_self, hall b List.mem_cons_self⟩
      · exact ⟨a, List.mem_cons_self, (hall e he).symm⟩
  obtain ⟨r, hr⟩ := hpre e he
  obtain ⟨r', hr'⟩ := hpre e' he'
  rw [← hr, ← hr', Splitting.apart_append_left] at hapart
  have := List.length_pos_iff.mpr hapart.ne_nil
  rw [← hr, List.length_append]
  omega

theorem Family.answered (h : Family conditions k l) {e : List ℕ × Term 64} (he : e ∈ l)
    (hlt : k < e.1.length) :
  e ∈ selectConds (k * 2) l ∨ e ∈ selectConds (k * 2 + 1) l
  := by
  have hget := List.getElem?_eq_getElem hlt
  rcases h.indexed e he k _ hget with hx | hx
  · left
    rw [hx] at hget
    exact mem_selectConds.mpr ⟨he, (h.mem_path_iff (b := 0) he (by decide) k).mpr hget⟩
  · right
    rw [hx] at hget
    exact mem_selectConds.mpr ⟨he, (h.mem_path_iff he (by decide) k).mpr hget⟩

/-- What an example on a path answers to the condition of the node. -/
theorem Reaches.answer_eq {i : ℕ} {path : List ℕ} (h : p.Reaches selected conditions i path)
    {cond : Term 64} (hcond : conditions[2 * k]? = some cond) {x : ℕ}
    (hx : path[k]? = some x) :
  (x = 2 * k → p.IsTrue selected cond i) ∧ (x = 2 * k + 1 → ¬ p.IsTrue selected cond i) ∧
    p.Evaluated selected cond i
  := by
  have hlt := (List.getElem?_eq_some_iff.mp hx).1
  have hanswer := h.follows.getElem? hlt
  rw [hx, Option.some.injEq, answer, hcond] at hanswer
  obtain ⟨cond', hcond', hevaluated⟩ := h.evaluated k hlt
  rw [hcond] at hcond'
  cases hcond'
  refine ⟨?_, ?_, hevaluated⟩
  · intro htrue
    by_contra hnot
    rw [if_neg (by simpa using hnot)] at hanswer
    omega
  · intro hfalse htrue
    rw [if_pos ⟨cond, rfl, htrue⟩] at hanswer
    omega

/-- An example takes the branch of its path. -/
theorem Family.mem_of_reaches (h : Family conditions k l) {e : List ℕ × Term 64} (he : e ∈ l)
    (hlt : k < e.1.length) {cond : Term 64} (hcond : conditions[2 * k]? = some cond) {i : ℕ}
    (hreaches : p.Reaches selected conditions i e.1) :
  (p.IsTrue selected cond i → e ∈ selectConds (k * 2) l) ∧
    (¬ p.IsTrue selected cond i → e ∈ selectConds (k * 2 + 1) l)
  := by
  constructor
  · intro htrue
    apply (h.answered he hlt).resolve_right
    intro hmem
    have hx := (h.mem_path_iff he (by decide) k).mp (mem_selectConds.mp hmem).2
    apply (hreaches.answer_eq hcond hx).2.1 rfl htrue
  · intro hfalse
    apply (h.answered he hlt).resolve_left
    intro hmem
    have hx := (h.mem_path_iff (b := 0) he (by decide) k).mp (mem_selectConds.mp hmem).2
    apply hfalse ((hreaches.answer_eq hcond hx).1 rfl)

/-- The conditions are expressions of the first argument of the branch combinator. -/
def Conditions (p : PBEEnumSize) (conditions : List (Term 64)) : Prop :=
  ∀ cond ∈ conditions, ∃ nt ∈ p.branchCombinator.args.head?, p.Derives nt cond

theorem derives_select {index : ℕ} (h : ∀ e ∈ l, p.Derives p.start e.2) :
  ∀ e ∈ selectConds index l, p.Derives p.start e.2
  := by
  intro e he
  apply h e (mem_selectConds.mp he).1

/-- What the tree of a family of expressions does: an example that is on the path of one of them
has its value. -/
structure Decides (p : PBEEnumSize) (selected : List (Fin p.input.length)) (U : Interpretation 64)
    (conditions : List (Term 64)) (l : List (List ℕ × Term 64)) (t : Term 64) : Prop where
  derives : p.Derives p.start t
  evaluates : ∀ e ∈ l, ∀ i args, (p.sampleInput selected)[i]? = some args →
    p.Reaches selected conditions i e.1 → denote U (p.inputs args) t = denote U (p.inputs args) e.2

/-- The tree of a family, or nothing for no paths. -/
def Decided (p : PBEEnumSize) (selected : List (Fin p.input.length)) (U : Interpretation 64)
    (conditions : List (Term 64)) (l : List (List ℕ × Term 64)) (operand : Option (Term 64)) :
    Prop :=
  (l = [] ∧ operand = none) ∨ ∃ t, operand = some t ∧ p.Decides selected U conditions l t

/-- The conditional of a condition and two expressions of the start symbol. -/
theorem derives_branch {cond e e' t : Term 64}
    (ht : p.opDis.dispatch p.branchCombinator.termSyb [cond, e, e'] true true = .ok t)
    (htail : p.branchCombinator.args.tail = [p.start, p.start])
    (hcond : ∃ nt ∈ p.branchCombinator.args.head?, p.Derives nt cond)
    (he : p.Derives p.start e) (he' : p.Derives p.start e') :
  p.Derives p.start t
  := by
  have hmem := List.mem_of_mem_head? p.branchCombinator_eq
  rw [List.mem_filter, decide_eq_true_iff] at hmem
  obtain ⟨nt, hnt, hcond⟩ := hcond
  have hargs : p.branchCombinator.args = [nt, p.start, p.start] := by
    rw [← htail]
    exact List.eq_cons_of_mem_head? hnt
  refine .node hmem.1 hmem.2.1 (by rw [hargs]; rfl) ?_ ht
  rw [hargs]
  intro q hq
  simp only [List.zip_cons_cons, List.zip_nil_right, List.mem_cons, List.not_mem_nil,
    or_false] at hq
  rcases hq with rfl | rfl | rfl
  · exact hcond
  · exact he
  · exact he'

theorem mem_input {i : ℕ} {args : List (BitVec 64)}
    (hargs : (p.sampleInput selected)[i]? = some args) :
  args ∈ p.input
  := by
  obtain ⟨j, -, rfl⟩ := List.mem_map.mp (List.mem_of_getElem? hargs)
  exact List.get_mem p.input j

theorem Computes.value_eq {e : Term 64} {i : ℕ} {v : BitVec 64}
    (h : p.Computes selected e i v) {args : List (BitVec 64)}
    (hargs : (p.sampleInput selected)[i]? = some args) :
  p.value args e = .ok (some v)
  := by
  obtain ⟨args', hargs', hv⟩ := h
  rw [hargs] at hargs'
  cases hargs'
  exact hv

/-- The conditional has the value of the branch that an example takes. -/
theorem Interpreted.denote_dispatch (hU : p.Interpreted U rank) {cond e e' t : Term 64}
    (ht : p.opDis.dispatch p.branchCombinator.termSyb [cond, e, e'] true true = .ok t)
    (hcond : ∃ nt ∈ p.branchCombinator.args.head?, p.Derives nt cond)
    (he : p.Derives p.start e) (he' : p.Derives p.start e') {i : ℕ} {args : List (BitVec 64)}
    (hargs : (p.sampleInput selected)[i]? = some args) (hevaluated : p.Evaluated selected cond i) :
  (p.IsTrue selected cond i → denote U (p.inputs args) t = denote U (p.inputs args) e) ∧
    (¬ p.IsTrue selected cond i → denote U (p.inputs args) t = denote U (p.inputs args) e')
  := by
  have hmem := mem_input hargs
  have hd := derives_branch ht hU.branches hcond he he'
  obtain ⟨nt, -, hcond⟩ := hcond
  obtain ⟨v, w, hv, hw⟩ := hevaluated
  obtain ⟨c, hc, rfl⟩ := hU.exists_denote hcond hmem (hv.value_eq hargs)
  obtain ⟨y, hy⟩ := hU.sorted _ _ he args hmem
  obtain ⟨y', hy'⟩ := hU.sorted _ _ he' args hmem
  rw [hU.denote_branch hd ht hmem hc hy hy' hw, hy, hy']
  constructor
  · rintro ⟨v', hv', htrue⟩
    obtain rfl := hv.unique hv'
    rw [hw] at htrue
    cases htrue
    rw [if_pos rfl]
  · intro hfalse
    rw [if_neg]
    rintro rfl
    exact hfalse ⟨_, hv, hw⟩

/-- The trees for the two branches of a condition, under a conditional. -/
theorem decides_dispatch (hU : p.Interpreted U rank) (h : Family conditions k l)
    (hconds : Conditions p conditions)
    (hanswered : ∀ e ∈ l, e ∈ selectConds (k * 2) l ∨ e ∈ selectConds (k * 2 + 1) l)
    {cond t1 t2 t : Term 64} (hcond : conditions[2 * k]? = some cond)
    (h1 : p.Decides selected U conditions (selectConds (k * 2) l) t1)
    (h2 : p.Decides selected U conditions (selectConds (k * 2 + 1) l) t2)
    (ht : p.opDis.dispatch p.branchCombinator.termSyb [cond, t1, t2] true true = .ok t) :
  p.Decides selected U conditions l t
  where
  derives := derives_branch ht hU.branches (hconds cond (List.mem_of_getElem? hcond)) h1.derives
    h2.derives
  evaluates := by
    intro e he i args hargs hreaches
    have hd := hconds cond (List.mem_of_getElem? hcond)
    rcases hanswered e he with hmem | hmem
    · have hx := (h.mem_path_iff (b := 0) he (by decide) k).mp (mem_selectConds.mp hmem).2
      obtain ⟨htrue, -, hevaluated⟩ := hreaches.answer_eq hcond hx
      rw [(hU.denote_dispatch ht hd h1.derives h2.derives hargs hevaluated).1 (htrue rfl)]
      apply h1.evaluates e hmem i args hargs hreaches
    · have hx := (h.mem_path_iff he (by decide) k).mp (mem_selectConds.mp hmem).2
      obtain ⟨-, hfalse, hevaluated⟩ := hreaches.answer_eq hcond hx
      rw [(hU.denote_dispatch ht hd h1.derives h2.derives hargs hevaluated).2 (hfalse rfl)]
      apply h2.evaluates e hmem i args hargs hreaches

/-- All paths take one branch. -/
theorem Decides.of_select {index : ℕ} {t : Term 64}
    (h : p.Decides selected U conditions (selectConds index l) t)
    (hall : ∀ e ∈ l, e ∈ selectConds index l) :
  p.Decides selected U conditions l t
  where
  derives := h.derives
  evaluates e he := h.evaluates e (hall e he)

/-- The tree of a node from those of its branches, of which one may be missing. -/
theorem decides_branch (hU : p.Interpreted U rank) (h : Family conditions k l)
    (hconds : Conditions p conditions) (hne : l ≠ [])
    (hanswered : ∀ e ∈ l, e ∈ selectConds (k * 2) l ∨ e ∈ selectConds (k * 2 + 1) l)
    {cond : Term 64} (hcond : conditions[2 * k]? = some cond) {operand1 operand2 : Option (Term 64)}
    (h1 : Decided p selected U conditions (selectConds (k * 2) l) operand1)
    (h2 : Decided p selected U conditions (selectConds (k * 2 + 1) l) operand2) :
  ∃ t, p.branch cond operand1 operand2 = some (some t) ∧ p.Decides selected U conditions l t
  := by
  have hempty1 : selectConds (k * 2) l = [] → ∀ e ∈ l, e ∈ selectConds (k * 2 + 1) l := by
    intro hnil e he
    apply (hanswered e he).resolve_left
    rw [hnil]
    apply List.not_mem_nil
  have hempty2 : selectConds (k * 2 + 1) l = [] → ∀ e ∈ l, e ∈ selectConds (k * 2) l := by
    intro hnil e he
    apply (hanswered e he).resolve_right
    rw [hnil]
    apply List.not_mem_nil
  rcases h1 with ⟨hnil1, rfl⟩ | ⟨t1, rfl, hd1⟩
  · rcases h2 with ⟨hnil2, rfl⟩ | ⟨t2, rfl, hd2⟩
    · obtain ⟨e, he⟩ := List.exists_mem_of_ne_nil l hne
      have hmem := hempty1 hnil1 e he
      rw [hnil2] at hmem
      cases hmem
    · exact ⟨t2, rfl, hd2.of_select (hempty1 hnil1)⟩
  · rcases h2 with ⟨hnil2, rfl⟩ | ⟨t2, rfl, hd2⟩
    · exact ⟨t1, rfl, hd1.of_select (hempty2 hnil2)⟩
    · by_cases heq : t1 = t2
      · subst heq
        refine ⟨t1, by rw [branch, if_pos rfl], hd1.derives, ?_⟩
        intro e he
        rcases hanswered e he with hmem | hmem
        · apply hd1.evaluates e hmem
        · apply hd2.evaluates e hmem
      · obtain ⟨t, ht⟩ := dispatch_branchCombinator (p := p) cond t1 t2
        refine ⟨t, by rw [branch, if_neg heq, ht], ?_⟩
        exact decides_dispatch hU h hconds hanswered hcond hd1 hd2 ht

/-- `construct` decides between the classes, and gives nothing if there are none. -/
theorem construct_spec (hU : p.Interpreted U rank) {n : ℕ} (h : Family conditions k l)
    (hconds : Conditions p conditions) (hl : ∀ e ∈ l, p.Derives p.start e.2)
    (hn : conditions.length < 2 * (k + n)) (hn' : 1 ≤ n) :
  ∃ operand, p.construct conditions n k l = some operand ∧
    Decided p selected U conditions l operand
  := by
  induction n generalizing k l with
  | zero => omega
  | succ n ih =>
      rcases l with _ | ⟨a, _ | ⟨b, l⟩⟩
      · exact ⟨none, rfl, .inl ⟨rfl, rfl⟩⟩
      · refine ⟨some a.2, rfl, .inr ⟨a.2, rfl, hl a (List.mem_singleton_self a), ?_⟩⟩
        intro e he i args _ _
        rw [List.mem_singleton] at he
        rw [he]
      · have hlen : 2 ≤ (a :: b :: l).length := by simp
        have hlt := h.lt_length hlen List.mem_cons_self
        have hshort := h.short a List.mem_cons_self
        have hanswered := fun e (he : e ∈ a :: b :: l) => h.answered he (h.lt_length hlen he)
        have hnil : ¬ (selectConds (k * 2) (a :: b :: l) = [] ∧
            selectConds (k * 2 + 1) (a :: b :: l) = []) := by
          rintro ⟨hnil1, hnil2⟩
          rcases hanswered a List.mem_cons_self with hmem | hmem
          · rw [hnil1] at hmem
            cases hmem
          · rw [hnil2] at hmem
            cases hmem
        obtain ⟨cond, hcond⟩ : ∃ cond, conditions[2 * k]? = some cond :=
          ⟨_, List.getElem?_eq_getElem (by omega)⟩
        obtain ⟨operand1, hoperand1, h1⟩ := ih (h.select (b := 0) (by decide)) (derives_select hl)
          (by omega) (by omega)
        obtain ⟨operand2, hoperand2, h2⟩ := ih (h.select (b := 1) (by decide)) (derives_select hl)
          (by omega) (by omega)
        obtain ⟨t, ht, hd⟩ := decides_branch hU h hconds (by simp) hanswered hcond h1 h2
        refine ⟨some t, ?_, .inr ⟨t, rfl, hd⟩⟩
        rw [Nat.add_zero (k * 2)] at hoperand1
        rw [construct, if_neg hnil, hoperand1, hoperand2, Nat.mul_comm k 2, hcond]
        · exact ht
        · simp
        · simp

theorem Family.exists_construct (hU : p.Interpreted U rank) {n : ℕ} (h : Family conditions k l)
    (hconds : Conditions p conditions) (hl : ∀ e ∈ l, p.Derives p.start e.2)
    (hn : conditions.length < 2 * (k + n)) (hn' : 1 ≤ n) (hne : l ≠ []) :
  ∃ t, p.construct conditions n k l = some (some t) ∧ p.Decides selected U conditions l t
  := by
  obtain ⟨operand, hoperand, ⟨hnil, -⟩ | ⟨t, rfl, hd⟩⟩ := construct_spec hU h hconds hl hn hn'
  · exact absurd hnil hne
  · exact ⟨t, hoperand, hd⟩

end Node

/-! ### The expressions of the classes -/

theorem mem_put {κ α : Type} [DecidableEq κ] {m : List (κ × α)} {k : κ} {a : α} {e : κ × α}
    (he : e ∈ put m k a) :
  e = (k, a) ∨ e ∈ m
  := by
  rw [put] at he
  split at he
  next =>
      obtain ⟨e', he', heq⟩ := List.mem_map.mp he
      split at heq
      · exact .inl heq.symm
      · rw [← heq]
        exact .inr he'
  next =>
      rcases List.mem_append.mp he with he | he
      · exact .inr he
      · exact .inl (List.mem_singleton.mp he)

theorem keys_put {κ α : Type} [DecidableEq κ] (m : List (κ × α)) (k : κ) (a : α) :
  (put m k a).map Prod.fst
    = if k ∈ m.map Prod.fst then m.map Prod.fst else m.map Prod.fst ++ [k]
  := by
  rw [put]
  split
  next =>
      rw [List.map_map]
      apply List.map_congr_left
      intro e _
      dsimp only [Function.comp_apply]
      split
      next heq => exact heq.symm
      next => rfl
  next =>
      rw [List.map_append]
      rfl

theorem mem_keys_put {κ α : Type} [DecidableEq κ] {m : List (κ × α)} {k k' : κ} {a : α} :
  k' ∈ (put m k a).map Prod.fst ↔ k' = k ∨ k' ∈ m.map Prod.fst
  := by
  rw [keys_put]
  split
  next hk =>
      constructor
      · exact .inr
      · rintro (rfl | hk')
        · exact hk
        · exact hk'
  next =>
      rw [List.mem_append, List.mem_singleton]
      exact or_comm

section Preprocess

variable {st : State} {l : List (List ℕ × Term 64)}

/-- Expressions for some covered classes, which are right on their examples. -/
structure Assigned (p : PBEEnumSize) (selected : List (Fin p.input.length)) (st : State)
    (l : List (List ℕ × Term 64)) : Prop where
  nodup : (l.map Prod.fst).Nodup
  right : ∀ e ∈ l, e.2 ∈ st.coveredExpr ∧ ∃ P ∈ st.coveredEquivClasses,
    P.path = e.1 ∧ ∀ i ∈ P.members, p.Right selected e.2 i

theorem Assigned.put (h : Assigned p selected st l)
    {P : Part ℕ ℕ} (hP : P ∈ st.coveredEquivClasses) {e : Term 64} (he : e ∈ st.coveredExpr)
    (hright : ∀ i ∈ P.members, p.Right selected e i) :
  Assigned p selected st (put l P.path e)
  where
  nodup := by
    rw [keys_put]
    split
    next => exact h.nodup
    next hnot =>
        rw [List.nodup_append]
        refine ⟨h.nodup, List.nodup_singleton _, ?_⟩
        intro k hk k' hk' heq
        rw [List.mem_singleton] at hk'
        apply hnot
        rwa [← hk', ← heq]
  right := by
    intro e' he'
    rcases mem_put he' with rfl | he'
    · exact ⟨he, P, hP, rfl, hright⟩
    · apply h.right e' he'

/-- The body of the inner loop of `preprocessResult`. -/
def assign (st : State) (ec : Part ℕ ℕ) (ecConds2Expr : List (List ℕ × Term 64))
    (c : ℕ × List ℕ) : List (List ℕ × Term 64) :=
  match st.coveredExpr[c.1]? with
  | some expr =>
      if ec.members ⊆ c.2 then PBEEnumSize.put ecConds2Expr ec.path expr else ecConds2Expr
  | none => ecConds2Expr

/-- A covered class gets an expression from one of the records. -/
theorem assign_spec (h : p.Good selected st) (hl : Assigned p selected st l) {P : Part ℕ ℕ}
    (hP : P ∈ st.coveredEquivClasses) :
  let l' := (p.arrange st.covered).foldl (assign st P) l
  (Assigned p selected st l' ∧ l.map Prod.fst ⊆ l'.map Prod.fst) ∧
    (∀ c ∈ p.arrange st.covered, P.members ⊆ c.2 → P.path ∈ l'.map Prod.fst) ∧
    ∀ c : ℕ × List ℕ, (P.members ⊆ c.2 → P.path ∈ l.map Prod.fst) →
      P.members ⊆ c.2 → P.path ∈ l'.map Prod.fst
  := by
  apply Lists.foldl_achieves (l := p.arrange st.covered)
    (I := fun l' => Assigned p selected st l' ∧ l.map Prod.fst ⊆ l'.map Prod.fst)
    (D := fun c l' => P.members ⊆ c.2 → P.path ∈ l'.map Prod.fst) ⟨hl, List.Subset.refl _⟩
  rintro l' ⟨hl', hkeys⟩ c hc
  obtain ⟨e, he, hright⟩ := h.records.right c ((p.perm st.covered).mem_iff.mp hc)
  rw [assign, he]
  dsimp only
  split
  next hsub =>
      have hput : ∀ k ∈ l'.map Prod.fst, k ∈ (PBEEnumSize.put l' P.path e).map Prod.fst := by
        intro k hk
        exact mem_keys_put.mpr (.inr hk)
      refine ⟨⟨?_, fun k hk => hput k (hkeys hk)⟩, fun _ => mem_keys_put.mpr (.inl rfl), ?_⟩
      · apply hl'.put hP (List.mem_of_getElem? he)
        intro i hi
        apply (hright i (hsub hi)).2
      · intro c' hc' hsub'
        apply hput _ (hc' hsub')
  next hsub => exact ⟨⟨hl', hkeys⟩, fun hsub' => absurd hsub' hsub, fun _ hc' => hc'⟩

theorem preprocessResult_spec (h : p.Good selected st) :
  Assigned p selected st (p.preprocessResult st) ∧
    ∀ P ∈ st.coveredEquivClasses, P.path ∈ (p.preprocessResult st).map Prod.fst
  := by
  have hstart : Assigned p selected st [] := ⟨List.nodup_nil, by simp⟩
  have hloop := Lists.foldl_achieves (l := st.coveredEquivClasses)
    (D := fun P l => P.path ∈ l.map Prod.fst)
    (f := fun l P => (p.arrange st.covered).foldl (assign st P) l) hstart
    fun l hl P hP => by
      obtain ⟨⟨hassigned, hkeys⟩, hcovers, -⟩ := assign_spec h hl hP
      obtain ⟨-, c, hc, hsub⟩ := h.separates.covered P hP
      refine ⟨hassigned, hcovers c ((p.perm st.covered).mem_iff.mpr hc) hsub, ?_⟩
      intro P' hP'
      apply hkeys hP'
  exact ⟨hloop.1, hloop.2.1⟩

/-- The paths of the covered classes are told apart by their answers. -/
theorem Assigned.family (hassigned : Assigned p selected st l) (h : p.Separates selected st) :
  Family st.conditions 0 l
  where
  apart := by
    have hpaths : l.Pairwise fun e e' => e.1 ≠ e'.1 := List.pairwise_map.mp hassigned.nodup
    apply hpaths.imp_of_mem
    intro e e' he he' hne
    obtain ⟨-, P, hP, hpath, -⟩ := hassigned.right e he
    obtain ⟨-, P', hP', hpath', -⟩ := hassigned.right e' he'
    rw [← hpath, ← hpath'] at hne ⊢
    apply h.splits.apart.forall (mem_classes.mpr (.inl hP)) (mem_classes.mpr (.inl hP'))
    rintro rfl
    exact hne rfl
  common := ⟨[], rfl, fun e _ => List.nil_prefix⟩
  indexed := by
    intro e he j x hx
    obtain ⟨-, P, hP, hpath, -⟩ := hassigned.right e he
    have hclass : P ∈ classes st := mem_classes.mpr (.inl hP)
    obtain ⟨i, hi⟩ := List.exists_mem_of_ne_nil _ (h.splits.nonempty P hclass)
    rw [← hpath] at hx
    rw [(h.splits.follows P hclass i hi).getElem? (List.getElem?_eq_some_iff.mp hx).1] at hx
    cases hx
    rw [answer]
    split
    · exact .inl rfl
    · exact .inr rfl
  short := by
    intro e he
    obtain ⟨-, P, hP, hpath, -⟩ := hassigned.right e he
    have := (h.covered P hP).1
    rw [← hpath]
    omega

/-- A selected example takes the path of an expression that is right on it. -/
theorem exists_assigned (h : p.Good selected st) (houtsider : st.outsider = []) {i : ℕ}
    (hi : i < selected.length) :
  ∃ e ∈ p.preprocessResult st, p.Reaches selected st.conditions i e.1 ∧ p.Right selected e.2 i ∧
    ∃ P ∈ st.coveredEquivClasses, P.path = e.1
  := by
  obtain ⟨hassigned, hkeys⟩ := preprocessResult_spec h
  obtain ⟨P, hP, hmem⟩ := h.separates.exists_covered houtsider hi
  obtain ⟨e, he, hpath⟩ := List.mem_map.mp (hkeys P hP)
  obtain ⟨-, P', hP', hpath', hright⟩ := hassigned.right e he
  have hclass : P ∈ classes st := mem_classes.mpr (.inl hP)
  have hclass' : P' ∈ classes st := mem_classes.mpr (.inl hP')
  have hfollows := h.separates.splits.follows P hclass i hmem
  have hmem' : i ∈ P'.members := by
    apply h.separates.splits.mem_of_follows hi hclass'
    rw [hpath', hpath]
    exact hfollows
  refine ⟨e, he, ⟨?_, ?_⟩, hright i hmem', P, hP, hpath.symm⟩
  · rw [hpath]
    exact hfollows
  · rw [hpath]
    apply h.separates.evaluated P hclass i hmem

end Preprocess

/-! ### The result -/

theorem Interpreted.solves (hU : p.Interpreted U rank) {e : Term 64} (he : p.Derives p.start e)
    {i : ℕ} (hright : p.Right selected e i) :
  p.Solves selected U e i
  := by
  obtain ⟨v, ⟨args, hargs, hv⟩, hexpected⟩ := hright
  obtain ⟨z, hz, rfl⟩ := hU.exists_denote he (mem_input hargs) hv
  exact ⟨args, z, hargs, hz, hexpected⟩

/-- If an enumeration ends without an expression that is right on all selected examples, the tree
of conditionals exists, and it is right on all of them. -/
theorem generateResult_spec (hU : p.Interpreted U rank) {st : State} (h : p.Returned selected st)
    (hsel : selected ≠ []) (hdefinition : st.definition = none) {n : ℕ}
    (hn : st.conditions.length < 2 * (1 + n)) (hn' : 1 ≤ n) :
  ∃ t, p.generateResult n st = some t ∧ p.Derives p.start t ∧
    ∀ i < selected.length, p.Solves selected U t i
  := by
  have hgood := h.good
  have hseparates := hgood.separates
  have houtsider := h.outsider hdefinition
  have hconds : Conditions p st.conditions := hgood.conditions
  obtain ⟨-, hasked⟩ := hgood.incomplete hdefinition
  obtain ⟨hassigned, -⟩ := preprocessResult_spec hgood
  have hfamily := hassigned.family hseparates
  have hlt : ∀ e ∈ p.preprocessResult st, 0 < e.1.length := by
    intro e he
    obtain ⟨-, P, hP, hpath, -⟩ := hassigned.right e he
    rw [← hpath]
    apply List.length_pos_iff.mpr (hasked P hP)
  have hanswered := fun e he => hfamily.answered he (hlt e he)
  have hexprs : ∀ e ∈ p.preprocessResult st, p.Derives p.start e.2 := by
    intro e he
    apply hgood.coveredExpr e.2 (hassigned.right e he).1
  obtain ⟨cond, hcond⟩ : ∃ cond, st.conditions[2 * 0]? = some cond := by
    obtain ⟨e, he, -⟩ := exists_assigned hgood houtsider (List.length_pos_iff.mpr hsel)
    have := hfamily.short e he
    have := hlt e he
    exact ⟨_, List.getElem?_eq_getElem (by omega)⟩
  obtain ⟨⟨i, hi, htrue⟩, i', hi', hfalse⟩ := hseparates.divides cond hcond
  obtain ⟨t1, ht1, hd1⟩ : ∃ t1, p.construct st.conditions n 1
      (selectConds 0 (p.preprocessResult st)) = some (some t1) ∧
        p.Decides selected U st.conditions (selectConds 0 (p.preprocessResult st)) t1 := by
    obtain ⟨e, he, hreaches, -⟩ := exists_assigned hgood houtsider hi
    have hmem := (hfamily.mem_of_reaches he (hlt e he) hcond hreaches).1 htrue
    have hne := List.ne_nil_of_mem hmem
    exact (hfamily.select (b := 0) (by decide)).exists_construct hU hconds (derives_select hexprs)
      hn hn' hne
  obtain ⟨t2, ht2, hd2⟩ : ∃ t2, p.construct st.conditions n 1
      (selectConds 1 (p.preprocessResult st)) = some (some t2) ∧
        p.Decides selected U st.conditions (selectConds 1 (p.preprocessResult st)) t2 := by
    obtain ⟨e, he, hreaches, -⟩ := exists_assigned hgood houtsider hi'
    have hmem := (hfamily.mem_of_reaches he (hlt e he) hcond hreaches).2 hfalse
    have hne := List.ne_nil_of_mem hmem
    exact (hfamily.select (b := 1) (by decide)).exists_construct hU hconds (derives_select hexprs)
      hn hn' hne
  obtain ⟨t, ht⟩ := dispatch_branchCombinator (p := p) cond t1 t2
  have hdecides := decides_dispatch hU hfamily hconds hanswered hcond hd1 hd2 ht
  refine ⟨t, ?_, hdecides.derives, ?_⟩
  · rw [generateResult, hcond, ht1, ht2]
    simp only [Option.bind_eq_bind, Option.bind_some, ht]
  · intro i hi
    obtain ⟨e, he, hreaches, hright, -⟩ := exists_assigned hgood houtsider hi
    obtain ⟨args, z, hargs, hz, hexpected⟩ := hU.solves (hexprs e he) hright
    refine ⟨args, z, hargs, ?_, hexpected⟩
    rw [hdecides.evaluates e he i args hargs hreaches, hz]

theorem Returned.result_spec (hU : p.Interpreted U rank) {st : State} (h : p.Returned selected st)
    (hsel : selected ≠ []) :
  ∃ t, p.result st = some t ∧ p.Derives p.start t ∧ ∀ i < selected.length, p.Solves selected U t i
  := by
  cases hdefinition : st.definition with
  | some e =>
      obtain ⟨hd, hright⟩ := h.good.definition e hdefinition
      refine ⟨e, by rw [result, hdefinition], hd, ?_⟩
      intro i hi
      apply hU.solves hd (hright i hi)
  | none =>
      rw [result, hdefinition]
      apply generateResult_spec hU h hsel hdefinition
      · omega
      · omega

/-- The result of an enumeration that returns is there, it is an expression of the grammar, and
the solver gives it the expected outputs of all selected examples. -/
theorem result_solves (hU : p.Interpreted U rank) (hsel : selected ≠ [])
    (numSample ecCounter iter : ℕ) :
  Ends (fun x => ∀ st, x = .returned st → ∃ t, p.result st = some t ∧ p.Derives p.start t ∧
      ∀ i < selected.length, p.Solves selected U t i)
    (fun _ => True) (p.generate selected numSample ecCounter iter)
  := by
  apply (generate_spec hU.freshNames hsel numSample ecCounter iter).imp
  · rintro _ hleft st rfl
    apply hleft.result_spec hU hsel
  · intro st _
    trivial

theorem result_solves_negateUnlessOne :
  Ends (fun x => ∀ st, x = .returned st → ∃ t, negateUnlessOne.result st = some t ∧
      negateUnlessOne.Derives negateUnlessOne.start t ∧
      ∀ i < firstAndLast.length, negateUnlessOne.Solves firstAndLast if0Interpretation t i)
    (fun _ => True) (negateUnlessOne.generate firstAndLast 1 0 4)
  := by
  apply result_solves interpreted_negateUnlessOne (by decide)

/-- The second size gives a condition, and the third one the negation. -/
example :
  (match negateUnlessOne.generate firstAndLast 1 0 3 with
    | .error (.returned st) => negateUnlessOne.result st
    | _ => none)
    = some (.app "if0" [.app "bvand" [.symbol "x", .literal 1], .symbol "x",
        .app "bvnot" [.symbol "x"]])
  := by
  decide +kernel

end PBEEnumSize

end DryadSynth
